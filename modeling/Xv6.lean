import Xv6.Wp
import Xv6.ByteMem
import Xv6.Riscv
import Xv6.Kalloc
import Xv6.Vm
import Xv6.Process
import Xv6.Exec
import Xv6.Kernel
import Xv6.PageTable
import Xv6.Walk
import Xv6.Unmap
import Xv6.Freewalk
import Xv6.AddrSpace
import Xv6.Grow
import Xv6.Create
import Xv6.Cow
import Xv6.Copyout
import Xv6.Share
import Xv6.Image
import Xv6.Invariant
import Xv6.View
import Xv6.Ops
import Xv6.Fork
import Xv6.Steps
import Xv6.Reach
import Xv6.RefCount
import Xv6.StoreFault
import Xv6.Eager
import Xv6.Isolation
import Xv6.CowFault
import Xv6.ExecArgs
import Xv6.SysExec
import Xv6.Ring
import Xv6.Rounds
import Xv6.Crew
import Xv6.Cafe
import Xv6.Parlour
import Xv6.Turns
import Xv6.CafeClose
import Xv6.CafeLedger
import Xv6.CafeOutcome
import Xv6.ParlourTurns
import Xv6.ParlourHouse
import Xv6.ParlourService
import Xv6.ParlourCounts
import Xv6.ParlourClosing
import Xv6.Pipe
import Xv6.PipeReady
import Xv6.PipeFifo
import Xv6.Log
import Xv6.LogAdmission
import Xv6.LogCrash
import Xv6.Dlist
import Xv6.Bcache
import Xv6.BcacheInv
import Xv6.BlockArray
import Xv6.Fs
import Xv6.Sysfile
import Xv6.FsBlocks
import Xv6.FsTable
import Xv6.FsCalls
import Xv6.FileRefs
import Xv6.FileRuns
import Xv6.ForkFail
import Xv6.Pbs
import Xv6.PbsScan
import Xv6.PbsRuns
import Xv6.SetPriorityCommand
import Xv6.Calls
import Xv6.WaitTimes
import Xv6.Waitx
import Xv6.Smp
import Xv6.SmpMoves
import Xv6.SmpInv
import Xv6.SmpWrites
import Xv6.SmpKill
import Xv6.SmpWakeup
import Xv6.SmpFamily
import Xv6.SmpTree
import Xv6.SmpReap
import Xv6.MkfsMount
import Xv6.ShTotal
import Xv6.FsLog
import Xv6.FsFill
import Xv6.FsWrite
import Xv6.FsFile
import Xv6.FsFault
import Xv6.FsTrans
import Xv6.UmallocRuns
import Xv6.PipeRead
import Xv6.ConsoleRuns
import Xv6.Copyin
import Xv6.Mappages
import Xv6.GrowUndo
import Xv6.FsConsistent
import Xv6.FsSpace
import Xv6.FsNames
import Xv6.FsPath
import Xv6.FsUpdates
import Xv6.Memmove
import Xv6.KallocSections
import Xv6.CafeStuck
import Xv6.ParlourShort
import Xv6.ParlourDepleted
import Xv6.VirtioInv
import Xv6.Trampoline
import Xv6.Swtch
import Xv6.Kernelvec
import Xv6.Grep
import Xv6.Spinlock
import Xv6.Uart
import Xv6.Wc
import Xv6.SmpScan
import Xv6.BioLog
import Xv6.FilewriteTrans
