import ToutOS.Base.Run
import ToutOS.Base.Ring
import ToutOS.Base.Chain
import ToutOS.Base.ByteMem
import ToutOS.Base.Stretch
import ToutOS.Base.Tiling
import ToutOS.Base.Radix
import ToutOS.Base.Ownership
import ToutOS.Base.Relate
import ToutOS.Base.Budget
import ToutOS.Base.Ledger
import ToutOS.Base.FirstMin
import ToutOS.Lib.CircularBuffer
import ToutOS.Lib.ConcurrentCbuf
import ToutOS.Base.Numeral
import ToutOS.Base.CString
import ToutOS.Base.Batches
import ToutOS.Base.OrderSign
import ToutOS.Base.Walk
import ToutOS.Base.Arm
import ToutOS.Base.Interrupted
import ToutOS.Lib.Print
import ToutOS.Lib.PrintDigits
import ToutOS.Lib.PrintLoop
import ToutOS.Lib.Strings
import ToutOS.Mm.Pool
import ToutOS.Mm.PoolLayout
import ToutOS.Mm.PoolSpec
import ToutOS.Mm.PoolRuns
import ToutOS.Mm.PoolStale
import ToutOS.Mm.PoolSearch
import ToutOS.Mm.PoolTotal
import ToutOS.Mm.PageTable
import ToutOS.Mm.PageTableSpec
import ToutOS.Mm.Mapping
import ToutOS.Mm.Leaf
import ToutOS.Mm.PagePool
import ToutOS.Mm.PageRuns
import ToutOS.Mm.PagesUsage
import ToutOS.Mm.PageOrders
import ToutOS.Mm.TableCount
import ToutOS.Kernel.Task
import ToutOS.Kernel.SpinLock
import ToutOS.Kernel.Mutex
import ToutOS.Kernel.MutexExclusion
import ToutOS.Kernel.Preempt
import ToutOS.Kernel.Uart
import ToutOS.Kernel.LineInput
import ToutOS.Kernel.UartTx
import ToutOS.Kernel.Printk
import ToutOS.Kernel.PrintkLog
import ToutOS.Kernel.Timer
import ToutOS.Kernel.TimerHistory
import ToutOS.Kernel.TimerSoftirq
import ToutOS.Kernel.Softirq
import ToutOS.Kernel.Vm
import ToutOS.Kernel.Kmalloc
import ToutOS.Kernel.Process
import ToutOS.Kernel.Slots
import ToutOS.Kernel.Smp
import ToutOS.Kernel.Tlb
import ToutOS.Kernel.Syscall
import ToutOS.Kernel.Space
import ToutOS.Kernel.Release
import ToutOS.Kernel.Paging
import ToutOS.Kernel.Brk
import ToutOS.Kernel.Unmap
import ToutOS.Kernel.Copying
import ToutOS.Kernel.System
import ToutOS.Kernel.Forking
import ToutOS.Kernel.Steps
import ToutOS.Kernel.Isolation
import ToutOS.Kernel.ForkResults
import ToutOS.Kernel.Break
import ToutOS.Kernel.ReadOnly
import ToutOS.Kernel.UserMemory
import ToutOS.Kernel.MemoryRuns
import ToutOS.Kernel.Requests
import ToutOS.Kernel.Shortage
import ToutOS.Kernel.Identity
import ToutOS.Kernel.Ttbr
import ToutOS.Kernel.Demand
import ToutOS.Kernel.Balance
import ToutOS.Kernel.Records
import ToutOS.Kernel.Agree
import ToutOS.Kernel.Residue
import ToutOS.Kernel.Scheduler
import ToutOS.Kernel.Waiting
import ToutOS.Kernel.ForkFrames
import ToutOS.Kernel.Progress
import ToutOS.Kernel.ReadStdin
import ToutOS.Kernel.FreeTables
import ToutOS.Kernel.Loading
import ToutOS.Kernel.DumpStack
import ToutOS.Kernel.Entry
import ToutOS.Kernel.Switch
import ToutOS.Kernel.Threads
import ToutOS.Kernel.Swapper
import ToutOS.Kernel.Resume
import ToutOS.Kernel.Interrupts
import ToutOS.Kernel.Fairness
import ToutOS.Kernel.LockOrder
import ToutOS.Usr.Unistd
import ToutOS.Usr.Stdlib
import ToutOS.Usr.OwnSbrk
