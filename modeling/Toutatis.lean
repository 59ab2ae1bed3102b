import Toutatis.Lib.Run
import Toutatis.RbTree.Check
import Toutatis.MemAlloc.FreeTree
import Toutatis.MemAlloc.Search
import Toutatis.MemAlloc.Exhaust
import Toutatis.MemAlloc.InFull
import Toutatis.MemAlloc.Contract
import Toutatis.MemAlloc.Runs
import Toutatis.MemAlloc.Objects
import Toutatis.Paging.Conserve
import Toutatis.Paging.Reserve
import Toutatis.Paging.BootMemory
import Toutatis.Paging.MmapWalk
import Toutatis.Paging.Bitmap
import Toutatis.Paging.KernelHalf
import Toutatis.Paging.Isolation
import Toutatis.Paging.Bootstrap
import Toutatis.Paging.Accounts
import Toutatis.Paging.SharedHalf
import Toutatis.MemAlloc.Paged
import Toutatis.Sched.Ring
import Toutatis.Sched.Lifetime
import Toutatis.Sched.Frame
import Toutatis.Sched.KernelStack
import Toutatis.Sched.Context
import Toutatis.Sched.Accounting
import Toutatis.System.Handlers
import Toutatis.System.InitrdTable
import Toutatis.System.Sleep
import Toutatis.Console.Keyboard
import Toutatis.Console.Shift
import Toutatis.System.Vnode
import Toutatis.System.Pic
import Toutatis.System.Descriptors
import Toutatis.Console.Vga
import Toutatis.Console.Writers
import Toutatis.Sched.RoundRobin
import Toutatis.Console.Vsprintf
import Toutatis.Console.Render
import Toutatis.Console.Holes
import Toutatis.Console.Serial
import Toutatis.Console.Fields
import Toutatis.Console.Number
import Toutatis.Strings.Move
import Toutatis.Strings.Text
import Toutatis.Strings.Strtol
import Toutatis.Strings.Compare
import Toutatis.Strings.Itoa
import Toutatis.System.Syscall
