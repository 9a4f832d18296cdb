import Xv6.Bio.Lru
import Xv6.Dev.Console
import Xv6.Dev.Uart
import Xv6.Ftable.Footprint
import Xv6.Log.Recover
import Xv6.Log.Space
import Xv6.Mem.Growproc
import Xv6.Mem.Kalloc
import Xv6.Mem.Memmove
import Xv6.Mkfs.Holes
import Xv6.Sched.Interrupts
import Xv6.Sched.Kill
import Xv6.Sched.PipeRead
import Xv6.Sched.SleepLock
import Xv6.Sched.Tree
import Xv6.Sched.Wait
import Xv6.Sys.Entries
import Xv6.Sys.Fail
import Xv6.Sys.WellFormed
import Xv6.User.Find
import Xv6.User.Grep
import Xv6.User.Primes
import Xv6.User.Printf
import Xv6.User.Sbrk
import Xv6.User.ShGrammar
import Xv6.User.Xargs
import Xv6.Virtio.Protocol
import Xv6.Vm.Fork
import Xv6.Vm.User
