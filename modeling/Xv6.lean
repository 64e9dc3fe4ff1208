import Xv6.Log.Overflow
import Xv6.Pipe.Sleepers
import Xv6.Proc.Hygiene
import Xv6.Proc.ByPid
import Xv6.Proc.Cadence
import Xv6.Proc.Reap
import Xv6.Proc.Throttle
import Xv6.Proc.Ticks
import Xv6.Proc.Window
import Xv6.Vm.Fork
import Xv6.User.Copyout
import Xv6.User.Snapshot
import Xv6.Vm.Tables
import Xv6.Sleep.Wakeup
import Xv6.Sleep.Kill
import Xv6.Virtio.Rounds
import Xv6.Bcache.Contents
import Xv6.Locks.Deadlock
import Xv6.Fs.Names
import Xv6.Fs.Paths
import Xv6.User.Rank
import Xv6.User.Memmove
import Xv6.User.Printint
import Xv6.User.Grep
import Xv6.Console.Loss
import Xv6.Umalloc.Memory
import Xv6.Sh.Words
import Xv6.Sh.Run
import Xv6.Console.Uart
import Xv6.Locks.Interrupts
