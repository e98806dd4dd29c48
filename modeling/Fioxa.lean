import Fioxa.Allocator.HeapWindow
import Fioxa.Driver.Ahci
import Fioxa.Driver.Madt
import Fioxa.Driver.Pci
import Fioxa.Elf.Faithful
import Fioxa.Fs.Cat
import Fioxa.Fs.DirectoryCalls
import Fioxa.Fs.Geometry
import Fioxa.Fs.LongNames
import Fioxa.Fs.Paths
import Fioxa.Init.Clients
import Fioxa.Init.Matching
import Fioxa.Init.Requests
import Fioxa.Input.Ps2
import Fioxa.Kernel.Capacity
import Fioxa.Kernel.HandleLaws
import Fioxa.Kernel.HandleOwnership
import Fioxa.Kernel.InterruptWaiters
import Fioxa.Net.Arp
import Fioxa.Paging.FaultLookup
import Fioxa.Paging.FrameAccounting
import Fioxa.Paging.PageTableMap
import Fioxa.Paging.PhysWindow
import Fioxa.Paging.RangeCalls
import Fioxa.Sched.Kill
import Fioxa.Sched.RunQueue
import Fioxa.Sched.Sleepers
import Fioxa.Sched.Survival
import Fioxa.Syscall.UserPointers
import Fioxa.User.ChannelRead
import Fioxa.User.ReadResize
import Fioxa.User.ServiceClients
