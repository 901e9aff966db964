import OrderingBugs.Dpdk.Cbmc
import OrderingBugs.Dpdk.Counter
import OrderingBugs.Dpdk.Driver
import OrderingBugs.Dpdk.Fairness
import OrderingBugs.Dpdk.Weak
import OrderingBugs.DragonWell.Publication
import OrderingBugs.Harness.GtidMode
import OrderingBugs.Harness.Includeos
import OrderingBugs.Harness.RwlockDeadlock
import OrderingBugs.Harness.StackOverflow
import OrderingBugs.Harness.StoreBuffering
import OrderingBugs.Harness.UnsafePublish
import OrderingBugs.Harness.UtRelaxWeak
import OrderingBugs.Harness.VolatileBug
import OrderingBugs.Jdk.ObjectMonitor
import OrderingBugs.Linux.CbmcPso
import OrderingBugs.Linux.Fairness
import OrderingBugs.Linux.Genmc
import OrderingBugs.Linux.Weak
import OrderingBugs.Linux.WeakFairness
import OrderingBugs.Lock.Adjacent
import OrderingBugs.Lock.Fifo
import OrderingBugs.MariaDb.Deletion
import OrderingBugs.MariaDb.Spinlock
import OrderingBugs.Memory.Exposure
import OrderingBugs.Memory.Simple
import OrderingBugs.Mysql.Cbmc
import OrderingBugs.Mysql.Genmc
import OrderingBugs.Mysql.Mutex
import OrderingBugs.Mysql.Recursion
import OrderingBugs.OpenBlas.Genmc
import OrderingBugs.OpenBlas.Pool
import OrderingBugs.OpenBlas.Reference
import OrderingBugs.OpenMpi.Integrity
import OrderingBugs.OpenMpi.Stack
import OrderingBugs.Sel4.Cbmc
import OrderingBugs.Sel4.Fairness
import OrderingBugs.Transition.System
import OrderingBugs.Verdict.Cbmc
import OrderingBugs.Verdict.Crossing
import OrderingBugs.Verdict.Focus
import OrderingBugs.Verdict.Genmc
import OrderingBugs.Verdict.Port
import OrderingBugs.Xen.Cbmc
import OrderingBugs.Xen.EventCounter
import OrderingBugs.Xen.RwLock
import OrderingBugs.Xsk.Genmc
