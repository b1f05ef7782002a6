import Style9.Apfs.Fletcher
import Style9.Apfs.Grants
import Style9.Apfs.Lookup
import Style9.Apfs.Ring
import Style9.Apfs.Split
import Style9.Apfs.Versions
import Style9.Kern.Echild
import Style9.Kern.ExecFrame
import Style9.Kern.HeapRuns
import Style9.Kern.LockRanges
import Style9.Kern.Random
import Style9.Load.Exec
import Style9.Mach.Custody
import Style9.Mach.Fifo
import Style9.Mach.Holder
import Style9.Mach.Installs
import Style9.Mach.Instances
import Style9.Mach.Membership
import Style9.Mach.Rpc
import Style9.Sched.Reap
import Style9.Sched.Waiters
import Style9.User.Calendar
import Style9.Vm.Bookkeeping
import Style9.Vm.Memmap
import Style9.Vm.Racing
import Style9.Vm.Released
