import Xv6.Boot.Mp
import Xv6.Files.Accounting
import Xv6.Fs.DirMap
import Xv6.Fs.LastRef
import Xv6.Fs.SharedOffset
import Xv6.Log.Admission
import Xv6.Log.Crash
import Xv6.Memmove
import Xv6.Proc.Alarm
import Xv6.Proc.ConsoleRefine
import Xv6.Proc.Kbd
import Xv6.Proc.Pipe
import Xv6.Proc.Sleeplock
import Xv6.Sched.Exclusion
import Xv6.User.GrepMatch
import Xv6.User.Ph
import Xv6.User.ShStrings
import Xv6.User.UmallocSizes
import Xv6.Vm.Copyout
import Xv6.Vm.Fork
import Xv6.Vm.Isolation
import Xv6.Vm.Release
import Xv6.Fs.Graph
import Xv6.Fs.LinkCounts
import Xv6.Fs.Lookup
