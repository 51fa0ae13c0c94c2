import Xv6.Laws.Fs.Admission
import Xv6.Laws.Fs.Path
import Xv6.Laws.Fs.Grow
import Xv6.Laws.Fs.Bcache
import Xv6.Laws.Proc.Guarantee
import Xv6.Laws.Proc.Zombie
import Xv6.Laws.Proc.OneCpu
import Xv6.Laws.Proc.Quantum
import Xv6.Laws.Proc.Window
import Xv6.Laws.Proc.Image
import Xv6.Laws.Proc.Join
import Xv6.Laws.Proc.Sleepers
import Xv6.Laws.Vm.Sbrk
import Xv6.Laws.Vm.Load
import Xv6.Laws.Vm.Argv
import Xv6.Laws.Vm.Failure
import Xv6.Laws.Sys.Args
import Xv6.Laws.Sys.Console
