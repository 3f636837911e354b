import Xv6.Vm.Account
import Xv6.Vm.Trees
import Xv6.Vm.ForkFail
import Xv6.Vm.StoreFault
import Xv6.Dev.Protocol
import Xv6.Proc.Reap
import Xv6.Fs.Capacity
import Xv6.Fs.Atomic
import Xv6.Fs.FileTable
import Xv6.Ipc.Sleepers
import Xv6.Ipc.Killed
import Xv6.Dev.Reads
import Xv6.User.Command
import Xv6.User.Break
import Xv6.Fs.ReadWrite
import Xv6.Fs.Chunks
import Xv6.Vm.Sbrk
import Xv6.Vm.CopyOut
import Xv6.Vm.Argv
import Xv6.Ipc.PipeRead
import Xv6.Ipc.FileRead
import Xv6.User.Plumbing
import Xv6.User.Grep
import Xv6.Fs.SharedFd
