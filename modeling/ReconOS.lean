import ReconOS.Net.ArpAnswers
import ReconOS.Net.Pending
import ReconOS.Tcp.Delivery
import ReconOS.Reconfs.CheckSound
import ReconOS.Block.Once
import ReconOS.Pipe.Carries
import ReconOS.Pagecache.Forgotten
import ReconOS.Kheap.Owned
import ReconOS.Vfs.Permission
import ReconOS.Vfs.Agree
import ReconOS.Gpt.Preserve
import ReconOS.Wait.Deadline
import ReconOS.Signal.Owned
import ReconOS.Signal.Aimed
import ReconOS.Wait.Semaphore
import ReconOS.Addrspace.FaultIn
import ReconOS.Sched.Orderly
import ReconOS.Processes.Whole
import ReconOS.Registry.Restart
import ReconOS.Firewall.Damage
import ReconOS.Cookies.Sent
import ReconOS.Http.Division
import ReconOS.Users.Whole
import ReconOS.Users.Agree
import ReconOS.Smtp.Outcome
import ReconOS.Reconfs.Stream
import ReconOS.Tcp.StreamEnd
import ReconOS.Tcp.Drain
import ReconOS.Net.Accept
import ReconOS.Block.Nested
import ReconOS.Libc.Reseek
import ReconOS.Libc.Standard
import ReconOS.Reconfs.Owners
import ReconOS.Fs.Apart
import ReconOS.Malloc.Grants
import ReconOS.Pmm.Runs
import ReconOS.Gpt.Contained
import ReconOS.Elf.Refused
import ReconOS.Pagecache.Owners
import ReconOS.Vfs.Written
import ReconOS.Calculator.Whole
import ReconOS.Vfs.Listing
import ReconOS.Aml.Resolve
import ReconOS.Fs.Meaning
import ReconOS.Fat32.Covered
import ReconOS.Pagecache.WriteBack
import ReconOS.Expr.Print
import ReconOS.Work.Queue
import ReconOS.Crypt.Pbkdf2
import ReconOS.Libc.Calendar
import ReconOS.Vm.Runs
