import EterOS.Mm.CloneDestroy
import EterOS.Mm.Fork
import EterOS.Sched.Sem
import EterOS.Sched.FutexWords
import EterOS.Sched.Stopped
import EterOS.Fs.JfsMount
import EterOS.Fs.JfsLinks
import EterOS.Fs.JfsNames
import EterOS.Fs.ReadBounds
import EterOS.Syscall.OpenersRun
import EterOS.Syscall.FrameRefs
import EterOS.Syscall.Timeouts
import EterOS.Libc.Pthread
import EterOS.Net.Dhcp
import EterOS.Net.Mbox
import EterOS.Libc.MallocRun
import EterOS.Gfx.Compositor
import EterOS.Shell.Ota
import EterOS.Libc.StdioRun
import EterOS.Shell.AccountRuns
import EterOS.Mm.NextFit
import EterOS.Mm.BootPages
import EterOS.Mm.OnePage
import EterOS.Mm.VerifyAccess
import EterOS.Syscall.FileIo
import EterOS.Syscall.Sigsuspend
import EterOS.Sched.Wait
import EterOS.Syscall.SigFrames
import EterOS.Sched.ExecFail
import EterOS.Mm.HeapResize
import EterOS.Mm.HeapFooters
import EterOS.Fs.FatRename
import EterOS.Fs.InitrdTree
import EterOS.Fs.JfsFormat
import EterOS.Fs.JfsJournal
import EterOS.Fs.PartitionIo
import EterOS.Syscall.DirFds
import EterOS.Syscall.Timerfd
import EterOS.Libc.Sort
import EterOS.Crypto.Sha512
import EterOS.Libc.WordStrings
import EterOS.Libc.Stdout
import EterOS.Libc.Environ
import EterOS.Libc.Strtol
import EterOS.Libc.Time
import EterOS.Text.Vga
