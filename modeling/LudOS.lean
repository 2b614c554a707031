import LudOS.Utils.Timers
import LudOS.Unicode.Utf8
import LudOS.Utils.KernelString
import LudOS.Utils.CircularBuffer
import LudOS.Libc.Memory
import LudOS.Libc.Strings
import LudOS.Libc.Conversions
import LudOS.Storage.WriteBounds
import LudOS.Storage.CacheTransparency
import LudOS.Storage.Eviction
import LudOS.Storage.Controllers
import LudOS.Platform.Registers
import LudOS.Fs.PathUtils
import LudOS.Utils.CommandLine
import LudOS.Time.Calendar
import LudOS.Fs.Pipe
import LudOS.Fs.Mbr
import LudOS.Fs.TarTree
import LudOS.Fs.LookupTermination
import LudOS.Fs.DirectoryNames
import LudOS.Fs.SearchPermission
import LudOS.Mem.UserPtr
import LudOS.Mem.VirtualPages
import LudOS.Mem.BootMap
import LudOS.Fs.Chroot
import LudOS.Tasking.Semaphore
import LudOS.Tasking.Timeout
import LudOS.Tasking.WaitPid
import LudOS.Tasking.Scheduler
import LudOS.Tasking.Exec
import LudOS.Tasking.FaultHandlers
import LudOS.Tasking.SignalFrames
import LudOS.Ext2.Mount
import LudOS.Ext2.StandardPath
import LudOS.Ext2.BlockCount
import LudOS.Ext2.Directory
import LudOS.Ext2.ZeroBuffer
import LudOS.Tasking.Fork
