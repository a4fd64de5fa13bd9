import EasyCore.Kernel.MemCopy
import EasyCore.Kernel.SmallMemSearch
import EasyCore.Kernel.SmallMemRealloc
import EasyCore.Kernel.MemHeaps
import EasyCore.Kernel.SchedRun
import EasyCore.Kernel.Realises
import EasyCore.Kernel.MutexPrio
import EasyCore.Kernel.PrioList
import EasyCore.Kernel.Mailbox
import EasyCore.Kernel.MsgQueueRun
import EasyCore.Kernel.Event
import EasyCore.Kernel.MemPoolWait
import EasyCore.Kernel.TimerSoft
import EasyCore.Kernel.TimerThread
import EasyCore.Kernel.PrintfNumber
import EasyCore.Kernel.SlabRun
import EasyCore.Kernel.SlabPages
import EasyCore.Kernel.Object
import EasyCore.App.Base64Stream
import EasyCore.App.ConvHexStr
import EasyCore.App.Crc16
import EasyCore.App.Parma
import EasyCore.App.TcpWrite
import EasyCore.App.AppEv
import EasyCore.App.AppTimer
import EasyCore.App.ConfigCrash
import EasyCore.App.PppService
import EasyCore.App.HttpSegments
import EasyCore.App.SpiStream
import EasyCore.App.BootProgram
import EasyCore.App.HttpUrl
import EasyCore.App.JpegUpload
import EasyCore.App.IspBudget
import EasyCore.App.IspAvr
import EasyCore.App.SerialCam
import EasyCore.App.SerialAt
import EasyCore.App.SmsRecv
import EasyCore.Finsh.Accepts
import EasyCore.Finsh.Width
import EasyCore.Finsh.Value
import EasyCore.Finsh.LiteralRun
import EasyCore.Finsh.Names
import EasyCore.Finsh.Msh
import EasyCore.Finsh.Terminates
import EasyCore.Finsh.ShellRun
import EasyCore.Finsh.HeapRun
import EasyCore.Finsh.HeapString
import EasyCore.Dfs.Normalize
import EasyCore.Dfs.OpenFiles
import EasyCore.Dfs.RamfsNames
import EasyCore.Dfs.RamfsData
import EasyCore.Dfs.Romfs
import EasyCore.Utilities.Ymodem
import EasyCore.Drivers.RingBufferForce
import EasyCore.App.IspReply
import EasyCore.Drivers.DataQueueIrq
import EasyCore.Drivers.DataQueueWake
import EasyCore.Drivers.Pipe
import EasyCore.Drivers.Completion
import EasyCore.Drivers.AlarmRun
import EasyCore.Pthreads.CondRun
import EasyCore.Pthreads.Barrier
import EasyCore.Pthreads.Rwlock
import EasyCore.Pthreads.Named
import EasyCore.Pthreads.LifecycleRun
import EasyCore.Pthreads.ClockTime
