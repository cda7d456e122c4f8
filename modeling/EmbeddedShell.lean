import EmbeddedShell.Execution
import EmbeddedShell.Memory
import EmbeddedShell.CString
import EmbeddedShell.Uart
import EmbeddedShell.Logger
import EmbeddedShell.LoggerRuns
import EmbeddedShell.LogRecord
import EmbeddedShell.Flash
import EmbeddedShell.Network
import EmbeddedShell.Filesystem
import EmbeddedShell.Shell
import EmbeddedShell.ShellRuns
import EmbeddedShell.LinkedList
import EmbeddedShell.Pbuf
import EmbeddedShell.EthernetIf
import EmbeddedShell.EthernetRuns
import EmbeddedShell.FlashProgram
import EmbeddedShell.EthernetDma
import EmbeddedShell.EthernetTx
import EmbeddedShell.LogBounds
import EmbeddedShell.Framing
import EmbeddedShell.Readline
import EmbeddedShell.FreeRtos
import EmbeddedShell.SysArch
import EmbeddedShell.TcpServer
import EmbeddedShell.LinkState
import EmbeddedShell.LoggerInvariant
import EmbeddedShell.Listing
import EmbeddedShell.StaleOutput
import EmbeddedShell.Heap
import EmbeddedShell.HeapRuns
import EmbeddedShell.Queue
import EmbeddedShell.QueueTasks
import EmbeddedShell.QueueWakeups
import EmbeddedShell.DoublyLinked
import EmbeddedShell.TaskLists
import EmbeddedShell.Scheduler
import EmbeddedShell.SchedulerInvariant
import EmbeddedShell.SchedulerRuns
import EmbeddedShell.DhcpMessage
import EmbeddedShell.DhcpReply
import EmbeddedShell.DhcpRequests
import EmbeddedShell.DhcpClient
import EmbeddedShell.DhcpAddress
