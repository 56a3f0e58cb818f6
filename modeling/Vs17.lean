import Vs17.Library.Loop
import Vs17.Library.Runs
import Vs17.Library.Words
import Vs17.Library.Framing
import Vs17.Library.Mutex
import Vs17.Library.Text
import Vs17.Library.Resources
import Vs17.Library.Blocks
import Vs17.Library.CString
import Vs17.Library.Lines
import Vs17.Library.Arrays
import Vs17.Library.Counted
import Vs17.Library.Stable
import Vs17.Library.Escape
import Vs17.Library.Ints
import Vs17.Library.Shifting
import Vs17.Library.Squeeze
import Vs17.Library.Removal
import Vs17.Library.Parting
import Vs17.Library.Traces
import Vs17.Library.Subsets
import Vs17.Library.Bisection
import Vs17.Library.Ascending
import Vs17.Library.Windows
import Vs17.Library.Multibyte
import Vs17.Library.Capacity
import Vs17.Asio.MsgDefine
import Vs17.Asio.MsgGet
import Vs17.Asio.Cutting
import Vs17.Asio.Connection
import Vs17.Asio.TestClient
import Vs17.Asio.Streams
import Vs17.Asio.Progress
import Vs17.Asio.Responses
import Vs17.Asio.MsgProcess
import Vs17.Asio.HeaderContract
import Vs17.Asio.Reply
import Vs17.Asio.Delivery
import Vs17.Asio.Server
import Vs17.Asio.Registry
import Vs17.Asio.Client
import Vs17.Asio.ClientFlag
import Vs17.Mylog.Writer
import Vs17.Mylog.Shutdown
import Vs17.Mylog.Formatting
import Vs17.Mylog.Instances
import Vs17.Mylog.LogFile
import Vs17.Logger.ProcessEntries
import Vs17.Logger.Contents
import Vs17.Select.Server
import Vs17.Select.Myrecv
import Vs17.Sort.Partition
import Vs17.Sort.QuickSort
import Vs17.Sort.Insertion
import Vs17.Sort.Exchange
import Vs17.Sort.HeapSort
import Vs17.Monitor.Handles
import Vs17.Rabbit.Connection
import Vs17.Rabbit.Messages
import Vs17.Md5.Transform
import Vs17.Md5.Update
import Vs17.Md5.FileMd5
import Vs17.Url.Record
import Vs17.Url.HandleMem
import Vs17.Url.Splitting
import Vs17.Url.Independence
import Vs17.Str.StrReplace
import Vs17.Bitree.Node
import Vs17.Bitree.Traversal
import Vs17.Bitree.Build
import Vs17.Bitree.Insert
import Vs17.Bitree.Release
import Vs17.Str.StrRemoveBlank
import Vs17.Str.StrDel
import Vs17.Str.StrCompare
import Vs17.Container.MyQueue
import Vs17.Backtracking.Decimal
import Vs17.Backtracking.Subsets
import Vs17.Container.BinarySearch
import Vs17.Container.BinaryCompare
import Vs17.Str.MaxSubStr
import Vs17.Str.CodePages
import Vs17.Str.Gbk2utf8
import Vs17.Str.Utf82gbk
import Vs17.Str.CodeConvert
import Vs17.Container.V2vCMD
import Vs17.Container.V2vMSG
import Vs17.Library.OnesComplement
import Vs17.Net.Checksum
import Vs17.Library.Fields
import Vs17.Net.Myread
import Vs17.Library.Chains
import Vs17.Monitor.Walkers
import Vs17.Monitor.ProcessCPU
import Vs17.Monitor.WorkingSet
import Vs17.Library.Multimap
import Vs17.Library.Tokens
import Vs17.Monitor.Ports
import Vs17.Library.Slots
import Vs17.Monitor.IOStatistic
import Vs17.Monitor.IOCalls
import Vs17.Monitor.IOSpeed
import Vs17.Monitor.CpuUsage
import Vs17.Asio.LoadConfig
import Vs17.Asio.GetProcessor
import Vs17.InterProcess.Semaphores
import Vs17.Sort.Adjust
import Vs17.Url.WriteMemory
import Vs17.Library.Population
import Vs17.Pool.ThreadPool
import Vs17.Pool.Moves
import Vs17.Pool.Roster
import Vs17.Pool.Tasks
import Vs17.Pool.Blocking
import Vs17.Pool.Draining
import Vs17.Library.Rings
import Vs17.Net.Buffer
import Vs17.Net.Wintun
import Vs17.Net.WintunFifo
import Vs17.Library.Tlv
import Vs17.Net.DhcpOptions
import Vs17.Amqp.Assembly
import Vs17.Amqp.Channel
import Vs17.Amqp.Consumers
import Vs17.Amqp.BasicMessage
import Vs17.Amqp.Contents
import Vs17.Amqp.Messages
