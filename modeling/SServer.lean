import SServer.Queue.Refine
import SServer.Queue.RaceSafe
import SServer.Net.Stream
import SServer.Net.Recv
import SServer.Net.Framing
import SServer.Net.Header
import SServer.Net.ReadPath
import SServer.Worker.Recv
import SServer.Proto.Reuse
import SServer.Proto.Life
import SServer.Proto.Sessions
import SServer.Proto.Service
import SServer.Proto.Delivery
import SServer.Queue.Drained
import SServer.Proto.Notify
import SServer.Proto.Atomic
import SServer.Lib.ListHead
import SServer.Table.EpInfo
import SServer.Table.MaxFd
import SServer.Table.Lists
import SServer.Proto.Listen
import SServer.Table.Restart
import SServer.Net.Shutdown
import SServer.Worker.Serv
import SServer.Net.Wakeup
import SServer.Net.Capacity
import SServer.Net.Returns
import SServer.Net.Asserts
import SServer.Table.Dispatch
import SServer.Net.Passes
import SServer.Net.Room
import SServer.Net.Cuts
import SServer.Queue.Bounds
import SServer.Lib.CStr
import SServer.Mcast.Cache
import SServer.Mcast.Noti
import SServer.Mcast.Reload
import SServer.Mcast.Datagram
import SServer.Lib.Span
import SServer.Table.Pages
import SServer.Master.Supervise
import SServer.Conf.Scan
import SServer.Conf.Simple
import SServer.Conf.Work
import SServer.Table.Index
import SServer.Master.Term
import SServer.Lib.Edge
import SServer.Queue.Wake
import SServer.Proto.Reply
import SServer.Worker.Inherit
import SServer.Master.Accept
import SServer.Conf.Setting
import SServer.Mcast.Group
import SServer.Util.Title
import SServer.Net.Socket
import SServer.Lib.Rank
import SServer.Proto.Settle
import SServer.Proto.Wire
