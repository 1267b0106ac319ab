import Yjc.Lib.Loop
import Yjc.Lib.Run
import Yjc.Lib.Writes
import Yjc.Lib.LittleEndian
import Yjc.Lib.Strtod
import Yjc.Netlink.Attr
import Yjc.Netlink.AttrBuild
import Yjc.Netlink.AttrParse
import Yjc.Netlink.RtaNest
import Yjc.Sniffer.PacketParser
import Yjc.Sniffer.PacketAccept
import Yjc.Sniffer.PacketReuse
import Yjc.Sniffer.PacketPayload
import Yjc.Sniffer.PacketCopy
import Yjc.Lib.Framing
import Yjc.Lib.Card
import Yjc.Lib.SwapRemove
import Yjc.Lib.Links
import Yjc.Lib.DoubleLinks
import Yjc.Lib.ClassMap
import Yjc.Lib.TotalPreorder
import Yjc.Lib.Rings
import Yjc.Lib.SearchTree
import Yjc.Container.Ringbuf
import Yjc.Container.SparseVector
import Yjc.Container.VectorValue
import Yjc.Container.HeapQueue
import Yjc.Container.HashStats
import Yjc.Container.HashmapScan
import Yjc.Container.SortedLinklist
import Yjc.Container.SimpleGraph
import Yjc.Event.UnpackLength
import Yjc.Event.UnpackLengthStream
import Yjc.Event.UnpackClose
import Yjc.Event.ReadStream
import Yjc.Event.Write
import Yjc.Event.WriteControl
import Yjc.Event.WriteFree
import Yjc.Event.WriteOrder
import Yjc.Event.CloseOnce
import Yjc.Event.IoTimers
import Yjc.Event.PostEvent
import Yjc.Event.ReadbufOwner
import Yjc.Event.LoopTimers
import Yjc.Event.Bookkeeping
import Yjc.Event.Counters
import Yjc.Event.Pendings
import Yjc.Event.Reconnect
import Yjc.Watch.Select
import Yjc.Watch.Poll
import Yjc.Watch.Epoll
import Yjc.Watch.Interest
import Yjc.Container.Linklist
import Yjc.Container.ListLookup
import Yjc.Container.Skiplist
import Yjc.Container.SkiplistInsert
import Yjc.Container.SkiplistRemove
import Yjc.Container.SkiplistDelete
import Yjc.Container.SkiplistRuns
import Yjc.Container.SkiplistOrder
import Yjc.Container.GraphAttrs
import Yjc.Lib.ShortestPath
import Yjc.Container.GraphPaths
import Yjc.Container.GraphShortest
import Yjc.Lib.DepthFirst
import Yjc.Container.GraphDfs
import Yjc.Container.GraphGen
import Yjc.Util.Base64
import Yjc.Util.Base64Bounds
import Yjc.Lib.OnesComplement
import Yjc.Util.Checksum
import Yjc.Util.Fletcher
import Yjc.Lib.CrcDivision
import Yjc.Util.Crc
import Yjc.Util.JsonParser
import Yjc.Util.JsonText
import Yjc.Container.Buffer
import Yjc.Container.BufferWindow
import Yjc.Util.JsonStrings
import Yjc.Util.JsonNumbers
import Yjc.Util.JsonAccept
import Yjc.Util.JsonObject
import Yjc.Util.JsonIndex
import Yjc.Util.JsonLists
import Yjc.Util.JsonRuns
import Yjc.Util.JsonMembers
import Yjc.Util.JsonReject
import Yjc.Netlink.Exchange
import Yjc.Netlink.Foreign
import Yjc.Netlink.Message
import Yjc.Netlink.Requests
import Yjc.Lib.BitPrefix
import Yjc.Lib.ThreeWay
import Yjc.Network.PrefixAgreement
import Yjc.Network.PrefixCopy
import Yjc.Lib.CText
import Yjc.Network.PrefixText
import Yjc.Network.IfName
import Yjc.Network.Vrf
import Yjc.Network.IfTrees
import Yjc.Network.Interface
import Yjc.Util.Fletcher
import Yjc.Netlink.RtaNest
import Yjc.Event.Firing
import Yjc.Event.TimerOrder
import Yjc.Event.Overdue
import Yjc.Event.Dispatch
import Yjc.Base.Datetime
import Yjc.Network.Netmask
import Yjc.Network.CommonBits
import Yjc.Network.PrefixReaders
import Yjc.Network.VrfOrder
import Yjc.Network.IfIndex
import Yjc.Lib.RunningMax
import Yjc.Network.Connected
import Yjc.Network.ConnectedList
import Yjc.Network.Sockunion
import Yjc.Network.RandomAddr
import Yjc.Lib.CBlock
import Yjc.Base.CmdArgs
import Yjc.Base.CmdTrim
import Yjc.Base.StrHex
import Yjc.Base.ThpoolProgress
import Yjc.Base.VarintEncode
import Yjc.Base.StrReplace
import Yjc.Base.Streams
import Yjc.Util.JsonBuffer
import Yjc.Base.PtableTrim
import Yjc.Base.PtableRow
import Yjc.Base.PtablePrint
import Yjc.Base.Ptable
import Yjc.Lib.Recurrence
import Yjc.Base.Localtime
import Yjc.Base.Cron
import Yjc.Lib.BlockStream
import Yjc.Lib.Rounds
import Yjc.Lib.SecureHash
import Yjc.Util.Sha256
import Yjc.Util.Sha256Stream
import Yjc.Util.Hmac
