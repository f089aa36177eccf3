import Neo.Lib.Ordered
import Neo.Lib.Coarsest
import Neo.Lib.Odometer
import Neo.Lib.Run
import Neo.Lib.Collect
import Neo.Ip
import Neo.Network.LongestPrefix
import Neo.Network.Ipnhs
import Neo.Packet
import Neo.Process.Openflow
import Neo.Model
import Neo.Net
import Neo.Frame
import Neo.Emulation.Libnet
import Neo.Process.Forwarding
import Neo.Process.ChooseConn
import Neo.Invariant.CheckViolation
import Neo.Plankton
import Neo.Process.Cases
import Neo.Process.UpdateFib
import Neo.Process.InstallUpdate
import Neo.Lib.Rank
import Neo.Lib.Bytes
import Neo.Process.NextHops
import Neo.Process.Termination
import Neo.Process.StoredFib
import Neo.Process.Addressed
import Neo.Process.FlowTable
import Neo.Process.Answer
import Neo.Process.Transparent
import Neo.ConnMatrix
import Neo.PktHist
import Neo.Emulation.EmulationMgr
import Neo.Emulation.Inject
import Neo.Emulation.Returned
import Neo.Emulation.SendPkt
import Neo.Invariant.SetConns
import Neo.ConnSpec
import Neo.Invariant.Verdict
import Neo.Process.Frame
import Neo.Process.Progress
import Neo.Started
import Neo.EarlyEnd
import Neo.Invariant.Waypoint
import Neo.Invariant.OneRequest
import Neo.Invariant.ReplyReachability
import Neo.Invariant.Correlated
import Neo.Invariant.Consistency
import Neo.Invariant.Loop
import Neo.Process.ModelOnly
import Neo.Process.Installed
import Neo.Process.Congruence
import Neo.Process.Alike
import Neo.Process.Independence
import Neo.Invariant.Reinit
import Neo.Invariant.Reachability
import Neo.EqClass.EqClassMgr
import Neo.EqClass.Coherent
import Neo.EqClass.Split
import Neo.EqClass.Partition
import Neo.EqClass.InitialEcs
import Neo.Emulation.Rewind
import Neo.Emulation.Pool
import Neo.Network.RouteSelection
import Neo.EqClass.AllEcs
import Neo.Process.Onward
import Neo.Process.SeqAck
import Neo.Emulation.RoundTrip
import Neo.Process.Mirror
import Neo.Lib.Unordered
import Neo.UniqueStorage
import Neo.Process.Unoptimized
import Neo.Process.AnyOrder
import Neo.Process.Schedulers
import Neo.PacketOrder
import Neo.Emulation.Segments
import Neo.Emulation.Translation
import Neo.Emulation.Receive
import Neo.Process.Located
import Neo.Process.PathChoices
import Neo.Process.Kept
import Neo.Process.Accepted
import Neo.Process.Multipath
import Neo.Invariant.AcceptedOnce
import Neo.Lib.Scanf
import Neo.IpText
import Neo.IpRange
import Neo.FrameBounds
import Neo.Tasks
import Neo.DropDetection
import Neo.Lib.FirstHop
import Neo.NetSynthesizer
import Neo.Network.Links
import Neo.Network.L2Lan
import Neo.Network.L2Lans
import Neo.Process.Supplied
import Neo.Lib.Regex
import Neo.ConfigParser.Expressions
import Neo.ConfigParser.Positions
import Neo.ConfigParser.Mining
import Neo.Lib.Fallible
import Neo.Network.Linking
import Neo.ConfigParser.Tables
import Neo.ConfigParser.ParseNode
import Neo.ConfigParser.ParseNetwork
import Neo.ConfigParser.Denotes
import Neo.ConfigParser.WellFormed
import Neo.ConfigParser.ParseInvariants
import Neo.ConfigFile
import Neo.Lib.SimplePath
import Neo.Process.DataPlane
import Neo.Process.Journey
import Neo.Process.Heading
import Neo.Process.Reply
import Neo.Invariant.EndToEnd
import Neo.Invariant.Specified
import Neo.Invariant.Configured
import Neo.Invariant.Parts
import Neo.DropTimeout
