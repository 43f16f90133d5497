import LanChat.CStrings
import LanChat.HexText
import LanChat.FrameCodec
import LanChat.SocketAddresses
import LanChat.DatagramReceive
import LanChat.ReceiveBounds
import LanChat.ChunkedStreams
import LanChat.StreamReceive
import LanChat.TransitionRuns
import LanChat.ChatProcess
import LanChat.ControlCollision
import LanChat.TypedCommands
import LanChat.PeerTable
import LanChat.ChatNetwork
import LanChat.HonestNetwork
import LanChat.PairLedger
import LanChat.Membership
import LanChat.FanOut
import LanChat.DiscoveryDeadlock
import LanChat.TypedLines
import LanChat.FgetsLoops
import LanChat.OfferReading
import LanChat.StartupDiscovery
import LanChat.DottedQuads
import LanChat.SelfFilter
import LanChat.HostScan
import LanChat.ResidualMemory
import LanChat.DecoderAgreement
import LanChat.SelfReception
import LanChat.RequestNumbers
import LanChat.AnsweredFind
import LanChat.RoundRobin
import LanChat.PortScan
import LanChat.SubnetScan
import LanChat.StreamBounds
import LanChat.DiscoverySet
import LanChat.FrameIdentity
import LanChat.HeaderReading
import LanChat.EncoderBuffers
import LanChat.ReadLoops
import LanChat.WriteLoops
import LanChat.TcpChat
import LanChat.ChatDelivery
import LanChat.PselectRaces
import LanChat.SelectLoops
import LanChat.GroupFormation
import LanChat.DatagramNetworks
import LanChat.IterateNetwork
import LanChat.IterateProvenance
import LanChat.IterateFinding
import LanChat.IterateDelivery
import LanChat.AddressTexts
import LanChat.ChatSafety
import LanChat.BindAddress
import LanChat.GroupTalk
import LanChat.TcpMeeting
import LanChat.PortMeeting
import LanChat.HostMeeting
