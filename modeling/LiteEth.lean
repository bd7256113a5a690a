import LiteEth.Common
import LiteEth.Rtl.Machine
import LiteEth.Rtl.Ring
import LiteEth.Rtl.SyncFIFO
import LiteEth.Rtl.PacketFIFO
import LiteEth.Rtl.WaitTimer
import LiteEth.Rtl.Packet
import LiteEth.Rtl.OnesComplement
import LiteEth.Mac.Sram
import LiteEth.Mac.SramSlots
import LiteEth.Mac.SramPackets
import LiteEth.Mac.SramStore
import LiteEth.Mac.SramOversize
import LiteEth.Core.ArpTable
import LiteEth.Core.ArpRequester
import LiteEth.Core.ArpResponse
import LiteEth.Core.Arp
import LiteEth.Core.ArpReply
import LiteEth.Core.IpChecksum
import LiteEth.Core.Ip
import LiteEth.Core.IpHeader
import LiteEth.Frontend.Etherbone
import LiteEth.Frontend.EtherboneReceiver
import LiteEth.Frontend.EtherboneMalformed
import LiteEth.Frontend.EtherboneRecord
import LiteEth.Frontend.EtherboneReply
import LiteEth.Mac.Crc
import LiteEth.Mac.CrcChecker
import LiteEth.Mac.Preamble
import LiteEth.Mac.Runts
import LiteEth.Mac.SramDrop
import LiteEth.Core.CrcFlag
import LiteEth.Core.IpRx
import LiteEth.Core.IpStream
import LiteEth.Core.Udp
import LiteEth.Core.UdpLink
import LiteEth.Core.UdpStream
import LiteEth.Core.UdpTrim
import LiteEth.Mac.CrcInserter
import LiteEth.Mac.Gap
import LiteEth.Mac.Padding
import LiteEth.Mac.Transmit
import LiteEth.Rtl.Crc
import LiteEth.Rtl.PacketSim
import LiteEth.Rtl.Stream
import LiteEth.Rtl.StreamFifo
import LiteEth.Rtl.StreamSim
import LiteEth.Phy.Pcs
import LiteEth.Phy.PcsLink
import LiteEth.Phy.PcsFraming
import LiteEth.Mac.Common
import LiteEth.Core.IpResolve
import LiteEth.Mac.SramReader
import LiteEth.Mac.TxArbiter
import LiteEth.Rtl.Dispatcher
import LiteEth.Crossbar
import LiteEth.Rtl.Fork
import LiteEth.Mac.CoreCrossbar
import LiteEth.Rtl.PacketGate
import LiteEth.Rtl.StreamTaken
import LiteEth.Rtl.PacketBuffer
import LiteEth.Core.Icmp
import LiteEth.Core.IcmpEcho
import LiteEth.Wedge
import LiteEth.Core.IcmpChecksum
import LiteEth.Frontend.Stream
import LiteEth.Frontend.EtherboneMaster
import LiteEth.Mac.SramTimestamp
import LiteEth.Rtl.StrideConverter
import LiteEth.Phy.Rmii
import LiteEth.Core.ArpCache
import LiteEth.Frontend.EtherboneSender
import LiteEth.Frontend.EtherboneStream
import LiteEth.Frontend.EtherboneDecode
import LiteEth.Frontend.EtherbonePacket
import LiteEth.Rtl.PacketWords
import LiteEth.Frontend.EtherboneLengths
import LiteEth.Frontend.EtherboneLink
import LiteEth.Frontend.EtherboneSlave
import LiteEth.Frontend.EtherboneBridge
import LiteEth.Mac.LastBe
import LiteEth.Phy.PcsAlignment
import LiteEth.Mac.Wishbone
import LiteEth.Phy.GtpRxInit
import LiteEth.Software.IntBits
import LiteEth.Software.BitField
import LiteEth.Rtl.Bytes
import LiteEth.Test.Headers
import LiteEth.Rtl.PacketBytes
import LiteEth.Core.ArpFrame
import LiteEth.Mac.Converter
import LiteEth.Mac.Receive
import LiteEth.Mac.Line
import LiteEth.Mac.SramWords
import LiteEth.Mac.Turn
import LiteEth.Rtl.Crossing
import LiteEth.Mac.Loopback
import LiteEth.Mac.Flight
import LiteEth.Mac.LoopbackRun
import LiteEth.Phy.Mdio
import LiteEth.Phy.PcsAutoneg
import LiteEth.Phy.PcsConfig
import LiteEth.Rtl.PulseSynchronizer
import LiteEth.Phy.PcsMain
import LiteEth.Phy.PcsPair
import LiteEth.Software.MdioClient
import LiteEth.Software.Programs
import LiteEth.Software.MdioTool
import LiteEth.Core.ArpNetwork
import LiteEth.Rtl.StrideSplitter
import LiteEth.Phy.Transmit
import LiteEth.Phy.Receive
import LiteEth.Phy.Gmii
import LiteEth.Phy.Mii
import LiteEth.Phy.GmiiMii
import LiteEth.Phy.RmiiLink
import LiteEth.Frontend.EtherbonePacketRx
import LiteEth.Rtl.Arbiter
import LiteEth.CrossbarArbiter
import LiteEth.Rtl.DispatchStage
import LiteEth.Frontend.EtherboneProbe
import LiteEth.Frontend.EtherboneDispatch
import LiteEth.Frontend.EtherboneAnswers
