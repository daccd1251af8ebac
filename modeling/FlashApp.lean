import FlashApp.Bytes
import FlashApp.Trace
import FlashApp.Interaction
import FlashApp.Loops
import FlashApp.Tiling
import FlashApp.Search
import FlashApp.Tlv
import FlashApp.Sha384
import FlashApp.Lwip
import FlashApp.PbufRead
import FlashApp.SendMessage
import FlashApp.SendRuns
import FlashApp.SendPcb
import FlashApp.SendReferences
import FlashApp.SendChunks
import FlashApp.EthDriver
import FlashApp.EthBuffers
import FlashApp.EthFrames
import FlashApp.HttpDownload
import FlashApp.Flasher
import FlashApp.Wfp
import FlashApp.WfpRuns
import FlashApp.WfpGood
import FlashApp.WfpBounds
import FlashApp.WfpRoundTrip
import FlashApp.WfpJoin
import FlashApp.WfpFlash
import FlashApp.WfpDevice
import FlashApp.WfpErase
import FlashApp.Fdl
import FlashApp.FdlCoverage
import FlashApp.FdlBursts
import FlashApp.InfoFile
import FlashApp.InfoFileFormat
import FlashApp.InfoFileAccess
import FlashApp.Main
import FlashApp.MainDownload
import FlashApp.DownloadRuns
import FlashApp.MainRuns
import FlashApp.MainSuccess
import FlashApp.MainReport
import FlashApp.Sha384Padding
import FlashApp.Httpc
import FlashApp.HttpcResponse
import FlashApp.HttpcRuns
import FlashApp.HttpcPbufs
import FlashApp.HttpcDownload
import FlashApp.MainFlash
import FlashApp.OnesComplement
import FlashApp.Eth
import FlashApp.Udp
import FlashApp.UdpTable
import FlashApp.UdpLength
import FlashApp.UdpChecksum
import FlashApp.InetChksum
import FlashApp.LwipMem
import FlashApp.LwipHeap
import FlashApp.LwipHeapOps
import FlashApp.LwipMalloc
import FlashApp.LwipFree
import FlashApp.LwipTrim
import FlashApp.LwipMemRuns
import FlashApp.LwipMemRoom
import FlashApp.Timeouts
import FlashApp.TimeoutsRuns
import FlashApp.Icmp
import FlashApp.Machine
import FlashApp.UdpClient
import FlashApp.Dhcp
import FlashApp.DhcpRuns
import FlashApp.DhcpOptions
import FlashApp.DhcpFormat
import FlashApp.DhcpSettings
import FlashApp.DhcpAcknowledge
import FlashApp.DhcpReceived
import FlashApp.Dns
import FlashApp.DnsRuns
import FlashApp.DnsNames
import FlashApp.DnsEncode
import FlashApp.DnsAccess
import FlashApp.DnsAnswers
import FlashApp.DnsResponse
import FlashApp.Tftp
import FlashApp.TftpRuns
import FlashApp.TftpTransfer
import FlashApp.TftpNetwork
import FlashApp.TftpPackets
import FlashApp.Arp
import FlashApp.ArpRuns
import FlashApp.ArpInvariant
import FlashApp.ArpOwnership
import FlashApp.ArpHistory
import FlashApp.ArpRoute
