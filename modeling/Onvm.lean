import Onvm.Lib.TransSys
import Onvm.Lib.Run
import Onvm.Lib.Bytes
import Onvm.Lib.OnesSum
import Onvm.Lib.Toeplitz
import Onvm.Lib.Prog
import Onvm.Lib.Observe
import Onvm.Lib.Places
import Onvm.Lib.Ring
import Onvm.Lib.Custody
import Onvm.Lib.Ledger
import Onvm.Lib.Tally
import Onvm.Lib.Packed
import Onvm.Lib.Scan
import Onvm.Lib.Framed
import Onvm.Lib.Owned
import Onvm.Lib.SlotRing
import Onvm.Lib.RoundRobin
import Onvm.Afxdp.Umem
import Onvm.Afxdp.Datapath
import Onvm.Afxdp.Flow
import Onvm.Afxdp.Refine
import Onvm.Afxdp.Frames
import Onvm.Afxdp.Progress
import Onvm.Afxdp.Conservation
import Onvm.Afxdp.Accounting
import Onvm.Afxdp.Reflect
import Onvm.Afxdp.Reserve
import Onvm.Afxdp.Refill
import Onvm.Afxdp.Starvation
import Onvm.Afxdp.Args
import Onvm.Afxdp.Lifecycle
import Onvm.Afxdp.Resources
import Onvm.Afxdp.Bounce
import Onvm.Afxdp.XdpProg
import Onvm.Nflib.Common
import Onvm.Nflib.Threading
import Onvm.Nflib.PktHelper
import Onvm.Nflib.Cksum
import Onvm.Nflib.TcpudpCksum
import Onvm.Nflib.Generate
import Onvm.Nflib.Config
import Onvm.Nflib.ArgList
import Onvm.Nflib.ConfigFile
import Onvm.Nflib.Address
import Onvm.Nflib.FlowTable
import Onvm.Nflib.FlowKey
import Onvm.Nflib.Rss
import Onvm.Mgr.Nf
import Onvm.Mgr.Rings
import Onvm.Mgr.Effect
import Onvm.Mgr.Registry
import Onvm.Mgr.InstanceId
import Onvm.Mgr.Cores
import Onvm.Mgr.Inherit
import Onvm.Mgr.Reassign
import Onvm.Mgr.Ranges
import Onvm.Mgr.Stats
import Onvm.Pkt.Plane
import Onvm.Pkt.Common
import Onvm.Pkt.Calls
import Onvm.Pkt.Conserve
import Onvm.Pkt.Union
import Onvm.Pkt.Actions
import Onvm.Pkt.Receive
import Onvm.Pkt.MainLoop
import Onvm.Pkt.Buffers
import Onvm.Pkt.Deliver
import Onvm.Pkt.Handover
import Onvm.Pkt.Chain
import Onvm.Pkt.ServiceChain
import Onvm.Pkt.FlowDir
import Onvm.Pkt.FlowSlots
import Onvm.Msg.System
import Onvm.Msg.Frame
import Onvm.Msg.Pool
import Onvm.Msg.Mailbox
import Onvm.Msg.SharedCore
import Onvm.Msg.InitCfg
import Onvm.Msg.Handshake
import Onvm.Msg.Children
import Onvm.Mgr.Drain
import Onvm.Pkt.Ownership
import Onvm.Pkt.DeliverSteps
import Onvm.Sdn.Msgbuf
import Onvm.Sdn.OpenFlow
import Onvm.Sdn.Actions
import Onvm.Sdn.Switch
import Onvm.Sdn.Effect
import Onvm.Sdn.Pending
import Onvm.Sdn.Channel
import Onvm.Sdn.Rules
import Onvm.Nf.FairQueue
import Onvm.Nf.FairOrder
import Onvm.Nf.FairTurn
import Onvm.Nf.TokenBucket
