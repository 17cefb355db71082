import Vapp.Library.StepLoop
import Vapp.Library.Outcome
import Vapp.Library.Transition
import Vapp.Library.FifoChannel
import Vapp.Library.Counter16
import Vapp.Library.ArrayChain
import Vapp.Library.LittleEndian
import Vapp.Library.SlotTable
import Vapp.Library.Traced
import Vapp.Library.TraceRun
import Vapp.Library.Releases
import Vapp.Library.EndlessLoop
import Vapp.Layout
import Vapp.Memory
import Vapp.Vring
import Vapp.ProcessAvail
import Vapp.VringSpec
import Vapp.DescChain
import Vapp.UsedWalk
import Vapp.RingSystem
import Vapp.RingCalls
import Vapp.RingCounters
import Vapp.RingLedger
import Vapp.RingRuns
import Vapp.RingProgress
import Vapp.Messages
import Vapp.Wire
import Vapp.Framing
import Vapp.FdList
import Vapp.FdSlots
import Vapp.Server
import Vapp.Client
import Vapp.Ioctl
import Vapp.Session
import Vapp.KickFiles
import Vapp.Payloads
import Vapp.KickMode
import Vapp.SessionRings
import Vapp.RingChannel
import Vapp.SessionChannel
import Vapp.RingReclaim
import Vapp.RingConservation
import Vapp.RingSizes
import Vapp.RingExhaustion
import Vapp.ServerPackets
import Vapp.RxRecycling
import Vapp.AvailBatch
import Vapp.AvailSlots
import Vapp.SlotAgreement
import Vapp.UsedReturn
import Vapp.ServerCalls
import Vapp.ServerSteps
import Vapp.RingAddrs
import Vapp.RingReadiness
import Vapp.FdSystem
import Vapp.FdLodging
import Vapp.SessionSlots
import Vapp.StoppedRing
import Vapp.Library.Simulation
import Vapp.SameRing
import Vapp.MemTable
import Vapp.Resume
import Vapp.LoopSystem
import Vapp.SetupProgress
import Vapp.LostKick
import Vapp.LoopRings
import Vapp.LoopBack
import Vapp.TableInstall
import Vapp.RingSubscripts
import Vapp.Translation
import Vapp.Mappings
import Vapp.RecvBounds
import Vapp.ChainWalk
import Vapp.ChainEnds
import Vapp.WholePacket
import Vapp.GuestRanges
import Vapp.DispatchPass
import Vapp.RingLayout
import Vapp.Library.Pool
import Vapp.FreeList
import Vapp.PutFrame
import Vapp.RingProducer
import Vapp.PeerIndices
import Vapp.Library.Service
import Vapp.IoctlStream
import Vapp.Library.Relay
import Vapp.EchoLoop
import Vapp.EchoRuns
import Vapp.Library.Footprint
import Vapp.MessageOrder
import Vapp.RingOwnership
import Vapp.Library.Names
import Vapp.ClientRegions
import Vapp.SocketPath
import Vapp.Library.SlotBag
import Vapp.Library.Lodging
import Vapp.KickLimit
import Vapp.SetupTurns
import Vapp.LaterSession
import Vapp.OpenDescriptors
import Vapp.EchoFair
import Vapp.EchoLive
import Vapp.EchoStart
