import Roce.Lib.Machine
import Roce.Lib.Tiling
import Roce.Lib.OrdMap
import Roce.Lib.Count
import Roce.Lib.Flood
import Roce.Lib.Bfs
import Roce.Lib.Tally
import Roce.Lib.Exclusive
import Roce.Lib.RoundRobin
import Roce.Lib.FirstRoute
import Roce.Lib.EventQueue
import Roce.Lib.Polyline
import Roce.Lib.Relay
import Roce.Lib.Bytes
import Roce.Lib.Rotation
import Roce.Lib.Runs
import Roce.Lib.Spacing
import Roce.Lib.Text
import Roce.Lib.Word
import Roce.QueuePair.Request
import Roce.QueuePair.ReliableSQ
import Roce.QueuePair.SendQueueSpec
import Roce.QueuePair.SendQueueLiveness
import Roce.QueuePair.ReliableRQ
import Roce.QueuePair.ReliablePair
import Roce.QueuePair.ReliableDelivery
import Roce.QueuePair.LosslessPair
import Roce.QueuePair.UnreliableQP
import Roce.QueuePair.UnreliableService
import Roce.QueuePair.SendQueueShape
import Roce.QueuePair.Dcqcn
import Roce.QueuePair.LosslessOrder
import Roce.Switch.Mmu
import Roce.Switch.Buffer
import Roce.Switch.EgressQueue
import Roce.Switch.Node
import Roce.Switch.Accounting
import Roce.Switch.NodeLedger
import Roce.Switch.PausedPackets
import Roce.Switch.Calls
import Roce.Switch.TransmitReady
import Roce.Switch.CallsRun
import Roce.Switch.PfcFrames
import Roce.Switch.EgressService
import Roce.Switch.Ecn
import Roce.Switch.EcnSelection
import Roce.Switch.Headroom
import Roce.Switch.Lanes
import Roce.Switch.WorkConserving
import Roce.Host.Nic
import Roce.Host.Calls
import Roce.Host.TransmitReady
import Roce.Host.ObeysPfc
import Roce.Host.Wire
import Roce.Host.Events
import Roce.Host.WakeUps
import Roce.Host.Spin
import Roce.Host.CleanUp
import Roce.Host.HeaderFormat
import Roce.Host.HeaderForms
import Roce.Host.Pacing
import Roce.Host.TakesTurns
import Roce.Network.Ecmp
import Roce.Network.Topology
import Roce.Network.Groups
import Roce.Network.Uplink
import Roce.Network.Routing
import Roce.Network.Forwarding
import Roce.Network.Multicast
import Roce.Network.SpineLeaf
import Roce.Network.Ranges
import Roce.Network.Transmission
import Roce.Network.PfcLink
import Roce.Network.NodeOrder
import Roce.Network.MaxDelay
import Roce.Network.Depths
import Roce.Network.SpineLeafGenerator
import Roce.Network.Run
import Roce.Network.InOrder
import Roce.Network.MulticastOrder
import Roce.Network.Deadlock
import Roce.Network.SpineLeafPfc
import Roce.Network.ReliableService
import Roce.Network.LosslessService
import Roce.Flow.Scheduler
import Roce.Flow.Foreground
import Roce.Flow.EndOfRun
import Roce.Flow.CallStack
import Roce.Flow.Dependencies
import Roce.Flow.RunsWhenDue
import Roce.Flow.DisabledFlows
import Roce.Flow.QueuePairKeys
import Roce.Flow.FlowView
import Roce.Flow.FlowLines
import Roce.Flow.FinishCounts
import Roce.Flow.McastPhase
import Roce.Flow.McastChains
import Roce.Flow.McastSchedule
import Roce.Flow.Bisection
import Roce.Flow.MulticastFlow
import Roce.Allgather.Config
import Roce.Allgather.Runtime
import Roce.Allgather.Ring
import Roce.Allgather.Link
import Roce.Allgather.Recovery
import Roce.Allgather.Wedge
import Roce.Allgather.Safety
import Roce.Allgather.Chains
import Roce.Allgather.Multicast
import Roce.Allgather.HandOver
import Roce.Allgather.Deliveries
import Roce.Allgather.SentBlocks
import Roce.Allgather.LossFree
import Roce.Allgather.Segments
import Roce.Allgather.ChainMarkers
import Roce.Allgather.ChainSpread
import Roce.Allgather.LossyDeliveries
import Roce.Allgather.Statistics
import Roce.Monitor.PeriodicEvent
import Roce.Traffic.CustomRand
import Roce.Traffic.TrafficGen
import Roce.Analysis.BitmapRepartition
