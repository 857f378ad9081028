import MeDiE.Client.Distribution
import MeDiE.Client.ReadTrace
import MeDiE.Client.Trace
import MeDiE.Eacl.Basic
import MeDiE.Eacl.Calls
import MeDiE.Eacl.Indedh
import MeDiE.Eacl.Queue
import MeDiE.Eacl.QueueArray
import MeDiE.Eacl.Rounds
import MeDiE.Eacl.Windowed
import MeDiE.Hash.Murmur3
import MeDiE.Launch.Acks
import MeDiE.Launch.Barrier
import MeDiE.Launch.Dh
import MeDiE.Launch.DhAcks
import MeDiE.Launch.DhKeys
import MeDiE.Launch.DhReports
import MeDiE.Launch.Moves
import MeDiE.Launch.Run
import MeDiE.Launch.Script
import MeDiE.Launch.Servers
import MeDiE.Manager.BalanceLoad
import MeDiE.Manager.BalanceLoadArrays
import MeDiE.Manager.BalanceLoadDh
import MeDiE.Manager.Loads
import MeDiE.Manager.Main
import MeDiE.Manager.MainDh
import MeDiE.Manager.Relab
import MeDiE.Manager.RelabArrays
import MeDiE.Manager.RelabBooks
import MeDiE.Manager.RelabBounds
import MeDiE.Manager.RelabDh
import MeDiE.Manager.RelabDhMatching
import MeDiE.Manager.RelabDhMoves
import MeDiE.Manager.RelabDownhill
import MeDiE.Manager.RelabExhaustive
import MeDiE.Manager.RelabInside
import MeDiE.Manager.RelabLoops
import MeDiE.Manager.RelabTurn
import MeDiE.Manager.SortSubset
import MeDiE.Protocol
import MeDiE.Server.Aborted
import MeDiE.Server.Buffer
import MeDiE.Server.Dh
import MeDiE.Server.Drains
import MeDiE.Server.Grasp
import MeDiE.Server.Holding
import MeDiE.Server.Hosts
import MeDiE.Server.Listener
import MeDiE.Server.LoadArgs
import MeDiE.Server.LoadArgsSorted
import MeDiE.Server.MdEntry
import MeDiE.Server.Plan
import MeDiE.Server.Replies
import MeDiE.Server.Requests
import MeDiE.Server.RoundTrip
import MeDiE.Server.Sequential
import MeDiE.Server.SpotMoves
import MeDiE.Server.Spots
import MeDiE.Server.State
import MeDiE.Server.Step
import MeDiE.Server.Transfer
import MeDiE.Server.Work
import MeDiE.Storage.Files
import MeDiE.Storage.Generic
import MeDiE.System.Answers
import MeDiE.System.Cases
import MeDiE.System.Clients
import MeDiE.System.Dh
import MeDiE.System.Epochs
import MeDiE.System.Help
import MeDiE.System.History
import MeDiE.System.Keys
import MeDiE.System.Linear
import MeDiE.System.Live
import MeDiE.System.Names
import MeDiE.System.Ownership
import MeDiE.System.Phases
import MeDiE.System.Quiet
import MeDiE.System.Replicas
import MeDiE.System.Reports
import MeDiE.System.Rounds
import MeDiE.System.Sh
import MeDiE.System.Step
import MeDiE.System.Transfers
import MeDiE.System.Versions
import MeDiE.System.View
import MeDiE.System.Wrap
import MeDiE.Table.Mlt
import MeDiE.Table.MltArray
import MeDiE.Trace.Setup
import MeDiE.Trace.Split
import MeDiE.Trace.Spread
import MeDiE.Verified.BubbleSort
import MeDiE.Verified.Cells
import MeDiE.Verified.Chunks
import MeDiE.Verified.CountedArray
import MeDiE.Verified.Fair
import MeDiE.Verified.Greedy
import MeDiE.Verified.GreedyClose
import MeDiE.Verified.GreedyTies
import MeDiE.Verified.Handover
import MeDiE.Verified.HandoverLive
import MeDiE.Verified.Hex
import MeDiE.Verified.Holder
import MeDiE.Verified.Linear
import MeDiE.Verified.Mix
import MeDiE.Verified.Overlay
import MeDiE.Verified.Poll
import MeDiE.Verified.SwapRemove
import MeDiE.Verified.Transition
import MeDiE.Verified.Versions
import MeDiE.Verified.Word32
