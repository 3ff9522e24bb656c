import NebulaX.Core.MarketEvent
import NebulaX.Core.Order
import NebulaX.Exchange.BookInv
import NebulaX.Exchange.BookOps
import NebulaX.Exchange.BroadcastTime
import NebulaX.Exchange.Bystanders
import NebulaX.Exchange.Calls
import NebulaX.Exchange.ConcurrentBooks
import NebulaX.Exchange.Conservation
import NebulaX.Exchange.Effects
import NebulaX.Exchange.EngineOps
import NebulaX.Exchange.EngineRuns
import NebulaX.Exchange.Erasure
import NebulaX.Exchange.EveryOrder
import NebulaX.Exchange.ExchangeSimulator
import NebulaX.Exchange.FailedCalls
import NebulaX.Exchange.FillOrKill
import NebulaX.Exchange.Findable
import NebulaX.Exchange.Isolation
import NebulaX.Exchange.MarketOrders
import NebulaX.Exchange.Matching
import NebulaX.Exchange.MatchingEngine
import NebulaX.Exchange.Meaningful
import NebulaX.Exchange.Mirror
import NebulaX.Exchange.OrderBook
import NebulaX.Exchange.Ownership
import NebulaX.Exchange.PriceTime
import NebulaX.Exchange.Quotes
import NebulaX.Exchange.Registry
import NebulaX.Exchange.RejectedOrders
import NebulaX.Exchange.ReplaceCancelAdd
import NebulaX.Exchange.SharedRecovery
import NebulaX.Exchange.SimulatorRuns
import NebulaX.Exchange.Snapshot
import NebulaX.Exchange.StaleEntries
import NebulaX.Exchange.TopOfBook
import NebulaX.Exchange.TradeIds
import NebulaX.Exchange.Uncrossed
import NebulaX.Exchange.Unrested
import NebulaX.Exchange.Users
import NebulaX.Exchange.ViewMirror
import NebulaX.Exchange.ViewRuns
import NebulaX.Exchange.Wal
import NebulaX.Exchange.WalIdempotence
import NebulaX.Exchange.WalRecovery
import NebulaX.Execution.EachFill
import NebulaX.Execution.ExecutionEngine
import NebulaX.Execution.Positions
import NebulaX.Execution.Steps
import NebulaX.Execution.TradeRecords
import NebulaX.Lib.Allocation
import NebulaX.Lib.BigEndian
import NebulaX.Lib.Fold
import NebulaX.Lib.Ledger
import NebulaX.Lib.LinkedList
import NebulaX.Lib.Numbering
import NebulaX.Lib.OpenAddress
import NebulaX.Lib.Pending
import NebulaX.Lib.Ring
import NebulaX.Lib.RunningMean
import NebulaX.Lib.RunningPeak
import NebulaX.Lib.Segments
import NebulaX.Lib.SortedMap
import NebulaX.Lib.TaggedStack
import NebulaX.Lib.WeightedMean
import NebulaX.Market.Aggregates
import NebulaX.Market.Books
import NebulaX.Market.LevelMap
import NebulaX.Market.OrderBook
import NebulaX.Market.OrderBookConsumer
import NebulaX.Market.PriceLevelTable
import NebulaX.Market.ViewOrders
import NebulaX.Memory.ConcurrentPool
import NebulaX.Memory.OrderMap
import NebulaX.Memory.OrderMapRuns
import NebulaX.Memory.OrderPool
import NebulaX.Memory.SharedStore
import NebulaX.Oms.Averages
import NebulaX.Oms.Lifecycle
import NebulaX.Oms.OrderManager
import NebulaX.Oms.Reports
import NebulaX.Oms.Totals
import NebulaX.Replay.AnyBytes
import NebulaX.Replay.ItchParser
import NebulaX.Replay.ItchReplaySource
import NebulaX.Replay.ReplayEngine
import NebulaX.Replay.RoundTrip
import NebulaX.Risk.Books
import NebulaX.Risk.Cash
import NebulaX.Risk.Drawdown
import NebulaX.Risk.Positions
import NebulaX.Risk.RiskManager
import NebulaX.Sim.Audit
import NebulaX.Sim.Booked
import NebulaX.Sim.Desk
import NebulaX.Sim.DeskMarket
import NebulaX.Sim.DeskProgress
import NebulaX.Sim.DeskRecords
import NebulaX.Sim.Limits
import NebulaX.Sim.Liveness
import NebulaX.Sim.Locking
import NebulaX.Sim.OrderFlow
import NebulaX.Sim.Placements
import NebulaX.Sim.Results
import NebulaX.Sim.Routing
import NebulaX.Sim.Signals
import NebulaX.Sim.SimWorker
import NebulaX.Sim.Simulation
import NebulaX.Sim.Snapshots
import NebulaX.Sim.System
import NebulaX.Sim.Tally
import NebulaX.Sim.Voting
import NebulaX.Strategy.Arbitrate
import NebulaX.Strategy.FlowWindow
import NebulaX.Strategy.OrderBookImbalance
import NebulaX.Strategy.OrderFlowImbalance
