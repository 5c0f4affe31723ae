import OmsFormal.SingleChange
import OmsFormal.RoutingSoundness
import OmsFormal.OrderPool
import OmsFormal.PreTradeChecks
import OmsFormal.TimerWheel
import OmsFormal.BookSnapshot
import OmsFormal.ExecutionCore
import OmsFormal.OrderStore
import OmsFormal.StoreOperations
import OmsFormal.HandlerRules
import OmsFormal.HandlerSteps
import OmsFormal.GuardedRun
import OmsFormal.Runs
import OmsFormal.StorePhases
import OmsFormal.LiveTimers
import OmsFormal.CallEntries
import OmsFormal.Quantities
import OmsFormal.QuantityPhases
import OmsFormal.QuantityEntries
import OmsFormal.Lifecycle
import OmsFormal.Deals
import OmsFormal.Ledger
import OmsFormal.Exposure
import OmsFormal.SlackPhases
import OmsFormal.SlackRuns
import OmsFormal.OpenLots
import OmsFormal.ReduceOnly
import OmsFormal.ReduceOnlyRuns
import OmsFormal.TimerSlots
import OmsFormal.TimerCoverage
import OmsFormal.Ticks
import OmsFormal.TimerRuns
import OmsFormal.Settlement
import OmsFormal.SettlementRuns
import OmsFormal.UnwindMode
import OmsFormal.DeadReports
import OmsFormal.DeadReportEffects
import OmsFormal.DeadReportRuns
import OmsFormal.SpscQueue
import OmsFormal.MarginEstimates
import OmsFormal.StableMerge
import OmsFormal.CostSlices
import OmsFormal.CostMerge
import OmsFormal.CostListing
import OmsFormal.GreedyAllocation
import OmsFormal.SplitOptimality
import OmsFormal.RouteOrigins
import OmsFormal.DispatchCases
import OmsFormal.PositiveOrders
import OmsFormal.LimitPrices
import OmsFormal.DeadSignals
import OmsFormal.ChildExhaustion
import OmsFormal.PositionLimits
import OmsFormal.TimerDeadlines
import OmsFormal.ClockedRuns
import OmsFormal.EarlyTimeouts
import OmsFormal.Frames
import OmsFormal.NonInterference
import OmsFormal.ExchangeParties
import OmsFormal.LiveChildren
import OmsFormal.BackedOrders
import OmsFormal.MarketSteps
import OmsFormal.MarketCalls
import OmsFormal.OverExecution
import OmsFormal.RerouteEntries
import OmsFormal.MinimumSweep
import OmsFormal.SplitSweep
import OmsFormal.SliceOrigins
import OmsFormal.SplitSoundness
import OmsFormal.SplitDemand
import OmsFormal.EffectiveRanking
import OmsFormal.VenueLimits
import OmsFormal.RankedSweep
import OmsFormal.WorsenedVenue
import OmsFormal.RerouteInputs
import OmsFormal.EffectiveSize
import OmsFormal.OwnReservation
import OmsFormal.Standings
import OmsFormal.SettledAccounts
import OmsFormal.SlicedFills
import OmsFormal.CostBasis
import OmsFormal.MarkedLosses
import OmsFormal.SnapshotAge
import OmsFormal.PoolSequences
import OmsFormal.TwapScheduler
import OmsFormal.TimerFirings
import OmsFormal.MarginBookings
import OmsFormal.ReleasedMargin
import OmsFormal.ParentClosings
import OmsFormal.FlatMargin
import OmsFormal.Logger
import OmsFormal.FeedSequence
import OmsFormal.RoundTrips
import OmsFormal.ExecutionThread
import OmsFormal.Reconciliation
import OmsFormal.PostThenSweep
import OmsFormal.Clearances
import OmsFormal.ReleaseAcquire
import OmsFormal.SnapshotSystem
import OmsFormal.SnapshotReads
import OmsFormal.TwapTiming
import OmsFormal.AskedLots
import OmsFormal.TwapExecution
import OmsFormal.WeakRing
import OmsFormal.FollowedOrders
import OmsFormal.ThreadPrograms
import OmsFormal.MarginThreads
