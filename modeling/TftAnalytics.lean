import TftAnalytics.Broker.Sequence
import TftAnalytics.Broker.Recovery
import TftAnalytics.Broker.Subscription
import TftAnalytics.Broker.Replication
import TftAnalytics.Broker.TrimFailure
import TftAnalytics.Broker.Backfill
import TftAnalytics.Broker.Separation
import TftAnalytics.Broker.Assignment
import TftAnalytics.Broker.Throttling
import TftAnalytics.Metastore.Interruption
import TftAnalytics.Metastore.Convergence
import TftAnalytics.Metastore.CorruptTables
import TftAnalytics.Metastore.Concurrency
import TftAnalytics.Hasher.Placement
import TftAnalytics.Gossip.Detection
import TftAnalytics.Gossip.Accuracy
import TftAnalytics.Gossip.Input
import TftAnalytics.Peers.Ring
import TftAnalytics.Peers.OncePerDeath
import TftAnalytics.Metastore.ReadQuorum
import TftAnalytics.Metastore.TableRoundTrip
import TftAnalytics.Metastore.Background
import TftAnalytics.Metastore.Decay
import TftAnalytics.Metastore.Resolution
import TftAnalytics.Metastore.LogPrefix
import TftAnalytics.Metastore.LimitedScan
import TftAnalytics.Metastore.Pushdown
import TftAnalytics.Metastore.PrimaryPatch
import TftAnalytics.Metastore.WriteFanOut
import TftAnalytics.Processor.Causality
import TftAnalytics.Processor.Fixpoint
import TftAnalytics.Processor.Accounting
import TftAnalytics.Processor.Redelivery
import TftAnalytics.Processor.Supersession
import TftAnalytics.Processor.DistinctKeys
import TftAnalytics.Ingestion.RequestBudget
import TftAnalytics.Api.MinimumSample
import TftAnalytics.Processor.Aggregation
import TftAnalytics.Processor.PlayRate
import TftAnalytics.Processor.FailedFlush
import TftAnalytics.Anomaly.ScanOrder
import TftAnalytics.Api.ListAndDetail
import TftAnalytics.Api.AnomalyFeed
import TftAnalytics.Api.RateLimit
import TftAnalytics.Metastore.Recency
import TftAnalytics.Metastore.FalseNegatives
import TftAnalytics.Metastore.MemtableSize
import TftAnalytics.Metastore.Leftovers
import TftAnalytics.Api.RankHistory
import TftAnalytics.Api.ConcurrentLookups
import TftAnalytics.Api.SelfPruning
import TftAnalytics.Dashboard.TierList
import TftAnalytics.Dashboard.CompBoard
import TftAnalytics.Api.Model.TtlCache
import TftAnalytics.Common.Observed
import TftAnalytics.Api.Staleness
import TftAnalytics.Api.Admission
import TftAnalytics.Common.Percent
import TftAnalytics.Api.Model.Lookup
import TftAnalytics.Api.RiotPath
import TftAnalytics.Common.HeapOrder
import TftAnalytics.Common.Text
import TftAnalytics.Common.TopSum
import TftAnalytics.Dashboard.TeamBuilder
import TftAnalytics.Pipeline.Contents
import TftAnalytics.Ingestion.Rounds
import TftAnalytics.Ingestion.Numbering
import TftAnalytics.Ingestion.Gaps
import TftAnalytics.Processor.Totals
import TftAnalytics.Ingestion.Lobby
