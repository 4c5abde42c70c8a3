import JustApi.Lib.Run
import JustApi.Lib.Result
import JustApi.Lib.Assoc
import JustApi.Lib.Derivation
import JustApi.Lib.Text
import JustApi.Lib.SortedMap
import JustApi.Lib.Trim
import JustApi.Core.Http
import JustApi.Core.Routing
import JustApi.Core.RouteCoherence
import JustApi.Core.Coalesce
import JustApi.Core.CoalesceSteps
import JustApi.Core.CoalesceLeaders
import JustApi.Core.CoalesceFlights
import JustApi.Core.CoalesceBodies
import JustApi.Core.CoalesceSharing
import JustApi.Core.Breaker
import JustApi.Core.BreakerPeriods
import JustApi.Core.BreakerVerdicts
import JustApi.Core.RouteBreakers
import JustApi.Core.RouteIsolation
import JustApi.Core.QueryString
import JustApi.Core.Crud
import JustApi.Core.CrudSql
import JustApi.Core.Migrations
import JustApi.Core.MigrationRuns
import JustApi.Core.RateLimit
import JustApi.Core.RateBounds
import JustApi.Core.Batching
import JustApi.Core.BatchOrder
import JustApi.Core.Auth
import JustApi.Core.CrossOrigin
import JustApi.Core.Gateway
import JustApi.Core.GatewayOrder
import JustApi.Core.RouteOrder
import JustApi.Core.Xml
import JustApi.Core.XmlRun
import JustApi.Core.XmlTexts
import JustApi.Core.XmlMapping
import JustApi.Core.Multipart
import JustApi.Inference.KvCache
import JustApi.Inference.KvExclusivity
import JustApi.Inference.PoolAccounting
import JustApi.Inference.RadixCache
import JustApi.Inference.RadixEntries
import JustApi.Inference.RadixWalks
import JustApi.Inference.RadixCorrect
import JustApi.Inference.EvictionReach
import JustApi.Inference.RadixTrie
import JustApi.Inference.LanguageModel
import JustApi.Inference.Scheduling
import JustApi.Inference.SchedulerFrame
import JustApi.Inference.FifoService
import JustApi.Inference.PrefillOrder
import JustApi.Inference.StepLists
import JustApi.Inference.BlockLedger
import JustApi.Inference.SchedulerLedger
import JustApi.Inference.SchedulerRuns
import JustApi.Inference.SchedulerSafety
import JustApi.Inference.AdmissionProgress
import JustApi.Inference.PrefillCoverage
import JustApi.Inference.Handoff
import JustApi.Inference.HandoffFrame
import JustApi.Inference.TreeCoherence
import JustApi.Inference.TransferSafety
import JustApi.Inference.CancelScope
import JustApi.Inference.CancelFinality
import JustApi.Inference.SequenceRoom
import JustApi.Inference.CacheTransparency
import JustApi.Inference.SpecDecode
import JustApi.Inference.SpecDecodeTree
import JustApi.Inference.SpecLossless
import JustApi.Inference.Serving
import JustApi.Inference.ServingFrame
import JustApi.Inference.StreamEnds
import JustApi.Inference.BatchOutputs
import JustApi.Inference.Autoscaling
import JustApi.Inference.ReplicaRouting
import JustApi.Inference.Supervision
import JustApi.Inference.FleetAgreement
import JustApi.Inference.AdapterResidency
import JustApi.Py.RouteTables
import JustApi.Py.RouteAlignment
import JustApi.Lib.Raising
import JustApi.Py.Dependencies
import JustApi.Py.DependencyRuns
import JustApi.Py.DependencyLifecycle
import JustApi.Py.Pipeline
import JustApi.Py.TestClient
import JustApi.Py.Uploads
import JustApi.Py.UploadLifetimes
import JustApi.Py.Sessions
import JustApi.Py.SessionUpdates
import JustApi.Py.Replies
import JustApi.Py.ReplyAgreement
import JustApi.Py.Transports
import JustApi.Py.TransportGuards
import JustApi.Py.Registrations
import JustApi.Py.DependencyGuards
import JustApi.Py.DagExecution
import JustApi.Py.DagRuns
import JustApi.Py.DagCompleteness
import JustApi.Py.DagConfluence
import JustApi.Cli.Workers
import JustApi.Cli.SlotTable
import JustApi.Cli.NoOrphans
import JustApi.Cli.SlotOrder
import JustApi.Cli.FleetBounds
import JustApi.Cli.FixedFleet
import JustApi.Core.Verification
import JustApi.Core.VerificationTokens
import JustApi.Core.VerificationLifetimes
import JustApi.Py.Background
import JustApi.Py.BackgroundAccounts
import JustApi.Inference.TokenBudget
import JustApi.Inference.DecodeShare
import JustApi.Inference.FailedAdmission
import JustApi.Inference.HashPrefixCache
import JustApi.Inference.PrefixHits
import JustApi.Inference.ScalingRuns
import JustApi.Core.BreakerCounts
import JustApi.Inference.ClockSweep
import JustApi.Inference.ModelRegistry
import JustApi.Inference.RoundRobin
import JustApi.Inference.Readiness
import JustApi.Inference.SpecStatistics
import JustApi.Inference.SeqBounds
import JustApi.Inference.RadixRemoval
import JustApi.Inference.RadixRuns
import JustApi.Inference.EvictionConserves
import JustApi.Inference.FilterExhaustion
import JustApi.Inference.EvictionOrder
import JustApi.Core.ByteRanges
import JustApi.Core.Fallbacks
import JustApi.Core.EntityTags
import JustApi.Core.StaticPaths
import JustApi.Core.UrlDecoding
import JustApi.Core.MigrationFiles
import JustApi.Core.Rollbacks
import JustApi.Core.Placeholders
import JustApi.Core.EncodingChoice
import JustApi.Inference.Lora
import JustApi.Inference.CompletionStreams
import JustApi.Core.Formats
import JustApi.Core.Params
import JustApi.Core.UploadContents
import JustApi.Core.Buffers
import JustApi.Core.Metrics
import JustApi.Py.IntervalJobs
import JustApi.Core.RouteCaches
import JustApi.Inference.RadixHashes
import JustApi.Py.AuthClaims
import JustApi.Py.DataDicts
import JustApi.Py.ResponseHeaders
import JustApi.Py.RequestMetrics
import JustApi.Py.RouterTrees
import JustApi.Py.UrlFor
import JustApi.Py.DependencyValues
import JustApi.Lib.Channels
import JustApi.Lib.Tables
import JustApi.Lib.Semaphores
import JustApi.Py.GilPool
import JustApi.Py.PythonJobs
import JustApi.Py.JobProgress
import JustApi.Py.WebSockets
import JustApi.Py.WebSocketOrder
import JustApi.Py.WebSocketProgress
import JustApi.Inference.BatchDrain
import JustApi.Core.Connections
import JustApi.Core.ConnectionRuns
import JustApi.Core.Bulkhead
import JustApi.Lib.Brackets
import JustApi.Py.Streams
import JustApi.Py.JsonTexts
import JustApi.Py.StreamFormats
import JustApi.Cli.HotReload
