import Kaka.Base.Interleaving
import Kaka.Base.Linearization
import Kaka.Base.Metering
import Kaka.Limiter
import Kaka.Base.LinkedList
import Kaka.Memory.Options
import Kaka.Memory.Shard
import Kaka.Memory.ShardSpec
import Kaka.Memory.ShardCleanup
import Kaka.Memory.Store
import Kaka.Memory.StoreStep
import Kaka.Memory.StoreLocks
import Kaka.Memory.StoreContents
import Kaka.Memory.StoreInvariant
import Kaka.Memory.Representation
import Kaka.Memory.Handoff
import Kaka.Memory.Rejection
import Kaka.Memory.KeyHistory
import Kaka.Memory.SlidingWindow
import Kaka.Memory.SlidingWindowLimit
import Kaka.Memory.Numeric
import Kaka.Memory.Buckets
import Kaka.Memory.BucketAdmission
import Kaka.Memory.CappedMap
import Kaka.Memory.Linearizability
import Kaka.Redis.Script
import Kaka.Redis.Buckets
import Kaka.Redis.BucketClock
import Kaka.Redis.BucketAgreement
import Kaka.Base.SortedSet
import Kaka.Redis.SlidingWindow
import Kaka.Redis.WindowAgreement
import Kaka.Memory.BucketLimit
import Kaka.Base.Forgetting
import Kaka.Memory.Serial
import Kaka.Memory.IdleCleanup
import Kaka.Memory.Recovery
import Kaka.Memory.Progress
import Kaka.Memory.RetryAfter
import Kaka.Memory.WindowReference
import Kaka.Redis.Expiry
import Kaka.Redis.Client
import Kaka.Redis.WindowLimit
import Kaka.Layered.Limiter
import Kaka.Layered.Quota
import Kaka.Base.Shielding
import Kaka.Layered.Shield
import Kaka.Layered.BucketShield
import Kaka.Layered.WindowShield
import Kaka.Layered.Agreement
import Kaka.Memory.BurstService
import Kaka.Memory.Remaining
import Kaka.Memory.Denials
import Kaka.Redis.RetryAfter
import Kaka.Redis.WindowTruncation
import Kaka.Base.Inevitable
import Kaka.Memory.Return
import Kaka.Base.Recency
import Kaka.Memory.ShardOrder
import Kaka.Memory.LruOrder
import Kaka.Memory.LruAdmission
import Kaka.Memory.LruCache
import Kaka.Memory.CleanupProgress
import Kaka.Memory.ExpiredKeys
import Kaka.Base.Slice
import Kaka.Memory.WindowSlice
import Kaka.Base.Atomicity
import Kaka.Memory.EvictionReports
import Kaka.Base.RunLog
import Kaka.Memory.KeyLives
import Kaka.Memory.Unobstructed
import Kaka.Memory.LruLinearizability
import Kaka.Base.Simulation
import Kaka.Layered.Stack
import Kaka.Layered.ScriptCache
import Kaka.Layered.Reports
import Kaka.Base.Binary64
import Kaka.Base.Float64
import Kaka.Memory.FloatBuckets
import Kaka.Memory.Contract
import Kaka.Memory.FloatContract
import Kaka.Memory.FloatAdmission
import Kaka.Memory.FloatBurst
import Kaka.Memory.Waiting
import Kaka.Memory.Keeping
import Kaka.Middleware.Handler
import Kaka.Middleware.Client
import Kaka.Redis.Keyspace
import Kaka.Redis.Prefixes
import Kaka.Memory.SinkCalls
import Kaka.Memory.KeyGauge
import Kaka.Redis.FloatScripts
