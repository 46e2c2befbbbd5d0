import MarketCache.Cache.Basic
import MarketCache.Cache.Executor
import MarketCache.Cache.Lookup
import MarketCache.Cache.Operation
import MarketCache.Cache.Settings
import MarketCache.Cache.System
import MarketCache.Cache.Task
import MarketCache.Config
import MarketCache.Decimal.Binary
import MarketCache.Decimal.Shortest
import MarketCache.Entry
import MarketCache.Entry.Codec
import MarketCache.Freshness
import MarketCache.HotTier
import MarketCache.Http.Form
import MarketCache.Http.MediaType
import MarketCache.Http.Message
import MarketCache.Http.Percent
import MarketCache.Http.Url
import MarketCache.Json.Basic
import MarketCache.Json.Number
import MarketCache.Json.Printer
import MarketCache.Json.Reader
import MarketCache.Json.Record
import MarketCache.Json.Skip
import MarketCache.Json.Text
import MarketCache.Json.Token
import MarketCache.Payload
import MarketCache.Provider.Basic
import MarketCache.Provider.Client
import MarketCache.Query.Basic
import MarketCache.Query.Key
import MarketCache.Service.Answers
import MarketCache.Service.ApiError
import MarketCache.Service.Basic
import MarketCache.Service.Endpoint
import MarketCache.Service.Requests
import MarketCache.Service.Responses
import MarketCache.Service.Router
import MarketCache.Stats
import MarketCache.Store.Basic
import MarketCache.Store.Faulty
import MarketCache.Store.Location
import MarketCache.Store.Memory
import MarketCache.Store.Record
import MarketCache.Text.Blank
import MarketCache.Text.CaseTable
import MarketCache.Text.Digits
import MarketCache.Text.Uppercase
import MarketCache.Text.Utf8
import MarketCache.Throttle
import MarketCache.Time.Calendar
import MarketCache.Time.Duration
import MarketCache.Time.Instant
import MarketCache.Time.Timestamp
import MarketCache.Time.Timestamp.Reader
import MarketCache.WriteBack.Basic
import MarketCache.WriteBack.Pass
import MarketCache.Proofs.Query.KeyUnique
import MarketCache.Proofs.WriteBack.Batch
import MarketCache.Proofs.WriteBack.Conservation
import MarketCache.Proofs.WriteBack.Discards
import MarketCache.Proofs.System.Run
import MarketCache.Proofs.System.Turn
import MarketCache.Proofs.Store.Truthful
import MarketCache.Proofs.System.Numbers
import MarketCache.Proofs.System.Provenance
import MarketCache.Proofs.System.Trail
import MarketCache.Proofs.System.Lifecycle
import MarketCache.Proofs.System.FlushPromise
import MarketCache.Proofs.System.Access
import MarketCache.Proofs.System.Sequential
import MarketCache.Proofs.Time.Age
import MarketCache.Proofs.Store.Exact
import MarketCache.Proofs.System.Polling
import MarketCache.Proofs.System.Latest
import MarketCache.Proofs.System.Totals
import MarketCache.Proofs.System.Failures
import MarketCache.Proofs.System.Lenient
import MarketCache.Proofs.Text.Utf8
import MarketCache.Proofs.Text.Digits
import MarketCache.Proofs.Text.Fields
import MarketCache.Proofs.Text.Uppercase
import MarketCache.Proofs.Query.Calls
import MarketCache.Proofs.Time.Calendar
import MarketCache.Proofs.Time.Timestamp
import MarketCache.Proofs.Json.Text
import MarketCache.Proofs.Json.Number
import MarketCache.Proofs.Json.Reader
import MarketCache.Proofs.Json.Record
import MarketCache.Proofs.Json.Nesting
import MarketCache.Proofs.Entry.Codec
import MarketCache.Proofs.Time.Expiry
import MarketCache.Proofs.Store.Lasting
import MarketCache.Proofs.System.Pending
import MarketCache.Proofs.System.Restart
import MarketCache.Proofs.System.FlushInterval
import MarketCache.Proofs.System.FinalFlush
import MarketCache.Proofs.System.Shutdown
import MarketCache.Proofs.System.Namespaces
import MarketCache.Proofs.System.WriteOrder
import MarketCache.Proofs.Store.Local
import MarketCache.Proofs.System.Mirror
import MarketCache.Proofs.System.Isolation
import MarketCache.Proofs.Throttle.Independence
import MarketCache.Proofs.Throttle.Window
import MarketCache.Proofs.Cache.OwnKey
import MarketCache.Proofs.Cache.FailedLookup
import MarketCache.Proofs.System.Promotion
import MarketCache.Proofs.Store.Refinement
import MarketCache.Proofs.Store.Races
import MarketCache.Proofs.System.HotKeys
import MarketCache.Proofs.System.Strand
import MarketCache.Proofs.System.Commute
import MarketCache.Proofs.System.Accounts
import MarketCache.Proofs.Time.Words
import MarketCache.Proofs.Store.Lazy
import MarketCache.Proofs.Text.Trim
import MarketCache.Proofs.Query.Normal
import MarketCache.Proofs.Config
