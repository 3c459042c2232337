import ZenZip.Lib.Accum
import ZenZip.Lib.Run
import ZenZip.Lib.Prog
import ZenZip.Lib.Pool
import ZenZip.Lib.Rely
import ZenZip.Lib.Fallible
import ZenZip.Lib.Locking
import ZenZip.Lib.Table
import ZenZip.Lib.Keyed
import ZenZip.Lib.Rank
import ZenZip.Lib.Levels
import ZenZip.Lib.Memo
import ZenZip.Lib.Text
import ZenZip.Lib.PosixPath
import ZenZip.Lib.Trie
import ZenZip.Lib.Patterns
import ZenZip.Lib.Glob
import ZenZip.Lib.Window
import ZenZip.Lib.Stmts
import ZenZip.Lib.Chunks
import ZenZip.Lib.Spacing
import ZenZip.Lib.Int64
import ZenZip.Lib.Doubles
import ZenZip.Lib.FixedWindow
import ZenZip.Lib.Relay
import ZenZip.Lib.Rolling
import ZenZip.Json
import ZenZip.JsonReader
import ZenZip.Store.Rows
import ZenZip.Store.Jobs
import ZenZip.Store.Runs
import ZenZip.Store.Emit
import ZenZip.Engine.Calls
import ZenZip.Engine.Effects
import ZenZip.Engine.Journal
import ZenZip.Engine.Workflow
import ZenZip.Engine.Queue
import ZenZip.System
import ZenZip.Engine.Track
import ZenZip.Engine.Release
import ZenZip.Engine.Pinning
import ZenZip.Runtime.Steps
import ZenZip.Runtime.Ids
import ZenZip.Runtime.JobMoves
import ZenZip.Runtime.Terminal
import ZenZip.Runtime.Cancel
import ZenZip.Runtime.Threads
import ZenZip.Runtime.Base
import ZenZip.Runtime.Debts
import ZenZip.Runtime.Coverage
import ZenZip.Runtime.Trigger
import ZenZip.Runtime.DeadLetter
import ZenZip.Runtime.Lineage
import ZenZip.Runtime.Settling
import ZenZip.Runtime.Stale
import ZenZip.Runtime.Tokens
import ZenZip.Runtime.Exclusive
import ZenZip.Runtime.Erasure
import ZenZip.Runtime.Keys
import ZenZip.Runtime.Sleep
import ZenZip.Runtime.Family
import ZenZip.Runtime.Events
import ZenZip.Machine.Tables
import ZenZip.Machine.Send
import ZenZip.Machine.History
import ZenZip.Scheduler.Tables
import ZenZip.Scheduler.Nodes
import ZenZip.Scheduler.Track
import ZenZip.Scheduler.Steps
import ZenZip.Scheduler.Ticks
import ZenZip.Scheduler.Occurrences
import ZenZip.Scheduler.Overlap
import ZenZip.Scheduler.Serial
import ZenZip.Scheduler.Boot
import ZenZip.Postgres.Waiters
import ZenZip.Postgres.Cancel
import ZenZip.Runtime.Forest
import ZenZip.Postgres.Retention
import ZenZip.Postgres.Throttle
import ZenZip.Postgres.Debounce
import ZenZip.Ledger.Ops
import ZenZip.Ledger.Fences
import ZenZip.Ledger.Conserved
import ZenZip.Ledger.Budget
import ZenZip.Ledger.KeyLimit
import ZenZip.Ledger.Priority
import ZenZip.Ledger.Requeue
import ZenZip.Postgres.Sweep
import ZenZip.Ledger.Fair
import ZenZip.Ledger.Journal
import ZenZip.Crypto.Cipher
import ZenZip.Crypto.Db
import ZenZip.Crypto.Writes
import ZenZip.Crypto.Calls
import ZenZip.Crypto.Columns
import ZenZip.Crypto.Transparent
import ZenZip.Crypto.Outbox
import ZenZip.Queue.Dispatcher
import ZenZip.Queue.TokenBucket
import ZenZip.Queue.Push
import ZenZip.Queue.Pace
import ZenZip.Queue.Delays
import ZenZip.Queue.Shutdown
import ZenZip.Queue.Bulk
import ZenZip.Queue.DeadJobs
import ZenZip.Sdk.Orphans
import ZenZip.Sdk.CancelRuns
import ZenZip.Sdk.Subscribe
import ZenZip.Sdk.ServerResponse
import ZenZip.Sdk.FetchRequest
import ZenZip.Sdk.FetchAdapter
import ZenZip.Sdk.Namespace
import ZenZip.Sdk.Scoping
import ZenZip.Sdk.CircuitBreaker
import ZenZip.Sdk.HalfOpen
import ZenZip.Sdk.Cooldown
import ZenZip.Sdk.Payload
import ZenZip.Sdk.Workflow
import ZenZip.Sdk.Replay
import ZenZip.Sdk.Llm
import ZenZip.Sdk.Agent
import ZenZip.Sdk.AgentLoop
import ZenZip.Sdk.AgentFn
import ZenZip.Sdk.Waits
import ZenZip.Sdk.Approvals
import ZenZip.Sdk.Billing
import ZenZip.Sdk.Versions
import ZenZip.Runtime.Deploys
import ZenZip.Sdk.Sessions
import ZenZip.Sdk.Prompts
import ZenZip.Sdk.Exchanges
import ZenZip.Sdk.Address
import ZenZip.Sdk.Ssrf
import ZenZip.Sdk.HttpRouter
import ZenZip.Sdk.StaticFiles
import ZenZip.Sdk.RateLimit
import ZenZip.Sdk.Router
import ZenZip.Sdk.Routes
import ZenZip.Sdk.Chain
import ZenZip.Sdk.Mounts
import ZenZip.Sdk.Dashboard
import ZenZip.Sdk.NodeHandler
import ZenZip.Sdk.Answers
import ZenZip.Lib.JsonText
import ZenZip.Lib.JsonTokens
import ZenZip.Lib.JsonGrammar
import ZenZip.Lib.JsonLines
import ZenZip.Lib.JsonPrint
import ZenZip.Lib.JsNumber
import ZenZip.Lib.JsValue
import ZenZip.Lib.JsonCost
import ZenZip.Lib.JsonInteger
import ZenZip.Machine.Envelopes
import ZenZip.Sdk.Sse
import ZenZip.Lib.Framing
import ZenZip.Sdk.TextDecoder
import ZenZip.Sdk.Anthropic
import ZenZip.Sdk.Mcp
import ZenZip.Sdk.AnthropicStream
import ZenZip.Sdk.Providers
import ZenZip.Lib.Dfs
import ZenZip.Sdk.Secrets
import ZenZip.Sdk.Redaction
import ZenZip.Sdk.Leaks
import ZenZip.Sdk.Blobs
import ZenZip.Sdk.Rehydration
import ZenZip.Sdk.Middleware
import ZenZip.Sdk.Guards
import ZenZip.Lib.Migrations
import ZenZip.Store.Sqlite
import ZenZip.Store.Migrations
import ZenZip.Sdk.Parallel
import ZenZip.Sdk.Phases
import ZenZip.Sdk.Siblings
import ZenZip.Sdk.StepBudget
import ZenZip.Lib.EditDistance
import ZenZip.Sdk.Eval
import ZenZip.Queue.Admission
import ZenZip.Queue.Backoff
import ZenZip.Lib.Reserve
