import EdgeCompose.Compose.Composition
import EdgeCompose.Compose.Element
import EdgeCompose.Compose.Error
import EdgeCompose.Compose.Inclusion
import EdgeCompose.Compose.Page
import EdgeCompose.Compose.Render
import EdgeCompose.Config.Backends
import EdgeCompose.Config.Decode
import EdgeCompose.Config.Load
import EdgeCompose.Config.Schema
import EdgeCompose.Config.Settings
import EdgeCompose.Config.SocketAddress
import EdgeCompose.Config.Toml.Document
import EdgeCompose.Config.Toml.Lexical
import EdgeCompose.Config.Toml.Tree
import EdgeCompose.Config.Validation
import EdgeCompose.Effect.Program
import EdgeCompose.Effect.Run
import EdgeCompose.Effect.World
import EdgeCompose.Expression.Lexeme
import EdgeCompose.Expression.Parse
import EdgeCompose.Expression.Value
import EdgeCompose.Fetch.Event
import EdgeCompose.Fetch.Exchange
import EdgeCompose.Fetch.Script
import EdgeCompose.Gateway.Handler
import EdgeCompose.Gateway.Server
import EdgeCompose.Gateway.Service
import EdgeCompose.Http.CacheControl
import EdgeCompose.Http.ClientRequest
import EdgeCompose.Http.Forwarding
import EdgeCompose.Http.Header
import EdgeCompose.Http.Message
import EdgeCompose.Http.Status
import EdgeCompose.Http.Target
import EdgeCompose.Main
import EdgeCompose.Markup.Directive
import EdgeCompose.Markup.Scan
import EdgeCompose.Markup.Tag
import EdgeCompose.Metrics
import EdgeCompose.Number.Decimal
import EdgeCompose.Number.Double
import EdgeCompose.Options
import EdgeCompose.Shutdown
import EdgeCompose.Store.Clock
import EdgeCompose.Store.Fragments
import EdgeCompose.Store.Locks
import EdgeCompose.Store.Responses
import EdgeCompose.Table
import EdgeCompose.Template.Substitution
import EdgeCompose.Template.Variables
import EdgeCompose.Text.Basic
import EdgeCompose.Text.Percent
import EdgeCompose.Text.Utf8
import EdgeCompose.Url.Basic
import EdgeCompose.Url.Host
import EdgeCompose.Url.Parse
import EdgeCompose.Url.Path
import EdgeCompose.Proofs.Programs
import EdgeCompose.Proofs.ResponseHistory
import EdgeCompose.Proofs.RoundTrip
import EdgeCompose.Proofs.Segments
import EdgeCompose.Proofs.VaryIsolation
import EdgeCompose.Proofs.Stores
import EdgeCompose.Proofs.FragmentHistory
import EdgeCompose.Proofs.Partition
import EdgeCompose.Proofs.PageOrigin
import EdgeCompose.Proofs.Stack
import EdgeCompose.Proofs.Embedding
import EdgeCompose.Proofs.FailedAttempts
import EdgeCompose.Proofs.FailedStarts
import EdgeCompose.Proofs.ForeignRegions
import EdgeCompose.Proofs.Rendering
import EdgeCompose.Proofs.Interleaving
import EdgeCompose.Proofs.LockDiscipline
import EdgeCompose.Proofs.Invariants
import EdgeCompose.Proofs.SingleFlight
import EdgeCompose.Proofs.Site
import EdgeCompose.Proofs.SoloRuns
import EdgeCompose.Proofs.Exchanges
import EdgeCompose.Proofs.StoredAnswers
import EdgeCompose.Proofs.Entities
import EdgeCompose.Proofs.Tags
import EdgeCompose.Proofs.IncludePages
import EdgeCompose.Proofs.Neutrality
import EdgeCompose.Proofs.Transparency
import EdgeCompose.Proofs.Containment
import EdgeCompose.Proofs.Decoding
import EdgeCompose.Proofs.PlainPages
import EdgeCompose.Proofs.Noninterference
import EdgeCompose.Proofs.VarsBodies
import EdgeCompose.Proofs.Queues
import EdgeCompose.Proofs.LockedSystem
import EdgeCompose.Proofs.Deadlock
import EdgeCompose.Proofs.Logs
import EdgeCompose.Proofs.Provenance
import EdgeCompose.Proofs.Grammar
import EdgeCompose.Proofs.LookupOrder
import EdgeCompose.Proofs.Nesting
import EdgeCompose.Proofs.Trials
import EdgeCompose.Proofs.Surroundings
import EdgeCompose.Proofs.TryBlocks
import EdgeCompose.Proofs.Tallies
import EdgeCompose.Proofs.Counters
import EdgeCompose.Proofs.Redirects
import EdgeCompose.Proofs.Levels
import EdgeCompose.Proofs.Frames
import EdgeCompose.Proofs.Choices
import EdgeCompose.Proofs.Capacity
import EdgeCompose.Proofs.Concatenation
import EdgeCompose.Proofs.InlineElements
import EdgeCompose.Proofs.Extraction
import EdgeCompose.Proofs.Expiries
import EdgeCompose.Proofs.Trimming
import EdgeCompose.Proofs.Numerals
import EdgeCompose.Proofs.Comparisons
import EdgeCompose.Proofs.Validation
import EdgeCompose.Proofs.CacheDirectives
