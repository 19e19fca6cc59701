import GitAgentic.Core.RoundTrip
import GitAgentic.Core.EarlyCommit
import GitAgentic.Core.GcsReads
import GitAgentic.Core.SharedBucket
import GitAgentic.Core.StagingRun
import GitAgentic.Core.ApprovalBinding
import GitAgentic.Core.ConcurrentPut
import GitAgentic.Core.StagingResume
import GitAgentic.Memory.Reload
import GitAgentic.Memory.SnapshotReplay
import GitAgentic.Memory.PushOrder
import GitAgentic.Memory.Batches
import GitAgentic.Memory.Bootstrap
import GitAgentic.Memory.Overlap
import GitAgentic.Memory.Fence
import GitAgentic.Memory.Redelivery
import GitAgentic.Memory.DrainLoop
import GitAgentic.Memory.Routing
import GitAgentic.Memory.KeyBounds
import GitAgentic.Memory.SchemaDrift
import GitAgentic.Memory.InMemorySnapshot
import GitAgentic.Daemon.CrashSafety
import GitAgentic.Daemon.Gate
import GitAgentic.Daemon.Undisturbed
import GitAgentic.Daemon.Serving
import GitAgentic.Daemon.History
import GitAgentic.Daemon.ForwardRecord
import GitAgentic.Core.Scanned
import GitAgentic.Core.RefNames
import GitAgentic.Daemon.PromptLinks
import GitAgentic.Proto.Framing
import GitAgentic.Daemon.Envelopes
import GitAgentic.Daemon.Limits
import GitAgentic.Daemon.ErrorClasses
import GitAgentic.Daemon.UnknownRef
import GitAgentic.Daemon.Deliverable
import GitAgentic.Core.EntropyRuns
import GitAgentic.Memory.Redaction
import GitAgentic.Daemon.Mcp
import GitAgentic.Sdk.LastCheckpoint
import GitAgentic.Daemon.Lineage
import GitAgentic.Daemon.Startup
import GitAgentic.Daemon.Connection
import GitAgentic.Proto.Responses
import GitAgentic.Cli.Client
import GitAgentic.Cli.Prompts
import GitAgentic.Daemon.PromptRestore
import GitAgentic.Memory.InMemoryBackend
import GitAgentic.Daemon.Recall
import GitAgentic.Daemon.Unlinked
