import Alexandria.Foundations.Run
import Alexandria.Foundations.Text
import Alexandria.Foundations.Keyed
import Alexandria.Foundations.Expiring
import Alexandria.Maintenance.Queue
import Alexandria.Maintenance.Admission
import Alexandria.Maintenance.Admitted
import Alexandria.Maintenance.Delivery
import Alexandria.Maintenance.Replay
import Alexandria.Maintenance.Terminal
import Alexandria.Maintenance.Attempts
import Alexandria.Compile.Resolution
import Alexandria.Compile.Plan
import Alexandria.Compile.Projection
import Alexandria.Compile.Diagnostics
import Alexandria.Compile.Outcome
import Alexandria.Compile.Incremental
import Alexandria.Compile.Freshness
import Alexandria.OAuth.Records
import Alexandria.OAuth.Exchange
import Alexandria.OAuth.Rotation
import Alexandria.OAuth.Approval
import Alexandria.OAuth.ApprovalBound
import Alexandria.OAuth.Grants
import Alexandria.Recovery.Plan
import Alexandria.Recovery.Runs
import Alexandria.Recovery.Verified
import Alexandria.Recovery.Exclusion
import Alexandria.Index.Coordinator
import Alexandria.Index.Exclusion
import Alexandria.Index.Acquisition
import Alexandria.Index.Waiters
import Alexandria.Index.ChangeLog
import Alexandria.Vault.MoveSafety
import Alexandria.Markdown.RoundTrip
import Alexandria.Markdown.Injection
import Alexandria.Markdown.NumberScalars
import Alexandria.Chunking.Coverage
import Alexandria.Chunking.HeadingPaths
import Alexandria.Manifest.Soundness
import Alexandria.Manifest.Partition
import Alexandria.Reconciliation.Supersession
import Alexandria.Reconciliation.ConflictIds
import Alexandria.Reconciliation.Duplicates
import Alexandria.Reconciliation.CycleApply
import Alexandria.Reconciliation.Copies
import Alexandria.Notes.Supersession
import Alexandria.Reconciliation.Recallable
import Alexandria.Reconciliation.StoredEvidence
import Alexandria.Compacts.RoundTrip
import Alexandria.Notes.ConcurrentRepairs
import Alexandria.Notes.ScalarUpdate
import Alexandria.Notes.Overwrite
import Alexandria.Notes.WriteTarget
import Alexandria.Notes.SourceReaders
import Alexandria.Compile.InputOrder
import Alexandria.Compile.Truncation
import Alexandria.Compile.SelectedCandidates
import Alexandria.Compile.ProjectionDiff
import Alexandria.Embedding.Batches
import Alexandria.Embedding.RuntimeRegistry
import Alexandria.Embedding.ReindexRuns
import Alexandria.References.EdgeIds
import Alexandria.Compile.ProvidedInputs
import Alexandria.References.Located
import Alexandria.References.TargetPaths
import Alexandria.Retrieval.ContextPackFrame
import Alexandria.Retrieval.FusionRanking
import Alexandria.Reconciliation.CandidateClusters
import Alexandria.Reconciliation.MaskedConflicts
import Alexandria.Compile.PlanOrder
import Alexandria.Graph.ManagedSection
import Alexandria.Reconciliation.BodyFrame
import Alexandria.ManagedSpec.Runs
import Alexandria.Compile.ProjectionCache
