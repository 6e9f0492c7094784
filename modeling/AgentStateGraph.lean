import AgentStateGraph.Repo.MergeHistory
import AgentStateGraph.Repo.TaintEnforcement
import AgentStateGraph.Repo.ReservedSubtree
import AgentStateGraph.Tree.LeafDiff
import AgentStateGraph.Repo.IndexRuns
import AgentStateGraph.Repo.SecretReads
import AgentStateGraph.Control.Upward
import AgentStateGraph.Sync.Shallow
import AgentStateGraph.Backend.RefListing
import AgentStateGraph.Backend.BrowserRefs
import AgentStateGraph.Backend.BrowserTables
import AgentStateGraph.Backend.EpochRows
import AgentStateGraph.Auth.Lifecycle
import AgentStateGraph.Epoch.Landed
import AgentStateGraph.Gc.Merges
import AgentStateGraph.Tasks.Renumber
import AgentStateGraph.Tree.ListedPaths
import AgentStateGraph.Epoch.SealSteps
import AgentStateGraph.Postgres.Transitions
import AgentStateGraph.History.Postgres
import AgentStateGraph.History.Sqlite
import AgentStateGraph.Policy.Signing
import AgentStateGraph.Repo.WatchEscalation
import AgentStateGraph.Reminders.Attribution
import AgentStateGraph.Reminders.DueList
import AgentStateGraph.Reminders.Recurrence
import AgentStateGraph.Repo.Query
import AgentStateGraph.Repo.SessionScopes
import AgentStateGraph.Tasks.Next
import AgentStateGraph.Repo.MovedHead
import AgentStateGraph.Core.MergeClosure
import AgentStateGraph.Core.MergeSymmetry
import AgentStateGraph.Repo.NewObjects
import AgentStateGraph.Migrate.Planning
import AgentStateGraph.Policy.Promotion
import AgentStateGraph.Policy.SignedBytes
import AgentStateGraph.Repo.IntentTree
import AgentStateGraph.Sync.Wire
import AgentStateGraph.Epoch.Export
import AgentStateGraph.History.Draining
import AgentStateGraph.History.Report
import AgentStateGraph.Policy.Cedar
import AgentStateGraph.Repo.DeletionGuard
import AgentStateGraph.Repo.MergeBase
import AgentStateGraph.Tree.Prefetch
import AgentStateGraph.Core.MergeLookups
import AgentStateGraph.Tasks.Runs
import AgentStateGraph.Sync.Pushes
