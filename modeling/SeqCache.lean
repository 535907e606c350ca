import SeqCache.Manager.Validate
import SeqCache.Invariant.Accounting
import SeqCache.Invariant.Growth
import SeqCache.Invariant.Likeness
import SeqCache.Run.Reachable
import SeqCache.Properties.Exclusivity
import SeqCache.Properties.Planning
import SeqCache.Properties.Evictions
import SeqCache.Properties.Branching
import SeqCache.Properties.Geometry
import SeqCache.Properties.Retention
import SeqCache.Properties.Aborts
import SeqCache.Properties.Spans
import SeqCache.Properties.Rejections
import SeqCache.Properties.Reversal
import SeqCache.Properties.Threshold
import SeqCache.Properties.Validation
import SeqCache.Properties.Failures
import SeqCache.Properties.Reservations
import SeqCache.Properties.Finalization
import SeqCache.Properties.Batches
import SeqCache.Properties.LastUse
import SeqCache.Properties.Index
import SeqCache.Properties.Custody
import SeqCache.Properties.Reuse
import SeqCache.Properties.Tables
import SeqCache.Properties.Budgets
import SeqCache.Properties.Handles
import SeqCache.Properties.Staleness
import SeqCache.Properties.Errors
import SeqCache.Properties.Slots
import SeqCache.Properties.Releases
import SeqCache.Properties.Starvation
import SeqCache.Properties.Idle
import SeqCache.Properties.Drained
import SeqCache.Properties.LifeCycle
import SeqCache.Properties.Leftovers
