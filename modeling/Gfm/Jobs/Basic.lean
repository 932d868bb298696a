import Gfm.Types
import Gfm.Lib.Interruptible

/-!
# Jobs

The data model of the jobs crate: job ids, priorities, job classes, payload
kinds and the jobs themselves, with the order in which the scheduler's heap
hands them out. A job carries a handle to its cancellation token; the tokens
that have been cancelled are kept by the state that owns the jobs.
-/

namespace Gfm.Jobs

structure JobId where
  value : Nat
  deriving DecidableEq, Repr

inductive Priority where
  | background
  | normal
  | visible
  | interactive
  deriving DecidableEq, Repr

def Priority.rank : Priority → Nat
  | .background => 0
  | .normal => 1
  | .visible => 2
  | .interactive => 3

inductive JobClass where
  | foreground
  | visible
  | background
  | maintenance
  | repair
  deriving DecidableEq, Repr

inductive JobPayloadKind where
  | operation
  | indexing
  | extraction
  | thumbnail
  | preview
  | repair
  deriving DecidableEq, Repr

/-- A shared handle to a cancellation token. -/
structure Cancellation where
  token : Nat
  deriving DecidableEq, Repr

structure Job where
  id : JobId
  priority : Priority
  jobClass : JobClass
  payloadKind : Option JobPayloadKind
  label : String
  volume : Option VolumeId
  dependencies : List JobId
  cancel : Cancellation
  deriving DecidableEq, Repr

/-- The heap order of queued jobs: the greater job is handed out first. -/
def Job.cmp (left right : Job) : Ordering :=
  (compare left.priority.rank right.priority.rank).then (compare right.id.value left.id.value)

def Job.Precedes (left right : Job) : Prop := left.cmp right ≠ .lt

instance : DecidableRel Job.Precedes :=
  fun left right => inferInstanceAs (Decidable (left.cmp right ≠ .lt))

theorem Job.precedes_iff {left right : Job} :
    left.Precedes right ↔
      right.priority.rank < left.priority.rank ∨
        (left.priority.rank = right.priority.rank ∧ left.id.value ≤ right.id.value) := by
  simp only [Job.Precedes, Job.cmp, ne_eq, Ordering.then_eq_lt, Nat.compare_eq_lt,
    Nat.compare_eq_eq]
  omega

instance : Std.Total Job.Precedes where
  total _ _ := by
    simp only [Job.precedes_iff]
    omega

instance : IsTrans Job Job.Precedes where
  trans _ _ _ before after := by
    simp only [Job.precedes_iff] at *
    omega

/-- The order in which a heap of queued jobs is popped. -/
def popOrder (queue : List Job) : List Job := queue.insertionSort Job.Precedes

theorem popOrder_perm (queue : List Job) : (popOrder queue).Perm queue :=
  List.perm_insertionSort Job.Precedes queue

theorem popOrder_pairwise (queue : List Job) : (popOrder queue).Pairwise Job.Precedes :=
  List.pairwise_insertionSort Job.Precedes queue

@[simp]
theorem mem_popOrder {queue : List Job} {job : Job} : job ∈ popOrder queue ↔ job ∈ queue :=
  (popOrder_perm queue).mem_iff

end Gfm.Jobs
