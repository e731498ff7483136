import Tomii.Foundations.Interleaving
import Mathlib.Data.Fintype.Option
import Mathlib.Data.Fintype.Prod

/-! # Channels and counters of the scheduler (`custom_scheduler/channels.rs`, `worker.rs`)

The state that workers and callers of the scheduler share, and what they do to it in one atomic
action. Beside the fields of the source it keeps a record of what was sent, taken and run. What a
task does is its own matter: it may spawn further tasks. -/
namespace Tomii.Scheduler
set_option autoImplicit false
set_option maxHeartbeats 250000

inductive Priority where
  | high
  | normal
  | low
deriving DecidableEq

instance : Fintype Priority where
  elems := {.high, .normal, .low}
  complete := by rintro (_ | _ | _) <;> decide

/-- A closure, or a node task, which the executor of the runtime runs. -/
inductive Kind where
  | boxed
  | node
deriving DecidableEq

/-- A job with the number of jobs spawned before it. -/
structure Job (α : Type) where
  number : ℕ
  jobId : UInt64
  kind : Kind
  body : α

/-- A channel of the global set, or of one of the groups. -/
abbrev Channel (groups : ℕ) : Type := Option (Fin groups) × Priority

/-- A call of the scheduler. -/
inductive SpawnCall (α : Type) where
  | toGlobal (priority : Priority) (body : α)
  | toGroup (group : ℕ) (priority : Priority) (body : α)
  | node (group : ℕ) (priority : Priority) (body : α)

/-- What running a job comes to: the tasks it spawns, and whether it panics then. -/
structure Outcome (α : Type) where
  spawns : List (SpawnCall α)
  panics : Bool

/-! ## Shared state -/

/-- `SharedWorkerState`, then what has happened to the jobs. -/
structure Shared (groups : ℕ) (α : Type) where
  queues : Channel groups → List (Job α)
  inFlight : Fin groups → UInt64
  nextShard : UInt64
  shutdown : Bool
  totalSpawned : UInt64
  totalCompleted : UInt64
  pendingTasks : UInt64
  nodeExec : Bool
  spawned : ℕ
  sent : Channel groups → List ℕ
  taken : Channel groups → List ℕ
  started : List ℕ
  finished : List ℕ
  dropped : List ℕ

namespace Shared

variable {groups : ℕ} {α : Type}

def fresh (nodeExec : Bool) : Shared groups α where
  queues := fun _ => []
  inFlight := fun _ => 0
  nextShard := 0
  shutdown := false
  totalSpawned := 0
  totalCompleted := 0
  pendingTasks := 0
  nodeExec := nodeExec
  spawned := 0
  sent := fun _ => []
  taken := fun _ => []
  started := []
  finished := []
  dropped := []

variable (s : Shared groups α)

def send (c : Channel groups) (job : Job α) : Shared groups α :=
  { s with
    queues := Function.update s.queues c (s.queues c ++ [job])
    sent := Function.update s.sent c (s.sent c ++ [job.number]) }

/-- The job at the head leaves the channel. -/
def pop (c : Channel groups) (job : Job α) (rest : List (Job α)) : Shared groups α :=
  { s with
    queues := Function.update s.queues c rest
    taken := Function.update s.taken c (s.taken c ++ [job.number]) }

/-- `try_recv` -/
def receive (c : Channel groups) : Option (Job α) × Shared groups α :=
  match s.queues c with
  | [] => (none, s)
  | job :: rest => (some job, s.pop c job rest)

end Shared

/-! ## Actions -/

inductive Act (groups : ℕ) (α : Type) where
  /-- `total_spawned.fetch_add(1)`, with the number of jobs spawned before. -/
  | claim
  | incPending
  | decPending
  | loadPending
  | incCompleted
  | send (c : Channel groups) (job : Job α)
  | tryRecv (c : Channel groups)
  /-- `select!` over channels, with a timeout. -/
  | select (cs : List (Channel groups))
  | len (c : Channel groups)
  | loadInFlight (g : Fin groups)
  | enter (g : Fin groups)
  | leave (g : Fin groups)
  | fetchNextShard
  | hasExec
  | setExec
  | start (job : Job α)
  | finish (job : Job α)
  | drop (job : Job α)
  | loadShutdown
  | setShutdown

@[reducible] def Act.Reply {groups : ℕ} {α : Type} : Act groups α → Type
  | .claim => ℕ × UInt64
  | .loadPending => UInt64
  | .tryRecv _ => Option (Job α)
  | .select _ => Option (Job α)
  | .len _ => ℕ
  | .loadInFlight _ => UInt64
  | .fetchNextShard => UInt64
  | .hasExec => Bool
  | .start _ => Outcome α
  | .loadShutdown => Bool
  | _ => Unit

@[reducible] def atomics (groups : ℕ) (α : Type) : Interface := ⟨Act groups α, Act.Reply⟩

abbrev Thread (groups : ℕ) (α β : Type) : Type := Prog (atomics groups α) β

def atomic {groups : ℕ} {α : Type} (a : Act groups α) : Thread groups α a.Reply :=
  Prog.call (I := atomics groups α) a

/-- What a job does is left to the choice of the turn, as is the channel of a `select!`. -/
def perform {groups : ℕ} {α : Type} (run : ℕ → Job α → Outcome α) (choice : ℕ) :
    (a : Act groups α) → Shared groups α → a.Reply × Shared groups α
  | .claim, s => ((s.spawned, s.totalSpawned),
      { s with spawned := s.spawned + 1, totalSpawned := s.totalSpawned + 1 })
  | .incPending, s => ((), { s with pendingTasks := s.pendingTasks + 1 })
  | .decPending, s => ((), { s with pendingTasks := s.pendingTasks - 1 })
  | .loadPending, s => (s.pendingTasks, s)
  | .incCompleted, s => ((), { s with totalCompleted := s.totalCompleted + 1 })
  | .send c job, s => ((), s.send c job)
  | .tryRecv c, s => s.receive c
  | .select cs, s =>
    match cs[choice]? with
    | some c => s.receive c
    | none => (none, s)
  | .len c, s => ((s.queues c).length, s)
  | .loadInFlight g, s => (s.inFlight g, s)
  | .enter g, s => ((), { s with inFlight := Function.update s.inFlight g (s.inFlight g + 1) })
  | .leave g, s => ((), { s with inFlight := Function.update s.inFlight g (s.inFlight g - 1) })
  | .fetchNextShard, s => (s.nextShard, { s with nextShard := s.nextShard + 1 })
  | .hasExec, s => (s.nodeExec, s)
  | .setExec, s => ((), { s with nodeExec := true })
  | .start job, s => (run choice job, { s with started := job.number :: s.started })
  | .finish job, s => ((), { s with finished := job.number :: s.finished })
  | .drop job, s => ((), { s with dropped := job.number :: s.dropped })
  | .loadShutdown, s => (s.shutdown, s)
  | .setShutdown, s => ((), { s with shutdown := true })

end Tomii.Scheduler
