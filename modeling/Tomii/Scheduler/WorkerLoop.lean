import Tomii.Scheduler.Channels

/-! # Spawning, and one turn of a worker (`custom_scheduler/mod.rs`, `channels.rs`, `worker.rs`)

Callers and workers as programs of atomic actions, in the order of the source. Core pinning, the
lifecycle hook, recording and tracing are left out. A body that panics takes its worker with it. -/
namespace Tomii.Scheduler
set_option autoImplicit false
set_option maxHeartbeats 250000

structure Config (groups : ℕ) where
  sharded : Bool
  allowGlobalSteal : Fin groups → Bool
  spinIterations : ℕ
  /-- `self.sharded && num_groups > 0` -/
  groups_pos : sharded = true → 0 < groups

variable {groups : ℕ} {α : Type} (cfg : Config groups)

/-! ## Spawning -/

/-- The counters come before the channel. -/
def enqueue (kind : Kind) (priority : Priority) (body : α)
    (route : Thread groups α (Option (Fin groups))) : Thread groups α Unit := do
  let (number, jobId) ← atomic .claim
  atomic .incPending
  let group ← route
  atomic (.send (group, priority) ⟨number, jobId, kind, body⟩)

/-- `spawn`, `spawn_with_priority`, `spawn_with_meta` and `spawn_with_meta_priority` -/
def spawnWithPriority (priority : Priority) (body : α) : Thread groups α Unit :=
  enqueue .boxed priority body (pure none)

/-- `spawn_to_group` and `spawn_to_group_with_meta` -/
def spawnToGroup (group : ℕ) (priority : Priority) (body : α) : Thread groups α Unit :=
  if h : group < groups then enqueue .boxed priority body (pure (some ⟨group, h⟩))
  else spawnWithPriority priority body

/-- `load_of`: the jobs in the channels of a shard and those its workers run. -/
def loadOf (g : Fin groups) : Thread groups α ℕ := do
  let high ← atomic (.len (some g, .high))
  let normal ← atomic (.len (some g, .normal))
  let low ← atomic (.len (some g, .low))
  let running ← atomic (.loadInFlight g)
  pure (high + normal + low + running.toNat)

/-- The rest of the loop over the shards. It stops at a shard with no work at all. -/
def leastLoaded (best : Fin groups) (bestLoad : ℕ) : List (Fin groups) → Thread groups α (Fin groups)
  | [] => pure best
  | g :: gs =>
    if bestLoad = 0 then pure best
    else do
      let load ← loadOf g
      if load < bestLoad then leastLoaded g load gs else leastLoaded best bestLoad gs

def shardAt (hpos : 0 < groups) (i : ℕ) : Fin groups := ⟨i % groups, Nat.mod_lt _ hpos⟩

def shardFor (hpos : 0 < groups) : Thread groups α (Fin groups) :=
  if groups = 1 then pure ⟨0, hpos⟩
  else do
    let cursor ← atomic .fetchNextShard
    let start := shardAt hpos cursor.toNat
    let bestLoad ← loadOf start
    leastLoaded start bestLoad ((List.range' 1 (groups - 1)).map fun k => shardAt hpos (start + k))

def spawnNode (group : ℕ) (priority : Priority) (body : α) : Thread groups α Unit :=
  enqueue .node priority body
    (if h : 0 < group ∧ group < groups then pure (some ⟨group, h.2⟩)
    else if h : cfg.sharded = true then do
      let shard ← shardFor (cfg.groups_pos h)
      pure (some shard)
    else pure none)

def SpawnCall.program : SpawnCall α → Thread groups α Unit
  | .toGlobal priority body => spawnWithPriority priority body
  | .toGroup group priority body => spawnToGroup group priority body
  | .node group priority body => spawnNode cfg group priority body

def spawnAll : List (SpawnCall α) → Thread groups α Unit
  | [] => pure ()
  | call :: calls => do
    call.program cfg
    spawnAll calls

/-! ## Taking a job -/

/-- The channels are tried one after the other. -/
def firstOf : List (Channel groups) → Thread groups α (Option (Job α))
  | [] => pure none
  | c :: cs => do
    match ← atomic (.tryRecv c) with
    | some job => pure (some job)
    | none => firstOf cs

def orElse (p q : Thread groups α (Option (Job α))) : Thread groups α (Option (Job α)) := do
  match ← p with
  | some job => pure (some job)
  | none => q

/-- The channels of a group, or the global ones, with the most urgent first. -/
def channelsOf (g : Option (Fin groups)) : List (Channel groups) :=
  [(g, .high), (g, .normal), (g, .low)]

def recvOrder (g : Fin groups) : List (Channel groups) :=
  [(some g, .high), (some g, .normal)] ++
    (if cfg.allowGlobalSteal g = true then [(none, .high), (none, .normal)] else []) ++
    [(some g, .low)] ++ if cfg.allowGlobalSteal g = true then [(none, .low)] else []

def tryRecvAll (g : Fin groups) : Thread groups α (Option (Job α)) := firstOf (recvOrder cfg g)

/-- The other shards from the next one on. -/
def stealOrder (own : Fin groups) : List (Channel groups) :=
  (((List.range groups).map fun k => shardAt own.pos (own + 1 + k)).filter (· ≠ own)).flatMap
    fun g => channelsOf (some g)

def tryStealShards (own : Fin groups) : Thread groups α (Option (Job α)) := firstOf (stealOrder own)

/-- The scan of a worker, in both of its non-blocking phases. -/
def scan (g : Fin groups) : Thread groups α (Option (Job α)) :=
  orElse (tryRecvAll cfg g) (if cfg.sharded = true then tryStealShards g else pure none)

def spin (g : Fin groups) : ℕ → Thread groups α (Option (Job α))
  | 0 => pure none
  | n + 1 => orElse (scan cfg g) (spin g n)

/-- The channels that a blocked worker watches. -/
def watched (g : Fin groups) : List (Channel groups) :=
  channelsOf (some g) ++ if cfg.allowGlobalSteal g = true then channelsOf none else []

/-- The three phases of an iteration. -/
def nextTask (g : Fin groups) : Thread groups α (Option (Job α)) :=
  orElse (scan cfg g)
    (orElse (spin cfg g cfg.spinIterations) (atomic (.select (watched cfg g))))

/-! ## Running a job -/

def runBody (job : Job α) : Thread groups α Unit := do
  let out ← atomic (.start job)
  spawnAll cfg out.spawns
  if out.panics = true then Prog.fail else atomic (.finish job)

def countCompleted : Thread groups α Unit := do
  atomic .decPending
  atomic .incCompleted

def executeBoxed (job : Job α) : Thread groups α Unit := do
  runBody cfg job
  countCompleted

/-- Without an executor the task is dropped, and counted all the same. -/
def executeNode (job : Job α) : Thread groups α Unit := do
  if ← atomic .hasExec then runBody cfg job else atomic (.drop job)
  countCompleted

def executeJob (job : Job α) : Thread groups α Unit :=
  match job.kind with
  | .boxed => executeBoxed cfg job
  | .node => executeNode cfg job

def runJob (g : Fin groups) (job : Job α) : Thread groups α Unit :=
  if cfg.sharded = true then do
    atomic (.enter g)
    executeJob cfg job
    atomic (.leave g)
  else executeJob cfg job

/-- An iteration of `worker_loop`. After a shutdown it finds nothing to do any more. -/
def workerIteration (g : Fin groups) : Thread groups α Unit := do
  if ← atomic .loadShutdown then pure ()
  else
    match ← nextTask cfg g with
    | some job => runJob cfg g job
    | none => pure ()

/-! ## Threads -/

inductive Errand (groups : ℕ) (α : Type) where
  | work (g : Fin groups)
  | spawn (call : SpawnCall α)
  /-- A look of `wait_idle` at the counter. -/
  | look
  | setNodeExecutor
  | shutdown

def Errand.program : Errand groups α → Thread groups α Unit
  | .work g => workerIteration cfg g
  | .spawn call => call.program cfg
  | .look => do
    let _ ← atomic .loadPending
    pure ()
  | .setNodeExecutor => atomic .setExec
  | .shutdown => atomic .setShutdown

def schedulerMachine (run : ℕ → Job α → Outcome α) :
    Machine (atomics groups α) (Shared groups α) (Errand groups α) where
  perform := perform run
  program := Errand.program cfg

end Tomii.Scheduler
