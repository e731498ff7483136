import Tomii.Buffers.NodeDep

/-! # The generational words of one slot

Dependency entries, `cond_instances_to_spawn` and `fanout_bulk_arrived` of a slot under its
generation counter (`runtime/slot_management.rs`, `runtime/batch_resolution.rs`,
`runtime/task_execution.rs`). `EagerSlot` is the same slot with every cell restored at each
bump and no generation at all; `LazySlot.view` reads the first as the second. -/
namespace Tomii
set_option autoImplicit false
set_option maxHeartbeats 250000

/-- What the words of a slot are built from; `node_cache` and the dependency map have one
entry for each of `numNodes` nodes. -/
structure SlotLayout where
  numNodes : ℕ
  entry : ℕ → EntryShape
  isCondition : ℕ → Bool
  factor : ℕ → ℕ

/-- `if nc.is_condition { nc.factor as u32 } else { 0 }`. -/
def SlotLayout.condInit (L : SlotLayout) (node : ℕ) : UInt32 :=
  if L.isCondition node then asU32 (L.factor node) else 0

structure LazySlot where
  generation : UInt64
  deps : ℕ → EntryCells
  condInstancesToSpawn : ℕ → UInt64
  fanoutBulkArrived : ℕ → UInt64

/-- The accesses of one slot, each under the generation loaded from that slot. -/
inductive SlotOp where
  | decrease (node : ℕ) (call : DepCall)
  | increment (node : ℕ) (instanceIdx : Option ℕ)
  | resetSent (node instanceIdx : ℕ)
  | condRemaining (node : ℕ)
  | condSpawn (node : ℕ)
  | fanoutArrive (node count : ℕ)
  | bump
deriving DecidableEq

/-- What the caller of an access gets back. -/
inductive SlotOut where
  | ready (instances : List ℕ)
  | value (n : ℕ)
  | none
deriving DecidableEq

/-! ## The words -/

namespace LazySlot

variable (L : SlotLayout)

/-- `generation[slot].load() as u32`. -/
def slotGen (s : LazySlot) : UInt32 := lowHalf s.generation

/-- All generational words set to `newGen`: the state the builder allocates (epoch 0) and
the one `sweep_slot_generational_entries` leaves. -/
def swept (generation : UInt64) (newGen : UInt32) : LazySlot where
  generation := generation
  deps := fun node => EntryCells.resetEpoch (L.entry node) newGen
  condInstancesToSpawn := fun node => genPack newGen (L.condInit node)
  fanoutBulkArrived := fun _ => genPack newGen 0

def initial : LazySlot := swept L 0 0

/-- `bump_slot_generation`: the words are swept only when the low half wraps. -/
def bumpSlotGeneration (s : LazySlot) : LazySlot :=
  if lowHalf s.generation = UInt32.ofNat (2 ^ 32 - 1) then
    swept L (s.generation + 1) (lowHalf (s.generation + 1))
  else { s with generation := s.generation + 1 }

def setDeps (s : LazySlot) (node : ℕ) (cells : EntryCells) : LazySlot :=
  { s with deps := Function.update s.deps node cells }

def setCond (s : LazySlot) (node : ℕ) (packed : UInt64) : LazySlot :=
  { s with condInstancesToSpawn := Function.update s.condInstancesToSpawn node packed }

def setFanout (s : LazySlot) (node : ℕ) (packed : UInt64) : LazySlot :=
  { s with fanoutBulkArrived := Function.update s.fanoutBulkArrived node packed }

/-- The lazy check of `process_batch_inner`: a stale word counts as the full factor. -/
def remainingSpawns (s : LazySlot) (node : ℕ) : UInt32 :=
  genRead s.slotGen (asU32 (L.factor node)) (s.condInstancesToSpawn node)

/-- `fanout_bulk_increment`. -/
def fanoutBulkIncrement (s : LazySlot) (node count : ℕ) : ℕ × LazySlot :=
  let old := genRead s.slotGen 0 (s.fanoutBulkArrived node)
  (old.toNat + count,
    s.setFanout node (genPack s.slotGen (saturatingAdd old (asU32 count))))

/-- `NodeDepMap::decrease_and_get_ready_into` -/
def decrease (node : ℕ) (c : DepCall) (s : LazySlot) : List ℕ × LazySlot :=
  if node < L.numNodes then
    let (ready, cells) :=
      (s.deps node).decreaseAndGetReadyInto (L.entry node) s.slotGen c.group c.count c.specific
    (ready, s.setDeps node cells)
  else ([], s)

/-- `reset_sent` -/
def resetSent (node instanceIdx : ℕ) (s : LazySlot) : LazySlot :=
  if node < L.numNodes then
    s.setDeps node ((s.deps node).resetSentFlag (L.entry node) s.slotGen instanceIdx)
  else s

/-- `increment_dependency` -/
def increment (node : ℕ) (instanceIdx : Option ℕ) (s : LazySlot) : Option ℕ × LazySlot :=
  if node < L.numNodes then
    let (n, cells) := (s.deps node).incrementDependency (L.entry node) s.slotGen instanceIdx
    (some n, s.setDeps node cells)
  else (none, s)

/-- The spawn count of `dispatch_condition_successor`, lowered by one. -/
def spawnOne (s : LazySlot) (node : ℕ) : LazySlot :=
  s.setCond node (genPack s.slotGen (saturatingSub (s.remainingSpawns L node) 1))

/-- One access; the spawn words are only touched for successors with a condition. -/
def step (op : SlotOp) (s : LazySlot) : SlotOut × LazySlot :=
  match op with
  | .decrease node c =>
    let (ready, s') := s.decrease L node c
    (.ready ready, s')
  | .increment node instanceIdx =>
    let (n, s') := s.increment L node instanceIdx
    (n.elim .none .value, s')
  | .resetSent node instanceIdx => (.none, s.resetSent L node instanceIdx)
  | .condRemaining node =>
    if L.isCondition node then (.value (s.remainingSpawns L node).toNat, s) else (.none, s)
  | .condSpawn node =>
    if L.isCondition node then (.value (s.remainingSpawns L node).toNat, s.spawnOne L node)
    else (.none, s)
  | .fanoutArrive node count =>
    let (n, s') := s.fanoutBulkIncrement node count
    (.value n, s')
  | .bump => (.none, s.bumpSlotGeneration L)

end LazySlot

/-! ## Eager reset -/

@[ext] structure EagerSlot where
  deps : ℕ → EntryState
  condInstancesToSpawn : ℕ → ℕ
  fanoutBulkArrived : ℕ → ℕ

namespace EagerSlot

variable (L : SlotLayout)

/-- Every cell at its initial value. -/
def restored : EagerSlot where
  deps := fun node => EntryState.initial (L.entry node)
  condInstancesToSpawn := fun node => (L.condInit node).toNat
  fanoutBulkArrived := fun _ => 0

def setDeps (s : EagerSlot) (node : ℕ) (e : EntryState) : EagerSlot :=
  { s with deps := Function.update s.deps node e }

def setCond (s : EagerSlot) (node v : ℕ) : EagerSlot :=
  { s with condInstancesToSpawn := Function.update s.condInstancesToSpawn node v }

def setFanout (s : EagerSlot) (node v : ℕ) : EagerSlot :=
  { s with fanoutBulkArrived := Function.update s.fanoutBulkArrived node v }

def decrease (node : ℕ) (c : DepCall) (s : EagerSlot) : List ℕ × EagerSlot :=
  if node < L.numNodes then
    let (ready, e) := EntryState.call (L.entry node) c (s.deps node)
    (ready, s.setDeps node e)
  else ([], s)

def resetSent (node instanceIdx : ℕ) (s : EagerSlot) : EagerSlot :=
  if node < L.numNodes then
    s.setDeps node (EntryState.resetSent (L.entry node) instanceIdx (s.deps node))
  else s

def increment (node : ℕ) (instanceIdx : Option ℕ) (s : EagerSlot) : Option ℕ × EagerSlot :=
  if node < L.numNodes then
    let (n, e) := EntryState.increment (L.entry node) instanceIdx (s.deps node)
    (some n, s.setDeps node e)
  else (none, s)

/-- The accesses on plain values; a bump restores everything at once. -/
def step (op : SlotOp) (s : EagerSlot) : SlotOut × EagerSlot :=
  match op with
  | .decrease node c =>
    let (ready, s') := s.decrease L node c
    (.ready ready, s')
  | .increment node instanceIdx =>
    let (n, s') := s.increment L node instanceIdx
    (n.elim .none .value, s')
  | .resetSent node instanceIdx => (.none, s.resetSent L node instanceIdx)
  | .condRemaining node =>
    if L.isCondition node then (.value (s.condInstancesToSpawn node), s) else (.none, s)
  | .condSpawn node =>
    if L.isCondition node then
      (.value (s.condInstancesToSpawn node), s.setCond node (s.condInstancesToSpawn node - 1))
    else (.none, s)
  | .fanoutArrive node count =>
    (.value (s.fanoutBulkArrived node + count),
      s.setFanout node (min (s.fanoutBulkArrived node + count % 2 ^ 32) (2 ^ 32 - 1)))
  | .bump => (.none, restored L)

end EagerSlot

end Tomii
