import Tomii.Foundations.Interleaving
import Tomii.Runtime.Resolve

/-! # What threads share, one atomic step at a time

The counters of every slot, the scheduler queue and the batch queue, with each atomic access the
resolution code makes. A slot word is read and written under the generation its caller loaded,
which need not be the slot's any more. The ledger and the epochs record what has happened; no
program reads them. -/
namespace Tomii
set_option autoImplicit false
set_option maxHeartbeats 250000

/-! ## Words under a caller's generation -/

namespace LazySlot

variable (L : SlotLayout) (gen : UInt32) (node : ℕ) (s : LazySlot)

def fetchDecAt (g count : ℕ) : (ℕ × ℕ) × LazySlot :=
  let (counts, cells) := (EntryCells.packedOps (L.entry node) gen).fetchDec g count (s.deps node)
  (counts, s.setDeps node cells)

def trySendAt (idx : ℕ) : Bool × LazySlot :=
  let (fired, cells) := (EntryCells.packedOps (L.entry node) gen).trySend idx (s.deps node)
  (fired, s.setDeps node cells)

def incrementAt (idx : ℕ) : LazySlot :=
  s.setDeps node ((s.deps node).incrementDependency (L.entry node) gen (some idx)).2

def resetSentAt (idx : ℕ) : LazySlot :=
  s.setDeps node ((s.deps node).resetSentFlag (L.entry node) gen idx)

def fanoutBulkIncrementAt (count : ℕ) : ℕ × LazySlot :=
  let old := genRead gen 0 (s.fanoutBulkArrived node)
  (old.toNat + count, s.setFanout node (genPack gen (saturatingAdd old (asU32 count))))

def remainingSpawnsAt : UInt32 := genRead gen (asU32 (L.factor node)) (s.condInstancesToSpawn node)

def spawnOneAt : LazySlot :=
  s.setCond node (genPack gen (saturatingSub (s.remainingSpawnsAt L gen node) 1))

theorem fanoutBulkIncrementAt_slotGen (count : ℕ) :
    s.fanoutBulkIncrementAt s.slotGen node count = s.fanoutBulkIncrement node count := rfl

theorem spawnOneAt_slotGen : s.spawnOneAt L s.slotGen node = s.spawnOne L node := rfl

end LazySlot

/-! ## Instances and tasks -/

/-- An instance of a node in a slot. -/
structure Cell where
  slot : ℕ
  node : ℕ
  idx : ℕ
deriving DecidableEq

def NodeInfo.cells (ni : NodeInfo) : List Cell := ni.instances.map (Cell.mk ni.slot ni.id)

/-- A loaded generation. `epoch` counts the bumps of the slot and is only passed on. -/
structure Stamp where
  gen : UInt32
  epoch : ℕ
deriving DecidableEq

/-- A task with the epoch of its stamp. -/
structure Ticket where
  info : NodeInfo
  epoch : ℕ
deriving DecidableEq

namespace Ticket

variable (t : Ticket)

def slot : ℕ := t.info.slot

def cells : List Cell := t.info.cells

/-- `send_to_scheduler` stamps the task it submits. -/
def stamped (ni : NodeInfo) (st : Stamp) : Ticket := ⟨{ ni with gen := st.gen }, st.epoch⟩

end Ticket

/-- A condition of a node: the one of the node, or the one of an argument. -/
inductive CondPart where
  | node
  | arg (position : ℕ)
deriving DecidableEq

/-! ## Shared state -/

/-- A slot with its bits of `completed_slots` and `active_bitmap`. -/
structure Slot extends SlotState where
  completed : Bool
  active : Bool
  /-- Bumps so far. -/
  epoch : ℕ
  /-- Inside `reset_slot_state`, from the bump to the unmark. -/
  resetting : Bool

/-- What has happened to the instances of the frames now in the slots. -/
structure Ledger where
  released : List Cell
  executed : List Cell
  retired : List Cell
  discharged : List Cell
  arrived : List Cell
  fired : List (ℕ × ℕ)
  granted : List (Cell × CondPart)

structure Shared where
  slots : ℕ → Slot
  queue : List Ticket
  batchQueue : List Ticket
  ledger : Ledger

namespace Slot

variable (s : Slot)

def stamp : Stamp := ⟨s.cells.slotGen, s.epoch⟩

def setCells (cells : LazySlot) : Slot := { s with cells := cells }

end Slot

namespace Shared

variable (σ : Shared)

def setSlot (slot : ℕ) (s : Slot) : Shared := { σ with slots := Function.update σ.slots slot s }

def setLedger (ledger : Ledger) : Shared := { σ with ledger := ledger }

/-- The slot words replaced, nothing else. -/
def setCells (slot : ℕ) (cells : LazySlot) : Shared := σ.setSlot slot ((σ.slots slot).setCells cells)

end Shared

/-! ## Actions -/

/-- The counters of a slot that completion detection loads. -/
inductive Counter where
  | pendingTasks
  | pendingCondTasks
  | processingCount
deriving DecidableEq

/-- The atomic steps. Those on behalf of a task name it first. -/
inductive Act where
  | loadGeneration (slot : ℕ)
  | load (counter : Counter) (slot : ℕ)
  | enter (slot : ℕ)
  | leave (slot : ℕ)
  | retire (t : Ticket) (byWorker : Bool)
  | fetchDec (t : Ticket) (gen : UInt32) (node g count : ℕ)
  | trySend (t : Ticket) (gen : UInt32) (node idx : ℕ)
  | arriveFanout (t : Ticket) (gen : UInt32) (node : ℕ) (ready : List ℕ)
  | remainingSpawns (t : Ticket) (gen : UInt32) (node : ℕ)
  | evaluate (t : Ticket) (task : NodeInfo) (parts : List CondPart)
  | spawnOne (t : Ticket) (gen : UInt32) (node : ℕ)
  | discharge (t : Ticket) (task : NodeInfo)
  | incrementDependency (t : Ticket) (gen : UInt32) (task : NodeInfo)
  | resetSent (t : Ticket) (gen : UInt32) (task : NodeInfo)
  | enqueue (cause : Option Ticket) (task : Ticket)
  | reserve (t : Ticket) (task : Ticket)
  | resume (task : Ticket)
  | takeTask
  | takeBatch
  | submit (t : Ticket)
  | fetchArgs (t : Ticket) (idx : ℕ)
  | runKernel (t : Ticket) (idx : ℕ)
  | deliver (ni : NodeInfo)
  | setNeedsCheck (slot : ℕ) (b : Bool)
  | swapNeedsCheck (slot : ℕ)
  | tryCompleteSlot (slot : ℕ)
  | unmarkSlotCompleted (slot : ℕ)
  | bumpSlotGeneration (slot : ℕ) (reset : Bool)
  | storePendingTasks (slot : ℕ)
  | storePendingCondTasks (slot : ℕ)
  | activate (slot : ℕ)
  | release (slot : ℕ)
  | isActive (slot : ℕ)
deriving DecidableEq

@[reducible] def Act.Reply : Act → Type
  | .loadGeneration _ => Stamp
  | .load _ _ => UInt64
  | .fetchDec _ _ _ _ _ => ℕ × ℕ
  | .trySend _ _ _ _ => Bool
  | .arriveFanout _ _ _ _ => ℕ
  | .remainingSpawns _ _ _ => UInt32
  | .evaluate _ _ _ => Bool
  | .takeTask => Option Ticket
  | .takeBatch => Option Ticket
  | .fetchArgs _ _ => Bool
  | .deliver _ => Ticket
  | .swapNeedsCheck _ => Bool
  | .tryCompleteSlot _ => Bool
  | .activate _ => Bool
  | .isActive _ => Bool
  | _ => Unit

/-- The atomic steps of the runtime's threads. -/
@[reducible] def atomics : Interface := ⟨Act, Act.Reply⟩

abbrev Thread (α : Type) : Type := Prog atomics α

def atomic (a : Act) : Thread a.Reply := .act a .done

/-! ## What each action does -/

namespace Compiled

variable (c : Compiled)

/-- `total_tasks` and `total_cond_tasks`: the factors of the nodes with and without a condition. -/
def totalOf (cond : Bool) : ℕ :=
  (((List.range c.graph.nodes.length).filter fun n => c.isCondition n = cond).map c.factor).sum

/-- The instances that a counter call publishes by itself, without sent flags. -/
def publishedBy (node g : ℕ) (counts : ℕ × ℕ) : List ℕ :=
  if (c.entry node).hasBarrier ∧ (c.entry node).isCondition = false ∧ 0 < counts.1 ∧ counts.2 = 0 then
    (c.entry node).groupRange g
  else []

end Compiled

namespace Ledger

variable (ledger : Ledger)

def release (cells : List Cell) : Ledger := { ledger with released := cells ++ ledger.released }

/-- The frame of a slot is over for the instances that `p` selects. -/
def clear (p : Cell → Bool) : Ledger :=
  { ledger with
    released := ledger.released.filter (!p ·)
    executed := ledger.executed.filter (!p ·)
    retired := ledger.retired.filter (!p ·)
    discharged := ledger.discharged.filter (!p ·)
    granted := ledger.granted.filter (!p ·.1) }

/-- Fanout-bulk arrivals start over with the generation. -/
def clearArrivals (slot : ℕ) : Ledger :=
  { ledger with
    arrived := ledger.arrived.filter (·.slot ≠ slot)
    fired := ledger.fired.filter (·.1 ≠ slot) }

/-- Arrivals wait until the last one, which dispatches them all. -/
def arrive (slot node : ℕ) (ready : List ℕ) (fires : Bool) : Ledger :=
  if fires then
    { ledger with
      arrived := ledger.arrived.filter fun x => ¬ (x.slot = slot ∧ x.node = node)
      fired := (slot, node) :: ledger.fired }
  else { ledger with arrived := ready.map (Cell.mk slot node) ++ ledger.arrived }

end Ledger

/-- Take the element at `i`, if there is one. -/
def takeAt (i : ℕ) (ts : List Ticket) : Option Ticket × List Ticket := (ts[i]?, ts.eraseIdx i)

namespace Slot

variable (s : Slot)

def load : Counter → UInt64
  | .pendingTasks => s.pendingTasks
  | .pendingCondTasks => s.pendingCondTasks
  | .processingCount => s.processingCount

/-- `fetch_sub` on the counter of the regular or of the condition tasks. -/
def lowerPending (cond : Bool) (n : ℕ) : Slot :=
  if cond then { s with pendingCondTasks := s.pendingCondTasks - UInt64.ofNat n }
  else { s with pendingTasks := s.pendingTasks - UInt64.ofNat n }

def bump (L : SlotLayout) (reset : Bool) : Slot :=
  { s with
    cells := s.cells.bumpSlotGeneration L
    epoch := s.epoch + 1
    resetting := s.resetting || reset }

end Slot

namespace Shared

variable (c : Compiled) (σ : Shared)

/-- Replace the words of a slot and answer with what the access returns. -/
def onCells {R : Type} (slot : ℕ) (f : LazySlot → R × LazySlot) : R × Shared :=
  let (r, cells) := f (σ.slots slot).cells
  (r, σ.setCells slot cells)

def retireTask (t : Ticket) : Shared :=
  (σ.setSlot t.slot ((σ.slots t.slot).lowerPending (c.isCondition t.info.id) t.info.bulkCount)).setLedger
    { σ.ledger with retired := t.cells ++ σ.ledger.retired }

def fetchDec (slot : ℕ) (gen : UInt32) (node g count : ℕ) : (ℕ × ℕ) × Shared :=
  let (counts, σ) := σ.onCells slot (LazySlot.fetchDecAt c.layout gen node · g count)
  (counts, σ.setLedger (σ.ledger.release ((c.publishedBy node g counts).map (Cell.mk slot node))))

def trySend (slot : ℕ) (gen : UInt32) (node idx : ℕ) : Bool × Shared :=
  let (fired, σ) := σ.onCells slot (LazySlot.trySendAt c.layout gen node · idx)
  (fired, σ.setLedger (if fired then σ.ledger.release [⟨slot, node, idx⟩] else σ.ledger))

def arriveFanout (slot : ℕ) (gen : UInt32) (node : ℕ) (ready : List ℕ) : ℕ × Shared :=
  let (arrived, σ) := σ.onCells slot (LazySlot.fanoutBulkIncrementAt gen node · ready.length)
  (arrived,
    σ.setLedger (σ.ledger.arrive slot node ready ((asU32 (c.factor node)).toNat ≤ arrived)))

def discharge (task : NodeInfo) : Shared :=
  (σ.setSlot task.slot ((σ.slots task.slot).lowerPending true 1)).setLedger
    { σ.ledger with
      retired := task.cells ++ σ.ledger.retired
      discharged := task.cells ++ σ.ledger.discharged }

/-- A packet enters its slot; it needs no kernel. -/
def deliver (ni : NodeInfo) : Ticket × Shared :=
  (⟨ni, (σ.slots ni.slot).epoch⟩,
    σ.setLedger { σ.ledger.release ni.cells with executed := ni.cells ++ σ.ledger.executed })

/-- Initial tasks are released by nobody's completion. -/
def enqueue (cause : Option Ticket) (task : Ticket) : Shared :=
  { σ with
    queue := task :: σ.queue
    ledger := if cause.isNone then σ.ledger.release task.cells else σ.ledger }

def bumpSlotGeneration (slot : ℕ) (reset : Bool) : Shared :=
  (σ.setSlot slot ((σ.slots slot).bump c.layout reset)).setLedger (σ.ledger.clearArrivals slot)

/-- The store of a counter in `reset_slot_state`. -/
def storePending (slot : ℕ) (cond : Bool) : Shared :=
  let s := σ.slots slot
  let total := UInt64.ofNat (c.totalOf cond)
  (σ.setSlot slot (if cond then { s with pendingCondTasks := total }
    else { s with pendingTasks := total })).setLedger
      (σ.ledger.clear fun x => x.slot = slot ∧ c.isCondition x.node = cond)

/-- `choice` picks a queued task, says what a condition evaluates to, and whether a wait for
arguments is cut short, which takes another generation. -/
def perform (choice : ℕ) : (a : Act) → Shared → a.Reply × Shared
  | .loadGeneration slot, σ => ((σ.slots slot).stamp, σ)
  | .load counter slot, σ => ((σ.slots slot).load counter, σ)
  | .enter slot, σ =>
    let s := σ.slots slot
    ((), σ.setSlot slot { s with processingCount := s.processingCount + 1 })
  | .leave slot, σ =>
    let s := σ.slots slot
    ((), σ.setSlot slot { s with processingCount := s.processingCount - 1 })
  | .retire t _, σ => ((), σ.retireTask c t)
  | .fetchDec t gen node g count, σ => σ.fetchDec c t.slot gen node g count
  | .trySend t gen node idx, σ => σ.trySend c t.slot gen node idx
  | .arriveFanout t gen node ready, σ => σ.arriveFanout c t.slot gen node ready
  | .remainingSpawns t gen node, σ =>
    ((σ.slots t.slot).cells.remainingSpawnsAt c.layout gen node, σ)
  | .evaluate _ task parts, σ =>
    let passed := parts = [] ∨ choice = 1
    (passed, σ.setLedger { σ.ledger with
      granted := if passed then (task.cells.flatMap fun x => parts.map (x, ·)) ++ σ.ledger.granted
        else σ.ledger.granted })
  | .spawnOne t gen node, σ =>
    ((), σ.setCells t.slot ((σ.slots t.slot).cells.spawnOneAt c.layout gen node))
  | .discharge _ task, σ => ((), σ.discharge task)
  | .incrementDependency t gen task, σ =>
    ((), σ.setCells t.slot ((σ.slots t.slot).cells.incrementAt c.layout gen task.id task.index))
  | .resetSent t gen task, σ =>
    ((), σ.setCells t.slot ((σ.slots t.slot).cells.resetSentAt c.layout gen task.id task.index))
  | .enqueue cause task, σ => ((), σ.enqueue cause task)
  | .reserve _ _, σ => ((), σ)
  | .resume task, σ => ((), { σ with queue := task :: σ.queue })
  | .takeTask, σ =>
    let (t, rest) := takeAt choice σ.queue
    (t, { σ with queue := rest })
  | .takeBatch, σ =>
    let (t, rest) := takeAt choice σ.batchQueue
    (t, { σ with batchQueue := rest })
  | .submit t, σ => ((), { σ with batchQueue := t :: σ.batchQueue })
  | .fetchArgs t _, σ => (choice = 1 ∧ (σ.slots t.slot).cells.slotGen ≠ t.info.gen, σ)
  | .runKernel t idx, σ =>
    ((), σ.setLedger { σ.ledger with executed := ⟨t.slot, t.info.id, idx⟩ :: σ.ledger.executed })
  | .deliver ni, σ => σ.deliver ni
  | .setNeedsCheck slot b, σ => ((), σ.setSlot slot { σ.slots slot with needsCheck := b })
  | .swapNeedsCheck slot, σ =>
    ((σ.slots slot).needsCheck, σ.setSlot slot { σ.slots slot with needsCheck := false })
  | .tryCompleteSlot slot, σ =>
    (!(σ.slots slot).completed, σ.setSlot slot { σ.slots slot with completed := true })
  | .unmarkSlotCompleted slot, σ =>
    ((), σ.setSlot slot { σ.slots slot with completed := false, resetting := false })
  | .bumpSlotGeneration slot reset, σ => ((), σ.bumpSlotGeneration c slot reset)
  | .storePendingTasks slot, σ => ((), σ.storePending c slot false)
  | .storePendingCondTasks slot, σ => ((), σ.storePending c slot true)
  | .activate slot, σ =>
    (!(σ.slots slot).active, σ.setSlot slot { σ.slots slot with active := true })
  | .release slot, σ => ((), σ.setSlot slot { σ.slots slot with active := false })
  | .isActive slot, σ => ((σ.slots slot).active, σ)

end Shared

end Tomii
