import Tomii.Runtime.ThreadPrograms
import Mathlib.Algebra.Order.Group.Multiset
import Mathlib.Data.Multiset.Bind

/-! # Where a thread is, and what holds between steps

A phase is what a thread holds between two of its steps: tasks in hand, instances it released and
has not dispatched, `processing_count` brackets, a claim on a slot's completion.
`resolutionDiscipline` says which steps a phase permits. `Inv` ties the phases of all threads to
the shared state. -/
namespace Tomii
set_option autoImplicit false
set_option maxHeartbeats 250000

/-! ## Parts without a choice -/

/-- Which counters of a slot were seen at zero, in the order of the loads. -/
inductive Look where
  | fresh
  | empty
  | drained
  | quiet
deriving DecidableEq

namespace Look

/-- The counter to load next. -/
def counter : Look → Option Counter
  | .fresh => some .pendingTasks
  | .empty => some .pendingCondTasks
  | .drained => some .processingCount
  | .quiet => none

def after : Look → Look
  | .fresh => .empty
  | .empty => .drained
  | _ => .quiet

end Look

/-- How far `reset_slot_state` has come. -/
inductive Stage where
  | bumped
  | stored
  | restored
  | lowered
deriving DecidableEq

/-- Where the next step of a thread is settled: between the decrement of `processing_count` and the
store of `needs_check`, and from the consumed flag to the end of the reset. -/
inductive Focus where
  | free
  | due (slot : ℕ)
  | check (slot : ℕ) (look : Look)
  | claim (slot : ℕ) (look : Look)
  | stale (slot : ℕ)
  | reset (slot : ℕ) (stage : Stage)
deriving DecidableEq

namespace Focus

/-- The slot whose completion bit the thread has set. -/
def marked : Focus → Option ℕ
  | .claim slot _ => some slot
  | .stale slot => some slot
  | .reset slot _ => some slot
  | _ => none

/-- A counter was loaded. -/
def seen (zero : Bool) : Focus → Focus
  | .check slot look => if zero then .check slot look.after else .free
  | .claim slot look => if zero then .claim slot look.after else .stale slot
  | f => f

/-- `needs_check` was stored. -/
def stored : Focus → Focus
  | .due _ => .free
  | .reset slot .restored => .reset slot .lowered
  | f => f

end Focus

/-- A task in hand comes with the number of its instances that have run. -/
@[ext] structure Phase where
  hand : Multiset (Ticket × ℕ)
  ready : Multiset Cell
  outgoing : Multiset Cell
  inside : Multiset ℕ
  /-- Retired tasks inside whose brackets the thread is. -/
  served : List Ticket
  stamp : Option (ℕ × Stamp)
  passed : List Cell
  focus : Focus

namespace Compiled

variable (c : Compiled) (cfg : Config)

/-- Ready instances of `node` go through the fanout-bulk counter. -/
def fans (node : ℕ) : Bool :=
  c.isFanoutBulk node && !cfg.noFanoutBulk && (!cfg.inlineContinuation || cfg.workers = 1)

def allCells (slot node : ℕ) : List Cell := (List.range (c.factor node)).map (Cell.mk slot node)

/-- The conditions a node carries. -/
def ownParts (id : ℕ) : List CondPart :=
  (if c.nodeCondition id then [.node] else []) ++
    (c.nodeAt id).args.zipIdx.filterMap fun p => if p.1.isCondition then some (.arg p.2) else none

def isNetworkNode (id : ℕ) : Bool := (c.nodeAt id).isNetwork

end Compiled

/-! ## Phases -/

namespace Phase

def idle : Phase := ⟨0, 0, 0, 0, [], none, [], .free⟩

variable (c : Compiled) (cfg : Config) (guarded : Prop) (l : Phase)

/-- Instances released to the thread or taken by it, and not retired. -/
def live : Multiset Cell :=
  l.ready + l.outgoing + l.hand.bind fun p => (p.1.cells : Multiset Cell)

/-- Those among them that have run. -/
def ran : Multiset Cell := l.hand.bind fun p => (p.1.cells.take p.2 : Multiset Cell)

def addReady (slot node : ℕ) (instances : List ℕ) : Phase :=
  { l with ready := l.ready + (instances.map (Cell.mk slot node) : Multiset Cell) }

/-- The thread walks the successors of `t` under the generation it loaded. -/
def Serves (t : Ticket) (gen : UInt32) : Prop :=
  t ∈ l.served ∧ ∃ epoch, l.stamp = some (t.slot, ⟨gen, epoch⟩)

/-- The instances that a dispatch of `node` takes from. -/
def pool (node : ℕ) : Multiset Cell := if c.fans cfg node then l.outgoing else l.ready

def spend (task : NodeInfo) : Phase :=
  if c.fans cfg task.id then { l with outgoing := l.outgoing - (task.cells : Multiset Cell) }
  else { l with ready := l.ready - (task.cells : Multiset Cell) }

/-- The thread holds the instances of `task`, under the current stamp of its slot. -/
structure Owes (task : Ticket) : Prop where
  nonempty : 1 ≤ task.info.bulkCount
  compute : c.isNetworkNode task.info.id = false
  stamp : l.stamp = some (task.slot, ⟨task.info.gen, task.epoch⟩)
  held : (task.cells : Multiset Cell) ≤ l.pool c cfg task.info.id
  passed : guarded → c.isCondition task.info.id = true → ∀ x ∈ task.cells, x ∈ l.passed

/-! ## The discipline -/

/-- What a thread may do where its next step is not settled. -/
def works : Act → Prop
  | .enter slot => slot ∉ l.inside ∧ ∃ p ∈ l.hand, p.1.slot = slot
  | .leave slot => slot ∈ l.inside
  | .retire t _ => (t, t.info.bulkCount) ∈ l.hand ∧ t.slot ∈ l.inside
  | .fetchDec t gen node _ _ => l.Serves t gen ∧ node ∈ c.graph.successors t.info.id
  | .trySend t gen node idx => l.Serves t gen ∧ node ∈ c.graph.successors t.info.id ∧
      idx < c.factor node ∧ ((c.entry node).hasBarrier = true → (c.entry node).isCondition = true)
  | .arriveFanout t gen node ready => l.Serves t gen ∧ node ∈ c.graph.successors t.info.id ∧
      c.fans cfg node = true ∧ ready ≠ [] ∧
        (ready.map (Cell.mk t.slot node) : Multiset Cell) ≤ l.ready
  | .evaluate t task _ => t ∈ l.served ∧ task.slot = t.slot
  | .spawnOne t gen _ => l.Serves t gen
  | .discharge t task => t ∈ l.served ∧ task.slot = t.slot ∧ task.bulkCount = 1 ∧
      c.isCondition task.id = true ∧ (task.cells : Multiset Cell) ≤ l.ready
  | .incrementDependency t gen task => l.Serves t gen ∧ task.slot = t.slot ∧
      c.isCondition task.id = true
  | .resetSent t gen task => l.Serves t gen ∧ task.slot = t.slot ∧ c.isCondition task.id = true
  | .enqueue (some t) task => t ∈ l.served ∧ task.slot = t.slot ∧ l.Owes c cfg guarded task
  | .enqueue none task => task.info.id ∈ c.graph.initialNodes ∧ 1 ≤ task.info.bulkCount ∧
      ∀ x ∈ task.cells, x.idx < c.factor x.node
  | .reserve t task => t ∈ l.served ∧ task.slot = t.slot ∧ l.Owes c cfg guarded task
  | .resume task => (task, 0) ∈ l.hand ∧ task.slot ∉ l.inside ∧
      c.isNetworkNode task.info.id = false
  | .submit t => (t, t.info.bulkCount) ∈ l.hand ∧ t.slot ∉ l.inside ∧
      c.isNetworkNode t.info.id = false
  | .runKernel t idx => t.info.index ≤ idx ∧ idx < t.info.index + t.info.bulkCount ∧
      (t, idx - t.info.index) ∈ l.hand
  | .deliver ni => 1 ≤ ni.bulkCount
  | .setNeedsCheck _ b => b = true
  | .bumpSlotGeneration _ reset => reset = false
  | .tryCompleteSlot _ => False
  | .unmarkSlotCompleted _ => False
  | .storePendingTasks _ => False
  | .storePendingCondTasks _ => False
  | _ => True

def permits (a : Act) : Prop :=
  match l.focus with
  | .free => l.works c cfg guarded a
  | .due slot => a = .setNeedsCheck slot true
  | .check slot look => a = look.counter.elim (.tryCompleteSlot slot) (.load · slot)
  | .claim slot look => a = look.counter.elim (.bumpSlotGeneration slot true) (.load · slot)
  | .stale slot => a = .unmarkSlotCompleted slot ∨ ∃ counter, a = .load counter slot
  | .reset slot .bumped => a = .storePendingTasks slot
  | .reset slot .stored => a = .storePendingCondTasks slot
  | .reset slot .restored => a = .setNeedsCheck slot false
  | .reset slot .lowered => a = .unmarkSlotCompleted slot

/-- A task in hand is of the current generation, so no check of the thread ever fails. -/
def knows : (a : Act) → a.Reply → Prop
  | .loadGeneration slot, st => ∀ p ∈ l.hand, p.1.slot = slot →
      c.isNetworkNode p.1.info.id = false → st.gen = p.1.info.gen
  | .retire t byWorker, _ => guarded → byWorker = true →
      ∀ e ∈ c.edgesFor t.info.id, e.hasCondition = false
  | .evaluate _ task parts, _ => guarded → c.ownParts task.id ⊆ parts
  | .takeTask, t => ∀ u, t = some u → 1 ≤ u.info.bulkCount ∧ c.isNetworkNode u.info.id = false
  | .takeBatch, t => ∀ u, t = some u → c.isNetworkNode u.info.id = false
  | .fetchArgs t _, stale => (∃ k, (t, k) ∈ l.hand) → c.isNetworkNode t.info.id = false →
      stale = false
  | .deliver ni, t => t.info = ni
  | _, _ => True

def next : (a : Act) → a.Reply → Phase
  | .loadGeneration slot, st => if slot ∈ l.inside then { l with stamp := some (slot, st) } else l
  | .load _ _, n => { l with focus := l.focus.seen (n = 0) }
  | .enter slot, _ => { l with inside := slot ::ₘ l.inside }
  | .leave slot, _ => { l with
      inside := l.inside.erase slot
      served := l.served.filter (·.slot ≠ slot)
      stamp := none
      passed := l.passed.filter (·.slot ≠ slot)
      focus := .due slot }
  | .retire t _, _ => { l with
      hand := l.hand.erase (t, t.info.bulkCount)
      served := t :: l.served }
  | .fetchDec t _ node g _, counts => l.addReady t.slot node (c.publishedBy node g counts)
  | .trySend t _ node idx, fired => if fired then l.addReady t.slot node [idx] else l
  | .arriveFanout t _ node ready, arrived => { l with
      ready := l.ready - (ready.map (Cell.mk t.slot node) : Multiset Cell)
      outgoing := if (asU32 (c.factor node)).toNat ≤ arrived
        then l.outgoing + (c.allCells t.slot node : Multiset Cell) else l.outgoing }
  | .evaluate _ task parts, passed =>
    if passed = true ∧ c.ownParts task.id ⊆ parts then
      { l with passed := task.cells ++ l.passed }
    else l
  | .discharge _ task, _ => { l with ready := l.ready - (task.cells : Multiset Cell) }
  | .enqueue cause task, _ => if cause.isSome then l.spend c cfg task.info else l
  | .reserve _ task, _ => { l.spend c cfg task.info with hand := (task, 0) ::ₘ l.hand }
  | .resume task, _ => { l with hand := l.hand.erase (task, 0) }
  | .takeTask, t => match t with
    | some u => { l with hand := (u, 0) ::ₘ l.hand }
    | none => l
  | .takeBatch, t => match t with
    | some u => { l with hand := (u, u.info.bulkCount) ::ₘ l.hand }
    | none => l
  | .submit t, _ => { l with hand := l.hand.erase (t, t.info.bulkCount) }
  | .runKernel t idx, _ => { l with
      hand := (t, idx - t.info.index + 1) ::ₘ l.hand.erase (t, idx - t.info.index) }
  | .deliver _, t => { l with hand := (t, t.info.bulkCount) ::ₘ l.hand }
  | .setNeedsCheck _ _, _ => { l with focus := l.focus.stored }
  | .swapNeedsCheck slot, dirty => if dirty then { l with focus := .check slot .fresh } else l
  | .tryCompleteSlot slot, won => { l with focus := if won then .claim slot .fresh else .free }
  | .unmarkSlotCompleted _, _ => { l with focus := .free }
  | .bumpSlotGeneration slot reset, _ =>
    if reset then { l with focus := .reset slot .bumped } else l
  | .storePendingTasks slot, _ => { l with focus := .reset slot .stored }
  | .storePendingCondTasks slot, _ => { l with focus := .reset slot .restored }
  | _, _ => l

end Phase

/-- What the resolution code keeps to. With `guarded` it also keeps condition nodes out of
every dispatch that has not evaluated their conditions. -/
def resolutionDiscipline (c : Compiled) (cfg : Config) (guarded : Prop) :
    Discipline atomics Phase where
  fails := fun l => l.focus = .free
  permits := Phase.permits c cfg guarded
  knows := Phase.knows c guarded
  next := Phase.next c cfg

/-! ## Orderly steps -/

section Orderly

variable (c : Compiled) (σ : Shared)

/-- A frame's own instances enter its slot once in a generation, outside a reset and under the
current stamp; the bump of an activation comes before any of them. -/
def SourcesOnce : Act → Prop
  | .enqueue none task => (σ.slots task.slot).resetting = false ∧
      (σ.slots task.slot).stamp = ⟨task.info.gen, task.epoch⟩ ∧
        ∀ x ∈ task.cells, x ∉ σ.ledger.released
  | .deliver ni => (σ.slots ni.slot).resetting = false ∧ c.isNetworkNode ni.id = true ∧
      ∀ x ∈ ni.cells, x.idx < c.factor x.node ∧ x ∉ σ.ledger.released
  | .bumpSlotGeneration slot false => ∀ x ∈ σ.ledger.released, x.slot ≠ slot
  | _ => True

/-- No instance of a condition node is released a second time, as it could be after a failed
condition reopened it. -/
def ConditionsOnce : Act → Prop
  | .fetchDec t gen node g count => c.isCondition node = true →
      ∀ i ∈ c.publishedBy node g (σ.fetchDec c t.slot gen node g count).1,
        ⟨t.slot, node, i⟩ ∉ σ.ledger.released
  | .trySend t gen node idx => c.isCondition node = true →
      (σ.trySend c t.slot gen node idx).1 = true → ⟨t.slot, node, idx⟩ ∉ σ.ledger.released
  | _ => True

/-- Condition nodes are dispatched by the batch path alone, which evaluates all their conditions:
no source is one, and no task that a worker resolves has one among its successors. -/
def ConditionsOnBatchPath : Act → Prop
  | .enqueue none task => c.isCondition task.info.id = false
  | .retire t true => ∀ e ∈ c.edgesFor t.info.id, e.hasCondition = false
  | .evaluate _ task parts => c.ownParts task.id ⊆ parts
  | .deliver ni => c.isCondition ni.id = false
  | _ => True

/-- A slot is marked complete only while its counters are at zero. -/
def MarkedAtZero : Act → Prop
  | .tryCompleteSlot slot => (σ.slots slot).completed = false →
      ∀ counter, (σ.slots slot).load counter = 0
  | _ => True

end Orderly

def Orderly (c : Compiled) (guarded clean : Prop) (σ : Shared) (_choice : ℕ) (a : Act) : Prop :=
  SourcesOnce c σ a ∧ ConditionsOnce c σ a ∧ (guarded → ConditionsOnBatchPath c a) ∧
    (clean → MarkedAtZero σ a)

section Decisions

variable (c : Compiled) (σ : Shared)

instance : (a : Act) → Decidable (SourcesOnce c σ a) := by
  intro a
  cases a with
  | enqueue cause task =>
    cases cause with
    | none => exact inferInstanceAs (Decidable (_ ∧ _ ∧ _))
    | some t => exact .isTrue trivial
  | deliver ni => exact inferInstanceAs (Decidable (_ ∧ _ ∧ _))
  | bumpSlotGeneration slot reset =>
    cases reset with
    | false => exact inferInstanceAs (Decidable (∀ x ∈ _, _))
    | true => exact .isTrue trivial
  | _ => exact .isTrue trivial

instance : (a : Act) → Decidable (ConditionsOnce c σ a) := by
  intro a
  cases a with
  | fetchDec t gen node g count => exact inferInstanceAs (Decidable (_ → ∀ i ∈ _, _))
  | trySend t gen node idx => exact inferInstanceAs (Decidable (_ → _ → _))
  | _ => exact .isTrue trivial

instance : (a : Act) → Decidable (ConditionsOnBatchPath c a) := by
  intro a
  cases a with
  | enqueue cause task =>
    cases cause with
    | none => exact inferInstanceAs (Decidable (_ = _))
    | some t => exact .isTrue trivial
  | retire t byWorker =>
    cases byWorker with
    | false => exact .isTrue trivial
    | true => exact inferInstanceAs (Decidable (∀ e ∈ _, _))
  | evaluate t task parts => exact inferInstanceAs (Decidable (∀ part ∈ _, part ∈ _))
  | deliver ni => exact inferInstanceAs (Decidable (_ = _))
  | _ => exact .isTrue trivial

instance : (a : Act) → Decidable (MarkedAtZero σ a) := by
  intro a
  cases a with
  | tryCompleteSlot slot =>
    refine @decidable_of_iff _ ((σ.slots slot).completed = false →
      ∀ counter ∈ [Counter.pendingTasks, .pendingCondTasks, .processingCount],
        (σ.slots slot).load counter = 0) ?_ inferInstance
    refine imp_congr_right fun _ => ⟨fun h counter => h counter ?_, fun h counter _ => h counter⟩
    cases counter <;> decide
  | _ => exact .isTrue trivial

instance (guarded clean : Prop) [Decidable guarded] [Decidable clean] (choice : ℕ) (a : Act) :
    Decidable (Orderly c guarded clean σ choice a) :=
  inferInstanceAs (Decidable (_ ∧ _ ∧ (_ → _) ∧ (_ → _)))

end Decisions

/-- What the invariant takes from the graph. -/
structure Runnable (c : Compiled) : Prop where
  successors : ∀ {p s}, s ∈ c.graph.successors p →
    s < c.graph.nodes.length ∧ (c.nodeAt s).predIds ≠ []
  initial : ∀ {n}, n ∈ c.graph.initialNodes →
    n < c.graph.nodes.length ∧ (c.nodeAt n).predIds = [] ∧ c.isNetworkNode n = false
  network : ∀ {n}, c.isNetworkNode n = true → n < c.graph.nodes.length ∧ (c.nodeAt n).predIds = []
  conditions : ∀ {n}, (c.nodeAt n).condition = true → c.isNetworkNode n = false →
    c.isCondition n = true
  fanout : ∀ {n}, c.isFanoutBulk n = true → c.factor n < 2 ^ 32
  totals : ∀ cond, c.totalOf cond < 2 ^ 64

/-! ## The invariant -/

/-- Sum over the threads. -/
def total {M : Type} [AddCommMonoid M] (f : Phase → M) (ls : List Phase) : M := (ls.map f).sum

section Invariant

variable (c : Compiled) (cfg : Config) (guarded clean : Prop) (σ : Shared) (ls : List Phase)
  (l : Phase)

def queuedCells (ts : List Ticket) : Multiset Cell := (ts.flatMap Ticket.cells : List Cell)

/-- The instances that are released and not retired, where they are. -/
def outstanding : Multiset Cell :=
  total Phase.live ls + σ.ledger.arrived + queuedCells σ.queue + queuedCells σ.batchQueue

/-- Every released instance is in one place, and is retired once it has run. -/
structure Accounts : Prop where
  placed : outstanding σ ls + σ.ledger.retired = (σ.ledger.released : Multiset Cell)
  nodup : σ.ledger.released.Nodup
  bounded : ∀ x ∈ σ.ledger.released, x.node < c.graph.nodes.length ∧ x.idx < c.factor x.node
  run : total Phase.ran ls + queuedCells σ.batchQueue + σ.ledger.retired =
    (σ.ledger.executed : Multiset Cell) + σ.ledger.discharged

/-- A task of the current generation. -/
structure Ticket.Current (t : Ticket) : Prop where
  nonempty : 1 ≤ t.info.bulkCount
  epoch : t.epoch = (σ.slots t.slot).epoch
  gen : c.isNetworkNode t.info.id = false → t.info.gen = (σ.slots t.slot).cells.slotGen

/-- The tasks of one thread, and the slots whose brackets it is inside. -/
structure PhaseTickets : Prop where
  hand : ∀ p ∈ l.hand, p.1.Current c σ
  served : ∀ t ∈ l.served, t.slot ∈ l.inside ∧ t.epoch = (σ.slots t.slot).epoch ∧
    1 ≤ t.info.bulkCount ∧ ∀ x ∈ t.cells, x ∈ σ.ledger.retired
  inside : ∀ slot ∈ l.inside, (∃ p ∈ l.hand, p.1.slot = slot) ∨ ∃ t ∈ l.served, t.slot = slot
  once : l.inside.Nodup
  stamp : ∀ slot st, l.stamp = some (slot, st) → slot ∈ l.inside ∧ st = (σ.slots slot).stamp

structure Tickets : Prop where
  queue : ∀ t ∈ σ.queue, t.Current c σ ∧ c.isNetworkNode t.info.id = false
  batchQueue : ∀ t ∈ σ.batchQueue, t.Current c σ ∧ c.isNetworkNode t.info.id = false
  phases : ∀ l ∈ ls, PhaseTickets c σ l

/-- `processing_count` counts the threads inside. -/
structure Brackets : Prop where
  count : ∀ slot, (σ.slots slot).processingCount =
    UInt64.ofNat (total (fun l => l.inside.count slot) ls)
  threads : ls.length < 2 ^ 64

def retiredOf (slot : ℕ) (cond : Bool) : List Cell :=
  σ.ledger.retired.filter fun x => x.slot = slot ∧ c.isCondition x.node = cond

/-- The pending counters count what is not retired. -/
def Counters : Prop :=
  ∀ slot cond, (σ.slots slot).load (if cond then .pendingCondTasks else .pendingTasks) =
    UInt64.ofNat (c.totalOf cond) - UInt64.ofNat (retiredOf c σ slot cond).length

/-- The entry of a node as its words read now. -/
def Shared.entryAt (slot node : ℕ) : EntryState :=
  ((σ.slots slot).cells.deps node).view (c.entry node) (σ.slots slot).cells.slotGen

/-- The fanout-bulk counter of a node as it reads now. -/
def Shared.fanoutAt (slot node : ℕ) : ℕ :=
  (genRead (σ.slots slot).cells.slotGen 0 ((σ.slots slot).cells.fanoutBulkArrived node)).toNat

/-- A released instance cannot be released again: its barrier is down, or its flag is set. -/
def Locked (x : Cell) : Prop :=
  if (c.entry x.node).hasBarrier then
    ∀ g, x.idx ∈ (c.entry x.node).groupRange g → (σ.entryAt c x.slot x.node).remaining g = 0
  else (σ.entryAt c x.slot x.node).sent x.idx = true

/-- Arrivals on record at the fanout-bulk counter of a node. -/
def arrivedAt (slot node : ℕ) : List Cell :=
  σ.ledger.arrived.filter fun x => x.slot = slot ∧ x.node = node

/-- Instances that fanout-bulk has dispatched, wherever they are. -/
def late : Multiset Cell :=
  total (fun l => l.outgoing + l.hand.bind fun p => (p.1.cells : Multiset Cell)) ls +
    queuedCells σ.queue + queuedCells σ.batchQueue + σ.ledger.retired

structure Words : Prop where
  tags : ∀ slot, (σ.slots slot).cells.InEpoch
  locked : ∀ x ∈ σ.ledger.released, (σ.slots x.slot).resetting = false →
    c.isCondition x.node = false → (c.nodeAt x.node).predIds ≠ [] → Locked c σ x
  waiting : ∀ slot node, c.fans cfg node = true → (slot, node) ∉ σ.ledger.fired →
    σ.fanoutAt slot node ≤ (arrivedAt σ slot node).length
  fired : ∀ slot node, (slot, node) ∈ σ.ledger.fired → ∀ x ∈ c.allCells slot node, x ∈ late σ ls

/-- All instances of the slot's frame are retired. -/
def AllRetired (slot : ℕ) (cond : Bool) : Prop :=
  ∀ n < c.graph.nodes.length, c.isCondition n = cond → ∀ j < c.factor n,
    ⟨slot, n, j⟩ ∈ σ.ledger.retired

def NoneInside (slot : ℕ) : Prop := ∀ l ∈ ls, slot ∉ l.inside

/-- What the loads of a marked slot have established. -/
def LookOk (slot : ℕ) : Look → Prop
  | .fresh => True
  | .empty => AllRetired c σ slot false
  | .drained => AllRetired c σ slot false ∧ AllRetired c σ slot true
  | .quiet => AllRetired c σ slot false ∧ AllRetired c σ slot true ∧ NoneInside ls slot

/-- The instances that the ledger still has at a stage of the reset. -/
def Stage.keeps (stage : Stage) (node : ℕ) : Prop :=
  match stage with
  | .bumped => True
  | .stored => c.isCondition node = true
  | _ => False

/-- A slot inside its reset. -/
structure ResetOk (slot : ℕ) (stage : Stage) : Prop where
  none : NoneInside ls slot
  settled : ∀ x ∈ σ.ledger.released, x.slot = slot → x ∈ σ.ledger.retired
  kept : ∀ x ∈ σ.ledger.released, x.slot = slot → stage.keeps c x.node
  flag : (σ.slots slot).resetting = true
  fired : ∀ n, (slot, n) ∉ σ.ledger.fired

/-- What one thread's claim rests on. -/
structure PhaseClaims : Prop where
  look : ∀ slot look, l.focus = .claim slot look → LookOk c σ ls slot look
  reset : ∀ slot stage, l.focus = .reset slot stage → ResetOk c σ ls slot stage
  sure : clean → ∀ slot look, l.focus = .claim slot look → LookOk c σ ls slot .quiet
  fresh : clean → ∀ slot, l.focus ≠ .stale slot

structure Claims : Prop where
  bit : ∀ slot, total (fun l => if l.focus.marked = some slot then 1 else 0) ls =
    if (σ.slots slot).completed then 1 else 0
  phases : ∀ l ∈ ls, PhaseClaims c clean σ ls l
  flagged : ∀ slot, (σ.slots slot).resetting = true → ∃ l ∈ ls, ∃ stage, l.focus = .reset slot stage

/-- A frame that has run, and that no thread has claimed. -/
structure Unclaimed (slot : ℕ) : Prop where
  tasks : AllRetired c σ slot false
  conds : AllRetired c σ slot true
  none : NoneInside ls slot
  ran : ∃ x ∈ σ.ledger.retired, x.slot = slot
  before : (σ.slots slot).resetting = false
  unclaimed : ∀ l ∈ ls, l.focus ≠ .claim slot .quiet

/-- Somebody will claim the slot, or tell that it is to be checked. -/
def Awake (slot : ℕ) : Prop :=
  (σ.slots slot).needsCheck = true ∨ ∃ l ∈ ls, l.focus = .due slot ∨
    (∃ look, l.focus = .check slot look) ∨ ∃ look, l.focus = .claim slot look

/-- All conditions of the instance were evaluated to true. -/
def Granted (x : Cell) : Prop := ∀ part ∈ c.ownParts x.node, (x, part) ∈ σ.ledger.granted

structure PhaseGrants : Prop where
  hand : ∀ p ∈ l.hand, c.isCondition p.1.info.id = true → ∀ x ∈ p.1.cells, Granted c σ x
  passed : ∀ x ∈ l.passed, x.slot ∈ l.inside ∧ Granted c σ x

structure Grants : Prop where
  queue : ∀ t ∈ σ.queue, c.isCondition t.info.id = true → ∀ x ∈ t.cells, Granted c σ x
  batchQueue : ∀ t ∈ σ.batchQueue, c.isCondition t.info.id = true → ∀ x ∈ t.cells, Granted c σ x
  phases : ∀ l ∈ ls, PhaseGrants c σ l
  executed : ∀ x ∈ σ.ledger.executed, c.isCondition x.node = true → Granted c σ x

structure Inv : Prop where
  accounts : Accounts c σ ls
  tickets : Tickets c σ ls
  brackets : Brackets σ ls
  counters : Counters c σ
  words : Words c cfg σ ls
  claims : Claims c clean σ ls
  awake : clean → ∀ slot, Unclaimed c σ ls slot → Awake σ ls slot
  grants : guarded → Grants c σ ls

end Invariant

end Tomii
