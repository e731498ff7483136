import Tomii.Runtime.SlotCells
import Tomii.Runtime.Successor
import Tomii.Runtime.Dispatch

/-! # The two resolution paths, run alone

`worker_resolve_successors` (`runtime/task_execution.rs`) and `process_batch_inner`
(`runtime/batch_resolution.rs`) as functions of the state of a slot, with no other thread
stepping in between. `Trace.ready` records what `decrement_and_collect_ready` returned on
each edge, `Trace.sched` what was pushed for dispatch. -/
namespace Tomii
set_option autoImplicit false
set_option maxHeartbeats 250000

/-- The counters of a slot that completion touches. -/
structure SlotState where
  cells : LazySlot
  pendingTasks : UInt64
  pendingCondTasks : UInt64
  processingCount : UInt64
  needsCheck : Bool

/-- What a walk over edges produced. -/
structure Trace where
  ready : List (ℕ × ℕ)
  sched : List NodeInfo

namespace Trace

def empty : Trace := ⟨[], []⟩

def append (a b : Trace) : Trace := ⟨a.ready ++ b.ready, a.sched ++ b.sched⟩

end Trace

namespace Compiled

variable (c : Compiled)

/-- The layout of the slot words for this graph. -/
def layout : SlotLayout where
  numNodes := c.graph.nodes.length
  entry := c.entry
  isCondition := c.isCondition
  factor := c.factor

/-- The counter calls of one edge. -/
def decrementEdge (e : SuccEdge) (predIndex bulkCount : ℕ) (s : LazySlot) : List ℕ × LazySlot :=
  decrementAndCollectReady (LazySlot.decrease c.layout e.succId) e predIndex bulkCount s

/-- `pending_tasks` or `pending_cond_tasks` lowered by the completed instances. -/
def retire (ni : NodeInfo) (s : SlotState) : SlotState :=
  if c.isCondition ni.id then
    { s with pendingCondTasks := s.pendingCondTasks - UInt64.ofNat ni.bulkCount }
  else { s with pendingTasks := s.pendingTasks - UInt64.ofNat ni.bulkCount }

end Compiled

/-- `!no_fanout_bulk && (!inline_continuation || workers == 1)` on a fanout-bulk edge. -/
def Config.fanoutBulkEligible (cfg : Config) (e : SuccEdge) : Bool :=
  e.isFanoutBulk && !cfg.noFanoutBulk && (!cfg.inlineContinuation || cfg.workers = 1)

/-- Count `ready` arrivals and dispatch the whole factor once all have arrived. -/
def arriveFanout (cfg : Config) (ni : NodeInfo) (e : SuccEdge) (ready : List ℕ) (s : LazySlot) :
    List NodeInfo × LazySlot :=
  let (newArrived, s') := s.fanoutBulkIncrement e.succId ready.length
  (if e.succFactor.toNat ≤ newArrived then
      fanoutTasks e.succId ni.slot e.succFactor.toNat ni.index cfg.workers s.slotGen
    else [], s')

/-! ## Worker path -/

namespace Compiled

variable (c : Compiled) (cfg : Config)

/-- One edge of the worker's walk. -/
def workerEdge (ni : NodeInfo) (e : SuccEdge) (s : LazySlot) : Trace × LazySlot :=
  let (ready, s) := c.decrementEdge e ni.index ni.bulkCount s
  let marked := ready.map fun r => (e.succId, r)
  if cfg.fanoutBulkEligible e && !ready.isEmpty then
    let (sched, s) := arriveFanout cfg ni e ready s
    (⟨marked, sched⟩, s)
  else
    (⟨marked, pushReadyChunked ready e.succId ni.slot ni.index cfg.workers cfg.coalesceBarriers⟩, s)

def workerWalk (ni : NodeInfo) : List SuccEdge → LazySlot → Trace × LazySlot
  | [], s => (Trace.empty, s)
  | e :: es, s =>
    let (t, s') := c.workerEdge cfg ni e s
    let (ts, s'') := workerWalk ni es s'
    (t.append ts, s'')

/-- What `worker_resolve_successors` returns and sends. -/
structure WorkerOutcome where
  inline : Option NodeInfo
  scheduled : List NodeInfo
  ready : List (ℕ × ℕ)
  state : SlotState

/-- `worker_resolve_successors` -/
def workerResolveSuccessors (ni : NodeInfo) (s : SlotState) : WorkerOutcome :=
  let s := { s with processingCount := s.processingCount + 1 }
  if s.cells.slotGen ≠ ni.gen then
    ⟨none, [], [], { s with processingCount := s.processingCount - 1, needsCheck := true }⟩
  else
    let s := c.retire ni s
    let (t, cells) := c.workerWalk cfg ni (c.edgesFor ni.id) s.cells
    let stamp := fun task : NodeInfo => { task with gen := cells.slotGen }
    let inline := if cfg.inlineContinuation then t.sched.getLast?.map stamp else none
    let rest := if cfg.inlineContinuation then t.sched.dropLast else t.sched
    ⟨inline, rest.map stamp, t.ready,
      { s with
        cells := cells
        processingCount := s.processingCount - 1
        needsCheck := true }⟩

/-! ## Batch path -/

/-- `dispatch_condition_successor`, with the evaluation of the condition as a parameter. -/
def dispatchConditionSuccessor (eval : NodeInfo → Bool) (task : NodeInfo) (s : SlotState) :
    List NodeInfo × SlotState :=
  if eval task then ([task], { s with cells := s.cells.spawnOne c.layout task.id })
  else
    let cells := (s.cells.increment c.layout task.id (some task.index)).2
    ([], { s with
      pendingCondTasks := s.pendingCondTasks - 1
      cells := cells.resetSent c.layout task.id task.index })

def dispatchEach (eval : NodeInfo → Bool) : List NodeInfo → SlotState → List NodeInfo × SlotState
  | [], s => ([], s)
  | task :: tasks, s =>
    let (out, s') := c.dispatchConditionSuccessor eval task s
    let (outs, s'') := dispatchEach eval tasks s'
    (out ++ outs, s'')

/-- One edge of the batch walk. The check on the start of the chunk comes before everything
else, although the decrement intersects the whole chunk with the filter itself. -/
def batchEdge (eval : NodeInfo → Bool) (ni : NodeInfo) (e : SuccEdge) (s : SlotState) :
    Trace × SlotState :=
  if !e.passesFilter ni.index then (Trace.empty, s)
  else if e.hasCondition && s.cells.remainingSpawns c.layout e.succId = 0 then (Trace.empty, s)
  else
    let (ready, cells) := c.decrementEdge e ni.index ni.bulkCount s.cells
    let s := { s with cells := cells }
    let marked := ready.map fun r => (e.succId, r)
    if !e.hasCondition && cfg.fanoutBulkEligible e && !ready.isEmpty then
      let (sched, cells) := arriveFanout cfg ni e ready s.cells
      (⟨marked, sched⟩, { s with cells := cells })
    else
      let tasks := ready.map fun idx => NodeInfo.new e.succId ni.slot idx ni.index
      if e.hasCondition then
        let (sched, s) := c.dispatchEach eval tasks s
        (⟨marked, sched⟩, s)
      else (⟨marked, tasks⟩, s)

def batchWalk (eval : NodeInfo → Bool) (ni : NodeInfo) :
    List SuccEdge → SlotState → Trace × SlotState
  | [], s => (Trace.empty, s)
  | e :: es, s =>
    let (t, s') := c.batchEdge cfg eval ni e s
    let (ts, s'') := batchWalk eval ni es s'
    (t.append ts, s'')

/-- Phases 2 and 3 of `process_batch_inner` for one entry. -/
def batchEntry (eval : NodeInfo → Bool) (ni : NodeInfo) (s : SlotState) : Trace × SlotState :=
  c.batchWalk cfg eval ni (c.edgesFor ni.id) (c.retire ni s)

end Compiled

/-! ## A whole batch -/

/-- The state a batch works on: every slot, and the stored results of each instance. -/
structure BatchState (V : Type) where
  slots : ℕ → SlotState
  results : ℕ → ℕ → ℕ → Option V

namespace BatchState

variable {V : Type}

/-- `node_results.set` -/
def setResult (s : BatchState V) (ni : NodeInfo) (v : V) : BatchState V :=
  { s with results := fun id slot index =>
      if id = ni.id ∧ slot = ni.slot ∧ index = ni.index then some v else s.results id slot index }

def setSlot (s : BatchState V) (slot : ℕ) (st : SlotState) : BatchState V :=
  { s with slots := Function.update s.slots slot st }

end BatchState

namespace Compiled

variable (c : Compiled) (cfg : Config) {V : Type} (eval : NodeInfo → Bool)

/-- `process_batch_inner` on one entry: phase 1 stores a payload that is still attached. -/
def processEntry (entry : NodeInfo × Option V) (s : BatchState V) : Trace × BatchState V :=
  let s := entry.2.elim s (s.setResult entry.1)
  let (t, st) := c.batchEntry cfg eval entry.1 (s.slots entry.1.slot)
  (t, s.setSlot entry.1.slot st)

/-- `process_batch_inner` -/
def processBatchInner : List (NodeInfo × Option V) → BatchState V → Trace × BatchState V
  | [], s => (Trace.empty, s)
  | entry :: batch, s =>
    let (t, s') := c.processEntry cfg eval entry s
    let (ts, s'') := processBatchInner batch s'
    (t.append ts, s'')

end Compiled

end Tomii
