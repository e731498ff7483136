import Tomii.Runtime.Releases
import Tomii.Runtime.BulkCompletion

/-! # Runs of completions

Completed tasks of one generation, each resolved by a worker or by the batch path, in any
order. At the entry of one node a run is the list of calls that its steps make there, up to
what the evaluation of a condition takes back. -/
namespace Tomii
set_option autoImplicit false
set_option maxHeartbeats 250000

/-- A completed task with the path that resolves it. -/
inductive Resolution where
  | worker (ni : NodeInfo)
  | batch (eval : NodeInfo → Bool) (ni : NodeInfo)

namespace Resolution

def task : Resolution → NodeInfo
  | .worker ni => ni
  | .batch _ ni => ni

variable (c : Compiled) (v : ℕ)

/-- The calls that a step makes on the entry of `v`. -/
def callsOn : Resolution → List DepCall
  | .worker ni =>
    if v ∈ c.graph.successors ni.id then (c.edge ni.id v).calls ni.index ni.bulkCount else []
  | .batch _ ni =>
    if v ∈ c.graph.successors ni.id then
      Compiled.batchCalls ni.index ni.bulkCount (c.edge ni.id v)
    else []

/-- The edge along which a step reaches `v`. The batch path leaves out an edge whose window the
start of the chunk is outside of. -/
def edgeTo : Resolution → Option SuccEdge
  | .worker ni => if v ∈ c.graph.successors ni.id then some (c.edge ni.id v) else none
  | .batch _ ni =>
    if v ∈ c.graph.successors ni.id ∧ (c.edge ni.id v).passesFilter ni.index = true then
      some (c.edge ni.id v)
    else none

/-- What a step draws on group `g` of `v`. -/
def draws (g : ℕ) (r : Resolution) : ℕ :=
  (r.edgeTo c v).elim 0 fun e => e.draws r.task.index r.task.bulkCount g

/-- An instance that the step completes has `j` as its 1:1 successor. -/
def Names (j : ℕ) (r : Resolution) : Prop :=
  ∃ e ∈ r.edgeTo c v, e.Names r.task.index r.task.bulkCount j

/-- The step completes instances that count for group `g` without naming a successor. -/
def Counts (g : ℕ) (r : Resolution) : Prop :=
  ∃ e ∈ r.edgeTo c v, e.Counts r.task.index r.task.bulkCount g

theorem callsOn_eq (r : Resolution) : r.callsOn c v =
    (r.edgeTo c v).elim [] fun e => e.calls r.task.index r.task.bulkCount := by
  cases r with
  | worker ni =>
    simp only [callsOn, edgeTo, task]
    split <;> rfl
  | batch eval ni =>
    simp only [callsOn, edgeTo, task, Compiled.batchCalls]
    by_cases hv : v ∈ c.graph.successors ni.id
    · by_cases hpass : (c.edge ni.id v).passesFilter ni.index = true
      · simp [hv, hpass]
      · simp [hv, hpass]
    · simp [hv]

theorem takenBy_callsOn (r : Resolution) {g : ℕ} (hg : g < (c.entry v).numGroups) :
    (c.entry v).takenBy (r.callsOn c v) g = r.draws c v g := by
  rw [callsOn_eq, draws]
  cases r.edgeTo c v with
  | none => rfl
  | some e => exact e.takenBy_calls (c.entry v) _ _ hg

theorem mem_callsOn_named (r : Resolution) (j : ℕ) :
    (∃ call ∈ r.callsOn c v, call.specific = some j) ↔ r.Names c v j := by
  rw [callsOn_eq, Names]
  cases r.edgeTo c v with
  | none => simp
  | some e => simpa using e.mem_calls_named _ _ j

theorem mem_callsOn_unnamed (r : Resolution) {g : ℕ} (hg : g < (c.entry v).numGroups) :
    (∃ call ∈ r.callsOn c v, call.specific = none ∧ (c.entry v).Hits call g) ↔
      r.Counts c v g := by
  rw [callsOn_eq, Counts]
  cases r.edgeTo c v with
  | none => simp
  | some e => simpa using e.mem_calls_unnamed (c.entry v) _ _ hg

/-- A step whose edge names no successor in one call names none in any. -/
theorem callsOn_unnamed {r : Resolution} {call : DepCall} (hcall : call ∈ r.callsOn c v)
    (hnone : call.specific = none) : ∀ d ∈ r.callsOn c v, d.specific = none := by
  rw [callsOn_eq] at hcall ⊢
  cases he : r.edgeTo c v with
  | none =>
    rw [he] at hcall
    cases hcall
  | some e =>
    rw [he] at hcall
    exact e.calls_unnamed hcall hnone

/-- The edge of a step is an edge of the arena. -/
theorem edgeTo_eq {r : Resolution} {e : SuccEdge} (h : r.edgeTo c v = some e) :
    e = c.edge r.task.id v := by
  cases r with
  | worker ni =>
    simp only [edgeTo] at h
    split at h
    · exact (Option.some.inj h).symm
    · cases h
  | batch eval ni =>
    simp only [edgeTo] at h
    split at h
    · exact (Option.some.inj h).symm
    · cases h

end Resolution

/-- What failed conditions of the instances `ready` may do to an entry: counters only rise, and
where a flag is taken back, the counter of that instance has been raised by one. -/
structure EntryState.RaisedBy (sh : EntryShape) (ready : List ℕ) (x y : EntryState) : Prop where
  remaining : ∀ g, x.remaining g ≤ y.remaining g
  sent : ∀ i, y.sent i = x.sent i ∨
    i ∈ ready ∧ min (x.remaining (sh.groupOf i) + 1) (2 ^ 32 - 1) ≤ y.remaining (sh.groupOf i)

namespace EntryState

variable {sh : EntryShape}

theorem RaisedBy.refl (ready : List ℕ) (x : EntryState) : RaisedBy sh ready x x :=
  ⟨fun _ => le_rfl, fun _ => .inl rfl⟩

theorem RaisedBy.trans {ready : List ℕ} {x y z : EntryState} (h : RaisedBy sh ready x y)
    (h' : RaisedBy sh ready y z) : RaisedBy sh ready x z := by
  refine ⟨fun g => le_trans (h.remaining g) (h'.remaining g), fun i => ?_⟩
  have hle := h.remaining (sh.groupOf i)
  have hle' := h'.remaining (sh.groupOf i)
  cases h'.sent i with
  | inl heq' =>
    cases h.sent i with
    | inl heq => exact .inl (heq'.trans heq)
    | inr hraise => exact .inr ⟨hraise.1, le_trans hraise.2 hle'⟩
  | inr hraise =>
    refine .inr ⟨hraise.1, le_trans ?_ hraise.2⟩
    omega

theorem RaisedBy.mono {ready ready' : List ℕ} {x y : EntryState} (h : RaisedBy sh ready x y)
    (hsub : ready ⊆ ready') : RaisedBy sh ready' x y :=
  ⟨h.remaining, fun i => (h.sent i).imp_right fun hi => ⟨hsub hi.1, hi.2⟩⟩

/-- A failed condition raises the counter of its instance and takes its flag back. -/
theorem raisedBy_discharge {x : EntryState} (hx : x.Fits) (idx : ℕ) :
    RaisedBy sh [idx] x (resetSent sh idx (increment sh (some idx) x).2) := by
  have hrem : (resetSent sh idx (increment sh (some idx) x).2).remaining =
      (increment sh (some idx) x).2.remaining := by
    unfold resetSent
    split <;> rfl
  refine ⟨fun g => ?_, fun i => ?_⟩
  · have hfit := hx g
    rw [hrem]
    simp only [increment, setRemaining, Option.elim_some]
    by_cases hg : g = sh.groupOf idx
    · rw [← hg, Function.update_self]
      omega
    · rw [Function.update_of_ne hg]
  · by_cases hi : i = idx
    · right
      subst hi
      refine ⟨List.mem_singleton_self _, ?_⟩
      rw [hrem]
      simp only [increment, setRemaining, Option.elim_some, Function.update_self]
      exact le_rfl
    · left
      unfold resetSent
      split
      · simp [setSent, increment, setRemaining, hi]
      · rfl

end EntryState

namespace Compiled

variable (c : Compiled) (cfg : Config)

/-- One step of a run: the instances it makes ready and the slot it leaves. -/
def resolve (r : Resolution) (s : SlotState) : List (ℕ × ℕ) × SlotState :=
  match r with
  | .worker ni =>
    let out := c.workerResolveSuccessors cfg ni s
    (out.ready, out.state)
  | .batch eval ni =>
    let (t, s') := c.batchEntry cfg eval ni s
    (t.ready, s')

/-- The instances of `v` that the decrements of a step return, in their order. -/
def returned (r : Resolution) (s : SlotState) (v : ℕ) : List ℕ :=
  Trace.readyOf ⟨(c.resolve cfg r s).1, []⟩ v

/-- The instances of `v` that the steps of a run make ready, step by step. -/
def readies (v : ℕ) (rs : List Resolution) (s : SlotState) : List (List ℕ) :=
  (runOps (c.resolve cfg) rs s).1.map fun ready => Trace.readyOf ⟨ready, []⟩ v

/-- The calls of a run on the entry of `v`. -/
def runCallsOn (v : ℕ) (rs : List Resolution) : List DepCall := rs.flatMap (Resolution.callsOn c v)

/-! ## What a step does at one node -/

/-- The entry of `v` after `calls`; what conditions take back only raises counters. -/
structure Touches (v : ℕ) (calls : List DepCall) (s : LazySlot) (ready : List ℕ) (s' : LazySlot) :
    Prop where
  generation : s'.generation = s.generation
  ready_eq : ready = (c.runOn v calls s).1
  raised : c.deps s' v = (c.runOn v calls s).2 ∨
    ready ≠ [] ∧ EntryState.RaisedBy (c.entry v) ready (c.runOn v calls s).2 (c.deps s' v)
  plain : c.isCondition v = false → c.deps s' v = (c.runOn v calls s).2

/-- Nothing happened at `v`. -/
structure Untouched (v : ℕ) (s : LazySlot) (ready : List ℕ) (s' : LazySlot) : Prop where
  generation : s'.generation = s.generation
  ready_eq : ready = []
  deps : c.deps s' v = c.deps s v

variable {c}

theorem Untouched.touches {v : ℕ} {s s' : LazySlot} {ready : List ℕ}
    (h : c.Untouched v s ready s') : c.Touches v [] s ready s' :=
  ⟨h.generation, h.ready_eq, .inl h.deps, fun _ => h.deps⟩

theorem Untouched.trans {v : ℕ} {s s' s'' : LazySlot} {ready ready' : List ℕ}
    (h : c.Untouched v s ready s') (h' : c.Untouched v s' ready' s'') :
    c.Untouched v s (ready ++ ready') s'' := by
  refine ⟨h'.generation.trans h.generation, ?_, h'.deps.trans h.deps⟩
  rw [h.ready_eq, h'.ready_eq, List.append_nil]

theorem Untouched.then {v : ℕ} {calls : List DepCall} {s s' s'' : LazySlot}
    {ready ready' : List ℕ} (h : c.Untouched v s ready s') (h' : c.Touches v calls s' ready' s'') :
    c.Touches v calls s (ready ++ ready') s'' := by
  have hrun : c.runOn v calls s' = c.runOn v calls s := by rw [runOn, runOn, h.deps]
  rw [h.ready_eq, List.nil_append]
  refine ⟨h'.generation.trans h.generation, ?_, ?_, ?_⟩
  · rw [h'.ready_eq, hrun]
  · rw [← hrun]
    exact h'.raised
  · rw [← hrun]
    exact h'.plain

theorem Touches.then {v : ℕ} {calls : List DepCall} {s s' s'' : LazySlot}
    {ready ready' : List ℕ} (h : c.Touches v calls s ready s') (h' : c.Untouched v s' ready' s'') :
    c.Touches v calls s (ready ++ ready') s'' := by
  rw [h'.ready_eq, List.append_nil]
  refine ⟨h'.generation.trans h.generation, h.ready_eq, ?_, ?_⟩
  · rw [h'.deps]
    exact h.raised
  · rw [h'.deps]
    exact h.plain

theorem Walks.touches {calls : ℕ → List DepCall} {s s' : LazySlot} {t : Trace}
    (h : c.Walks calls s t s') (v : ℕ) : c.Touches v (calls v) s (t.readyOf v) s' :=
  ⟨h.generation, h.ready v, .inl (h.deps v), fun _ => h.deps v⟩

/-! ## Spawn counts -/

theorem runCalls_decrease_spawns (node : ℕ) (cs : List DepCall) (s : LazySlot) :
    (runCalls (LazySlot.decrease c.layout node) cs s).2.condInstancesToSpawn =
      s.condInstancesToSpawn := by
  induction cs generalizing s with
  | nil => rfl
  | cons call cs ih =>
    rw [runCalls_cons, ih]
    unfold LazySlot.decrease
    split <;> rfl

theorem decrementEdge_spawns (e : SuccEdge) (i n : ℕ) (s : LazySlot) :
    (c.decrementEdge e i n s).2.condInstancesToSpawn = s.condInstancesToSpawn :=
  runCalls_decrease_spawns e.succId (e.calls i n) s

theorem arriveFanout_spawns (cfg : Config) (ni : NodeInfo) (e : SuccEdge) (ready : List ℕ)
    (s : LazySlot) :
    (arriveFanout cfg ni e ready s).2.condInstancesToSpawn = s.condInstancesToSpawn := rfl

theorem workerWalk_spawns (cfg : Config) (ni : NodeInfo) (es : List SuccEdge) (s : LazySlot) :
    (c.workerWalk cfg ni es s).2.condInstancesToSpawn = s.condInstancesToSpawn := by
  induction es generalizing s with
  | nil => rfl
  | cons e es ih =>
    simp only [workerWalk]
    rw [ih]
    simp only [workerEdge]
    split
    · exact (arriveFanout_spawns cfg ni e _ _).trans (decrementEdge_spawns e _ _ s)
    · exact decrementEdge_spawns e _ _ s

/-- A worker spawns nothing on a condition. -/
theorem resolve_worker_spawns (cfg : Config) (ni : NodeInfo) (s : SlotState) :
    (c.resolve cfg (.worker ni) s).2.cells.condInstancesToSpawn =
      s.cells.condInstancesToSpawn := by
  simp only [resolve, workerResolveSuccessors]
  split
  · rfl
  · simp only [workerWalk_spawns]
    unfold retire
    split <;> rfl

theorem remainingSpawns_congr {s s' : LazySlot} (hgen : s'.generation = s.generation) {w : ℕ}
    (hspawns : s'.condInstancesToSpawn w = s.condInstancesToSpawn w) :
    s'.remainingSpawns c.layout w = s.remainingSpawns c.layout w := by
  rw [LazySlot.remainingSpawns, LazySlot.remainingSpawns, LazySlot.slotGen, LazySlot.slotGen, hgen,
    hspawns]

theorem dispatchEach_spawns (eval : NodeInfo → Bool) {node : ℕ} (tasks : List NodeInfo)
    (htasks : ∀ task ∈ tasks, task.id = node) {w : ℕ} (hw : w ≠ node) (s : SlotState) :
    (c.dispatchEach eval tasks s).2.cells.condInstancesToSpawn w =
      s.cells.condInstancesToSpawn w := by
  have hdeps : ∀ (s : LazySlot) (n : ℕ) (cells : EntryCells),
      (s.setDeps n cells).condInstancesToSpawn = s.condInstancesToSpawn := fun _ _ _ => rfl
  induction tasks generalizing s with
  | nil => rfl
  | cons task tasks ih =>
    have hid := htasks task List.mem_cons_self
    simp only [dispatchEach]
    rw [ih fun t ht => htasks t (List.mem_cons_of_mem _ ht)]
    simp only [dispatchConditionSuccessor]
    split
    · simp only [LazySlot.spawnOne, LazySlot.setCond]
      rw [Function.update_of_ne (by rw [hid]; exact hw)]
    · simp only [LazySlot.resetSent, LazySlot.increment]
      split <;> simp only [hdeps]

/-- The batch path spawns at the successor of the edge only. -/
theorem batchEdge_spawns (cfg : Config) (eval : NodeInfo → Bool) (ni : NodeInfo) {e : SuccEdge}
    {w : ℕ} (hw : w ≠ e.succId) (s : SlotState) :
    (c.batchEdge cfg eval ni e s).2.cells.condInstancesToSpawn w =
      s.cells.condInstancesToSpawn w := by
  have hcalls := congrFun (decrementEdge_spawns (c := c) e ni.index ni.bulkCount s.cells) w
  unfold batchEdge
  split
  · rfl
  · split
    · rfl
    · dsimp only
      split
      · rw [arriveFanout_spawns]
        exact hcalls
      · split
        · rw [dispatchEach_spawns eval _ (by simp [NodeInfo.new]) hw]
          exact hcalls
        · exact hcalls

/-! ## Evaluating the condition of ready instances -/

theorem deps_increment (s : LazySlot) (node w : ℕ) (idx : Option ℕ) :
    (s.increment c.layout node idx).2.generation = s.generation ∧
      c.deps (s.increment c.layout node idx).2 w =
        if w = node ∧ node < c.graph.nodes.length then
          (EntryState.increment (c.entry node) idx (c.deps s node)).2
        else c.deps s w := by
  unfold LazySlot.increment
  by_cases hnode : node < c.layout.numNodes
  · have hlt : node < c.graph.nodes.length := hnode
    rw [if_pos hnode]
    refine ⟨rfl, ?_⟩
    simp only [deps, LazySlot.view_setDeps, EagerSlot.setDeps, hlt, and_true]
    by_cases hw : w = node
    · subst hw
      rw [if_pos rfl, Function.update_self,
        (EntryCells.view_incrementDependency _ s.slotGen idx (s.deps w)).2]
      rfl
    · rw [if_neg hw, Function.update_of_ne hw]
  · have hlt : ¬ node < c.graph.nodes.length := hnode
    rw [if_neg hnode, if_neg fun h => hlt h.2]
    exact ⟨rfl, rfl⟩

theorem deps_resetSent (s : LazySlot) (node w idx : ℕ) :
    (s.resetSent c.layout node idx).generation = s.generation ∧
      c.deps (s.resetSent c.layout node idx) w =
        if w = node ∧ node < c.graph.nodes.length then
          EntryState.resetSent (c.entry node) idx (c.deps s node)
        else c.deps s w := by
  unfold LazySlot.resetSent
  by_cases hnode : node < c.layout.numNodes
  · have hlt : node < c.graph.nodes.length := hnode
    rw [if_pos hnode]
    refine ⟨rfl, ?_⟩
    simp only [deps, LazySlot.view_setDeps, EagerSlot.setDeps, hlt, and_true]
    by_cases hw : w = node
    · subst hw
      rw [if_pos rfl, Function.update_self, EntryCells.view_resetSentFlag]
      rfl
    · rw [if_neg hw, Function.update_of_ne hw]
  · have hlt : ¬ node < c.graph.nodes.length := hnode
    rw [if_neg hnode, if_neg fun h => hlt h.2]
    exact ⟨rfl, rfl⟩

/-- Evaluating the condition of one instance. -/
theorem dispatchConditionSuccessor_deps (eval : NodeInfo → Bool) (task : NodeInfo) (s : SlotState)
    (w : ℕ) :
    (c.dispatchConditionSuccessor eval task s).2.cells.generation = s.cells.generation ∧
      (w ≠ task.id →
        c.deps (c.dispatchConditionSuccessor eval task s).2.cells w = c.deps s.cells w) ∧
      EntryState.RaisedBy (c.entry task.id) [task.index] (c.deps s.cells task.id)
        (c.deps (c.dispatchConditionSuccessor eval task s).2.cells task.id) := by
  simp only [dispatchConditionSuccessor]
  split
  · exact ⟨rfl, fun _ => rfl, EntryState.RaisedBy.refl _ _⟩
  · have hinc := deps_increment (c := c) s.cells task.id
    have hreset := deps_resetSent (c := c)
      (s.cells.increment c.layout task.id (some task.index)).2 task.id
    refine ⟨(hreset w task.index).1.trans (hinc w (some task.index)).1, fun hw => ?_, ?_⟩
    · simp only [(hreset w task.index).2, (hinc w (some task.index)).2]
      rw [if_neg fun h => hw h.1, if_neg fun h => hw h.1]
    · simp only [(hreset task.id task.index).2, (hinc task.id (some task.index)).2]
      by_cases hlt : task.id < c.graph.nodes.length
      · rw [if_pos ⟨trivial, hlt⟩, if_pos ⟨trivial, hlt⟩]
        exact EntryState.raisedBy_discharge (c.deps_fits s.cells task.id) task.index
      · rw [if_neg fun h => hlt h.2, if_neg fun h => hlt h.2]
        exact EntryState.RaisedBy.refl _ _

/-- Evaluating conditions of `node` moves no other entry and only raises its own. -/
theorem dispatchEach_deps (eval : NodeInfo → Bool) {node : ℕ} (tasks : List NodeInfo)
    (htasks : ∀ task ∈ tasks, task.id = node) (s : SlotState) (w : ℕ) :
    (c.dispatchEach eval tasks s).2.cells.generation = s.cells.generation ∧
      (w ≠ node → c.deps (c.dispatchEach eval tasks s).2.cells w = c.deps s.cells w) ∧
      EntryState.RaisedBy (c.entry node) (tasks.map (·.index)) (c.deps s.cells node)
        (c.deps (c.dispatchEach eval tasks s).2.cells node) := by
  induction tasks generalizing s with
  | nil => exact ⟨rfl, fun _ => rfl, EntryState.RaisedBy.refl _ _⟩
  | cons task tasks ih =>
    have hid := htasks task List.mem_cons_self
    have hfirst := dispatchConditionSuccessor_deps (c := c) eval task s w
    rw [hid] at hfirst
    obtain ⟨hg, hd, hr⟩ := ih (fun t ht => htasks t (List.mem_cons_of_mem _ ht))
      (c.dispatchConditionSuccessor eval task s).2
    simp only [dispatchEach, List.map_cons]
    refine ⟨hg.trans hfirst.1, fun hw => (hd hw).trans (hfirst.2.1 hw), ?_⟩
    exact (hfirst.2.2.mono (List.cons_subset_cons _ (List.nil_subset _))).trans
      (hr.mono (List.subset_cons_self _ _))

/-! ## One step at one node -/

theorem Touches.untouched {v : ℕ} {s s' : LazySlot} {ready : List ℕ}
    (h : c.Touches v [] s ready s') : c.Untouched v s ready s' := by
  refine ⟨h.generation, h.ready_eq, ?_⟩
  cases h.raised with
  | inl heq => exact heq
  | inr hne => exact absurd h.ready_eq hne.1

/-- A step of the batch path makes its calls at `v`, unless the condition of `v` has no
instances left to spawn. -/
def BatchTouches (v : ℕ) (calls : List DepCall) (s : LazySlot) (ready : List ℕ) (s' : LazySlot) :
    Prop :=
  c.Touches v calls s ready s' ∨
    (c.isCondition v = true ∧ s.remainingSpawns c.layout v = 0) ∧ c.Untouched v s ready s'

section ConditionEdge

variable (cfg : Config) (eval : NodeInfo → Bool) (ni : NodeInfo) {e : SuccEdge} (s : SlotState)

theorem batchEdge_filtered (hpass : e.passesFilter ni.index = false) :
    c.batchEdge cfg eval ni e s = (Trace.empty, s) := by
  simp only [batchEdge, hpass, Bool.not_false, if_true]

theorem batchEdge_spent (hcond : e.hasCondition = true)
    (hspent : s.cells.remainingSpawns c.layout e.succId = 0) :
    c.batchEdge cfg eval ni e s = (Trace.empty, s) := by
  simp only [batchEdge, hcond, hspent, decide_true, Bool.and_self, if_true, ite_self]

theorem batchEdge_condition (hpass : e.passesFilter ni.index = true) (hcond : e.hasCondition = true)
    (hspawns : ¬ s.cells.remainingSpawns c.layout e.succId = 0) :
    c.batchEdge cfg eval ni e s =
      let ready := (c.decrementEdge e ni.index ni.bulkCount s.cells).1
      let out := c.dispatchEach eval (ready.map fun idx => NodeInfo.new e.succId ni.slot idx ni.index)
        { s with cells := (c.decrementEdge e ni.index ni.bulkCount s.cells).2 }
      (⟨ready.map fun r => (e.succId, r), out.1⟩, out.2) := by
  simp only [batchEdge, hpass, hcond, hspawns, decide_false, Bool.and_false, Bool.not_true,
    Bool.false_and, Bool.false_eq_true, if_false, if_true]

/-- On the edge to a node with a condition, evaluation only raises its counters. -/
theorem batchEdge_condition_touches (he : e.succId < c.graph.nodes.length)
    (hpass : e.passesFilter ni.index = true) (hcond : e.hasCondition = true)
    (hagree : e.hasCondition = c.isCondition e.succId)
    (hspawns : ¬ s.cells.remainingSpawns c.layout e.succId = 0) (v : ℕ) :
    c.Touches v (callsTo e (e.calls ni.index ni.bulkCount) v) s.cells
      ((c.batchEdge cfg eval ni e s).1.readyOf v) (c.batchEdge cfg eval ni e s).2.cells := by
  have hwalk := walks_edge he ni.index ni.bulkCount s.cells
    (c.decrementEdge e ni.index ni.bulkCount s.cells).2 [] rfl rfl
  rw [batchEdge_condition cfg eval ni s hpass hcond hspawns]
  generalize c.decrementEdge e ni.index ni.bulkCount s.cells = out at hwalk ⊢
  have hdeps := hwalk.deps v
  have hready := hwalk.ready v
  have htasks : ∀ task ∈ out.1.map fun idx => NodeInfo.new e.succId ni.slot idx ni.index,
      task.id = e.succId := by
    simp [NodeInfo.new]
  obtain ⟨hgen, hother, hraise⟩ :=
    dispatchEach_deps (c := c) eval _ htasks { s with cells := out.2 } v
  rw [List.map_map] at hraise
  have hindexes : (fun task : NodeInfo => task.index) ∘
      (fun idx => NodeInfo.new e.succId ni.slot idx ni.index) = id := rfl
  rw [hindexes, List.map_id] at hraise
  simp only
  rw [Trace.readyOf_marked] at hready ⊢
  by_cases hv : v = e.succId
  · rw [if_pos hv] at hready ⊢
    refine ⟨hgen.trans hwalk.generation, hready, ?_, fun hno => ?_⟩
    · by_cases hnone : out.1 = []
      · left
        simpa [hnone, dispatchEach] using hdeps
      · refine .inr ⟨hnone, ?_⟩
        rw [← hdeps, hv]
        exact hraise
    · rw [hagree, ← hv, hno] at hcond
      cases hcond
  · have hsame := (hother hv).trans hdeps
    rw [if_neg hv] at hready ⊢
    exact ⟨hgen.trans hwalk.generation, hready, .inl hsame, fun _ => hsame⟩

end ConditionEdge

theorem batchEdge_touches (cfg : Config) (eval : NodeInfo → Bool) (ni : NodeInfo) {p w : ℕ}
    (hw : w < c.graph.nodes.length) (s : SlotState) (v : ℕ) :
    BatchTouches (c := c) v (callsTo (c.edge p w) (batchCalls ni.index ni.bulkCount (c.edge p w)) v)
      s.cells ((c.batchEdge cfg eval ni (c.edge p w) s).1.readyOf v)
      (c.batchEdge cfg eval ni (c.edge p w) s).2.cells := by
  by_cases hcond : (c.edge p w).hasCondition = true
  · by_cases hpass : (c.edge p w).passesFilter ni.index = true
    · by_cases hspent : s.cells.remainingSpawns c.layout (c.edge p w).succId = 0
      · rw [batchEdge_spent cfg eval ni s hcond hspent]
        by_cases hv : v = w
        · subst hv
          exact .inr ⟨⟨hcond, hspent⟩, rfl, rfl, rfl⟩
        · left
          rw [callsTo, if_neg (by rwa [edge_succId])]
          exact (Walks.refl s.cells).touches v
      · left
        rw [batchCalls, if_pos hpass]
        exact batchEdge_condition_touches cfg eval ni s hw hpass hcond rfl hspent v
    · rw [batchEdge_filtered cfg eval ni s (Bool.eq_false_of_not_eq_true hpass), batchCalls,
        if_neg hpass, callsTo, ite_self]
      exact .inl ((Walks.refl s.cells).touches v)
  · have hplain : (c.edge p w).hasCondition = false := Bool.eq_false_of_not_eq_true hcond
    exact .inl ((batchEdge_walks cfg eval ni hw hplain s).1.touches v)

theorem BatchTouches.untouched {v : ℕ} {s s' : LazySlot} {ready : List ℕ}
    (h : BatchTouches (c := c) v [] s ready s') : c.Untouched v s ready s' :=
  h.elim (fun h => h.untouched) fun h => h.2

theorem batchWalk_touches (cfg : Config) (eval : NodeInfo → Bool) (ni : NodeInfo) (p : ℕ)
    (vs : List ℕ) (hnd : vs.Nodup) (hlt : ∀ w ∈ vs, w < c.graph.nodes.length) (s : SlotState)
    (v : ℕ) :
    BatchTouches (c := c) v
      (if v ∈ vs then batchCalls ni.index ni.bulkCount (c.edge p v) else []) s.cells
      ((c.batchWalk cfg eval ni (vs.map (c.edge p)) s).1.readyOf v)
      (c.batchWalk cfg eval ni (vs.map (c.edge p)) s).2.cells := by
  induction vs generalizing s with
  | nil => exact .inl ((Walks.refl s.cells).touches v)
  | cons w vs ih =>
    obtain ⟨hw, hnd'⟩ := List.nodup_cons.mp hnd
    have hfirst := batchEdge_touches cfg eval ni (p := p) (hlt w List.mem_cons_self) s v
    have hrest := ih hnd' (fun u hu => hlt u (List.mem_cons_of_mem _ hu))
      (c.batchEdge cfg eval ni (c.edge p w) s).2
    simp only [List.map_cons, batchWalk, Trace.readyOf_append]
    by_cases hv : v = w
    · subst hv
      rw [if_neg hw] at hrest
      rw [callsTo, if_pos (by rw [edge_succId])] at hfirst
      rw [if_pos List.mem_cons_self]
      have hlast := BatchTouches.untouched hrest
      exact hfirst.imp (fun h => h.then hlast) fun h => ⟨h.1, h.2.trans hlast⟩
    · rw [callsTo, if_neg (by rwa [edge_succId])] at hfirst
      have hbefore := BatchTouches.untouched hfirst
      have hspawns := remainingSpawns_congr (c := c) hbefore.generation
        (batchEdge_spawns cfg eval ni (e := c.edge p w) (by rwa [edge_succId]) s)
      simp only [List.mem_cons, hv, false_or]
      rw [BatchTouches, hspawns] at hrest
      exact hrest.imp (fun h => hbefore.then h) fun h => ⟨h.1, hbefore.trans h.2⟩

variable (c) in
theorem retire_cells (ni : NodeInfo) (s : SlotState) : (c.retire ni s).cells = s.cells := by
  unfold retire
  split <;> rfl

end Compiled

namespace BuiltFrom

variable {nodes : List Node} {c : Compiled} (h : BuiltFrom nodes c) (cfg : Config)

include h

theorem successors_lt {p : ℕ} : ∀ v ∈ c.graph.successors p, v < c.graph.nodes.length := by
  intro v hv
  rw [h.nodes_eq]
  exact (h.mem_successors.mp hv).1

/-- A worker's step makes its calls at every node, conditions or not. -/
theorem worker_walks (ni : NodeInfo) {s : SlotState} (hgen : ni.gen = s.cells.slotGen) :
    c.Walks (fun v => (Resolution.worker ni).callsOn c v) s.cells
      ⟨(c.resolve cfg (.worker ni) s).1, []⟩ (c.resolve cfg (.worker ni) s).2.cells := by
  have hwalk := (Compiled.workerWalk_walks cfg ni (c.edgesFor ni.id) h.edge_succ_lt s.cells).sched []
  simp only [Compiled.resolve, Compiled.workerResolveSuccessors, hgen, ne_eq, not_true_eq_false,
    if_false, Compiled.retire_cells]
  exact hwalk.congr fun v => h.callsOver_eq _ ni.id v

/-- A step of a run at one node. -/
theorem resolve_touches (r : Resolution) {s : SlotState} (hgen : r.task.gen = s.cells.slotGen)
    (v : ℕ) :
    Compiled.BatchTouches (c := c) v (r.callsOn c v) s.cells
      (Trace.readyOf ⟨(c.resolve cfg r s).1, []⟩ v) (c.resolve cfg r s).2.cells := by
  cases r with
  | worker ni => exact .inl ((h.worker_walks cfg ni hgen).touches v)
  | batch eval ni =>
    have hwalk := Compiled.batchWalk_touches cfg eval ni ni.id (c.graph.successors ni.id)
      (h.rows.successors_nodup ni.id) h.successors_lt (c.retire ni s) v
    rw [c.retire_cells] at hwalk
    exact hwalk

/-- A step on the worker path, or at a node without a condition, is its list of calls. -/
theorem resolve_calls (r : Resolution) {s : SlotState} (hgen : r.task.gen = s.cells.slotGen)
    {v : ℕ} (hplain : c.isCondition v = false ∨ ∃ ni, r = .worker ni) :
    (c.resolve cfg r s).2.cells.generation = s.cells.generation ∧
      Trace.readyOf ⟨(c.resolve cfg r s).1, []⟩ v = (c.runOn v (r.callsOn c v) s.cells).1 ∧
      c.deps (c.resolve cfg r s).2.cells v = (c.runOn v (r.callsOn c v) s.cells).2 := by
  cases hplain with
  | inl hv =>
    cases h.resolve_touches cfg r hgen v with
    | inl ht => exact ⟨ht.generation, ht.ready_eq, ht.plain hv⟩
    | inr hbad =>
      rw [hv] at hbad
      cases hbad.1.1
  | inr hworker =>
    obtain ⟨ni, hr⟩ := hworker
    subst hr
    have hwalk := h.worker_walks cfg ni hgen
    exact ⟨hwalk.generation, hwalk.ready v, hwalk.deps v⟩

end BuiltFrom

/-! ## Runs -/

/-- A run does not move the generation of its slot. -/
theorem BuiltFrom.run_generation {nodes : List Node} {c : Compiled} (h : BuiltFrom nodes c)
    (cfg : Config) (rs : List Resolution) (s : SlotState)
    (hgen : ∀ r ∈ rs, r.task.gen = s.cells.slotGen) :
    (runOps (c.resolve cfg) rs s).2.cells.generation = s.cells.generation := by
  induction rs generalizing s with
  | nil => rfl
  | cons r rs ih =>
    have hstep : (c.resolve cfg r s).2.cells.generation = s.cells.generation :=
      (h.resolve_touches cfg r (hgen r List.mem_cons_self) 0).elim (fun ht => ht.generation)
        fun hskip => hskip.2.generation
    rw [runOps_cons]
    refine (ih _ fun r' hr' => ?_).trans hstep
    rw [LazySlot.slotGen, hstep]
    exact hgen r' (List.mem_cons_of_mem _ hr')

/-- At a node without a condition, or on the worker path, a run is its list of calls. -/
theorem BuiltFrom.run_calls {nodes : List Node} {c : Compiled} (h : BuiltFrom nodes c)
    (cfg : Config) {v : ℕ} (rs : List Resolution) (s : SlotState)
    (hplain : ∀ r ∈ rs, c.isCondition v = false ∨ ∃ ni, r = .worker ni)
    (hgen : ∀ r ∈ rs, r.task.gen = s.cells.slotGen) :
    (c.readies cfg v rs s).flatten = (c.runOn v (c.runCallsOn v rs) s.cells).1 := by
  induction rs generalizing s with
  | nil => rfl
  | cons r rs ih =>
    obtain ⟨hsame, hready, hdeps⟩ := h.resolve_calls cfg r (hgen r List.mem_cons_self)
      (hplain r List.mem_cons_self)
    have hrest := ih (c.resolve cfg r s).2 (fun r' hr' => hplain r' (List.mem_cons_of_mem _ hr'))
      fun r' hr' => by
        rw [LazySlot.slotGen, hsame]
        exact hgen r' (List.mem_cons_of_mem _ hr')
    simp only [Compiled.readies, runOps_cons, List.map_cons, List.flatten_cons,
      Compiled.runCallsOn, List.flatMap_cons] at hrest ⊢
    rw [hrest, hready, Compiled.runOn, Compiled.runOn, hdeps, Compiled.runOn, Compiled.runOn,
      runCalls_append]

namespace Compiled

variable {c : Compiled}

theorem readies_append (cfg : Config) (v : ℕ) (rs rs' : List Resolution) (s : SlotState) :
    c.readies cfg v (rs ++ rs') s =
      c.readies cfg v rs s ++ c.readies cfg v rs' (runOps (c.resolve cfg) rs s).2 := by
  induction rs generalizing s with
  | nil => rfl
  | cons r rs ih =>
    simp only [readies, List.cons_append, runOps_cons, List.map_cons] at ih ⊢
    rw [ih]

/-- What a run makes ready, one of its steps does. -/
theorem exists_step_of_readies (cfg : Config) {v j : ℕ} (rs : List Resolution) (s : SlotState)
    (hj : j ∈ (c.readies cfg v rs s).flatten) : ∃ pre r post, rs = pre ++ r :: post ∧
      j ∈ c.returned cfg r (runOps (c.resolve cfg) pre s).2 v := by
  induction rs generalizing s with
  | nil => cases hj
  | cons r rs ih =>
    simp only [readies, runOps_cons, List.map_cons, List.flatten_cons, List.mem_append] at hj
    cases hj with
    | inl hj => exact ⟨[], r, rs, rfl, hj⟩
    | inr hj =>
      obtain ⟨pre, r', post, heq, hmem⟩ := ih (c.resolve cfg r s).2 hj
      exact ⟨r :: pre, r', post, by rw [heq, List.cons_append], hmem⟩

end Compiled

namespace Compiled

variable (c : Compiled)

/-- Each instance of each predecessor of `v` completes in exactly one step of the run. -/
structure CompletesPreds (v : ℕ) (rs : List Resolution) : Prop where
  chunks : ∀ r ∈ rs, 0 < r.task.bulkCount
  once : ∀ p ∈ (c.nodeAt v).predIds,
    ((rs.filter fun r => r.task.id = p).flatMap fun r => r.task.instances).Perm
      (List.range (c.factor p))

end Compiled

namespace Compiled

variable (c : Compiled)

/-- The steps `rs`, in this order, let instance `j` of `v` go. Under a barrier its group is drawn
down to 0. Without one a step names it, or at some step that counts for its group without naming
a successor no more is missing there than the instances after `j` in the group need. -/
def LetsGo (v : ℕ) (rs : List Resolution) (j : ℕ) : Prop :=
  if (c.entry v).hasBarrier then
    ∃ g < (c.entry v).numGroups,
      g * (c.entry v).groupSize ≤ j ∧ j < (g + 1) * (c.entry v).groupSize ∧
      0 < (c.entry v).depsPerGroup.toNat ∧
      (c.entry v).depsPerGroup.toNat ≤ (rs.map (Resolution.draws c v g)).sum
  else
    (j < c.factor v ∧ ∃ r ∈ rs, r.Names c v j) ∨
      ∃ g < (c.entry v).numGroups,
        g * (c.entry v).groupSize ≤ j ∧ j < (g + 1) * (c.entry v).groupSize ∧
        ∃ pre r post, rs = pre ++ r :: post ∧ r.Counts c v g ∧
          (c.entry v).depsPerGroup.toNat ≤ ((pre ++ [r]).map (Resolution.draws c v g)).sum +
            ((g + 1) * (c.entry v).groupSize - 1 - j) * (c.entry v).depsPerInstance

variable {c}

/-- Where an element of a flattened list lies. -/
theorem exists_split_flatMap {α β : Type*} (f : α → List β) (xs : List α) {before after : List β}
    {y : β} (hsplit : xs.flatMap f = before ++ y :: after) :
    ∃ pre x post b a, xs = pre ++ x :: post ∧ f x = b ++ y :: a ∧ before = pre.flatMap f ++ b := by
  induction xs generalizing before with
  | nil =>
    have hlen := congrArg List.length hsplit
    simp at hlen
  | cons x xs ih =>
    rw [List.flatMap_cons, List.append_eq_append_iff] at hsplit
    cases hsplit with
    | inl h =>
      obtain ⟨rest, hbefore, hrest⟩ := h
      obtain ⟨pre, x', post, b, a, hxs, hfx, hb⟩ := ih hrest
      exact ⟨x :: pre, x', post, b, a, by rw [hxs, List.cons_append], hfx, by
        rw [hbefore, hb, List.flatMap_cons, List.append_assoc]⟩
    | inr h =>
      obtain ⟨rest, hfx, hrest⟩ := h
      cases rest with
      | nil =>
        obtain ⟨pre, x', post, b, a, hxs, hfx', hb⟩ := @ih [] hrest.symm
        rw [List.append_nil] at hfx
        refine ⟨x :: pre, x', post, b, a, by rw [hxs, List.cons_append], hfx', ?_⟩
        rw [List.flatMap_cons, List.append_assoc, ← hb, List.append_nil, hfx]
      | cons z zs =>
        obtain ⟨hyz, -⟩ := List.cons.inj hrest
        subst hyz
        exact ⟨[], x, xs, before, zs, rfl, hfx, by simp⟩

theorem takenBy_runCallsOn {v : ℕ} (rs : List Resolution) {g : ℕ}
    (hg : g < (c.entry v).numGroups) :
    (c.entry v).takenBy (c.runCallsOn v rs) g = (rs.map (Resolution.draws c v g)).sum := by
  have hstep : ∀ r ∈ rs, (c.entry v).takenBy (r.callsOn c v) g = r.draws c v g :=
    fun r _ => r.takenBy_callsOn c v hg
  rw [runCallsOn, EntryShape.takenBy_flatMap, List.map_congr_left hstep]

/-- The instances after `j` in its group, as the threshold counts them. -/
theorem threshold_eq {v g j : ℕ} (hlo : g * (c.entry v).groupSize ≤ j)
    (hhi : j < (g + 1) * (c.entry v).groupSize) :
    (c.entry v).thresholdForInstanceInGroup (j - g * (c.entry v).groupSize) =
      ((g + 1) * (c.entry v).groupSize - 1 - j) * (c.entry v).depsPerInstance := by
  have hsucc : (g + 1) * (c.entry v).groupSize = g * (c.entry v).groupSize + (c.entry v).groupSize :=
    Nat.succ_mul ..
  have hafter : (c.entry v).groupSize - (j - g * (c.entry v).groupSize) - 1 =
      (g + 1) * (c.entry v).groupSize - 1 - j := by omega
  rw [EntryShape.thresholdForInstanceInGroup, if_neg (by omega), hafter]

/-- A call that names a successor reaches every group. -/
theorem named_hits {v : ℕ} {r : Resolution} {call : DepCall} (hcall : call ∈ r.callsOn c v) {j : ℕ}
    (hj : call.specific = some j) {g : ℕ} (hg : g < (c.entry v).numGroups) :
    (c.entry v).Hits call g := by
  rw [Resolution.callsOn_eq] at hcall
  cases he : r.edgeTo c v with
  | none =>
    rw [he] at hcall
    cases hcall
  | some e =>
    rw [he] at hcall
    have h11 : (c.edge r.task.id v).hasOneToOne = true := by
      rw [← r.edgeTo_eq c v he]
      by_contra hno
      have hnone := e.calls_unaimed (Bool.eq_false_of_not_eq_true hno) _ _ call hcall
      rw [hj] at hnone
      cases hnone
    have hplain := (c.edge_plain _ _ h11).ungrouped
    rw [← r.edgeTo_eq c v he] at hplain
    exact ⟨hg, .inl (e.calls_ungrouped hplain _ _ call hcall)⟩

/-- The calls of a run release exactly the instances that its steps let go. -/
theorem releases_iff (v : ℕ) (rs : List Resolution) (j : ℕ) :
    (c.entry v).Releases (c.runCallsOn v rs) j ↔ c.LetsGo v rs j := by
  unfold EntryShape.Releases LetsGo
  by_cases hb : (c.entry v).hasBarrier = true
  · rw [if_pos hb, if_pos hb]
    constructor
    · intro h
      obtain ⟨g, hg, hj, hpos, hle⟩ := h
      rw [(c.entry v).mem_groupRange hg] at hj
      rw [takenBy_runCallsOn rs hg] at hle
      exact ⟨g, hg, hj.1, hj.2, hpos, hle⟩
    · intro h
      obtain ⟨g, hg, hlo, hhi, hpos, hle⟩ := h
      refine ⟨g, hg, ((c.entry v).mem_groupRange hg).mpr ⟨hlo, hhi⟩, hpos, ?_⟩
      rw [takenBy_runCallsOn rs hg]
      exact hle
  · rw [if_neg hb, if_neg hb]
    constructor
    · intro h
      obtain ⟨before, call, after, hsplit, hfree⟩ := h
      have hmem : call ∈ c.runCallsOn v rs := by
        rw [hsplit]
        simp
      obtain ⟨r, hr, hcall⟩ := List.mem_flatMap.mp hmem
      unfold EntryShape.Frees at hfree
      cases hspec : call.specific with
      | some i =>
        simp only [hspec] at hfree
        obtain ⟨hij, hlt, -⟩ := hfree
        subst hij
        exact .inl ⟨hlt, r, hr, (r.mem_callsOn_named c v i).mp ⟨call, hcall, hspec⟩⟩
      | none =>
        simp only [hspec] at hfree
        obtain ⟨g, hhit, hj, hle⟩ := hfree
        obtain ⟨pre, r', post, b, a, hrs, hcalls, hbefore⟩ := exists_split_flatMap _ rs hsplit
        have hg := hhit.1
        rw [(c.entry v).mem_groupRange hg] at hj
        rw [threshold_eq hj.1 hj.2] at hle
        refine .inr ⟨g, hg, hj.1, hj.2, pre, r', post, hrs, ?_, ?_⟩
        · exact (r'.mem_callsOn_unnamed c v hg).mp ⟨call, by simp [hcalls], hspec, hhit⟩
        · -- the calls up to this one are some of those of the steps up to its step
          have hpre : (c.entry v).takenBy (before ++ [call]) g ≤
              (c.entry v).takenBy (c.runCallsOn v (pre ++ [r'])) g := by
            have hrun : c.runCallsOn v (pre ++ [r']) = before ++ [call] ++ a := by
              simp [runCallsOn, hcalls, hbefore]
            rw [hrun, (c.entry v).takenBy_append (before ++ [call])]
            exact Nat.le_add_right _ _
          rw [takenBy_runCallsOn _ hg] at hpre
          omega
    · intro h
      cases h with
      | inl h =>
        obtain ⟨hlt, r, hr, hnamed⟩ := h
        obtain ⟨call, hcall, hspec⟩ := (r.mem_callsOn_named c v j).mpr hnamed
        have hmem : call ∈ c.runCallsOn v rs := List.mem_flatMap.mpr ⟨r, hr, hcall⟩
        obtain ⟨before, after, hsplit⟩ := List.append_of_mem hmem
        refine ⟨before, call, after, hsplit, ?_⟩
        unfold EntryShape.Frees
        simp only [hspec]
        exact ⟨trivial, hlt, 0, named_hits hcall hspec (c.entry v).groups_pos⟩
      | inr h =>
        obtain ⟨g, hg, hlo, hhi, pre, r, post, hrs, hcounts, hle⟩ := h
        obtain ⟨call, hcall, hnone, hhit⟩ := (r.mem_callsOn_unnamed c v hg).mpr hcounts
        have hunnamed := Resolution.callsOn_unnamed c v hcall hnone
        obtain ⟨before, last, after, hcalls, hlast, htaken⟩ :=
          (c.entry v).exists_last_hit (r.callsOn c v) ⟨call, hcall, hhit⟩
        refine ⟨c.runCallsOn v pre ++ before, last, after ++ c.runCallsOn v post, ?_, ?_⟩
        · simp [runCallsOn, hrs, hcalls]
        · have hspec := hunnamed last (by simp [hcalls])
          unfold EntryShape.Frees
          simp only [hspec]
          refine ⟨g, hlast, ((c.entry v).mem_groupRange hg).mpr ⟨hlo, hhi⟩, ?_⟩
          rw [List.append_assoc, EntryShape.takenBy_append, htaken, takenBy_runCallsOn pre hg,
            r.takenBy_callsOn c v hg, threshold_eq hlo hhi]
          simpa using hle

end Compiled

/-- On a fresh entry a run returns each instance of a node without a condition exactly once,
if and only if its steps let each of them go. -/
theorem instances_released_once {nodes : List Node} {c : Compiled} (h : BuiltFrom nodes c)
    (cfg : Config) {v : ℕ} (hv : c.isCondition v = false) (rs : List Resolution) (s : SlotState)
    (hfresh : c.deps s.cells v = EntryState.initial (c.entry v))
    (hgen : ∀ r ∈ rs, r.task.gen = s.cells.slotGen) :
    ((c.readies cfg v rs s).flatten.Perm (List.range (c.factor v))) ↔
      ∀ j < c.factor v, c.LetsGo v rs j := by
  have hreturns := EntryState.runCalls_returns (c.entry v) (c.runCallsOn v rs)
  have hlt := fun j => EntryState.runCalls_ready_lt (c.entry v) (c.runCallsOn v rs)
    (EntryState.initial (c.entry v)) (i := j)
  rw [h.run_calls cfg rs s (fun _ _ => .inl hv) hgen, Compiled.runOn, hfresh,
    List.perm_ext_iff_of_nodup hreturns.nodup List.nodup_range]
  constructor
  · intro hall j hj
    rw [← Compiled.releases_iff]
    exact (hreturns.ready j).mp ((hall j).mpr (List.mem_range.mpr hj))
  · intro hall j
    rw [List.mem_range]
    exact ⟨fun hj => hlt j hj,
      fun hj => (hreturns.ready j).mpr ((Compiled.releases_iff v rs j).mpr (hall j hj))⟩

/-- Two cells awaited by five instances in groups of two: two groups, and one instance over. -/
def leftoverBarrier : List Node :=
  [⟨false, 0, [], 2, none, false⟩,
    ⟨false, 1, [⟨.barrier, false, some ⟨0, [0, 1], none⟩⟩], 5, some 2, false⟩]

theorem builtFrom_leftoverBarrier : BuiltFrom leftoverBarrier (Compiled.ofNodes leftoverBarrier) :=
  builtFrom_ofNodes (by decide) (by decide)

/-- A slot as the builder allocates it. -/
def SlotState.fresh (c : Compiled) (total : ℕ) : SlotState :=
  ⟨LazySlot.initial c.layout, UInt64.ofNat total, 0, 0, false⟩

theorem SlotState.fresh_deps (c : Compiled) (total v : ℕ) :
    c.deps (SlotState.fresh c total).cells v = EntryState.initial (c.entry v) := by
  have hview := (LazySlot.initial_simulates c.layout).1
  simp only [Compiled.deps, SlotState.fresh, hview]
  rfl

/-- Both cells complete, one after the other. -/
def bothCells : List Resolution :=
  [.worker ⟨0, 0, 0, 0, 1, 0⟩, .worker ⟨0, 0, 0, 1, 1, 0⟩]

theorem bothCells_complete : (Compiled.ofNodes leftoverBarrier).CompletesPreds 1 bothCells := by
  refine ⟨by decide, ?_⟩
  intro p hp
  have hpreds : ((Compiled.ofNodes leftoverBarrier).nodeAt 1).predIds = [0] := by decide +kernel
  rw [hpreds, List.mem_singleton] at hp
  subst hp
  decide +kernel

theorem instances_released_once_at_leftoverBarrier :
    (((Compiled.ofNodes leftoverBarrier).readies ⟨4, true, false, false⟩ 1 bothCells
        (SlotState.fresh (Compiled.ofNodes leftoverBarrier) 7)).flatten.Perm
        (List.range ((Compiled.ofNodes leftoverBarrier).factor 1))) ↔
      ∀ j < (Compiled.ofNodes leftoverBarrier).factor 1,
        (Compiled.ofNodes leftoverBarrier).LetsGo 1 bothCells j :=
  instances_released_once builtFrom_leftoverBarrier ⟨4, true, false, false⟩ (by decide +kernel)
    bothCells (SlotState.fresh (Compiled.ofNodes leftoverBarrier) 7)
    (SlotState.fresh_deps (Compiled.ofNodes leftoverBarrier) 7 1) (by decide)

/-- The last instance is in no group and is never returned. -/
theorem instance_lost :
    ¬ ∀ nodes c, BuiltFrom nodes c → (∀ n ∈ nodes, n.Parsed) → ∀ (cfg : Config) (v : ℕ),
      v < nodes.length → c.isCondition v = false → (c.nodeAt v).predIds ≠ [] →
      ∀ (rs : List Resolution) (s : SlotState),
        c.deps s.cells v = EntryState.initial (c.entry v) →
        (∀ r ∈ rs, r.task.gen = s.cells.slotGen) → c.CompletesPreds v rs →
        (c.readies cfg v rs s).flatten.Perm (List.range (c.factor v)) := by
  intro h
  have hperm := h leftoverBarrier _ builtFrom_leftoverBarrier (by decide) ⟨4, true, false, false⟩ 1
    (by decide) (by decide +kernel) (by decide +kernel) bothCells
    (SlotState.fresh (Compiled.ofNodes leftoverBarrier) 7)
    (SlotState.fresh_deps (Compiled.ofNodes leftoverBarrier) 7 1) (by decide) bothCells_complete
  have hlength := hperm.length_eq
  revert hlength
  decide +kernel

end Tomii
