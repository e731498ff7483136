import Tomii.Runtime.Resolve
import Tomii.Runtime.LazyRefinement
import Tomii.Runtime.CallTotals

/-! # What a walk does to the entries

A path over the edges of a completed node makes a list of calls on each successor's entry.
`Walks` is that statement: for every node, its calls, and nothing else, explain the new entry
and the instances recorded as ready. -/
namespace Tomii
set_option autoImplicit false
set_option maxHeartbeats 250000

namespace Trace

/-- The instances of `v` recorded as ready. -/
def readyOf (t : Trace) (v : ℕ) : List ℕ := (t.ready.filter (·.1 = v)).map (·.2)

@[simp] theorem readyOf_empty (v : ℕ) : Trace.empty.readyOf v = [] := rfl

theorem readyOf_append (a b : Trace) (v : ℕ) :
    (a.append b).readyOf v = a.readyOf v ++ b.readyOf v := by
  simp [readyOf, append]

theorem readyOf_marked (v succ : ℕ) (ready : List ℕ) (sched : List NodeInfo) :
    (Trace.mk (ready.map fun r => (succ, r)) sched).readyOf v = if v = succ then ready else [] := by
  unfold readyOf
  by_cases h : v = succ
  · subst h
    simp [List.filter_map, Function.comp_def]
  · have h' : ¬ succ = v := fun heq => h heq.symm
    simp [List.filter_map, Function.comp_def, h, h']

end Trace

namespace Compiled

variable (c : Compiled)

/-- The entries of a slot as plain counters. -/
def deps (s : LazySlot) (v : ℕ) : EntryState := (s.view c.layout).deps v

/-- A node's calls on its entry in the slot. -/
def runOn (v : ℕ) (cs : List DepCall) (s : LazySlot) : List ℕ × EntryState :=
  runCalls (EntryState.call (c.entry v)) cs (c.deps s v)

/-- `calls v` is what happened to the entry of `v`, for each `v`. -/
structure Walks (calls : ℕ → List DepCall) (s : LazySlot) (t : Trace) (s' : LazySlot) : Prop where
  generation : s'.generation = s.generation
  deps : ∀ v, c.deps s' v = (c.runOn v (calls v) s).2
  ready : ∀ v, t.readyOf v = (c.runOn v (calls v) s).1

variable {c}

theorem Walks.refl (s : LazySlot) : c.Walks (fun _ => []) s Trace.empty s :=
  ⟨rfl, fun _ => rfl, fun _ => rfl⟩

theorem Walks.append {calls calls' : ℕ → List DepCall} {s s' s'' : LazySlot} {t t' : Trace}
    (h : c.Walks calls s t s') (h' : c.Walks calls' s' t' s'') :
    c.Walks (fun v => calls v ++ calls' v) s (t.append t') s'' := by
  have hrun : ∀ v, c.runOn v (calls' v) s' =
      runCalls (EntryState.call (c.entry v)) (calls' v) (c.runOn v (calls v) s).2 := by
    intro v
    rw [runOn, h.deps]
  refine ⟨h'.generation.trans h.generation, fun v => ?_, fun v => ?_⟩
  · rw [h'.deps, hrun, runOn, runOn, runCalls_append]
  · rw [Trace.readyOf_append, h.ready, h'.ready, hrun, runOn, runOn, runCalls_append]

theorem Walks.congr {calls calls' : ℕ → List DepCall} {s s' : LazySlot} {t : Trace}
    (h : c.Walks calls s t s') (heq : ∀ v, calls v = calls' v) : c.Walks calls' s t s' := by
  have : calls = calls' := funext heq
  exact this ▸ h

theorem deps_of_generation {s s' : LazySlot} (hgen : s'.generation = s.generation)
    (hdeps : s'.deps = s.deps) (v : ℕ) : c.deps s' v = c.deps s v := by
  simp only [Compiled.deps, LazySlot.view, LazySlot.slotGen, hgen, hdeps]

/-! ## One edge -/

theorem decrease_deps {v : ℕ} (hv : v < c.graph.nodes.length) (call : DepCall) (s : LazySlot) :
    (s.decrease c.layout v call).1 = (EntryState.call (c.entry v) call (c.deps s v)).1 ∧
      (s.decrease c.layout v call).2.generation = s.generation ∧
      ∀ w, c.deps (s.decrease c.layout v call).2 w =
        if w = v then (EntryState.call (c.entry v) call (c.deps s v)).2 else c.deps s w := by
  have hlt : v < c.layout.numNodes := hv
  obtain ⟨hready, hview⟩ := EntryCells.view_decreaseAndGetReadyInto (c.entry v) s.slotGen
    call.group call.count call.specific (s.deps v)
  simp only [LazySlot.decrease, if_pos hlt]
  refine ⟨hready, rfl, fun w => ?_⟩
  simp only [Compiled.deps, LazySlot.view_setDeps, EagerSlot.setDeps]
  by_cases hw : w = v
  · subst hw
    rw [if_pos rfl, Function.update_self]
    exact hview
  · rw [if_neg hw, Function.update_of_ne hw]

theorem runCalls_deps {v : ℕ} (hv : v < c.graph.nodes.length) (cs : List DepCall) (s : LazySlot) :
    (runCalls (LazySlot.decrease c.layout v) cs s).1 = (c.runOn v cs s).1 ∧
      (runCalls (LazySlot.decrease c.layout v) cs s).2.generation = s.generation ∧
      ∀ w, c.deps (runCalls (LazySlot.decrease c.layout v) cs s).2 w =
        if w = v then (c.runOn v cs s).2 else c.deps s w := by
  induction cs generalizing s with
  | nil =>
    refine ⟨rfl, rfl, fun w => ?_⟩
    by_cases hw : w = v
    · subst hw
      rw [if_pos rfl]
      rfl
    · rw [if_neg hw]
      rfl
  | cons call cs ih =>
    obtain ⟨h1, hg1, hd1⟩ := decrease_deps hv call s
    obtain ⟨h2, hg2, hd2⟩ := ih (s.decrease c.layout v call).2
    have hself := hd1 v
    rw [if_pos rfl] at hself
    simp only [runCalls_cons, runOn] at h2 hd2 ⊢
    rw [hself] at h2
    refine ⟨by rw [h1, h2], hg2.trans hg1, fun w => ?_⟩
    rw [hd2, hself]
    by_cases hw : w = v
    · rw [if_pos hw, if_pos hw]
    · rw [if_neg hw, if_neg hw, hd1, if_neg hw]

/-- The calls of one edge, as a family over the nodes. -/
def callsTo (e : SuccEdge) (cs : List DepCall) (v : ℕ) : List DepCall := if v = e.succId then cs else []

theorem walks_edge {e : SuccEdge} (he : e.succId < c.graph.nodes.length) (i n : ℕ)
    (s s' : LazySlot) (sched : List NodeInfo)
    (hgen : s'.generation = (c.decrementEdge e i n s).2.generation)
    (hdeps : s'.deps = (c.decrementEdge e i n s).2.deps) :
    c.Walks (callsTo e (e.calls i n)) s
      ⟨(c.decrementEdge e i n s).1.map fun r => (e.succId, r), sched⟩ s' := by
  obtain ⟨hready, hg, hd⟩ := runCalls_deps he (e.calls i n) s
  refine ⟨hgen.trans hg, fun v => ?_, fun v => ?_⟩
  · rw [deps_of_generation hgen hdeps]
    refine (hd v).trans ?_
    unfold callsTo
    by_cases hv : v = e.succId
    · subst hv
      rw [if_pos rfl, if_pos rfl]
    · rw [if_neg hv, if_neg hv]
      rfl
  · rw [Trace.readyOf_marked]
    unfold callsTo
    by_cases hv : v = e.succId
    · subst hv
      rw [if_pos rfl, if_pos rfl]
      exact hready
    · rw [if_neg hv, if_neg hv]
      rfl

theorem workerEdge_walks (cfg : Config) (ni : NodeInfo) {e : SuccEdge}
    (he : e.succId < c.graph.nodes.length) (s : LazySlot) :
    c.Walks (callsTo e (e.calls ni.index ni.bulkCount)) s (c.workerEdge cfg ni e s).1
      (c.workerEdge cfg ni e s).2 := by
  simp only [workerEdge]
  split
  · exact walks_edge he ni.index ni.bulkCount s _ _ rfl rfl
  · exact walks_edge he ni.index ni.bulkCount s _ _ rfl rfl

/-- The calls a list of edges makes on `v`. -/
def callsOver (f : SuccEdge → List DepCall) (es : List SuccEdge) (v : ℕ) : List DepCall :=
  (es.filter (·.succId = v)).flatMap f

theorem callsOver_cons (f : SuccEdge → List DepCall) (e : SuccEdge) (es : List SuccEdge) (v : ℕ) :
    callsOver f (e :: es) v = callsTo e (f e) v ++ callsOver f es v := by
  unfold callsOver callsTo
  by_cases hv : e.succId = v
  · rw [if_pos hv.symm, List.filter_cons_of_pos (by simpa using hv), List.flatMap_cons]
  · rw [if_neg fun h => hv h.symm, List.filter_cons_of_neg (by simpa using hv), List.nil_append]

theorem workerWalk_walks (cfg : Config) (ni : NodeInfo) (es : List SuccEdge)
    (hes : ∀ e ∈ es, e.succId < c.graph.nodes.length) (s : LazySlot) :
    c.Walks (callsOver (·.calls ni.index ni.bulkCount) es) s (c.workerWalk cfg ni es s).1
      (c.workerWalk cfg ni es s).2 := by
  induction es generalizing s with
  | nil => exact Walks.refl s
  | cons e es ih =>
    have h := (workerEdge_walks cfg ni (hes e List.mem_cons_self) s).append
      (ih (fun e' he' => hes e' (List.mem_cons_of_mem _ he')) (c.workerEdge cfg ni e s).2)
    exact h.congr fun v => (callsOver_cons (·.calls ni.index ni.bulkCount) e es v).symm

/-! ## The batch walk without conditions -/

/-- The calls that the batch path makes along an edge: none when the start is filtered out. -/
def batchCalls (i n : ℕ) (e : SuccEdge) : List DepCall := if e.passesFilter i then e.calls i n else []

theorem batchEdge_walks (cfg : Config) (eval : NodeInfo → Bool) (ni : NodeInfo) {e : SuccEdge}
    (he : e.succId < c.graph.nodes.length) (hcond : e.hasCondition = false) (s : SlotState) :
    c.Walks (callsTo e (batchCalls ni.index ni.bulkCount e)) s.cells
        (c.batchEdge cfg eval ni e s).1 (c.batchEdge cfg eval ni e s).2.cells ∧
      (c.batchEdge cfg eval ni e s).2.pendingTasks = s.pendingTasks ∧
      (c.batchEdge cfg eval ni e s).2.pendingCondTasks = s.pendingCondTasks := by
  by_cases hpass : e.passesFilter ni.index = true
  · simp only [batchEdge, batchCalls, hpass, hcond, Bool.not_true, Bool.false_eq_true, if_false,
      Bool.false_and, Bool.not_false, Bool.true_and, if_true]
    split
    · exact ⟨walks_edge he ni.index ni.bulkCount s.cells _ _ rfl rfl, rfl, rfl⟩
    · exact ⟨walks_edge he ni.index ni.bulkCount s.cells _ _ rfl rfl, rfl, rfl⟩
  · have hfail : e.passesFilter ni.index = false := Bool.eq_false_iff.mpr hpass
    simp only [batchEdge, batchCalls, hfail, Bool.not_false, if_true, Bool.false_eq_true, if_false]
    refine ⟨(Walks.refl s.cells).congr fun v => ?_, trivial, trivial⟩
    unfold callsTo
    split <;> rfl

theorem batchWalk_walks (cfg : Config) (eval : NodeInfo → Bool) (ni : NodeInfo)
    (es : List SuccEdge) (hes : ∀ e ∈ es, e.succId < c.graph.nodes.length)
    (hcond : ∀ e ∈ es, e.hasCondition = false) (s : SlotState) :
    c.Walks (callsOver (batchCalls ni.index ni.bulkCount) es) s.cells
        (c.batchWalk cfg eval ni es s).1 (c.batchWalk cfg eval ni es s).2.cells ∧
      (c.batchWalk cfg eval ni es s).2.pendingTasks = s.pendingTasks ∧
      (c.batchWalk cfg eval ni es s).2.pendingCondTasks = s.pendingCondTasks := by
  induction es generalizing s with
  | nil => exact ⟨Walks.refl s.cells, rfl, rfl⟩
  | cons e es ih =>
    obtain ⟨h1, hp1, hc1⟩ := batchEdge_walks cfg eval ni (hes e List.mem_cons_self)
      (hcond e List.mem_cons_self) s
    obtain ⟨h2, hp2, hc2⟩ := ih (fun e' he' => hes e' (List.mem_cons_of_mem _ he'))
      (fun e' he' => hcond e' (List.mem_cons_of_mem _ he')) (c.batchEdge cfg eval ni e s).2
    refine ⟨(h1.append h2).congr fun v => (callsOver_cons _ e es v).symm, ?_, ?_⟩
    · exact hp2.trans hp1
    · exact hc2.trans hc1

end Compiled

/-! ## Slots with given entries -/

/-- Words of generation `gen` that read as `x`. -/
def EntryCells.ofState (gen : UInt32) (x : EntryState) : EntryCells where
  remainingDeps := fun g => genPack gen (asU32 (x.remaining g))
  instancesSent := fun i => genPack gen (if x.sent i then 1 else 0)

theorem EntryCells.view_ofState (sh : EntryShape) (gen : UInt32) {x : EntryState} (hx : x.Fits) :
    (EntryCells.ofState gen x).view sh gen = x := by
  ext i
  · simp only [view, ofState, genRead_genPack]
    exact asU32_toNat_of_lt (hx i)
  · simp only [view, ofState, genRead_genPack]
    cases x.sent i <;> simp

/-- A slot of generation `gen` in which every node has entry `x`. -/
def LazySlot.ofEntries (gen : UInt32) (x : EntryState) : LazySlot where
  generation := gen.toUInt64
  deps := fun _ => EntryCells.ofState gen x
  condInstancesToSpawn := fun _ => 0
  fanoutBulkArrived := fun _ => 0

theorem LazySlot.ofEntries_slotGen (gen : UInt32) (x : EntryState) :
    (LazySlot.ofEntries gen x).slotGen = gen := by
  simp [slotGen, ofEntries, lowHalf]

theorem Compiled.deps_ofEntries (c : Compiled) (gen : UInt32) {x : EntryState} (hx : x.Fits)
    (v : ℕ) : c.deps (LazySlot.ofEntries gen x) v = x := by
  simp only [deps, LazySlot.view, LazySlot.ofEntries_slotGen]
  exact EntryCells.view_ofState _ gen hx

theorem Compiled.deps_fits (c : Compiled) (s : LazySlot) (v : ℕ) : (c.deps s v).Fits := by
  intro g
  exact UInt32.toNat_lt _

end Tomii
