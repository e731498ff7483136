import Tomii.Runtime.ArgResolution
import Tomii.Runtime.BatchSpec

/-! # Arrivals at a node that goes out as a whole

The instances of a fanout-bulk node are held back as they become ready. When the whole factor
goes out, every instance has become ready in the run. -/
namespace Tomii
set_option autoImplicit false
set_option maxHeartbeats 250000

namespace Compiled

variable (c : Compiled) (cfg : Config)

/-- What a walk does at a node `v` that goes out as a whole: arrivals are counted at most once
for each ready instance, and tasks of `v` are made only when they come to the factor. -/
structure Arrives (v : ℕ) (s : LazySlot) (t : Trace) (s' : LazySlot) : Prop where
  le : c.arrived s' v ≤ c.arrived s v + (t.readyOf v).length
  full : ∀ task ∈ t.sched, task.id = v →
    c.edgeFactor v ≤ c.arrived s v + (t.readyOf v).length

variable {c cfg}

theorem Arrives.append {v : ℕ} {s s' s'' : LazySlot} {t t' : Trace} (h : c.Arrives v s t s')
    (h' : c.Arrives v s' t' s'') : c.Arrives v s (t.append t') s'' := by
  have hle := h.le
  have hle' := h'.le
  refine ⟨?_, fun task htask hid => ?_⟩
  · rw [Trace.readyOf_append, List.length_append]
    omega
  · rw [Trace.readyOf_append, List.length_append]
    cases List.mem_append.mp htask with
    | inl hfirst =>
      have := h.full task hfirst hid
      omega
    | inr hrest =>
      have := h'.full task hrest hid
      omega

theorem Arrives.empty (v : ℕ) (s : LazySlot) : c.Arrives v s Trace.empty s :=
  ⟨le_rfl, fun _ htask => (List.not_mem_nil htask).elim⟩

/-- An edge to another node leaves the arrivals of `v` alone. -/
theorem Arrives.other {v : ℕ} {s s' : LazySlot} {t : Trace}
    (hsame : c.arrived s' v = c.arrived s v) (hids : ∀ task ∈ t.sched, task.id ≠ v) :
    c.Arrives v s t s' := by
  refine ⟨?_, fun task htask hid => absurd hid (hids task htask)⟩
  rw [hsame]
  exact Nat.le_add_right _ _

/-! ## One edge -/

theorem arriveFanout_arrives (ni : NodeInfo) {p v : ℕ} {ready : List ℕ} {s s' : LazySlot}
    (hsame : c.arrived s' v = c.arrived s v) :
    c.Arrives v s ⟨ready.map fun r => (v, r), (arriveFanout cfg ni (c.edge p v) ready s').1⟩
      (arriveFanout cfg ni (c.edge p v) ready s').2 := by
  have hready : (Trace.mk (ready.map fun r => (v, r))
      (arriveFanout cfg ni (c.edge p v) ready s').1).readyOf v = ready := by
    rw [Trace.readyOf_marked, if_pos rfl]
  refine ⟨?_, fun task htask hid => ?_⟩
  · rw [hready, arriveFanout, edge_succId, arrived_fanoutBulkIncrement, if_pos rfl, hsame]
    have := Nat.mod_le ready.length (2 ^ 32)
    omega
  · rw [hready, ← hsame]
    have hnew : (s'.fanoutBulkIncrement (c.edge p v).succId ready.length).1 =
        c.arrived s' v + ready.length := rfl
    simp only [arriveFanout, hnew] at htask
    split at htask
    · next hfull => exact hfull
    · cases htask

theorem workerEdge_arrives (ni : NodeInfo) {w v : ℕ} (hw : w < c.graph.nodes.length)
    (hwhole : c.goesOutWhole cfg v = true) (s : LazySlot) :
    c.Arrives v s (c.workerEdge cfg ni (c.edge ni.id w) s).1
      (c.workerEdge cfg ni (c.edge ni.id w) s).2 := by
  have hkeeps := (decrementEdge_effect (e := c.edge ni.id w) hw ni.index ni.bulkCount s).2.2.2 v
  by_cases hv : w = v
  · subst hv
    simp only [workerEdge, fanoutBulkEligible_edge, hwhole, Bool.true_and, edge_succId]
    split
    · exact arriveFanout_arrives ni hkeeps
    · next hnone =>
      rw [Bool.not_eq_true', Bool.not_eq_false, List.isEmpty_iff] at hnone
      rw [hnone]
      refine ⟨?_, fun task htask => (List.not_mem_nil htask).elim⟩
      rw [hkeeps]
      exact Nat.le_add_right _ _
  · refine Arrives.other ?_ fun task htask => ?_
    · simp only [workerEdge]
      split
      · rw [arriveFanout, edge_succId, arrived_fanoutBulkIncrement, if_neg fun heq => hv heq.symm]
        exact hkeeps
      · exact hkeeps
    · rw [(follows_workerEdge ni hw s task htask).id]
      exact hv

theorem dispatchEach_arrived (eval : NodeInfo → Bool) (tasks : List NodeInfo) (s : SlotState)
    (v : ℕ) : c.arrived (c.dispatchEach eval tasks s).2.cells v = c.arrived s.cells v := by
  induction tasks generalizing s with
  | nil => rfl
  | cons task tasks ih =>
    have hfirst : c.arrived (c.dispatchConditionSuccessor eval task s).2.cells v =
        c.arrived s.cells v := by
      simp only [dispatchConditionSuccessor]
      split
      · exact arrived_of_fields rfl rfl v
      · have hfan : ((s.cells.increment c.layout task.id (some task.index)).2.resetSent c.layout
            task.id task.index).fanoutBulkArrived = s.cells.fanoutBulkArrived := by
          simp only [LazySlot.resetSent, LazySlot.increment]
          split <;> rfl
        refine arrived_of_fields ?_ hfan v
        exact ((deps_resetSent _ _ v _).1).trans (deps_increment _ _ v _).1
    simp only [dispatchEach]
    rw [ih, hfirst]

theorem batchEdge_arrives (eval : NodeInfo → Bool) (ni : NodeInfo) {w v : ℕ}
    (hw : w < c.graph.nodes.length) (hwhole : c.goesOutWhole cfg v = true) (s : SlotState) :
    c.Arrives v s.cells (c.batchEdge cfg eval ni (c.edge ni.id w) s).1
      (c.batchEdge cfg eval ni (c.edge ni.id w) s).2.cells := by
  have hkeeps := (decrementEdge_effect (e := c.edge ni.id w) hw ni.index ni.bulkCount s.cells).2.2.2 v
  have hcond : c.isCondition v = false := by
    unfold goesOutWhole isFanoutBulk at hwhole
    simp only [Bool.and_eq_true, Bool.not_eq_true'] at hwhole
    exact hwhole.1.1.1.1.1.2
  by_cases hv : w = v
  · subst hv
    simp only [batchEdge, edge_hasCondition, hcond, Bool.false_and, Bool.false_eq_true, if_false,
      Bool.not_false, Bool.true_and, fanoutBulkEligible_edge, hwhole, edge_succId]
    split
    · exact Arrives.empty w s.cells
    · split
      · exact arriveFanout_arrives ni hkeeps
      · next hnone =>
        rw [Bool.not_eq_true', Bool.not_eq_false, List.isEmpty_iff] at hnone
        rw [hnone]
        refine ⟨?_, fun task htask => (List.not_mem_nil htask).elim⟩
        rw [hkeeps]
        exact Nat.le_add_right _ _
  · refine Arrives.other ?_ fun task htask => ?_
    · unfold batchEdge
      split
      · rfl
      · split
        · rfl
        · dsimp only
          split
          · rw [arriveFanout, edge_succId, arrived_fanoutBulkIncrement,
              if_neg fun heq => hv heq.symm]
            exact hkeeps
          · split
            · rw [dispatchEach_arrived]
              exact hkeeps
            · exact hkeeps
    · rw [(follows_batchEdge eval ni hw s task htask).id]
      exact hv

/-! ## Steps and runs -/

theorem workerWalk_arrives (ni : NodeInfo) {v : ℕ} (hwhole : c.goesOutWhole cfg v = true)
    (ws : List ℕ) (hws : ∀ w ∈ ws, w < c.graph.nodes.length) (s : LazySlot) :
    c.Arrives v s (c.workerWalk cfg ni (ws.map (c.edge ni.id)) s).1
      (c.workerWalk cfg ni (ws.map (c.edge ni.id)) s).2 := by
  induction ws generalizing s with
  | nil => exact Arrives.empty v s
  | cons w ws ih =>
    have hfirst : c.Arrives v s (c.workerEdge cfg ni (c.edge ni.id w) s).1
        (c.workerEdge cfg ni (c.edge ni.id w) s).2 :=
      workerEdge_arrives ni (hws w List.mem_cons_self) hwhole s
    exact hfirst.append (ih (fun u hu => hws u (List.mem_cons_of_mem _ hu)) _)

theorem batchWalk_arrives (eval : NodeInfo → Bool) (ni : NodeInfo) {v : ℕ}
    (hwhole : c.goesOutWhole cfg v = true) (ws : List ℕ)
    (hws : ∀ w ∈ ws, w < c.graph.nodes.length) (s : SlotState) :
    c.Arrives v s.cells (c.batchWalk cfg eval ni (ws.map (c.edge ni.id)) s).1
      (c.batchWalk cfg eval ni (ws.map (c.edge ni.id)) s).2.cells := by
  induction ws generalizing s with
  | nil => exact Arrives.empty v s.cells
  | cons w ws ih =>
    have hfirst := batchEdge_arrives eval ni (hws w List.mem_cons_self) hwhole s
    exact hfirst.append (ih (fun u hu => hws u (List.mem_cons_of_mem _ hu)) _)

end Compiled

section Whole

variable {nodes : List Node} {c : Compiled} (h : BuiltFrom nodes c) (cfg : Config) {v : ℕ}
  (hwhole : c.goesOutWhole cfg v = true)

include h hwhole

/-- A step counts the instances that it makes ready, and hands out tasks of `v` only when all of
the factor has been counted. -/
theorem BuiltFrom.resolve_arrives (r : Resolution) {s : SlotState}
    (hgen : r.task.gen = s.cells.slotGen) :
    c.arrived (c.resolve cfg r s).2.cells v ≤ c.arrived s.cells v + (c.returned cfg r s v).length ∧
      ∀ task ∈ c.handedOut cfg r s, task.id = v →
        c.edgeFactor v ≤ c.arrived s.cells v + (c.returned cfg r s v).length := by
  cases r with
  | worker ni =>
    have hsame : s.cells.slotGen = ni.gen := hgen.symm
    have harr := Compiled.workerWalk_arrives ni hwhole (c.graph.successors ni.id) h.successors_lt
      s.cells
    rw [c.returned_worker cfg hsame]
    refine ⟨?_, fun task htask hid => ?_⟩
    · simp only [Compiled.resolve, Compiled.workerResolveSuccessors]
      rw [if_neg (not_not_intro hsame)]
      simp only [Compiled.retire_cells]
      exact harr.le
    · obtain ⟨-, t, ht, gen, heq⟩ := Compiled.handedOut_worker htask
      exact harr.full t ht (by rw [← heq] at hid; exact hid)
  | batch eval ni =>
    have harr := Compiled.batchWalk_arrives eval ni hwhole (c.graph.successors ni.id)
      h.successors_lt (c.retire ni s)
    rw [c.retire_cells] at harr
    exact ⟨harr.le, harr.full⟩

theorem BuiltFrom.run_arrives (rs : List Resolution) (s : SlotState)
    (hgen : ∀ r ∈ rs, r.task.gen = s.cells.slotGen) :
    c.arrived (runOps (c.resolve cfg) rs s).2.cells v ≤
      c.arrived s.cells v + (c.readies cfg v rs s).flatten.length := by
  induction rs generalizing s with
  | nil => exact le_rfl
  | cons r rs ih =>
    have hstep := (h.resolve_arrives cfg hwhole r (hgen r List.mem_cons_self)).1
    have hsame : (c.resolve cfg r s).2.cells.generation = s.cells.generation := by
      have hone := h.run_generation cfg [r] s fun r' hr' => by
        rw [List.mem_singleton.mp hr']
        exact hgen r List.mem_cons_self
      rwa [runOps_cons, runOps_nil] at hone
    have hrest := ih (c.resolve cfg r s).2 fun r' hr' => by
      rw [LazySlot.slotGen, hsame]
      exact hgen r' (List.mem_cons_of_mem _ hr')
    have hfirst : (Trace.readyOf ⟨(c.resolve cfg r s).1, []⟩ v).length =
        (c.returned cfg r s v).length := rfl
    simp only [Compiled.readies, runOps_cons, List.map_cons, List.flatten_cons,
      List.length_append] at hrest ⊢
    omega

end Whole

end Tomii
