import Tomii.Runtime.CountingRouting
import Tomii.Runtime.ReleaseRuns
import Mathlib.Data.List.Perm.Subperm

/-! # Ways past a predecessor instance

Which instances of a node can be made ready in some order of completions, whole or in chunks,
while a given predecessor instance is still missing. -/
namespace Tomii
set_option autoImplicit false
set_option maxHeartbeats 250000

namespace Compiled

variable (c : Compiled)

/-! ## Runs and their cells -/

/-- The instances that a list of steps completes. -/
def completedCells (rs : List Resolution) : List (ℕ × ℕ) :=
  rs.flatMap fun r => r.task.instances.map (r.task.id, ·)

/-- The instances of the predecessors of `v`. -/
def predCells (v : ℕ) : List (ℕ × ℕ) :=
  (c.nodeAt v).predIds.flatMap fun p => (List.range (c.factor p)).map (p, ·)

/-- Completions in chunks of one generation, no instance of a predecessor of `v` twice. -/
structure PredRun (v : ℕ) (rs : List Resolution) : Prop where
  chunks : ∀ r ∈ rs, 0 < r.task.bulkCount
  once : ((completedCells rs).filter fun x => x.1 ∈ (c.nodeAt v).predIds).Nodup
  exist : ∀ x ∈ completedCells rs, x.1 ∈ (c.nodeAt v).predIds → x.2 < c.factor x.1

/-! ## Ways past an instance -/

/-- A completion of `x` decrements group `g` of `v`. -/
def drawsOn (v g : ℕ) (x : ℕ × ℕ) : Bool :=
  (c.edge x.1 v).passesFilter x.2 &&
    ((c.edge x.1 v).predGroup x.2 = none || (c.edge x.1 v).predGroup x.2 = some g)

/-- Decrements that group `g` receives from every instance but `x`. -/
def drawnWithout (v g : ℕ) (x : ℕ × ℕ) : ℕ :=
  (c.predCells v).countP fun y => y ≠ x && c.drawsOn v g y

/-- Group `g` may be decremented for `y` while `x` is missing: for `y` alone, or, on an edge without
a window, in a chunk up to `y` that starts with an instance which falls to `g`. -/
def reachesGroup (v g : ℕ) (x y : ℕ × ℕ) : Bool :=
  c.drawsOn v g y || ((c.edge y.1 v).filterBounds.isNone &&
    (List.range y.2).any fun k => c.drawsOn v g (y.1, k) &&
      (List.range' k (y.2 - k)).all fun m => decide ((y.1, m) ≠ x))

/-- The most decrements that group `g` receives in chunks without `x`. -/
def reachedWithout (v g : ℕ) (x : ℕ × ℕ) : ℕ :=
  (c.predCells v).countP fun y => y ≠ x && c.reachesGroup v g x y

/-- Some instance other than `x` names `j` on a 1:1 edge. -/
def NamedWithout (v j : ℕ) (x : ℕ × ℕ) : Prop :=
  j < c.factor v ∧ ∃ y ∈ c.predCells v, y ≠ x ∧ (c.edge y.1 v).passesFilter y.2 = true ∧
    (c.edge y.1 v).oneToOneSuccIdx y.2 = some j

/-- Instances other than `x` can complete so that their call on group `g` names no instance:
one on an edge that is not 1:1, or two in a row on an unfiltered edge. -/
def CountsWithout (v g : ℕ) (x : ℕ × ℕ) : Prop :=
  ∃ y ∈ c.predCells v, y ≠ x ∧ c.drawsOn v g y = true ∧
    ((c.edge y.1 v).hasOneToOne = false ∨
      (c.edge y.1 v).filterBounds = none ∧ (y.1, y.2 + 1) ∈ c.predCells v ∧ (y.1, y.2 + 1) ≠ x)

/-- `j` can be released while `x` is missing. -/
def Bypasses (v j : ℕ) (x : ℕ × ℕ) : Prop :=
  if (c.entry v).hasBarrier then
    ∃ g < (c.entry v).numGroups, j ∈ (c.entry v).groupRange g ∧
      0 < (c.entry v).depsPerGroup.toNat ∧
      (c.entry v).depsPerGroup.toNat ≤ c.reachedWithout v g x
  else
    c.NamedWithout v j x ∨
      ∃ g < (c.entry v).numGroups, j ∈ (c.entry v).groupRange g ∧ c.CountsWithout v g x ∧
        (c.entry v).depsPerGroup.toNat ≤ c.drawnWithout v g x +
          (c.entry v).thresholdForInstanceInGroup (j - g * (c.entry v).groupSize)

/-! ## What a run draws -/

variable {c}

theorem Bypasses.lt {v j : ℕ} {x : ℕ × ℕ} (h : c.Bypasses v j x) :
    j < c.factor v := by
  unfold Bypasses at h
  split at h
  · obtain ⟨g, -, hj, -⟩ := h
    exact (c.entry v).groupRange_lt_factor hj
  · cases h with
    | inl hnamed => exact hnamed.1
    | inr hcounted =>
      obtain ⟨g, -, hj, -⟩ := hcounted
      exact (c.entry v).groupRange_lt_factor hj

theorem edge_ungrouped {v : ℕ} (hbar : (c.nodeAt v).hasBarrier = false) (p : ℕ) :
    (c.edge p v).groupBy = noGroup := by
  have hnone : c.graph.groupedBarrier (c.nodeAt v) p = none := by
    unfold Graph.groupedBarrier
    rw [List.findSome?_eq_none_iff]
    intro q hq
    have harg := ((c.nodeAt v).mem_argsOnPred.mp hq).1
    rw [Node.hasBarrier, Bool.or_eq_false_iff, List.any_eq_false] at hbar
    rw [if_neg (hbar.1 q.1 harg)]
  have hroute := c.route_groupBy (c.nodeAt v) p
  rw [hnone] at hroute
  simp [edge, SuccEdge.ofRoute, hroute]

theorem pred_exists {nodes : List Node} (h : BuiltFrom nodes c) {v p : ℕ} (hv : v < nodes.length)
    (hpred : p ∈ (c.nodeAt v).predIds) : p < c.graph.nodes.length := by
  rw [h.nodes_eq]
  rw [h.nodeAt_eq hv] at hpred
  exact h.preds_exist _ (List.getElem_mem hv) p hpred

theorem mem_predCells {v : ℕ} {x : ℕ × ℕ} :
    x ∈ c.predCells v ↔ x.1 ∈ (c.nodeAt v).predIds ∧ x.2 < c.factor x.1 := by
  obtain ⟨p, i⟩ := x
  simp only [predCells, List.mem_flatMap, List.mem_map, List.mem_range, Prod.mk.injEq]
  constructor
  · intro ⟨p', hp', i', hi', hpp, hii⟩
    subst hpp hii
    exact ⟨hp', hi'⟩
  · intro ⟨hp, hi⟩
    exact ⟨p, hp, i, hi, rfl, rfl⟩

theorem predCells_nodup (v : ℕ) : (c.predCells v).Nodup := by
  rw [predCells, List.nodup_flatMap]
  refine ⟨fun p _ => ?_, ?_⟩
  · exact List.nodup_range.map fun a b hab => (Prod.mk.inj hab).2
  · refine (c.nodeAt v).predIds_nodup.imp fun {p q} hpq => ?_
    intro x hx hy
    obtain ⟨i, -, hi⟩ := List.mem_map.mp hx
    obtain ⟨k, -, hk⟩ := List.mem_map.mp hy
    rw [← hk] at hi
    exact hpq (Prod.mk.inj hi).1

theorem completedCells_append (rs rs' : List Resolution) :
    completedCells (rs ++ rs') = completedCells rs ++ completedCells rs' := by
  simp [completedCells]

theorem PredRun.before {v : ℕ} {rs rs' : List Resolution} (h : c.PredRun v (rs ++ rs')) :
    c.PredRun v rs := by
  obtain ⟨hchunks, honce, hexist⟩ := h
  rw [completedCells_append] at honce hexist
  rw [List.filter_append] at honce
  exact ⟨fun r hr => hchunks r (List.mem_append_left _ hr), (List.nodup_append.mp honce).1,
    fun x hx => hexist x (List.mem_append_left _ hx)⟩

theorem takenBy_single (p v k : ℕ) {g : ℕ} (hg : g < (c.entry v).numGroups) :
    (c.entry v).takenBy ((c.edge p v).calls k 1) g = if c.drawsOn v g (p, k) then 1 else 0 := by
  rw [(c.edge p v).calls_single]
  simp only [drawsOn, Bool.and_eq_true, Bool.or_eq_true, decide_eq_true_eq]
  by_cases hpass : (c.edge p v).passesFilter k = true
  · rw [if_pos hpass, EntryShape.takenBy_cons, EntryShape.takenBy_nil, Nat.add_zero,
      EntryShape.taken_cellCall _ _ _ hg]
    simp only [hpass, true_and]
  · simp [hpass]

theorem takenBy_singles_eq (p v : ℕ) (ks : List ℕ) {g : ℕ} (hg : g < (c.entry v).numGroups) :
    (c.entry v).takenBy (ks.flatMap fun k => (c.edge p v).calls k 1) g =
      (ks.map (p, ·)).countP (c.drawsOn v g) := by
  induction ks with
  | nil => rfl
  | cons k ks ih =>
    rw [List.flatMap_cons, EntryShape.takenBy_append, ih, takenBy_single p v k hg, List.map_cons,
      List.countP_cons]
    omega

/-- Without a group, a chunk takes off a group no more than its cells draw. -/
theorem takenBy_calls_le {p v : ℕ} (hungrouped : (c.edge p v).groupBy = noGroup) (i : ℕ) {n : ℕ}
    (hn : 0 < n) {g : ℕ} (hg : g < (c.entry v).numGroups) :
    (c.entry v).takenBy ((c.edge p v).calls i n) g ≤
      ((List.range' i n).map (p, ·)).countP (c.drawsOn v g) := by
  cases hb : (c.edge p v).filterBounds with
  | some b => rw [(c.edge p v).calls_filtered hb i n hn, takenBy_singles_eq p v _ hg]
  | none =>
    have hgroup : ∀ k, (c.edge p v).predGroup k = none := fun k => if_pos hungrouped
    have hall : ((List.range' i n).map (p, ·)).countP (c.drawsOn v g) = n := by
      rw [List.countP_eq_length.mpr, List.length_map, List.length_range']
      intro x hx
      obtain ⟨k, -, hk⟩ := List.mem_map.mp hx
      subst hk
      simp [drawsOn, (c.edge p v).passesFilter_of_none hb, hgroup]
    have htaken : (c.entry v).takenBy ((c.edge p v).calls i n) g ≤ n := by
      simp only [SuccEdge.calls, hb]
      generalize (if 1 < n then none else (c.edge p v).oneToOneSuccIdx i) = specific
      rw [EntryShape.takenBy_cons, EntryShape.takenBy_nil, EntryShape.taken, Nat.add_zero]
      have := Nat.mod_le n (2 ^ 32)
      split
      · exact this
      · exact Nat.zero_le _
    omega

theorem reachesGroup_iff {v g : ℕ} {x y : ℕ × ℕ} : c.reachesGroup v g x y = true ↔
    c.drawsOn v g y = true ∨ (c.edge y.1 v).filterBounds = none ∧
      ∃ k < y.2, c.drawsOn v g (y.1, k) = true ∧ ∀ m, k ≤ m → m < y.2 → (y.1, m) ≠ x := by
  simp only [reachesGroup, Bool.or_eq_true, Bool.and_eq_true, Option.isNone_iff_eq_none,
    List.any_eq_true, List.mem_range, List.all_eq_true, List.mem_range'_1, decide_eq_true_eq]
  refine or_congr_right (and_congr_right' (exists_congr fun k => and_congr_right fun hk =>
    and_congr_right' ⟨fun hall m hkm hm => hall m ⟨hkm, ?_⟩, fun hall m hm => hall m hm.1 ?_⟩))
  · omega
  · omega

/-- What an edge without a window takes for a chunk goes by the group of the first instance. -/
theorem takenBy_open {p v : ℕ} (hb : (c.edge p v).filterBounds = none) (i n : ℕ) {g : ℕ}
    (hg : g < (c.entry v).numGroups) : (c.entry v).takenBy ((c.edge p v).calls i n) g =
      if c.drawsOn v g (p, i) = true then n % 2 ^ 32 else 0 := by
  simp only [SuccEdge.calls, hb]
  generalize (if 1 < n then none else (c.edge p v).oneToOneSuccIdx i) = specific
  rw [EntryShape.takenBy_cons, EntryShape.takenBy_nil, EntryShape.taken, Nat.add_zero]
  refine if_congr ?_ rfl rfl
  simp [EntryShape.Hits, hg, drawsOn, (c.edge p v).passesFilter_of_none hb]

/-- A chunk without `x` takes off a group no more than the cells of it that reach the group. -/
theorem takenBy_calls_le_reached {p v : ℕ} {x : ℕ × ℕ} (i : ℕ) {n : ℕ} (hn : 0 < n)
    (hmiss : ∀ k ∈ List.range' i n, (p, k) ≠ x) {g : ℕ} (hg : g < (c.entry v).numGroups) :
    (c.entry v).takenBy ((c.edge p v).calls i n) g ≤
      ((List.range' i n).map (p, ·)).countP (c.reachesGroup v g x) := by
  cases hb : (c.edge p v).filterBounds with
  | some b =>
    rw [(c.edge p v).calls_filtered hb i n hn, takenBy_singles_eq p v _ hg]
    exact List.countP_mono_left fun y _ hdraw => reachesGroup_iff.mpr (.inl hdraw)
  | none =>
    rw [takenBy_open hb i n hg]
    split
    · next hdraw =>
      have hall : ((List.range' i n).map (p, ·)).countP (c.reachesGroup v g x) = n := by
        rw [List.countP_eq_length.mpr, List.length_map, List.length_range']
        intro y hy
        obtain ⟨k, hk, hky⟩ := List.mem_map.mp hy
        subst hky
        rw [List.mem_range'_1] at hk
        refine reachesGroup_iff.mpr ?_
        by_cases hstart : k = i
        · rw [hstart]
          exact .inl hdraw
        · refine .inr ⟨hb, i, by omega, hdraw, fun m him hmk => hmiss m ?_⟩
          rw [List.mem_range'_1]
          omega
      rw [hall]
      exact Nat.mod_le _ _
    · exact Nat.zero_le _

theorem takenBy_callsOn_le {nodes : List Node} (h : BuiltFrom nodes c) {v g : ℕ} {r : Resolution}
    {f : ℕ × ℕ → Bool} (hcalls : r.task.id ∈ (c.nodeAt v).predIds →
      (c.entry v).takenBy ((c.edge r.task.id v).calls r.task.index r.task.bulkCount) g ≤
        (r.task.instances.map (r.task.id, ·)).countP f) :
    (c.entry v).takenBy (r.callsOn c v) g ≤
      (r.task.instances.map (r.task.id, ·)).countP
        fun x => x.1 ∈ (c.nodeAt v).predIds && f x := by
  by_cases hv : v ∈ c.graph.successors r.task.id
  · have hp := (h.mem_successors.mp hv).2
    have hcount : (r.task.instances.map (r.task.id, ·)).countP
        (fun x => x.1 ∈ (c.nodeAt v).predIds && f x) =
        (r.task.instances.map (r.task.id, ·)).countP f := by
      apply List.countP_congr
      intro x hx
      obtain ⟨k, -, hk⟩ := List.mem_map.mp hx
      subst hk
      simp [hp]
    have hle := hcalls hp
    rw [hcount]
    cases r with
    | worker ni =>
      simp only [Resolution.callsOn, Resolution.task] at hv hle ⊢
      rw [if_pos hv]
      exact hle
    | batch eval ni =>
      simp only [Resolution.callsOn, Resolution.task] at hv hle ⊢
      rw [if_pos hv, batchCalls]
      split
      · exact hle
      · exact Nat.zero_le _
  · cases r <;> simp only [Resolution.callsOn, Resolution.task] at hv ⊢ <;> rw [if_neg hv] <;>
      exact Nat.zero_le _

theorem takenBy_run_le {nodes : List Node} (h : BuiltFrom nodes c) {v g : ℕ} {f : ℕ × ℕ → Bool}
    (rs : List Resolution) (hcalls : ∀ r ∈ rs, r.task.id ∈ (c.nodeAt v).predIds →
      (c.entry v).takenBy ((c.edge r.task.id v).calls r.task.index r.task.bulkCount) g ≤
        (r.task.instances.map (r.task.id, ·)).countP f) :
    (c.entry v).takenBy (c.runCallsOn v rs) g ≤
      (completedCells rs).countP fun x => x.1 ∈ (c.nodeAt v).predIds && f x := by
  induction rs with
  | nil => exact Nat.zero_le _
  | cons r rs ih =>
    have hfirst := takenBy_callsOn_le h (hcalls r List.mem_cons_self)
    have hrest := ih fun r' hr' => hcalls r' (List.mem_cons_of_mem _ hr')
    simp only [runCallsOn, completedCells, List.flatMap_cons, EntryShape.takenBy_append,
      List.countP_append] at hrest ⊢
    omega

/-- The cells of a run are instances of the predecessors, each once. -/
theorem PredRun.countP_le {v : ℕ} {rs : List Resolution} (hrun : c.PredRun v rs)
    (f : ℕ × ℕ → Bool) :
    ((completedCells rs).countP fun y => y.1 ∈ (c.nodeAt v).predIds && f y) ≤
      (c.predCells v).countP f := by
  have hsub : ((completedCells rs).filter fun y => y.1 ∈ (c.nodeAt v).predIds) ⊆ c.predCells v := by
    intro y hy
    obtain ⟨hmem, hpred⟩ := List.mem_filter.mp hy
    have hpred' := of_decide_eq_true hpred
    exact mem_predCells.mpr ⟨hpred', hrun.exist y hmem hpred'⟩
  have hcount : ((completedCells rs).countP fun y => y.1 ∈ (c.nodeAt v).predIds && f y) =
      ((completedCells rs).filter fun y => y.1 ∈ (c.nodeAt v).predIds).countP f := by
    rw [List.countP_filter]
    apply List.countP_congr
    intro y _
    simp [and_comm]
  rw [hcount]
  exact (List.subperm_of_subset hrun.once hsub).countP_le f

/-- A run that misses `x` takes off no more than the other instances with the property `f`, if that
bounds each of its chunks. -/
theorem PredRun.takenBy_le {nodes : List Node} (h : BuiltFrom nodes c) {v : ℕ}
    {rs : List Resolution} (hrun : c.PredRun v rs) {x : ℕ × ℕ} (hx : x ∉ completedCells rs) {g : ℕ}
    {f : ℕ × ℕ → Bool} (hcalls : ∀ r ∈ rs, r.task.id ∈ (c.nodeAt v).predIds →
      (c.entry v).takenBy ((c.edge r.task.id v).calls r.task.index r.task.bulkCount) g ≤
        (r.task.instances.map (r.task.id, ·)).countP f) :
    (c.entry v).takenBy (c.runCallsOn v rs) g ≤
      (c.predCells v).countP fun y => y ≠ x && f y := by
  refine le_trans (takenBy_run_le h rs hcalls) (le_trans (Nat.le_of_eq ?_)
    (hrun.countP_le fun y => y ≠ x && f y))
  apply List.countP_congr
  intro y hy
  have hne : y ≠ x := fun heq => hx (heq ▸ hy)
  simp [hne]

theorem mem_completedCells {rs : List Resolution} {r : Resolution} (hr : r ∈ rs) {i : ℕ}
    (hi : i ∈ r.task.instances) : (r.task.id, i) ∈ completedCells rs :=
  List.mem_flatMap.mpr ⟨r, hr, List.mem_map.mpr ⟨i, hi, rfl⟩⟩

/-! ## Missing cells are not released -/

/-- A call of a chunk comes from one of its cells; it names no instance only where the edge is
not 1:1, or where the next cell is in the chunk as well. -/
structure FromCell (p v : ℕ) (cells : List ℕ) (call : DepCall) (k : ℕ) : Prop where
  mem : k ∈ cells
  passes : (c.edge p v).passesFilter k = true
  group : call.group = (c.edge p v).predGroup k
  named : ∀ j, call.specific = some j → (c.edge p v).oneToOneSuccIdx k = some j
  unnamed : call.specific = none → (c.edge p v).hasOneToOne = false ∨
    (c.edge p v).filterBounds = none ∧ k + 1 ∈ cells

theorem fromCell_cellCall {p v k : ℕ} {cells : List ℕ} (hk : k ∈ cells)
    (hpass : (c.edge p v).passesFilter k = true) :
    FromCell (c := c) p v cells ((c.edge p v).cellCall k) k := by
  refine ⟨hk, hpass, rfl, fun j hj => hj, fun hnone => .inl ?_⟩
  simp only [SuccEdge.cellCall, SuccEdge.oneToOneSuccIdx] at hnone
  split at hnone
  · cases hnone
  · next h => exact Bool.eq_false_of_not_eq_true h

theorem exists_fromCell {p v i n : ℕ} (hn : 0 < n) {call : DepCall}
    (hcall : call ∈ (c.edge p v).calls i n) :
    ∃ k, FromCell (c := c) p v (List.range' i n) call k := by
  have hstart : i ∈ List.range' i n := List.mem_range'_1.mpr (by omega)
  cases hb : (c.edge p v).filterBounds with
  | some b =>
    rw [(c.edge p v).calls_filtered hb i n hn] at hcall
    obtain ⟨k, hk, hck⟩ := List.mem_flatMap.mp hcall
    rw [(c.edge p v).calls_single] at hck
    split at hck
    · next hpass =>
      rw [List.mem_singleton.mp hck]
      exact ⟨k, fromCell_cellCall hk hpass⟩
    · cases hck
  | none =>
    have hpass := (c.edge p v).passesFilter_of_none hb i
    by_cases hmany : 1 < n
    · rw [(c.edge p v).calls_unfiltered hb i n hmany] at hcall
      rw [List.mem_singleton.mp hcall]
      refine ⟨i, hstart, hpass, rfl, fun _ hj => (nomatch hj), fun _ => .inr ⟨hb, ?_⟩⟩
      exact List.mem_range'_1.mpr (by omega)
    · have hone : n = 1 := by omega
      subst hone
      rw [(c.edge p v).calls_single, if_pos hpass] at hcall
      rw [List.mem_singleton.mp hcall]
      exact ⟨i, fromCell_cellCall hstart hpass⟩

theorem exists_fromCell_of_run {nodes : List Node} (h : BuiltFrom nodes c) {v : ℕ}
    {rs : List Resolution} (hrun : c.PredRun v rs) {call : DepCall}
    (hcall : call ∈ c.runCallsOn v rs) :
    ∃ p ∈ (c.nodeAt v).predIds, ∃ cells k, FromCell (c := c) p v cells call k ∧
      ∀ i ∈ cells, (p, i) ∈ completedCells rs := by
  obtain ⟨r, hr, hmem⟩ := List.mem_flatMap.mp hcall
  have hn := hrun.chunks r hr
  have hstep : v ∈ c.graph.successors r.task.id ∧
      call ∈ (c.edge r.task.id v).calls r.task.index r.task.bulkCount := by
    cases r with
    | worker ni =>
      simp only [Resolution.callsOn] at hmem
      split at hmem
      · next hv => exact ⟨hv, hmem⟩
      · cases hmem
    | batch eval ni =>
      simp only [Resolution.callsOn, batchCalls] at hmem
      split at hmem
      · next hv =>
        split at hmem
        · exact ⟨hv, hmem⟩
        · cases hmem
      · cases hmem
  obtain ⟨k, hk⟩ := exists_fromCell hn hstep.2
  refine ⟨r.task.id, (h.mem_successors.mp hstep.1).2, _, k, hk, fun i hi => ?_⟩
  exact List.mem_flatMap.mpr ⟨r, hr, List.mem_map.mpr ⟨i, hi, rfl⟩⟩

/-- A run that misses `x` and releases `j` found a way past `x`. -/
theorem bypasses_of_releases {nodes : List Node} (h : BuiltFrom nodes c) {v : ℕ}
    {rs : List Resolution} (hrun : c.PredRun v rs) {x : ℕ × ℕ}
    (hx : x ∉ completedCells rs) {j : ℕ} (hrel : (c.entry v).Releases (c.runCallsOn v rs) j) :
    c.Bypasses v j x := by
  have hmem : ∀ p ∈ (c.nodeAt v).predIds, ∀ i, (p, i) ∈ completedCells rs →
      (p, i) ∈ c.predCells v ∧ (p, i) ≠ x := fun p hp i hi =>
    ⟨mem_predCells.mpr ⟨hp, hrun.exist _ hi hp⟩, fun heq => hx (heq ▸ hi)⟩
  unfold EntryShape.Releases at hrel
  unfold Bypasses
  split
  · next hb =>
    rw [if_pos hb] at hrel
    obtain ⟨g, hg, hj, hpos, hle⟩ := hrel
    refine ⟨g, hg, hj, hpos, le_trans hle (hrun.takenBy_le h hx fun r hr _ => ?_)⟩
    exact takenBy_calls_le_reached _ (hrun.chunks r hr)
      (fun k hk heq => hx (by rw [← heq]; exact mem_completedCells hr hk)) hg
  · next hb =>
    rw [if_neg hb] at hrel
    obtain ⟨before, call, after, hcalls, hfree⟩ := hrel
    have hcall : call ∈ c.runCallsOn v rs := by
      rw [hcalls]
      exact List.mem_append_right _ List.mem_cons_self
    obtain ⟨p, hp, cells, k, hk, hcells⟩ := exists_fromCell_of_run h hrun hcall
    obtain ⟨hpred, hne⟩ := hmem p hp k (hcells k hk.mem)
    unfold EntryShape.Frees at hfree
    cases hspec : call.specific with
    | some i =>
      simp only [hspec] at hfree
      obtain ⟨hij, hlt, -⟩ := hfree
      subst hij
      exact .inl ⟨hlt, (p, k), hpred, hne, hk.passes, hk.named _ hspec⟩
    | none =>
      simp only [hspec] at hfree
      obtain ⟨g, hg, hj, hle⟩ := hfree
      refine .inr ⟨g, hg.1, hj, ⟨(p, k), hpred, hne, ?_, ?_⟩, ?_⟩
      · have hgroup := hg.2
        rw [hk.group] at hgroup
        simp only [drawsOn, hk.passes, Bool.true_and, Bool.or_eq_true, decide_eq_true_eq]
        exact hgroup
      · refine (hk.unnamed hspec).imp_right fun hnext => ⟨hnext.1, ?_⟩
        exact hmem p hp (k + 1) (hcells _ hnext.2)
      · have hbar := Bool.eq_false_of_not_eq_true hb
        have htotal : (c.entry v).takenBy (c.runCallsOn v rs) g ≤ c.drawnWithout v g x :=
          hrun.takenBy_le h hx fun r hr _ =>
            takenBy_calls_le (edge_ungrouped hbar _) _ (hrun.chunks r hr) hg.1
        have hsplit : c.runCallsOn v rs = (before ++ [call]) ++ after := by simp [hcalls]
        rw [hsplit, EntryShape.takenBy_append] at htotal
        omega

/-! ## Steps release what their calls release -/

end Compiled

/-- What a step of a run makes ready, the calls up to and including that step release; what
conditions take back does not matter. -/
theorem BuiltFrom.ready_released {nodes : List Node} {c : Compiled} (h : BuiltFrom nodes c)
    (cfg : Config) {v : ℕ} (cs : List DepCall) (rs : List Resolution) (s : SlotState)
    (habove : EntryState.Above (c.entry v) cs (c.deps s.cells v))
    (hgen : ∀ r ∈ rs, r.task.gen = s.cells.slotGen) :
    ∀ pre r post, rs = pre ++ r :: post →
      ∀ j ∈ Trace.readyOf ⟨(c.resolve cfg r (runOps (c.resolve cfg) pre s).2).1, []⟩ v,
        (c.entry v).Releases (cs ++ c.runCallsOn v (pre ++ [r])) j := by
  induction rs generalizing cs s with
  | nil =>
    intro pre r post heq
    have hlen := congrArg List.length heq
    simp at hlen
  | cons r₀ rs ih =>
    have hstep := h.resolve_touches cfg r₀ (hgen r₀ List.mem_cons_self) v
    -- the first step: what it returns is released, and the bound survives it
    obtain ⟨hsame, hfirst, hnext⟩ :
        (c.resolve cfg r₀ s).2.cells.generation = s.cells.generation ∧
          (∀ j ∈ Trace.readyOf ⟨(c.resolve cfg r₀ s).1, []⟩ v,
            (c.entry v).Releases (cs ++ r₀.callsOn c v) j) ∧
          EntryState.Above (c.entry v) (cs ++ r₀.callsOn c v)
            (c.deps (c.resolve cfg r₀ s).2.cells v) := by
      cases hstep with
      | inl ht =>
        obtain ⟨hafter, hrel⟩ := habove.run (c.entry v) (r₀.callsOn c v)
        have hready := ht.ready_eq
        rw [Compiled.runOn] at hready
        refine ⟨ht.generation, fun j hj => hrel j (hready ▸ hj), ?_⟩
        cases ht.raised with
        | inl heq =>
          rw [heq]
          exact hafter
        | inr hraise =>
          obtain ⟨j, hj⟩ := List.exists_mem_of_ne_nil _ hraise.1
          exact hafter.raise (c.entry v) hraise.2.remaining (hrel j (hready ▸ hj))
      | inr hskip =>
        refine ⟨hskip.2.generation, fun j hj => ?_, ?_⟩
        · rw [hskip.2.ready_eq] at hj
          cases hj
        · rw [hskip.2.deps]
          exact habove.append (c.entry v) _
    intro pre r post heq j hj
    cases pre with
    | nil =>
      obtain ⟨hr, -⟩ := List.cons.inj heq
      subst hr
      simp only [runOps_nil] at hj
      simpa [Compiled.runCallsOn] using hfirst j hj
    | cons r₁ pre =>
      obtain ⟨hr, hrest⟩ := List.cons.inj heq
      subst hr
      have := ih (cs ++ r₀.callsOn c v) (c.resolve cfg r₀ s).2 hnext (fun r' hr' => by
        rw [LazySlot.slotGen, hsame]
        exact hgen r' (List.mem_cons_of_mem _ hr')) pre r post hrest j hj
      simpa [Compiled.runCallsOn] using this

/-! ## A way past is taken in some order -/

namespace Compiled

variable {c : Compiled}

/-- The instances `ys` completing one at a time. -/
def singleSteps (gen : UInt32) (ys : List (ℕ × ℕ)) : List Resolution :=
  ys.map fun y => .worker ⟨y.1, gen, 0, y.2, 1, 0⟩

theorem completedCells_singleSteps (gen : UInt32) (ys : List (ℕ × ℕ)) :
    completedCells (singleSteps gen ys) = ys := by
  induction ys with
  | nil => rfl
  | cons y ys ih =>
    simp only [singleSteps, completedCells, List.map_cons, List.flatMap_cons] at ih ⊢
    rw [ih]
    rfl

theorem runCallsOn_singleSteps {nodes : List Node} (h : BuiltFrom nodes c) {v : ℕ}
    (hv : v < nodes.length) (gen : UInt32) {ys : List (ℕ × ℕ)} (hys : ys ⊆ c.predCells v) :
    c.runCallsOn v (singleSteps gen ys) = ys.flatMap fun y => (c.edge y.1 v).calls y.2 1 := by
  simp only [runCallsOn, singleSteps, List.flatMap_map]
  apply List.flatMap_congr
  intro y hy
  exact if_pos (h.mem_successors.mpr ⟨hv, (mem_predCells.mp (hys hy)).1⟩)

theorem takenBy_singleSteps {nodes : List Node} (h : BuiltFrom nodes c) {v : ℕ}
    (hv : v < nodes.length) (gen : UInt32) {ys : List (ℕ × ℕ)} (hys : ys ⊆ c.predCells v) {g : ℕ}
    (hg : g < (c.entry v).numGroups) :
    (c.entry v).takenBy (c.runCallsOn v (singleSteps gen ys)) g = ys.countP (c.drawsOn v g) := by
  rw [runCallsOn_singleSteps h hv gen hys]
  clear hys
  induction ys with
  | nil => rfl
  | cons y ys ih =>
    obtain ⟨p, k⟩ := y
    rw [List.flatMap_cons, EntryShape.takenBy_append, ih, takenBy_single p v k hg,
      List.countP_cons]
    omega

/-- All instances but those in `xs`. -/
def cellsWithout (c : Compiled) (v : ℕ) (xs : List (ℕ × ℕ)) : List (ℕ × ℕ) :=
  (c.predCells v).filter (· ∉ xs)

theorem cellsWithout_subset (v : ℕ) (xs : List (ℕ × ℕ)) : c.cellsWithout v xs ⊆ c.predCells v :=
  fun _ hx => List.mem_of_mem_filter hx

theorem not_mem_cellsWithout {v : ℕ} {x : ℕ × ℕ} {xs : List (ℕ × ℕ)} (hx : x ∈ xs) :
    x ∉ c.cellsWithout v xs :=
  fun hmem => of_decide_eq_true (List.mem_filter.mp hmem).2 hx

theorem drawnWithout_eq (v g : ℕ) (x : ℕ × ℕ) (ys : List (ℕ × ℕ)) (hnd : ys.Nodup)
    (hys : ys ⊆ c.predCells v) (hx : x ∉ ys) :
    c.drawnWithout v g x =
      (c.cellsWithout v (x :: ys)).countP (c.drawsOn v g) + ys.countP (c.drawsOn v g) := by
  have hperm : ((c.predCells v).filter (· ≠ x)).Perm (c.cellsWithout v (x :: ys) ++ ys) := by
    rw [List.perm_ext_iff_of_nodup ((predCells_nodup v).filter _)]
    · intro y
      simp only [cellsWithout, List.mem_append, List.mem_filter, decide_eq_true_eq, List.mem_cons,
        not_or]
      constructor
      · intro ⟨hmem, hne⟩
        by_cases hy : y ∈ ys
        · exact .inr hy
        · exact .inl ⟨hmem, hne, hy⟩
      · intro hor
        cases hor with
        | inl hleft => exact ⟨hleft.1, hleft.2.1⟩
        | inr hy => exact ⟨hys hy, fun heq => hx (heq ▸ hy)⟩
    · rw [List.nodup_append]
      refine ⟨(predCells_nodup v).filter _, hnd, ?_⟩
      intro a ha b hb hab
      subst hab
      have hout := of_decide_eq_true (List.mem_filter.mp ha).2
      exact hout (List.mem_cons_of_mem _ hb)
  rw [← List.countP_append, ← hperm.countP_eq, List.countP_filter, drawnWithout]
  apply List.countP_congr
  intro y _
  simp [and_comm]

theorem cellsWithout_nodup (v : ℕ) (xs ys : List (ℕ × ℕ)) (hnd : ys.Nodup) (hys : ys ⊆ xs) :
    (c.cellsWithout v xs ++ ys).Nodup := by
  rw [List.nodup_append]
  refine ⟨(predCells_nodup v).filter _, hnd, ?_⟩
  intro a ha b hb hab
  subst hab
  exact of_decide_eq_true (List.mem_filter.mp ha).2 (hys hb)

/-- Steps that complete distinct instances of the predecessors. -/
theorem predRun_of_cells {v : ℕ} {rs : List Resolution} (hchunks : ∀ r ∈ rs, 0 < r.task.bulkCount)
    (hnd : (completedCells rs).Nodup) (hcells : completedCells rs ⊆ c.predCells v) :
    c.PredRun v rs :=
  ⟨hchunks, hnd.filter _, fun _ hx _ => (mem_predCells.mp (hcells hx)).2⟩

theorem singleSteps_chunks (gen : UInt32) (ys : List (ℕ × ℕ)) :
    ∀ r ∈ singleSteps gen ys, 0 < r.task.bulkCount := by
  intro r hr
  obtain ⟨y, -, hy⟩ := List.mem_map.mp hr
  subst hy
  exact Nat.one_pos

/-- A run of the worker path, over distinct instances of the predecessors without `x`. -/
structure Evades (c : Compiled) (v : ℕ) (gen : UInt32) (x : ℕ × ℕ) (rs : List Resolution) :
    Prop where
  run : c.PredRun v rs
  worker : ∀ r ∈ rs, ∃ ni, r = .worker ni
  gen : ∀ r ∈ rs, r.task.gen = gen
  misses : x ∉ completedCells rs
  /-- The batch path would make the same calls. -/
  alike : ∀ r ∈ rs, ∀ eval, (Resolution.batch eval r.task).callsOn c v = r.callsOn c v

/-- One instance, or a chunk on an edge without a window, makes the same calls on both paths. -/
theorem callsOn_alike (v : ℕ) {ni : NodeInfo}
    (hstart : ni.bulkCount = 1 ∨ (c.edge ni.id v).filterBounds = none) (eval : NodeInfo → Bool) :
    (Resolution.batch eval ni).callsOn c v = (Resolution.worker ni).callsOn c v := by
  simp only [Resolution.callsOn]
  split
  · cases hstart with
    | inl hone => rw [hone, (c.edge ni.id v).batchCalls_single]
    | inr hopen => rw [batchCalls, if_pos ((c.edge ni.id v).passesFilter_of_none hopen _)]
  · rfl

theorem evades_singleSteps {v : ℕ} (gen : UInt32) {x : ℕ × ℕ} {ys : List (ℕ × ℕ)}
    (hnd : ys.Nodup) (hys : ys ⊆ c.predCells v) (hx : x ∉ ys) :
    c.Evades v gen x (singleSteps gen ys) := by
  refine ⟨predRun_of_cells (singleSteps_chunks gen ys) ?_ ?_, fun r hr => ?_, fun r hr => ?_, ?_,
    fun r hr => ?_⟩
  · rwa [completedCells_singleSteps]
  · rwa [completedCells_singleSteps]
  · obtain ⟨y, -, hy⟩ := List.mem_map.mp hr
    exact ⟨_, hy.symm⟩
  · obtain ⟨y, -, hy⟩ := List.mem_map.mp hr
    subst hy
    rfl
  · rwa [completedCells_singleSteps]
  · obtain ⟨y, -, hy⟩ := List.mem_map.mp hr
    subst hy
    exact callsOn_alike v (.inl rfl)

/-- A chunk on an edge without a window, or a single instance. -/
theorem evades_chunk {v : ℕ} (gen : UInt32) {x : ℕ × ℕ} {p k n : ℕ} (hn : 0 < n)
    (hstart : n = 1 ∨ (c.edge p v).filterBounds = none)
    (hcells : ∀ m ∈ List.range' k n, (p, m) ∈ c.predCells v ∧ (p, m) ≠ x) :
    c.Evades v gen x [.worker ⟨p, gen, 0, k, n, 0⟩] := by
  have hall : completedCells [.worker ⟨p, gen, 0, k, n, 0⟩] = (List.range' k n).map (p, ·) :=
    List.flatMap_singleton ..
  refine ⟨predRun_of_cells ?_ ?_ ?_, ?_, ?_, ?_, ?_⟩
  · exact List.forall_mem_singleton.mpr hn
  · rw [hall]
    exact (List.nodup_range' ..).map fun a b hab => (Prod.mk.inj hab).2
  · rw [hall]
    intro y hy
    obtain ⟨m, hm, hmy⟩ := List.mem_map.mp hy
    exact hmy ▸ (hcells m hm).1
  · exact List.forall_mem_singleton.mpr ⟨_, rfl⟩
  · exact List.forall_mem_singleton.mpr rfl
  · rw [hall]
    intro hx
    obtain ⟨m, hm, hmx⟩ := List.mem_map.mp hx
    exact (hcells m hm).2 hmx
  · exact List.forall_mem_singleton.mpr (callsOn_alike v hstart)

theorem evades_nil (v : ℕ) (gen : UInt32) (x : ℕ × ℕ) : c.Evades v gen x [] :=
  evades_singleSteps gen List.nodup_nil (List.nil_subset _) List.not_mem_nil

theorem Evades.append {v : ℕ} {gen : UInt32} {x : ℕ × ℕ} {rs rs' : List Resolution}
    (hfirst : c.Evades v gen x rs) (hsecond : c.Evades v gen x rs')
    (hapart : ∀ y ∈ completedCells rs, y ∉ completedCells rs') : c.Evades v gen x (rs ++ rs') := by
  refine ⟨⟨fun r hr => ?_, ?_, fun y hy => ?_⟩, fun r hr => ?_, fun r hr => ?_, ?_, fun r hr => ?_⟩
  · exact (List.mem_append.mp hr).elim (hfirst.run.chunks r) (hsecond.run.chunks r)
  · rw [completedCells_append, List.filter_append, List.nodup_append]
    refine ⟨hfirst.run.once, hsecond.run.once, fun a ha b hb hab => ?_⟩
    subst hab
    exact hapart a (List.mem_of_mem_filter ha) (List.mem_of_mem_filter hb)
  · rw [completedCells_append] at hy
    exact (List.mem_append.mp hy).elim (hfirst.run.exist y) (hsecond.run.exist y)
  · exact (List.mem_append.mp hr).elim (hfirst.worker r) (hsecond.worker r)
  · exact (List.mem_append.mp hr).elim (hfirst.gen r) (hsecond.gen r)
  · rw [completedCells_append, List.mem_append, not_or]
    exact ⟨hfirst.misses, hsecond.misses⟩
  · exact (List.mem_append.mp hr).elim (hfirst.alike r) (hsecond.alike r)

theorem countP_below_le (f : ℕ × ℕ → Bool) (p : ℕ) {k b : ℕ} (hk : k ≤ b) :
    ((List.range b).map (p, ·)).countP f ≤ ((List.range k).map (p, ·)).countP f + (b - k) := by
  have hsplit : List.range b = List.range k ++ List.range' k (b - k) := by
    have happend := List.range'_append_1 (s := 0) (m := k) (n := b - k)
    rw [Nat.zero_add, Nat.add_sub_cancel' hk] at happend
    rw [List.range_eq_range', List.range_eq_range', happend]
  rw [hsplit, List.map_append, List.countP_append]
  refine Nat.add_le_add_left (List.countP_le_length.trans ?_) _
  rw [List.length_map, List.length_range']

theorem drawsOn_hits {v g : ℕ} {y : ℕ × ℕ} (hdraw : c.drawsOn v g y = true)
    (hg : g < (c.entry v).numGroups) {call : DepCall}
    (hgroup : call.group = (c.edge y.1 v).predGroup y.2) : (c.entry v).Hits call g := by
  simp only [drawsOn, Bool.and_eq_true, Bool.or_eq_true, decide_eq_true_eq] at hdraw
  refine ⟨hg, ?_⟩
  rw [hgroup]
  exact hdraw.2

section Evading

variable {nodes : List Node} (h : BuiltFrom nodes c) {v : ℕ} (hv : v < nodes.length) (gen : UInt32)
  {x : ℕ × ℕ} {j : ℕ}

include h hv

theorem runCallsOn_chunk {p k n : ℕ} (hp : p ∈ (c.nodeAt v).predIds) :
    c.runCallsOn v [.worker ⟨p, gen, 0, k, n, 0⟩] = (c.edge p v).calls k n := by
  rw [runCallsOn, List.flatMap_singleton]
  exact if_pos (h.mem_successors.mpr ⟨hv, hp⟩)

/-- A chunk after a run that stays below it. -/
theorem evade_then {p k n : ℕ} (hp : p ∈ (c.nodeAt v).predIds) {rs : List Resolution}
    (hevades : c.Evades v gen x rs) (hbelow : ∀ y ∈ completedCells rs, y.1 = p ∧ y.2 < k)
    (hn : 0 < n) (hfits : k + n ≤ c.factor p)
    (hstart : n = 1 ∨ (c.edge p v).filterBounds = none)
    (hmiss : ∀ m, k ≤ m → m < k + n → (p, m) ≠ x) (g : ℕ) :
    ∃ rs', c.Evades v gen x rs' ∧ (∀ y ∈ completedCells rs', y.1 = p ∧ y.2 < k + n) ∧
      (c.entry v).takenBy (c.runCallsOn v rs') g = (c.entry v).takenBy (c.runCallsOn v rs) g +
        (c.entry v).takenBy ((c.edge p v).calls k n) g := by
  have hcells : ∀ y ∈ completedCells [.worker ⟨p, gen, 0, k, n, 0⟩], ∃ m ∈ List.range' k n,
      (p, m) = y := by
    intro y hy
    rw [completedCells, List.flatMap_singleton] at hy
    exact List.mem_map.mp hy
  have hchunk := evades_chunk (c := c) (x := x) gen hn hstart fun m hm => by
    rw [List.mem_range'_1] at hm
    exact ⟨mem_predCells.mpr ⟨hp, hm.2.trans_le hfits⟩, hmiss m hm.1 hm.2⟩
  refine ⟨rs ++ [.worker ⟨p, gen, 0, k, n, 0⟩], hevades.append hchunk ?_, ?_, ?_⟩
  · intro y hy hin
    obtain ⟨m, hm, hmy⟩ := hcells y hin
    have hlt := (hbelow y hy).2
    rw [← hmy] at hlt
    exact absurd (List.mem_range'_1.mp hm).1 (Nat.not_le.mpr hlt)
  · intro y hy
    rw [completedCells_append] at hy
    cases List.mem_append.mp hy with
    | inl hy => exact ⟨(hbelow y hy).1, by have := (hbelow y hy).2; omega⟩
    | inr hy =>
      obtain ⟨m, hm, hmy⟩ := hcells y hy
      rw [← hmy]
      exact ⟨rfl, (List.mem_range'_1.mp hm).2⟩
  · rw [← runCallsOn_chunk h hv gen hp, ← EntryShape.takenBy_append, runCallsOn, runCallsOn,
      runCallsOn, List.flatMap_append]

/-- The instances of `p` below `b` can take off a group as many decrements as reach it, as far as a
counter can hold them. -/
theorem exists_reaching_steps {p : ℕ} (hp : p ∈ (c.nodeAt v).predIds) {g : ℕ}
    (hg : g < (c.entry v).numGroups) (b : ℕ) (hb : b ≤ c.factor p) :
    ∃ rs, c.Evades v gen x rs ∧ (∀ y ∈ completedCells rs, y.1 = p ∧ y.2 < b) ∧
      min (2 ^ 32 - 1) (((List.range b).map (p, ·)).countP
        fun y => y ≠ x && c.reachesGroup v g x y) ≤ (c.entry v).takenBy (c.runCallsOn v rs) g := by
  induction b using Nat.strong_induction_on with
  | _ b ih =>
    cases b with
    | zero => exact ⟨[], evades_nil v gen x, fun y hy => (List.not_mem_nil hy).elim, Nat.zero_le _⟩
    | succ b =>
      by_cases hlast : (p, b) ≠ x ∧ c.reachesGroup v g x (p, b) = true
      · obtain ⟨hne, hreach⟩ := hlast
        cases reachesGroup_iff.mp hreach with
        | inl hdraw =>
          obtain ⟨rs, hevades, hbelow, htaken⟩ := ih b (Nat.lt_succ_self b) (by omega)
          obtain ⟨rs', hevades', hbelow', htaken'⟩ := evade_then h hv gen hp hevades hbelow
            Nat.one_pos hb (.inl rfl) (fun m hbm hmb => by
              have hm : m = b := by omega
              exact hm ▸ hne) g
          refine ⟨rs', hevades', hbelow', ?_⟩
          rw [htaken', takenBy_single p v b hg, if_pos hdraw]
          have hcount := countP_below_le (fun y => y ≠ x && c.reachesGroup v g x y) p
            (k := b) (b := b + 1) (Nat.le_succ b)
          omega
        | inr hchunk =>
          obtain ⟨hopen, k, hk, hdraw, hfree⟩ := hchunk
          -- a chunk from `k` on, cut where it would wrap around
          obtain ⟨rs, hevades, hbelow, htaken⟩ := ih k (by omega) (by omega)
          have hwhole : ∀ m, k ≤ m → m < k + min (b + 1 - k) (2 ^ 32 - 1) → (p, m) ≠ x := by
            intro m hkm hmb
            by_cases hm : m = b
            · exact hm ▸ hne
            · exact hfree m hkm (by dsimp only; omega)
          obtain ⟨rs', hevades', hbelow', htaken'⟩ := evade_then h hv gen hp hevades hbelow
            (n := min (b + 1 - k) (2 ^ 32 - 1)) (by dsimp only at hk; omega) (by omega)
            (.inr hopen) hwhole g
          refine ⟨rs', hevades', fun y hy => ⟨(hbelow' y hy).1, ?_⟩, ?_⟩
          · have := (hbelow' y hy).2
            dsimp only at hk
            omega
          · rw [htaken', takenBy_open hopen k _ hg, if_pos hdraw]
            have hcount := countP_below_le (fun y => y ≠ x && c.reachesGroup v g x y) p
              (k := k) (b := b + 1) (by dsimp only at hk; omega)
            omega
      · obtain ⟨rs, hevades, hbelow, htaken⟩ := ih b (Nat.lt_succ_self b) (by omega)
        refine ⟨rs, hevades, fun y hy => ⟨(hbelow y hy).1, Nat.lt_succ_of_lt (hbelow y hy).2⟩, ?_⟩
        have hnone : (decide ((p, b) ≠ x) && c.reachesGroup v g x (p, b)) = false := by
          rw [← Bool.not_eq_true, Bool.and_eq_true, decide_eq_true_eq]
          exact hlast
        rw [List.range_succ, List.map_append, List.countP_append, List.map_singleton,
          List.countP_singleton, hnone]
        exact htaken

/-- The instances of several predecessors, one predecessor after the other. -/
theorem exists_reaching_run {g : ℕ} (hg : g < (c.entry v).numGroups) (ps : List ℕ)
    (hps : ps ⊆ (c.nodeAt v).predIds) (hnd : ps.Nodup) :
    ∃ rs, c.Evades v gen x rs ∧ (∀ y ∈ completedCells rs, y.1 ∈ ps) ∧
      min (2 ^ 32 - 1) ((ps.flatMap fun p => (List.range (c.factor p)).map (p, ·)).countP
        fun y => y ≠ x && c.reachesGroup v g x y) ≤ (c.entry v).takenBy (c.runCallsOn v rs) g := by
  induction ps with
  | nil => exact ⟨[], evades_nil v gen x, fun y hy => (List.not_mem_nil hy).elim, Nat.zero_le _⟩
  | cons p ps ih =>
    obtain ⟨hfresh, hnd⟩ := List.nodup_cons.mp hnd
    obtain ⟨rs, hevades, hcells, htaken⟩ := exists_reaching_steps h hv gen (x := x)
      (hps List.mem_cons_self) hg (c.factor p) le_rfl
    obtain ⟨rs', hevades', hcells', htaken'⟩ := ih (fun q hq => hps (List.mem_cons_of_mem _ hq)) hnd
    refine ⟨rs ++ rs', hevades.append hevades' ?_, ?_, ?_⟩
    · intro y hy hy'
      exact hfresh ((hcells y hy).1 ▸ hcells' y hy')
    · intro y hy
      rw [completedCells_append] at hy
      cases List.mem_append.mp hy with
      | inl hy => exact (hcells y hy).1 ▸ List.mem_cons_self
      | inr hy => exact List.mem_cons_of_mem _ (hcells' y hy)
    · have hsum : (c.entry v).takenBy (c.runCallsOn v (rs ++ rs')) g =
          (c.entry v).takenBy (c.runCallsOn v rs) g + (c.entry v).takenBy (c.runCallsOn v rs') g := by
        rw [runCallsOn, List.flatMap_append, EntryShape.takenBy_append]
        rfl
      rw [hsum, List.flatMap_cons, List.countP_append]
      omega

theorem evade_barrier (hb : (c.entry v).hasBarrier = true) (hby : c.Bypasses v j x) :
    ∃ rs, c.Evades v gen x rs ∧ (c.entry v).Releases (c.runCallsOn v rs) j := by
  unfold Bypasses at hby
  rw [if_pos hb] at hby
  obtain ⟨g, hg, hj, hpos, hle⟩ := hby
  obtain ⟨rs, hevades, -, htaken⟩ := exists_reaching_run h hv gen (x := x) hg
    (c.nodeAt v).predIds (List.Subset.refl _) (c.nodeAt v).predIds_nodup
  refine ⟨rs, hevades, ?_⟩
  unfold EntryShape.Releases
  rw [if_pos hb]
  have hsmall := (c.entry v).depsPerGroup.toNat_lt
  exact ⟨g, hg, hj, hpos, le_trans (le_min (by omega) hle) htaken⟩

theorem evade_named (hb : (c.entry v).hasBarrier = false) (hby : c.NamedWithout v j x) :
    ∃ rs, c.Evades v gen x rs ∧ (c.entry v).Releases (c.runCallsOn v rs) j := by
  obtain ⟨hlt, y, hy, hne, hpass, hname⟩ := hby
  have hsub : [y] ⊆ c.predCells v := by
    intro z hz
    rw [List.mem_singleton.mp hz]
    exact hy
  refine ⟨_, evades_singleSteps gen (List.nodup_singleton y) hsub
    (fun hx => hne (List.mem_singleton.mp hx).symm), ?_⟩
  have hcalls : c.runCallsOn v (singleSteps gen [y]) = [(c.edge y.1 v).cellCall y.2] := by
    rw [runCallsOn_singleSteps h hv gen hsub, List.flatMap_singleton, (c.edge y.1 v).calls_single,
      if_pos hpass]
  have h11 : (c.edge y.1 v).hasOneToOne = true := by
    by_contra hno
    rw [SuccEdge.oneToOneSuccIdx, if_neg hno] at hname
    cases hname
  unfold EntryShape.Releases
  simp only [hb, Bool.false_eq_true, if_false]
  refine ⟨[], _, [], hcalls, ?_⟩
  have hspec : ((c.edge y.1 v).cellCall y.2).specific = some j := hname
  unfold EntryShape.Frees
  simp only [hspec]
  refine ⟨trivial, hlt, 0, (c.entry v).groups_pos, .inl ?_⟩
  exact if_pos (c.edge_plain y.1 v h11).ungrouped

/-- All other instances first, then `y`, whose call names nobody. -/
theorem evade_counted (hb : (c.entry v).hasBarrier = false) {g : ℕ}
    (hg : g < (c.entry v).numGroups) (hj : j ∈ (c.entry v).groupRange g)
    (hle : (c.entry v).depsPerGroup.toNat ≤ c.drawnWithout v g x +
      (c.entry v).thresholdForInstanceInGroup (j - g * (c.entry v).groupSize)) {y : ℕ × ℕ}
    (hy : y ∈ c.predCells v) (hne : y ≠ x) (hdraw : c.drawsOn v g y = true)
    (h11 : (c.edge y.1 v).hasOneToOne = false) :
    ∃ rs, c.Evades v gen x rs ∧ (c.entry v).Releases (c.runCallsOn v rs) j := by
  have hone : [y] ⊆ c.predCells v := by
    intro z hz
    rw [List.mem_singleton.mp hz]
    exact hy
  have hrest := cellsWithout_subset (c := c) v [x, y]
  have hsub : c.cellsWithout v [x, y] ++ [y] ⊆ c.predCells v := List.append_subset.mpr ⟨hrest, hone⟩
  have hmiss : x ∉ c.cellsWithout v [x, y] ++ [y] := by
    rw [List.mem_append, not_or]
    exact ⟨not_mem_cellsWithout List.mem_cons_self, fun hx => hne (List.mem_singleton.mp hx).symm⟩
  have hnd := cellsWithout_nodup (c := c) v [x, y] [y] (List.nodup_singleton y) (by simp)
  refine ⟨_, evades_singleSteps gen hnd hsub hmiss, ?_⟩
  have hpass : (c.edge y.1 v).passesFilter y.2 = true := by
    simp only [drawsOn, Bool.and_eq_true] at hdraw
    exact hdraw.1
  have hcalls : c.runCallsOn v (singleSteps gen (c.cellsWithout v [x, y] ++ [y])) =
      c.runCallsOn v (singleSteps gen (c.cellsWithout v [x, y])) ++
        [(c.edge y.1 v).cellCall y.2] := by
    rw [runCallsOn_singleSteps h hv gen hsub, runCallsOn_singleSteps h hv gen hrest,
      List.flatMap_append, List.flatMap_singleton, (c.edge y.1 v).calls_single, if_pos hpass]
  have htaken := takenBy_singleSteps h hv gen hsub hg
  rw [List.countP_append, ← drawnWithout_eq v g x [y] (List.nodup_singleton y) hone
    (fun hx => hne (List.mem_singleton.mp hx).symm)] at htaken
  rw [hcalls] at htaken
  rw [hcalls, EntryShape.releases_concat_of_free _ hb]
  right
  have hspec : ((c.edge y.1 v).cellCall y.2).specific = none := by
    simp [SuccEdge.cellCall, SuccEdge.oneToOneSuccIdx, h11]
  unfold EntryShape.Frees
  simp only [hspec]
  exact ⟨g, drawsOn_hits hdraw hg rfl, hj, by omega⟩

/-- All other instances first, then `y` and the one after it in one chunk. -/
theorem evade_chunked (hb : (c.entry v).hasBarrier = false) {g : ℕ}
    (hg : g < (c.entry v).numGroups) (hj : j ∈ (c.entry v).groupRange g)
    (hle : (c.entry v).depsPerGroup.toNat ≤ c.drawnWithout v g x +
      (c.entry v).thresholdForInstanceInGroup (j - g * (c.entry v).groupSize)) {p k : ℕ}
    (hy : (p, k) ∈ c.predCells v) (hne : (p, k) ≠ x) (hdraw : c.drawsOn v g (p, k) = true)
    (hfilter : (c.edge p v).filterBounds = none) (hgroup : (c.edge p v).groupBy = noGroup)
    (hnext : (p, k + 1) ∈ c.predCells v) (hnextne : (p, k + 1) ≠ x) :
    ∃ rs, c.Evades v gen x rs ∧ (c.entry v).Releases (c.runCallsOn v rs) j := by
  have hpair : [(p, k), (p, k + 1)] ⊆ c.predCells v := by
    intro z hz
    rw [List.mem_cons, List.mem_singleton] at hz
    cases hz with
    | inl hz => rwa [hz]
    | inr hz => rwa [hz]
  have hpairnd : [(p, k), (p, k + 1)].Nodup := by simp
  have hpairx : x ∉ [(p, k), (p, k + 1)] := by
    rw [List.mem_cons, List.mem_singleton, not_or]
    exact ⟨fun hx => hne hx.symm, fun hx => hnextne hx.symm⟩
  have hrest := cellsWithout_subset (c := c) v (x :: [(p, k), (p, k + 1)])
  have hcells : completedCells (singleSteps gen (c.cellsWithout v (x :: [(p, k), (p, k + 1)])) ++
      [.worker ⟨p, gen, 0, k, 2, 0⟩]) =
      c.cellsWithout v (x :: [(p, k), (p, k + 1)]) ++ [(p, k), (p, k + 1)] := by
    rw [completedCells_append, completedCells_singleSteps]
    rfl
  have hcalls : c.runCallsOn v (singleSteps gen (c.cellsWithout v (x :: [(p, k), (p, k + 1)])) ++
      [.worker ⟨p, gen, 0, k, 2, 0⟩]) =
      c.runCallsOn v (singleSteps gen (c.cellsWithout v (x :: [(p, k), (p, k + 1)]))) ++
        [⟨(c.edge p v).predGroup k, 2, none⟩] := by
    have hp := (mem_predCells.mp hy).1
    simp only [runCallsOn, List.flatMap_append, List.flatMap_singleton, Resolution.callsOn,
      if_pos (h.mem_successors.mpr ⟨hv, hp⟩), (c.edge p v).calls_unfiltered hfilter k 2 (by omega)]
  refine ⟨singleSteps gen (c.cellsWithout v (x :: [(p, k), (p, k + 1)])) ++
    [.worker ⟨p, gen, 0, k, 2, 0⟩], ⟨predRun_of_cells ?_ ?_ ?_, ?_, ?_, ?_, ?_⟩, ?_⟩
  · intro r hr
    cases List.mem_append.mp hr with
    | inl hr => exact singleSteps_chunks gen _ r hr
    | inr hr =>
      rw [List.mem_singleton.mp hr]
      exact Nat.two_pos
  · rw [hcells]
    exact cellsWithout_nodup v _ _ hpairnd (List.subset_cons_self _ _)
  · rw [hcells]
    exact List.append_subset.mpr ⟨hrest, hpair⟩
  · intro r hr
    cases List.mem_append.mp hr with
    | inl hr =>
      obtain ⟨y, -, hy⟩ := List.mem_map.mp hr
      exact ⟨_, hy.symm⟩
    | inr hr => exact ⟨_, List.mem_singleton.mp hr⟩
  · intro r hr
    cases List.mem_append.mp hr with
    | inl hr =>
      obtain ⟨y, -, hy⟩ := List.mem_map.mp hr
      subst hy
      rfl
    | inr hr =>
      rw [List.mem_singleton.mp hr]
      rfl
  · rw [hcells, List.mem_append, not_or]
    exact ⟨not_mem_cellsWithout List.mem_cons_self, hpairx⟩
  · intro r hr
    cases List.mem_append.mp hr with
    | inl hr =>
      obtain ⟨y, -, hy⟩ := List.mem_map.mp hr
      subst hy
      exact callsOn_alike v (.inl rfl)
    | inr hr =>
      rw [List.mem_singleton.mp hr]
      exact callsOn_alike v (.inr hfilter)
  · rw [hcalls, EntryShape.releases_concat_of_free _ hb]
    right
    have hnone : ∀ i, (c.edge p v).predGroup i = none := fun i => if_pos hgroup
    have hhit : (c.entry v).Hits ⟨(c.edge p v).predGroup k, 2, none⟩ g := drawsOn_hits hdraw hg rfl
    have hdraws : [(p, k), (p, k + 1)].countP (c.drawsOn v g) = 2 := by
      simp [drawsOn, (c.edge p v).passesFilter_of_none hfilter, hnone]
    have htaken := EntryState.takenBy_concat (c.entry v) hhit
      (c.runCallsOn v (singleSteps gen (c.cellsWithout v (x :: [(p, k), (p, k + 1)]))))
    rw [takenBy_singleSteps h hv gen hrest hg] at htaken
    dsimp only at htaken
    rw [drawnWithout_eq v g x _ hpairnd hpair hpairx, hdraws] at hle
    unfold EntryShape.Frees
    exact ⟨g, hhit, hj, by omega⟩

theorem exists_evading_run (hby : c.Bypasses v j x) :
    ∃ rs, c.Evades v gen x rs ∧ (c.entry v).Releases (c.runCallsOn v rs) j := by
  by_cases hb : (c.entry v).hasBarrier = true
  · exact evade_barrier h hv gen hb hby
  · have hbf := Bool.eq_false_of_not_eq_true hb
    unfold Bypasses at hby
    rw [if_neg hb] at hby
    cases hby with
    | inl hnamed => exact evade_named h hv gen hbf hnamed
    | inr hcounted =>
      obtain ⟨g, hg, hj, ⟨⟨p, k⟩, hy, hne, hdraw, hkind⟩, hle⟩ := hcounted
      cases hkind with
      | inl h11 => exact evade_counted h hv gen hbf hg hj hle hy hne hdraw h11
      | inr hchunk =>
        exact evade_chunked h hv gen hbf hg hj hle hy hne hdraw hchunk.1
          (edge_ungrouped hbf p) hchunk.2.1 hchunk.2.2

end Evading

/-! ## The step that takes the way -/

/-- Some step of a run that releases `j` is the first to do so. -/
theorem exists_first_release {v j : ℕ} (rs : List Resolution)
    (hrel : (c.entry v).Releases (c.runCallsOn v rs) j) : ∃ pre r post, rs = pre ++ r :: post ∧
      (c.entry v).Releases (c.runCallsOn v (pre ++ [r])) j ∧
      ¬ (c.entry v).Releases (c.runCallsOn v pre) j := by
  induction rs using List.reverseRecOn with
  | nil => exact absurd hrel ((c.entry v).not_releases_nil j)
  | append_singleton rs r ih =>
    by_cases hbefore : (c.entry v).Releases (c.runCallsOn v rs) j
    · obtain ⟨pre, r', post, hsplit, hrel', hno⟩ := ih hbefore
      exact ⟨pre, r', post ++ [r], by simp [hsplit], hrel', hno⟩
    · exact ⟨rs, r, [], rfl, hrel, hbefore⟩

end Compiled

section FirstRelease

theorem SlotState.fresh_spawns {c : Compiled} {v : ℕ} (hcond : c.isCondition v = true) :
    (SlotState.fresh c 0).cells.remainingSpawns c.layout v = asU32 (c.factor v) := by
  have hinit : c.layout.condInit v = asU32 (c.factor v) := if_pos hcond
  have hgen : (SlotState.fresh c 0).cells.slotGen = 0 := rfl
  rw [LazySlot.remainingSpawns, hgen]
  simp only [SlotState.fresh, LazySlot.initial, LazySlot.swept, hinit, genRead_genPack]

variable {nodes : List Node} {c : Compiled} (h : BuiltFrom nodes c) (cfg : Config) {v : ℕ}

include h

/-- What workers leave of the entry of `v`: the counters after their calls, and no spawn. -/
theorem BuiltFrom.workers_leave (pre : List Resolution) (s : SlotState)
    (hworker : ∀ r ∈ pre, ∃ ni, r = .worker ni) (hgen : ∀ r ∈ pre, r.task.gen = s.cells.slotGen) :
    (runOps (c.resolve cfg) pre s).2.cells.generation = s.cells.generation ∧
      (runOps (c.resolve cfg) pre s).2.cells.condInstancesToSpawn = s.cells.condInstancesToSpawn ∧
      c.deps (runOps (c.resolve cfg) pre s).2.cells v =
        (c.runOn v (c.runCallsOn v pre) s.cells).2 := by
  induction pre generalizing s with
  | nil => exact ⟨rfl, rfl, rfl⟩
  | cons r pre ih =>
    obtain ⟨ni, hr⟩ := hworker r List.mem_cons_self
    obtain ⟨hsame, -, hdeps⟩ := h.resolve_calls cfg r (hgen r List.mem_cons_self) (v := v)
      (.inr ⟨ni, hr⟩)
    have hspawns : (c.resolve cfg r s).2.cells.condInstancesToSpawn =
        s.cells.condInstancesToSpawn := by
      rw [hr]
      exact Compiled.resolve_worker_spawns cfg ni s
    obtain ⟨hgen', hspawns', hdeps'⟩ := ih (c.resolve cfg r s).2
      (fun r' hr' => hworker r' (List.mem_cons_of_mem _ hr')) fun r' hr' => by
        rw [LazySlot.slotGen, hsame]
        exact hgen r' (List.mem_cons_of_mem _ hr')
    rw [runOps_cons]
    refine ⟨hgen'.trans hsame, hspawns'.trans hspawns, ?_⟩
    rw [hdeps', Compiled.runCallsOn, Compiled.runCallsOn, List.flatMap_cons, Compiled.runOn,
      Compiled.runOn, hdeps, Compiled.runOn, runCalls_append]

/-- After workers on a fresh slot, the step whose calls are the first to release `j` returns it. A
condition must have instances left to spawn, unless it is a worker's step. -/
theorem BuiltFrom.returned_first {pre : List Resolution} {r : Resolution}
    (hworker : ∀ r' ∈ pre, ∃ ni, r' = .worker ni)
    (hgen : ∀ r' ∈ pre ++ [r], r'.task.gen = (SlotState.fresh c 0).cells.slotGen)
    (hspawns : (∃ ni, r = .worker ni) ∨ (c.isCondition v = true → asU32 (c.factor v) ≠ 0)) {j : ℕ}
    (hrel : (c.entry v).Releases (c.runCallsOn v (pre ++ [r])) j)
    (hno : ¬ (c.entry v).Releases (c.runCallsOn v pre) j) :
    j ∈ c.returned cfg r (runOps (c.resolve cfg) pre (SlotState.fresh c 0)).2 v := by
  obtain ⟨hsame, hleft, hdeps⟩ := h.workers_leave cfg (v := v) pre (SlotState.fresh c 0) hworker
    fun r' hr' => hgen r' (List.mem_append_left _ hr')
  generalize (runOps (c.resolve cfg) pre (SlotState.fresh c 0)).2 = s at hsame hleft hdeps
  have hgenr : r.task.gen = s.cells.slotGen := by
    rw [LazySlot.slotGen, hsame]
    exact hgen r (by simp)
  have hready : c.returned cfg r s v = (c.runOn v (r.callsOn c v) s.cells).1 := by
    cases hspawns with
    | inl hw => exact (h.resolve_calls cfg r hgenr (.inr hw)).2.1
    | inr hspawns =>
      cases h.resolve_touches cfg r hgenr v with
      | inl ht => exact ht.ready_eq
      | inr hspent =>
        obtain ⟨⟨hcond, hzero⟩, -⟩ := hspent
        have hfull : s.cells.remainingSpawns c.layout v = asU32 (c.factor v) := by
          rw [Compiled.remainingSpawns_congr hsame (congrFun hleft v)]
          exact SlotState.fresh_spawns hcond
        exact absurd (hfull ▸ hzero) (hspawns hcond)
  have hreturns := EntryState.runCalls_returns (c.entry v)
  have hall := ((hreturns (c.runCallsOn v (pre ++ [r]))).ready j).mpr hrel
  have hbefore := fun hmem => hno (((hreturns (c.runCallsOn v pre)).ready j).mp hmem)
  have hsplit : c.runCallsOn v (pre ++ [r]) = c.runCallsOn v pre ++ r.callsOn c v := by
    simp [Compiled.runCallsOn]
  rw [hsplit, runCalls_append, List.mem_append] at hall
  rw [hready, Compiled.runOn, hdeps, Compiled.runOn, SlotState.fresh_deps]
  exact hall.resolve_left hbefore

end FirstRelease

/-- No order makes an instance ready while an instance that cannot be bypassed is missing. -/
theorem BuiltFrom.bypasses_of_ready {nodes : List Node} {c : Compiled} (h : BuiltFrom nodes c)
    {cfg : Config} {v : ℕ} {pre post : List Resolution} {r : Resolution} {s : SlotState}
    (hfresh : c.deps s.cells v = EntryState.initial (c.entry v))
    (hgen : ∀ r' ∈ pre ++ r :: post, r'.task.gen = s.cells.slotGen)
    (hrun : c.PredRun v (pre ++ r :: post)) {j : ℕ}
    (hj : j ∈ c.returned cfg r (runOps (c.resolve cfg) pre s).2 v) {x : ℕ × ℕ}
    (hx : x ∉ Compiled.completedCells (pre ++ [r])) : c.Bypasses v j x := by
  have habove : EntryState.Above (c.entry v) [] (c.deps s.cells v) := by
    rw [hfresh]
    exact EntryState.above_initial (c.entry v)
  have hrel := h.ready_released cfg [] (pre ++ r :: post) s habove hgen pre r post rfl j hj
  have hsplit : pre ++ r :: post = (pre ++ [r]) ++ post := by simp
  rw [hsplit] at hrun
  exact Compiled.bypasses_of_releases h hrun.before hx hrel

/-- A run of single generation that ends in a step which makes `j` ready while `x` is missing. -/
structure Compiled.TakesWay (c : Compiled) (cfg : Config) (v j : ℕ) (x : ℕ × ℕ)
    (pre : List Resolution) (r : Resolution) : Prop where
  gen : ∀ r' ∈ pre ++ [r], r'.task.gen = (SlotState.fresh c 0).cells.slotGen
  run : c.PredRun v (pre ++ [r])
  misses : x ∉ Compiled.completedCells (pre ++ [r])
  ready : j ∈ c.returned cfg r (runOps (c.resolve cfg) pre (SlotState.fresh c 0)).2 v

/-- A way past `x` is taken in some order, by a worker or on the batch path. -/
theorem BuiltFrom.exists_way {nodes : List Node} {c : Compiled} (h : BuiltFrom nodes c)
    (cfg : Config) {v : ℕ} (hv : v < nodes.length) {j : ℕ} {x : ℕ × ℕ}
    (hby : c.Bypasses v j x) : ∃ pre ni, c.TakesWay cfg v j x pre (.worker ni) ∧
      ((c.isCondition v = true → asU32 (c.factor v) ≠ 0) → ∀ eval,
        c.TakesWay cfg v j x pre (.batch eval ni)) := by
  obtain ⟨rs, hevades, hrel⟩ := Compiled.exists_evading_run h hv
    (SlotState.fresh c 0).cells.slotGen hby
  obtain ⟨pre, r, post, hsplit, hfirst, hno⟩ := Compiled.exists_first_release rs hrel
  have hr : r ∈ rs := by simp [hsplit]
  obtain ⟨ni, hni⟩ := hevades.worker r hr
  subst hni
  have hparts : rs = (pre ++ [.worker ni]) ++ post := by simp [hsplit]
  have hpre : ∀ r' ∈ pre ++ [.worker ni], r' ∈ rs := by
    intro r' hr'
    rw [hparts]
    exact List.mem_append_left _ hr'
  have hgen : ∀ r' ∈ pre ++ [.worker ni], r'.task.gen = (SlotState.fresh c 0).cells.slotGen :=
    fun r' hr' => hevades.gen r' (hpre r' hr')
  have hworker : ∀ r' ∈ pre, ∃ ni, r' = .worker ni :=
    fun r' hr' => hevades.worker r' (hpre r' (List.mem_append_left _ hr'))
  have hrun : c.PredRun v (pre ++ [.worker ni]) := by
    have := hevades.run
    rw [hparts] at this
    exact this.before
  have hmiss : x ∉ Compiled.completedCells (pre ++ [.worker ni]) := by
    have := hevades.misses
    rw [hparts, Compiled.completedCells_append, List.mem_append, not_or] at this
    exact this.1
  refine ⟨pre, ni, ⟨hgen, hrun, hmiss, h.returned_first cfg hworker hgen (.inl ⟨ni, rfl⟩) hfirst
    hno⟩, fun hspawns eval => ?_⟩
  -- the same step on the batch path completes the same instances with the same calls
  have hcalls : c.runCallsOn v (pre ++ [.batch eval ni]) = c.runCallsOn v (pre ++ [.worker ni]) := by
    have halike := hevades.alike _ hr eval
    simp only [Compiled.runCallsOn, List.flatMap_append, List.flatMap_singleton]
    rw [← halike]
    rfl
  have hcells : Compiled.completedCells (pre ++ [.batch eval ni]) =
      Compiled.completedCells (pre ++ [.worker ni]) := by
    rw [Compiled.completedCells_append, Compiled.completedCells_append]
    rfl
  have hgen' : ∀ r' ∈ pre ++ [.batch eval ni],
      r'.task.gen = (SlotState.fresh c 0).cells.slotGen := by
    intro r' hr'
    cases List.mem_append.mp hr' with
    | inl hr' => exact hgen r' (List.mem_append_left _ hr')
    | inr hr' =>
      rw [List.mem_singleton.mp hr']
      exact hgen (.worker ni) (by simp)
  refine ⟨hgen', ⟨fun r' hr' => ?_, ?_, ?_⟩, ?_, ?_⟩
  · cases List.mem_append.mp hr' with
    | inl hr' => exact hrun.chunks r' (List.mem_append_left _ hr')
    | inr hr' =>
      rw [List.mem_singleton.mp hr']
      exact hrun.chunks (.worker ni) (by simp)
  · rw [hcells]
    exact hrun.once
  · rw [hcells]
    exact hrun.exist
  · rw [hcells]
    exact hmiss
  · exact h.returned_first cfg hworker hgen' (.inr hspawns) (hcalls ▸ hfirst) hno

end Tomii
