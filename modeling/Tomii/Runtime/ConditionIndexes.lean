import Tomii.Runtime.NodeCache

/-! # Rows of condition arguments (`get_condition_indexes`)

A node's `cond_index` is its position among all condition nodes, in the iteration order of the
hash set; the rows are those of the nodes with condition arguments only. -/
namespace Tomii
set_option autoImplicit false
set_option maxHeartbeats 250000

/-! ## Positions before and after a selection -/

section Selection

variable {β : Type} [DecidableEq β] (p : β → Bool)

/-- Where a selected element has no other before it, selecting does not move it. -/
theorem idxOf_filter {l : List β} {n : β} (hn : p n = true)
    (hfirst : ∀ y ∈ l, p y = false → l.idxOf n < l.idxOf y) :
    (l.filter p).idxOf n = l.idxOf n := by
  induction l with
  | nil => rfl
  | cons x l ih =>
    by_cases hx : x = n
    · subst hx
      rw [List.filter_cons_of_pos hn, List.idxOf_cons_self, List.idxOf_cons_self]
    · have hpx : p x = true := by
        cases hpx : p x with
        | true => rfl
        | false =>
          have hlt := hfirst x List.mem_cons_self hpx
          rw [List.idxOf_cons_self] at hlt
          omega
      have htail : ∀ y ∈ l, p y = false → l.idxOf n < l.idxOf y := by
        intro y hy hpy
        have hne : x ≠ y := by
          rintro rfl
          rw [hpx] at hpy
          cases hpy
        have hlt := hfirst y (List.mem_cons_of_mem _ hy) hpy
        rw [List.idxOf_cons_ne _ hx, List.idxOf_cons_ne _ hne] at hlt
        omega
      rw [List.filter_cons_of_pos hpx, List.idxOf_cons_ne _ hx, List.idxOf_cons_ne _ hx, ih htail]

/-- The last selected element has at least the position that selecting would give it. -/
theorem exists_last_selected {l : List β} (hnodup : l.Nodup) (hsome : ∃ n ∈ l, p n = true) :
    ∃ n ∈ l, p n = true ∧ (l.filter p).length ≤ l.idxOf n + 1 := by
  induction l with
  | nil =>
    obtain ⟨n, hn, -⟩ := hsome
    cases hn
  | cons x l ih =>
    obtain ⟨hx, hnodup⟩ := List.nodup_cons.mp hnodup
    by_cases hl : ∃ n ∈ l, p n = true
    · obtain ⟨n, hn, hpn, hlen⟩ := ih hnodup hl
      have hne : x ≠ n := by
        rintro rfl
        exact hx hn
      have hgrow : ((x :: l).filter p).length ≤ (l.filter p).length + 1 := by
        rw [List.filter_cons]
        split
        · exact le_rfl
        · omega
      refine ⟨n, List.mem_cons_of_mem _ hn, hpn, ?_⟩
      rw [List.idxOf_cons_ne _ hne]
      omega
    · have hnil : l.filter p = [] := List.filter_eq_nil_iff.mpr fun n hn hpn => hl ⟨n, hn, hpn⟩
      obtain ⟨n, hn, hpn⟩ := hsome
      rcases List.mem_cons.mp hn with rfl | hn
      · refine ⟨n, List.mem_cons_self, hpn, ?_⟩
        rw [List.filter_cons_of_pos hpn, hnil]
        simp
      · exact absurd ⟨n, hn, hpn⟩ hl

/-- If every selected element's position is one among the selected, they all come first. -/
theorem selected_first {l : List β} (hnodup : l.Nodup)
    (hbound : ∀ n ∈ l, p n = true → l.idxOf n < (l.filter p).length) {n y : β} (hn : n ∈ l)
    (hpn : p n = true) (hy : y ∈ l) (hpy : p y = false) : l.idxOf n < l.idxOf y := by
  induction l with
  | nil => cases hn
  | cons x l ih =>
    have hx := (List.nodup_cons.mp hnodup).1
    have hne : ∀ z ∈ l, x ≠ z := by
      rintro z hz rfl
      exact hx hz
    cases hpx : p x with
    | true =>
      have hyl : y ∈ l := by
        rcases List.mem_cons.mp hy with rfl | hy
        · rw [hpx] at hpy
          cases hpy
        · exact hy
      rcases List.mem_cons.mp hn with rfl | hn
      · rw [List.idxOf_cons_self, List.idxOf_cons_ne _ (hne y hyl)]
        omega
      · have hlt := ih (List.nodup_cons.mp hnodup).2 (fun z hz hpz => by
          have hz' := hbound z (List.mem_cons_of_mem _ hz) hpz
          rw [List.idxOf_cons_ne _ (hne z hz), List.filter_cons_of_pos hpx, List.length_cons] at hz'
          omega) hn hyl
        rw [List.idxOf_cons_ne _ (hne n hn), List.idxOf_cons_ne _ (hne y hyl)]
        omega
    | false =>
      -- the last selected element is moved out of the rows by `x`
      have hnl : n ∈ l := by
        rcases List.mem_cons.mp hn with rfl | hn
        · rw [hpx] at hpn
          cases hpn
        · exact hn
      obtain ⟨z, hz, hpz, hlen⟩ :=
        exists_last_selected p (List.nodup_cons.mp hnodup).2 ⟨n, hnl, hpn⟩
      have hlt := hbound z (List.mem_cons_of_mem _ hz) hpz
      have hneg : ¬ p x = true := by
        rw [hpx]
        decide
      rw [List.idxOf_cons_ne _ (hne z hz), List.filter_cons_of_neg hneg] at hlt
      omega

end Selection

/-! ## The rows -/

namespace Compiled

variable (c : Compiled)

/-- The positions of a node's condition arguments. -/
def conditionArgPositions (id : ℕ) : List ℕ :=
  (c.nodeAt id).args.zipIdx.filterMap fun p => if p.1.isCondition then some p.2 else none

/-- `Graph::has_condition(&node.args)` -/
def hasArgCondition (id : ℕ) : Bool := (c.nodeAt id).args.any (·.isCondition)

theorem conditionArgPositions_ne_nil (id : ℕ) :
    c.conditionArgPositions id ≠ [] ↔ c.hasArgCondition id = true := by
  unfold conditionArgPositions hasArgCondition
  rw [Ne, List.filterMap_eq_nil_iff, List.any_eq_true]
  constructor
  · intro h
    push Not at h
    obtain ⟨⟨a, i⟩, hmem, hcond⟩ := h
    refine ⟨a, (List.mem_zipIdx' hmem).2 ▸ List.getElem_mem _, ?_⟩
    by_contra hne
    exact hcond (if_neg hne)
  · rintro ⟨a, ha, hcond⟩ hall
    obtain ⟨i, hi, rfl⟩ := List.getElem_of_mem ha
    have hrow := hall ((c.nodeAt id).args[i], i) (List.mk_mem_zipIdx_iff_getElem?.mpr
      (List.getElem?_eq_getElem hi))
    rw [if_pos hcond] at hrow
    cases hrow

theorem conditionIndexes_eq :
    c.conditionIndexes = (c.condOrder.filter c.hasArgCondition).map c.conditionArgPositions := by
  have hsame : c.conditionIndexes =
      (c.condOrder.map c.conditionArgPositions).filter fun row => decide (row ≠ []) := rfl
  rw [hsame, List.filter_map]
  congr 1
  apply List.filter_congr
  intro id _
  rw [Bool.eq_iff_iff, Function.comp_apply, decide_eq_true_iff]
  exact c.conditionArgPositions_ne_nil id

/-- Every node with a condition argument finds its own row. -/
def ConditionRowsMatch : Prop :=
  ∀ id < c.graph.nodes.length, c.hasArgCondition id = true →
    c.conditionIndexes[c.condIndex id]? = some (c.conditionArgPositions id)

/-- The set iterates over the nodes with condition arguments before those whose only condition
is node-level. -/
def ArgConditionsFirst : Prop :=
  ∀ n ∈ c.condOrder, ∀ y ∈ c.condOrder, c.hasArgCondition n = true → c.hasArgCondition y = false →
    c.condOrder.idxOf n < c.condOrder.idxOf y

end Compiled

/-- For every graph, the `$network` node of which has no arguments, and every iteration order of
the set of condition nodes. -/
theorem condition_rows_match_iff {nodes : List Node} {c : Compiled} (h : BuiltFrom nodes c)
    (hnetwork : ∀ v ∈ nodes, v.isNetwork = true → v.args = []) :
    c.ConditionRowsMatch ↔ c.ArgConditionsFirst := by
  have hlen : c.graph.nodes.length = nodes.length := by rw [h.nodes_eq]
  have hmem : ∀ id, id < nodes.length → c.hasArgCondition id = true →
      id ∈ c.condOrder ∧ c.condIndex id = c.condOrder.idxOf id := by
    intro id hid harg
    have hset : id ∈ c.graph.conditionNodes := by
      refine (h.rows.conditions id).mpr ⟨by rw [h.nodes_eq]; exact hid, ?_⟩
      simp only [h.nodes_eq]
      unfold Compiled.hasArgCondition at harg
      rw [h.nodeAt_eq hid] at harg
      rw [Node.carriesCondition, harg, Bool.true_or]
    have hnet : (c.nodeAt id).isNetwork = false := by
      by_contra htrue
      rw [Bool.not_eq_false, h.nodeAt_eq hid] at htrue
      have hargs := hnetwork _ (List.getElem_mem hid) htrue
      unfold Compiled.hasArgCondition at harg
      rw [h.nodeAt_eq hid, hargs] at harg
      cases harg
    refine ⟨(h.cond_order.2 id).mpr hset, ?_⟩
    rw [Compiled.condIndex, Compiled.isCondition, hnet]
    simp [hset]
  have hlt : ∀ id ∈ c.condOrder, id < nodes.length := by
    intro id hid
    obtain ⟨hid', -⟩ := (h.rows.conditions id).mp ((h.cond_order.2 id).mp hid)
    rwa [h.nodes_eq] at hid'
  unfold Compiled.ConditionRowsMatch Compiled.ArgConditionsFirst
  rw [hlen, c.conditionIndexes_eq]
  constructor
  · intro hrows n hn y hy harg hpure
    refine selected_first c.hasArgCondition h.cond_order.1 (fun z hz hargz => ?_) hn harg hy hpure
    have hrow := hrows z (hlt z hz) hargz
    rw [(hmem z (hlt z hz) hargz).2] at hrow
    have hbound := (List.getElem?_eq_some_iff.mp hrow).1
    rwa [List.length_map] at hbound
  · intro hfirst id hid harg
    obtain ⟨hin, hindex⟩ := hmem id hid harg
    have hselected : id ∈ c.condOrder.filter c.hasArgCondition := List.mem_filter.mpr ⟨hin, harg⟩
    rw [hindex, ← idxOf_filter c.hasArgCondition harg fun y hy hpure => hfirst id hin y hy harg hpure,
      List.getElem?_map, List.getElem?_idxOf hselected]
    rfl

/-- A source, a node with a condition on its argument, and one with a node-level condition. -/
def twoConditions (argFirst : Bool) : List Node :=
  [⟨false, 0, [], 1, none, false⟩,
    ⟨false, 1, [⟨.res, argFirst, some ⟨0, [0], none⟩⟩], 1, none, !argFirst⟩,
    ⟨false, 2, [⟨.res, !argFirst, some ⟨0, [0], none⟩⟩], 1, none, argFirst⟩]

theorem builtFrom_twoConditions (argFirst : Bool) :
    BuiltFrom (twoConditions argFirst) (Compiled.ofNodes (twoConditions argFirst)) := by
  cases argFirst
  · exact builtFrom_ofNodes (by decide) (by decide)
  · exact builtFrom_ofNodes (by decide) (by decide)

theorem condition_rows_match_iff_at_twoConditions :
    (Compiled.ofNodes (twoConditions true)).ConditionRowsMatch ↔
      (Compiled.ofNodes (twoConditions true)).ArgConditionsFirst :=
  condition_rows_match_iff (builtFrom_twoConditions true) (by decide)

/-- Behind a node-level condition the row of the other node is past the end. -/
theorem condition_row_past_end :
    ¬ ∀ nodes c, BuiltFrom nodes c → (∀ v ∈ nodes, v.isNetwork = true → v.args = []) →
      c.ConditionRowsMatch := by
  intro h
  have hrow := h _ _ (builtFrom_twoConditions false) (by decide) 2 (by decide) (by decide)
  revert hrow
  decide

end Tomii
