import Mathlib.Data.List.Perm.Subperm
import Mathlib.Data.List.Nodup
import Mathlib.Data.Finite.Prod
import Mathlib.Order.WellFounded
import Mathlib.Order.RelClasses
import Mathlib.Logic.Relation

/-! # Kahn's topological sort

The nodes are the numbers below `n`, and `adj u` lists the heads of the edges from `u`. A node leaves
the queue once, after all nodes with an edge to it. -/
namespace Tomii
set_option autoImplicit false
set_option maxHeartbeats 250000

variable (adj : ℕ → List ℕ) (n : ℕ)

/-! ## The sort -/

/-- How many edges lead from the nodes of a list to `v`. -/
def edgesInto (us : List ℕ) (v : ℕ) : ℕ := (us.flatMap adj).count v

/-- An edge of a node that has left the queue. The subtraction must not underflow. -/
def release (queue : List ℕ) (inDeg : ℕ → ℕ) (v : ℕ) : Option (List ℕ × (ℕ → ℕ)) :=
  if inDeg v = 0 then none
  else some (if inDeg v - 1 = 0 then queue ++ [v] else queue,
    Function.update inDeg v (inDeg v - 1))

def releaseAll : List ℕ → List ℕ → (ℕ → ℕ) → Option (List ℕ × (ℕ → ℕ))
  | [], queue, inDeg => some (queue, inDeg)
  | v :: vs, queue, inDeg =>
    (release queue inDeg v).bind fun (queue, inDeg) => releaseAll vs queue inDeg

/-- The loop gives up when the fuel is used up. -/
def kahnLoop : ℕ → List ℕ → List ℕ → (ℕ → ℕ) → Option (List ℕ)
  | 0, _, _, _ => none
  | _ + 1, [], topo, _ => some topo
  | fuel + 1, u :: queue, topo, inDeg =>
    (releaseAll (adj u) queue inDeg).bind fun (queue, inDeg) =>
      kahnLoop fuel queue (topo ++ [u]) inDeg

def topoOrder (fuel : ℕ) : Option (List ℕ) :=
  let inDegree := edgesInto adj (List.range n)
  kahnLoop adj fuel ((List.range n).filter fun v => inDegree v = 0) [] inDegree

/-- Every node stands behind all nodes with an edge to it, and a node is missing only behind
another one. -/
structure IsTopoOrder (topo : List ℕ) : Prop where
  nodup : topo.Nodup
  bounded : ∀ v ∈ topo, v < n
  ordered : ∀ {pre v post}, topo = pre ++ v :: post → ∀ u < n, v ∈ adj u → u ∈ pre
  closed : ∀ v < n, (∀ u < n, v ∈ adj u → u ∈ topo) → v ∈ topo

/-! ## Counting edges -/

variable {adj n}

theorem edgesInto_append (us vs : List ℕ) (v : ℕ) :
    edgesInto adj (us ++ vs) v = edgesInto adj us v + edgesInto adj vs v := by
  rw [edgesInto, List.flatMap_append, List.count_append, edgesInto, edgesInto]

theorem edgesInto_singleton (u v : ℕ) : edgesInto adj [u] v = (adj u).count v := by
  rw [edgesInto, List.flatMap_singleton]

theorem edgesInto_eq_zero {us : List ℕ} {v : ℕ} :
    edgesInto adj us v = 0 ↔ ∀ u ∈ us, v ∉ adj u := by
  rw [edgesInto, List.count_eq_zero, List.mem_flatMap]
  simp only [not_exists, not_and]

/-- The nodes that are not in a list without repetitions. -/
theorem exists_rest {us : List ℕ} (hnodup : us.Nodup) (hbounded : ∀ u ∈ us, u < n) :
    ∃ rest, (∀ u, u ∈ rest ↔ u < n ∧ u ∉ us) ∧
      ∀ v, edgesInto adj (List.range n) v = edgesInto adj us v + edgesInto adj rest v := by
  have hrest : ∀ u, u ∈ (List.range n).filter (fun u => u ∉ us) ↔ u < n ∧ u ∉ us := by
    intro u
    rw [List.mem_filter, List.mem_range, decide_eq_true_iff]
  have hnodup' : (us ++ (List.range n).filter fun u => u ∉ us).Nodup := by
    refine List.nodup_append.mpr ⟨hnodup, List.nodup_range.filter _, ?_⟩
    rintro u hu w hw rfl
    exact ((hrest u).mp hw).2 hu
  have hperm : (List.range n).Perm (us ++ (List.range n).filter fun u => u ∉ us) := by
    refine (List.perm_ext_iff_of_nodup List.nodup_range hnodup').mpr fun u => ?_
    rw [List.mem_append, hrest, List.mem_range]
    constructor
    · intro hu
      by_cases hin : u ∈ us
      · exact .inl hin
      · exact .inr ⟨hu, hin⟩
    · exact fun h => h.elim (hbounded u) And.left
  refine ⟨_, hrest, fun v => ?_⟩
  rw [← edgesInto_append]
  exact (hperm.flatMap_right adj).count_eq v

/-! ## Releasing -/

theorem releaseAll_spec (vs queue : List ℕ) (inDeg : ℕ → ℕ) (henough : ∀ v, vs.count v ≤ inDeg v) :
    ∃ added inDeg', releaseAll vs queue inDeg = some (queue ++ added, inDeg') ∧
      (∀ v, inDeg' v + vs.count v = inDeg v) ∧ added.Nodup ∧
      ∀ v, v ∈ added ↔ v ∈ vs ∧ inDeg' v = 0 := by
  induction vs generalizing queue inDeg with
  | nil =>
    refine ⟨[], inDeg, ?_, fun v => rfl, .nil, fun v => ?_⟩
    · rw [releaseAll, List.append_nil]
    · simp
  | cons v vs ih =>
    have hpos : inDeg v ≠ 0 := by
      have hcount := henough v
      rw [List.count_cons_self] at hcount
      omega
    have hrest : ∀ w, vs.count w ≤ Function.update inDeg v (inDeg v - 1) w := by
      intro w
      have hcount := henough w
      by_cases hw : w = v
      · subst hw
        rw [List.count_cons_self] at hcount
        rw [Function.update_self]
        omega
      · rw [List.count_cons_of_ne (Ne.symm hw)] at hcount
        rwa [Function.update_of_ne hw]
    obtain ⟨added, inDeg', hrun, hdeg, hnodup, hmem⟩ :=
      ih (if inDeg v - 1 = 0 then queue ++ [v] else queue) _ hrest
    have hdegs : ∀ w, inDeg' w + (v :: vs).count w = inDeg w := by
      intro w
      have hw := hdeg w
      by_cases hwv : w = v
      · subst hwv
        rw [Function.update_self] at hw
        rw [List.count_cons_self]
        omega
      · rw [Function.update_of_ne hwv] at hw
        rwa [List.count_cons_of_ne (Ne.symm hwv)]
    have hself := hdeg v
    rw [Function.update_self] at hself
    refine ⟨(if inDeg v - 1 = 0 then [v] else []) ++ added, inDeg', ?_, hdegs, ?_, fun w => ?_⟩
    · rw [releaseAll, release, if_neg hpos, Option.bind_some]
      refine hrun.trans ?_
      split
      · rw [List.append_assoc]
      · rfl
    · split
      · next hzero =>
        refine List.nodup_cons.mpr ⟨fun hin => ?_, hnodup⟩
        have hvs := List.count_pos_iff.mpr ((hmem v).mp hin).1
        omega
      · exact hnodup
    · rw [List.mem_append, hmem, List.mem_cons]
      split
      · next hzero =>
        rw [List.mem_singleton, or_and_right]
        refine or_congr (iff_self_and.mpr ?_) Iff.rfl
        rintro rfl
        omega
      · next hmore =>
        rw [or_iff_right List.not_mem_nil, or_and_right, iff_or_self]
        rintro ⟨rfl, hzero⟩
        refine ⟨List.count_pos_iff.mp ?_, hzero⟩
        omega

/-! ## The invariant of the loop -/

variable (adj n)

structure KahnInv (queue topo : List ℕ) (inDeg : ℕ → ℕ) : Prop where
  nodup : (topo ++ queue).Nodup
  bounded : ∀ v ∈ topo ++ queue, v < n
  degrees : ∀ v, inDeg v + edgesInto adj topo v = edgesInto adj (List.range n) v
  ready : ∀ v < n, v ∈ topo ++ queue ↔ inDeg v = 0
  ordered : ∀ {pre v post}, topo = pre ++ v :: post → ∀ u < n, v ∈ adj u → u ∈ pre

variable {adj n}
variable {queue topo : List ℕ} {inDeg : ℕ → ℕ}

theorem KahnInv.initial :
    KahnInv adj n ((List.range n).filter fun v => edgesInto adj (List.range n) v = 0) []
      (edgesInto adj (List.range n)) where
  nodup := List.nodup_range.filter _
  bounded := fun v hv => List.mem_range.mp (List.mem_of_mem_filter hv)
  degrees := fun v => rfl
  ready := fun v hv => by simp [hv]
  ordered := fun {pre v post} h => absurd h (by simp)

theorem KahnInv.rest (h : KahnInv adj n queue topo inDeg) :
    ∃ rest, (∀ u, u ∈ rest ↔ u < n ∧ u ∉ topo) ∧ ∀ v, edgesInto adj rest v = inDeg v := by
  obtain ⟨rest, hrest, hedges⟩ := @exists_rest adj _ _ (List.nodup_append.mp h.nodup).1
    fun u hu => h.bounded u (List.mem_append_left _ hu)
  refine ⟨rest, hrest, fun v => ?_⟩
  have hv := h.degrees v
  rw [hedges v] at hv
  omega

/-- All edges to a node whose degree is used up come from nodes that have left the queue. -/
theorem KahnInv.preds (h : KahnInv adj n queue topo inDeg) {v : ℕ} (hv : inDeg v = 0) :
    ∀ u < n, v ∈ adj u → u ∈ topo := by
  obtain ⟨rest, hrest, hedges⟩ := h.rest
  intro u hu hedge
  by_contra hnot
  exact edgesInto_eq_zero.mp ((hedges v).trans hv) u ((hrest u).mpr ⟨hu, hnot⟩) hedge

theorem KahnInv.step {u : ℕ} (h : KahnInv adj n (u :: queue) topo inDeg)
    (hadj : ∀ v ∈ adj u, v < n) :
    ∃ queue' inDeg', releaseAll (adj u) queue inDeg = some (queue', inDeg') ∧
      KahnInv adj n queue' (topo ++ [u]) inDeg' := by
  have hu : u ∈ topo ++ u :: queue := List.mem_append_right _ List.mem_cons_self
  have hnodup := h.nodup
  have hassoc : topo ++ u :: queue = (topo ++ [u]) ++ queue := (List.append_cons _ _ _)
  rw [hassoc] at hnodup
  obtain ⟨hdone, hqueue, hdisjoint⟩ := List.nodup_append.mp hnodup
  have henough : ∀ v, (adj u).count v ≤ inDeg v := by
    intro v
    obtain ⟨rest, -, hedges⟩ := @exists_rest adj _ _ hdone fun w hw =>
      h.bounded w (hassoc ▸ List.mem_append_left _ hw)
    have htotal := hedges v
    rw [← h.degrees v, edgesInto_append, edgesInto_singleton] at htotal
    omega
  obtain ⟨added, inDeg', hrun, hdeg, haddedNodup, hadded⟩ :=
    releaseAll_spec (adj u) queue inDeg henough
  have hfresh : ∀ v ∈ added, v ∉ topo ++ u :: queue := by
    intro v hv hin
    have hedge := ((hadded v).mp hv).1
    have hzero := (h.ready v (hadj v hedge)).mp hin
    have hpos := List.count_pos_iff.mpr hedge
    have hcount := henough v
    omega
  refine ⟨queue ++ added, inDeg', hrun, ?_, ?_, fun v => ?_, fun v hv => ?_, ?_⟩
  · rw [← List.append_assoc, List.nodup_append]
    refine ⟨hnodup, haddedNodup, fun v hv w hw hvw => ?_⟩
    exact hfresh w hw (hassoc ▸ hvw ▸ hv)
  · intro v hv
    rw [← List.append_assoc, List.mem_append] at hv
    rcases hv with hv | hv
    · exact h.bounded v (hassoc ▸ hv)
    · exact hadj v ((hadded v).mp hv).1
  · have hv := hdeg v
    have hold := h.degrees v
    rw [edgesInto_append, edgesInto_singleton]
    omega
  · rw [← List.append_assoc, List.mem_append, ← hassoc, h.ready v hv, hadded]
    have hcount := hdeg v
    by_cases hedge : v ∈ adj u
    · have hpos := henough v
      have hpos' := List.count_pos_iff.mpr hedge
      simp only [hedge, true_and]
      omega
    · rw [List.count_eq_zero_of_not_mem hedge] at hcount
      simp only [hedge, false_and, or_false]
      omega
  · intro pre v post heq w hw hedge
    rcases List.eq_nil_or_concat' post with rfl | ⟨post, z, rfl⟩
    · obtain ⟨rfl, hlast⟩ := List.append_inj' heq rfl
      obtain rfl : u = v := List.singleton_inj.mp hlast
      exact h.preds ((h.ready u (h.bounded u hu)).mp hu) w hw hedge
    · rw [← List.cons_append, ← List.append_assoc] at heq
      exact h.ordered (List.append_inj' heq rfl).1 w hw hedge

/-! ## What the sort returns -/

theorem KahnInv.isTopoOrder (h : KahnInv adj n [] topo inDeg) : IsTopoOrder adj n topo where
  nodup := by simpa using h.nodup
  bounded := by simpa using h.bounded
  ordered := h.ordered
  closed := by
    intro v hv hpreds
    obtain ⟨rest, hrest, hedges⟩ := h.rest
    have hzero : inDeg v = 0 := by
      rw [← hedges v, edgesInto_eq_zero]
      intro u hu hedge
      obtain ⟨hun, hnot⟩ := (hrest u).mp hu
      exact hnot (hpreds u hun hedge)
    simpa using (h.ready v hv).mpr hzero

/-- With fuel for every node, the loop ends. -/
theorem KahnInv.loop {fuel : ℕ} (h : KahnInv adj n queue topo inDeg)
    (hadj : ∀ u < n, ∀ v ∈ adj u, v < n) (hfuel : n < topo.length + fuel) :
    ∃ order, kahnLoop adj fuel queue topo inDeg = some order ∧ IsTopoOrder adj n order := by
  have hlength : (topo ++ queue).length ≤ n := by
    have hsub : (topo ++ queue).Subperm (List.range n) :=
      h.nodup.subperm fun v hv => List.mem_range.mpr (h.bounded v hv)
    simpa using hsub.length_le
  rw [List.length_append] at hlength
  induction fuel generalizing queue topo inDeg with
  | zero => omega
  | succ fuel ih =>
    cases queue with
    | nil => exact ⟨topo, rfl, h.isTopoOrder⟩
    | cons u queue =>
      have hu : u < n := h.bounded u (List.mem_append_right _ List.mem_cons_self)
      obtain ⟨queue', inDeg', hrun, h'⟩ := h.step (hadj u hu)
      have hlength' : (topo ++ [u] ++ queue').length ≤ n := by
        have hsub : (topo ++ [u] ++ queue').Subperm (List.range n) :=
          h'.nodup.subperm fun v hv => List.mem_range.mpr (h'.bounded v hv)
        simpa using hsub.length_le
      rw [List.length_append] at hlength'
      have hfuel' : n < (topo ++ [u]).length + fuel := by
        rw [List.length_append, List.length_singleton]
        omega
      obtain ⟨order, horder, hspec⟩ := ih h' hfuel' hlength'
      refine ⟨order, ?_, hspec⟩
      rw [kahnLoop, hrun]
      exact horder

theorem kahnLoop_mono {fuel fuel' : ℕ} {order : List ℕ} (hle : fuel ≤ fuel')
    (h : kahnLoop adj fuel queue topo inDeg = some order) :
    kahnLoop adj fuel' queue topo inDeg = some order := by
  induction fuel generalizing fuel' queue topo inDeg with
  | zero => cases h
  | succ fuel ih =>
    obtain ⟨more, rfl⟩ : ∃ more, fuel' = more + 1 := ⟨fuel' - 1, by omega⟩
    cases queue with
    | nil => exact h
    | cons u queue =>
      rw [kahnLoop] at h ⊢
      obtain ⟨r, hr, hrest⟩ := Option.bind_eq_some_iff.mp h
      rw [hr, Option.bind_some]
      exact ih (Nat.le_of_succ_le_succ hle) hrest

/-- The sort returns on every graph, with the same order for all fuel beyond the number of nodes. -/
theorem topoOrder_spec (hadj : ∀ u < n, ∀ v ∈ adj u, v < n) :
    ∃ order, IsTopoOrder adj n order ∧ ∀ fuel, n < fuel → topoOrder adj n fuel = some order := by
  have hfuel : n < ([] : List ℕ).length + (n + 1) :=
    Nat.lt_of_lt_of_le (Nat.lt_succ_self n) (Nat.le_add_left _ _)
  obtain ⟨order, hrun, hspec⟩ := (@KahnInv.initial adj n).loop hadj hfuel
  exact ⟨order, hspec, fun fuel hfuel => kahnLoop_mono hfuel hrun⟩

/-- Without a cycle, no node is missing. -/
theorem IsTopoOrder.complete (h : IsTopoOrder adj n topo)
    (hacyclic : ∀ v, ¬ Relation.TransGen (fun u v => u < n ∧ v < n ∧ v ∈ adj u) v v) :
    ∀ v < n, v ∈ topo := by
  let before : Fin n → Fin n → Prop := fun u v =>
    Relation.TransGen (fun u v => u < n ∧ v < n ∧ v ∈ adj u) u.val v.val
  have hwf : WellFounded before := by
    have : IsTrans (Fin n) before := ⟨fun _ _ _ huv hvw => huv.trans hvw⟩
    have : Std.Irrefl before := ⟨fun v => hacyclic v.val⟩
    exact Finite.wellFounded_of_trans_of_irrefl before
  intro v hv
  induction hi : (⟨v, hv⟩ : Fin n) using hwf.induction generalizing v with
  | h i ih =>
    subst hi
    refine h.closed v hv fun u hu hedge => ?_
    exact ih ⟨u, hu⟩ (.single ⟨hu, hv, hedge⟩) u hu rfl

end Tomii
