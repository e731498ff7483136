import Tomii.Foundations.TopologicalOrder
import Mathlib.Algebra.Order.Monoid.Defs
import Mathlib.Algebra.Order.Monoid.Unbundled.Basic
import Mathlib.Algebra.BigOperators.Group.List.Basic

/-! # Longest paths along a topological order

Every node is given the weight of the heaviest path to it that is known, and the node before it on
that path. Nodes are taken in topological order, so that what is known of a node is final when its
edges are looked at. -/
namespace Tomii
set_option autoImplicit false
set_option maxHeartbeats 250000

variable {W : Type} [AddCommMonoid W] [LinearOrder W]

/-! ## Relaxation -/

structure Estimate (W : Type) where
  dist : ℕ → W
  prev : ℕ → Option ℕ

def relax (weights : ℕ → W) (u : ℕ) (e : Estimate W) (v : ℕ) : Estimate W :=
  if e.dist v < e.dist u + weights v then
    ⟨Function.update e.dist v (e.dist u + weights v), Function.update e.prev v (some u)⟩
  else e

def estimate (adj : ℕ → List ℕ) (weights : ℕ → W) (topo : List ℕ) : Estimate W :=
  topo.foldl (fun e u => (adj u).foldl (relax weights u) e) ⟨weights, fun _ => none⟩

/-- The nodes back to the start of a path, while the fuel lasts. -/
def backTrace (prev : ℕ → Option ℕ) : ℕ → ℕ → Option (List ℕ)
  | 0, _ => none
  | fuel + 1, cur =>
    match prev cur with
    | none => some [cur]
    | some p => (backTrace prev fuel p).map (cur :: ·)

/-- The last one of the greatest values below `n`. -/
def argMax (dist : ℕ → W) (n : ℕ) : Option ℕ :=
  (List.range n).foldl (fun best i =>
    match best with
    | none => some i
    | some b => if dist i < dist b then some b else some i) none

omit [AddCommMonoid W] in
theorem argMax_spec (dist : ℕ → W) (n : ℕ) :
    (argMax dist n = none ∧ n = 0) ∨
      ∃ b, argMax dist n = some b ∧ b < n ∧ ∀ i < n, dist i ≤ dist b := by
  induction n with
  | zero => exact .inl ⟨rfl, rfl⟩
  | succ n ih =>
    have hsucc : argMax dist (n + 1) = (match argMax dist n with
        | none => some n
        | some b => if dist n < dist b then some b else some n) := by
      rw [argMax, List.range_succ, List.foldl_concat, argMax]
    right
    rcases ih with ⟨hnone, rfl⟩ | ⟨b, hb, hlt, hmax⟩
    · refine ⟨0, by rw [hsucc, hnone], Nat.lt_succ_self 0, fun i hi => ?_⟩
      obtain rfl := Nat.lt_one_iff.mp hi
      exact le_rfl
    · rw [hb] at hsucc
      by_cases hless : dist n < dist b
      · refine ⟨b, by rw [hsucc]; exact if_pos hless, hlt.trans (Nat.lt_succ_self n), fun i hi => ?_⟩
        rcases Nat.lt_succ_iff_lt_or_eq.mp hi with hi | rfl
        · exact hmax i hi
        · exact hless.le
      · refine ⟨n, by rw [hsucc]; exact if_neg hless, Nat.lt_succ_self n, fun i hi => ?_⟩
        rcases Nat.lt_succ_iff_lt_or_eq.mp hi with hi | rfl
        · exact (hmax i hi).trans (not_lt.mp hless)
        · exact le_rfl

/-! ## What is known of the nodes -/

/-- The estimates when the nodes of `done` have been looked at, and those edges from `u` that lead
into `seen`. -/
structure Estimated (adj : ℕ → List ℕ) (weights : ℕ → W) (done : List ℕ) (u : ℕ) (seen : List ℕ)
    (e : Estimate W) : Prop where
  base : ∀ v, weights v ≤ e.dist v
  start : ∀ v, e.prev v = none → e.dist v = weights v
  reached : ∀ v p, e.prev v = some p →
    (p ∈ done ∨ p = u ∧ v ∈ seen) ∧ v ∈ adj p ∧ e.dist v = e.dist p + weights v
  relaxed : ∀ p v, p ∈ done ∧ v ∈ adj p ∨ p = u ∧ v ∈ seen → e.dist p + weights v ≤ e.dist v

variable {adj : ℕ → List ℕ} {weights : ℕ → W} {done seen : List ℕ} {u : ℕ} {e : Estimate W}

/-- An edge into a node that is not looked at yet. -/
theorem Estimated.relax {v : ℕ} (h : Estimated adj weights done u seen e) (hedge : v ∈ adj u)
    (hlater : v ∉ done) (hself : v ≠ u) :
    Estimated adj weights done u (v :: seen) (relax weights u e v) := by
  have hdone : ∀ p, (p ∈ done ∨ p = u) → p ≠ v := by
    rintro p (hp | rfl) rfl
    · exact hlater hp
    · exact hself rfl
  unfold Tomii.relax
  split
  · next hless =>
    have hgrow : ∀ w, e.dist w ≤ Function.update e.dist v (e.dist u + weights v) w := by
      intro w
      by_cases hw : w = v
      · subst hw
        rw [Function.update_self]
        exact hless.le
      · rw [Function.update_of_ne hw]
    refine ⟨fun w => (h.base w).trans (hgrow w), fun w hw => ?_, fun w p hw => ?_, ?_⟩
    · by_cases hwv : w = v
      · subst hwv
        simp at hw
      · simp only [Function.update_of_ne hwv] at hw ⊢
        exact h.start w hw
    · by_cases hwv : w = v
      · subst hwv
        simp only [Function.update_self, Option.some.injEq] at hw ⊢
        subst hw
        rw [Function.update_of_ne (Ne.symm hself)]
        exact ⟨.inr ⟨rfl, List.mem_cons_self⟩, hedge, rfl⟩
      · simp only [Function.update_of_ne hwv] at hw ⊢
        obtain ⟨hp, hadj, hdist⟩ := h.reached w p hw
        have hpv : p ≠ v := hdone p (hp.imp id And.left)
        rw [Function.update_of_ne hpv]
        exact ⟨hp.imp id fun hp => ⟨hp.1, List.mem_cons_of_mem _ hp.2⟩, hadj, hdist⟩
    · intro p w hpw
      have hpv : p ≠ v := hdone p (hpw.imp And.left And.left)
      show Function.update e.dist v _ p + _ ≤ Function.update e.dist v _ w
      rw [Function.update_of_ne hpv]
      rcases hpw with hpw | ⟨rfl, hw⟩
      · exact (h.relaxed p w (.inl hpw)).trans (hgrow w)
      · rcases List.mem_cons.mp hw with rfl | hw
        · rw [Function.update_self]
        · exact (h.relaxed p w (.inr ⟨rfl, hw⟩)).trans (hgrow w)
  · next hmore =>
    refine ⟨h.base, h.start, fun w p hw => ?_, ?_⟩
    · obtain ⟨hp, hadj, hdist⟩ := h.reached w p hw
      exact ⟨hp.imp id fun hp => ⟨hp.1, List.mem_cons_of_mem _ hp.2⟩, hadj, hdist⟩
    · rintro p w (hpw | ⟨rfl, hw⟩)
      · exact h.relaxed p w (.inl hpw)
      · rcases List.mem_cons.mp hw with rfl | hw
        · exact not_lt.mp hmore
        · exact h.relaxed p w (.inr ⟨rfl, hw⟩)

theorem Estimated.relaxAll (h : Estimated adj weights done u seen e) (vs : List ℕ)
    (hvs : ∀ v ∈ vs, v ∈ adj u ∧ v ∉ done ∧ v ≠ u) :
    Estimated adj weights done u (vs.reverse ++ seen) (vs.foldl (Tomii.relax weights u) e) := by
  induction vs generalizing e seen with
  | nil => exact h
  | cons v vs ih =>
    obtain ⟨⟨hedge, hlater, hself⟩, hrest⟩ := List.forall_mem_cons.mp hvs
    rw [List.foldl_cons, List.reverse_cons, List.append_assoc]
    exact ih (h.relax hedge hlater hself) hrest

/-- When all its edges have been looked at, a node is done. -/
theorem Estimated.next (h : Estimated adj weights done u (adj u).reverse e) (w : ℕ) :
    Estimated adj weights (done ++ [u]) w [] e where
  base := h.base
  start := h.start
  reached := by
    intro v p hv
    obtain ⟨hp, hadj, hdist⟩ := h.reached v p hv
    refine ⟨.inl ?_, hadj, hdist⟩
    rcases hp with hp | ⟨rfl, -⟩
    · exact List.mem_append_left _ hp
    · exact List.mem_append_right _ List.mem_cons_self
  relaxed := by
    rintro p v (⟨hp, hv⟩ | ⟨-, hv⟩)
    · rcases List.mem_append.mp hp with hp | hp
      · exact h.relaxed p v (.inl ⟨hp, hv⟩)
      · obtain rfl := List.mem_singleton.mp hp
        exact h.relaxed p v (.inr ⟨rfl, List.mem_reverse.mpr hv⟩)
    · exact absurd hv List.not_mem_nil

variable {n : ℕ} {topo : List ℕ}

/-- The nodes of a topological order, one after the other. -/
theorem estimated_topo (htopo : IsTopoOrder adj n topo) (w : ℕ) :
    Estimated adj weights topo w [] (estimate adj weights topo) := by
  have hall : ∀ pre rest, topo = pre ++ rest →
      Estimated adj weights pre w [] (estimate adj weights pre) := by
    intro pre
    induction pre using List.reverseRecOn with
    | nil =>
      intro rest _
      refine ⟨fun v => le_rfl, fun v _ => rfl, fun v p hv => ?_, ?_⟩
      · cases hv
      · rintro p v (⟨hp, -⟩ | ⟨-, hv⟩)
        · exact absurd hp List.not_mem_nil
        · exact absurd hv List.not_mem_nil
    | append_singleton pre u ih =>
      intro rest heq
      have heq' : topo = pre ++ u :: rest := by rw [heq, List.append_assoc]; rfl
      have hu : u < n := htopo.bounded u (heq' ▸ List.mem_append_right _ List.mem_cons_self)
      have hnodup : (pre ++ u :: rest).Nodup := heq' ▸ htopo.nodup
      have hfresh : u ∉ pre := fun hin =>
        (List.nodup_append.mp hnodup).2.2 u hin u List.mem_cons_self rfl
      have hlater : ∀ v ∈ adj u, v ∈ adj u ∧ v ∉ pre ∧ v ≠ u := by
        refine fun v hv => ⟨hv, fun hin => ?_, ?_⟩
        · obtain ⟨pre', post', rfl⟩ := List.append_of_mem hin
          have hsplit : topo = pre' ++ v :: (post' ++ u :: rest) := by
            rw [heq', List.append_assoc]
            rfl
          exact hfresh (List.mem_append_left _ (htopo.ordered hsplit u hu hv))
        · rintro rfl
          exact hfresh (htopo.ordered heq' v hu hv)
      have hstart : Estimated adj weights pre u [] (estimate adj weights pre) := by
        have hpre := ih (u :: rest) heq'
        refine ⟨hpre.base, hpre.start, fun v p hv => ?_, ?_⟩
        · obtain ⟨hp, hadj⟩ := hpre.reached v p hv
          exact ⟨.inl (hp.resolve_right fun h => List.not_mem_nil h.2), hadj⟩
        · rintro p v (hp | ⟨-, hv⟩)
          · exact hpre.relaxed p v (.inl hp)
          · exact absurd hv List.not_mem_nil
      have hrun := hstart.relaxAll (adj u) hlater
      rw [List.append_nil] at hrun
      rw [estimate, List.foldl_concat]
      exact hrun.next w
  exact hall topo [] (List.append_nil topo).symm

/-! ## The path that is traced back -/

theorem backTrace_mono {prev : ℕ → Option ℕ} {fuel fuel' : ℕ} (hle : fuel ≤ fuel') {v : ℕ}
    {path : List ℕ} (h : backTrace prev fuel v = some path) :
    backTrace prev fuel' v = some path := by
  induction fuel generalizing fuel' v path with
  | zero => cases h
  | succ fuel ih =>
    obtain ⟨more, rfl⟩ : ∃ more, fuel' = more + 1 := ⟨fuel' - 1, by omega⟩
    rw [backTrace] at h ⊢
    cases hprev : prev v with
    | none =>
      rw [hprev] at h
      exact h
    | some p =>
      rw [hprev] at h
      obtain ⟨rest, hrest, hpath⟩ := Option.map_eq_some_iff.mp h
      show (backTrace prev more p).map (v :: ·) = some path
      rw [ih (Nat.le_of_succ_le_succ hle) hrest]
      exact congrArg some hpath

/-- A path of the graph, the last node first. All nodes but the last one are in the order. -/
def IsTrace (adj : ℕ → List ℕ) (topo path : List ℕ) : Prop :=
  path.IsChain fun v p => p ∈ topo ∧ v ∈ adj p

/-- Back pointers lead backwards in the order. -/
theorem Estimated.backTrace (htopo : IsTopoOrder adj n topo)
    (h : Estimated adj weights topo u [] e) (v : ℕ) :
    ∃ rest, Tomii.backTrace e.prev (topo.length + 1) v = some (v :: rest) ∧
      IsTrace adj topo (v :: rest) ∧ ((v :: rest).map weights).sum = e.dist v := by
  have hback : ∀ pre : List ℕ, (∃ post, topo = pre ++ post) →
      ∀ v, (∀ p, e.prev v = some p → p ∈ pre) →
      ∃ rest, Tomii.backTrace e.prev (pre.length + 1) v = some (v :: rest) ∧
        IsTrace adj topo (v :: rest) ∧ ((v :: rest).map weights).sum = e.dist v := by
    intro pre
    induction hlen : pre.length using Nat.strong_induction_on generalizing pre with
    | h len ih =>
      rintro ⟨post, hpost⟩ v hv
      subst hlen
      cases hprev : e.prev v with
      | none =>
        refine ⟨[], ?_, .singleton v, ?_⟩
        · rw [Tomii.backTrace, hprev]
        · rw [h.start v hprev, List.map_singleton, List.sum_singleton]
      | some p =>
        obtain ⟨pre', post', rfl⟩ := List.append_of_mem (hv p hprev)
        rw [List.append_assoc, List.cons_append] at hpost
        have hp : p ∈ topo := hpost ▸ List.mem_append_right _ List.mem_cons_self
        obtain ⟨-, hedge, hdist⟩ := h.reached v p hprev
        have hlater : ∀ q, e.prev p = some q → q ∈ pre' := by
          intro q hq
          obtain ⟨hmem, hadj, -⟩ := h.reached p q hq
          have hq' : q ∈ topo := hmem.resolve_right fun hin => List.not_mem_nil hin.2
          exact htopo.ordered hpost q (htopo.bounded q hq') hadj
        have hshort : pre'.length < (pre' ++ p :: post').length := by
          rw [List.length_append, List.length_cons]
          omega
        obtain ⟨rest, htrace, hchain, hsum⟩ := ih _ hshort pre' rfl ⟨_, hpost⟩ p hlater
        refine ⟨p :: rest, ?_, .cons_cons ⟨hp, hedge⟩ hchain, ?_⟩
        · rw [Tomii.backTrace, hprev]
          show (Tomii.backTrace e.prev _ p).map (v :: ·) = _
          rw [backTrace_mono hshort htrace]
          rfl
        · rw [List.map_cons, List.sum_cons, hsum, hdist, add_comm]
  refine hback topo ⟨[], (List.append_nil topo).symm⟩ v fun p hp => ?_
  exact (h.reached v p hp).1.resolve_right fun hin => List.not_mem_nil hin.2

/-- No path to a node weighs more than what is known of the node. -/
theorem Estimated.sum_le [IsOrderedAddMonoid W] (h : Estimated adj weights topo u [] e)
    {v : ℕ} {rest : List ℕ} (hpath : IsTrace adj topo (v :: rest)) :
    ((v :: rest).map weights).sum ≤ e.dist v := by
  induction rest generalizing v with
  | nil =>
    rw [List.map_singleton, List.sum_singleton]
    exact h.base v
  | cons p rest ih =>
    obtain ⟨⟨hp, hedge⟩, hrest⟩ := List.isChain_cons_cons.mp hpath
    calc ((v :: p :: rest).map weights).sum
        = ((p :: rest).map weights).sum + weights v := by
          rw [List.map_cons, List.sum_cons, add_comm]
      _ ≤ e.dist p + weights v := add_le_add_left (ih hrest) _
      _ ≤ e.dist v := h.relaxed p v (.inl ⟨hp, hedge⟩)

end Tomii
