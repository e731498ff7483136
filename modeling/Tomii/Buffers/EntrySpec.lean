import Tomii.Buffers.NodeDep

/-! # What one call does to an entry

One call lowers the counters it hits and dispatches the candidates of the groups it hits.
With flags (no barrier, or a condition) an instance is returned when its flag is set for
the first time; without flags the zero transition of the counter returns the range. -/
namespace Tomii
set_option autoImplicit false
set_option maxHeartbeats 250000

namespace EntryShape

variable (sh : EntryShape)

/-- Sent flags decide what is returned: every mode but the plain barrier. -/
def flagged : Bool := !sh.hasBarrier || sh.isCondition

/-- Call `c` decrements the counter of group `g`. -/
def Hits (c : DepCall) (g : ℕ) : Prop := g < sh.numGroups ∧ (c.group = none ∨ c.group = some g)

instance (c : DepCall) (g : ℕ) : Decidable (sh.Hits c g) := inferInstanceAs (Decidable (_ ∧ _))

/-- What `c` takes off group `g`: `count as u32` where it hits. -/
def taken (c : DepCall) (g : ℕ) : ℕ := if sh.Hits c g then c.count % 2 ^ 32 else 0

/-- The instances the body of the loop for group `g` considers. -/
def candidates (g old new : ℕ) (specific : Option ℕ) : List ℕ :=
  if sh.hasBarrier then if 0 < old ∧ new = 0 then sh.groupRange g else []
  else
    match specific with
    | some i => if i < sh.factor then [i] else []
    | none => (sh.groupRange g).filter fun idx =>
        new ≤ sh.thresholdForInstanceInGroup (idx - g * sh.groupSize)

/-- Some group that `c` hits has `i` among its candidates. -/
def Dispatches (c : DepCall) (s : EntryState) (i : ℕ) : Prop :=
  ∃ g, sh.Hits c g ∧
    i ∈ sh.candidates g (s.remaining g) (s.remaining g - c.count % 2 ^ 32) c.specific

theorem candidates_nodup (g old new : ℕ) (specific : Option ℕ) :
    (sh.candidates g old new specific).Nodup := by
  unfold candidates
  split_ifs
  · exact sh.groupRange_nodup g
  · exact List.nodup_nil
  · cases specific with
    | none => exact (sh.groupRange_nodup g).filter _
    | some i =>
      simp only
      split_ifs <;> simp

theorem candidates_lt_factor {g old new i : ℕ} {specific : Option ℕ}
    (h : i ∈ sh.candidates g old new specific) : i < sh.factor := by
  unfold candidates at h
  split_ifs at h
  · exact sh.groupRange_lt_factor h
  · cases h
  · cases specific with
    | none => exact sh.groupRange_lt_factor (List.mem_of_mem_filter h)
    | some j =>
      simp only at h
      split_ifs at h with hj
      · rw [List.mem_singleton] at h
        omega
      · cases h

theorem threshold_le {idx g : ℕ} (hidx : idx ∈ sh.groupRange g) :
    sh.thresholdForInstanceInGroup (idx - g * sh.groupSize) ≤ sh.groupSize * sh.depsPerInstance := by
  rw [groupRange, List.mem_range'_1] at hidx
  rw [thresholdForInstanceInGroup, if_neg (by omega)]
  exact Nat.mul_le_mul_right _ (by omega)

theorem groupRange_disjoint {g g' i : ℕ} (hg : g < sh.numGroups) (hg' : g' < sh.numGroups)
    (hi : i ∈ sh.groupRange g) (hi' : i ∈ sh.groupRange g') : g = g' := by
  rw [sh.mem_groupRange hg] at hi
  rw [sh.mem_groupRange hg'] at hi'
  have hlt : g * sh.groupSize < (g' + 1) * sh.groupSize := lt_of_le_of_lt hi.1 hi'.2
  have hlt' : g' * sh.groupSize < (g + 1) * sh.groupSize := lt_of_le_of_lt hi'.1 hi.2
  have h1 := lt_of_mul_lt_mul_right hlt (Nat.zero_le _)
  have h2 := lt_of_mul_lt_mul_right hlt' (Nat.zero_le _)
  omega

end EntryShape

namespace EntryState

@[simp] theorem setRemaining_sent (s : EntryState) (g v : ℕ) : (s.setRemaining g v).sent = s.sent :=
  rfl

@[simp] theorem setRemaining_self (s : EntryState) (g v : ℕ) :
    (s.setRemaining g v).remaining g = v := by
  simp [setRemaining]

theorem setRemaining_of_ne (s : EntryState) {g g' : ℕ} (v : ℕ) (h : g' ≠ g) :
    (s.setRemaining g v).remaining g' = s.remaining g' := by
  simp [setRemaining, h]

/-! ## Sending a list of instances -/

theorem sendEach_remaining (is : List ℕ) (s : EntryState) :
    (plainOps.sendEach is s).2.remaining = s.remaining := by
  induction is generalizing s with
  | nil => rfl
  | cons i is ih =>
    simp only [CellOps.sendEach, ih]
    simp only [plainOps]
    split <;> rfl

theorem sendEach_sent (is : List ℕ) (s : EntryState) (j : ℕ) :
    (plainOps.sendEach is s).2.sent j = true ↔ s.sent j = true ∨ j ∈ is := by
  induction is generalizing s with
  | nil => simp [CellOps.sendEach]
  | cons i is ih =>
    simp only [CellOps.sendEach, ih]
    simp only [plainOps]
    by_cases hs : s.sent i = true
    · by_cases hj : j = i
      · subst hj
        simp [hs]
      · simp [hs, hj]
    · by_cases hj : j = i
      · subst hj
        simp [hs, setSent]
      · simp [hs, setSent, hj]

theorem sendEach_ready (is : List ℕ) (s : EntryState) (hnd : is.Nodup) :
    (plainOps.sendEach is s).1 = is.filter fun i => !s.sent i := by
  induction is generalizing s with
  | nil => rfl
  | cons i is ih =>
    obtain ⟨hi, hnd'⟩ := List.nodup_cons.mp hnd
    simp only [CellOps.sendEach, ih _ hnd']
    simp only [plainOps]
    by_cases hs : s.sent i = true
    · simp [hs]
    · have hkeep : is.filter (fun j => !(s.setSent i true).sent j) = is.filter fun j => !s.sent j := by
        apply List.filter_congr
        intro j hj
        have hne : j ≠ i := fun h => hi (h ▸ hj)
        simp [setSent, hne]
      simp only [hs, Bool.false_eq_true, if_false, if_true, hkeep]
      simp [hs]

/-! ## One group -/

variable (sh : EntryShape)

/-- A group's step in closed form. -/
theorem decreaseGroup_eq (g count : ℕ) (specific : Option ℕ) (s : EntryState) :
    plainOps.decreaseGroup sh g count specific s =
      let new := s.remaining g - count % 2 ^ 32
      let cands := sh.candidates g (s.remaining g) new specific
      if sh.flagged then plainOps.sendEach cands (s.setRemaining g new)
      else (cands, s.setRemaining g new) := by
  have hfetch : plainOps.fetchDec g count s =
      ((s.remaining g, s.remaining g - count % 2 ^ 32),
        s.setRemaining g (s.remaining g - count % 2 ^ 32)) := rfl
  simp only [CellOps.decreaseGroup, hfetch, EntryShape.candidates, EntryShape.flagged]
  generalize s.remaining g - count % 2 ^ 32 = new
  by_cases hb : sh.hasBarrier = true
  · by_cases hc : sh.isCondition = true <;> by_cases hz : 0 < s.remaining g ∧ new = 0
    · simp only [hb, hc, if_pos hz, if_true, Bool.or_true]
    · simp only [hb, hc, if_neg hz, if_true, Bool.or_true, CellOps.sendEach]
    · simp only [hb, hc, if_pos hz, if_true, Bool.not_true, Bool.or_self, Bool.false_eq_true,
        if_false]
    · simp only [hb, hc, if_neg hz, if_true, Bool.not_true, Bool.or_self, Bool.false_eq_true,
        if_false]
  · simp only [hb, Bool.false_eq_true, if_false, Bool.not_false, Bool.true_or, if_true]
    cases specific with
    | some i => by_cases hi : i < sh.factor <;> simp [hi, CellOps.sendEach]
    | none =>
      by_cases hmax : new ≤ sh.groupSize * sh.depsPerInstance
      · simp only [if_pos hmax]
      · have hempty : ((sh.groupRange g).filter fun idx =>
            decide (new ≤ sh.thresholdForInstanceInGroup (idx - g * sh.groupSize))) = [] := by
          rw [List.filter_eq_nil_iff]
          intro idx hidx hle
          exact hmax (le_trans (of_decide_eq_true hle) (sh.threshold_le hidx))
        simp only [if_neg hmax, hempty, CellOps.sendEach]

/-- The effect of one call or of a part of its group loop: the groups `G` it decrements. -/
structure Effect (G : ℕ → Prop) (count : ℕ) (specific : Option ℕ) (s : EntryState)
    (out : List ℕ × EntryState) : Prop where
  remaining_hit : ∀ g, G g → out.2.remaining g = s.remaining g - count % 2 ^ 32
  remaining_other : ∀ g, ¬ G g → out.2.remaining g = s.remaining g
  sent_iff : ∀ i, out.2.sent i = true ↔ s.sent i = true ∨ (sh.flagged = true ∧ ∃ g, G g ∧
    i ∈ sh.candidates g (s.remaining g) (s.remaining g - count % 2 ^ 32) specific)
  mem_ready : ∀ i, i ∈ out.1 ↔ (sh.flagged = true → s.sent i = false) ∧ ∃ g, G g ∧
    i ∈ sh.candidates g (s.remaining g) (s.remaining g - count % 2 ^ 32) specific
  nodup : out.1.Nodup

theorem decreaseGroup_effect (g count : ℕ) (specific : Option ℕ) (s : EntryState) :
    Effect sh (· = g) count specific s (plainOps.decreaseGroup sh g count specific s) := by
  rw [decreaseGroup_eq]
  cases hf : sh.flagged with
  | false =>
    simp only [Bool.false_eq_true, if_false]
    exact
      { remaining_hit := by rintro g' rfl; simp
        remaining_other := fun g' hg' => setRemaining_of_ne s _ hg'
        sent_iff := by simp [hf]
        mem_ready := by simp [hf]
        nodup := sh.candidates_nodup _ _ _ _ }
  | true =>
    simp only [if_true]
    exact
      { remaining_hit := by rintro g' rfl; simp [sendEach_remaining]
        remaining_other := by
          intro g' hg'
          rw [sendEach_remaining]
          exact setRemaining_of_ne s _ hg'
        sent_iff := by simp [sendEach_sent, hf]
        mem_ready := by
          intro i
          rw [sendEach_ready _ _ (sh.candidates_nodup _ _ _ _), List.mem_filter]
          simp [hf, and_comm]
        nodup := by
          rw [sendEach_ready _ _ (sh.candidates_nodup _ _ _ _)]
          exact (sh.candidates_nodup _ _ _ _).filter _ }

/-- Without flags the candidates of different groups are disjoint. -/
theorem unflagged_disjoint (hf : sh.flagged = false) {g g' old new old' new' i : ℕ}
    {specific : Option ℕ} (hg : g < sh.numGroups) (hg' : g' < sh.numGroups)
    (hi : i ∈ sh.candidates g old new specific) (hi' : i ∈ sh.candidates g' old' new' specific) :
    g = g' := by
  have hb : sh.hasBarrier = true := by
    by_contra h
    simp [EntryShape.flagged, h] at hf
  simp only [EntryShape.candidates, hb, if_true] at hi hi'
  split_ifs at hi hi'
  · exact sh.groupRange_disjoint hg hg' hi hi'
  all_goals first | cases hi | cases hi'

theorem decreaseGroups_effect (count : ℕ) (specific : Option ℕ) (gs : List ℕ) (s : EntryState)
    (hnd : gs.Nodup) (hlt : ∀ g ∈ gs, g < sh.numGroups) :
    Effect sh (· ∈ gs) count specific s (plainOps.decreaseGroups sh count specific gs s) := by
  induction gs generalizing s with
  | nil =>
    exact
      { remaining_hit := by simp
        remaining_other := fun _ _ => rfl
        sent_iff := by simp [CellOps.decreaseGroups]
        mem_ready := by simp [CellOps.decreaseGroups]
        nodup := List.nodup_nil }
  | cons g gs ih =>
    obtain ⟨hg, hnd'⟩ := List.nodup_cons.mp hnd
    have h1 := decreaseGroup_effect sh g count specific s
    have h2 := ih (plainOps.decreaseGroup sh g count specific s).2 hnd'
      fun x hx => hlt x (List.mem_cons_of_mem _ hx)
    simp only [CellOps.decreaseGroups]
    generalize plainOps.decreaseGroup sh g count specific s = out1 at h1 h2 ⊢
    -- the later groups still read the counters the call started with
    have hsame : ∀ x ∈ gs, out1.2.remaining x = s.remaining x := fun x hx =>
      h1.remaining_other x fun h => hg (h ▸ hx)
    have hcands : ∀ i, (∃ x, x ∈ gs ∧ i ∈ sh.candidates x (out1.2.remaining x)
          (out1.2.remaining x - count % 2 ^ 32) specific) ↔
        ∃ x, x ∈ gs ∧ i ∈ sh.candidates x (s.remaining x)
          (s.remaining x - count % 2 ^ 32) specific := by
      intro i
      constructor <;> rintro ⟨x, hx, hi⟩ <;> refine ⟨x, hx, ?_⟩
      · rwa [hsame x hx] at hi
      · rwa [hsame x hx]
    have hsplit : ∀ i, (∃ x, x ∈ g :: gs ∧ i ∈ sh.candidates x (s.remaining x)
          (s.remaining x - count % 2 ^ 32) specific) ↔
        i ∈ sh.candidates g (s.remaining g) (s.remaining g - count % 2 ^ 32) specific ∨
        ∃ x, x ∈ gs ∧ i ∈ sh.candidates x (s.remaining x)
          (s.remaining x - count % 2 ^ 32) specific := by
      simp
    have hready1 := h1.mem_ready
    have hsent1 := h1.sent_iff
    simp only [exists_eq_left] at hready1 hsent1
    refine ⟨?_, ?_, ?_, ?_, ?_⟩
    · intro x hx
      rcases List.mem_cons.mp hx with rfl | hx
      · rw [h2.remaining_other x hg, h1.remaining_hit x rfl]
      · rw [h2.remaining_hit x hx, hsame x hx]
    · intro x hx
      rw [List.mem_cons, not_or] at hx
      rw [h2.remaining_other x hx.2, h1.remaining_other x hx.1]
    · intro i
      rw [h2.sent_iff, hsent1, hcands, hsplit]
      tauto
    · intro i
      rw [List.mem_append, h2.mem_ready, hready1, hcands, hsplit]
      have hs1 := hsent1 i
      generalize (i ∈ sh.candidates g (s.remaining g) (s.remaining g - count % 2 ^ 32) specific) = P
        at hs1 ⊢
      generalize (∃ x, x ∈ gs ∧ i ∈ sh.candidates x (s.remaining x)
        (s.remaining x - count % 2 ^ 32) specific) = Q
      rw [← Bool.not_eq_true, ← Bool.not_eq_true]
      tauto
    · rw [List.nodup_append]
      refine ⟨h1.nodup, h2.nodup, ?_⟩
      intro a ha b hb hab
      subst hab
      rw [hready1] at ha
      rw [h2.mem_ready, hcands] at hb
      obtain ⟨x, hx, hbx⟩ := hb.2
      cases hf : sh.flagged with
      | false =>
        have := unflagged_disjoint sh hf (hlt g List.mem_cons_self)
          (hlt x (List.mem_cons_of_mem _ hx)) ha.2 hbx
        exact hg (this ▸ hx)
      | true =>
        have hsent : out1.2.sent a = true := (hsent1 a).mpr (.inr ⟨hf, ha.2⟩)
        rw [hb.1 hf] at hsent
        cases hsent

theorem Effect.congr {sh : EntryShape} {G G' : ℕ → Prop} {count : ℕ} {specific : Option ℕ}
    {s : EntryState} {out : List ℕ × EntryState} (h : Effect sh G count specific s out)
    (hG : ∀ g, G g ↔ G' g) : Effect sh G' count specific s out := by
  have heq : G = G' := funext fun g => propext (hG g)
  exact heq ▸ h

/-- One call: the counters, the flags and what it returns. -/
theorem call_effect (c : DepCall) (s : EntryState) :
    Effect sh (sh.Hits c) c.count c.specific s (call sh c s) := by
  obtain ⟨group, count, specific⟩ := c
  cases group with
  | none =>
    refine (decreaseGroups_effect sh count specific (List.range sh.numGroups) s List.nodup_range
      (by simp)).congr fun g => ?_
    simp [EntryShape.Hits]
  | some g =>
    by_cases hg : g < sh.numGroups
    · have hcall : call sh ⟨some g, count, specific⟩ s =
          plainOps.decreaseGroups sh count specific [g] s := if_pos hg
      rw [hcall]
      refine (decreaseGroups_effect sh count specific [g] s (List.nodup_cons.mpr ⟨List.not_mem_nil, List.nodup_nil⟩)
        (by simpa using hg)).congr fun x => ?_
      simp only [List.mem_singleton, EntryShape.Hits, Option.some.injEq, reduceCtorEq, false_or]
      constructor
      · rintro rfl
        exact ⟨hg, rfl⟩
      · exact fun h => h.2.symm
    · have hcall : call sh ⟨some g, count, specific⟩ s = ([], s) := if_neg hg
      rw [hcall]
      refine (decreaseGroups_effect sh count specific [] s List.nodup_nil (by simp)).congr
        fun x => ?_
      simp only [List.not_mem_nil, EntryShape.Hits, Option.some.injEq, reduceCtorEq, false_or,
        false_iff]
      rintro ⟨hx, rfl⟩
      exact hg hx

theorem call_remaining (c : DepCall) (s : EntryState) (g : ℕ) :
    (call sh c s).2.remaining g = s.remaining g - sh.taken c g := by
  have h := call_effect sh c s
  unfold EntryShape.taken
  split
  · next hg => exact h.remaining_hit g hg
  · next hg => exact h.remaining_other g hg

end EntryState

end Tomii
