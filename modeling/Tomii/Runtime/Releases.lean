import Tomii.Runtime.CallTotals

/-! # What a list of calls releases

From a fresh entry a list of calls returns exactly the instances that it releases, each once:
under a barrier those of the groups it empties; otherwise those it names, and those whose
threshold a call on their group comes down to. -/
namespace Tomii
set_option autoImplicit false
set_option maxHeartbeats 250000

namespace EntryShape

variable (sh : EntryShape)

/-- Without a barrier, `c` coming after `before` lets `j` go: it names `j`, or it names no
instance and `before` and `c` leave the group of `j` within its threshold. -/
def Frees (before : List DepCall) (c : DepCall) (j : ℕ) : Prop :=
  match c.specific with
  | some i => i = j ∧ j < sh.factor ∧ ∃ g, sh.Hits c g
  | none => ∃ g, sh.Hits c g ∧ j ∈ sh.groupRange g ∧
      sh.depsPerGroup.toNat ≤ sh.takenBy (before ++ [c]) g +
        sh.thresholdForInstanceInGroup (j - g * sh.groupSize)

/-- The calls `cs`, in this order, release instance `j` of a fresh entry. -/
def Releases (cs : List DepCall) (j : ℕ) : Prop :=
  if sh.hasBarrier then
    ∃ g < sh.numGroups, j ∈ sh.groupRange g ∧
      0 < sh.depsPerGroup.toNat ∧ sh.depsPerGroup.toNat ≤ sh.takenBy cs g
  else ∃ before c after, cs = before ++ c :: after ∧ sh.Frees before c j

theorem not_releases_nil (j : ℕ) : ¬ sh.Releases [] j := by
  unfold Releases
  split
  · intro ⟨g, _, _, hpos, hle⟩
    rw [takenBy_nil] at hle
    omega
  · intro ⟨before, c, after, hnil, _⟩
    have hlen := congrArg List.length hnil
    simp at hlen

theorem releases_concat_of_free {cs : List DepCall} {c : DepCall} {j : ℕ}
    (hb : sh.hasBarrier = false) :
    sh.Releases (cs ++ [c]) j ↔ sh.Releases cs j ∨ sh.Frees cs c j := by
  simp only [Releases, hb, Bool.false_eq_true, if_false]
  constructor
  · intro ⟨before, d, after, heq, hfree⟩
    cases after using List.reverseRecOn with
    | nil =>
      obtain ⟨hbefore, hd⟩ := List.append_inj' heq rfl
      rw [List.singleton_inj] at hd
      subst hbefore hd
      exact .inr hfree
    | append_singleton after e =>
      have hsplit : cs ++ [c] = (before ++ d :: after) ++ [e] := by simpa using heq
      obtain ⟨hcs, -⟩ := List.append_inj' hsplit rfl
      exact .inl ⟨before, d, after, hcs, hfree⟩
  · intro h
    cases h with
    | inl h =>
      obtain ⟨before, d, after, heq, hfree⟩ := h
      exact ⟨before, d, after ++ [c], by simp [heq], hfree⟩
    | inr h => exact ⟨cs, c, [], rfl, h⟩

/-- More calls release more. -/
theorem Releases.append {cs : List DepCall} {j : ℕ} (h : sh.Releases cs j) (ds : List DepCall) :
    sh.Releases (cs ++ ds) j := by
  unfold Releases at h ⊢
  split
  · next hb =>
    rw [if_pos hb] at h
    obtain ⟨g, hg, hj, hpos, hle⟩ := h
    refine ⟨g, hg, hj, hpos, ?_⟩
    rw [takenBy_append]
    omega
  · next hb =>
    rw [if_neg hb] at h
    obtain ⟨before, c, after, heq, hfree⟩ := h
    exact ⟨before, c, after ++ ds, by simp [heq], hfree⟩

end EntryShape

namespace EntryState

variable (sh : EntryShape)

/-! ## One more call -/

/-- No counter is below what the calls `cs` leave of its initial value, and a counter that
starts at 0 under a barrier stays there. -/
structure Above (cs : List DepCall) (s : EntryState) : Prop where
  quota : ∀ g, sh.depsPerGroup.toNat ≤ s.remaining g + sh.takenBy cs g
  spent : sh.hasBarrier = true → sh.depsPerGroup.toNat = 0 → ∀ g, s.remaining g = 0

theorem above_initial : Above sh [] (initial sh) := by
  refine ⟨fun g => ?_, fun _ hz g => hz⟩
  exact Nat.le_add_right _ _

theorem takenBy_concat {c : DepCall} {g : ℕ} (hg : sh.Hits c g) (cs : List DepCall) :
    sh.takenBy (cs ++ [c]) g = sh.takenBy cs g + c.count % 2 ^ 32 := by
  rw [EntryShape.takenBy_append, EntryShape.takenBy_cons, EntryShape.takenBy_nil,
    EntryShape.taken, if_pos hg, Nat.add_zero]

/-- What a call dispatches, it and the calls before it release. -/
theorem Above.releases {cs : List DepCall} {s : EntryState} (h : Above sh cs s) {c : DepCall}
    {j : ℕ} (hd : sh.Dispatches c s j) : sh.Releases (cs ++ [c]) j := by
  obtain ⟨g, hg, hj⟩ := hd
  have hquota := h.quota g
  have htaken := takenBy_concat sh hg cs
  unfold EntryShape.candidates at hj
  by_cases hb : sh.hasBarrier = true
  · rw [if_pos hb] at hj
    unfold EntryShape.Releases
    rw [if_pos hb]
    split at hj
    · next hz =>
      have hspent := h.spent hb
      refine ⟨g, hg.1, hj, ?_, by omega⟩
      by_contra hzero
      have := hspent (by omega) g
      omega
    · cases hj
  · have hbf : sh.hasBarrier = false := Bool.eq_false_of_not_eq_true hb
    rw [if_neg hb] at hj
    rw [sh.releases_concat_of_free hbf]
    right
    unfold EntryShape.Frees
    cases hspec : c.specific with
    | some i =>
      simp only [hspec] at hj
      split at hj
      · next hi =>
        have hji := List.mem_singleton.mp hj
        exact ⟨hji.symm, by omega, g, hg⟩
      · cases hj
    | none =>
      simp only [hspec, List.mem_filter, decide_eq_true_eq] at hj
      exact ⟨g, hg, hj.1, by omega⟩

theorem Above.next {cs : List DepCall} {s : EntryState} (h : Above sh cs s) (c : DepCall) :
    Above sh (cs ++ [c]) (call sh c s).2 := by
  refine ⟨fun g => ?_, fun hb hz g => ?_⟩
  · have := h.quota g
    rw [call_remaining, EntryShape.takenBy_append, EntryShape.takenBy_cons, EntryShape.takenBy_nil]
    omega
  · have := h.spent hb hz g
    rw [call_remaining]
    omega

theorem Above.append {cs : List DepCall} {s : EntryState} (h : Above sh cs s) (ds : List DepCall) :
    Above sh (cs ++ ds) s := by
  refine ⟨fun g => ?_, h.spent⟩
  have := h.quota g
  rw [EntryShape.takenBy_append]
  omega

/-- What a list of calls returns, it and the calls before it release. -/
theorem Above.run {cs : List DepCall} {s : EntryState} (h : Above sh cs s)
    (ds : List DepCall) : Above sh (cs ++ ds) (runCalls (call sh) ds s).2 ∧
      ∀ j ∈ (runCalls (call sh) ds s).1, sh.Releases (cs ++ ds) j := by
  induction ds generalizing cs s with
  | nil =>
    rw [List.append_nil]
    exact ⟨h, fun j hj => by cases hj⟩
  | cons c ds ih =>
    obtain ⟨habove, hrel⟩ := ih (h.next sh c)
    rw [List.append_assoc, List.singleton_append] at habove hrel
    refine ⟨habove, fun j hj => ?_⟩
    rw [runCalls_cons, List.mem_append] at hj
    cases hj with
    | inl hj =>
      have hdisp := ((call_effect sh c s).mem_ready j).mp hj
      have hfirst := (h.releases sh hdisp.2).append sh ds
      rwa [List.append_assoc, List.singleton_append] at hfirst
    | inr hj => exact hrel j hj

/-- Raising counters keeps the bound, once something was released. -/
theorem Above.raise {cs : List DepCall} {s s' : EntryState} (h : Above sh cs s)
    (hle : ∀ g, s.remaining g ≤ s'.remaining g) {j : ℕ} (hj : sh.Releases cs j) :
    Above sh cs s' := by
  refine ⟨fun g => ?_, fun hb hz => ?_⟩
  · have := h.quota g
    have := hle g
    omega
  · unfold EntryShape.Releases at hj
    rw [if_pos hb] at hj
    obtain ⟨g, -, -, hpos, -⟩ := hj
    omega

/-- On the counters that the calls `cs` leave, one more call releases what it dispatches. -/
theorem releases_concat {cs : List DepCall} {s : EntryState}
    (hrem : ∀ g, s.remaining g = sh.depsPerGroup.toNat - sh.takenBy cs g) (c : DepCall) (j : ℕ) :
    sh.Releases (cs ++ [c]) j ↔ sh.Releases cs j ∨ sh.Dispatches c s j := by
  have habove : Above sh cs s := by
    refine ⟨fun g => ?_, fun _ hz g => ?_⟩
    · have := hrem g
      omega
    · have := hrem g
      omega
  constructor
  · intro h
    by_cases hb : sh.hasBarrier = true
    · unfold EntryShape.Releases at h ⊢
      rw [if_pos hb] at h ⊢
      obtain ⟨g, hg, hj, hpos, hle⟩ := h
      by_cases hbefore : sh.depsPerGroup.toNat ≤ sh.takenBy cs g
      · exact .inl ⟨g, hg, hj, hpos, hbefore⟩
      · right
        have hhit : sh.Hits c g := by
          by_contra hno
          rw [EntryShape.takenBy_append, EntryShape.takenBy_cons, EntryShape.takenBy_nil,
            EntryShape.taken, if_neg hno] at hle
          omega
        have htaken := takenBy_concat sh hhit cs
        have := hrem g
        refine ⟨g, hhit, ?_⟩
        unfold EntryShape.candidates
        rw [if_pos hb, if_pos (by omega)]
        exact hj
    · have hbf : sh.hasBarrier = false := Bool.eq_false_of_not_eq_true hb
      rw [sh.releases_concat_of_free hbf] at h
      refine h.imp_right fun hfree => ?_
      unfold EntryShape.Frees at hfree
      cases hspec : c.specific with
      | some i =>
        simp only [hspec] at hfree
        obtain ⟨hij, hlt, g, hg⟩ := hfree
        refine ⟨g, hg, ?_⟩
        subst hij
        simp [EntryShape.candidates, hbf, hspec, hlt]
      | none =>
        simp only [hspec] at hfree
        obtain ⟨g, hg, hj, hle⟩ := hfree
        have htaken := takenBy_concat sh hg cs
        have := hrem g
        refine ⟨g, hg, ?_⟩
        simp only [EntryShape.candidates, hbf, hspec, Bool.false_eq_true, if_false,
          List.mem_filter, decide_eq_true_eq]
        exact ⟨hj, by omega⟩
  · intro h
    cases h with
    | inl h => exact h.append sh [c]
    | inr h => exact habove.releases sh h

/-! ## A whole list from a fresh entry -/

theorem runCalls_concat (cs : List DepCall) (c : DepCall) (s : EntryState) :
    runCalls (call sh) (cs ++ [c]) s =
      ((runCalls (call sh) cs s).1 ++ (call sh c (runCalls (call sh) cs s).2).1,
        (call sh c (runCalls (call sh) cs s).2).2) := by
  simp [runCalls_append]

/-- The calls return what they release, each instance once. -/
structure Returns (cs : List DepCall) (out : List ℕ × EntryState) : Prop where
  remaining : ∀ g, out.2.remaining g = sh.depsPerGroup.toNat - sh.takenBy cs g
  sent : sh.flagged = true → ∀ j, out.2.sent j = true ↔ sh.Releases cs j
  ready : ∀ j, j ∈ out.1 ↔ sh.Releases cs j
  nodup : out.1.Nodup

theorem runCalls_returns (cs : List DepCall) :
    Returns sh cs (runCalls (call sh) cs (initial sh)) := by
  induction cs using List.reverseRecOn with
  | nil =>
    refine ⟨fun g => rfl, fun _ j => ?_, fun j => ?_, List.nodup_nil⟩
    · exact iff_of_false (by simp [initial]) (sh.not_releases_nil j)
    · exact iff_of_false (by simp) (sh.not_releases_nil j)
  | append_singleton cs c ih =>
    rw [runCalls_concat]
    generalize runCalls (call sh) cs (initial sh) = out at ih
    have heff := call_effect sh c out.2
    have hsnoc := fun j => releases_concat sh ih.remaining c j
    have hdisp : ∀ j, sh.Dispatches c out.2 j ↔ ∃ g, sh.Hits c g ∧
        j ∈ sh.candidates g (out.2.remaining g) (out.2.remaining g - c.count % 2 ^ 32) c.specific :=
      fun _ => Iff.rfl
    -- without flags a group that was released before has no zero transition left
    have honce : sh.flagged = false → ∀ j, sh.Releases cs j → ¬ sh.Dispatches c out.2 j := by
      rintro hf j hrel ⟨g, hg, hj⟩
      have hb : sh.hasBarrier = true := by
        by_contra h
        simp [EntryShape.flagged, h] at hf
      unfold EntryShape.Releases at hrel
      unfold EntryShape.candidates at hj
      rw [if_pos hb] at hrel hj
      obtain ⟨g', hg', hj', -, hle⟩ := hrel
      split at hj
      · next hz =>
        obtain rfl := sh.groupRange_disjoint hg.1 hg' hj hj'
        have := ih.remaining g
        omega
      · cases hj
    refine ⟨fun g => ?_, fun hf j => ?_, fun j => ?_, ?_⟩
    · have := ih.remaining g
      rw [call_remaining, EntryShape.takenBy_append, EntryShape.takenBy_cons,
        EntryShape.takenBy_nil]
      omega
    · rw [heff.sent_iff, ih.sent hf, hsnoc, hdisp]
      simp [hf]
    · rw [List.mem_append, ih.ready, heff.mem_ready, hsnoc, ← hdisp]
      constructor
      · intro h
        exact h.imp_right fun h => h.2
      · intro h
        by_cases hrel : sh.Releases cs j
        · exact .inl hrel
        · refine .inr ⟨fun hf => ?_, h.resolve_left hrel⟩
          exact Bool.eq_false_of_not_eq_true fun hs => hrel ((ih.sent hf j).mp hs)
    · rw [List.nodup_append]
      refine ⟨ih.nodup, heff.nodup, ?_⟩
      intro a ha b hb hab
      subst hab
      rw [ih.ready] at ha
      rw [heff.mem_ready, ← hdisp] at hb
      cases hf : sh.flagged with
      | false => exact honce hf a ha hb.2
      | true =>
        have hsent := (ih.sent hf a).mpr ha
        rw [hb.1 hf] at hsent
        cases hsent

end EntryState

end Tomii
