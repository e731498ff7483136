import Tomii.Runtime.EdgeCalls

/-! # The outcome of a list of calls

When no call names a specific instance, or the barrier ignores it, the outcome of a list of
calls depends only on which groups it hits and on what it takes off each of them in total:
the order of the calls and how the total is split among them do not matter. When every call
names an instance, the instances named are dispatched, whatever the counters hold. -/
namespace Tomii
set_option autoImplicit false
set_option maxHeartbeats 250000

namespace EntryShape

variable (sh : EntryShape)

/-- Some call of the list decrements group `g`. -/
def HitBy (cs : List DepCall) (g : ℕ) : Prop := ∃ c ∈ cs, sh.Hits c g

/-- `i` is dispatched by totals `D` on the groups `H`, starting from counters `rem`. -/
def Fires (rem : ℕ → ℕ) (H : ℕ → Prop) (D : ℕ → ℕ) (i : ℕ) : Prop :=
  ∃ g, g < sh.numGroups ∧ i ∈ sh.groupRange g ∧
    if sh.hasBarrier then 0 < rem g ∧ rem g - D g = 0
    else H g ∧ rem g - D g ≤ sh.thresholdForInstanceInGroup (i - g * sh.groupSize)

/-- No call names an instance, or the barrier ignores it. -/
def Unaimed (cs : List DepCall) : Prop := sh.hasBarrier = true ∨ ∀ c ∈ cs, c.specific = none

theorem HitBy.lt {cs : List DepCall} {g : ℕ} (h : sh.HitBy cs g) : g < sh.numGroups := by
  obtain ⟨c, -, hc⟩ := h
  exact hc.1

theorem taken_le_takenBy {c : DepCall} {cs : List DepCall} (hc : c ∈ cs) (g : ℕ) :
    sh.taken c g ≤ sh.takenBy cs g := by
  induction cs with
  | nil => cases hc
  | cons d ds ih =>
    rw [takenBy_cons]
    cases List.mem_cons.mp hc with
    | inl h =>
      subst h
      omega
    | inr h =>
      have := ih h
      omega

theorem takenBy_of_not_hit {cs : List DepCall} {g : ℕ} (h : ¬ sh.HitBy cs g) :
    sh.takenBy cs g = 0 := by
  induction cs with
  | nil => rfl
  | cons c cs ih =>
    have hc : ¬ sh.Hits c g := fun hc => h ⟨c, List.mem_cons_self, hc⟩
    have hcs : ¬ sh.HitBy cs g := fun ⟨d, hd, hh⟩ => h ⟨d, List.mem_cons_of_mem _ hd, hh⟩
    rw [takenBy_cons, ih hcs, taken, if_neg hc]

theorem hitBy_of_takenBy {cs : List DepCall} {g : ℕ} (h : 0 < sh.takenBy cs g) : sh.HitBy cs g := by
  by_contra hno
  rw [sh.takenBy_of_not_hit hno] at h
  omega

/-- What one call dispatches, in the same terms. -/
theorem candidates_iff (c : DepCall) (rem : ℕ → ℕ) (i : ℕ)
    (haim : sh.hasBarrier = true ∨ c.specific = none) :
    (∃ g, sh.Hits c g ∧ i ∈ sh.candidates g (rem g) (rem g - c.count % 2 ^ 32) c.specific) ↔
      sh.Fires rem (sh.Hits c) (sh.taken c) i := by
  unfold Fires candidates
  by_cases hb : sh.hasBarrier = true
  · simp only [hb, if_true]
    constructor
    · rintro ⟨g, hg, hi⟩
      split_ifs at hi with hz
      · refine ⟨g, hg.1, hi, hz.1, ?_⟩
        rw [taken, if_pos hg]
        exact hz.2
      · cases hi
    · rintro ⟨g, hg, hi, hpos, hzero⟩
      have hhit : sh.Hits c g := by
        by_contra hno
        rw [taken, if_neg hno] at hzero
        omega
      rw [taken, if_pos hhit] at hzero
      refine ⟨g, hhit, ?_⟩
      rw [if_pos ⟨hpos, hzero⟩]
      exact hi
  · have hnone : c.specific = none := haim.resolve_left hb
    simp only [hb, hnone, Bool.false_eq_true, if_false, List.mem_filter, decide_eq_true_eq]
    constructor
    · rintro ⟨g, hg, hi, hle⟩
      refine ⟨g, hg.1, hi, hg, ?_⟩
      rw [taken, if_pos hg]
      exact hle
    · rintro ⟨g, -, hi, hg, hle⟩
      rw [taken, if_pos hg] at hle
      exact ⟨g, hg, hi, hle⟩

/-- Dispatching by `D` and then by `E` is dispatching by their sum. -/
theorem fires_add (rem : ℕ → ℕ) (H K : ℕ → Prop) (D E : ℕ → ℕ)
    (hE : ∀ g, ¬ K g → E g = 0) (i : ℕ) :
    sh.Fires rem (fun g => H g ∨ K g) (fun g => D g + E g) i ↔
      sh.Fires rem H D i ∨ sh.Fires (fun g => rem g - D g) K E i := by
  unfold Fires
  by_cases hb : sh.hasBarrier = true
  · simp only [hb, if_true]
    constructor
    · rintro ⟨g, hg, hi, hpos, hzero⟩
      by_cases hfirst : rem g - D g = 0
      · exact .inl ⟨g, hg, hi, hpos, hfirst⟩
      · exact .inr ⟨g, hg, hi, by omega, by omega⟩
    · rintro (⟨g, hg, hi, hpos, hzero⟩ | ⟨g, hg, hi, hpos, hzero⟩)
      · exact ⟨g, hg, hi, hpos, by omega⟩
      · exact ⟨g, hg, hi, by omega, by omega⟩
  · simp only [hb, Bool.false_eq_true, if_false]
    constructor
    · rintro ⟨g, hg, hi, hor, hle⟩
      by_cases hk : K g
      · exact .inr ⟨g, hg, hi, hk, by omega⟩
      · have hzero := hE g hk
        exact .inl ⟨g, hg, hi, hor.resolve_right hk, by omega⟩
    · rintro (⟨g, hg, hi, hh, hle⟩ | ⟨g, hg, hi, hk, hle⟩)
      · exact ⟨g, hg, hi, .inl hh, by omega⟩
      · exact ⟨g, hg, hi, .inr hk, by omega⟩

theorem fires_congr {rem : ℕ → ℕ} {H K : ℕ → Prop} {D E : ℕ → ℕ} (hH : ∀ g, H g ↔ K g)
    (hD : ∀ g < sh.numGroups, rem g - D g = rem g - E g) (i : ℕ) :
    sh.Fires rem H D i ↔ sh.Fires rem K E i := by
  unfold Fires
  constructor
  · rintro ⟨g, hg, hi, h⟩
    rw [hD g hg, hH g] at h
    exact ⟨g, hg, hi, h⟩
  · rintro ⟨g, hg, hi, h⟩
    rw [← hD g hg, ← hH g] at h
    exact ⟨g, hg, hi, h⟩

/-- Under a plain barrier a range is released once. -/
theorem fires_once (hf : sh.flagged = false) (rem : ℕ → ℕ) (H K : ℕ → Prop) (D E : ℕ → ℕ) (i : ℕ)
    (h1 : sh.Fires rem H D i) (h2 : sh.Fires (fun g => rem g - D g) K E i) : False := by
  have hb : sh.hasBarrier = true := by
    by_contra h
    simp [flagged, h] at hf
  obtain ⟨g, hg, hi, h1⟩ := h1
  obtain ⟨g', hg', hi', h2⟩ := h2
  simp only [hb, if_true] at h1 h2
  obtain rfl := sh.groupRange_disjoint hg hg' hi hi'
  omega

end EntryShape

namespace EntryState

variable (sh : EntryShape)

/-- The outcome of totals `D` on the groups `H`. -/
structure Outcome (H : ℕ → Prop) (D : ℕ → ℕ) (s : EntryState) (out : List ℕ × EntryState) :
    Prop where
  remaining : ∀ g, out.2.remaining g = s.remaining g - D g
  sent_iff : ∀ i, out.2.sent i = true ↔
    s.sent i = true ∨ (sh.flagged = true ∧ sh.Fires s.remaining H D i)
  mem_ready : ∀ i, i ∈ out.1 ↔
    (sh.flagged = true → s.sent i = false) ∧ sh.Fires s.remaining H D i
  nodup : out.1.Nodup

theorem call_outcome (c : DepCall) (s : EntryState)
    (haim : sh.hasBarrier = true ∨ c.specific = none) :
    Outcome sh (sh.Hits c) (sh.taken c) s (call sh c s) := by
  have h := call_effect sh c s
  have hfires := fun i => sh.candidates_iff c s.remaining i haim
  exact
    { remaining := call_remaining sh c s
      sent_iff := fun i => by rw [h.sent_iff, hfires]
      mem_ready := fun i => by rw [h.mem_ready, hfires]
      nodup := h.nodup }

theorem Outcome.append {H K : ℕ → Prop} {D E : ℕ → ℕ} {s : EntryState}
    {out1 out2 : List ℕ × EntryState} (h1 : Outcome sh H D s out1)
    (h2 : Outcome sh K E out1.2 out2) (hE : ∀ g, ¬ K g → E g = 0) :
    Outcome sh (fun g => H g ∨ K g) (fun g => D g + E g) s (out1.1 ++ out2.1, out2.2) := by
  have hrem : out1.2.remaining = fun g => s.remaining g - D g := funext h1.remaining
  have hadd := fun i => sh.fires_add s.remaining H K D E hE i
  have hs2 := h2.sent_iff
  have hr2 := h2.mem_ready
  rw [hrem] at hs2 hr2
  refine ⟨fun g => ?_, fun i => ?_, fun i => ?_, ?_⟩
  · rw [h2.remaining, h1.remaining]
    omega
  · rw [hs2, h1.sent_iff, hadd]
    tauto
  · rw [List.mem_append, h1.mem_ready, hr2, hadd]
    have hs1 := h1.sent_iff i
    rw [← Bool.not_eq_true, ← Bool.not_eq_true]
    tauto
  · rw [List.nodup_append]
    refine ⟨h1.nodup, h2.nodup, ?_⟩
    intro a ha b hb hab
    subst hab
    rw [h1.mem_ready] at ha
    rw [hr2] at hb
    cases hf : sh.flagged with
    | false => exact sh.fires_once hf _ _ _ _ _ a ha.2 hb.2
    | true =>
      have hsent : out1.2.sent a = true := (h1.sent_iff a).mpr (.inr ⟨hf, ha.2⟩)
      rw [hb.1 hf] at hsent
      cases hsent

theorem runCalls_outcome (cs : List DepCall) (s : EntryState) (haim : sh.Unaimed cs) :
    Outcome sh (sh.HitBy cs) (sh.takenBy cs) s (runCalls (call sh) cs s) := by
  induction cs generalizing s with
  | nil =>
    refine ⟨fun g => rfl, fun i => ?_, fun i => ?_, List.nodup_nil⟩
    · have hno : ¬ (sh.flagged = true ∧ sh.Fires s.remaining (sh.HitBy []) (sh.takenBy []) i) := by
        rintro ⟨hf, g, hg, hi, h⟩
        split_ifs at h with hb
        · simp at h
          omega
        · obtain ⟨c, hc, -⟩ := h.1
          cases hc
      simp [hno]
    · have hno : ¬ sh.Fires s.remaining (sh.HitBy []) (sh.takenBy []) i := by
        rintro ⟨g, hg, hi, h⟩
        split_ifs at h with hb
        · simp at h
          omega
        · obtain ⟨c, hc, -⟩ := h.1
          cases hc
      simp [hno]
  | cons c cs ih =>
    have hc : sh.hasBarrier = true ∨ c.specific = none :=
      haim.imp_right fun h => h c List.mem_cons_self
    have hcs : sh.Unaimed cs := haim.imp_right fun h d hd => h d (List.mem_cons_of_mem _ hd)
    have h := (call_outcome sh c s hc).append sh (ih (call sh c s).2 hcs)
      fun g hg => sh.takenBy_of_not_hit hg
    have hH : (fun g => sh.Hits c g ∨ sh.HitBy cs g) = sh.HitBy (c :: cs) := by
      funext g
      simp [EntryShape.HitBy]
    have hD : (fun g => sh.taken c g + sh.takenBy cs g) = sh.takenBy (c :: cs) := by
      funext g
      rw [EntryShape.takenBy_cons]
    rw [hH, hD] at h
    exact h

/-- Only instances of the node are returned. -/
theorem runCalls_ready_lt (cs : List DepCall) (x : EntryState) {i : ℕ}
    (hi : i ∈ (runCalls (call sh) cs x).1) : i < sh.factor := by
  induction cs generalizing x with
  | nil => cases hi
  | cons c cs ih =>
    rw [runCalls_cons, List.mem_append] at hi
    cases hi with
    | inl h =>
      obtain ⟨-, g, -, hmem⟩ := ((call_effect sh c x).mem_ready i).mp h
      exact sh.candidates_lt_factor hmem
    | inr h => exact ih _ h

/-- Outcomes with the same hits and the same differences are the same. -/
theorem Outcome.unique {H K : ℕ → Prop} {D E : ℕ → ℕ} {s : EntryState}
    {out out' : List ℕ × EntryState} (h : Outcome sh H D s out) (h' : Outcome sh K E s out')
    (hH : ∀ g, H g ↔ K g) (hD : ∀ g, s.remaining g - D g = s.remaining g - E g) :
    out.2 = out'.2 ∧ out.1.Perm out'.1 := by
  have hfires := fun i => sh.fires_congr (D := D) (E := E) hH (fun g _ => hD g) i
  constructor
  · ext i
    · rw [h.remaining, h'.remaining, hD]
    · rw [Bool.eq_iff_iff, h.sent_iff, h'.sent_iff, hfires]
  · rw [List.perm_ext_iff_of_nodup h.nodup h'.nodup]
    intro i
    rw [h.mem_ready, h'.mem_ready, hfires]

/-! ## Lists with the same outcome -/

/-- The counters of an entry fit their words. -/
def Fits (x : EntryState) : Prop := ∀ g, x.remaining g < 2 ^ 32

/-- Every counter at `v` and nothing sent. -/
def level (v : ℕ) : EntryState := ⟨fun _ => v, fun _ => false⟩

theorem level_fits {v : ℕ} (hv : v < 2 ^ 32) : (level v).Fits := fun _ => hv

end EntryState

/-- Equal counters and flags, and the same instances returned. -/
def SameOutcome (a b : List ℕ × EntryState) : Prop := a.2 = b.2 ∧ a.1.Perm b.1

theorem SameOutcome.refl (a : List ℕ × EntryState) : SameOutcome a a := ⟨rfl, List.Perm.refl _⟩

namespace EntryState

variable (sh : EntryShape)

/-- Lists that leave full counters alike take the same off each group, up to what a counter
can hold. -/
theorem totals_of_level {cs ds : List DepCall}
    (h : (runCalls (call sh) cs (level (2 ^ 32 - 1))).2 =
      (runCalls (call sh) ds (level (2 ^ 32 - 1))).2) (g : ℕ) :
    min (sh.takenBy cs g) (2 ^ 32 - 1) = min (sh.takenBy ds g) (2 ^ 32 - 1) := by
  have h1 := runCalls_remaining sh cs (level (2 ^ 32 - 1)) g
  have h2 := runCalls_remaining sh ds (level (2 ^ 32 - 1)) g
  rw [h, h2] at h1
  simp only [level] at h1
  omega

/-- Unaimed lists that take the same off each group have the same outcome. -/
theorem unaimed_same {cs ds : List DepCall} (hcs : sh.Unaimed cs) (hds : sh.Unaimed ds)
    (hhit : ∀ g, sh.HitBy cs g → sh.HitBy ds g)
    (hpos : ∀ g, sh.HitBy ds g → 0 < sh.takenBy ds g)
    (htotal : ∀ g < sh.numGroups,
      min (sh.takenBy cs g) (2 ^ 32 - 1) = min (sh.takenBy ds g) (2 ^ 32 - 1))
    {x : EntryState} (hx : x.Fits) :
    SameOutcome (runCalls (call sh) cs x) (runCalls (call sh) ds x) := by
  have h1 := runCalls_outcome sh cs x hcs
  have h2 := runCalls_outcome sh ds x hds
  refine h1.unique sh h2 (fun g => ⟨hhit g, fun hg => ?_⟩) fun g => ?_
  · -- what a hit group loses under `ds` it loses under `cs`
    have hd := hpos g hg
    have ht := htotal g (hg.lt sh)
    exact sh.hitBy_of_takenBy (by omega)
  · by_cases hg : g < sh.numGroups
    · have := htotal g hg
      have := hx g
      omega
    · have hout : ∀ l, ¬ sh.HitBy l g := fun l hl => hg (hl.lt sh)
      rw [sh.takenBy_of_not_hit (hout cs), sh.takenBy_of_not_hit (hout ds)]

/-! ## Calls with a 1:1 instance -/

/-- The instances that aimed calls name. -/
def Aims (cs : List DepCall) (i : ℕ) : Prop := i < sh.factor ∧ ∃ c ∈ cs, c.specific = some i

theorem call_aimed {c : DepCall} {j : ℕ} (hb : sh.hasBarrier = false) (hc : c.specific = some j)
    (hgroup : c.group = none) (s : EntryState) :
    (∀ i, (call sh c s).2.sent i = true ↔ s.sent i = true ∨ (i < sh.factor ∧ i = j)) ∧
      (∀ i, i ∈ (call sh c s).1 ↔ s.sent i = false ∧ i < sh.factor ∧ i = j) ∧
      (call sh c s).1.Nodup := by
  have h := call_effect sh c s
  have hf : sh.flagged = true := by simp [EntryShape.flagged, hb]
  have hcand : ∀ i, (∃ g, sh.Hits c g ∧
      i ∈ sh.candidates g (s.remaining g) (s.remaining g - c.count % 2 ^ 32) c.specific) ↔
      i < sh.factor ∧ i = j := by
    intro i
    simp only [EntryShape.candidates, hb, hc, Bool.false_eq_true, if_false]
    constructor
    · rintro ⟨g, -, hi⟩
      split at hi
      · next hj =>
        have hij := List.mem_singleton.mp hi
        exact ⟨by omega, hij⟩
      · cases hi
    · rintro ⟨hlt, hij⟩
      subst hij
      refine ⟨0, ⟨sh.groups_pos, .inl hgroup⟩, ?_⟩
      rw [if_pos hlt]
      exact List.mem_singleton_self i
  refine ⟨fun i => ?_, fun i => ?_, h.nodup⟩
  · rw [h.sent_iff, hcand]
    simp [hf]
  · rw [h.mem_ready, hcand]
    simp [hf]

theorem runCalls_aimed (hb : sh.hasBarrier = false) (cs : List DepCall)
    (haim : ∀ c ∈ cs, c.specific ≠ none ∧ c.group = none) (s : EntryState) :
    (∀ i, (runCalls (call sh) cs s).2.sent i = true ↔ s.sent i = true ∨ Aims sh cs i) ∧
      (∀ i, i ∈ (runCalls (call sh) cs s).1 ↔ s.sent i = false ∧ Aims sh cs i) ∧
      (runCalls (call sh) cs s).1.Nodup := by
  induction cs generalizing s with
  | nil =>
    have hno : ∀ i, ¬ Aims sh [] i := fun i h => by
      obtain ⟨c, hc, -⟩ := h.2
      cases hc
    simp [hno]
  | cons c cs ih =>
    obtain ⟨hspec, hgroup⟩ := haim c List.mem_cons_self
    obtain ⟨j, hj⟩ := Option.ne_none_iff_exists'.mp hspec
    obtain ⟨hsent, hready, hnd⟩ := call_aimed sh hb hj hgroup s
    obtain ⟨hsent', hready', hnd'⟩ := ih (fun d hd => haim d (List.mem_cons_of_mem _ hd))
      (call sh c s).2
    have hcons : ∀ i, Aims sh (c :: cs) i ↔ (i < sh.factor ∧ i = j) ∨ Aims sh cs i := by
      intro i
      simp only [Aims, List.exists_mem_cons_iff, hj, Option.some.injEq]
      constructor
      · intro ⟨hlt, h⟩
        exact h.imp (fun h => ⟨hlt, h.symm⟩) fun h => ⟨hlt, h⟩
      · intro h
        exact h.elim (fun h => ⟨h.1, .inl h.2.symm⟩) fun h => ⟨h.1, .inr h.2⟩
    simp only [runCalls_cons]
    refine ⟨fun i => ?_, fun i => ?_, ?_⟩
    · rw [hsent', hsent, hcons]
      tauto
    · rw [List.mem_append, hready, hready', hcons]
      have hs := hsent i
      rw [← Bool.not_eq_true, ← Bool.not_eq_true]
      tauto
    · rw [List.nodup_append]
      refine ⟨hnd, hnd', ?_⟩
      intro a ha b hb' hab
      subst hab
      have hfirst := (hready a).mp ha
      have hlater := (hready' a).mp hb'
      have hmark := (hsent a).mpr (.inr hfirst.2)
      rw [hlater.1] at hmark
      cases hmark

end EntryState

end Tomii
