import Tomii.Runtime.WalkSpec

/-! # Completing a chunk

A completed task of `n` instances is resolved by a worker or by the batch path, and should do
what `n` single completions do. Along an edge the three make different calls; `BulkSafe` says
for which chunks the calls have the same outcome on every entry. -/
namespace Tomii
set_option autoImplicit false
set_option maxHeartbeats 250000

namespace SuccEdge

variable (e : SuccEdge)

/-- The calls of the instances `i .. i + n` completing one at a time. -/
def singleCalls (i n : ℕ) : List DepCall := (List.range' i n).flatMap fun k => e.calls k 1

/-- What the single calls of an unfiltered edge take off group `g`. -/
def cellShare (i n g : ℕ) : ℕ :=
  (List.range' i n).countP fun k => e.predGroup k = none ∨ e.predGroup k = some g

/-- Instance `j` is the 1:1 successor of one of `i .. i + n`. -/
def Reaches (sh : EntryShape) (i n j : ℕ) : Prop :=
  j < sh.factor ∧ ∃ k ∈ List.range' i n, e.oneToOneSuccIdx k = some j

/-- A filtered edge is safe unless the chunk starts before the window and reaches into it. An
unfiltered edge is safe when the chunk takes off each group what its cells would; a 1:1 edge
that has to name its successors is not, short of emptying every counter. -/
def BulkSafe (sh : EntryShape) (i n : ℕ) : Prop :=
  n = 1 ∨
    match e.filterBounds with
    | some (lo, hi) => ¬ (i < lo ∧ lo < i + n ∧ lo < hi)
    | none =>
      if e.hasOneToOne = true ∧ sh.hasBarrier = false then
        n % 2 ^ 32 = 2 ^ 32 - 1 ∧ ∀ j, j < sh.numGroups * sh.groupSize ↔ e.Reaches sh i n j
      else ∀ g < sh.numGroups, e.chunkShare i n g = min (e.cellShare i n g) (2 ^ 32 - 1)

end SuccEdge

/-! ## Instances of the groups -/

namespace EntryShape

variable (sh : EntryShape)

/-- The instances of all groups. -/
theorem exists_group {j : ℕ} (hj : j < sh.numGroups * sh.groupSize) :
    ∃ g < sh.numGroups, j ∈ sh.groupRange g := by
  have hpos : 0 < sh.groupSize := by
    by_contra h
    have hz : sh.groupSize = 0 := by omega
    rw [hz] at hj
    omega
  have hg : j / sh.groupSize < sh.numGroups := by
    rw [Nat.div_lt_iff_lt_mul hpos]
    exact hj
  refine ⟨j / sh.groupSize, hg, ?_⟩
  rw [sh.mem_groupRange hg]
  have h1 := Nat.div_mul_le_self j sh.groupSize
  have h2 := Nat.lt_div_mul_add hpos (a := j)
  have h3 : (j / sh.groupSize + 1) * sh.groupSize = j / sh.groupSize * sh.groupSize + sh.groupSize := by
    ring
  omega

theorem lt_of_mem_groupRange {g j : ℕ} (hg : g < sh.numGroups) (hj : j ∈ sh.groupRange g) :
    j < sh.numGroups * sh.groupSize := by
  rw [sh.mem_groupRange hg] at hj
  exact lt_of_lt_of_le hj.2 (Nat.mul_le_mul_right _ hg)

end EntryShape

namespace SuccEdge

variable (e : SuccEdge) (sh : EntryShape)

theorem calls_eq_singleCalls_of_filter {b : ℕ × ℕ} (hb : e.filterBounds = some b) {i n : ℕ}
    (hn : 0 < n) : e.calls i n = e.singleCalls i n := e.calls_filtered hb i n hn

theorem takenBy_singleCalls (hb : e.filterBounds = none) (i n : ℕ) {g : ℕ}
    (hg : g < sh.numGroups) : sh.takenBy (e.singleCalls i n) g = e.cellShare i n g :=
  sh.takenBy_singles e hb (List.range' i n) hg

/-! ## Filtered edges -/

theorem first_call_mem {lo hi i n : ℕ} (hb : e.filterBounds = some (lo, hi)) (hlo : i < lo)
    (hreach : lo < i + n) (hwin : lo < hi) : e.cellCall lo ∈ e.calls i n := by
  have hn : 0 < n := by omega
  rw [e.calls_eq_singleCalls_of_filter hb hn, singleCalls, List.mem_flatMap]
  refine ⟨lo, List.mem_range'_1.mpr ⟨by omega, hreach⟩, ?_⟩
  rw [e.calls_single, if_pos ((e.passesFilter_of_some hb lo).mpr ⟨le_rfl, hwin⟩)]
  exact List.mem_singleton_self _

theorem predGroup_start {lo hi : ℕ} (hb : e.filterBounds = some (lo, hi)) :
    e.predGroup lo = none ∨ e.predGroup lo = some 0 := by
  have hlo := (e.filterBounds_eq_some.mp hb).2.1
  unfold predGroup
  split
  · exact .inl rfl
  · right
    rw [hlo, wrappingSub_of_le le_rfl, Nat.sub_self, Nat.zero_div]

/-- Off a window the batch path takes what the cells take, or nothing where a chunk that starts
before the window reaches into it. -/
theorem batchCalls_filtered {lo hi i n : ℕ} (hb : e.filterBounds = some (lo, hi)) (hn : 0 < n) :
    Compiled.batchCalls i n e =
      if i < lo ∧ lo < i + n ∧ lo < hi then [] else e.singleCalls i n := by
  have hpass := e.passesFilter_of_some hb i
  rw [← e.calls_eq_singleCalls_of_filter hb hn, Compiled.batchCalls]
  by_cases hp : e.passesFilter i = true
  · have hin := hpass.mp hp
    rw [if_pos hp, if_neg (by omega)]
  · rw [if_neg hp]
    by_cases hcross : i < lo ∧ lo < i + n ∧ lo < hi
    · rw [if_pos hcross]
    · have hcov : ¬ max i lo < min (i + max n 1) hi := by
        have hout : ¬ (lo ≤ i ∧ i < hi) := fun h => hp (hpass.mpr h)
        omega
      simp only [if_neg hcross, calls, hb, filterOverlap_eq (e.filterBounds_lt hb), if_neg hcov]

theorem filtered_agree_iff {lo hi i n : ℕ} (hb : e.filterBounds = some (lo, hi)) (hn : 0 < n) :
    (∀ x : EntryState, x.Fits → SameOutcome (runCalls (EntryState.call sh) (e.calls i n) x)
        (runCalls (EntryState.call sh) (Compiled.batchCalls i n e) x)) ↔
      ¬ (i < lo ∧ lo < i + n ∧ lo < hi) := by
  constructor
  · intro h hcross
    have hsame := (h (EntryState.level (2 ^ 32 - 1)) (EntryState.level_fits (by omega))).1
    rw [e.batchCalls_filtered hb hn, if_pos hcross, runCalls_nil] at hsame
    have hrem := runCalls_remaining sh (e.calls i n) (EntryState.level (2 ^ 32 - 1)) 0
    rw [hsame] at hrem
    have htaken := sh.taken_le_takenBy
      (e.first_call_mem hb hcross.1 hcross.2.1 hcross.2.2) 0
    rw [sh.taken_cellCall e lo sh.groups_pos, if_pos (e.predGroup_start hb)] at htaken
    simp only [EntryState.level] at hrem
    omega
  · intro hsafe x _
    rw [e.batchCalls_filtered hb hn, if_neg hsafe, e.calls_eq_singleCalls_of_filter hb hn]
    exact SameOutcome.refl _

/-! ## Unfiltered edges -/

theorem hitBy_singleCalls (hb : e.filterBounds = none) (i n g : ℕ) :
    sh.HitBy (e.singleCalls i n) g ↔ g < sh.numGroups ∧ 0 < e.cellShare i n g := by
  constructor
  · intro ⟨c, hc, hhit⟩
    have htaken := sh.taken_le_takenBy hc g
    rw [e.takenBy_singleCalls sh hb i n hhit.1] at htaken
    obtain ⟨k, -, hck⟩ := List.mem_flatMap.mp hc
    rw [e.calls_single, if_pos (e.passesFilter_of_none hb k)] at hck
    have hcell := List.mem_singleton.mp hck
    subst hcell
    have hgroup : e.predGroup k = none ∨ e.predGroup k = some g := hhit.2
    rw [sh.taken_cellCall e k hhit.1, if_pos hgroup] at htaken
    exact ⟨hhit.1, htaken⟩
  · intro ⟨hg, hpos⟩
    refine sh.hitBy_of_takenBy ?_
    rwa [e.takenBy_singleCalls sh hb i n hg]

theorem hitBy_bulkCall (i n g : ℕ) (specific : Option ℕ) :
    sh.HitBy [⟨e.predGroup i, n, specific⟩] g ↔
      g < sh.numGroups ∧ (e.predGroup i = none ∨ e.predGroup i = some g) := by
  simp [EntryShape.HitBy, EntryShape.Hits]

theorem cellShare_pos {i n g : ℕ} (hn : 0 < n)
    (hgroup : e.predGroup i = none ∨ e.predGroup i = some g) : 0 < e.cellShare i n g := by
  rw [cellShare, List.countP_pos_iff]
  exact ⟨i, List.mem_range'_1.mpr (by omega), decide_eq_true hgroup⟩

theorem unaimed_agree_iff {i n : ℕ} (hb : e.filterBounds = none) (hn : 0 < n)
    (specific : Option ℕ) (hchunk : sh.Unaimed [⟨e.predGroup i, n, specific⟩])
    (hcells : sh.Unaimed (e.singleCalls i n)) :
    (∀ x : EntryState, x.Fits → SameOutcome
        (runCalls (EntryState.call sh) [⟨e.predGroup i, n, specific⟩] x)
        (runCalls (EntryState.call sh) (e.singleCalls i n) x)) ↔
      ∀ g < sh.numGroups, e.chunkShare i n g = min (e.cellShare i n g) (2 ^ 32 - 1) := by
  have hshare : ∀ g < sh.numGroups,
      (min (sh.takenBy [⟨e.predGroup i, n, specific⟩] g) (2 ^ 32 - 1) =
          min (sh.takenBy (e.singleCalls i n) g) (2 ^ 32 - 1) ↔
        e.chunkShare i n g = min (e.cellShare i n g) (2 ^ 32 - 1)) := by
    intro g hg
    have hlt : e.chunkShare i n g < 2 ^ 32 := by
      unfold chunkShare
      split <;> omega
    rw [e.takenBy_bulkCall sh i n hg, e.takenBy_singleCalls sh hb i n hg]
    omega
  constructor
  · intro h g hg
    exact (hshare g hg).mp (EntryState.totals_of_level sh
      (h (EntryState.level (2 ^ 32 - 1)) (EntryState.level_fits (by omega))).1 g)
  · intro h x hx
    refine EntryState.unaimed_same sh hchunk hcells (fun g hhit => ?_) (fun g hhit => ?_)
      (fun g hg => (hshare g hg).mpr (h g hg)) hx
    · obtain ⟨hg, hgroup⟩ := (e.hitBy_bulkCall sh i n g specific).mp hhit
      exact (e.hitBy_singleCalls sh hb i n g).mpr ⟨hg, e.cellShare_pos hn hgroup⟩
    · obtain ⟨hg, hpos⟩ := (e.hitBy_singleCalls sh hb i n g).mp hhit
      rwa [e.takenBy_singleCalls sh hb i n hg]

/-! ## Unfiltered 1:1 edges -/

/-- A 1:1 edge of the tables has no divisor, and its successor has instances in its groups. -/
structure Plain : Prop where
  ungrouped : e.groupBy = noGroup
  group_pos : 0 < sh.groupSize

theorem singleCalls_aimed {i n : ℕ} (h11 : e.hasOneToOne = true) (hplain : e.Plain sh) :
    ∀ c ∈ e.singleCalls i n, c.specific ≠ none ∧ c.group = none := by
  intro c hc
  obtain ⟨k, -, hck⟩ := List.mem_flatMap.mp hc
  rw [e.calls_single] at hck
  split at hck
  · rw [List.mem_singleton.mp hck]
    simp [cellCall, oneToOneSuccIdx, predGroup, h11, hplain.ungrouped]
  · cases hck

theorem aims_singleCalls (hb : e.filterBounds = none) (i n j : ℕ) :
    EntryState.Aims sh (e.singleCalls i n) j ↔ e.Reaches sh i n j := by
  have hcalls : (∃ c ∈ e.singleCalls i n, c.specific = some j) ↔
      ∃ k ∈ List.range' i n, e.oneToOneSuccIdx k = some j := by
    constructor
    · intro ⟨c, hc, hj⟩
      obtain ⟨k, hk, hck⟩ := List.mem_flatMap.mp hc
      rw [e.calls_single, if_pos (e.passesFilter_of_none hb k)] at hck
      rw [List.mem_singleton.mp hck] at hj
      exact ⟨k, hk, hj⟩
    · intro ⟨k, hk, hj⟩
      refine ⟨e.cellCall k, List.mem_flatMap.mpr ⟨k, hk, ?_⟩, hj⟩
      rw [e.calls_single, if_pos (e.passesFilter_of_none hb k)]
      exact List.mem_singleton_self _
  unfold EntryState.Aims Reaches
  rw [hcalls]

theorem cellShare_ungrouped (hg : e.groupBy = noGroup) (i n g : ℕ) : e.cellShare i n g = n := by
  have hall : ∀ k ∈ List.range' i n,
      decide (e.predGroup k = none ∨ e.predGroup k = some g) = true := by
    intro k _
    exact decide_eq_true (.inl (if_pos hg))
  rw [cellShare, List.countP_eq_length.mpr hall, List.length_range']

theorem chunkShare_ungrouped (hg : e.groupBy = noGroup) (i n g : ℕ) :
    e.chunkShare i n g = n % 2 ^ 32 := if_pos (.inl (if_pos hg))

/-- With every counter empty a call dispatches the instances of all groups it hits. -/
theorem fires_empty {rem : ℕ → ℕ} {H : ℕ → Prop} {D : ℕ → ℕ} (hb : sh.hasBarrier = false)
    (hH : ∀ g < sh.numGroups, H g) (hD : ∀ g < sh.numGroups, rem g - D g = 0) (j : ℕ) :
    sh.Fires rem H D j ↔ j < sh.numGroups * sh.groupSize := by
  simp only [EntryShape.Fires, hb, Bool.false_eq_true, if_false]
  constructor
  · intro ⟨g, hg, hj, _⟩
    exact sh.lt_of_mem_groupRange hg hj
  · intro hj
    obtain ⟨g, hg, hmem⟩ := sh.exists_group hj
    refine ⟨g, hg, hmem, hH g hg, ?_⟩
    rw [hD g hg]
    exact Nat.zero_le _

/-- The last instance of group 0 waits until its counter is empty. -/
theorem fires_last {rem : ℕ → ℕ} {H : ℕ → Prop} {D : ℕ → ℕ} (hb : sh.hasBarrier = false)
    (hgs : 0 < sh.groupSize) (h : sh.Fires rem H D (sh.groupSize - 1)) : rem 0 - D 0 = 0 := by
  simp only [EntryShape.Fires, hb, Bool.false_eq_true, if_false] at h
  obtain ⟨g, hg, hj, -, hle⟩ := h
  have hzero : sh.groupSize - 1 ∈ sh.groupRange 0 := by
    rw [sh.mem_groupRange sh.groups_pos]
    omega
  have hg0 := sh.groupRange_disjoint hg sh.groups_pos hj hzero
  subst hg0
  have hthr : sh.thresholdForInstanceInGroup (sh.groupSize - 1 - 0 * sh.groupSize) = 0 := by
    rw [EntryShape.thresholdForInstanceInGroup, if_neg (by omega)]
    have hlast : sh.groupSize - (sh.groupSize - 1 - 0 * sh.groupSize) - 1 = 0 := by omega
    rw [hlast, Nat.zero_mul]
  omega

theorem aimed_agree_iff {i n : ℕ} (hb : e.filterBounds = none) (hn : 0 < n)
    (h11 : e.hasOneToOne = true) (hbar : sh.hasBarrier = false) (hplain : e.Plain sh) :
    (∀ x : EntryState, x.Fits → SameOutcome
        (runCalls (EntryState.call sh) [⟨e.predGroup i, n, none⟩] x)
        (runCalls (EntryState.call sh) (e.singleCalls i n) x)) ↔
      n % 2 ^ 32 = 2 ^ 32 - 1 ∧
        ∀ j, j < sh.numGroups * sh.groupSize ↔ e.Reaches sh i n j := by
  have hchunk : sh.Unaimed [⟨e.predGroup i, n, none⟩] := .inr (by simp)
  have hhit : ∀ g < sh.numGroups, sh.HitBy [⟨e.predGroup i, n, none⟩] g := fun g hg =>
    (e.hitBy_bulkCall sh i n g none).mpr ⟨hg, .inl (if_pos hplain.ungrouped)⟩
  have hflag : sh.flagged = true := by simp [EntryShape.flagged, hbar]
  have hbulk := fun x => EntryState.runCalls_outcome sh [⟨e.predGroup i, n, none⟩] x hchunk
  have hcells := fun x => EntryState.runCalls_aimed sh hbar (e.singleCalls i n)
    (e.singleCalls_aimed sh h11 hplain) x
  have htaken : ∀ g < sh.numGroups, sh.takenBy [⟨e.predGroup i, n, none⟩] g = n % 2 ^ 32 := by
    intro g hg
    rw [e.takenBy_bulkCall sh i n hg, e.chunkShare_ungrouped hplain.ungrouped]
  constructor
  · intro h
    have hreach : ∀ j, j < sh.numGroups * sh.groupSize ↔ e.Reaches sh i n j := by
      intro j
      have hsame := (h (EntryState.level 0) (EntryState.level_fits (by omega))).2.mem_iff (a := j)
      have hspent : ∀ g < sh.numGroups, (EntryState.level 0).remaining g -
          sh.takenBy [⟨e.predGroup i, n, none⟩] g = 0 := fun g _ => Nat.zero_sub _
      rw [(hbulk _).mem_ready, (hcells _).2.1, e.aims_singleCalls sh hb,
        fires_empty sh hbar hhit hspent] at hsame
      have hunsent : (EntryState.level 0).sent j = false := rfl
      constructor
      · intro hj
        exact (hsame.mp ⟨fun _ => hunsent, hj⟩).2
      · intro hj
        exact (hsame.mpr ⟨hunsent, hj⟩).2
    refine ⟨?_, hreach⟩
    have hlast : sh.groupSize - 1 < sh.numGroups * sh.groupSize := by
      have := Nat.le_mul_of_pos_left sh.groupSize sh.groups_pos
      have := hplain.group_pos
      omega
    have hsame := (h (EntryState.level (2 ^ 32 - 1))
      (EntryState.level_fits (by omega))).2.mem_iff (a := sh.groupSize - 1)
    rw [(hbulk _).mem_ready, (hcells _).2.1, e.aims_singleCalls sh hb] at hsame
    have hfires := (hsame.mpr ⟨rfl, (hreach _).mp hlast⟩).2
    have hzero := fires_last sh hbar hplain.group_pos hfires
    rw [htaken 0 sh.groups_pos] at hzero
    have hfull : (EntryState.level (2 ^ 32 - 1)).remaining 0 = 2 ^ 32 - 1 := rfl
    omega
  · rintro ⟨hfull, hreach⟩ x hx
    have hempty : ∀ g < sh.numGroups,
        x.remaining g - sh.takenBy [⟨e.predGroup i, n, none⟩] g = 0 := by
      intro g hg
      have := hx g
      rw [htaken g hg]
      omega
    have hfires := fun j => fires_empty sh (D := sh.takenBy [⟨e.predGroup i, n, none⟩])
      hbar hhit hempty j
    obtain ⟨hsent, hready, hnd⟩ := hcells x
    refine ⟨?_, ?_⟩
    · ext j
      · rw [(hbulk x).remaining, runCalls_remaining]
        by_cases hj : j < sh.numGroups
        · have := hx j
          have := Nat.mod_le n (2 ^ 32)
          rw [hempty j hj, e.takenBy_singleCalls sh hb i n hj, e.cellShare_ungrouped hplain.ungrouped]
          omega
        · have hout : ∀ cs, ¬ sh.HitBy cs j := fun cs hh => hj (hh.lt sh)
          rw [sh.takenBy_of_not_hit (hout _), sh.takenBy_of_not_hit (hout _)]
      · rw [Bool.eq_iff_iff, (hbulk x).sent_iff, hsent, hfires, hreach, e.aims_singleCalls sh hb]
        simp [hflag]
    · rw [List.perm_ext_iff_of_nodup (hbulk x).nodup hnd]
      intro j
      rw [(hbulk x).mem_ready, hready, hfires, hreach, e.aims_singleCalls sh hb]
      simp [hflag]

/-! ## Every edge -/

/-- An unfiltered edge without groups is safe for chunks whose length fits 32 bits, unless it
has to name its successors. -/
theorem bulkSafe_of_ungrouped {i n : ℕ} (hb : e.filterBounds = none) (hg : e.groupBy = noGroup)
    (haim : ¬ (e.hasOneToOne = true ∧ sh.hasBarrier = false)) (hn : n < 2 ^ 32) :
    e.BulkSafe sh i n := by
  right
  simp only [hb, if_neg haim]
  intro g _
  rw [e.chunkShare_ungrouped hg, e.cellShare_ungrouped hg, Nat.mod_eq_of_lt hn]
  omega

theorem batchCalls_single (i : ℕ) : Compiled.batchCalls i 1 e = e.calls i 1 := by
  rw [Compiled.batchCalls, e.calls_single]
  split <;> rfl

theorem bulkSafe_iff {i n : ℕ} (hn : 0 < n) (hplain : e.hasOneToOne = true → e.Plain sh) :
    (∀ x : EntryState, x.Fits →
        SameOutcome (runCalls (EntryState.call sh) (e.calls i n) x)
          (runCalls (EntryState.call sh) (Compiled.batchCalls i n e) x) ∧
        SameOutcome (runCalls (EntryState.call sh) (e.calls i n) x)
          (runCalls (EntryState.call sh) (e.singleCalls i n) x)) ↔
      e.BulkSafe sh i n := by
  by_cases hone : n = 1
  · subst hone
    have hsingle : e.singleCalls i 1 = e.calls i 1 := by simp [singleCalls]
    rw [hsingle, e.batchCalls_single]
    exact iff_of_true (fun x _ => ⟨SameOutcome.refl _, SameOutcome.refl _⟩) (.inl rfl)
  · simp only [BulkSafe, hone, false_or]
    cases hb : e.filterBounds with
    | some b =>
      obtain ⟨lo, hi⟩ := b
      simp only [← e.filtered_agree_iff sh hb hn, ← e.calls_eq_singleCalls_of_filter hb hn]
      constructor
      · intro h x hx
        exact (h x hx).1
      · intro h x hx
        exact ⟨h x hx, SameOutcome.refl _⟩
    | none =>
      have hcalls : e.calls i n = [⟨e.predGroup i, n, none⟩] :=
        e.calls_unfiltered hb i n (by omega)
      have hbatch : Compiled.batchCalls i n e = e.calls i n :=
        if_pos (e.passesFilter_of_none hb i)
      rw [hbatch, hcalls]
      have hdrop : (∀ x : EntryState, x.Fits →
          SameOutcome (runCalls (EntryState.call sh) [⟨e.predGroup i, n, none⟩] x)
            (runCalls (EntryState.call sh) [⟨e.predGroup i, n, none⟩] x) ∧
          SameOutcome (runCalls (EntryState.call sh) [⟨e.predGroup i, n, none⟩] x)
            (runCalls (EntryState.call sh) (e.singleCalls i n) x)) ↔
          ∀ x : EntryState, x.Fits →
            SameOutcome (runCalls (EntryState.call sh) [⟨e.predGroup i, n, none⟩] x)
              (runCalls (EntryState.call sh) (e.singleCalls i n) x) :=
        ⟨fun h x hx => (h x hx).2, fun h x hx => ⟨SameOutcome.refl _, h x hx⟩⟩
      rw [hdrop]
      by_cases haim : e.hasOneToOne = true ∧ sh.hasBarrier = false
      · simp only [if_pos haim]
        exact e.aimed_agree_iff sh hb hn haim.1 haim.2 (hplain haim.1)
      · simp only [if_neg haim]
        refine e.unaimed_agree_iff sh hb hn none (.inr (by simp)) ?_
        by_cases hbar : sh.hasBarrier = true
        · exact .inl hbar
        · have h11 : e.hasOneToOne = false := by
            by_contra h
            exact haim ⟨Bool.eq_true_of_not_eq_false h, Bool.eq_false_of_not_eq_true hbar⟩
          right
          intro c hc
          obtain ⟨k, -, hck⟩ := List.mem_flatMap.mp hc
          rw [e.calls_single] at hck
          split at hck
          · rw [List.mem_singleton.mp hck]
            simp [cellCall, oneToOneSuccIdx, h11]
          · cases hck

end SuccEdge

namespace Compiled

variable (c : Compiled)

/-- Only the single-argument branch of the tables gives a 1:1 offset. -/
theorem route_oneToOne (g : Graph) (enabled : Bool) (succ : Node) (p : ℕ) :
    (g.route enabled succ p).oneToOneOffset.isSome = true →
      (g.route enabled succ p).groupBy = none ∧ 1 < succ.factor := by
  unfold Graph.route
  split
  · exact fun h => by cases h
  · split
    · exact fun h => by cases h
    · split
      · simp only [Graph.routeSingle]
        split
        · next hcond => exact fun _ => ⟨trivial, hcond.2.2.2⟩
        · exact fun h => by cases h
      · split <;> exact fun h => by cases h

theorem edge_plain (p v : ℕ) (h11 : (c.edge p v).hasOneToOne = true) :
    (c.edge p v).Plain (c.entry v) := by
  obtain ⟨hgroup, hfactor⟩ := route_oneToOne c.graph c.range1to1Enabled (c.nodeAt v) p h11
  refine ⟨?_, ?_⟩
  · simp [edge, SuccEdge.ofRoute, hgroup]
  · exact groupLayout_size_pos (by omega) _

end Compiled

/-! ## A completed task -/

/-- What resolving a completed task leaves: the instances made ready and the slot. -/
structure Completion where
  ready : List (ℕ × ℕ)
  slot : SlotState

namespace Completion

def readyOf (a : Completion) (v : ℕ) : List ℕ := Trace.readyOf ⟨a.ready, []⟩ v

/-- The same decrements applied, and the same instances of every node made ready. -/
structure Agree (c : Compiled) (a b : Completion) : Prop where
  pendingTasks : a.slot.pendingTasks = b.slot.pendingTasks
  pendingCondTasks : a.slot.pendingCondTasks = b.slot.pendingCondTasks
  deps : ∀ v, c.deps a.slot.cells v = c.deps b.slot.cells v
  ready : ∀ v, (a.readyOf v).Perm (b.readyOf v)

/-- `calls v` is what resolving `n` instances did to the entry of `v`. -/
structure Resolves (c : Compiled) (calls : ℕ → List DepCall) (n : ℕ) (s : SlotState)
    (a : Completion) : Prop where
  walks : c.Walks calls s.cells ⟨a.ready, []⟩ a.slot.cells
  pendingTasks : a.slot.pendingTasks = s.pendingTasks - UInt64.ofNat n
  pendingCondTasks : a.slot.pendingCondTasks = s.pendingCondTasks

theorem Resolves.agree_iff {c : Compiled} {calls calls' : ℕ → List DepCall} {n : ℕ}
    {s : SlotState} {a b : Completion} (ha : a.Resolves c calls n s) (hb : b.Resolves c calls' n s) :
    a.Agree c b ↔ ∀ v, SameOutcome (c.runOn v (calls v) s.cells) (c.runOn v (calls' v) s.cells) := by
  constructor
  · intro h v
    refine ⟨?_, ?_⟩
    · rw [← ha.walks.deps, ← hb.walks.deps, h.deps]
    · rw [← ha.walks.ready, ← hb.walks.ready]
      exact h.ready v
  · intro h
    refine ⟨?_, ?_, fun v => ?_, fun v => ?_⟩
    · rw [ha.pendingTasks, hb.pendingTasks]
    · rw [ha.pendingCondTasks, hb.pendingCondTasks]
    · rw [ha.walks.deps, hb.walks.deps, (h v).1]
    · rw [readyOf, readyOf, ha.walks.ready, hb.walks.ready]
      exact (h v).2

end Completion

namespace Compiled

variable (c : Compiled) (cfg : Config)

def workerCompletion (ni : NodeInfo) (s : SlotState) : Completion :=
  ⟨(c.workerResolveSuccessors cfg ni s).ready, (c.workerResolveSuccessors cfg ni s).state⟩

def batchCompletion {V : Type} (eval : NodeInfo → Bool) (ni : NodeInfo) (s : BatchState V) :
    Completion :=
  let (t, s') := c.processBatchInner cfg eval [(ni, none)] s
  ⟨t.ready, s'.slots ni.slot⟩

/-- The instances `ks` of a task's node completing one at a time, in order. -/
def singleCompletions (ni : NodeInfo) : List ℕ → SlotState → Completion
  | [], s => ⟨[], s⟩
  | k :: ks, s =>
    let first := c.workerCompletion cfg { ni with index := k, bulkCount := 1 } s
    let rest := singleCompletions ni ks first.slot
    ⟨first.ready ++ rest.ready, rest.slot⟩

variable {c}

theorem Walks.sched {calls : ℕ → List DepCall} {s s' : LazySlot} {t : Trace}
    (h : c.Walks calls s t s') (sched : List NodeInfo) : c.Walks calls s ⟨t.ready, sched⟩ s' :=
  ⟨h.generation, h.deps, h.ready⟩

theorem worker_resolves (ni : NodeInfo) {s : SlotState} (hgen : s.cells.slotGen = ni.gen)
    (hcond : c.isCondition ni.id = false)
    (hes : ∀ e ∈ c.edgesFor ni.id, e.succId < c.graph.nodes.length) :
    (c.workerCompletion cfg ni s).Resolves c
      (callsOver (·.calls ni.index ni.bulkCount) (c.edgesFor ni.id)) ni.bulkCount s := by
  have hwalk := workerWalk_walks cfg ni (c.edgesFor ni.id) hes s.cells
  have hrun : c.workerCompletion cfg ni s =
      ⟨(c.workerWalk cfg ni (c.edgesFor ni.id) s.cells).1.ready,
        { s with
          cells := (c.workerWalk cfg ni (c.edgesFor ni.id) s.cells).2
          pendingTasks := s.pendingTasks - UInt64.ofNat ni.bulkCount
          processingCount := s.processingCount + 1 - 1
          needsCheck := true }⟩ := by
    simp only [workerCompletion, workerResolveSuccessors, retire, hgen, hcond, ne_eq,
      not_true_eq_false, if_false, Bool.false_eq_true]
  rw [hrun]
  exact ⟨hwalk.sched [], rfl, rfl⟩

theorem batch_resolves {V : Type} (eval : NodeInfo → Bool) {ni : NodeInfo} (s : BatchState V)
    (hcond : c.isCondition ni.id = false)
    (hes : ∀ e ∈ c.edgesFor ni.id, e.succId < c.graph.nodes.length)
    (hsucc : ∀ e ∈ c.edgesFor ni.id, e.hasCondition = false) :
    (c.batchCompletion cfg eval ni s).Resolves c
      (callsOver (batchCalls ni.index ni.bulkCount) (c.edgesFor ni.id)) ni.bulkCount
      (s.slots ni.slot) := by
  have hretire : c.retire ni (s.slots ni.slot) = { s.slots ni.slot with
      pendingTasks := (s.slots ni.slot).pendingTasks - UInt64.ofNat ni.bulkCount } := by
    simp only [retire, hcond, Bool.false_eq_true, if_false]
  obtain ⟨hwalk, hpending, hpendingCond⟩ := batchWalk_walks cfg eval ni (c.edgesFor ni.id) hes hsucc
    (c.retire ni (s.slots ni.slot))
  rw [hretire] at hwalk hpending hpendingCond
  have hrun : c.batchCompletion cfg eval ni s =
      ⟨(c.batchEntry cfg eval ni (s.slots ni.slot)).1.ready,
        (c.batchEntry cfg eval ni (s.slots ni.slot)).2⟩ := by
    simp [batchCompletion, processBatchInner, processEntry, Trace.append, Trace.empty,
      BatchState.setSlot]
  rw [hrun, batchEntry, hretire]
  exact ⟨hwalk.sched [], hpending, hpendingCond⟩

theorem singles_resolve {ni : NodeInfo} (ks : List ℕ) {s : SlotState}
    (hgen : s.cells.slotGen = ni.gen) (hcond : c.isCondition ni.id = false)
    (hes : ∀ e ∈ c.edgesFor ni.id, e.succId < c.graph.nodes.length) :
    (c.singleCompletions cfg ni ks s).Resolves c
      (fun v => ks.flatMap fun k => callsOver (·.calls k 1) (c.edgesFor ni.id) v) ks.length s := by
  induction ks generalizing s with
  | nil =>
    refine ⟨Walks.refl s.cells, ?_, rfl⟩
    show s.pendingTasks = s.pendingTasks - UInt64.ofNat 0
    simp
  | cons k ks ih =>
    have hfirst : (c.workerCompletion cfg { ni with index := k, bulkCount := 1 } s).Resolves c
        (callsOver (·.calls k 1) (c.edgesFor ni.id)) 1 s :=
      worker_resolves cfg { ni with index := k, bulkCount := 1 } hgen hcond hes
    have hgen' : (c.workerCompletion cfg { ni with index := k, bulkCount := 1 } s).slot.cells.slotGen =
        ni.gen := by
      rw [LazySlot.slotGen, hfirst.walks.generation]
      exact hgen
    have hrest := ih hgen'
    refine ⟨?_, ?_, ?_⟩
    · exact (hfirst.walks.append hrest.walks).congr fun v => rfl
    · have hone : (c.workerCompletion cfg { ni with index := k, bulkCount := 1 } s).slot.pendingTasks =
          s.pendingTasks - UInt64.ofNat 1 := hfirst.pendingTasks
      rw [List.length_cons, Nat.add_comm, ofNat_add_sub, ← hone]
      exact hrest.pendingTasks
    · exact hrest.pendingCondTasks.trans hfirst.pendingCondTasks

end Compiled

namespace BuiltFrom

variable {nodes : List Node} {c : Compiled} (h : BuiltFrom nodes c)

include h

theorem edge_succ_lt {p : ℕ} : ∀ e ∈ c.edgesFor p, e.succId < c.graph.nodes.length := by
  intro e he
  obtain ⟨v, hv, heq⟩ := c.mem_edgesFor.mp he
  subst heq
  rw [h.nodes_eq]
  exact (h.mem_successors.mp hv).1

/-- The calls on `v` of the one edge that leads there. -/
theorem callsOver_eq (f : SuccEdge → List DepCall) (p v : ℕ) :
    Compiled.callsOver f (c.edgesFor p) v =
      if v ∈ c.graph.successors p then f (c.edge p v) else [] := by
  rw [Compiled.callsOver, h.edgesFor_filter]
  split <;> simp

end BuiltFrom

/-- On a slot of the task's generation the three agree when their calls have the same outcome
on the entry of every successor. -/
theorem BuiltFrom.completions_agree_iff {nodes : List Node} {c : Compiled} (h : BuiltFrom nodes c)
    (cfg : Config) (eval : NodeInfo → Bool) {V : Type} {ni : NodeInfo} {s : BatchState V}
    (hcond : c.isCondition ni.id = false)
    (hsucc : ∀ v ∈ c.graph.successors ni.id, c.isCondition v = false)
    (hgen : (s.slots ni.slot).cells.slotGen = ni.gen) :
    ((c.workerCompletion cfg ni (s.slots ni.slot)).Agree c (c.batchCompletion cfg eval ni s) ∧
        (c.workerCompletion cfg ni (s.slots ni.slot)).Agree c
          (c.singleCompletions cfg ni ni.instances (s.slots ni.slot))) ↔
      ∀ v ∈ c.graph.successors ni.id,
        SameOutcome (c.runOn v ((c.edge ni.id v).calls ni.index ni.bulkCount) (s.slots ni.slot).cells)
          (c.runOn v (Compiled.batchCalls ni.index ni.bulkCount (c.edge ni.id v))
            (s.slots ni.slot).cells) ∧
        SameOutcome (c.runOn v ((c.edge ni.id v).calls ni.index ni.bulkCount) (s.slots ni.slot).cells)
          (c.runOn v ((c.edge ni.id v).singleCalls ni.index ni.bulkCount)
            (s.slots ni.slot).cells) := by
  have hes := h.edge_succ_lt (p := ni.id)
  have hplainEdges : ∀ e ∈ c.edgesFor ni.id, e.hasCondition = false := by
    intro e he
    obtain ⟨v, hv, heq⟩ := c.mem_edgesFor.mp he
    subst heq
    exact hsucc v hv
  have hworker := Compiled.worker_resolves cfg ni hgen hcond hes
  have hbatch := Compiled.batch_resolves cfg eval s hcond hes hplainEdges
  have hsingles := Compiled.singles_resolve cfg ni.instances hgen hcond hes
  rw [NodeInfo.instances, List.length_range'] at hsingles
  rw [hworker.agree_iff hbatch, NodeInfo.instances, hworker.agree_iff hsingles]
  simp only [h.callsOver_eq]
  constructor
  · rintro ⟨h1, h2⟩ v hv
    have h1v := h1 v
    have h2v := h2 v
    simp only [if_pos hv] at h1v h2v
    exact ⟨h1v, h2v⟩
  · intro hall
    refine ⟨fun v => ?_, fun v => ?_⟩
    · by_cases hv : v ∈ c.graph.successors ni.id
      · simp only [if_pos hv]
        exact (hall v hv).1
      · simp only [if_neg hv]
        exact SameOutcome.refl _
    · by_cases hv : v ∈ c.graph.successors ni.id
      · simp only [if_pos hv]
        exact (hall v hv).2
      · have hnil : ((List.range' ni.index ni.bulkCount).flatMap fun _ => ([] : List DepCall)) = [] :=
          List.flatMap_eq_nil_iff.mpr fun _ _ => rfl
        simp only [if_neg hv, hnil]
        exact SameOutcome.refl _

/-- A worker, the batch path and single completions do the same to every slot of the task's
generation, if and only if the chunk is safe on every edge of the node. -/
theorem bulk_completion_agrees {nodes : List Node} {c : Compiled} (h : BuiltFrom nodes c)
    (cfg : Config) (eval : NodeInfo → Bool) (V : Type) (ni : NodeInfo) (hn : 0 < ni.bulkCount)
    (hcond : c.isCondition ni.id = false)
    (hsucc : ∀ v ∈ c.graph.successors ni.id, c.isCondition v = false) :
    (∀ s : BatchState V, (s.slots ni.slot).cells.slotGen = ni.gen →
        (c.workerCompletion cfg ni (s.slots ni.slot)).Agree c (c.batchCompletion cfg eval ni s) ∧
        (c.workerCompletion cfg ni (s.slots ni.slot)).Agree c
          (c.singleCompletions cfg ni ni.instances (s.slots ni.slot))) ↔
      ∀ v ∈ c.graph.successors ni.id,
        (c.edge ni.id v).BulkSafe (c.entry v) ni.index ni.bulkCount := by
  have hsafe := fun v => (c.edge ni.id v).bulkSafe_iff (c.entry v) (i := ni.index) hn
    (c.edge_plain ni.id v)
  constructor
  · intro hall v hv
    rw [← hsafe v]
    intro x hx
    -- every entry of a slot can hold `x`, so agreement on slots is agreement on entries
    have hgen := LazySlot.ofEntries_slotGen ni.gen x
    have hslot := hall ⟨fun _ => ⟨LazySlot.ofEntries ni.gen x, 0, 0, 0, false⟩, fun _ _ _ => none⟩ hgen
    have hout := (h.completions_agree_iff cfg eval hcond hsucc hgen).mp hslot v hv
    simp only [Compiled.runOn, c.deps_ofEntries ni.gen hx] at hout
    exact hout
  · intro hall s hgen
    rw [h.completions_agree_iff cfg eval hcond hsucc hgen]
    intro v hv
    exact (hsafe v).mpr (hall v hv) _ (c.deps_fits _ v)

/-- Four packets, of which a barrier node of factor 1 waits for the second and the third. -/
def windowedBarrier : List Node :=
  [⟨true, 0, [], 4, none, false⟩,
    ⟨false, 1, [⟨.barrier, false, some ⟨0, [1, 2], none⟩⟩], 1, none, false⟩]

theorem builtFrom_windowedBarrier :
    BuiltFrom windowedBarrier (Compiled.ofNodes windowedBarrier) :=
  builtFrom_ofNodes (by decide) (by decide)

theorem bulk_completion_agrees_at_windowedBarrier :
    (∀ s : BatchState Unit, (s.slots 0).cells.slotGen = 0 →
        ((Compiled.ofNodes windowedBarrier).workerCompletion ⟨2, true, false, false⟩
          ⟨0, 0, 0, 0, 4, 0⟩ (s.slots 0)).Agree (Compiled.ofNodes windowedBarrier)
          ((Compiled.ofNodes windowedBarrier).batchCompletion ⟨2, true, false, false⟩
            (fun _ => true) ⟨0, 0, 0, 0, 4, 0⟩ s) ∧
        ((Compiled.ofNodes windowedBarrier).workerCompletion ⟨2, true, false, false⟩
          ⟨0, 0, 0, 0, 4, 0⟩ (s.slots 0)).Agree (Compiled.ofNodes windowedBarrier)
          ((Compiled.ofNodes windowedBarrier).singleCompletions ⟨2, true, false, false⟩
            ⟨0, 0, 0, 0, 4, 0⟩ (List.range' 0 4) (s.slots 0))) ↔
      ∀ v ∈ (Compiled.ofNodes windowedBarrier).graph.successors 0,
        ((Compiled.ofNodes windowedBarrier).edge 0 v).BulkSafe
          ((Compiled.ofNodes windowedBarrier).entry v) 0 4 :=
  bulk_completion_agrees builtFrom_windowedBarrier ⟨2, true, false, false⟩ (fun _ => true) Unit
    ⟨0, 0, 0, 0, 4, 0⟩ (by decide) (by decide) (by decide)

/-- The batch path drops a chunk of all four packets, because its start is not awaited. -/
theorem bulk_completion_differs :
    ¬ ∀ nodes c, BuiltFrom nodes c → ∀ (cfg : Config) (eval : NodeInfo → Bool) (ni : NodeInfo),
      0 < ni.bulkCount → c.isCondition ni.id = false →
      (∀ v ∈ c.graph.successors ni.id, c.isCondition v = false) →
      ∀ s : BatchState Unit, (s.slots ni.slot).cells.slotGen = ni.gen →
        (c.workerCompletion cfg ni (s.slots ni.slot)).Agree c (c.batchCompletion cfg eval ni s) ∧
        (c.workerCompletion cfg ni (s.slots ni.slot)).Agree c
          (c.singleCompletions cfg ni ni.instances (s.slots ni.slot)) := by
  intro h
  have hagree := (h windowedBarrier _ builtFrom_windowedBarrier ⟨2, true, false, false⟩
    (fun _ => true) ⟨0, 0, 0, 0, 4, 0⟩ (by decide) (by decide) (by decide)
    ⟨fun _ => ⟨LazySlot.initial (Compiled.ofNodes windowedBarrier).layout, 5, 0, 0, false⟩,
      fun _ _ _ => none⟩ (by decide)).1
  have hlength := (hagree.ready 1).length_eq
  revert hlength
  decide +kernel

end Tomii
