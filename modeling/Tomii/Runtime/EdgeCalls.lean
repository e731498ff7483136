import Tomii.Runtime.Successor
import Tomii.Buffers.EntrySpec
import Mathlib.Algebra.BigOperators.Group.List.Basic

/-! # The calls an edge makes

Which calls a completion makes along an edge, and what a list of calls takes off each group
counter. -/
namespace Tomii
set_option autoImplicit false
set_option maxHeartbeats 250000

namespace SuccEdge

variable (e : SuccEdge)

theorem filterBounds_eq_none : e.filterBounds = none ↔ e.filterEnd = noFilter := by
  unfold filterBounds
  split <;> simp [*]

theorem filterBounds_eq_some {lo hi : ℕ} : e.filterBounds = some (lo, hi) ↔
    e.filterEnd ≠ noFilter ∧ e.filterStart.toNat = lo ∧ e.filterEnd.toNat = hi := by
  unfold filterBounds
  split <;> simp [*]

theorem passesFilter_of_none (h : e.filterBounds = none) (i : ℕ) : e.passesFilter i = true := by
  simp [passesFilter, e.filterBounds_eq_none.mp h]

theorem passesFilter_of_some {lo hi : ℕ} (h : e.filterBounds = some (lo, hi)) (i : ℕ) :
    e.passesFilter i = true ↔ lo ≤ i ∧ i < hi := by
  obtain ⟨hne, rfl, rfl⟩ := e.filterBounds_eq_some.mp h
  simp [passesFilter, hne]

theorem filterBounds_lt {lo hi : ℕ} (h : e.filterBounds = some (lo, hi)) : hi < 2 ^ 32 := by
  obtain ⟨-, -, rfl⟩ := e.filterBounds_eq_some.mp h
  exact e.filterEnd.toNat_lt

theorem filterOverlap_eq {i n lo hi : ℕ} (hhi : hi < 2 ^ 32) :
    filterOverlap i n lo hi =
      if max i lo < min (i + max n 1) hi then some (max i lo, min (i + max n 1) hi) else none := by
  have hmin : min (min (i + max n 1) (2 ^ 64 - 1)) hi = min (i + max n 1) hi := by omega
  simp only [filterOverlap, hmin]

/-- A single completion makes the call of its cell, if it passes the filter. -/
theorem calls_single (i : ℕ) : e.calls i 1 = if e.passesFilter i then [e.cellCall i] else [] := by
  cases hb : e.filterBounds with
  | none => simp [calls, hb, e.passesFilter_of_none hb, cellCall]
  | some b =>
    obtain ⟨lo, hi⟩ := b
    have hpass := e.passesFilter_of_some hb i
    simp only [calls, hb, filterOverlap_eq (e.filterBounds_lt hb), Nat.max_self]
    by_cases hin : lo ≤ i ∧ i < hi
    · have hcov : max i lo < min (i + 1) hi := by omega
      have hlo : max i lo = i := by omega
      have hlen : min (i + 1) hi - i = 1 := by omega
      rw [if_pos hcov, if_pos (hpass.mpr hin)]
      simp [hlo, hlen]
    · have hcov : ¬ max i lo < min (i + 1) hi := by omega
      rw [if_neg hcov, if_neg (fun h => hin (hpass.mp h))]

/-- On a filtered edge a chunk makes the calls of its single completions. -/
theorem calls_filtered {b : ℕ × ℕ} (hb : e.filterBounds = some b) (i n : ℕ) (hn : 0 < n) :
    e.calls i n = (List.range' i n).flatMap fun k => e.calls k 1 := by
  obtain ⟨lo, hi⟩ := b
  simp only [calls_single]
  simp only [calls, hb, filterOverlap_eq (e.filterBounds_lt hb)]
  have hmax : max n 1 = n := by omega
  rw [hmax]
  have hpass := e.passesFilter_of_some hb
  have hout : ∀ a m, (∀ k, a ≤ k → k < a + m → ¬ (lo ≤ k ∧ k < hi)) →
      ((List.range' a m).flatMap fun k => if e.passesFilter k then [e.cellCall k] else []) = [] := by
    intro a m h
    rw [List.flatMap_eq_nil_iff]
    intro k hk
    rw [List.mem_range'_1] at hk
    rw [if_neg fun hp => h k hk.1 hk.2 ((hpass k).mp hp)]
  by_cases hcov : max i lo < min (i + n) hi
  · rw [if_pos hcov]
    have hsplit : List.range' i n = List.range' i (max i lo - i) ++
        (List.range' (max i lo) (min (i + n) hi - max i lo) ++
          List.range' (min (i + n) hi) (i + n - min (i + n) hi)) := by
      have h2 : List.range' (max i lo) (min (i + n) hi - max i lo) ++
          List.range' (min (i + n) hi) (i + n - min (i + n) hi) =
          List.range' (max i lo) (i + n - max i lo) := by
        have hend : min (i + n) hi = max i lo + (min (i + n) hi - max i lo) := by omega
        conv_lhs => rw [hend]
        rw [Nat.add_sub_cancel_left, List.range'_append_1]
        congr 1
        omega
      rw [h2]
      have hmid : max i lo = i + (max i lo - i) := by omega
      conv_rhs => rw [hmid]
      rw [Nat.add_sub_cancel_left, List.range'_append_1]
      congr 1
      omega
    rw [hsplit, List.flatMap_append, List.flatMap_append, hout i _ (by omega),
      hout _ (i + n - min (i + n) hi) (by omega), List.nil_append, List.append_nil]
    simp only [List.map_eq_flatMap]
    apply List.flatMap_congr
    intro k hk
    rw [List.mem_range'_1] at hk
    rw [if_pos ((hpass k).mpr (by omega))]
  · rw [if_neg hcov, hout i n (by omega)]

/-- On an unfiltered edge a chunk of two or more makes one call, without a 1:1 instance. -/
theorem calls_unfiltered (hb : e.filterBounds = none) (i n : ℕ) (hn : 1 < n) :
    e.calls i n = [⟨e.predGroup i, n, none⟩] := by
  simp [calls, hb, hn]

theorem calls_unaimed (h11 : e.hasOneToOne = false) (i n : ℕ) :
    ∀ c ∈ e.calls i n, c.specific = none := by
  intro c hc
  unfold calls at hc
  split at hc
  · rw [List.mem_singleton.mp hc]
    simp [oneToOneSuccIdx, h11]
  · split at hc
    · cases hc
    · obtain ⟨k, -, hk⟩ := List.mem_map.mp hc
      rw [← hk]
      simp [cellCall, oneToOneSuccIdx, h11]

/-- The calls of a chunk name a successor each, or none does. -/
theorem calls_unnamed {i n : ℕ} {c : DepCall} (hc : c ∈ e.calls i n) (hnone : c.specific = none) :
    ∀ d ∈ e.calls i n, d.specific = none := by
  cases hb : e.filterBounds with
  | none =>
    intro d hd
    simp only [calls, hb, List.mem_singleton] at hc hd
    rw [hd, ← hc]
    exact hnone
  | some b =>
    have h11 : e.hasOneToOne = false := by
      unfold calls at hc
      simp only [hb] at hc
      split at hc
      · cases hc
      · obtain ⟨k, -, hk⟩ := List.mem_map.mp hc
        rw [← hk] at hnone
        simp only [cellCall, oneToOneSuccIdx] at hnone
        split at hnone
        · cases hnone
        · next hno => exact Bool.eq_false_of_not_eq_true hno
    exact e.calls_unaimed h11 i n

theorem calls_ungrouped (hgroup : e.groupBy = noGroup) (i n : ℕ) :
    ∀ c ∈ e.calls i n, c.group = none := by
  intro c hc
  have hnone : ∀ k, e.predGroup k = none := fun k => if_pos hgroup
  unfold calls at hc
  split at hc
  · rw [List.mem_singleton.mp hc]
    exact hnone i
  · split at hc
    · cases hc
    · obtain ⟨k, -, hk⟩ := List.mem_map.mp hc
      rw [← hk]
      exact hnone k

end SuccEdge

/-! ## Totals -/

namespace EntryShape

variable (sh : EntryShape)

/-- What a list of calls takes off group `g`. -/
def takenBy (cs : List DepCall) (g : ℕ) : ℕ := (cs.map fun c => sh.taken c g).sum

@[simp] theorem takenBy_nil (g : ℕ) : sh.takenBy [] g = 0 := rfl

@[simp] theorem takenBy_cons (c : DepCall) (cs : List DepCall) (g : ℕ) :
    sh.takenBy (c :: cs) g = sh.taken c g + sh.takenBy cs g := by
  simp [takenBy]

@[simp] theorem takenBy_append (cs ds : List DepCall) (g : ℕ) :
    sh.takenBy (cs ++ ds) g = sh.takenBy cs g + sh.takenBy ds g := by
  simp [takenBy]

theorem takenBy_flatMap {α : Type*} (xs : List α) (f : α → List DepCall) (g : ℕ) :
    sh.takenBy (xs.flatMap f) g = (xs.map fun x => sh.takenBy (f x) g).sum := by
  induction xs with
  | nil => rfl
  | cons x xs ih => simp [ih]

theorem taken_cellCall (e : SuccEdge) (i : ℕ) {g : ℕ} (hg : g < sh.numGroups) :
    sh.taken (e.cellCall i) g =
      if e.predGroup i = none ∨ e.predGroup i = some g then 1 else 0 := by
  simp [taken, Hits, SuccEdge.cellCall, hg]

/-- Single completions on an unfiltered edge take one for each covered instance of the group. -/
theorem takenBy_singles (e : SuccEdge) (hb : e.filterBounds = none) (ks : List ℕ) {g : ℕ}
    (hg : g < sh.numGroups) : sh.takenBy (ks.flatMap fun k => e.calls k 1) g =
      ks.countP fun k => e.predGroup k = none ∨ e.predGroup k = some g := by
  induction ks with
  | nil => rfl
  | cons k ks ih =>
    rw [List.flatMap_cons, takenBy_append, ih, e.calls_single, if_pos (e.passesFilter_of_none hb k),
      takenBy_cons, takenBy_nil, sh.taken_cellCall e k hg, List.countP_cons]
    simp only [decide_eq_true_eq]
    omega

theorem takenBy_cells (e : SuccEdge) (ks : List ℕ) {g : ℕ} (hg : g < sh.numGroups) :
    sh.takenBy (ks.map e.cellCall) g =
      ks.countP fun k => e.predGroup k = none ∨ e.predGroup k = some g := by
  induction ks with
  | nil => rfl
  | cons k ks ih =>
    rw [List.map_cons, takenBy_cons, ih, sh.taken_cellCall e k hg, List.countP_cons]
    simp only [decide_eq_true_eq]
    omega

/-- In a list of calls that hits a group, the last one to hit it completes what is taken. -/
theorem exists_last_hit (cs : List DepCall) {g : ℕ} (hhit : ∃ c ∈ cs, sh.Hits c g) :
    ∃ before c after, cs = before ++ c :: after ∧ sh.Hits c g ∧
      sh.takenBy (before ++ [c]) g = sh.takenBy cs g := by
  induction cs using List.reverseRecOn with
  | nil =>
    obtain ⟨c, hc, -⟩ := hhit
    cases hc
  | append_singleton cs d ih =>
    by_cases hd : sh.Hits d g
    · exact ⟨cs, d, [], rfl, hd, rfl⟩
    · have hearlier : ∃ c ∈ cs, sh.Hits c g := by
        obtain ⟨c, hc, hg⟩ := hhit
        rw [List.mem_append, List.mem_singleton] at hc
        cases hc with
        | inl hc => exact ⟨c, hc, hg⟩
        | inr hc => exact absurd (hc ▸ hg) hd
      obtain ⟨before, c, after, hsplit, hc, htaken⟩ := ih hearlier
      refine ⟨before, c, after ++ [d], by simp [hsplit], hc, ?_⟩
      rw [htaken, takenBy_append, takenBy_cons, takenBy_nil, taken, if_neg hd, Nat.add_zero]

end EntryShape

/-! ## Totals in numbers -/

/-- How many numbers the ranges `[a, b)` and `[lo, hi)` share. -/
def overlap (a b lo hi : ℕ) : ℕ := min b hi - max a lo

theorem countP_overlap (a b lo hi : ℕ) :
    (List.range' a (b - a)).countP (fun k => lo ≤ k ∧ k < hi) = overlap a b lo hi := by
  obtain ⟨m, hm⟩ : ∃ m, b - a = m := ⟨_, rfl⟩
  induction m generalizing b with
  | zero =>
    rw [hm]
    simp only [List.range'_zero, List.countP_nil, overlap]
    omega
  | succ m ih =>
    have hlast := ih (b - 1) (by omega)
    have hlen : b - 1 - a = m := by omega
    rw [hlen] at hlast
    rw [hm, List.range'_concat, List.countP_append, hlast, List.countP_singleton]
    simp only [Nat.one_mul, decide_eq_true_eq, overlap]
    split <;> omega

namespace SuccEdge

variable (e : SuccEdge)

/-- What the one bulk call of an unfiltered edge takes off group `g`. -/
def chunkShare (i n g : ℕ) : ℕ :=
  if e.predGroup i = none ∨ e.predGroup i = some g then n % 2 ^ 32 else 0

/-- The part of the window `[lo, hi)` that falls to group `g`: all of it without a divisor. -/
def groupWindow (lo hi g : ℕ) : ℕ × ℕ :=
  if e.groupBy = noGroup then (lo, hi)
  else (lo + g * e.groupBy.toNat, min hi (lo + (g + 1) * e.groupBy.toNat))

/-- What a chunk of `n` instances from `i` draws on group `g`. Off a window it is the part of the
chunk that falls to `g`; without one the whole chunk goes where its start goes. -/
def draws (i n g : ℕ) : ℕ :=
  match e.filterBounds with
  | none => e.chunkShare i n g
  | some (lo, hi) =>
    overlap i (i + max n 1) (e.groupWindow lo hi g).1 (e.groupWindow lo hi g).2

/-- The chunk has an instance whose 1:1 successor is `j`; an unfiltered edge names none for a
chunk of two or more. -/
def Names (i n j : ℕ) : Prop :=
  match e.filterBounds with
  | none => n ≤ 1 ∧ e.oneToOneSuccIdx i = some j
  | some (lo, hi) => ∃ k, max i lo ≤ k ∧ k < min (i + max n 1) hi ∧ e.oneToOneSuccIdx k = some j

/-- The chunk makes a call on group `g` that names no successor. -/
def Counts (i n g : ℕ) : Prop :=
  match e.filterBounds with
  | none => (1 < n ∨ e.hasOneToOne = false) ∧ (e.predGroup i = none ∨ e.predGroup i = some g)
  | some _ => e.hasOneToOne = false ∧ 0 < e.draws i n g

theorem predGroup_iff {lo hi : ℕ} (hb : e.filterBounds = some (lo, hi)) (g : ℕ) {k : ℕ}
    (hlo : lo ≤ k) (hhi : k < hi) : e.predGroup k = none ∨ e.predGroup k = some g ↔
      (e.groupWindow lo hi g).1 ≤ k ∧ k < (e.groupWindow lo hi g).2 := by
  have hstart := (e.filterBounds_eq_some.mp hb).2.1
  unfold predGroup groupWindow
  by_cases hgb : e.groupBy = noGroup
  · rw [if_pos hgb, if_pos hgb]
    exact iff_of_true (.inl rfl) ⟨hlo, hhi⟩
  · have hpos : 0 < e.groupBy.toNat := by
      refine Nat.pos_of_ne_zero fun hz => hgb ?_
      rw [← UInt32.toNat_inj, hz]
      rfl
    rw [if_neg hgb, if_neg hgb, hstart, wrappingSub_of_le hlo]
    simp only [reduceCtorEq, false_or, Option.some.injEq]
    rw [Nat.div_eq_iff hpos]
    have hsucc : (g + 1) * e.groupBy.toNat = g * e.groupBy.toNat + e.groupBy.toNat :=
      Nat.succ_mul ..
    rw [hsucc]
    omega

section Shape

variable (sh : EntryShape)

theorem takenBy_bulkCall (i n : ℕ) {g : ℕ} (hg : g < sh.numGroups) (specific : Option ℕ) :
    sh.takenBy [⟨e.predGroup i, n, specific⟩] g = e.chunkShare i n g := by
  simp [EntryShape.taken, EntryShape.Hits, chunkShare, hg]

theorem calls_window {lo hi : ℕ} (hb : e.filterBounds = some (lo, hi)) (i n : ℕ) :
    e.calls i n =
      (List.range' (max i lo) (min (i + max n 1) hi - max i lo)).map e.cellCall := by
  simp only [calls, hb, filterOverlap_eq (e.filterBounds_lt hb)]
  by_cases hcov : max i lo < min (i + max n 1) hi
  · rw [if_pos hcov]
  · have hempty : min (i + max n 1) hi - max i lo = 0 := by omega
    rw [if_neg hcov, hempty]
    rfl

/-- The calls of a chunk take off a group what the chunk draws on it. -/
theorem takenBy_calls (i n : ℕ) {g : ℕ} (hg : g < sh.numGroups) :
    sh.takenBy (e.calls i n) g = e.draws i n g := by
  unfold draws
  cases hb : e.filterBounds with
  | none =>
    have hcall : e.calls i n =
        [⟨e.predGroup i, n, if 1 < n then none else e.oneToOneSuccIdx i⟩] := by
      simp only [calls, hb]
    rw [hcall, e.takenBy_bulkCall sh i n hg]
  | some b =>
    obtain ⟨lo, hi⟩ := b
    have hcount : ∀ k ∈ List.range' (max i lo) (min (i + max n 1) hi - max i lo),
        decide (e.predGroup k = none ∨ e.predGroup k = some g) = true ↔
          decide ((e.groupWindow lo hi g).1 ≤ k ∧ k < (e.groupWindow lo hi g).2) = true := by
      intro k hk
      rw [List.mem_range'_1] at hk
      rw [decide_eq_true_eq, decide_eq_true_eq]
      exact e.predGroup_iff hb g (by omega) (by omega)
    have hinside : lo ≤ (e.groupWindow lo hi g).1 ∧ (e.groupWindow lo hi g).2 ≤ hi := by
      unfold groupWindow
      split
      · exact ⟨le_rfl, le_rfl⟩
      · exact ⟨Nat.le_add_right _ _, min_le_left _ _⟩
    rw [e.calls_window hb, sh.takenBy_cells e _ hg, List.countP_congr hcount, countP_overlap]
    simp only [overlap]
    omega

theorem mem_calls_named (i n j : ℕ) :
    (∃ c ∈ e.calls i n, c.specific = some j) ↔ e.Names i n j := by
  unfold Names
  cases hb : e.filterBounds with
  | none =>
    simp only [calls, hb, List.mem_singleton, exists_eq_left]
    by_cases hn : 1 < n
    · rw [if_pos hn]
      exact iff_of_false (fun h => by cases h) fun h => by omega
    · rw [if_neg hn]
      exact ⟨fun h => ⟨by omega, h⟩, fun h => h.2⟩
  | some b =>
    obtain ⟨lo, hi⟩ := b
    rw [e.calls_window hb]
    simp only [List.mem_map, List.mem_range'_1]
    constructor
    · intro h
      obtain ⟨c, ⟨k, hk, hc⟩, hj⟩ := h
      subst hc
      exact ⟨k, by omega, by omega, hj⟩
    · intro h
      obtain ⟨k, hlo, hhi, hj⟩ := h
      exact ⟨e.cellCall k, ⟨k, by omega, rfl⟩, hj⟩

theorem mem_calls_unnamed (i n : ℕ) {g : ℕ} (hg : g < sh.numGroups) :
    (∃ c ∈ e.calls i n, c.specific = none ∧ sh.Hits c g) ↔ e.Counts i n g := by
  have hone : ∀ k, e.oneToOneSuccIdx k = none ↔ e.hasOneToOne = false := by
    intro k
    unfold oneToOneSuccIdx
    cases e.hasOneToOne <;> simp
  unfold Counts
  cases hb : e.filterBounds with
  | none =>
    simp only [calls, hb, List.mem_singleton, exists_eq_left, EntryShape.Hits, hg, true_and]
    by_cases hn : 1 < n
    · simp [hn]
    · simp [hn, hone]
  | some b =>
    obtain ⟨lo, hi⟩ := b
    have hpositive : (∃ c ∈ e.calls i n, sh.Hits c g) ↔ 0 < e.draws i n g := by
      rw [← e.takenBy_calls sh i n hg, e.calls_window hb, sh.takenBy_cells e _ hg,
        List.countP_pos_iff]
      simp only [List.mem_map, EntryShape.Hits, hg, true_and, decide_eq_true_eq]
      constructor
      · intro h
        obtain ⟨c, ⟨k, hk, hc⟩, hhit⟩ := h
        subst hc
        exact ⟨k, hk, hhit⟩
      · intro h
        obtain ⟨k, hk, hhit⟩ := h
        exact ⟨e.cellCall k, ⟨k, hk, rfl⟩, hhit⟩
    rw [← hpositive]
    have hspec : ∀ c ∈ e.calls i n, c.specific = none ↔ e.hasOneToOne = false := by
      intro c hc
      rw [e.calls_window hb] at hc
      obtain ⟨k, -, hk⟩ := List.mem_map.mp hc
      subst hk
      exact hone k
    constructor
    · intro h
      obtain ⟨c, hc, hnone, hhit⟩ := h
      exact ⟨(hspec c hc).mp hnone, c, hc, hhit⟩
    · intro h
      obtain ⟨h11, c, hc, hhit⟩ := h
      exact ⟨c, hc, (hspec c hc).mpr h11, hhit⟩

end Shape

end SuccEdge

/-- A list of calls lowers each counter by what it takes in total. -/
theorem runCalls_remaining (sh : EntryShape) (cs : List DepCall) (s : EntryState) (g : ℕ) :
    (runCalls (EntryState.call sh) cs s).2.remaining g = s.remaining g - sh.takenBy cs g := by
  induction cs generalizing s with
  | nil => rfl
  | cons c cs ih =>
    rw [runCalls_cons, ih, EntryState.call_remaining, EntryShape.takenBy_cons]
    omega

end Tomii
