import Tomii.Buffers.EntrySpec

/-! # Decrements in batches

Decrements of a group come one by one or added up. What a sequence of them releases depends on the
total that reaches the counter, and every instance is released once. -/
namespace Tomii
set_option autoImplicit false
set_option maxHeartbeats 250000

namespace EntryShape

variable (sh : EntryShape)

/-- A decrement of `group` reaches the counter of group `g`. -/
def Covers (group : Option ℕ) (g : ℕ) : Prop := g < sh.numGroups ∧ (group = none ∨ group = some g)

instance (group : Option ℕ) (g : ℕ) : Decidable (sh.Covers group g) :=
  inferInstanceAs (Decidable (_ ∧ _))

/-- A counter at `old` that `total` is taken from lets instance `i` of its group through. -/
def Lets (g old total i : ℕ) : Prop :=
  if sh.hasBarrier then 0 < old ∧ old ≤ total
  else old ≤ total + sh.thresholdForInstanceInGroup (i - g * sh.groupSize)

instance (g old total i : ℕ) : Decidable (sh.Lets g old total i) :=
  inferInstanceAs (Decidable (ite _ _ _))

theorem mem_candidates {g old total i : ℕ} : i ∈ sh.candidates g old (old - total) none ↔
    i ∈ sh.groupRange g ∧ sh.Lets g old total i := by
  unfold candidates Lets
  cases sh.hasBarrier with
  | true =>
    simp only [if_true]
    split
    · next h => exact ⟨fun hi => ⟨hi, h.1, by omega⟩, fun hi => hi.1⟩
    · next h =>
      refine ⟨fun hi => (nomatch hi), fun hi => absurd ⟨hi.2.1, ?_⟩ h⟩
      have hle := hi.2.2
      omega
  | false =>
    simp only [Bool.false_eq_true, if_false, List.mem_filter, decide_eq_true_eq]
    exact and_congr_right fun _ => Nat.sub_le_iff_le_add'

/-- Totals add up over the calls. -/
theorem lets_cons {g old count total i : ℕ} {more : Prop} (hmore : ¬ more → total = 0) :
    sh.Lets g old count i ∨ (more ∧ sh.Lets g (old - count) total i) ↔
      sh.Lets g old (count + total) i := by
  unfold Lets
  cases sh.hasBarrier <;> by_cases hm : more
  · simp only [hm, Bool.false_eq_true, if_false, true_and]
    omega
  · simp only [hm, hmore hm, Bool.false_eq_true, if_false, false_and, or_false, add_zero]
  · simp only [hm, if_true, true_and]
    omega
  · simp only [hm, hmore hm, if_true, false_and, or_false, add_zero]

end EntryShape

/-! ## Sequences of calls -/

/-- What the sizes of decrements take off a counter. -/
def takenBy (counts : List ℕ) : ℕ := (counts.map (· % 2 ^ 32)).sum

@[simp] theorem takenBy_nil : takenBy [] = 0 := rfl

@[simp] theorem takenBy_cons (count : ℕ) (counts : List ℕ) :
    takenBy (count :: counts) = count % 2 ^ 32 + takenBy counts := by
  simp [takenBy]

theorem takenBy_eq_sum {counts : List ℕ} (h : ∀ n ∈ counts, n < 2 ^ 32) :
    takenBy counts = counts.sum := by
  induction counts with
  | nil => rfl
  | cons count counts ih =>
    rw [takenBy_cons, List.sum_cons, Nat.mod_eq_of_lt (h count List.mem_cons_self),
      ih fun n hn => h n (List.mem_cons_of_mem _ hn)]

namespace EntryCells

variable (sh : EntryShape) (slotGen : UInt32) (group : Option ℕ)

/-- Calls without a specific successor, and what each returns. -/
def decreaseEach : List ℕ → EntryCells → List (List ℕ) × EntryCells
  | [], cells => ([], cells)
  | count :: counts, cells =>
    let (ready, cells) := decreaseAndGetReadyInto sh slotGen group count none cells
    let (rest, cells) := decreaseEach counts cells
    (ready :: rest, cells)

end EntryCells

namespace EntryState

variable (sh : EntryShape) (group : Option ℕ)

def decreaseEach : List ℕ → EntryState → List (List ℕ) × EntryState
  | [], s => ([], s)
  | count :: counts, s =>
    let (ready, s) := decrease sh group count none s
    let (rest, s) := decreaseEach counts s
    (ready :: rest, s)

/-- One call lets through what its size allows. -/
theorem decrease_lets (count : ℕ) (s : EntryState) :
    (∀ g, sh.Covers group g →
      (decrease sh group count none s).2.remaining g = s.remaining g - count % 2 ^ 32) ∧
    (∀ i, (decrease sh group count none s).2.sent i = true ↔ s.sent i = true ∨
      sh.flagged = true ∧ ∃ g, sh.Covers group g ∧ i ∈ sh.groupRange g ∧
        sh.Lets g (s.remaining g) (count % 2 ^ 32) i) ∧
    (∀ i, i ∈ (decrease sh group count none s).1 ↔ (sh.flagged = true → s.sent i = false) ∧
      ∃ g, sh.Covers group g ∧ i ∈ sh.groupRange g ∧
        sh.Lets g (s.remaining g) (count % 2 ^ 32) i) ∧
    (decrease sh group count none s).1.Nodup := by
  have h := call_effect sh ⟨group, count, none⟩ s
  refine ⟨h.remaining_hit, fun i => ?_, fun i => ?_, h.nodup⟩
  · simp only [← sh.mem_candidates]
    exact h.sent_iff i
  · simp only [← sh.mem_candidates]
    exact h.mem_ready i

/-- Instance `i` gets through by a sequence of calls. -/
def LetThrough (counts : List ℕ) (s : EntryState) (i : ℕ) : Prop :=
  ∃ g, sh.Covers group g ∧ i ∈ sh.groupRange g ∧ counts ≠ [] ∧
    sh.Lets g (s.remaining g) (takenBy counts) i

theorem letThrough_cons (count : ℕ) (counts : List ℕ) (s : EntryState) (i : ℕ) :
    LetThrough sh group (count :: counts) s i ↔
      (∃ g, sh.Covers group g ∧ i ∈ sh.groupRange g ∧
        sh.Lets g (s.remaining g) (count % 2 ^ 32) i) ∨
      LetThrough sh group counts (decrease sh group count none s).2 i := by
  have htotal : ¬ counts ≠ [] → takenBy counts = 0 := fun h => by
    rw [not_not] at h
    rw [h, takenBy_nil]
  constructor
  · rintro ⟨g, hg, hi, -, hlets⟩
    rw [takenBy_cons] at hlets
    rcases (sh.lets_cons htotal).mpr hlets with hfirst | ⟨hmore, hrest⟩
    · exact .inl ⟨g, hg, hi, hfirst⟩
    · refine .inr ⟨g, hg, hi, hmore, ?_⟩
      rwa [(decrease_lets sh group count s).1 g hg]
  · rintro (⟨g, hg, hi, hfirst⟩ | ⟨g, hg, hi, hmore, hrest⟩)
    · refine ⟨g, hg, hi, List.cons_ne_nil _ _, ?_⟩
      rw [takenBy_cons]
      exact (sh.lets_cons htotal).mp (.inl hfirst)
    · refine ⟨g, hg, hi, List.cons_ne_nil _ _, ?_⟩
      rw [(decrease_lets sh group count s).1 g hg] at hrest
      rw [takenBy_cons]
      exact (sh.lets_cons htotal).mp (.inr ⟨hmore, hrest⟩)

/-- What a sequence of calls returns: the instances its total lets through, if they have not been
sent. -/
theorem mem_decreaseEach (counts : List ℕ) (s : EntryState) (i : ℕ) :
    i ∈ (decreaseEach sh group counts s).1.flatten ↔
      (sh.flagged = true → s.sent i = false) ∧ LetThrough sh group counts s i := by
  induction counts generalizing s with
  | nil =>
    simp only [decreaseEach, List.flatten_nil, List.not_mem_nil, false_iff]
    rintro ⟨-, g, -, -, hne, -⟩
    exact hne rfl
  | cons count counts ih =>
    obtain ⟨-, hsent, hready, -⟩ := decrease_lets sh group count s
    simp only [decreaseEach, List.flatten_cons, List.mem_append, hready, ih, letThrough_cons]
    rw [← Bool.not_eq_true, ← Bool.not_eq_true, hsent]
    generalize (∃ g, sh.Covers group g ∧ i ∈ sh.groupRange g ∧
      sh.Lets g (s.remaining g) (count % 2 ^ 32) i) = first
    tauto

/-- What the plain barrier lets through, it lets through once. -/
theorem not_letThrough_again {count : ℕ} {counts : List ℕ} {s : EntryState} {i : ℕ}
    (hf : sh.flagged = false) (hfirst : ∃ g, sh.Covers group g ∧ i ∈ sh.groupRange g ∧
      sh.Lets g (s.remaining g) (count % 2 ^ 32) i) :
    ¬ LetThrough sh group counts (decrease sh group count none s).2 i := by
  have hbarrier : sh.hasBarrier = true := by
    by_contra h
    simp [EntryShape.flagged, h] at hf
  rintro ⟨g', hg', hi', -, hlets'⟩
  obtain ⟨g, hg, hi, hlets⟩ := hfirst
  obtain rfl := sh.groupRange_disjoint hg.1 hg'.1 hi hi'
  rw [(decrease_lets sh group count s).1 g hg] at hlets'
  simp only [EntryShape.Lets, hbarrier, if_true] at hlets hlets'
  omega

theorem decreaseEach_nodup (counts : List ℕ) (s : EntryState) :
    (decreaseEach sh group counts s).1.flatten.Nodup := by
  induction counts generalizing s with
  | nil => exact List.nodup_nil
  | cons count counts ih =>
    obtain ⟨-, hsent, hready, hnodup⟩ := decrease_lets sh group count s
    simp only [decreaseEach, List.flatten_cons]
    refine List.nodup_append.mpr ⟨hnodup, ih _, ?_⟩
    rintro i hi j hj rfl
    rw [hready] at hi
    rw [mem_decreaseEach] at hj
    cases hf : sh.flagged with
    | false => exact not_letThrough_again sh group hf hi.2 hj.2
    | true =>
      have hagain := hj.1 hf
      rw [(hsent i).mpr (.inr ⟨hf, hi.2⟩)] at hagain
      cases hagain

end EntryState

/-! ## The words -/

namespace EntryCells

variable (sh : EntryShape) (slotGen : UInt32) (group : Option ℕ)

theorem view_decreaseEach (counts : List ℕ) (cells : EntryCells) :
    (decreaseEach sh slotGen group counts cells).1 =
        (EntryState.decreaseEach sh group counts (view sh slotGen cells)).1 ∧
      view sh slotGen (decreaseEach sh slotGen group counts cells).2 =
        (EntryState.decreaseEach sh group counts (view sh slotGen cells)).2 := by
  induction counts generalizing cells with
  | nil => exact ⟨rfl, rfl⟩
  | cons count counts ih =>
    obtain ⟨hready, hnext⟩ := view_decreaseAndGetReadyInto sh slotGen group count none cells
    obtain ⟨hrest, hend⟩ := ih (decreaseAndGetReadyInto sh slotGen group count none cells).2
    simp only [decreaseEach, EntryState.decreaseEach, hready, hrest, hend, hnext, and_self]

/-- The counter of a group as a call in the current generation finds it. -/
def remaining (cells : EntryCells) (g : ℕ) : ℕ := (view sh slotGen cells).remaining g

/-- Two sequences of decrements release the same instances, each once; with a barrier, a call returns
a whole group when it brings its counter from above zero to zero, and else none of it. -/
structure BatchingInvariant (cells : EntryCells) (counts counts' : List ℕ) : Prop where
  same : ∀ i, i ∈ (decreaseEach sh slotGen group counts cells).1.flatten ↔
    i ∈ (decreaseEach sh slotGen group counts' cells).1.flatten
  once : (decreaseEach sh slotGen group counts cells).1.flatten.Nodup ∧
    (decreaseEach sh slotGen group counts' cells).1.flatten.Nodup
  barrier : sh.hasBarrier = true → ∀ before count after,
    counts = before ++ count :: after ∨ counts' = before ++ count :: after →
    ∀ g, sh.Covers group g → ∀ i ∈ sh.groupRange g,
      let cells := (decreaseEach sh slotGen group before cells).2
      let out := decreaseAndGetReadyInto sh slotGen group count none cells
      (i ∈ out.1 ↔ 0 < remaining sh slotGen cells g ∧ remaining sh slotGen out.2 g = 0)

/-- The sizes taken as `u32` add up to totals that let the same unsent instances through. -/
def SameTotals (cells : EntryCells) (counts counts' : List ℕ) : Prop :=
  ∀ g, sh.Covers group g → ∀ i ∈ sh.groupRange g,
    (sh.hasBarrier = false → (view sh slotGen cells).sent i = false) →
      (sh.Lets g (remaining sh slotGen cells g) (takenBy counts) i ↔
        sh.Lets g (remaining sh slotGen cells g) (takenBy counts') i)

theorem sameTotals_of_lt {cells : EntryCells} {counts counts' : List ℕ}
    (hsum : counts.sum = counts'.sum) (h : ∀ n ∈ counts, n < 2 ^ 32)
    (h' : ∀ n ∈ counts', n < 2 ^ 32) : SameTotals sh slotGen group cells counts counts' := by
  intro g _ i _ _
  rw [takenBy_eq_sum h, takenBy_eq_sum h', hsum]

theorem barrier_returns (hcond : sh.isCondition = false) (hbarrier : sh.hasBarrier = true)
    {g : ℕ} (hg : sh.Covers group g) {i : ℕ} (hi : i ∈ sh.groupRange g) (count : ℕ)
    (cells : EntryCells) :
    i ∈ (decreaseAndGetReadyInto sh slotGen group count none cells).1 ↔
      0 < remaining sh slotGen cells g ∧
        remaining sh slotGen (decreaseAndGetReadyInto sh slotGen group count none cells).2 g = 0 := by
  obtain ⟨hready, hnext⟩ := view_decreaseAndGetReadyInto sh slotGen group count none cells
  obtain ⟨hremaining, -, hmem, -⟩ := EntryState.decrease_lets sh group count (view sh slotGen cells)
  have hflagged : sh.flagged = false := by simp [EntryShape.flagged, hcond, hbarrier]
  rw [hready, hmem, hflagged]
  simp only [remaining, hnext, hremaining g hg]
  constructor
  · rintro ⟨-, g', hg', hi', hlets⟩
    obtain rfl := sh.groupRange_disjoint hg.1 hg'.1 hi hi'
    simp only [EntryShape.Lets, hbarrier, if_true] at hlets
    omega
  · rintro ⟨hpos, hzero⟩
    refine ⟨fun h => (by cases h), g, hg, hi, ?_⟩
    simp only [EntryShape.Lets, hbarrier, if_true]
    omega

theorem flagged_iff (hcond : sh.isCondition = false) : sh.flagged = true ↔ sh.hasBarrier = false := by
  simp [EntryShape.flagged, hcond]

/-- What a sequence of calls on the words returns. -/
theorem mem_decreaseEach (hcond : sh.isCondition = false) {counts : List ℕ} {cells : EntryCells}
    {i : ℕ} : i ∈ (decreaseEach sh slotGen group counts cells).1.flatten ↔
      (sh.hasBarrier = false → (view sh slotGen cells).sent i = false) ∧
        ∃ g, sh.Covers group g ∧ i ∈ sh.groupRange g ∧ counts ≠ [] ∧
          sh.Lets g (remaining sh slotGen cells g) (takenBy counts) i := by
  rw [(view_decreaseEach sh slotGen group counts cells).1, EntryState.mem_decreaseEach,
    flagged_iff sh hcond]
  exact Iff.rfl

/-- An instance that one sequence returns is returned by another that lets the same through. -/
theorem mem_of_sameTotals (hcond : sh.isCondition = false) {cells : EntryCells}
    {counts counts' : List ℕ} (h : SameTotals sh slotGen group cells counts counts')
    (hne : counts ≠ [] → counts' ≠ []) {i : ℕ}
    (hi : i ∈ (decreaseEach sh slotGen group counts cells).1.flatten) :
    i ∈ (decreaseEach sh slotGen group counts' cells).1.flatten := by
  rw [mem_decreaseEach sh slotGen group hcond] at hi ⊢
  obtain ⟨hunsent, g, hg, hrange, hcounts, hlets⟩ := hi
  exact ⟨hunsent, g, hg, hrange, hne hcounts, (h g hg i hrange hunsent).mp hlets⟩

/-- An instance that both sequences return, if one does, is let through by both totals. -/
theorem lets_of_mem (hcond : sh.isCondition = false) {cells : EntryCells} {counts counts' : List ℕ}
    (hne : counts ≠ []) {g i : ℕ} (hg : sh.Covers group g) (hi : i ∈ sh.groupRange g)
    (hunsent : sh.hasBarrier = false → (view sh slotGen cells).sent i = false)
    (hsame : i ∈ (decreaseEach sh slotGen group counts cells).1.flatten →
      i ∈ (decreaseEach sh slotGen group counts' cells).1.flatten)
    (hlets : sh.Lets g (remaining sh slotGen cells g) (takenBy counts) i) :
    sh.Lets g (remaining sh slotGen cells g) (takenBy counts') i := by
  have hmem := hsame ((mem_decreaseEach sh slotGen group hcond).mpr ⟨hunsent, g, hg, hi, hne, hlets⟩)
  obtain ⟨-, g', hg', hi', -, hlets'⟩ := (mem_decreaseEach sh slotGen group hcond).mp hmem
  obtain rfl := sh.groupRange_disjoint hg.1 hg'.1 hi hi'
  exact hlets'

theorem ne_nil_of_sum {counts counts' : List ℕ} (hpos : ∀ n ∈ counts, 1 ≤ n)
    (hsum : counts.sum = counts'.sum) (hne : counts ≠ []) : counts' ≠ [] := by
  rintro rfl
  cases counts with
  | nil => exact hne rfl
  | cons n rest =>
    have hone := hpos n List.mem_cons_self
    rw [List.sum_cons, List.sum_nil] at hsum
    omega

/-- For a node without a condition and no specific successor, decrements of one total release the same
instances, however they are split, exactly if their sizes as `u32` add up alike. -/
theorem batching_invariant (hcond : sh.isCondition = false) (cells : EntryCells)
    (counts counts' : List ℕ) (hpos : ∀ n ∈ counts ++ counts', 1 ≤ n)
    (hsum : counts.sum = counts'.sum) :
    BatchingInvariant sh slotGen group cells counts counts' ↔
      SameTotals sh slotGen group cells counts counts' := by
  have hne : counts ≠ [] → counts' ≠ [] :=
    ne_nil_of_sum (fun n hn => hpos n (List.mem_append_left _ hn)) hsum
  have hne' : counts' ≠ [] → counts ≠ [] :=
    ne_nil_of_sum (fun n hn => hpos n (List.mem_append_right _ hn)) hsum.symm
  constructor
  · intro h g hg i hi hunsent
    by_cases hnil : counts = []
    · have hnil' : counts' = [] := by
        by_contra hsome
        exact hne' hsome hnil
      rw [hnil, hnil']
    · exact ⟨lets_of_mem sh slotGen group hcond hnil hg hi hunsent (h.same i).mp,
        lets_of_mem sh slotGen group hcond (hne hnil) hg hi hunsent (h.same i).mpr⟩
  · intro h
    have hback : SameTotals sh slotGen group cells counts' counts := fun g hg i hi hunsent =>
      (h g hg i hi hunsent).symm
    refine ⟨fun i => ⟨mem_of_sameTotals sh slotGen group hcond h hne,
      mem_of_sameTotals sh slotGen group hcond hback hne'⟩, ⟨?_, ?_⟩,
      fun hbarrier before count after _ g hg i hi =>
        barrier_returns sh slotGen group hcond hbarrier hg hi count _⟩
    · rw [(view_decreaseEach sh slotGen group counts cells).1]
      exact EntryState.decreaseEach_nodup sh group counts _
    · rw [(view_decreaseEach sh slotGen group counts' cells).1]
      exact EntryState.decreaseEach_nodup sh group counts' _

/-- Two groups of two instances and three predecessors each: one decrement by 3, or 2 and 1. -/
theorem batching_invariant_twoGroups :
    BatchingInvariant (.new 4 6 false (some 2) false) 0 (some 1)
      (resetEpoch (.new 4 6 false (some 2) false) 0) [3] [2, 1] :=
  (batching_invariant (.new 4 6 false (some 2) false) 0 (some 1) rfl
    (resetEpoch (.new 4 6 false (some 2) false) 0) [3] [2, 1] (by decide) rfl).mpr
      (sameTotals_of_lt _ 0 (some 1) rfl (by decide) (by decide))

/-- One decrement by 2^32 takes nothing off the counter. -/
theorem batching_differs :
    ¬ ∀ (sh : EntryShape) (slotGen : UInt32) (group : Option ℕ) (cells : EntryCells)
        (counts counts' : List ℕ), sh.isCondition = false → (∀ n ∈ counts ++ counts', 1 ≤ n) →
      counts.sum = counts'.sum → BatchingInvariant sh slotGen group cells counts counts' := by
  intro h
  have hinv := h (.new 1 1 false none false) 0 none (resetEpoch (.new 1 1 false none false) 0)
    [2 ^ 32] [2 ^ 32 - 1, 1] rfl (by decide) (by decide)
  exact absurd ((hinv.same 0).mpr (by decide +kernel)) (by decide +kernel)

end EntryCells

end Tomii
