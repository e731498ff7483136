import Tomii.Runtime.CountingRouting

/-! # Where counting and routing agree

A predecessor that is read evenly adds to the count what its completions draw on each group.
What the other predecessors add too much or too little has to cancel out. -/
namespace Tomii
set_option autoImplicit false
set_option maxHeartbeats 250000

/-! ## Index lists within the factor -/

theorem min?_perm {is js : List ℤ} (h : is.Perm js) : is.min? = js.min? := by
  apply Option.ext
  intro a
  rw [List.min?_eq_some_iff, List.min?_eq_some_iff]
  simp only [h.mem_iff]

theorem max?_perm {is js : List ℤ} (h : is.Perm js) : is.max? = js.max? := by
  apply Option.ext
  intro a
  rw [List.max?_eq_some_iff, List.max?_eq_some_iff]
  simp only [h.mem_iff]

namespace Predecessor

/-- The window depends on the indexes as a set with a size. -/
theorem indexFilter_perm {p q : Predecessor} (hgroup : p.groupBy = q.groupBy)
    (h : p.indexes.Perm q.indexes) (predFactor succFactor : ℕ) :
    p.indexFilter predFactor succFactor = q.indexFilter predFactor succFactor := by
  unfold indexFilter
  rw [min?_perm h, max?_perm h, h.length_eq, hgroup]

/-- The ungrouped window of indexes within the factor has as many instances as there are
indexes. -/
theorem indexFilter_within {p : Predecessor} {predFactor : ℕ} (hsmall : predFactor < 2 ^ 32 - 1)
    (hgroup : p.groupBy = none) (hin : ∀ i ∈ p.indexes, 0 ≤ i ∧ i < predFactor) {succFactor lo hi : ℕ}
    (h : p.indexFilter predFactor succFactor = some (lo, hi)) :
    hi = lo + p.indexes.length ∧ hi ≤ predFactor := by
  unfold indexFilter at h
  split at h
  · next first last hmin hmax =>
    rw [List.min?_eq_some_iff] at hmin
    have hlast := List.max?_mem hmax
    have hle := hmin.2 last hlast
    obtain ⟨hfirst0, hfirst1⟩ := hin first hmin.1
    obtain ⟨hlast0, hlast1⟩ := hin last hlast
    have hfirst := isizeAsUsize_of_nonneg hfirst0 (by omega)
    have hlastU := isizeAsUsize_of_nonneg hlast0 (by omega)
    have hsub : wrappingSub last.toNat first.toNat = last.toNat - first.toNat :=
      wrappingSub_of_le (by omega)
    simp only [hfirst, hlastU, hsub, hgroup, Option.isSome_none, Bool.false_eq_true, false_or] at h
    split at h
    · next hcond =>
      obtain ⟨hlo, hhi⟩ := Prod.mk.inj (Option.some.inj h)
      omega
    · cases h
  · cases h

end Predecessor

namespace Graph

variable (g : Graph) (v : Node)

/-! ## Predecessors read evenly -/

/-- The references of `v` to `p` carry no divisor and list existing instances, each once. -/
def Orderly (p : ℕ) : Prop :=
  g.factorOf p < 2 ^ 32 - 1 ∧ ∀ q ∈ v.argsOnPred p, q.2.groupBy = none ∧ q.2.indexes.Nodup ∧
    ∀ i ∈ q.2.indexes, 0 ≤ i ∧ i < g.factorOf p

instance (p : ℕ) : Decidable (g.Orderly v p) := inferInstanceAs (Decidable (_ ∧ _))

/-- The first barrier on `p` splits a window of existing instances evenly over `groups` groups. -/
def EvenlyGrouped (groups p : ℕ) : Prop :=
  g.factorOf p < 2 ^ 32 - 1 ∧ ∃ q ∈ g.groupedBarrier v p, firstBarrier v p = some q.1 ∧
    0 < q.2 ∧ q.2 < 2 ^ 32 ∧ groups * q.2 = q.1.indexes.length ∧
    ∃ b ∈ q.1.indexFilter (g.factorOf p) v.factor,
      b.2 = b.1 + q.1.indexes.length ∧ b.2 ≤ g.factorOf p

instance (groups p : ℕ) : Decidable (g.EvenlyGrouped v groups p) :=
  inferInstanceAs (Decidable (_ ∧ _))

/-- `v` reads `p` evenly: it pays `p` once for each of the groups, and either reads it through
differing arguments without a barrier, or orderly; or it groups it evenly. -/
def Even (groups p : ℕ) : Prop :=
  copies v p = groups ∧ (v.predIsAmbiguousMultiArg p = true ∨ g.Orderly v p) ∨
    g.EvenlyGrouped v groups p

instance (groups p : ℕ) : Decidable (g.Even v groups p) := inferInstanceAs (Decidable (_ ∨ _))

theorem groupedBarrier_none {p : ℕ}
    (h : ∀ q ∈ v.argsOnPred p, q.1.isBarrier = true → q.2.groupBy = none) :
    g.groupedBarrier v p = none ∧
      ((firstBarrier v p).bind fun q => (g.barrierGroupByForDependency v q).map (q, ·)) = none := by
  have heff : ∀ q ∈ v.argsOnPred p, q.1.isBarrier = true →
      g.barrierGroupByForDependency v q.2 = none := by
    intro q hq hb
    unfold barrierGroupByForDependency
    split
    · rfl
    · exact h q hq hb
  constructor
  · unfold groupedBarrier
    rw [List.findSome?_eq_none_iff]
    intro q hq
    by_cases hb : q.1.isBarrier = true
    · rw [if_pos hb, heff q hq hb]
      rfl
    · rw [if_neg hb]
  · unfold firstBarrier
    cases hfind : (v.argsOnPred p).find? (·.1.isBarrier) with
    | none => rfl
    | some q =>
      have hb := List.find?_some hfind
      simp [heff q (List.mem_of_find?_eq_some hfind) hb]

/-- A predecessor that is ambiguous has no barrier, and no window. -/
theorem ambiguous_open {p : ℕ} (h : v.predIsAmbiguousMultiArg p = true) :
    (∀ q ∈ v.argsOnPred p, q.1.isBarrier = false) ∧ g.windowPred v p = none := by
  have hnone : (∀ q ∈ v.argsOnPred p, q.1.isBarrier = false) := by
    unfold Node.predIsAmbiguousMultiArg at h
    split at h
    · cases h
    · cases h
    · next a first rest hmore hargs =>
      rw [Bool.and_eq_true, Bool.not_eq_true', List.any_eq_false] at h
      intro q hq
      exact Bool.eq_false_of_not_eq_true (h.1 q (hargs ▸ hq))
  refine ⟨hnone, ?_⟩
  have hgrouped := (g.groupedBarrier_none v (p := p) fun q hq hb => by
    rw [hnone q hq] at hb
    cases hb).1
  unfold windowPred
  rw [hgrouped]
  unfold Node.predIsAmbiguousMultiArg at h
  split at h
  · cases h
  · cases h
  · next a first rest hmore hargs =>
    rw [Bool.and_eq_true, Bool.not_eq_true'] at h
    have hdiffer : (rest.all fun q => q.2.indexes = first.indexes && q.2.groupBy = first.groupBy) =
        false := by
      rw [List.all_eq_false]
      obtain ⟨q, hq, hne⟩ := List.any_eq_true.mp h.2
      refine ⟨q, hq, ?_⟩
      simp only [Bool.or_eq_true, decide_eq_true_eq] at hne
      simp only [Bool.and_eq_true, decide_eq_true_eq]
      tauto
    simp only [hargs, hdiffer, h.1, Bool.false_and, Bool.false_eq_true, if_false]

variable {g v}

theorem Orderly.union {p : ℕ} (h : g.Orderly v p) :
    ∀ i ∈ (unionPred v p).indexes, 0 ≤ i ∧ i < g.factorOf p := by
  intro i hi
  obtain ⟨q, hq, hiq⟩ := List.mem_flatMap.mp (List.mem_dedup.mp hi)
  exact (h.2 q hq).2.2 i hiq

/-- Read orderly and without ambiguity, the window of an edge is that of all the indexes. -/
theorem Orderly.window_union {p : ℕ} (h : g.Orderly v p)
    (hamb : ¬ v.predIsAmbiguousMultiArg p = true) (hne : v.argsOnPred p ≠ []) :
    ((g.windowPred v p).bind fun q => q.indexFilter (g.factorOf p) v.factor) =
      (unionPred v p).indexFilter (g.factorOf p) v.factor := by
  have hgrouped := (g.groupedBarrier_none v (p := p) fun q hq _ => (h.2 q hq).1).1
  unfold windowPred
  rw [hgrouped]
  cases hargs : v.argsOnPred p with
  | nil => exact absurd hargs hne
  | cons head rest =>
    obtain ⟨a, first⟩ := head
    obtain ⟨hfirst, hnodup, -⟩ := h.2 (a, first) (by rw [hargs]; exact List.mem_cons_self)
    by_cases hsame : (rest.all fun q => q.2.indexes = first.indexes && q.2.groupBy = first.groupBy) =
        true
    · simp only [hsame, if_true, Option.bind_some]
      refine Predecessor.indexFilter_perm hfirst ?_ _ _
      rw [List.all_eq_true] at hsame
      refine (List.perm_ext_iff_of_nodup hnodup (List.nodup_dedup _)).mpr fun i => ?_
      rw [List.mem_dedup, hargs, List.flatMap_cons, List.mem_append, List.mem_flatMap]
      constructor
      · exact fun hi => .inl hi
      · intro hi
        cases hi with
        | inl hi => exact hi
        | inr hi =>
          obtain ⟨q, hq, hiq⟩ := hi
          have hsameq := hsame q hq
          simp only [Bool.and_eq_true, decide_eq_true_eq] at hsameq
          rw [← hsameq.1]
          exact hiq
    · have hbarrier : ((a, first) :: rest).any (·.1.isBarrier) = true := by
        by_contra hno
        apply hamb
        have hdiffer : (rest.any fun q => q.2.indexes ≠ first.indexes || q.2.groupBy ≠ first.groupBy) =
            true := by
          rw [Bool.not_eq_true, List.all_eq_false] at hsame
          obtain ⟨q, hq, hq'⟩ := hsame
          refine List.any_eq_true.mpr ⟨q, hq, ?_⟩
          simp only [Bool.and_eq_true, decide_eq_true_eq] at hq'
          simp only [Bool.or_eq_true, decide_eq_true_eq]
          tauto
        unfold Node.predIsAmbiguousMultiArg
        rw [hargs]
        cases rest with
        | nil => cases hdiffer
        | cons r rest =>
          simp only [Bool.eq_false_of_not_eq_true hno, hdiffer, Bool.not_false, Bool.and_self]
      have hpos : ((unionPredIndexes v p).any (· < 0)) = false := by
        rw [List.any_eq_false]
        intro i hi
        have := h.union i hi
        simp only [decide_eq_true_eq]
        omega
      simp only [hsame, hbarrier, hpos, Bool.not_false, Bool.and_self, if_true, Option.bind_some,
        Bool.false_eq_true, if_false]

/-- An orderly predecessor draws as many cells as are needed of it. -/
theorem Orderly.drawingCells_eq {p : ℕ} (h : g.Orderly v p) (hne : v.argsOnPred p ≠ []) (grp : ℕ) :
    g.drawingCells v p grp = g.neededCells v p := by
  have hgrouped := (g.groupedBarrier_none v (p := p) fun q hq _ => (h.2 q hq).1).1
  have hdiv : g.divisor v p = 0 := by
    unfold divisor
    rw [hgrouped]
    rfl
  unfold neededCells
  by_cases hamb : v.predIsAmbiguousMultiArg p = true
  · have hopen := (ambiguous_open g v hamb).2
    simp only [drawingCells, window, hopen, Option.bind_none, hdiv, if_true, hamb]
  · have hunion := h.window_union hamb hne
    rw [if_neg hamb]
    simp only [drawingCells, window, hunion, hdiv, if_true, Predecessor.contributingInstances]
    cases hfilter : (unionPred v p).indexFilter (g.factorOf p) v.factor with
    | none => simp
    | some b =>
      obtain ⟨lo, hi⟩ := b
      obtain ⟨hlen, hle⟩ := Predecessor.indexFilter_within h.1 rfl h.union hfilter
      have hsmall := h.1
      have hlo : lo % 2 ^ 32 = lo := Nat.mod_eq_of_lt (by omega)
      have hhi : hi % 2 ^ 32 = hi := Nat.mod_eq_of_lt (by omega)
      have hsentinel : ¬ hi = 2 ^ 32 - 1 := by omega
      simp only [Option.bind_some, hlo, hhi, if_neg hsentinel, Option.isSome_some, if_true, overlap]
      omega

theorem drawingCells_ambiguous {p : ℕ} (hamb : v.predIsAmbiguousMultiArg p = true) (grp : ℕ) :
    g.drawingCells v p grp = g.neededCells v p := by
  obtain ⟨hbar, hopen⟩ := ambiguous_open g v hamb
  have hgrouped := (g.groupedBarrier_none v (p := p) fun q hq hb => by
    rw [hbar q hq] at hb
    cases hb).1
  have hdiv : g.divisor v p = 0 := by
    unfold divisor
    rw [hgrouped]
    rfl
  simp only [drawingCells, window, hopen, Option.bind_none, hdiv, if_true, neededCells, hamb]

theorem EvenlyGrouped.balanced {groups p : ℕ} (h : g.EvenlyGrouped v groups p) {grp : ℕ}
    (hgrp : grp < groups) : g.paidCells v p = groups * g.drawingCells v p grp := by
  obtain ⟨hsmall, ⟨q, gb⟩, hq, hfirst, hpos, hlt, hlen, ⟨lo, hi⟩, hb, hhi, hle⟩ := h
  rw [Option.mem_def] at hq hb
  simp only at hfirst hpos hlt hlen hhi hle
  have heff : g.barrierGroupByForDependency v q = some gb := by
    obtain ⟨a, -, hsome⟩ := List.exists_of_findSome?_eq_some hq
    split at hsome
    · obtain ⟨gb', hgb, heq⟩ := Option.map_eq_some_iff.mp hsome
      obtain ⟨hqq, hgg⟩ := Prod.mk.inj heq
      rw [← hqq, ← hgg]
      exact hgb
    · cases hsome
  have hpaid : g.paidCells v p = q.indexes.length := by
    unfold paidCells
    rw [hfirst, Option.bind_some, heff, Option.map_some]
    simp only
    rw [← hlen, Nat.mul_div_cancel _ hpos]
  have hwin : g.window v p = some (lo, hi) := by
    have hmodlo : lo % 2 ^ 32 = lo := Nat.mod_eq_of_lt (by omega)
    have hmodhi : hi % 2 ^ 32 = hi := Nat.mod_eq_of_lt (by omega)
    have hsentinel : ¬ hi = 2 ^ 32 - 1 := by omega
    simp only [window, windowPred, hq, Option.bind_some, hb, hmodlo, hmodhi, if_neg hsentinel]
  have hdiv : g.divisor v p = gb := by
    unfold divisor
    rw [hq]
    exact Nat.mod_eq_of_lt hlt
  have hnext : (grp + 1) * gb ≤ q.indexes.length := hlen ▸ Nat.mul_le_mul_right gb hgrp
  have hsucc : (grp + 1) * gb = grp * gb + gb := Nat.succ_mul ..
  have hdrawn : g.drawingCells v p grp = gb := by
    simp only [drawingCells, hwin, hdiv, if_neg (Nat.pos_iff_ne_zero.mp hpos), overlap]
    omega
  rw [hpaid, hdrawn, hlen]

/-- What an even predecessor adds, it draws on each of the groups. -/
theorem Even.balanced {groups p : ℕ} (h : g.Even v groups p) (hne : v.argsOnPred p ≠ []) {grp : ℕ}
    (hgrp : grp < groups) : g.paidCells v p = groups * g.drawingCells v p grp := by
  cases h with
  | inl h =>
    obtain ⟨hcopies, hread⟩ := h
    have hungrouped : ∀ q ∈ v.argsOnPred p, q.1.isBarrier = true → q.2.groupBy = none := by
      intro q hq hb
      cases hread with
      | inl hamb =>
        rw [(ambiguous_open g v hamb).1 q hq] at hb
        cases hb
      | inr hord => exact (hord.2 q hq).1
    have hdrawn : g.drawingCells v p grp = g.neededCells v p := by
      cases hread with
      | inl hamb => exact drawingCells_ambiguous hamb grp
      | inr hord => exact hord.drawingCells_eq hne grp
    unfold paidCells
    rw [(groupedBarrier_none g v hungrouped).2, hdrawn, ← hcopies]
    exact Nat.mul_comm ..
  | inr h => exact h.balanced hgrp

end Graph

/-! ## The balance of a group -/

namespace Compiled

variable (c : Compiled)

/-- The predecessors of `v` that it does not read evenly. -/
def unevenPreds (v : ℕ) : List ℕ :=
  (c.nodeAt v).predIds.filter fun p => ¬ c.graph.Even (c.nodeAt v) (c.entry v).numGroups p

/-- What the count adds for `p` beyond what the groups need, each drawn on as `g` is. -/
def excess (v p g : ℕ) : ℤ :=
  (c.graph.paidCells (c.nodeAt v) p : ℤ) -
    (c.entry v).numGroups * c.graph.drawingCells (c.nodeAt v) p g

/-- The instances that draw on group `g` of `v`. -/
def drawingTotal (v g : ℕ) : ℕ :=
  ((c.nodeAt v).predIds.map fun p => c.graph.drawingCells (c.nodeAt v) p g).sum

/-- The excesses of the predecessors not read evenly cancel out, up to the remainder of the
division by the number of groups and to whole wraps of the counter (`q`) and of the count (`m`). -/
def Balanced (v g : ℕ) : Prop :=
  c.drawingTotal v g < 2 ^ 32 ∧ ∃ r < (c.entry v).numGroups, ∃ q m : ℕ,
    ((c.unevenPreds v).map fun p => c.excess v p g).sum =
        r + (c.entry v).numGroups * 2 ^ 32 * q + 2 ^ 64 * m ∧
      (c.entry v).numGroups * (c.drawingTotal v g + 2 ^ 32 * q) + r < 2 ^ 64

/-- Nothing is left over at a node that reads all its predecessors evenly. -/
theorem balanced_of_even {v g : ℕ}
    (heven : ∀ p ∈ (c.nodeAt v).predIds, c.graph.Even (c.nodeAt v) (c.entry v).numGroups p)
    (hcounter : c.drawingTotal v g < 2 ^ 32)
    (hcount : (c.entry v).numGroups * c.drawingTotal v g < 2 ^ 64) : c.Balanced v g := by
  have hnone : c.unevenPreds v = [] := by
    rw [unevenPreds, List.filter_eq_nil_iff]
    intro p hp
    simp [heven p hp]
  refine ⟨hcounter, 0, (c.entry v).groups_pos, 0, 0, ?_, by simpa using hcount⟩
  rw [hnone]
  simp

/-- The whole count in terms of the excesses. -/
theorem paid_total (v : ℕ) {g : ℕ} (hg : g < (c.entry v).numGroups) :
    (((c.nodeAt v).predIds.map (c.graph.paidCells (c.nodeAt v))).sum : ℤ) =
      (c.entry v).numGroups * c.drawingTotal v g +
        ((c.unevenPreds v).map fun p => c.excess v p g).sum := by
  have hne : ∀ p ∈ (c.nodeAt v).predIds, (c.nodeAt v).argsOnPred p ≠ [] :=
    fun p hp => (c.nodeAt v).argsOnPred_ne_nil.mpr hp
  unfold unevenPreds drawingTotal
  generalize (c.nodeAt v).predIds = ps at hne ⊢
  induction ps with
  | nil => simp
  | cons p ps ih =>
    have hrest := ih fun q hq => hne q (List.mem_cons_of_mem _ hq)
    rw [List.map_cons, List.sum_cons, List.map_cons, List.sum_cons, List.filter_cons]
    by_cases heven : c.graph.Even (c.nodeAt v) (c.entry v).numGroups p
    · have hpaid := heven.balanced (hne p List.mem_cons_self) hg
      simp only [heven, not_true_eq_false, decide_false, Bool.false_eq_true, if_false]
      rw [hpaid, Nat.cast_add, Nat.cast_mul, hrest, Nat.cast_add]
      ring
    · have hexcess : c.excess v p g = (c.graph.paidCells (c.nodeAt v) p : ℤ) -
          (c.entry v).numGroups * c.graph.drawingCells (c.nodeAt v) p g := rfl
      simp only [heven, not_false_eq_true, decide_true, if_true, List.map_cons, List.sum_cons]
      rw [hexcess, Nat.cast_add, hrest, Nat.cast_add]
      ring

/-- A quotient of a count that wraps, itself wrapped, is `drawn`. -/
theorem quotient_eq_iff (total drawn groups : ℕ) (hgroups : 0 < groups) :
    drawn = total % 2 ^ 64 / groups % 2 ^ 32 ↔ drawn < 2 ^ 32 ∧ ∃ r < groups, ∃ q m : ℕ,
      total = groups * drawn + (r + groups * 2 ^ 32 * q + 2 ^ 64 * m) ∧
        groups * (drawn + 2 ^ 32 * q) + r < 2 ^ 64 := by
  constructor
  · intro h
    have hquot := Nat.div_add_mod (total % 2 ^ 64 / groups) (2 ^ 32)
    have hsplit := Nat.div_add_mod (total % 2 ^ 64) groups
    have hwrap := Nat.div_add_mod total (2 ^ 64)
    rw [← h] at hquot
    have hmul : groups * (drawn + 2 ^ 32 * (total % 2 ^ 64 / groups / 2 ^ 32)) =
        groups * (total % 2 ^ 64 / groups) := by rw [← hquot]; congr 1; omega
    refine ⟨by omega, total % 2 ^ 64 % groups, Nat.mod_lt _ hgroups,
      total % 2 ^ 64 / groups / 2 ^ 32, total / 2 ^ 64, ?_, ?_⟩
    · rw [Nat.mul_add] at hmul
      have hassoc := Nat.mul_assoc groups (2 ^ 32) (total % 2 ^ 64 / groups / 2 ^ 32)
      omega
    · rw [hmul]
      omega
  · intro h
    obtain ⟨hlt, r, hr, q, m, htotal, hfit⟩ := h
    have hmod : total % 2 ^ 64 = groups * (drawn + 2 ^ 32 * q) + r := by
      have hassoc := Nat.mul_assoc groups (2 ^ 32) q
      rw [Nat.mul_add] at hfit ⊢
      omega
    rw [hmod, Nat.mul_add_div hgroups, Nat.div_eq_of_lt hr]
    omega

end Compiled

/-- Each group of each node receives exactly its initial value, if and only if the excesses of
the predecessors that the node does not read evenly cancel out at that group. -/
theorem counting_meets_routing {nodes : List Node} {c : Compiled} (h : BuiltFrom nodes c) :
    (∀ v < nodes.length, ∀ g < (c.entry v).numGroups,
        c.decrements v g = (c.entry v).depsPerGroup.toNat) ↔
      ∀ v < nodes.length, ∀ g < (c.entry v).numGroups, c.Balanced v g := by
  have hgroup : ∀ v < nodes.length, ∀ g < (c.entry v).numGroups,
      (c.decrements v g = (c.entry v).depsPerGroup.toNat ↔ c.Balanced v g) := by
    intro v hv g hg
    have hdrawn : c.decrements v g = c.drawingTotal v g := by
      rw [h.decrements_eq hv, Compiled.drawingTotal]
      congr 1
      apply List.map_congr_left
      intro p hp
      rw [h.nodeAt_eq hv] at hp
      have hlt := h.preds_exist _ (List.getElem_mem hv) p hp
      exact c.drawn_eq v p (by rwa [h.nodes_eq]) hg
    have htotal := c.paid_total v hg
    rw [hdrawn, c.entry_depsPerGroup, Compiled.quotient_eq_iff _ _ _ (c.entry v).groups_pos]
    unfold Compiled.Balanced
    generalize ((c.unevenPreds v).map fun p => c.excess v p g).sum = left at htotal ⊢
    constructor
    · intro hq
      obtain ⟨hlt, r, hr, q, m, hpaid, hfit⟩ := hq
      refine ⟨hlt, r, hr, q, m, ?_, hfit⟩
      have hcast := congrArg (Nat.cast : ℕ → ℤ) hpaid
      push_cast at hcast htotal ⊢
      linarith
    · intro hq
      obtain ⟨hlt, r, hr, q, m, hleft, hfit⟩ := hq
      refine ⟨hlt, r, hr, q, m, ?_, hfit⟩
      have hcast := htotal.trans (congrArg _ hleft)
      exact_mod_cast hcast
  exact ⟨fun hall v hv g hg => (hgroup v hv g hg).mp (hall v hv g hg),
    fun hall v hv g hg => (hgroup v hv g hg).mpr (hall v hv g hg)⟩

/-- A factor-4 root read by a factor-4 node in two groups of two: each group receives all four
completions and was given two. -/
def groupedPair : List Node :=
  [⟨false, 0, [], 4, none, false⟩,
    ⟨false, 1, [⟨.res, false, some ⟨0, [0], none⟩⟩], 4, some 2, false⟩]

theorem builtFrom_groupedPair : BuiltFrom groupedPair (Compiled.ofNodes groupedPair) :=
  builtFrom_ofNodes (by decide) (by decide)

theorem counting_meets_routing_at_groupedPair :
    (∀ v < groupedPair.length, ∀ g < ((Compiled.ofNodes groupedPair).entry v).numGroups,
        (Compiled.ofNodes groupedPair).decrements v g =
          ((Compiled.ofNodes groupedPair).entry v).depsPerGroup.toNat) ↔
      ∀ v < groupedPair.length, ∀ g < ((Compiled.ofNodes groupedPair).entry v).numGroups,
        (Compiled.ofNodes groupedPair).Balanced v g :=
  counting_meets_routing builtFrom_groupedPair

theorem counting_differs_from_routing :
    ¬ ∀ nodes c, BuiltFrom nodes c → (∀ v ∈ nodes, v.Parsed) →
      ∀ v < nodes.length, ∀ g < (c.entry v).numGroups,
        c.decrements v g = (c.entry v).depsPerGroup.toNat := by
  intro h
  have hgroup := h groupedPair _ builtFrom_groupedPair (by decide) 1 (by decide) 0
    (by decide +kernel)
  revert hgroup
  decide +kernel

end Tomii
