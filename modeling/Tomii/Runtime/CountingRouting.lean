import Tomii.Runtime.EdgeCalls
import Tomii.Runtime.NodeCache
import Mathlib.Algebra.BigOperators.Group.Finset.Basic
import Mathlib.Data.Nat.ModEq
import Mathlib.Tactic.Linarith

/-! # Counting against routing

`dependency_count_vec` pays a node's counters in advance; the edges of the arena draw on
them one completion at a time. Both sides are put in closed form over the declared
arguments, one predecessor at a time. -/
namespace Tomii
set_option autoImplicit false
set_option maxHeartbeats 250000

/-! ## What the edges draw -/

namespace Compiled

variable (c : Compiled)

/-- Decrements that group `g` of `v` receives along the edge from `p` when each instance of
`p` completes exactly once. -/
def drawn (v p g : ℕ) : ℕ :=
  ((List.range (c.factor p)).map fun i => (c.entry v).takenBy ((c.edge p v).calls i 1) g).sum

/-- The same over every edge of the arena that leads to `v`. -/
def decrements (v g : ℕ) : ℕ :=
  ((List.range c.graph.nodes.length).map fun p =>
    (((c.edgesFor p).filter (·.succId = v)).map fun e =>
      ((List.range (c.factor p)).map fun i => (c.entry v).takenBy (e.calls i 1) g).sum).sum).sum

end Compiled

theorem sum_range_ite {n : ℕ} {l : List ℕ} (hnd : l.Nodup) (hlt : ∀ p ∈ l, p < n) (f : ℕ → ℕ) :
    ((List.range n).map fun p => if p ∈ l then f p else 0).sum = (l.map f).sum := by
  rw [← List.sum_toFinset f hnd, ← List.sum_toFinset _ List.nodup_range, ← Finset.sum_filter]
  congr 1
  ext p
  simp only [Finset.mem_filter, List.mem_range, List.mem_toFinset]
  exact ⟨fun h => h.2, fun h => ⟨hlt p h, h⟩⟩

theorem BuiltFrom.decrements_eq {nodes : List Node} {c : Compiled} (h : BuiltFrom nodes c)
    {v : ℕ} (hv : v < nodes.length) (g : ℕ) :
    c.decrements v g = ((c.nodeAt v).predIds.map fun p => c.drawn v p g).sum := by
  have hlt : ∀ p ∈ (c.nodeAt v).predIds, p < nodes.length := by
    intro p hp
    rw [h.nodeAt_eq hv] at hp
    exact h.preds_exist _ (List.getElem_mem hv) p hp
  rw [← sum_range_ite (c.nodeAt v).predIds_nodup hlt, Compiled.decrements, h.nodes_eq]
  congr 1
  apply List.map_congr_left
  intro p hp
  rw [h.edgesFor_filter]
  by_cases hmem : p ∈ (c.nodeAt v).predIds
  · rw [if_pos (h.mem_successors.mpr ⟨hv, hmem⟩), if_pos hmem]
    simp [Compiled.drawn]
  · rw [if_neg fun hs => hmem (h.mem_successors.mp hs).2, if_neg hmem]
    simp

/-! ## What the count pays -/

namespace Graph

variable (g : Graph) (v : Node)

/-- The first barrier on a predecessor. -/
def firstBarrier (p : ℕ) : Option Predecessor :=
  ((v.argsOnPred p).find? (·.1.isBarrier)).map (·.2)

/-- Instances that the declaration needs of a predecessor outside grouped barriers. -/
def neededCells (p : ℕ) : ℕ :=
  if v.predIsAmbiguousMultiArg p then g.factorOf p
  else (unionPred v p).contributingInstances (g.factorOf p) v.factor

/-- How many times they are paid: once for each group of `group_size` under a barrier. -/
def copies (p : ℕ) : ℕ :=
  if (v.argsOnPred p).any (·.1.isBarrier) ∨ v.predIsAmbiguousMultiArg p then countGroups v else 1

/-- What the count adds for predecessor `p`, as a whole number: it is added modulo `2 ^ 64`. -/
def paidCells (p : ℕ) : ℕ :=
  match (firstBarrier v p).bind fun q => (g.barrierGroupByForDependency v q).map (q, ·) with
  | some (q, gb) => q.indexes.length / gb * gb
  | none => g.neededCells v p * copies v p

theorem countGroups_pos : 0 < countGroups v := groupLayout_pos _ _

/-- The source leaves out the product by 1, and with it the wrap. -/
theorem countRemainingPred_eq (p : ℕ) :
    g.countRemainingPred v p % 2 ^ 64 = g.neededCells v p * copies v p % 2 ^ 64 := by
  simp only [countRemainingPred, neededCells, copies]
  have hpos := countGroups_pos v
  by_cases hb : (v.argsOnPred p).any (·.1.isBarrier) = true ∨ v.predIsAmbiguousMultiArg p = true
  · by_cases hg : 1 < countGroups v
    · simp only [hb, hg, and_self, if_true, wrappingMul, Nat.mod_mod]
    · have hone : countGroups v = 1 := by omega
      simp only [hb, hone, lt_irrefl, and_false, if_true, if_false, Nat.mul_one]
  · simp only [hb, false_and, if_false, Nat.mul_one]

/-! ### Pass 1 as a sum -/

/-- The payment of the first barrier among `args` on `p`, when its grouping is effective. -/
def groupedPay (args : List Arg) (p : ℕ) : Option ℕ :=
  (args.find? fun a => a.isBarrier && a.reads p).bind fun a =>
    a.predecessor.bind fun q =>
      (g.barrierGroupByForDependency v q).map fun gb => q.indexes.length / gb * gb

theorem groupedPay_node (p : ℕ) : g.groupedPay v v.args p =
    ((firstBarrier v p).bind fun q => (g.barrierGroupByForDependency v q).map (q, ·)).map
      fun r => r.1.indexes.length / r.2 * r.2 := by
  have hpred : (fun a : Arg => Option.any (fun q => q.1.isBarrier) (a.onPred p)) =
      fun a => a.isBarrier && a.reads p := by
    funext a
    unfold Arg.onPred Arg.reads
    cases a.predecessor with
    | none => simp
    | some q => by_cases hid : q.id = p <;> simp [hid]
  rw [firstBarrier, Node.argsOnPred, List.find?_filterMap, hpred, groupedPay]
  cases hf : v.args.find? fun a => a.isBarrier && a.reads p with
  | none => rfl
  | some a =>
    have hreads := List.find?_some hf
    rw [Bool.and_eq_true] at hreads
    obtain ⟨q, hq, hid⟩ := (Option.any_eq_true _ _).mp hreads.2
    have hid : q.id = p := of_decide_eq_true hid
    simp [Arg.onPred, hq, hid, Function.comp_def]

/-- Pass 1 after the arguments `args`. -/
structure Pass1 (args : List Arg) (st : CountState) : Prop where
  candidates : ∀ p, p ∈ st.candidatesSeen ↔ ∃ a ∈ args, a.isBarrier = true ∧ a.reads p = true
  seen : ∀ p, p ∈ st.predsSeen ↔ (g.groupedPay v args p).isSome = true
  nodup : st.predsSeen.Nodup
  count : st.depCount = (st.predsSeen.map fun p => (g.groupedPay v args p).getD 0).sum % 2 ^ 64

theorem pass1_nil : g.Pass1 v [] ⟨0, [], []⟩ where
  candidates := by simp
  seen := by simp [groupedPay]
  nodup := List.nodup_nil
  count := rfl

theorem groupedPay_append (args : List Arg) (a : Arg) (p : ℕ) :
    g.groupedPay v (args ++ [a]) p =
      if (∃ b ∈ args, b.isBarrier = true ∧ b.reads p = true) ∨ (a.isBarrier && a.reads p) = false
      then g.groupedPay v args p
      else g.groupedPay v [a] p := by
  unfold groupedPay
  rw [List.find?_append]
  cases hf : args.find? fun b => b.isBarrier && b.reads p with
  | some b =>
    have hb := List.find?_some hf
    have hmem := List.mem_of_find?_eq_some hf
    rw [if_pos (.inl ⟨b, hmem, by simpa using hb⟩)]
    rfl
  | none =>
    have hnone : ¬ ∃ b ∈ args, b.isBarrier = true ∧ b.reads p = true := by
      rintro ⟨b, hb, hbar, hreads⟩
      have := List.find?_eq_none.mp hf b hb
      simp [hbar, hreads] at this
    by_cases ha : (a.isBarrier && a.reads p) = true
    · rw [if_neg (by simp [hnone, ha])]
      rfl
    · have ha' : (a.isBarrier && a.reads p) = false := Bool.eq_false_iff.mpr ha
      rw [if_pos (.inr ha')]
      simp [ha']

theorem pass1_step {args : List Arg} {st : CountState} (h : g.Pass1 v args st) (a : Arg) :
    g.Pass1 v (args ++ [a]) (g.countGroupedBarrier v st a) := by
  have hkeep : ∀ p, (∃ b ∈ args, b.isBarrier = true ∧ b.reads p = true) ∨
      (a.isBarrier && a.reads p) = false → g.groupedPay v (args ++ [a]) p = g.groupedPay v args p :=
    fun p hp => by rw [groupedPay_append, if_pos hp]
  have hsame : ∀ st' : CountState, st'.predsSeen = st.predsSeen → st'.depCount = st.depCount →
      (∀ p, g.groupedPay v (args ++ [a]) p = g.groupedPay v args p) →
      (∀ p, p ∈ st'.candidatesSeen ↔ ∃ b ∈ args ++ [a], b.isBarrier = true ∧ b.reads p = true) →
      g.Pass1 v (args ++ [a]) st' := by
    intro st' hseen hcount hpay hcand
    refine ⟨hcand, ?_, hseen ▸ h.nodup, ?_⟩
    · intro p
      rw [hseen, hpay, h.seen]
    · rw [hcount, hseen, h.count]
      simp only [hpay]
  by_cases hb : a.isBarrier = true
  · cases hp : a.predecessor with
    | none =>
      have hreads : ∀ p, a.reads p = false := fun p => by simp [Arg.reads, hp]
      have hst : g.countGroupedBarrier v st a = st := by simp [countGroupedBarrier, hb, hp]
      rw [hst]
      refine hsame st rfl rfl (fun p => hkeep p (.inr (by simp [hreads]))) fun p => ?_
      rw [h.candidates]
      simp [hreads]
    | some q =>
      have hreads : ∀ p, a.reads p = true ↔ q.id = p := fun p => by simp [Arg.reads, hp]
      by_cases hcand : q.id ∈ st.candidatesSeen
      · have hst : g.countGroupedBarrier v st a = st := by
          simp [countGroupedBarrier, hb, hp, hcand]
        have hearlier := (h.candidates _).mp hcand
        rw [hst]
        refine hsame st rfl rfl (fun p => hkeep p ?_) fun p => ?_
        · by_cases hid : q.id = p
          · exact .inl (hid ▸ hearlier)
          · right
            rw [Bool.and_eq_false_iff]
            right
            rw [Bool.eq_false_iff]
            exact fun hr => hid ((hreads p).mp hr)
        · rw [h.candidates]
          constructor
          · rintro ⟨b, hbm, hrest⟩
            exact ⟨b, List.mem_append_left _ hbm, hrest⟩
          · rintro ⟨b, hbm, hbar, hread⟩
            rcases List.mem_append.mp hbm with hbm | hbm
            · exact ⟨b, hbm, hbar, hread⟩
            · rw [List.mem_singleton] at hbm
              subst hbm
              exact (hreads p).mp hread ▸ hearlier
      · have hfirst : ¬ ∃ b ∈ args, b.isBarrier = true ∧ b.reads q.id = true :=
          fun hex => hcand ((h.candidates _).mpr hex)
        have hcands : ∀ p, p ∈ q.id :: st.candidatesSeen ↔
            ∃ b ∈ args ++ [a], b.isBarrier = true ∧ b.reads p = true := by
          intro p
          rw [List.mem_cons, h.candidates]
          constructor
          · rintro (rfl | ⟨b, hbm, hrest⟩)
            · exact ⟨a, by simp, hb, (hreads _).mpr rfl⟩
            · exact ⟨b, List.mem_append_left _ hbm, hrest⟩
          · rintro ⟨b, hbm, hbar, hread⟩
            rcases List.mem_append.mp hbm with hbm | hbm
            · exact .inr ⟨b, hbm, hbar, hread⟩
            · rw [List.mem_singleton] at hbm
              subst hbm
              exact .inl ((hreads p).mp hread).symm
        have hother : ∀ p, p ≠ q.id →
            g.groupedPay v (args ++ [a]) p = g.groupedPay v args p := by
          intro p hne
          apply hkeep p
          right
          rw [Bool.and_eq_false_iff]
          right
          rw [Bool.eq_false_iff]
          exact fun hr => hne ((hreads p).mp hr).symm
        have hnew : g.groupedPay v (args ++ [a]) q.id = g.groupedPay v [a] q.id := by
          rw [groupedPay_append, if_neg]
          simp only [not_or, Bool.not_eq_false, Bool.and_eq_true]
          exact ⟨hfirst, hb, (hreads _).mpr rfl⟩
        have hnone : g.groupedPay v args q.id = none := by
          have hf : args.find? (fun b => b.isBarrier && b.reads q.id) = none := by
            rw [List.find?_eq_none]
            intro b hbm hbad
            exact hfirst ⟨b, hbm, by simpa using hbad⟩
          simp [groupedPay, hf]
        have hpay : g.groupedPay v [a] q.id =
            (g.barrierGroupByForDependency v q).map fun gb => q.indexes.length / gb * gb := by
          simp [groupedPay, hb, (hreads q.id).mpr rfl, hp]
        cases heff : g.barrierGroupByForDependency v q with
        | none =>
          have hst : g.countGroupedBarrier v st a =
              { st with candidatesSeen := q.id :: st.candidatesSeen } := by
            simp [countGroupedBarrier, hb, hp, hcand, heff]
          rw [hst]
          refine hsame _ rfl rfl (fun p => ?_) hcands
          by_cases hne : p = q.id
          · subst hne
            rw [hnew, hpay, heff, hnone]
            rfl
          · exact hother p hne
        | some gb =>
          have hdiv : (if gb = 0 then 1 else q.indexes.length / gb) * gb =
              q.indexes.length / gb * gb := by
            by_cases hz : gb = 0
            · simp [hz]
            · simp [hz]
          have hst : g.countGroupedBarrier v st a =
              ⟨wrappingAdd st.depCount (q.indexes.length / gb * gb % 2 ^ 64), q.id :: st.predsSeen,
                q.id :: st.candidatesSeen⟩ := by
            simp [countGroupedBarrier, hb, hp, hcand, heff, wrappingMul, hdiv]
          have hnotin : q.id ∉ st.predsSeen := by
            rw [h.seen, hnone]
            simp
          rw [hst]
          refine ⟨hcands, ?_, List.nodup_cons.mpr ⟨hnotin, h.nodup⟩, ?_⟩
          · intro p
            rw [List.mem_cons]
            by_cases hne : p = q.id
            · subst hne
              simp [hnew, hpay, heff]
            · rw [hother p hne, ← h.seen]
              simp [hne]
          · simp only [List.map_cons, List.sum_cons, hnew, hpay, heff, Option.map_some,
              Option.getD_some, h.count]
            have hrest : (st.predsSeen.map fun p => (g.groupedPay v (args ++ [a]) p).getD 0) =
                st.predsSeen.map fun p => (g.groupedPay v args p).getD 0 := by
              apply List.map_congr_left
              intro p hpm
              rw [hother p fun heq => hnotin (heq ▸ hpm)]
            rw [hrest, wrappingAdd, ← Nat.add_mod, Nat.add_comm]
  · have hst : g.countGroupedBarrier v st a = st := by simp [countGroupedBarrier, hb]
    rw [hst]
    refine hsame st rfl rfl (fun p => hkeep p (.inr (by simp [hb]))) fun p => ?_
    rw [h.candidates]
    simp [hb]

theorem pass1_fold (pre post : List Arg) (st : CountState) (h : g.Pass1 v pre st) :
    g.Pass1 v (pre ++ post) (post.foldl (g.countGroupedBarrier v) st) := by
  induction post generalizing pre st with
  | nil => simpa using h
  | cons a post ih =>
    have := ih (pre ++ [a]) _ (g.pass1_step v h a)
    simpa using this

/-- A sum wraps alike when each term does. -/
theorem sum_map_mod {α : Type*} (xs : List α) (f f' : α → ℕ) (m : ℕ)
    (hmod : ∀ x ∈ xs, f x % m = f' x % m) : (xs.map f).sum % m = (xs.map f').sum % m := by
  induction xs with
  | nil => rfl
  | cons x xs ih =>
    have hfirst := hmod x List.mem_cons_self
    have hrest := ih fun y hy => hmod y (List.mem_cons_of_mem _ hy)
    rw [List.map_cons, List.map_cons, List.sum_cons, List.sum_cons, Nat.add_mod, hfirst, hrest,
      ← Nat.add_mod]

/-- The dependency count is the sum of the payments. -/
theorem dependencyCount_eq :
    g.dependencyCount v = (v.predIds.map (g.paidCells v)).sum % 2 ^ 64 := by
  have h := g.pass1_fold v [] v.args _ (g.pass1_nil v)
  rw [List.nil_append] at h
  unfold dependencyCount
  generalize v.args.foldl (g.countGroupedBarrier v) ⟨0, [], []⟩ = st at h ⊢
  have hpaid : ∀ p, g.paidCells v p % 2 ^ 64 =
      (if p ∈ st.predsSeen then (g.groupedPay v v.args p).getD 0
      else g.countRemainingPred v p) % 2 ^ 64 := by
    intro p
    simp only [h.seen, groupedPay_node, paidCells]
    cases (firstBarrier v p).bind fun q => (g.barrierGroupByForDependency v q).map (q, ·) with
    | none => exact (g.countRemainingPred_eq v p).symm
    | some r => rfl
  have hsub : ∀ p ∈ st.predsSeen, p ∈ v.predIds := by
    intro p hp
    rw [h.seen, groupedPay_node] at hp
    rw [← v.argsOnPred_ne_nil]
    intro hnil
    simp [firstBarrier, hnil] at hp
  have hperm : (v.predIds.filter (· ∈ st.predsSeen)).Perm st.predsSeen := by
    rw [List.perm_ext_iff_of_nodup (v.predIds_nodup.filter _) h.nodup]
    intro p
    simp only [List.mem_filter, decide_eq_true_eq]
    exact ⟨fun hp => hp.2, fun hp => ⟨hsub p hp, hp⟩⟩
  dsimp only
  rw [h.count, foldl_wrappingAdd, sum_map_mod v.predIds _ _ _ fun p _ => hpaid p,
    List.sum_map_ite, (hperm.map _).sum_eq]

/-! ## What the edges draw, in closed form -/

/-- The reference whose indexes bound the window of an edge: a grouped barrier; the common
reference of all arguments; or, under a barrier and without negative indexes, the union. -/
def windowPred (p : ℕ) : Option Predecessor :=
  match g.groupedBarrier v p with
  | some (q, _) => some q
  | none =>
    match v.argsOnPred p with
    | [] => none
    | (a, first) :: rest =>
      if rest.all fun q => q.2.indexes = first.indexes && q.2.groupBy = first.groupBy then some first
      else if ((a, first) :: rest).any (·.1.isBarrier) &&
          !(unionPredIndexes v p).any (· < 0) then some (unionPred v p)
      else none

/-- The window `[lo, hi)` of an edge in 32 bits; an end of `u32::MAX` means none. -/
def window (p : ℕ) : Option (ℕ × ℕ) :=
  ((g.windowPred v p).bind fun q => q.indexFilter (g.factorOf p) v.factor).bind fun b =>
    if b.2 % 2 ^ 32 = 2 ^ 32 - 1 then none else some (b.1 % 2 ^ 32, b.2 % 2 ^ 32)

/-- First instance of the window, also where the end is the sentinel. -/
def windowBase (p : ℕ) : ℕ :=
  (((g.windowPred v p).bind fun q => q.indexFilter (g.factorOf p) v.factor).map
    fun b => b.1 % 2 ^ 32).getD 0

/-- The divisor of an edge, 0 for none. -/
def divisor (p : ℕ) : ℕ := ((g.groupedBarrier v p).map fun q => q.2 % 2 ^ 32).getD 0

/-- Instance `i` of `p` draws on group `grp`. -/
def Draws (p i grp : ℕ) : Prop :=
  (∀ b, g.window v p = some b → b.1 ≤ i ∧ i < b.2) ∧
    (g.divisor v p = 0 ∨ wrappingSub i (g.windowBase v p) / g.divisor v p = grp)

theorem within_window_iff (p i : ℕ) :
    ((g.window v p).all fun b => decide (b.1 ≤ i) && decide (i < b.2)) = true ↔
      ∀ b, g.window v p = some b → b.1 ≤ i ∧ i < b.2 := by
  cases g.window v p with
  | none => simp
  | some b => simp

instance (p i grp : ℕ) : Decidable (g.Draws v p i grp) :=
  have : Decidable (∀ b, g.window v p = some b → b.1 ≤ i ∧ i < b.2) :=
    decidable_of_iff _ (g.within_window_iff v p i)
  inferInstanceAs (Decidable (_ ∧ _))

/-- How many instances of `p` draw on group `grp`: those in the part of the window that falls to
it. A divisor whose window was lost to the sentinel counts from the base, modulo `2 ^ 64`. -/
def drawingCells (p grp : ℕ) : ℕ :=
  let d := g.divisor v p
  let base := g.windowBase v p
  match g.window v p with
  | some (lo, hi) =>
    if d = 0 then overlap 0 (g.factorOf p) lo hi
    else overlap 0 (g.factorOf p) (lo + grp * d) (min hi (lo + (grp + 1) * d))
  | none =>
    if d = 0 then g.factorOf p
    else
      overlap 0 (min (g.factorOf p) base) (base + grp * d - 2 ^ 64)
          (base + (grp + 1) * d - 2 ^ 64) +
        overlap (min (g.factorOf p) base) (g.factorOf p) (base + grp * d) (base + (grp + 1) * d)

theorem window_base {p lo hi : ℕ} (h : g.window v p = some (lo, hi)) : g.windowBase v p = lo := by
  obtain ⟨b, hb, hwin⟩ := Option.bind_eq_some_iff.mp h
  rw [windowBase, hb]
  split at hwin
  · cases hwin
  · exact (Prod.mk.inj (Option.some.inj hwin)).1

theorem windowBase_lt (p : ℕ) : g.windowBase v p < 2 ^ 32 := by
  unfold windowBase
  cases (g.windowPred v p).bind _ with
  | none => exact Nat.two_pow_pos 32
  | some b => exact Nat.mod_lt _ (by decide)

/-- The instances whose distance from the base falls to a group are a stretch on either side. -/
theorem wrappingSub_div_eq {i b d grp : ℕ} (hb : b < 2 ^ 64) (hd : 0 < d) :
    wrappingSub i b / d = grp ↔
      if b ≤ i then b + grp * d ≤ i ∧ i < b + (grp + 1) * d
      else b + grp * d ≤ i + 2 ^ 64 ∧ i + 2 ^ 64 < b + (grp + 1) * d := by
  have hsucc : (grp + 1) * d = grp * d + d := Nat.succ_mul ..
  unfold wrappingSub
  rw [Nat.div_eq_iff hd, hsucc]
  split <;> omega

theorem countP_windowed {p lo hi : ℕ} (hwin : g.window v p = some (lo, hi)) (grp : ℕ) :
    (List.range (g.factorOf p)).countP (g.Draws v p · grp) =
      if g.divisor v p = 0 then overlap 0 (g.factorOf p) lo hi
      else overlap 0 (g.factorOf p) (lo + grp * g.divisor v p)
        (min hi (lo + (grp + 1) * g.divisor v p)) := by
  have hrange : List.range (g.factorOf p) = List.range' 0 (g.factorOf p - 0) := by
    rw [Nat.sub_zero, List.range_eq_range']
  have hbase := g.window_base v hwin
  have hlt := g.windowBase_lt v p
  by_cases hd : g.divisor v p = 0
  · rw [if_pos hd, ← countP_overlap, hrange]
    apply List.countP_congr
    intro i _
    simp [Draws, hwin, hd]
  · rw [if_neg hd, ← countP_overlap, hrange]
    apply List.countP_congr
    intro i _
    have hpart := @wrappingSub_div_eq i lo _ grp (by omega) (Nat.pos_of_ne_zero hd)
    simp only [Draws, hwin, hd, hbase, Option.some.injEq, forall_eq', false_or, decide_eq_true_eq]
    constructor
    · intro h
      have hin := hpart.mp h.2
      rw [if_pos h.1.1] at hin
      omega
    · intro h
      have hlo : lo ≤ i := by omega
      refine ⟨by omega, hpart.mpr ?_⟩
      rw [if_pos hlo]
      omega

/-- Without a window the instances below the base lie at distances past `2 ^ 63`. -/
theorem countP_unwindowed {p : ℕ} (hwin : g.window v p = none) (hd : g.divisor v p ≠ 0) (grp : ℕ) :
    (List.range (g.factorOf p)).countP (g.Draws v p · grp) =
      overlap 0 (min (g.factorOf p) (g.windowBase v p))
          (g.windowBase v p + grp * g.divisor v p - 2 ^ 64)
          (g.windowBase v p + (grp + 1) * g.divisor v p - 2 ^ 64) +
        overlap (min (g.factorOf p) (g.windowBase v p)) (g.factorOf p)
          (g.windowBase v p + grp * g.divisor v p)
          (g.windowBase v p + (grp + 1) * g.divisor v p) := by
  have hlt := g.windowBase_lt v p
  have hpos := Nat.pos_of_ne_zero hd
  generalize hF : g.factorOf p = F
  generalize hb : g.windowBase v p = b at hlt ⊢
  have hsplit : List.range F = List.range' 0 (min F b - 0) ++ List.range' (min F b) (F - min F b) := by
    have hlast : min F b = 0 + (min F b - 0) := by omega
    conv_rhs => rw [hlast]
    rw [Nat.zero_add, Nat.sub_zero, Nat.sub_zero]
    have hjoin := @List.range'_append_1 0 (min F b) (F - min F b)
    rw [Nat.zero_add] at hjoin
    rw [hjoin, List.range_eq_range']
    congr 1
    omega
  have hdraws : ∀ i, g.Draws v p i grp ↔ wrappingSub i b / g.divisor v p = grp := by
    intro i
    simp [Draws, hwin, hd, hb]
  have hbelow : (List.range' 0 (min F b - 0)).countP (g.Draws v p · grp) =
      overlap 0 (min F b) (b + grp * g.divisor v p - 2 ^ 64)
        (b + (grp + 1) * g.divisor v p - 2 ^ 64) := by
    rw [← countP_overlap]
    apply List.countP_congr
    intro i hi
    rw [List.mem_range'_1] at hi
    have hpart := @wrappingSub_div_eq i b _ grp (by omega) hpos
    rw [if_neg (by omega)] at hpart
    rw [decide_eq_true_eq, decide_eq_true_eq, hdraws, hpart]
    omega
  have habove : (List.range' (min F b) (F - min F b)).countP (g.Draws v p · grp) =
      overlap (min F b) F (b + grp * g.divisor v p) (b + (grp + 1) * g.divisor v p) := by
    rw [← countP_overlap]
    apply List.countP_congr
    intro i hi
    rw [List.mem_range'_1] at hi
    have hpart := @wrappingSub_div_eq i b _ grp (by omega) hpos
    rw [if_pos (by omega)] at hpart
    rw [decide_eq_true_eq, decide_eq_true_eq, hdraws, hpart]
  rw [hsplit, List.countP_append, hbelow, habove]

/-- The closed form counts the instances that draw. -/
theorem countP_draws (p grp : ℕ) :
    (List.range (g.factorOf p)).countP (g.Draws v p · grp) = g.drawingCells v p grp := by
  cases hwin : g.window v p with
  | some b =>
    simp only [drawingCells, hwin]
    exact g.countP_windowed v hwin grp
  | none =>
    simp only [drawingCells, hwin]
    by_cases hd : g.divisor v p = 0
    · have hall : ∀ i ∈ List.range (g.factorOf p), decide (g.Draws v p i grp) = true := by
        intro i _
        simp [Draws, hwin, hd]
      rw [if_pos hd, List.countP_eq_length.mpr hall, List.length_range]
    · rw [if_neg hd]
      exact g.countP_unwindowed v hwin hd grp

end Graph

namespace Compiled

variable (c : Compiled)

theorem route_filter (v : Node) (p : ℕ) : (c.graph.route c.range1to1Enabled v p).filter =
    (c.graph.windowPred v p).bind fun q => q.indexFilter (c.graph.factorOf p) v.factor := by
  simp only [Graph.route, Graph.windowPred]
  cases c.graph.groupedBarrier v p with
  | some q => rfl
  | none =>
    cases v.argsOnPred p with
    | nil => rfl
    | cons q rest =>
      obtain ⟨arg, first⟩ := q
      simp only
      split_ifs <;> rfl

theorem route_groupBy (v : Node) (p : ℕ) : (c.graph.route c.range1to1Enabled v p).groupBy =
    (c.graph.groupedBarrier v p).map (·.2) := by
  simp only [Graph.route]
  cases c.graph.groupedBarrier v p with
  | some q => rfl
  | none =>
    cases v.argsOnPred p with
    | nil => rfl
    | cons q rest =>
      obtain ⟨arg, first⟩ := q
      simp only
      split_ifs <;> rfl

theorem edge_predGroup (p v i : ℕ) :
    (c.edge p v).predGroup i =
      if c.graph.divisor (c.nodeAt v) p = 0 then none
      else some (wrappingSub i (c.graph.windowBase (c.nodeAt v) p) /
        c.graph.divisor (c.nodeAt v) p) := by
  have hbase : (c.edge p v).filterStart.toNat = c.graph.windowBase (c.nodeAt v) p := by
    simp only [edge, SuccEdge.ofRoute, route_filter, Graph.windowBase]
    cases (c.graph.windowPred (c.nodeAt v) p).bind _ with
    | none => rfl
    | some b => simp
  have hdiv : (c.edge p v).groupBy.toNat = c.graph.divisor (c.nodeAt v) p := by
    simp only [edge, SuccEdge.ofRoute, route_groupBy, Graph.divisor]
    cases c.graph.groupedBarrier (c.nodeAt v) p with
    | none => rfl
    | some q => simp
  have hzero : (c.edge p v).groupBy = noGroup ↔ c.graph.divisor (c.nodeAt v) p = 0 := by
    rw [← hdiv, ← UInt32.toNat_inj]
    rfl
  simp only [SuccEdge.predGroup, hzero, hbase, hdiv]

theorem edge_passesFilter (p v i : ℕ) : (c.edge p v).passesFilter i = true ↔
    ∀ b, c.graph.window (c.nodeAt v) p = some b → b.1 ≤ i ∧ i < b.2 := by
  simp only [SuccEdge.passesFilter, edge, SuccEdge.ofRoute, route_filter, Graph.window]
  cases (c.graph.windowPred (c.nodeAt v) p).bind fun q =>
      q.indexFilter (c.graph.factorOf p) (c.nodeAt v).factor with
  | none => simp
  | some b =>
    have hend : asU32 b.2 = noFilter ↔ b.2 % 2 ^ 32 = 2 ^ 32 - 1 := by
      rw [← UInt32.toNat_inj, asU32_toNat]
      rfl
    simp only [Option.map_some, Option.getD_some, Option.bind_some, asU32_toNat,
      Bool.or_eq_true, decide_eq_true_eq, Bool.and_eq_true, hend]
    by_cases hs : b.2 % 2 ^ 32 = 2 ^ 32 - 1
    · rw [if_pos hs]
      exact ⟨fun _ b' hb' => by simp at hb', fun _ => .inl hs⟩
    · rw [if_neg hs]
      simp only [hs, false_or, Option.some.injEq, forall_eq']

theorem factor_eq (p : ℕ) (hp : p < c.graph.nodes.length) : c.factor p = c.graph.factorOf p := by
  simp [factor, nodeAt, Graph.factorOf, hp]

theorem drawn_eq (v p : ℕ) (hp : p < c.graph.nodes.length) {g : ℕ}
    (hg : g < (c.entry v).numGroups) :
    c.drawn v p g = c.graph.drawingCells (c.nodeAt v) p g := by
  have hcell : ∀ i, (c.entry v).takenBy ((c.edge p v).calls i 1) g =
      if c.graph.Draws (c.nodeAt v) p i g then 1 else 0 := by
    intro i
    rw [SuccEdge.calls_single]
    have hpass := c.edge_passesFilter p v i
    by_cases hin : (c.edge p v).passesFilter i = true
    · rw [if_pos hin]
      have hwin := hpass.mp hin
      rw [EntryShape.takenBy_cons, EntryShape.takenBy_nil, Nat.add_zero,
        EntryShape.taken_cellCall _ _ _ hg, edge_predGroup]
      by_cases hd : c.graph.divisor (c.nodeAt v) p = 0
      · rw [if_pos hd, if_pos (.inl rfl), if_pos (show c.graph.Draws _ _ _ _ from ⟨hwin, .inl hd⟩)]
      · rw [if_neg hd]
        simp only [reduceCtorEq, false_or, Option.some.injEq]
        by_cases hgrp : wrappingSub i (c.graph.windowBase (c.nodeAt v) p) /
            c.graph.divisor (c.nodeAt v) p = g
        · rw [if_pos hgrp, if_pos (show c.graph.Draws _ _ _ _ from ⟨hwin, .inr hgrp⟩)]
        · rw [if_neg hgrp, if_neg fun h : c.graph.Draws _ _ _ _ => h.2.elim hd hgrp]
    · rw [if_neg hin, if_neg fun h : c.graph.Draws _ _ _ _ => hin (hpass.mpr h.1)]
      rfl
  rw [drawn, ← Graph.countP_draws, c.factor_eq p hp]
  simp only [hcell]
  induction List.range (c.graph.factorOf p) with
  | nil => rfl
  | cons i is ih =>
    rw [List.map_cons, List.sum_cons, List.countP_cons, ih, Nat.add_comm]
    simp

theorem entry_depsPerGroup (v : ℕ) : (c.entry v).depsPerGroup.toNat =
    ((c.nodeAt v).predIds.map (c.graph.paidCells (c.nodeAt v))).sum % 2 ^ 64 /
      (c.entry v).numGroups % 2 ^ 32 := by
  rw [← Graph.dependencyCount_eq]
  simp [entry, Graph.entryShape, EntryShape.new]

end Compiled

end Tomii
