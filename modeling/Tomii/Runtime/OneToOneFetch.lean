import Tomii.Runtime.FetchedCells
import Mathlib.Order.Interval.Finset.Nat

/-! # Firing and fetching along 1:1 edges

`one_to_one_succ_idx` sends the completion of instance `i` to one instance of the successor, and
`fetch_res_results` chooses the cell that this instance reads. Where both name the same pair. -/
namespace Tomii
set_option autoImplicit false
set_option maxHeartbeats 250000

/-! ## Remainders of a window -/

/-- Any `S` instances in a row are sent to all remainders. -/
theorem exists_emod_eq {S : ℕ} (k : ℤ) (lo : ℕ) {j : ℕ} (hj : j < S) :
    ∃ i, lo ≤ i ∧ i < lo + S ∧ ((i - k) % (S : ℤ)).toNat = j := by
  have hS : (0 : ℤ) < S := by omega
  have hlow := Int.emod_nonneg (j + k - lo) hS.ne'
  have hhigh := Int.emod_lt_of_pos (j + k - lo) hS
  refine ⟨lo + ((j + k - lo) % (S : ℤ)).toNat, by omega, by omega, ?_⟩
  have hcast : ((lo + ((j + k - lo) % (S : ℤ)).toNat : ℕ) : ℤ) - k =
      lo - k + (j + k - lo) % (S : ℤ) := by
    push_cast [Int.toNat_of_nonneg hlow]
    ring
  have hmod : (lo - k + (j + k - lo) % (S : ℤ)) % (S : ℤ) = j := by
    rw [Int.add_emod, Int.emod_emod, ← Int.add_emod, show lo - k + (j + k - lo) = (j : ℤ) by ring]
    exact Int.emod_eq_of_lt (by omega) (by omega)
  rw [hcast, hmod, Int.toNat_natCast]

/-- Fewer instances than that are not. -/
theorem not_onto_of_window_lt {S lo hi : ℕ} (hS : 0 < S) (hlt : hi < lo + S) (f : ℕ → ℕ) :
    ¬ ∀ j < S, ∃ i, lo ≤ i ∧ i < hi ∧ f i = j := by
  intro h
  have hsub : Finset.range S ⊆ (Finset.Ico lo hi).image f := by
    intro j hj
    obtain ⟨i, hlo, hhi, rfl⟩ := h j (Finset.mem_range.mp hj)
    exact Finset.mem_image_of_mem f (Finset.mem_Ico.mpr ⟨hlo, hhi⟩)
  have hcard := (Finset.card_le_card hsub).trans Finset.card_image_le
  rw [Finset.card_range, Nat.card_Ico] at hcard
  omega

theorem forall_turn_iff {P : ℕ} (k : ℤ) (f : ℕ → Option ℕ) :
    (∀ i < P, f ((i - k) % (P : ℤ)).toNat = some i) ↔
      ∀ j < P, f j = some ((j + k) % (P : ℤ)).toNat := by
  have hback : ∀ {x : ℕ} (d : ℤ), x < P →
      ((((x + d) % (P : ℤ)).toNat : ℤ) - d) % (P : ℤ) = x := by
    intro x d hx
    rw [Int.toNat_of_nonneg (Int.emod_nonneg _ (by omega)), Int.emod_sub_emod,
      show (x : ℤ) + d - d = x by ring]
    exact Int.emod_eq_of_lt (by omega) (by omega)
  have hlt : ∀ d : ℤ, ∀ x < P, (d % (P : ℤ)).toNat < P := by
    intro d x hx
    have hhigh := Int.emod_lt_of_pos d (b := P) (by omega)
    have hlow := Int.emod_nonneg d (b := P) (by omega)
    omega
  constructor
  · intro h j hj
    have hi := h _ (hlt (j + k) j hj)
    rwa [hback k hj, Int.toNat_natCast] at hi
  · intro h i hi
    have hj := h _ (hlt (i - k) i hi)
    rw [hj]
    have hturn := hback (-k) hi
    rw [sub_neg_eq_add, ← sub_eq_add_neg] at hturn
    rw [hturn, Int.toNat_natCast]

/-! ## The reference of a 1:1 edge -/

theorem getElem?_of_isContiguous {l : List ℤ} {k : ℤ} (h : isContiguous l = true)
    (hhead : l.head? = some k) {j : ℕ} (hj : j < l.length) : l[j]? = some (k + j) := by
  induction l generalizing k j with
  | nil => cases hhead
  | cons i rest ih =>
    obtain rfl := Option.some.inj hhead
    cases j with
    | zero => simp
    | succ j =>
      cases rest with
      | nil => simp at hj
      | cons i' rest =>
        simp only [isContiguous, Bool.and_eq_true, decide_eq_true_eq] at h
        rw [List.getElem?_cons_succ, ih h.2 rfl (by simpa using hj), h.1]
        congr 1
        push_cast
        ring

theorem min?_of_isContiguous {l : List ℤ} {k : ℤ} (h : isContiguous l = true)
    (hhead : l.head? = some k) : l.min? = some k ∧ l.max? = some (k + l.length - 1) := by
  have hmem : ∀ i ∈ l, k ≤ i ∧ i ≤ k + l.length - 1 := by
    intro i hi
    obtain ⟨j, hj, rfl⟩ := List.mem_iff_getElem.mp hi
    have hget := getElem?_of_isContiguous h hhead hj
    rw [List.getElem?_eq_getElem hj, Option.some.injEq] at hget
    omega
  have hpos : 0 < l.length := by
    cases l with
    | nil => cases hhead
    | cons => simp
  have hfirst : k ∈ l := List.mem_of_head? hhead
  have hlast : k + l.length - 1 ∈ l := by
    have hget := getElem?_of_isContiguous h hhead (Nat.sub_lt hpos one_pos)
    refine List.mem_of_getElem? (i := l.length - 1) ?_
    rw [hget]
    congr 1
    omega
  exact ⟨List.min?_eq_some_iff.mpr ⟨hfirst, fun i hi => (hmem i hi).1⟩,
    List.max?_eq_some_iff.mpr ⟨hlast, fun i hi => (hmem i hi).2⟩⟩

namespace Graph

/-- What the tables say of a 1:1 edge: all arguments on the predecessor have its one reference. -/
structure OneToOneRef (g : Graph) (succ : Node) (predId : ℕ) (r : Route) (p : Predecessor) (k : ℤ) :
    Prop where
  many : 1 < succ.factor
  filter : r.filter = p.indexFilter (g.factorOf predId) succ.factor
  groupBy : r.groupBy = none
  plain : p.groupBy = none
  head : p.indexes.head? = some k
  shape : p.indexes.length = 1 ∧ succ.factor = g.factorOf predId ∨
    p.indexes.length = succ.factor ∧ isContiguous p.indexes = true

theorem oneToOneRef {g : Graph} {enabled : Bool} {succ : Node} {predId : ℕ} {k : ℤ}
    (hroute : (g.route enabled succ predId).oneToOneOffset = some k) {a : Arg} {p : Predecessor}
    (ha : a ∈ succ.args) (hp : a.predecessor = some p) (hid : p.id = predId) :
    OneToOneRef g succ predId (g.route enabled succ predId) p k := by
  have hmem : (a, p) ∈ succ.argsOnPred predId := succ.mem_argsOnPred.mpr ⟨ha, hp, hid⟩
  unfold route at hroute ⊢
  dsimp only at hroute ⊢
  cases hbarrier : g.groupedBarrier succ predId with
  | some q =>
    rw [hbarrier] at hroute
    cases hroute
  | none =>
    rw [hbarrier] at hroute
    dsimp only at hroute ⊢
    cases hargs : succ.argsOnPred predId with
    | nil =>
      rw [hargs] at hmem
      cases hmem
    | cons q rest =>
      obtain ⟨arg, first⟩ := q
      rw [hargs] at hroute hmem
      dsimp only at hroute ⊢
      by_cases hsame : (rest.all fun q =>
          q.2.indexes = first.indexes && q.2.groupBy = first.groupBy) = true
      · rw [if_pos hsame] at hroute ⊢
        -- every argument on the predecessor has the reference of the first one
        obtain ⟨hindexes, hgroup⟩ : p.indexes = first.indexes ∧ p.groupBy = first.groupBy := by
          rcases List.mem_cons.mp hmem with heq | hrest
          · rw [(Prod.mk.inj heq).2]
            exact ⟨rfl, rfl⟩
          · simpa using List.all_eq_true.mp hsame _ hrest
        simp only [routeSingle] at hroute ⊢
        split at hroute
        · next hcond =>
          obtain ⟨-, hplain, hshape, hmany⟩ := hcond
          refine ⟨hmany, ?_, rfl, hgroup.trans hplain, by rw [hindexes, hroute], ?_⟩
          · unfold Predecessor.indexFilter
            rw [hindexes, hgroup]
          · rw [hindexes]
            exact hshape.imp_right fun h => h.2
        · cases hroute
      · rw [if_neg hsame] at hroute
        split at hroute <;> cases hroute

end Graph

/-! ## Agreement -/

/-- Instance `i` drives the edge and is sent to instance `j`; a remainder by zero panics. -/
def SuccEdge.Fires (e : SuccEdge) (i j : ℕ) : Prop :=
  e.succFactor ≠ 0 ∧ e.passesFilter i = true ∧ e.oneToOneSuccIdx i = some j

namespace Compiled

variable (c : Compiled) (u v : ℕ)

/-- Every instance that is fired reads the instance of the predecessor that fired it, and every
instance of the successor is fired. -/
structure FireFetchAgree (p : Predecessor) : Prop where
  fetched : ∀ i < c.factor u, ∀ j, (c.edge u v).Fires i j → c.fetchResResults v p j i = some [i]
  onto : ∀ j < c.factor v, ∃ i < c.factor u, (c.edge u v).Fires i j

end Compiled

/-- One index `k` and equal factors `P`: without groups the sums do not leave the predecessor and
the table keeps the offset modulo `P`; with groups of both nodes the chunks are single cells; a
broadcast never pairs. -/
def PairsSingle (P : ℕ) (k : ℤ) (nodeGroupSize predGroupSize : Option ℕ) : Prop :=
  P < 2 ^ 32 ∧
    match nodeGroupSize, predGroupSize with
    | none, _ => (∀ j < P, ReachesCell P j k) ∧ (P : ℤ) ∣ k - isizeAsI32 k
    | some ngs, some effGs =>
      ngs = 1 ∧ (k = 0 ∧ effGs % 2 ^ 64 = 1 ∨ P = 2 ∧ k = 1 ∧ (effGs + 1) % 2 ^ 64 = 0)
    | some _, none => False

/-- A range of `S` indexes from `k` on `P` instances: of equal factors, where a barrier makes the
resolver go by the offset; or within the predecessor as the filter of the edge has it. -/
def PairsRange (P S : ℕ) (k : ℤ) (nodeHasBarrier : Bool) : Prop :=
  S < 2 ^ 32 ∧
    (P = S ∧ (nodeHasBarrier = true → (P : ℤ) ∣ k - isizeAsI32 k) ∨
      S < P ∧ k % 2 ^ 32 + S ≤ P ∧ k % 2 ^ 32 + S < 2 ^ 32 - 1 ∧ (P : ℤ) ∣ k - k % 2 ^ 32 ∧
        (k % 2 ^ 32 < 2 ^ 31 ∨ S ∣ 2 ^ 32))

/-! ### One index -/

theorem wrapIsize_of_isize {i : ℤ} (h : -2 ^ 63 ≤ i ∧ i < 2 ^ 63) : wrapIsize i = i :=
  Int.bmod_eq_of_le (by omega) (by omega)

theorem emod_eq_emod_iff_dvd {n : ℕ} {a b : ℤ} : a % (n : ℤ) = b % (n : ℤ) ↔ (n : ℤ) ∣ a - b := by
  rw [Int.dvd_iff_emod_eq_zero]
  exact Int.emod_eq_emod_iff_emod_sub_eq_zero

theorem toNat_emod_inj {n : ℕ} (hn : 0 < n) {a b : ℤ} :
    (a % (n : ℤ)).toNat = (b % (n : ℤ)).toNat ↔ (n : ℤ) ∣ a - b := by
  have ha := Int.emod_nonneg a (b := n) (by omega)
  have hb := Int.emod_nonneg b (b := n) (by omega)
  rw [← emod_eq_emod_iff_dvd]
  omega

/-- Relative fetching undoes the firing. -/
theorem findPredIndex_turn_iff {P : ℕ} (hP : 0 < P) (hsize : P < 2 ^ 63) {k d : ℤ}
    (hk : -2 ^ 63 ≤ k ∧ k < 2 ^ 63) :
    (∀ j < P, findPredIndex j k P = some ((j + d) % (P : ℤ)).toNat) ↔
      (∀ j < P, ReachesCell P j k) ∧ (P : ℤ) ∣ k - d := by
  have hcell : ∀ j : ℕ, findPredIndex j k P = some ((j + d) % (P : ℤ)).toNat ↔
      (0 ≤ wrapIsize (j + k) ∨ (P : ℤ) ∣ wrapIsize (j + k)) ∧
        (P : ℤ) ∣ wrapIsize (j + k) - (j + d) := by
    intro j
    obtain ⟨hlt, heq⟩ := tmod_cell_iff (w := wrapIsize (j + k)) hP hsize
    rw [findPredIndex, if_neg hP.ne', Option.some.injEq, ← toNat_emod_inj hP]
    constructor
    · intro h
      have hgood := hlt.mp (by
        have hlow := Int.emod_nonneg (j + d) (b := P) (by omega)
        have hhigh := Int.emod_lt_of_pos (j + d) (b := P) (by omega)
        omega)
      exact ⟨hgood, (heq hgood).symm.trans h⟩
    · rintro ⟨hgood, h⟩
      exact (heq hgood).trans h
  simp only [hcell, ReachesCell]
  constructor
  · intro h
    have hzero := (h 0 hP).2
    rw [Nat.cast_zero, zero_add, zero_add, wrapIsize_of_isize hk] at hzero
    refine ⟨fun j hj => ⟨(h j hj).1, ?_⟩, hzero⟩
    have hsum := Int.dvd_sub (h j hj).2 hzero
    rwa [show wrapIsize (j + k) - (j + d) - (k - d) = wrapIsize (j + k) - (j + k) by ring] at hsum
  · rintro ⟨hreach, hdvd⟩ j hj
    refine ⟨(hreach j hj).1, ?_⟩
    have hsum := Int.dvd_add (hreach j hj).2 hdvd
    rwa [show wrapIsize (j + k) - (j + k) + (k - d) = wrapIsize (j + k) - (j + d) by ring] at hsum

/-- Chunks of a predecessor are read in turn only where they are single cells; two instances may
also go round the end of the words. -/
theorem chunk_turn_iff {P : ℕ} (hP : 1 < P) (hsize : P < 2 ^ 32) {k : ℤ}
    (hk : -2 ^ 63 ≤ k ∧ k < 2 ^ 63) {ngs effGs : ℕ} :
    (∀ j < P, (if ngs = 0 then none else some ((j / ngs * effGs + isizeAsUsize k) % 2 ^ 64)) =
        some ((j + isizeAsI32 k) % (P : ℤ)).toNat) ↔
      ngs = 1 ∧ (k = 0 ∧ effGs % 2 ^ 64 = 1 ∨ P = 2 ∧ k = 1 ∧ (effGs + 1) % 2 ^ 64 = 0) := by
  have hPpos : (0 : ℤ) < P := by omega
  constructor
  · intro h
    have hngs : ngs ≠ 0 := by
      intro hzero
      have h0 := h 0 (by omega)
      rw [if_pos hzero] at h0
      cases h0
    simp only [if_neg hngs, Option.some.injEq] at h
    -- instance 0 reads `k` itself, which is then a cell
    have h0 := h 0 (by omega)
    rw [Nat.zero_div, Nat.zero_mul, Nat.zero_add, Nat.cast_zero, zero_add,
      Nat.mod_eq_of_lt (isizeAsUsize_lt k)] at h0
    have hhigh := Int.emod_lt_of_pos (isizeAsI32 k) hPpos
    have hlow := Int.emod_nonneg (isizeAsI32 k) hPpos.ne'
    have hk0 : 0 ≤ k := by
      by_contra hneg
      unfold isizeAsUsize at h0
      omega
    obtain ⟨K, rfl⟩ := Int.eq_ofNat_of_zero_le hk0
    have hcast : isizeAsUsize (K : ℤ) = K := by
      rw [isizeAsUsize_of_nonneg hk0 (by omega), Int.toNat_natCast]
    have hdvd : (P : ℤ) ∣ isizeAsI32 K - K := by
      rw [← emod_eq_emod_iff_dvd, Int.emod_eq_of_lt (a := (K : ℤ)) hk0 (by omega)]
      omega
    have hcells : ∀ j < P, (j / ngs * effGs + K) % 2 ^ 64 = (j + K) % P := by
      intro j hj
      have hturn : ((j + isizeAsI32 K) % (P : ℤ)).toNat = (((j + K : ℕ) : ℤ) % (P : ℤ)).toNat := by
        rw [toNat_emod_inj (by omega)]
        rwa [Nat.cast_add, show (j : ℤ) + isizeAsI32 K - (j + K) = isizeAsI32 K - K by ring]
      have hj' := h j hj
      rw [hcast, hturn] at hj'
      omega
    have hK : K < P := by omega
    have h1 := hcells 1 hP
    have hone : ngs = 1 := by
      by_contra hmany
      rw [Nat.div_eq_of_lt (by omega), Nat.zero_mul, Nat.zero_add, Nat.mod_eq_of_lt (by omega)] at h1
      rcases Nat.lt_or_ge (1 + K) P with hin | hout
      · rw [Nat.mod_eq_of_lt hin] at h1
        omega
      · rw [show 1 + K = P by omega, Nat.mod_self] at h1
        omega
    subst hone
    simp only [Nat.div_one] at hcells h1
    refine ⟨rfl, ?_⟩
    rcases Nat.lt_or_ge (1 + K) P with hin | hout
    · rw [Nat.mod_eq_of_lt hin] at h1
      have hunit : effGs % 2 ^ 64 = 1 := by omega
      refine .inl ⟨?_, hunit⟩
      by_contra hne
      -- the instance that wraps around
      have hwrap := hcells (P - K) (by omega)
      obtain ⟨q, hq⟩ : ∃ q, effGs = 2 ^ 64 * q + 1 := ⟨effGs / 2 ^ 64, by omega⟩
      rw [show P - K + K = P by omega, Nat.mod_self, hq,
        show (P - K) * (2 ^ 64 * q + 1) + K = 2 ^ 64 * ((P - K) * q) + (P - K + K) by ring,
        Nat.mul_add_mod, Nat.mod_eq_of_lt (by omega)] at hwrap
      omega
    · have hlast : 1 + K = P := by omega
      rw [hlast, Nat.mod_self] at h1
      have htwo : P = 2 := by
        by_contra hne
        have h2 := hcells 2 (by omega)
        rw [show 2 + K = 1 + P by omega, Nat.add_mod_right, Nat.mod_eq_of_lt hP] at h2
        omega
      exact .inr ⟨htwo, by omega, by omega⟩
  · rintro ⟨rfl, ⟨rfl, hunit⟩ | ⟨rfl, rfl, hlast⟩⟩ j hj
    · have hzero : isizeAsI32 0 = 0 := by decide
      obtain ⟨q, hq⟩ : ∃ q, effGs = 2 ^ 64 * q + 1 := ⟨effGs / 2 ^ 64, by omega⟩
      have hcast : isizeAsUsize 0 = 0 := by decide
      rw [if_neg one_ne_zero, Nat.div_one, hzero, hcast, add_zero, add_zero, hq,
        show j * (2 ^ 64 * q + 1) = 2 ^ 64 * (j * q) + j by ring, Nat.mul_add_mod,
        Nat.mod_eq_of_lt (by omega), Int.emod_eq_of_lt (by omega) (by omega), Int.toNat_natCast]
    · have hone : isizeAsI32 1 = 1 := by decide
      have hcast : isizeAsUsize 1 = 1 := by decide
      rw [if_neg one_ne_zero, Nat.div_one, hone, hcast]
      match j with
      | 0 =>
        rw [Nat.zero_mul]
        rfl
      | 1 =>
        rw [one_mul, hlast]
        rfl

namespace Compiled

variable {c : Compiled} {u v : ℕ} {p : Predecessor} {k : ℤ}

theorem factorOf_eq (id : ℕ) : c.graph.factorOf id = c.factor id := by
  unfold Graph.factorOf factor nodeAt
  cases c.graph.nodes[id]? <;> rfl

/-- The edge's reference is 1:1 with first index `k`. -/
abbrev IsOneToOne (c : Compiled) (u v : ℕ) (p : Predecessor) (k : ℤ) : Prop :=
  Graph.OneToOneRef c.graph (c.nodeAt v) u (c.graph.route c.range1to1Enabled (c.nodeAt v) u) p k

theorem fires_iff (hoffset : (c.graph.route c.range1to1Enabled (c.nodeAt v) u).oneToOneOffset = some k)
    {i j : ℕ} : (c.edge u v).Fires i j ↔ c.factor v % 2 ^ 32 ≠ 0 ∧
      (c.edge u v).passesFilter i = true ∧
        ((i - isizeAsI32 k) % ((c.factor v % 2 ^ 32 : ℕ) : ℤ)).toNat = j := by
  have hzero : (c.edge u v).succFactor ≠ 0 ↔ c.factor v % 2 ^ 32 ≠ 0 := by
    rw [edge_succFactor, Ne, ← UInt32.toNat_inj, asU32_toNat]
    rfl
  have hone : (c.edge u v).hasOneToOne = true := by
    simp [edge, SuccEdge.ofRoute, hoffset]
  have hindex : (c.edge u v).oneToOneOffset = isizeAsI32 k := by
    simp [edge, SuccEdge.ofRoute, hoffset]
  rw [SuccEdge.Fires, hzero, SuccEdge.oneToOneSuccIdx, if_pos hone, Option.some.injEq, hindex,
    edge_succFactor, asU32_toNat]

/-- Only instances below the narrowed factor are fired. -/
theorem factor_lt_of_onto
    (hoffset : (c.graph.route c.range1to1Enabled (c.nodeAt v) u).oneToOneOffset = some k)
    (hmany : 1 < c.factor v)
    (h : ∀ j < c.factor v, ∃ i < c.factor u, (c.edge u v).Fires i j) : c.factor v < 2 ^ 32 := by
  obtain ⟨i, -, hfires⟩ := h (c.factor v - 1) (by omega)
  obtain ⟨hne, -, hj⟩ := (fires_iff hoffset).mp hfires
  have hhigh := Int.emod_lt_of_pos (i - isizeAsI32 k) (b := (c.factor v % 2 ^ 32 : ℕ)) (by omega)
  omega

/-- A lone index has no filter in a successor of several instances. -/
theorem indexFilter_single (href : c.IsOneToOne u v p k) (hindexes : p.indexes = [k]) :
    p.indexFilter (c.graph.factorOf u) (c.nodeAt v).factor = none := by
  have hmany := href.many
  unfold Predecessor.indexFilter
  rw [hindexes]
  simp only [List.min?_singleton, List.max?_singleton, wrappingSub_of_le (le_refl (isizeAsUsize k)),
    href.plain]
  rw [if_neg]
  simp only [Option.isSome_none, Bool.false_eq_true, false_or, List.length_singleton]
  omega

theorem passesFilter_of_none
    (hfilter : (c.graph.route c.range1to1Enabled (c.nodeAt v) u).filter = none) (i : ℕ) :
    (c.edge u v).passesFilter i = true := by
  simp [SuccEdge.passesFilter, edge, SuccEdge.ofRoute, hfilter]

theorem map_singleton_eq_iff {o : Option ℕ} {i : ℕ} : o.map ([·]) = some [i] ↔ o = some i := by
  cases o <;> simp

theorem agree_single_iff (href : c.IsOneToOne u v p k) (hid : p.id = u)
    (hoffset : (c.graph.route c.range1to1Enabled (c.nodeAt v) u).oneToOneOffset = some k)
    (hk : -2 ^ 63 ≤ k ∧ k < 2 ^ 63) (hindexes : p.indexes = [k]) (hfactor : c.factor v = c.factor u) :
    c.FireFetchAgree u v p ↔
      PairsSingle (c.factor u) k (c.nodeAt v).groupSize (c.nodeAt u).groupSize := by
  have hmany : 1 < c.factor v := href.many
  by_cases hsize : c.factor v < 2 ^ 32
  · have hpass := passesFilter_of_none (href.filter.trans (indexFilter_single href hindexes))
    have hfires : ∀ i j, (c.edge u v).Fires i j ↔
        ((i - isizeAsI32 k) % (c.factor u : ℤ)).toNat = j := by
      intro i j
      rw [fires_iff hoffset, Nat.mod_eq_of_lt hsize, hfactor]
      exact ⟨fun h => h.2.2, fun h => ⟨by omega, hpass i, h⟩⟩
    have hgroup : (c.nodeAt p.id).groupSize.or
        (c.graph.route c.range1to1Enabled (c.nodeAt v) p.id).groupBy = (c.nodeAt u).groupSize := by
      rw [hid, href.groupBy, Option.or_none]
    have hfetch : ∀ j i, c.fetchResResults v p j i =
        (singleIndexDepIdx j k (c.factor u) (c.nodeAt v).groupSize (c.nodeAt u).groupSize).map
          ([·]) := by
      intro j i
      unfold fetchResResults
      dsimp only
      rw [hindexes, hgroup, hid]
    have honto : ∀ j < c.factor v, ∃ i < c.factor u, (c.edge u v).Fires i j := by
      intro j hj
      obtain ⟨i, -, hi, hturn⟩ := exists_emod_eq (isizeAsI32 k) 0 (hfactor ▸ hj)
      exact ⟨i, by omega, (hfires i j).mpr hturn⟩
    have hagree : c.FireFetchAgree u v p ↔ ∀ i < c.factor u,
        singleIndexDepIdx ((i - isizeAsI32 k) % (c.factor u : ℤ)).toNat k (c.factor u)
          (c.nodeAt v).groupSize (c.nodeAt u).groupSize = some i := by
      constructor
      · intro h i hi
        have hcell := h.fetched i hi _ ((hfires i _).mpr rfl)
        rwa [hfetch, map_singleton_eq_iff] at hcell
      · intro h
        refine ⟨fun i hi j hj => ?_, honto⟩
        rw [hfetch, map_singleton_eq_iff, ← (hfires i j).mp hj]
        exact h i hi
    rw [hagree, forall_turn_iff (isizeAsI32 k) fun j =>
      singleIndexDepIdx j k (c.factor u) (c.nodeAt v).groupSize (c.nodeAt u).groupSize]
    unfold PairsSingle
    rw [← hfactor]
    simp only [hsize, true_and]
    rw [hfactor]
    cases (c.nodeAt v).groupSize with
    | none => exact findPredIndex_turn_iff (by omega) (by omega) hk
    | some ngs =>
      cases (c.nodeAt u).groupSize with
      | some effGs => exact chunk_turn_iff (by omega) (by omega) hk
      | none =>
        -- a broadcast reads one cell for two instances
        refine iff_of_false (fun h => ?_) id
        have h0 := h 0 (by omega)
        have h1 := h 1 (by omega)
        simp only [singleIndexDepIdx] at h0 h1
        rw [h0, Option.some.injEq, toNat_emod_inj (by omega)] at h1
        have hle := Int.le_of_dvd (a := (c.factor u : ℤ)) (b := 1) one_pos
          (by simpa using (Int.dvd_neg.mpr h1))
        omega
  · exact iff_of_false (fun h => hsize (factor_lt_of_onto hoffset hmany h.onto))
      fun h => hsize (hfactor ▸ h.1)

/-! ### Ranges -/

theorem isizeAsI32_eq (k : ℤ) :
    isizeAsI32 k = if k % 2 ^ 32 < 2 ^ 31 then k % 2 ^ 32 else k % 2 ^ 32 - 2 ^ 32 := by
  rw [isizeAsI32, Int.bmod_def]
  rfl

/-- The filter of a range: its own instances, when the predecessor has more. -/
theorem indexFilter_range (href : c.IsOneToOne u v p k) (hlen : p.indexes.length = c.factor v)
    (hcont : isContiguous p.indexes = true) (hsize : c.factor v < 2 ^ 32) :
    p.indexFilter (c.graph.factorOf u) (c.nodeAt v).factor =
      if c.factor v < c.factor u then
        some (isizeAsUsize k, (isizeAsUsize (k + c.factor v - 1) + 1) % 2 ^ 64) else none := by
  have hmany : 1 < c.factor v := href.many
  obtain ⟨hmin, hmax⟩ := min?_of_isContiguous hcont href.head
  have hrange : (wrappingSub (isizeAsUsize (k + c.factor v - 1)) (isizeAsUsize k) + 1) % 2 ^ 64 =
      c.factor v := by
    unfold wrappingSub isizeAsUsize
    split <;> omega
  have hfactor : (c.nodeAt v).factor = c.factor v := rfl
  unfold Predecessor.indexFilter
  simp only [hmin, hmax, hlen, hrange, href.plain, hfactor, factorOf_eq]
  simp

theorem passesFilter_range (hfilter : (c.graph.route c.range1to1Enabled (c.nodeAt v) u).filter =
      some (isizeAsUsize k, (isizeAsUsize (k + c.factor v - 1) + 1) % 2 ^ 64)) (i : ℕ) :
    (c.edge u v).passesFilter i = true ↔ (k + c.factor v) % 2 ^ 32 = 2 ^ 32 - 1 ∨
      k % 2 ^ 32 ≤ i ∧ i < (k + c.factor v) % 2 ^ 32 := by
  have hstart : ((c.edge u v).filterStart.toNat : ℤ) = k % 2 ^ 32 := by
    simp only [edge, SuccEdge.ofRoute, hfilter, Option.map_some, Option.getD_some, asU32_toNat,
      isizeAsUsize]
    omega
  have hend : ((c.edge u v).filterEnd.toNat : ℤ) = (k + c.factor v) % 2 ^ 32 := by
    simp only [edge, SuccEdge.ofRoute, hfilter, Option.map_some, Option.getD_some, asU32_toNat,
      isizeAsUsize]
    omega
  have hsentinel : (c.edge u v).filterEnd = noFilter ↔
      (k + c.factor v) % 2 ^ 32 = 2 ^ 32 - 1 := by
    rw [← UInt32.toNat_inj, ← hend, show noFilter.toNat = 2 ^ 32 - 1 by decide]
    omega
  rw [SuccEdge.passesFilter, Bool.or_eq_true, decide_eq_true_eq, hsentinel, Bool.and_eq_true,
    decide_eq_true_eq, decide_eq_true_eq]
  omega

/-- A cell of a range by its declared index. -/
theorem remEuclid_eq_iff {P i : ℕ} (hi : i < P) (d : ℤ) :
    remEuclid d P = some i ↔ (P : ℤ) ∣ d - i := by
  have hP : 0 < P := by omega
  rw [remEuclid_pos hP, Option.some.injEq, ← toNat_emod_inj hP,
    Int.emod_eq_of_lt (a := (i : ℤ)) (by omega) (by omega), Int.toNat_natCast]

end Compiled

/-- Where the narrowed offset is the start of the filter, or the factor divides what narrowing takes
off it, the window is fired in order. -/
theorem turn_window {S t : ℕ} (ht : t < S) {k : ℤ}
    (hk : k % 2 ^ 32 < 2 ^ 31 ∨ S ∣ 2 ^ 32) :
    ((k % 2 ^ 32 + t - isizeAsI32 k) % (S : ℤ)).toNat = t := by
  rw [Compiled.isizeAsI32_eq]
  split
  · rw [show k % 2 ^ 32 + t - k % 2 ^ 32 = (t : ℤ) by ring,
      Int.emod_eq_of_lt (by omega) (by omega), Int.toNat_natCast]
  · next hhigh =>
    have hdvd : (S : ℤ) ∣ 2 ^ 32 := by exact_mod_cast hk.resolve_left hhigh
    rw [show k % 2 ^ 32 + t - (k % 2 ^ 32 - 2 ^ 32) = (t : ℤ) + 2 ^ 32 by ring, Int.add_emod,
      Int.emod_eq_zero_of_dvd hdvd, add_zero, Int.emod_emod,
      Int.emod_eq_of_lt (by omega) (by omega), Int.toNat_natCast]

/-- Elsewhere narrowing turns the window: its first instance goes to `r`, and instance 0 is fired by
the one `r` before the end. -/
theorem exists_turn_shift {S : ℕ} (hS : 0 < S) {k : ℤ} (hk : ¬ (k % 2 ^ 32 < 2 ^ 31 ∨ S ∣ 2 ^ 32)) :
    ∃ r, 0 < r ∧ r < S ∧ ((k % 2 ^ 32 + (0 : ℕ) - isizeAsI32 k) % (S : ℤ)).toNat = r ∧
      ((k % 2 ^ 32 + (S - r : ℕ) - isizeAsI32 k) % (S : ℤ)).toNat = 0 := by
  rw [not_or, not_lt] at hk
  obtain ⟨hhigh, hndvd⟩ := hk
  have hlt : 2 ^ 32 % S < S := Nat.mod_lt _ hS
  obtain ⟨q, hq⟩ : ∃ q, 2 ^ 32 = S * q + 2 ^ 32 % S := ⟨2 ^ 32 / S, (Nat.div_add_mod _ _).symm⟩
  have hpos : 0 < 2 ^ 32 % S := Nat.pos_of_ne_zero fun hzero => hndvd (Nat.dvd_of_mod_eq_zero hzero)
  generalize 2 ^ 32 % S = r at hlt hpos hq
  have hcast : (2 : ℤ) ^ 32 = S * q + r := by exact_mod_cast hq
  rw [Compiled.isizeAsI32_eq, if_neg (not_lt.mpr hhigh)]
  refine ⟨r, hpos, hlt, ?_, ?_⟩
  · rw [Nat.cast_zero, show k % 2 ^ 32 + 0 - (k % 2 ^ 32 - 2 ^ 32) = (r : ℤ) + S * q by
      rw [← add_comm _ (r : ℤ), ← hcast]; ring, Int.add_mul_emod_self_left,
      Int.emod_eq_of_lt (by omega) (by omega), Int.toNat_natCast]
  · rw [Nat.cast_sub hlt.le, show k % 2 ^ 32 + ((S : ℤ) - r) - (k % 2 ^ 32 - 2 ^ 32) = S * (q + 1) by
      linarith, Int.mul_emod_right]
    rfl

namespace Compiled

variable {c : Compiled} {u v : ℕ} {p : Predecessor} {k : ℤ}

/-- A narrow factor is fired as it is. -/
theorem fires_iff_of_lt
    (hoffset : (c.graph.route c.range1to1Enabled (c.nodeAt v) u).oneToOneOffset = some k)
    (hmany : 1 < c.factor v) (hsize : c.factor v < 2 ^ 32) {i j : ℕ} :
    (c.edge u v).Fires i j ↔ (c.edge u v).passesFilter i = true ∧
      ((i - isizeAsI32 k) % (c.factor v : ℤ)).toNat = j := by
  rw [fires_iff hoffset, Nat.mod_eq_of_lt hsize]
  exact ⟨fun h => h.2, fun h => ⟨by omega, h⟩⟩

/-- The resolver goes by the declared index: what the barrier or different factors make it do. -/
theorem fetched_declared_iff (href : c.IsOneToOne u v p k) (hid : p.id = u)
    (hlen : p.indexes.length = c.factor v) (hcont : isContiguous p.indexes = true)
    (hslow : ¬ (c.factor u = c.factor v ∧ (c.nodeAt v).hasBarrier = false)) {i j : ℕ}
    (hi : i < c.factor u) (hj : j < c.factor v) (t : ℕ) :
    c.fetchResResults v p j t = some [i] ↔ (c.factor u : ℤ) ∣ k + j - i := by
  rw [fetchResResults_of_length hlen href.many, map_singleton_eq_iff, perInstanceDepIdx, hid,
    if_neg hslow, getElem?_of_isContiguous hcont href.head (hlen.symm ▸ hj), Option.bind_some,
    remEuclid_eq_iff hi]

theorem agree_range_equal_iff (href : c.IsOneToOne u v p k) (hid : p.id = u)
    (hoffset : (c.graph.route c.range1to1Enabled (c.nodeAt v) u).oneToOneOffset = some k)
    (hlen : p.indexes.length = c.factor v) (hcont : isContiguous p.indexes = true)
    (hsize : c.factor v < 2 ^ 32) (hfactor : c.factor u = c.factor v) :
    c.FireFetchAgree u v p ↔
      ((c.nodeAt v).hasBarrier = true → (c.factor u : ℤ) ∣ k - isizeAsI32 k) := by
  have hmany : 1 < c.factor v := href.many
  have hpass := passesFilter_of_none (c := c) (u := u) (v := v) (by
    rw [href.filter, indexFilter_range href hlen hcont hsize, if_neg (by omega)])
  have hfires : ∀ {i j}, (c.edge u v).Fires i j ↔
      ((i - isizeAsI32 k) % (c.factor u : ℤ)).toNat = j := by
    intro i j
    rw [fires_iff_of_lt hoffset hmany hsize, hfactor]
    exact ⟨fun h => h.2, fun h => ⟨hpass i, h⟩⟩
  have honto : ∀ j < c.factor v, ∃ i < c.factor u, (c.edge u v).Fires i j := by
    intro j hj
    obtain ⟨i, -, hi, hturn⟩ := exists_emod_eq (isizeAsI32 k) 0 (hfactor.symm ▸ hj)
    exact ⟨i, by omega, hfires.mpr hturn⟩
  have hagree : c.FireFetchAgree u v p ↔ ∀ i < c.factor u,
      c.fetchResResults v p ((i - isizeAsI32 k) % (c.factor u : ℤ)).toNat i = some [i] := by
    refine ⟨fun h i hi => h.fetched i hi _ (hfires.mpr rfl), fun h => ⟨fun i hi j hj => ?_, honto⟩⟩
    rw [← hfires.mp hj]
    exact h i hi
  rw [hagree]
  cases hbar : (c.nodeAt v).hasBarrier with
  | false =>
    refine iff_of_true (fun i hi => ?_) nofun
    rw [fetchResResults_of_length hlen hmany, map_singleton_eq_iff, perInstanceDepIdx, hid,
      if_pos ⟨hfactor, hbar⟩, if_neg (by omega), Nat.mod_eq_of_lt hi]
  | true =>
    have hslow : ¬ (c.factor u = c.factor v ∧ (c.nodeAt v).hasBarrier = false) := by
      rw [hbar]
      exact fun h => Bool.noConfusion h.2
    have hcells : ∀ i < c.factor u,
        c.fetchResResults v p ((i - isizeAsI32 k) % (c.factor u : ℤ)).toNat i = some [i] ↔
          (c.factor u : ℤ) ∣ k - isizeAsI32 k := by
      intro i hi
      have hlow := Int.emod_nonneg (i - isizeAsI32 k) (b := c.factor u) (by omega)
      have hhigh := Int.emod_lt_of_pos (i - isizeAsI32 k) (b := c.factor u) (by omega)
      rw [fetched_declared_iff href hid hlen hcont hslow hi (by omega), Int.toNat_of_nonneg hlow,
        ← emod_eq_emod_iff_dvd, Int.add_emod, Int.emod_emod, ← Int.add_emod, emod_eq_emod_iff_dvd,
        show k + (i - isizeAsI32 k) - i = k - isizeAsI32 k by ring]
    constructor
    · intro h _
      exact (hcells 0 (by omega)).mp (h 0 (by omega))
    · intro h i hi
      exact (hcells i hi).mpr (h rfl)

theorem agree_range_wide_iff (href : c.IsOneToOne u v p k) (hid : p.id = u)
    (hoffset : (c.graph.route c.range1to1Enabled (c.nodeAt v) u).oneToOneOffset = some k)
    (hlen : p.indexes.length = c.factor v) (hcont : isContiguous p.indexes = true)
    (hsize : c.factor v < 2 ^ 32) (hwide : c.factor v < c.factor u) :
    c.FireFetchAgree u v p ↔
      k % 2 ^ 32 + c.factor v ≤ c.factor u ∧ k % 2 ^ 32 + c.factor v < 2 ^ 32 - 1 ∧
        (c.factor u : ℤ) ∣ k - k % 2 ^ 32 ∧ (k % 2 ^ 32 < 2 ^ 31 ∨ c.factor v ∣ 2 ^ 32) := by
  have hmany : 1 < c.factor v := href.many
  have hpass := passesFilter_range (c := c) (u := u) (v := v) (k := k) (by
    rw [href.filter, indexFilter_range href hlen hcont hsize, if_pos hwide])
  have hfires : ∀ {i j}, (c.edge u v).Fires i j ↔ (c.edge u v).passesFilter i = true ∧
      ((i - isizeAsI32 k) % (c.factor v : ℤ)).toNat = j := fires_iff_of_lt hoffset hmany hsize
  have hturn_lt : ∀ i : ℕ, ((i - isizeAsI32 k) % (c.factor v : ℤ)).toNat < c.factor v := by
    intro i
    have hlow := Int.emod_nonneg (i - isizeAsI32 k) (b := c.factor v) (by omega)
    have hhigh := Int.emod_lt_of_pos (i - isizeAsI32 k) (b := c.factor v) (by omega)
    omega
  have hcell : ∀ {i j} t, i < c.factor u → j < c.factor v →
      (c.fetchResResults v p j t = some [i] ↔ (c.factor u : ℤ) ∣ k + j - i) := fun t hi hj =>
    fetched_declared_iff href hid hlen hcont (fun h => by omega) hi hj t
  obtain ⟨s, hs⟩ : ∃ s : ℕ, (s : ℤ) = k % 2 ^ 32 := ⟨(k % 2 ^ 32).toNat, by omega⟩
  rw [← hs]
  constructor
  · intro h
    -- the read of an instance that drives the edge
    have hread : ∀ i < c.factor u, (c.edge u v).passesFilter i = true →
        (c.factor u : ℤ) ∣ k + ((i - isizeAsI32 k) % (c.factor v : ℤ)).toNat - i := fun i hi hdrives =>
      (hcell i hi (hturn_lt i)).mp (h.fetched i hi _ (hfires.mpr ⟨hdrives, rfl⟩))
    have hno : ¬ (c.factor u : ℤ) ∣ c.factor v := fun hdvd => by
      have hle := Int.le_of_dvd (by omega) hdvd
      omega
    have hsentinel : (k + c.factor v) % 2 ^ 32 ≠ 2 ^ 32 - 1 := by
      intro hsent
      -- without a filter two instances are sent to one
      have h0 := hread 0 (by omega) ((hpass 0).mpr (.inl hsent))
      have hS := hread (c.factor v) hwide ((hpass _).mpr (.inl hsent))
      rw [show ((c.factor v : ℕ) : ℤ) - isizeAsI32 k = ((0 : ℕ) : ℤ) - isizeAsI32 k + c.factor v by
        push_cast; ring, Int.add_emod_right] at hS
      have hdiff := Int.dvd_sub h0 hS
      refine hno ?_
      rwa [show ∀ x y : ℤ, x - (0 : ℕ) - (x - y) = y by intro x y; push_cast; ring] at hdiff
    have hdrive : ∀ i : ℕ, (c.edge u v).passesFilter i = true ↔
        s ≤ i ∧ (i : ℤ) < (k + c.factor v) % 2 ^ 32 := by
      intro i
      rw [hpass]
      omega
    have hroom : s + c.factor v ≤ min ((k + c.factor v) % 2 ^ 32).toNat (c.factor u) := by
      by_contra hshort
      refine not_onto_of_window_lt (by omega) (not_le.mp hshort)
        (fun i => ((i - isizeAsI32 k) % (c.factor v : ℤ)).toNat) fun j hj => ?_
      obtain ⟨i, hi, hfire⟩ := h.onto j hj
      obtain ⟨hdrives, hturn⟩ := hfires.mp hfire
      have hwindow := (hdrive i).mp hdrives
      exact ⟨i, hwindow.1, by omega, hturn⟩
    have hend : (s : ℤ) + c.factor v < 2 ^ 32 - 1 := by omega
    have hstep : ∀ t < c.factor v,
        (c.factor u : ℤ) ∣ k + ((s + t - isizeAsI32 k) % (c.factor v : ℤ)).toNat - (s + t) := by
      intro t ht
      have hcell' := hread (s + t) (by omega) ((hdrive _).mpr ⟨by omega, by omega⟩)
      rwa [Nat.cast_add] at hcell'
    refine ⟨by omega, hend, ?_⟩
    by_cases hturn : (s : ℤ) < 2 ^ 31 ∨ c.factor v ∣ 2 ^ 32
    · have hfirst := hstep 0 (by omega)
      rw [hs, turn_window (by omega) (hs ▸ hturn), ← hs] at hfirst
      simp only [Nat.cast_zero, add_zero] at hfirst
      exact ⟨hfirst, hturn⟩
    · -- narrowing turns the window: its first instance and the one sent to instance 0
      exfalso
      obtain ⟨r, hpos, hlt, hfirst, hlast⟩ := exists_turn_shift (S := c.factor v) (by omega)
        (hs ▸ hturn)
      have hread0 := hstep 0 (by omega)
      have hreadr := hstep (c.factor v - r) (by omega)
      rw [hs, hfirst] at hread0
      rw [hs, hlast, Nat.cast_sub hlt.le] at hreadr
      have hdiff := Int.dvd_sub hread0 hreadr
      refine hno ?_
      rwa [show k + (r : ℤ) - (k % 2 ^ 32 + (0 : ℕ)) -
        (k + ((0 : ℕ) : ℤ) - (k % 2 ^ 32 + ((c.factor v : ℤ) - r))) = c.factor v by
          push_cast
          ring] at hdiff
  · rintro ⟨hin, hend, hdvd, hturn⟩
    have hwindow : ∀ i, (c.edge u v).passesFilter i = true ↔ s ≤ i ∧ i < s + c.factor v := by
      intro i
      rw [hpass]
      omega
    have hfire : ∀ t < c.factor v, (c.edge u v).Fires (s + t) t := by
      intro t ht
      refine hfires.mpr ⟨(hwindow _).mpr ⟨by omega, by omega⟩, ?_⟩
      rw [Nat.cast_add, hs]
      exact turn_window ht (hs ▸ hturn)
    refine ⟨fun i hi j hj => ?_, fun j hj => ⟨s + j, by omega, hfire j hj⟩⟩
    obtain ⟨hdrives, hij⟩ := hfires.mp hj
    obtain ⟨hlow, hhigh⟩ := (hwindow i).mp hdrives
    obtain ⟨t, rfl⟩ : ∃ t, i = s + t := ⟨i - s, by omega⟩
    obtain rfl : t = j := (hfires.mp (hfire t (by omega))).2.symm.trans hij
    rw [hcell (s + t) hi (by omega), Nat.cast_add, show k + t - (s + t) = k - s by ring]
    exact hdvd

/-- When firing and fetching name the same pairs on a 1:1 edge with first index `k`. -/
def PairsCells (c : Compiled) (u v : ℕ) (p : Predecessor) (k : ℤ) : Prop :=
  if p.indexes.length = 1 then
    PairsSingle (c.factor u) k (c.nodeAt v).groupSize (c.nodeAt u).groupSize
  else PairsRange (c.factor u) (c.factor v) k (c.nodeAt v).hasBarrier

theorem agree_range_iff (href : c.IsOneToOne u v p k) (hid : p.id = u)
    (hoffset : (c.graph.route c.range1to1Enabled (c.nodeAt v) u).oneToOneOffset = some k)
    (hlen : p.indexes.length = c.factor v) (hcont : isContiguous p.indexes = true) :
    c.FireFetchAgree u v p ↔ PairsRange (c.factor u) (c.factor v) k (c.nodeAt v).hasBarrier := by
  have hmany : 1 < c.factor v := href.many
  by_cases hsize : c.factor v < 2 ^ 32
  · rcases Nat.lt_trichotomy (c.factor u) (c.factor v) with hshort | hequal | hwide
    · -- fewer instances complete than the successor has
      refine iff_of_false (fun h => ?_) fun h => by rcases h.2 with ⟨h, -⟩ | ⟨h, -⟩ <;> omega
      refine @not_onto_of_window_lt (c.factor v) 0 (c.factor u) (by omega) (by omega)
        (fun i => ((i - isizeAsI32 k) % (c.factor v : ℤ)).toNat) fun j hj => ?_
      obtain ⟨i, hi, hfire⟩ := h.onto j hj
      exact ⟨i, Nat.zero_le i, hi, ((fires_iff_of_lt hoffset hmany hsize).mp hfire).2⟩
    · rw [agree_range_equal_iff href hid hoffset hlen hcont hsize hequal, PairsRange]
      constructor
      · intro h
        exact ⟨hsize, .inl ⟨hequal, h⟩⟩
      · rintro ⟨-, ⟨-, h⟩ | ⟨hwide, -⟩⟩
        · exact h
        · omega
    · rw [agree_range_wide_iff href hid hoffset hlen hcont hsize hwide, PairsRange]
      constructor
      · intro h
        exact ⟨hsize, .inr ⟨hwide, h⟩⟩
      · rintro ⟨-, ⟨hequal, -⟩ | ⟨-, h⟩⟩
        · omega
        · exact h
  · exact iff_of_false (fun h => hsize (factor_lt_of_onto hoffset hmany h.onto)) fun h => hsize h.1

end Compiled

/-- For every edge with a 1:1 offset and the reference that its arguments make, whatever the factors
and the signed indexes, every instance that is fired reads the instance that fired it and all
instances are fired, if and only if the offset, the filter and the form of the reference fit. -/
theorem one_to_one_agrees_iff (c : Compiled) (u v : ℕ) {k : ℤ}
    (hoffset : (c.graph.route c.range1to1Enabled (c.nodeAt v) u).oneToOneOffset = some k) {a : Arg}
    {p : Predecessor} (ha : a ∈ (c.nodeAt v).args) (hp : a.predecessor = some p) (hid : p.id = u)
    (hisize : ∀ d ∈ p.indexes, -2 ^ 63 ≤ d ∧ d < 2 ^ 63) :
    c.FireFetchAgree u v p ↔ c.PairsCells u v p k := by
  have href := Graph.oneToOneRef hoffset ha hp hid
  have hmany := href.many
  have hk := hisize k (List.mem_of_head? href.head)
  unfold Compiled.PairsCells
  rcases href.shape with ⟨hone, hfactor⟩ | ⟨hlen, hcont⟩
  · rw [if_pos hone]
    obtain ⟨d, hd⟩ := List.length_eq_one_iff.mp hone
    obtain rfl : d = k := by simpa [hd] using href.head
    exact Compiled.agree_single_iff href hid hoffset hk hd (hfactor.trans (Compiled.factorOf_eq u))
  · rw [if_neg (by omega)]
    exact Compiled.agree_range_iff href hid hoffset hlen hcont

theorem one_to_one_agrees_iff_at_equalPair :
    (Compiled.ofNodes equalPair).FireFetchAgree 0 1 ⟨0, [0, 1, 2, 3], none⟩ ↔
      (Compiled.ofNodes equalPair).PairsCells 0 1 ⟨0, [0, 1, 2, 3], none⟩ 0 :=
  one_to_one_agrees_iff (Compiled.ofNodes equalPair) 0 1 (by decide)
    (a := ⟨.res, false, some ⟨0, [0, 1, 2, 3], none⟩⟩) (by decide) rfl rfl (by decide)

/-- A node of factor 4 that reads the instances around the start of a source of factor 8. -/
def aroundStart : List Node :=
  [⟨false, 0, [], 8, none, false⟩,
    ⟨false, 1, [⟨.res, false, some ⟨0, [-2, -1, 0, 1], none⟩⟩], 4, none, false⟩]

theorem builtFrom_aroundStart : BuiltFrom aroundStart (Compiled.ofNodes aroundStart) :=
  builtFrom_ofNodes (by decide) (by decide)

/-- The narrowed filter of a range from -2 lets no instance of the source pass. -/
theorem one_to_one_never_fires :
    ¬ ∀ nodes c, BuiltFrom nodes c → ∀ u, ∀ v ∈ c.graph.successors u, ∀ k,
      (c.graph.route c.range1to1Enabled (c.nodeAt v) u).oneToOneOffset = some k →
        ∀ a ∈ (c.nodeAt v).args, ∀ p, a.isResult = true → a.predecessor = some p → p.id = u →
          ParsedIndexes p.indexes → c.FireFetchAgree u v p := by
  intro h
  have hagree := h aroundStart _ builtFrom_aroundStart 0 1 (by decide) (-2) (by decide)
    ⟨.res, false, some ⟨0, [-2, -1, 0, 1], none⟩⟩ (by decide) ⟨0, [-2, -1, 0, 1], none⟩ rfl rfl rfl
    (by decide)
  obtain ⟨i, hi, -, hpass, -⟩ := hagree.onto 0 (by decide)
  revert i
  decide

end Tomii
