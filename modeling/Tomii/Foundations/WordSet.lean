import Mathlib.Data.Nat.Bitwise

/-! # A 64-bit word as a set of positions -/
namespace Tomii
set_option autoImplicit false
set_option maxHeartbeats 250000

/-- `1u64 << i` -/
def wordBit (i : ℕ) : UInt64 := 1 <<< UInt64.ofNat i

/-- `word & (1u64 << i) != 0` -/
def wordHas (word : UInt64) (i : ℕ) : Bool := word &&& wordBit i != 0

/-- `word | (1u64 << i)` -/
def wordInsert (word : UInt64) (i : ℕ) : UInt64 := word ||| wordBit i

/-- `word & !(1u64 << i)` -/
def wordErase (word : UInt64) (i : ℕ) : UInt64 := word &&& ~~~ wordBit i

theorem getLsbD_wordBit {i : ℕ} (hi : i < 64) (j : ℕ) :
    (wordBit i).toBitVec.getLsbD j = decide (j = i) := by
  have hshift : (wordBit i).toBitVec = 1#64 <<< i := by
    apply BitVec.eq_of_toNat_eq
    have hmod : i % 64 = i := Nat.mod_eq_of_lt hi
    simp [wordBit, hmod]
  rw [hshift, BitVec.getLsbD_shiftLeft]
  by_cases hji : j = i
  · subst hji
    simp [hi]
  · by_cases hlt : j < i
    · simp [hlt, hji]
    · have hne : ¬ j - i = 0 := by omega
      simp [hji, hne]

theorem wordHas_eq_getLsbD {i : ℕ} (hi : i < 64) (word : UInt64) :
    wordHas word i = word.toBitVec.getLsbD i := by
  have hzero : word &&& wordBit i = 0 ↔ word.toBitVec.getLsbD i = false := by
    rw [← UInt64.toBitVec_inj, UInt64.toBitVec_and, BitVec.eq_of_getLsbD_eq_iff]
    constructor
    · intro h
      simpa [getLsbD_wordBit hi] using h i hi
    · intro h j _
      by_cases hji : j = i
      · subst hji
        simp [h]
      · simp [getLsbD_wordBit hi, hji]
  rw [wordHas, Bool.eq_iff_iff, bne_iff_ne, ne_eq, hzero, Bool.not_eq_false]

@[simp] theorem wordHas_zero (i : ℕ) : wordHas 0 i = false := by
  simp [wordHas]

theorem wordHas_insert {i j : ℕ} (hi : i < 64) (hj : j < 64) (word : UInt64) :
    wordHas (wordInsert word i) j = (wordHas word j || decide (j = i)) := by
  simp [wordHas_eq_getLsbD hj, wordInsert, getLsbD_wordBit hi]

theorem wordHas_erase {i j : ℕ} (hi : i < 64) (hj : j < 64) (word : UInt64) :
    wordHas (wordErase word i) j = (wordHas word j && !decide (j = i)) := by
  rw [wordHas_eq_getLsbD hj, wordHas_eq_getLsbD hj, wordErase, UInt64.toBitVec_and,
    UInt64.toBitVec_not, BitVec.getLsbD_and, BitVec.getLsbD_not, getLsbD_wordBit hi]
  simp [hj]

/-! ## Several positions at once -/

theorem wordHas_or {i : ℕ} (hi : i < 64) (a b : UInt64) :
    wordHas (a ||| b) i = (wordHas a i || wordHas b i) := by
  simp [wordHas_eq_getLsbD hi]

theorem wordHas_and_not {i : ℕ} (hi : i < 64) (a b : UInt64) :
    wordHas (a &&& ~~~ b) i = (wordHas a i && !wordHas b i) := by
  simp [wordHas_eq_getLsbD hi, hi]

theorem word_and_eq_zero (a b : UInt64) :
    a &&& b = 0 ↔ ∀ i < 64, wordHas a i = true → wordHas b i = false := by
  rw [← UInt64.toBitVec_inj, UInt64.toBitVec_and, BitVec.eq_of_getLsbD_eq_iff]
  refine forall_congr' fun i => forall_congr' fun hi => ?_
  rw [wordHas_eq_getLsbD hi, wordHas_eq_getLsbD hi, BitVec.getLsbD_and]
  cases a.toBitVec.getLsbD i <;> cases b.toBitVec.getLsbD i <;> simp

/-- The positions of a word. -/
def wordElements (word : UInt64) : List ℕ := (List.range 64).filter (wordHas word)

theorem mem_wordElements {word : UInt64} {i : ℕ} :
    i ∈ wordElements word ↔ i < 64 ∧ wordHas word i = true := by
  simp [wordElements]

theorem wordElements_nodup (word : UInt64) : (wordElements word).Nodup :=
  List.nodup_range.filter _

/-- `(u64::MAX >> (64 - len)) << start` -/
def wordRun (start len : ℕ) : UInt64 :=
  (UInt64.ofNat (2 ^ 64 - 1) >>> UInt64.ofNat (64 - len)) <<< UInt64.ofNat start

theorem wordHas_run {start len i : ℕ} (hstart : start < 64) (hpos : 0 < len) (hlen : len < 64)
    (hi : i < 64) : wordHas (wordRun start len) i = decide (start ≤ i ∧ i < start + len) := by
  have hword : (wordRun start len).toBitVec = (BitVec.allOnes 64 >>> (64 - len)) <<< start := by
    apply BitVec.eq_of_toNat_eq
    have hs : start % 64 = start := Nat.mod_eq_of_lt hstart
    have hl : (64 - len) % 64 = 64 - len := Nat.mod_eq_of_lt (by omega)
    simp [wordRun, hs, hl]
  rw [wordHas_eq_getLsbD hi, hword, BitVec.getLsbD_shiftLeft, BitVec.getLsbD_ushiftRight,
    BitVec.getLsbD_allOnes]
  by_cases hle : start ≤ i
  · have hlt : ¬ i < start := by omega
    simp only [hi, hlt, hle, decide_true, decide_false, Bool.not_false, Bool.true_and, true_and]
    rw [decide_eq_decide]
    omega
  · have hlt : i < start := by omega
    simp [hlt, hle]

end Tomii
