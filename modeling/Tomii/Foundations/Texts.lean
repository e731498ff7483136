import Mathlib.Algebra.GroupWithZero.Nat
import Mathlib.Data.List.DropRight
import Mathlib.Data.List.Forall2
import Mathlib.Tactic.Common

/-! # Texts

Characters in a row, as printers and parsers of literals see them: trimming, splitting at a
separator, decimal numerals. -/
namespace Tomii
set_option autoImplicit false
set_option maxHeartbeats 250000

abbrev Text := List Char

instance : LawfulBEq Text := inferInstance

/-! ## White space -/

/-- The Unicode property `White_Space`. -/
def isWhitespace (c : Char) : Bool :=
  (9 ≤ c.toNat && c.toNat ≤ 13) || c.toNat == 0x20 || c.toNat == 0x85 || c.toNat == 0xA0 ||
    c.toNat == 0x1680 || (0x2000 ≤ c.toNat && c.toNat ≤ 0x200A) || c.toNat == 0x2028 ||
    c.toNat == 0x2029 || c.toNat == 0x202F || c.toNat == 0x205F || c.toNat == 0x3000

def trim (s : Text) : Text := (s.dropWhile isWhitespace).rdropWhile isWhitespace

theorem trim_of_forall {s : Text} (h : ∀ c ∈ s, isWhitespace c = false) : trim s = s := by
  have hfront : s.dropWhile isWhitespace = s := by
    cases s with
    | nil => rfl
    | cons c s =>
      rw [List.dropWhile_cons_of_neg]
      rw [h c List.mem_cons_self]
      exact Bool.false_ne_true
  rw [trim, hfront, List.rdropWhile_eq_self_iff]
  intro hne
  rw [h _ (List.getLast_mem hne)]
  exact Bool.false_ne_true

theorem trim_singleton_whitespace {c : Char} (h : isWhitespace c = true) : trim [c] = [] := by
  rw [trim, List.dropWhile_cons_of_pos h]
  rfl

/-! ## Separators -/

section Separators

variable {α : Type} [DecidableEq α] (sep : α)

theorem length_splitOn (xs : List α) : (xs.splitOn sep).length = xs.count sep + 1 := by
  induction xs with
  | nil => rfl
  | cons x xs ih =>
    rw [List.splitOn_cons_eq_if_modifyHead, List.count_cons]
    split
    · rw [List.length_cons, ih]
    · rw [List.length_modifyHead, ih, Nat.add_zero]

theorem count_intercalate (pieces : List (List α)) (h : pieces ≠ []) :
    ([sep].intercalate pieces).count sep + 1 =
      (pieces.map (List.count sep)).sum + pieces.length := by
  induction pieces with
  | nil => exact absurd rfl h
  | cons piece pieces ih =>
    cases pieces with
    | nil => simp
    | cons next pieces =>
      rw [List.intercalate_cons_cons, List.count_append, List.count_append, List.count_singleton_self,
        List.map_cons, List.sum_cons, List.length_cons]
      have := ih (List.cons_ne_nil _ _)
      omega

/-- A join is split into as many pieces as it was made of only when none of them has a separator. -/
theorem not_mem_of_length_splitOn {pieces : List (List α)} (h : pieces ≠ [])
    (hlength : (([sep].intercalate pieces).splitOn sep).length = pieces.length) :
    ∀ piece ∈ pieces, sep ∉ piece := by
  have hcount := count_intercalate sep pieces h
  rw [length_splitOn, hcount] at hlength
  have hzero : (pieces.map (List.count sep)).sum = 0 := by omega
  intro piece hpiece
  exact List.count_eq_zero.mp
    (List.sum_eq_zero_iff_forall_eq_nat.mp hzero _ (List.mem_map_of_mem hpiece))

end Separators

/-! ## Decimal numerals -/

def showInt (n : ℤ) : Text :=
  if n < 0 then '-' :: Nat.toDigits 10 n.natAbs else Nat.toDigits 10 n.natAbs

def readNat (s : Text) : Option ℕ :=
  if s ≠ [] ∧ s.all Char.isDigit = true then some (Nat.ofDigitChars 10 s 0) else none

/-- A sign is optional; a minus sign stands only where negative numbers can be read. -/
def readInt (signed : Bool) : Text → Option ℤ
  | '+' :: digits => (readNat digits).map Int.ofNat
  | '-' :: digits => if signed then (readNat digits).map fun n => -Int.ofNat n else none
  | digits => (readNat digits).map Int.ofNat

theorem readNat_toDigits (n : ℕ) : readNat (Nat.toDigits 10 n) = some n := by
  have hdigits : (Nat.toDigits 10 n).all Char.isDigit = true :=
    List.all_eq_true.mpr fun c hc => Nat.isDigit_of_mem_toDigits (by decide) (by decide) hc
  unfold readNat
  rw [if_pos ⟨Nat.toDigits_ne_nil, hdigits⟩, Nat.ofDigitChars_ten_toDigits]

theorem readInt_toDigits (signed : Bool) (n : ℕ) :
    readInt signed (Nat.toDigits 10 n) = some (n : ℤ) := by
  have hdigits : ∀ c ∈ Nat.toDigits 10 n, c.isDigit = true := fun c hc =>
    Nat.isDigit_of_mem_toDigits (by decide) (by decide) hc
  have hread := readNat_toDigits n
  generalize Nat.toDigits 10 n = s at hdigits hread
  unfold readInt
  split
  · exact absurd (hdigits '+' List.mem_cons_self) (by decide)
  · exact absurd (hdigits '-' List.mem_cons_self) (by decide)
  · rw [hread]
    rfl

theorem readInt_showInt {signed : Bool} {n : ℤ} (h : signed = true ∨ 0 ≤ n) :
    readInt signed (showInt n) = some n := by
  unfold showInt
  by_cases hneg : n < 0
  · have hsigned : signed = true := h.resolve_right (by omega)
    rw [if_pos hneg, readInt, if_pos hsigned, readNat_toDigits, Option.map_some]
    exact congrArg some (by simp only [Int.ofNat_eq_natCast]; omega)
  · rw [if_neg hneg, readInt_toDigits]
    exact congrArg some (by omega)

/-- What numerals are made of. -/
theorem mem_showInt {n : ℤ} {c : Char} (h : c ∈ showInt n) : c = '-' ∨ c.isDigit = true := by
  have hdigits : c ∈ Nat.toDigits 10 n.natAbs → c.isDigit = true := fun hc =>
    Nat.isDigit_of_mem_toDigits (by decide) (by decide) hc
  unfold showInt at h
  split at h
  · exact (List.mem_cons.mp h).imp_right hdigits
  · exact .inr (hdigits h)

theorem isWhitespace_of_isDigit {c : Char} (h : c.isDigit = true) : isWhitespace c = false := by
  have hrange : 48 ≤ c.toNat ∧ c.toNat ≤ 57 := by
    unfold Char.isDigit at h
    rw [Bool.and_eq_true, decide_eq_true_iff, decide_eq_true_iff] at h
    exact h
  unfold isWhitespace
  simp only [Bool.or_eq_false_iff, Bool.and_eq_false_iff, decide_eq_false_iff_not, beq_eq_false_iff_ne]
  omega

/-! ## Results in a row -/

theorem bind_eq_ok_iff {α β ε : Type} {x : Except ε α} {f : α → Except ε β} {b : β} :
    x >>= f = .ok b ↔ ∃ a, x = .ok a ∧ f a = .ok b := by
  cases x with
  | error e => exact ⟨fun h => (nomatch h), fun ⟨_, h, _⟩ => (nomatch h)⟩
  | ok a => exact ⟨fun h => ⟨a, rfl, h⟩, fun ⟨_, ha, h⟩ => by cases ha; exact h⟩

theorem forall₂_left {α β : Type} {R : α → β → Prop} {xs : List α} {ys : List β}
    (h : List.Forall₂ R xs ys) : ∀ x ∈ xs, ∃ y, R x y := by
  induction h with
  | nil => exact fun x hx => absurd hx List.not_mem_nil
  | cons hxy _ ih => exact List.forall_mem_cons.mpr ⟨⟨_, hxy⟩, ih⟩

/-- All results are there when each of them is. -/
theorem mapM_eq_ok_iff {α β ε : Type} {f : α → Except ε β} {xs : List α} {ys : List β} :
    xs.mapM f = .ok ys ↔ List.Forall₂ (fun x y => f x = .ok y) xs ys := by
  induction xs generalizing ys with
  | nil =>
    rw [List.mapM_nil, List.forall₂_nil_left_iff]
    exact ⟨fun h => (Except.ok.inj h).symm, fun h => h ▸ rfl⟩
  | cons x xs ih =>
    rw [List.mapM_cons, List.forall₂_cons_left_iff]
    cases hx : f x with
    | error e => exact ⟨fun h => (nomatch h), fun ⟨_, _, h, _⟩ => (nomatch h)⟩
    | ok y =>
      cases hxs : xs.mapM f with
      | error e =>
        refine ⟨fun h => (nomatch h), fun ⟨_, zs, _, hzs, _⟩ => ?_⟩
        rw [ih.mpr hzs] at hxs
        cases hxs
      | ok zs =>
        refine ⟨fun h => ⟨y, zs, rfl, ih.mp hxs, (Except.ok.inj h).symm⟩, ?_⟩
        rintro ⟨y', zs', hy, hzs, rfl⟩
        obtain rfl := Except.ok.inj hy
        rw [ih.mpr hzs] at hxs
        obtain rfl := Except.ok.inj hxs
        rfl

/-- What was joined from results in a row is read as these results when no piece has a separator. -/
theorem mapM_splitOn_intercalate {α β ε : Type} [DecidableEq α] (sep : α)
    {f : List α → Except ε β} {pieces : List (List α)} {ys : List β}
    (hlength : pieces.length = ys.length) :
    (([sep].intercalate pieces).splitOn sep).mapM f = .ok ys ↔
      pieces ≠ [] ∧ List.Forall₂ (fun piece y => sep ∉ piece ∧ f piece = .ok y) pieces ys := by
  rw [mapM_eq_ok_iff, List.forall₂_and_left]
  constructor
  · intro hread
    have hsplit : (([sep].intercalate pieces).splitOn sep).length = pieces.length :=
      hread.length_eq.trans hlength.symm
    have hne : pieces ≠ [] := by
      rintro rfl
      rw [length_splitOn] at hsplit
      exact absurd hsplit (Nat.succ_ne_zero _)
    have hmem := not_mem_of_length_splitOn sep hne hsplit
    rw [List.splitOn_intercalate sep hmem hne] at hread
    exact ⟨hne, hmem, hread⟩
  · rintro ⟨hne, hmem, hread⟩
    rw [List.splitOn_intercalate sep hmem hne]
    exact hread

end Tomii
