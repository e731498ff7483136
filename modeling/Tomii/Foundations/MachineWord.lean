import Mathlib.Data.Nat.Bitwise
import Mathlib.Tactic.Ring

/-! Machine words: the casts of a 64-bit target, saturating 32-bit arithmetic,
and the packing of two 32-bit halves into one 64-bit word. -/
namespace Tomii
set_option autoImplicit false
set_option maxHeartbeats 250000

/-! ## Casts -/

/-- `n as u32` on a machine-sized count. -/
def asU32 (n : ℕ) : UInt32 := UInt32.ofNat n

/-- `i as usize` on a signed index: two's complement in 64 bits. -/
def isizeAsUsize (i : ℤ) : ℕ := (i % 2 ^ 64).toNat

/-- `a - b` on machine-sized counts in a build without overflow checks. -/
def wrappingSub (a b : ℕ) : ℕ := if b ≤ a then a - b else a + 2 ^ 64 - b

/-- `a + b` on machine-sized counts. -/
def wrappingAdd (a b : ℕ) : ℕ := (a + b) % 2 ^ 64

/-- `a * b` on machine-sized counts. -/
def wrappingMul (a b : ℕ) : ℕ := a * b % 2 ^ 64

theorem foldl_wrappingAdd (xs : List ℕ) (a : ℕ) :
    xs.foldl wrappingAdd (a % 2 ^ 64) = (a + xs.sum) % 2 ^ 64 := by
  induction xs generalizing a with
  | nil => rw [List.foldl_nil, List.sum_nil, Nat.add_zero]
  | cons x xs ih =>
    have hfirst : wrappingAdd (a % 2 ^ 64) x = (a + x) % 2 ^ 64 := Nat.mod_add_mod ..
    rw [List.foldl_cons, hfirst, ih, List.sum_cons, Nat.add_assoc]

theorem wrappingSub_of_le {a b : ℕ} (h : b ≤ a) : wrappingSub a b = a - b := if_pos h

@[simp] theorem asU32_toNat (n : ℕ) : (asU32 n).toNat = n % 2 ^ 32 := by
  simp [asU32]

theorem asU32_toNat_of_lt {n : ℕ} (h : n < 2 ^ 32) : (asU32 n).toNat = n := by
  rw [asU32_toNat, Nat.mod_eq_of_lt h]

theorem isizeAsUsize_of_nonneg {i : ℤ} (h0 : 0 ≤ i) (h1 : i < 2 ^ 64) :
    isizeAsUsize i = i.toNat := by
  rw [isizeAsUsize, Int.emod_eq_of_lt h0 h1]

theorem isizeAsUsize_lt (i : ℤ) : isizeAsUsize i < 2 ^ 64 := by
  unfold isizeAsUsize
  omega

/-! ## Saturating arithmetic -/

def saturatingSub (a b : UInt32) : UInt32 := if b ≤ a then a - b else 0

def saturatingAdd (a b : UInt32) : UInt32 :=
  if a.toNat + b.toNat < 2 ^ 32 then a + b else UInt32.ofNat (2 ^ 32 - 1)

@[simp] theorem saturatingSub_toNat (a b : UInt32) :
    (saturatingSub a b).toNat = a.toNat - b.toNat := by
  unfold saturatingSub
  split
  · next h => exact UInt32.toNat_sub_of_le _ _ h
  · next h =>
    have hlt : a.toNat < b.toNat := by
      simpa [UInt32.le_iff_toNat_le] using h
    simp
    omega

@[simp] theorem saturatingAdd_toNat (a b : UInt32) :
    (saturatingAdd a b).toNat = min (a.toNat + b.toNat) (2 ^ 32 - 1) := by
  unfold saturatingAdd
  split
  · next h =>
    rw [UInt32.toNat_add, Nat.mod_eq_of_lt h]
    omega
  · next h =>
    have hmax : (UInt32.ofNat (2 ^ 32 - 1)).toNat = 2 ^ 32 - 1 := by decide
    rw [hmax]
    omega

theorem ofNat_add_sub (p : UInt64) (m n : ℕ) :
    p - UInt64.ofNat (m + n) = p - UInt64.ofNat m - UInt64.ofNat n := by
  rw [UInt64.ofNat_add]
  grind

/-! ## Packing two halves -/

/-- `((hi as u64) << 32) | (lo as u64)`. -/
def packHalves (hi lo : UInt32) : UInt64 := (hi.toUInt64 <<< 32) ||| lo.toUInt64

/-- `(w >> 32) as u32`. -/
def highHalf (w : UInt64) : UInt32 := (w >>> 32).toUInt32

/-- `w as u32`. -/
def lowHalf (w : UInt64) : UInt32 := w.toUInt32

theorem packHalves_toNat (hi lo : UInt32) :
    (packHalves hi lo).toNat = 2 ^ 32 * hi.toNat + lo.toNat := by
  have hhi := hi.toNat_lt
  have hlo := lo.toNat_lt
  have hshift : (hi.toUInt64 <<< 32).toNat = 2 ^ 32 * hi.toNat := by
    simp only [UInt64.toNat_shiftLeft, UInt32.toNat_toUInt64]
    have h32 : (32 : UInt64).toNat % 64 = 32 := by decide
    rw [h32, Nat.shiftLeft_eq, Nat.mod_eq_of_lt (by omega), Nat.mul_comm]
  rw [packHalves, UInt64.toNat_or, hshift, UInt32.toNat_toUInt64]
  exact (Nat.two_pow_add_eq_or_of_lt hlo hi.toNat).symm

@[simp] theorem highHalf_packHalves (hi lo : UInt32) : highHalf (packHalves hi lo) = hi := by
  have hhi := hi.toNat_lt
  have hlo := lo.toNat_lt
  apply UInt32.toNat_inj.mp
  have h32 : (32 : UInt64).toNat % 64 = 32 := by decide
  rw [highHalf, UInt64.toNat_toUInt32, UInt64.toNat_shiftRight, h32, packHalves_toNat,
    Nat.shiftRight_eq_div_pow]
  omega

@[simp] theorem lowHalf_packHalves (hi lo : UInt32) : lowHalf (packHalves hi lo) = lo := by
  have hlo := lo.toNat_lt
  apply UInt32.toNat_inj.mp
  rw [lowHalf, UInt64.toNat_toUInt32, packHalves_toNat]
  omega

/-! ## Bytes of a word, the lowest first -/

/-- `to_le_bytes` of a word of so many bytes. -/
def toLeBytes : ℕ → ℕ → List UInt8
  | 0, _ => []
  | width + 1, n => UInt8.ofNat n :: toLeBytes width (n / 2 ^ 8)

/-- `from_le_bytes` -/
def fromLeBytes : List UInt8 → ℕ
  | [] => 0
  | b :: bs => b.toNat + 2 ^ 8 * fromLeBytes bs

@[simp] theorem length_toLeBytes (width n : ℕ) : (toLeBytes width n).length = width := by
  induction width generalizing n with
  | zero => rfl
  | succ width ih => exact congrArg (· + 1) (ih _)

theorem fromLeBytes_toLeBytes (width n : ℕ) :
    fromLeBytes (toLeBytes width n) = n % 2 ^ (8 * width) := by
  induction width generalizing n with
  | zero =>
    rw [Nat.mul_zero, Nat.pow_zero, Nat.mod_one]
    rfl
  | succ width ih =>
    rw [toLeBytes, fromLeBytes, ih, UInt8.toNat_ofNat', Nat.mul_succ, Nat.add_comm (8 * width),
      Nat.pow_add, Nat.mod_mul]

end Tomii
