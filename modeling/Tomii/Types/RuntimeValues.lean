import Mathlib.Data.List.Basic

/-! # Values at run time (`CmTypes`)

What kernels receive and return: fourteen scalar variants, and the variants that hold a shared
allocation or a tag of the graph. -/
namespace Tomii
set_option autoImplicit false
set_option maxHeartbeats 250000

/-- `CmTypes`; floats are their bit patterns, `usize` has 64 bits and `α` are allocations. -/
inductive CmTypes (α : Type) where
  | bool (v : Bool)
  | i8 (v : Int8)
  | i16 (v : Int16)
  | i32 (v : Int32)
  | i64 (v : Int64)
  | u8 (v : UInt8)
  | u16 (v : UInt16)
  | u32 (v : UInt32)
  | u64 (v : UInt64)
  | f32 (bits : UInt32)
  | f64 (bits : UInt64)
  | char (v : Char)
  | usize (v : UInt64)
  | isize (v : Int64)
  | i128 (a : α)
  | u128 (a : α)
  | string (a : α)
  | complex32 (a : α)
  | complex64 (a : α)
  | vecCmt (a : α)
  | ref (objId : ℕ)
  | res (nodeId : ℕ)
  | dep (nodeId : ℕ)
  | barrier (a : α)
  | none
  | init
  | any (a : α)
  | anySliced (a : α)
  | vecAny (a : α)
  | bytes (a : α)
  | anyHeld (a : α)
deriving DecidableEq

namespace CmTypes

variable {α : Type}

/-! ## Inline encoding (`encode_inline`, `decode_inline`) -/

/-- `TAG_BOXED` -/
def tagBoxed : UInt8 := 255

/-- `encode_inline`: a tag from 1 to 14 and the bits of a scalar; signed values are extended. -/
def encodeInline : CmTypes α → Option (UInt8 × UInt64)
  | .f64 bits => some (1, bits)
  | .f32 bits => some (2, bits.toUInt64)
  | .i64 v => some (3, v.toUInt64)
  | .u64 v => some (4, v)
  | .i32 v => some (5, v.toInt64.toUInt64)
  | .u32 v => some (6, v.toUInt64)
  | .i16 v => some (7, v.toInt64.toUInt64)
  | .u16 v => some (8, v.toUInt64)
  | .i8 v => some (9, v.toInt64.toUInt64)
  | .u8 v => some (10, v.toUInt64)
  | .bool v => some (11, v.toUInt64)
  | .usize v => some (12, v)
  | .isize v => some (13, v.toUInt64)
  | .char v => some (14, v.val.toUInt64)
  | _ => Option.none

/-- `char::from_u32(val as u32).unwrap_or('\0')` -/
def charOfBits (val : UInt64) : Char :=
  if h : val.toUInt32.isValidChar then ⟨val.toUInt32, h⟩ else Char.ofNat 0

/-- `decode_inline`; any other tag is `unreachable!`. -/
def decodeInline (tag : UInt8) (val : UInt64) : Option (CmTypes α) :=
  match tag.toNat with
  | 1 => some (.f64 val)
  | 2 => some (.f32 val.toUInt32)
  | 3 => some (.i64 val.toInt64)
  | 4 => some (.u64 val)
  | 5 => some (.i32 val.toUInt32.toInt32)
  | 6 => some (.u32 val.toUInt32)
  | 7 => some (.i16 val.toUInt16.toInt16)
  | 8 => some (.u16 val.toUInt16)
  | 9 => some (.i8 val.toUInt8.toInt8)
  | 10 => some (.u8 val.toUInt8)
  | 11 => some (.bool (val != 0))
  | 12 => some (.usize val)
  | 13 => some (.isize val.toInt64)
  | 14 => some (.char (charOfBits val))
  | _ => Option.none

theorem charOfBits_char (v : Char) : charOfBits v.val.toUInt64 = v := by
  have hbits : v.val.toUInt64.toUInt32 = v.val := UInt32.toUInt32_toUInt64 v.val
  unfold charOfBits
  rw [dif_pos (by rw [hbits]; exact v.valid)]
  exact Char.ext hbits

theorem encodeInline_tag {v : CmTypes α} {tag : UInt8} {val : UInt64}
    (h : encodeInline v = some (tag, val)) : tag ≠ 0 ∧ tag ≠ tagBoxed := by
  cases v <;> simp only [encodeInline, Option.some.injEq, Prod.mk.injEq, reduceCtorEq] at h <;>
    (obtain ⟨rfl, -⟩ := h; exact ⟨by decide, by decide⟩)

/-- Truncation undoes sign extension. -/
theorem i8_extended (v : Int8) : v.toInt64.toUInt64.toUInt8.toInt8 = v := by
  have htrunc : v.toInt64.toUInt64.toUInt8.toInt8 = v.toInt64.toInt8 :=
    Int8.toBitVec.inj
      (@BitVec.signExtend_eq_setWidth_of_le 64 v.toInt64.toBitVec 8 (by decide)).symm
  rw [htrunc, Int8.toInt8_toInt64]

theorem i16_extended (v : Int16) : v.toInt64.toUInt64.toUInt16.toInt16 = v := by
  have htrunc : v.toInt64.toUInt64.toUInt16.toInt16 = v.toInt64.toInt16 :=
    Int16.toBitVec.inj
      (@BitVec.signExtend_eq_setWidth_of_le 64 v.toInt64.toBitVec 16 (by decide)).symm
  rw [htrunc, Int16.toInt16_toInt64]

theorem i32_extended (v : Int32) : v.toInt64.toUInt64.toUInt32.toInt32 = v := by
  have htrunc : v.toInt64.toUInt64.toUInt32.toInt32 = v.toInt64.toInt32 :=
    Int32.toBitVec.inj
      (@BitVec.signExtend_eq_setWidth_of_le 64 v.toInt64.toBitVec 32 (by decide)).symm
  rw [htrunc, Int32.toInt32_toInt64]

/-- Every inline value decodes to itself. -/
theorem decode_encodeInline {v : CmTypes α} {tag : UInt8} {val : UInt64}
    (h : encodeInline v = some (tag, val)) : decodeInline tag val = some v := by
  cases v <;> simp only [encodeInline, Option.some.injEq, Prod.mk.injEq, reduceCtorEq] at h <;>
    obtain ⟨rfl, rfl⟩ := h
  case char v => exact congrArg (fun c => some (CmTypes.char c)) (charOfBits_char v)
  case bool v => cases v <;> rfl
  all_goals simp [decodeInline, i8_extended, i16_extended, i32_extended]

end CmTypes

end Tomii
