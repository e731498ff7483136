import Tomii.Exports.Signature
import Mathlib.Data.List.Infix

/-! # The converter's view of an exported function (`tomii-converter/src/lib.rs`)

The entries of Rust sources: what a function is called under, and how the generated wrapper takes its
arguments apart. -/
namespace Tomii.Exports
set_option autoImplicit false
set_option maxHeartbeats 250000

/-! ## Types -/

inductive PrimKind where
  | bool
  | i8 | i16 | i32 | i64 | i128
  | u8 | u16 | u32 | u64 | u128
  | f32 | f64
  | usize | isize
  | char
  deriving DecidableEq, Repr

namespace PrimKind

def variantName : PrimKind → Text
  | bool => "Bool".toList
  | i8 => "I8".toList
  | i16 => "I16".toList
  | i32 => "I32".toList
  | i64 => "I64".toList
  | i128 => "I128".toList
  | u8 => "U8".toList
  | u16 => "U16".toList
  | u32 => "U32".toList
  | u64 => "U64".toList
  | u128 => "U128".toList
  | f32 => "F32".toList
  | f64 => "F64".toList
  | usize => "Usize".toList
  | isize => "Isize".toList
  | char => "Char".toList

def rustType : PrimKind → Text
  | bool => "bool".toList
  | i8 => "i8".toList
  | i16 => "i16".toList
  | i32 => "i32".toList
  | i64 => "i64".toList
  | i128 => "i128".toList
  | u8 => "u8".toList
  | u16 => "u16".toList
  | u32 => "u32".toList
  | u64 => "u64".toList
  | u128 => "u128".toList
  | f32 => "f32".toList
  | f64 => "f64".toList
  | usize => "usize".toList
  | isize => "isize".toList
  | char => "char".toList

def all : List PrimKind :=
  [bool, i8, i16, i32, i64, i128, u8, u16, u32, u64, u128, f32, f64, usize, isize, char]

end PrimKind

def primKindFromStr (name : Text) : Option PrimKind :=
  PrimKind.all.find? fun k => k.rustType = name

def isPrimitiveIdent (name : Text) : Bool := (primKindFromStr name).isSome

/-- The last segment of a path. -/
def typePathIdent : Ty → Option Text
  | .path _ [segment] => some segment.ident
  | .path _ segments => segments.getLast?.map PathSegment.ident
  | _ => none

/-- `type_path_ident(ty).unwrap_or_default()`. -/
def typeName (ty : Ty) : Text := (typePathIdent ty).getD []

def refIsCmTypes (elem : Ty) : Bool := typePathIdent elem = some "CmTypes".toList

def refIsSliceCmTypes : Ty → Bool
  | .slice elem => typePathIdent elem = some "CmTypes".toList
  | _ => false

def refIsVecCmTypes : Ty → Bool
  | .path _ [.mk ident (.angleBracketed [.type inner])] =>
    ident = "Vec".toList && typePathIdent inner = some "CmTypes".toList
  | _ => false

/-! ## Parameters and results -/

/-- The kinds of Rust entries. -/
inductive CmParamKind where
  | cmTypesRef
  | primitive (k : PrimKind)
  | strRef
  | ownedString
  | vecCmTypes
  | sliceCmTypes
  deriving DecidableEq, Repr

inductive CmRet where
  | void
  | cmTypes
  | primitive (k : PrimKind)
  | ownedString
  deriving DecidableEq, Repr

def classifyCmParam : Ty → CmParamKind
  | .reference _ _ elem =>
    if refIsStr elem then .strRef
    else if refIsCmTypes elem then .cmTypesRef
    else if refIsSliceCmTypes elem then .sliceCmTypes
    else if refIsVecCmTypes elem then .vecCmTypes
    else .cmTypesRef
  | .path leadingColon segments =>
    let name := typeName (.path leadingColon segments)
    match primKindFromStr name with
    | some k => .primitive k
    | none => if name = "String".toList then .ownedString else .cmTypesRef
  | _ => .cmTypesRef

def classifyCmReturn : ReturnType → CmRet
  | .default => .void
  | .type ty =>
    let name := typeName ty
    if name = "CmTypes".toList then .cmTypes
    else if name = "String".toList then .ownedString
    else
      match primKindFromStr name with
      | some k => .primitive k
      | none => .cmTypes

def inferCmParamKind : Ty → CmParamKind
  | .reference _ _ elem => if refIsStr elem then .strRef else .cmTypesRef
  | .path leadingColon segments =>
    let name := typeName (.path leadingColon segments)
    if isPrimitiveIdent name ∨ name = "String".toList then
      if name = "String".toList then .ownedString
      else
        match primKindFromStr name with
        | some k => .primitive k
        | none => .cmTypesRef
    else .cmTypesRef
  | _ => .cmTypesRef

/-- Companions return `CmTypes` whatever the original function returns. -/
def inferCmReturn : ReturnType → CmRet
  | .default => .cmTypes
  | .type ty => if typeName ty = "CmTypes".toList then .cmTypes else .cmTypes

def retHintFromCmRet : CmRet → Option Text
  | .void => some "None".toList
  | .primitive k => some k.variantName
  | .ownedString => some "String".toList
  | .cmTypes => none

def retHintFromOriginal : ReturnType → Option Text
  | .default => some "None".toList
  | .type ty => do
    let name ← typePathIdent ty
    match primKindFromStr name with
    | some k => some k.variantName
    | none =>
      if name = "String".toList then some "String".toList
      else if name = "CmTypes".toList then none
      else some "Any".toList

/-! ## Entries -/

def hasAttr (attrs : List Attribute) (name : Text) : Bool :=
  attrs.any fun a => a.path.getLast? = some name

/-- The text of the attribute shows `variadic`, in whatever token. -/
def hasVariadicExport (attrs : List Attribute) : Bool :=
  attrs.any fun a =>
    a.path.getLast? = some "tomii_export".toList &&
      match a.content with
      | .list tokens => decide ("variadic".toList <:+: TokenTree.texts tokens)
      | _ => false

structure CmParam where
  name : Text
  kind : CmParamKind
  deriving DecidableEq, Repr

structure ExportedFn where
  cmName : Text
  registryKey : Text
  cmParams : List CmParam
  cmRet : CmRet
  retVariantHint : Option Text
  deriving DecidableEq, Repr

/-- The last parameter of a variadic function takes all arguments that are left. -/
def markSlice (params : List CmParam) : List CmParam :=
  match params.getLast? with
  | none => params
  | some last => params.dropLast ++ [⟨last.name, .sliceCmTypes⟩]

def tryExtract (func : ItemFn) : Option ExportedFn :=
  if hasAttr func.attrs "no_mangle".toList then
    let cmRet := classifyCmReturn func.output
    some {
      cmName := func.ident
      registryKey := ("_cm".toList.isSuffixOf? func.ident).getD func.ident
      cmParams := func.params.map fun p => ⟨p.1, classifyCmParam p.2⟩
      cmRet := cmRet
      retVariantHint := retHintFromCmRet cmRet }
  else if hasAttr func.attrs "tomii_export".toList then
    let params := func.params.map fun p => ⟨p.1, inferCmParamKind p.2⟩
    some {
      cmName := func.ident ++ "_cm".toList
      registryKey := func.ident
      cmParams := if hasVariadicExport func.attrs then markSlice params else params
      cmRet := inferCmReturn func.output
      retVariantHint := retHintFromOriginal func.output }
  else none

/-- What a parameter asks of its argument. -/
def CmParamKind.argspec : CmParamKind → Text
  | primitive k => k.variantName
  | strRef => "String".toList
  | ownedString => "String".toList
  | cmTypesRef => "*".toList
  | vecCmTypes => "...".toList
  | sliceCmTypes => "...".toList

/-- `entry_argspec`, which Rust entries always have. -/
def entryArgspec (entry : ExportedFn) : List Text := entry.cmParams.map fun p => p.kind.argspec

def CmParamKind.symType : CmParamKind → Text
  | cmTypesRef => "&CmTypes".toList
  | primitive k => k.rustType
  | strRef => "&str".toList
  | ownedString => "String".toList
  | vecCmTypes => "&Vec<CmTypes>".toList
  | sliceCmTypes => "&[CmTypes]".toList

def CmRet.symType : CmRet → Text
  | void => []
  | cmTypes => " -> CmTypes".toList
  | primitive k => " -> ".toList ++ k.rustType
  | ownedString => " -> String".toList

def buildSymType (entry : ExportedFn) : Text :=
  "fn(".toList ++ ", ".toList.intercalate (entry.cmParams.map fun p => p.kind.symType) ++
    ")".toList ++ entry.cmRet.symType

/-- The type that the wrapper takes a parameter to have. -/
def CmParamKind.slot : CmParamKind → Slot
  | cmTypesRef => .cmTypes
  | primitive k => .written (.bare k.rustType)
  | strRef => .written (.reference none false (.bare "str".toList))
  | ownedString => .written (.bare "String".toList)
  | vecCmTypes => .cmTypesVec
  | sliceCmTypes => .cmTypesSlice

theorem CmParamKind.symType_eq (kind : CmParamKind) : kind.symType = kind.slot.text := by
  cases kind with
  | primitive k => cases k <;> rfl
  | _ => rfl

end Tomii.Exports
