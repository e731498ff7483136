import Tomii.Exports.Signature

/-! # The companion of an exported function (`tomii-macro/src/lib.rs`)

`#[tomii_export]` emits a function over `CmTypes` next to the function it stands on. -/
namespace Tomii.Exports
set_option autoImplicit false
set_option maxHeartbeats 250000

def hasVariadicAttr (attr : List TokenTree) : Bool :=
  attr.any fun token =>
    match token with
    | .ident name => name = "variadic".toList
    | _ => false

/-! ## Parameters -/

def numericNames : List Text :=
  ["bool".toList, "i8".toList, "i16".toList, "i32".toList, "i64".toList, "i128".toList,
    "u8".toList, "u16".toList, "u32".toList, "u64".toList, "u128".toList, "f32".toList,
    "f64".toList, "usize".toList, "isize".toList]

def isPrimitiveOrString : Ty → Bool
  | .path _ [segment] => segment.ident ∈ numericNames ++ ["char".toList, "String".toList]
  | _ => false

def vecElementType : Ty → Option Ty
  | .path _ [.mk ident (.angleBracketed [.type elem])] =>
    if ident = "Vec".toList then some elem else none
  | _ => none

inductive ParamKind where
  | passthrough
  | sharedRef (ty : Ty)
  | mutRef (ty : Ty)
  | ownedNonPrim (ty : Ty)
  | variadic (elem : Ty)

def classify : Ty → ParamKind
  | .reference _ mutable elem =>
    if refIsStr elem then .passthrough else if mutable then .mutRef elem else .sharedRef elem
  | ty => if isPrimitiveOrString ty then .passthrough else .ownedNonPrim ty

structure Param where
  name : Text
  origTy : Ty
  kind : ParamKind

def ItemFn.classified (func : ItemFn) : List Param :=
  func.params.map fun p => ⟨p.1, p.2, classify p.2⟩

/-- The last parameter of a variadic function is `Vec<T>`. -/
def markVariadic (func : ItemFn) (params : List Param) : Except Text (List Param) :=
  match params.getLast? with
  | none => .ok params
  | some last =>
    match vecElementType last.origTy with
    | some elem => .ok (params.dropLast ++ [⟨last.name, last.origTy, .variadic elem⟩])
    | none => .error ("#[tomii_export(variadic)]: last parameter of `".toList ++ func.ident ++
        "` must be `Vec<T>`".toList)

def Param.slot (p : Param) : Slot :=
  match p.kind with
  | .passthrough => .written p.origTy.elided
  | .variadic _ => .cmTypesSlice
  | _ => .cmTypes

/-! ## Results -/

inductive RetKind where
  | void
  | primitive (variant : Text)
  | stringOwned
  | cmTypesDirect
  | other

def returnVariants : List (Text × Text) :=
  [("bool".toList, "Bool".toList), ("i8".toList, "I8".toList), ("i16".toList, "I16".toList),
    ("i32".toList, "I32".toList), ("i64".toList, "I64".toList), ("i128".toList, "I128".toList),
    ("u8".toList, "U8".toList), ("u16".toList, "U16".toList), ("u32".toList, "U32".toList),
    ("u64".toList, "U64".toList), ("u128".toList, "U128".toList), ("f32".toList, "F32".toList),
    ("f64".toList, "F64".toList), ("usize".toList, "Usize".toList),
    ("isize".toList, "Isize".toList), ("char".toList, "Char".toList)]

def classifyReturn : Ty → RetKind
  | .path _ [segment] =>
    match returnVariants.lookup segment.ident with
    | some variant => .primitive variant
    | none =>
      if segment.ident = "String".toList then .stringOwned
      else if segment.ident = "CmTypes".toList then .cmTypesDirect
      else .other
  | .path _ segments =>
    match segments.getLast? with
    | some last => if last.ident = "CmTypes".toList then .cmTypesDirect else .other
    | none => .other
  | _ => .other

def ReturnType.retKind : ReturnType → RetKind
  | .default => .void
  | .type ty => classifyReturn ty

/-! ## The body -/

inductive Closure where
  | withAny
  | withAnyMut
  | withAnyClone

/-- The body of a companion, from the call of the original function outwards. -/
inductive Body where
  | call (ret : RetKind)
  | access (closure : Closure) (name : Text) (ty : Ty) (message : Text) (body : Body)
  | collect (name : Text) (elem : Ty) (numeric : Bool) (message : Text) (body : Body)

/-- `CmTypes::from_any` gives the variant `Any`. A function that returns `CmTypes` may return any. -/
def RetKind.Gives : RetKind → Text → Prop
  | .void, variant => variant = "None".toList
  | .primitive v, variant => variant = v
  | .stringOwned, variant => variant = "String".toList
  | .cmTypesDirect, _ => True
  | .other, variant => variant = "Any".toList

/-- A closure hands on what its body returns. -/
def Body.Returns : Body → Text → Prop
  | .call ret, variant => ret.Gives variant
  | .access _ _ _ _ body, variant => body.Returns variant
  | .collect _ _ _ _ body, variant => body.Returns variant

def isNumeric : Ty → Bool
  | .path _ [segment] => segment.ident ∈ numericNames
  | _ => false

def Param.wrap (fnName : Text) (p : Param) (body : Body) : Body :=
  let message := fnName ++ ": failed to access ".toList ++ p.name
  match p.kind with
  | .sharedRef ty => .access .withAny p.name ty message body
  | .mutRef ty => .access .withAnyMut p.name ty message body
  | .ownedNonPrim ty => .access .withAnyClone p.name ty message body
  | .passthrough => body
  | .variadic _ => body

/-- The elements are collected before any closure is entered. -/
def Param.collect (fnName : Text) (p : Param) (body : Body) : Body :=
  match p.kind with
  | .variadic elem =>
    if isNumeric elem then
      .collect p.name elem true
        (fnName ++ ": expected numeric CmTypes variant for variadic element".toList) body
    else
      .collect p.name elem false (fnName ++ ": failed to extract variadic element".toList) body
  | _ => body

structure Companion where
  name : Text
  params : List (Text × Slot)
  body : Body

def buildCompanion (func : ItemFn) (variadic : Bool) : Except Text Companion := do
  let params ← if variadic then markVariadic func func.classified else .ok func.classified
  let inner := Body.call func.output.retKind
  let body := params.foldr (Param.wrap func.ident) inner
  .ok ⟨func.ident ++ "_cm".toList, params.map fun p => (p.name, p.slot),
    params.foldr (Param.collect func.ident) body⟩

/-- The type of a pointer to the companion, as Rust writes it. -/
def Companion.symType (c : Companion) : Text :=
  "fn(".toList ++ ", ".toList.intercalate (c.params.map fun p => p.2.text) ++ ") -> CmTypes".toList

/-! ## What the body returns -/

theorem Param.returns_wrap (fnName : Text) (p : Param) (body : Body) :
    (p.wrap fnName body).Returns = body.Returns := by
  funext variant
  unfold Param.wrap
  cases p.kind <;> rfl

theorem Param.returns_collect (fnName : Text) (p : Param) (body : Body) :
    (p.collect fnName body).Returns = body.Returns := by
  funext variant
  unfold Param.collect
  cases p.kind with
  | variadic elem => dsimp only; split <;> rfl
  | _ => rfl

/-- The closures do not change the result. -/
theorem returns_body (func : ItemFn) (params : List Param) :
    (params.foldr (Param.collect func.ident)
      (params.foldr (Param.wrap func.ident) (.call func.output.retKind))).Returns =
      func.output.retKind.Gives := by
  have hcollect (body : Body) (ps : List Param) :
      (ps.foldr (Param.collect func.ident) body).Returns = body.Returns := by
    induction ps with
    | nil => rfl
    | cons p ps ih => rw [List.foldr_cons, Param.returns_collect, ih]
  have hwrap (body : Body) (ps : List Param) :
      (ps.foldr (Param.wrap func.ident) body).Returns = body.Returns := by
    induction ps with
    | nil => rfl
    | cons p ps ih => rw [List.foldr_cons, Param.returns_wrap, ih]
  rw [hcollect, hwrap]
  rfl

end Tomii.Exports
