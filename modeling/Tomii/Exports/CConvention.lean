import Tomii.Exports.CWrapper
import Mathlib.Data.List.Forall2

/-! # The C calling convention

What a wrapper owes the declaration it was written for, in the terms of the declaration: one value
for each parameter, and a return value for the result. -/
namespace Tomii.CHeader
open Tomii.Exports (PrimKind)
set_option autoImplicit false
set_option maxHeartbeats 250000

/-! ## The declaration -/

inductive CClass where
  | scalar (k : PrimKind)
  | pointer
  | void
  | aggregate
  deriving DecidableEq, Repr

def CSymType.cClass : CSymType → CClass
  | .prim k => .scalar k
  | _ => .pointer

section Reference

variable (other : Text → CClass) (ann : Annotation)

/-- The class of a type. `other` tells it of the types that only the header knows. -/
def cClass (t : Text) : CClass :=
  if t = "void".toList then .void
  else
    match valueTypes.lookup t with
    | some k => .scalar k
    | none => if isPointerType t then .pointer else other t

/-- A length is told by its name, a count by standing behind the `void**` of a variadic function. -/
def isCompanion (p q : RawParam) : Bool :=
  if ann.IsArray p then q.name = lenParam p.name
  else if p.cType = "void**".toList then
    ann.variadic && isSizeType q.cType && !decide (ann.IsArray q)
  else false

/-- The parameters that have arguments of their own, `prev` the one before where it may still have a
companion. -/
def ownParams : Option RawParam → List RawParam → List RawParam
  | _, [] => []
  | prev, p :: rest =>
    if prev.any (isCompanion ann · p) then ownParams none rest
    else p :: ownParams (some p) rest

def typeValue (t : Text) (arg : ArgValue) : Option CValue :=
  match cClass other t with
  | .scalar k => arg.asScalar k
  | .pointer => if isStrType t then arg.asString else arg.asHandle.map CValue.pointer
  | _ => none

/-- The only argument. -/
def sole : List ArgValue → Option ArgValue
  | [arg] => some arg
  | _ => none

def soleVec (p : RawParam) (mine : List ArgValue) : Option (ℕ × ℕ) :=
  (sole mine).bind (ArgValue.asVec (cElemRustType (normaliseElementType p.cType)))

/-- The value of a parameter whose arguments are `mine`. -/
def ownValue (p : RawParam) (mine : List ArgValue) : Option CValue :=
  if ann.IsArray p then (soleVec p mine).map fun v => .pointer v.1
  else if p.cType = "void**".toList then (mine.mapM ArgValue.asHandle).map CValue.pointers
  else (sole mine).bind (typeValue other p.cType)

/-- The number of elements that the arguments of a parameter stand for. -/
def ownLength (p : RawParam) (mine : List ArgValue) : Option CValue :=
  if ann.IsArray p then (soleVec p mine).map fun v => .scalar .usize v.2
  else some (.scalar .usize mine.length)

/-- A `void**` has all the arguments that the parameters behind it leave. -/
def ownCount (p : RawParam) (rest : List RawParam) (args : List ArgValue) : ℕ :=
  if ¬ann.IsArray p ∧ p.cType = "void**".toList then
    args.length - (ownParams ann (some p) rest).length
  else 1

/-- The value of each parameter, in the order of the declaration. -/
def expectedValues : Option (RawParam × List ArgValue) → List ArgValue → List RawParam →
    Option (List CValue)
  | _, _, [] => some []
  | prev, args, p :: rest =>
    if (prev.map Prod.fst).any (isCompanion ann · p) then do
      let len ← prev.bind fun owner => ownLength ann owner.1 owner.2
      let behind ← expectedValues none args rest
      some (len :: behind)
    else do
      let n := ownCount ann p rest args
      let value ← ownValue other ann p (args.take n)
      let behind ← expectedValues (some (p, args.take n)) (args.drop n) rest
      some (value :: behind)

/-- The return value for the result `r` of a call with `values`. -/
def expectedReturn (d : CDeclaration) (values : List CValue) (r : ℤ) : Option Returned :=
  if d.retType = "char*".toList then some (.text r)
  else
    match cClass other d.retType with
    | .void => some .none
    | .scalar k => some (.scalar k r)
    | .pointer =>
      if isPointerType d.retType then
        match ann.outLen with
        | some len =>
          ((((d.params.map RawParam.name).zip values).lookup len).bind CValue.length?).map
            (Returned.vec (cElemRustType (normaliseElementType d.retType)) r)
        | none => some (.handle r)
      else some (.handle r)
    | .aggregate => none

/-- A text with a NUL in it is no C string. -/
def NulFree (args : List ArgValue) : Prop := ∀ s, .string s ∈ args → '\x00' ∉ s

/-- What the wrapper of a declaration owes it. -/
structure FollowsConvention (toUppercase : Text → Text) (bindable : Text → Bool) (d : CDeclaration) : Prop where
  params : ∀ piece ∈ d.pieces, (splitCParam piece).isSome = true
  types : (buildCSymType (d.entry ann)).params.map CSymType.cClass =
    d.params.map fun p => cClass other p.cType
  arguments : (consumed (d.entry ann).autoParams (some 0) (d.entry ann).cmParams).map
    (fun s => s.2.name) = (ownParams ann none d.params).map RawParam.name
  wrapper : ∃ program, (renderCEntryWrapper toUppercase (d.entry ann)).compile bindable = some program ∧
    (∀ args, NulFree args → program.call args = expectedValues other ann none args d.params) ∧
    ∀ args values r, expectedValues other ann none args d.params = some values →
      program.returned args r = expectedReturn other ann d values r

/-! ## When it is kept -/

/-- A type that is classified as what it is. -/
def KnownType (t : Text) : Prop :=
  t ≠ "void".toList ∧
    (valueTypes.lookup t = none → isPointerType t = false → other t = .scalar .i32)

/-- Each array has its length behind it. A `void**` has its count behind it, is the last, and the
function is variadic; behind an array of type `void**` such a function has no `size_t` of its own. -/
inductive Paired : Bool → List RawParam → Prop where
  | nil {seen : Bool} : Paired seen []
  | plain {seen : Bool} {p : RawParam} {rest : List RawParam} (harray : ¬ann.IsArray p)
      (hslice : p.cType ≠ "void**".toList) (htype : KnownType other p.cType)
      (hkept : ¬((seen && ann.variadic) = true ∧ isSizeType p.cType = true))
      (hrest : Paired seen rest) : Paired seen (p :: rest)
  | array {seen : Bool} {p q : RawParam} {rest : List RawParam} (harray : ann.IsArray p)
      (hpointer : cClass other p.cType = .pointer) (hname : q.name = lenParam p.name)
      (hlen : cClass other q.cType = .scalar .usize)
      (hrest : Paired (seen || p.cType = "void**".toList) rest) : Paired seen (p :: q :: rest)
  | variadic {seen : Bool} {p q : RawParam} (harray : ¬ann.IsArray p)
      (hslice : p.cType = "void**".toList) (hcount : isCompanion ann p q = true) : Paired seen [p, q]

/-- The names that the lines of a parameter bind. -/
def CmParam.boundNames (p : CmParam) : List Text :=
  match p.kind with
  | .primitive _ => [p.name]
  | .strRef => [cStringName p.name, stringName p.name]
  | .opaquePtr => [ptrName p.name]
  | .arrayPtr _ len => [ptrName p.name, len]
  | .mutArrayPtr _ len => [len]
  | .sliceCmTypes => [handlesName]

/-- The names that the call reads for it. -/
def CmParam.readNames (p : CmParam) : List Text :=
  match p.kind with
  | .primitive _ => [p.name]
  | .strRef => [cStringName p.name]
  | .opaquePtr => [ptrName p.name]
  | .arrayPtr _ len => [ptrName p.name, len]
  | .mutArrayPtr _ len => [len]
  | .sliceCmTypes => [handlesName]

def CmParam.isMutArray (p : CmParam) : Bool :=
  match p.kind with
  | .mutArrayPtr _ _ => true
  | _ => false

def RawParam.kept (p : RawParam) : CmParam := ⟨p.name, kindOf ann p⟩

def CDeclaration.own (d : CDeclaration) : List CmParam :=
  (ownParams ann none d.params).map (RawParam.kept ann)

/-- No name is bound again before it is read. -/
def Unshadowed (own : List CmParam) : Prop :=
  own.Pairwise fun p q => argsName ∉ p.boundNames ∧ ∀ name ∈ p.readNames, name ∉ q.boundNames

/-- The call stands in a closure over `v` that reads `args` once more. -/
structure ClosureOk (own : List CmParam) : Prop where
  one : own.Pairwise fun p q => ¬(p.isMutArray = true ∧ q.isMutArray = true)
  args : ∀ p ∈ own, argsName ∉ p.boundNames
  vec : ∀ p ∈ own, vecName ∉ p.readNames

/-- A variable of type `usize`. -/
def CmParam.isLength (p : CmParam) (name : Text) : Prop :=
  (p.kind = .primitive .usize ∧ p.name = name) ∨ p.kind.lenParam? = some name

def FreeOk (toUppercase : Text → Text) (d : CDeclaration) (freeFn : Option Text) : Prop :=
  ∀ f, freeFn = some f → symStaticName toUppercase f ≠ symStaticName toUppercase d.fnName

/-- The result can be handed on. -/
def ResultOk (toUppercase : Text → Text) (d : CDeclaration) : Prop :=
  match classifyCReturn d.retType ann with
  | .void => True
  | .primitive k => cClass other d.retType = .scalar k
  | .opaquePtr => True
  | .allocatedArray _ len freeFn =>
    (len ≠ rawName ∧ ∃ p ∈ d.own ann, p.isLength len) ∧ FreeOk toUppercase d freeFn
  | .allocatedString freeFn => FreeOk toUppercase d freeFn

/-- The declarations whose wrappers are right. -/
structure Conventional (toUppercase : Text → Text) (bindable : Text → Bool) (d : CDeclaration) : Prop where
  params : ∀ piece ∈ d.pieces, (splitCParam piece).isSome = true
  paired : Paired other ann false d.params
  bindable : ∀ p ∈ d.own ann, ∀ name ∈ p.boundNames, bindable name = true
  unshadowed : Unshadowed (d.own ann)
  closure : (∃ p ∈ d.own ann, p.isMutArray = true) →
    ClosureOk (d.own ann) ∧ cClass other d.retType = .void
  result : (∀ p ∈ d.own ann, p.isMutArray = false) → ResultOk other ann toUppercase d

end Reference

end Tomii.CHeader
