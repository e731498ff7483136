import Tomii.Exports.CHeader

/-! # The wrapper of a C function (`tomii-converter/src/lib.rs`)

What `render_c_entry_wrapper` writes, statement by statement, and what the written text does: names
are looked up where they are read, and a text that does not compile does nothing. -/
namespace Tomii.CHeader
open Tomii.Exports (PrimKind)
set_option autoImplicit false
set_option maxHeartbeats 250000

/-! ## The type of the symbol -/

inductive CSymType where
  | prim (k : PrimKind)
  | constChar
  | mutVoid
  | constVoid
  | constMutVoid
  deriving DecidableEq, Repr

def CmParamKind.symTypes : CmParamKind → List CSymType
  | .primitive k => [.prim k]
  | .strRef => [.constChar]
  | .opaquePtr => [.mutVoid]
  | .arrayPtr _ _ => [.constVoid, .prim .usize]
  | .mutArrayPtr _ _ => [.mutVoid, .prim .usize]
  | .sliceCmTypes => [.constMutVoid, .prim .usize]

def CmRet.symType : CmRet → Option CSymType
  | .void => none
  | .primitive k => some (.prim k)
  | .opaquePtr => some .mutVoid
  | .allocatedArray _ _ _ => some .mutVoid
  | .allocatedString _ => some .mutVoid

/-- `unsafe extern "C" fn(..) -> ..`. -/
structure CSymFn where
  params : List CSymType
  ret : Option CSymType

def buildCSymType (entry : ExportedFn) : CSymFn :=
  ⟨entry.cmParams.flatMap fun p => p.kind.symTypes, entry.cmRet.symType⟩

/-- `trim_start_matches("const")`, which takes it off again and again. -/
def trimConst : ℕ → Text → Text
  | 0, t => t
  | fuel + 1, t =>
    match "const".toList.isPrefixOf? t with
    | some rest => trimConst fuel rest
    | none => t

/-- What the Rust vectors hold. Structures are laid out like a complex number. -/
def cElemRustType (cType : Text) : Text :=
  match [("float".toList, "f32".toList), ("double".toList, "f64".toList),
    ("int".toList, "i32".toList), ("int32_t".toList, "i32".toList),
    ("uint32_t".toList, "u32".toList), ("unsigned int".toList, "u32".toList),
    ("int64_t".toList, "i64".toList), ("uint64_t".toList, "u64".toList),
    ("size_t".toList, "usize".toList), ("usize".toList, "usize".toList)].lookup
      (trim (trimConst cType.length cType)) with
  | some rust => rust
  | none => "[f32; 2]".toList

/-- `toUppercase` is that of Rust strings, which knows all of Unicode. -/
def symStaticName (toUppercase : Text → Text) (cmName : Text) : Text :=
  toUppercase cmName ++ "_SYM".toList

/-! ## What is written -/

/-- An index into `args`. `none` is `usize::MAX`, which no slice reaches. -/
abbrev ArgIdx := Option ℕ

/-- The lines of one parameter before the call. Those of a string bind two names. -/
inductive Line where
  | scalar (name : Text) (k : PrimKind) (idx : ArgIdx)
  | string (name : Text) (idx : ArgIdx)
  | handle (name : Text) (idx : ArgIdx)
  | array (name len elem : Text) (idx : ArgIdx)
  | mutArrayLen (len elem : Text) (idx : ArgIdx)
  | handles (idx : ArgIdx)
  deriving DecidableEq, Repr

inductive CallArg where
  | var (name : Text)
  | asPtr (name : Text)
  | lenOf (name : Text)
  | mutPtr
  deriving DecidableEq, Repr

def handlesName : Text := "__handles".toList

def stringName (name : Text) : Text := name ++ "_s".toList

def cStringName (name : Text) : Text := name ++ "_c".toList

def ptrName (name : Text) : Text := name ++ "_ptr".toList

structure ParamExtraction where
  line : Line
  callArgs : List CallArg
  isMutArray : Bool

/-- The call arguments of a `mut_array` are those of the closure that the call stands in. -/
def CmParam.extract (p : CmParam) (idx : ArgIdx) : ParamExtraction :=
  match p.kind with
  | .primitive k => ⟨.scalar p.name k idx, [.var p.name], false⟩
  | .strRef => ⟨.string p.name idx, [.asPtr (cStringName p.name)], false⟩
  | .opaquePtr => ⟨.handle p.name idx, [.var (ptrName p.name)], false⟩
  | .arrayPtr cElementType len =>
    ⟨.array p.name len (cElemRustType cElementType) idx, [.var (ptrName p.name), .var len], false⟩
  | .mutArrayPtr cElementType len =>
    ⟨.mutArrayLen len (cElemRustType cElementType) idx, [.mutPtr, .var len], true⟩
  | .sliceCmTypes => ⟨.handles idx, [.asPtr handlesName, .lenOf handlesName], false⟩

/-- Behind the variadic parameter the index is the sentinel, and one more wraps it. -/
def nextIdx (idx : ArgIdx) (kind : CmParamKind) : ArgIdx :=
  if kind = .sliceCmTypes then none else some ((idx.map Nat.succ).getD 0)

/-- The parameters that consume an argument, each with the index of its own. -/
def consumed (autoParams : List Text) : ArgIdx → List CmParam → List (ArgIdx × CmParam)
  | _, [] => []
  | idx, p :: rest =>
    if p.name ∈ autoParams then consumed autoParams idx rest
    else (idx, p) :: consumed autoParams (nextIdx idx p.kind) rest

/-- The closure of `with_any_mut`: what it is called on, and the length it passes. -/
structure MutClosure where
  idx : ArgIdx
  elem : Text
  len : Text
  deriving DecidableEq, Repr

def mutClosure (slot : ArgIdx × CmParam) : Option MutClosure :=
  match slot.2.kind with
  | .mutArrayPtr cElementType len => some ⟨slot.1, cElemRustType cElementType, len⟩
  | _ => none

def CmRet.freeFn : CmRet → Option Text
  | .allocatedArray _ _ freeFn => freeFn
  | .allocatedString freeFn => freeFn
  | _ => none

structure Wrapper where
  symName : Text
  sym : CSymFn
  freeSymName : Option Text
  lines : List Line
  mutArray : Option MutClosure
  callArgs : List CallArg
  ret : CmRet

/-- What the call passes for a parameter: in a closure, for every `mut_array`, the closure's. -/
def ParamExtraction.passed (e : ParamExtraction) : Option MutClosure → List CallArg
  | some closure => if e.isMutArray then [.mutPtr, .var closure.len] else e.callArgs
  | none => e.callArgs

/-- Of several `mut_array` parameters the last is the closure's. -/
def renderCEntryWrapper (toUppercase : Text → Text) (entry : ExportedFn) : Wrapper :=
  let slots := consumed entry.autoParams (some 0) entry.cmParams
  let mutArray := (slots.filterMap mutClosure).getLast?
  { symName := symStaticName toUppercase entry.cmName
    sym := buildCSymType entry
    freeSymName := entry.cmRet.freeFn.map (symStaticName toUppercase)
    lines := slots.map fun s => (s.2.extract s.1).line
    mutArray := mutArray
    callArgs := slots.flatMap fun s => (s.2.extract s.1).passed mutArray
    ret := entry.cmRet }

/-! ## What the names stand for -/

/-- What is passed to the C function, by the argument it is taken from. -/
inductive Operand where
  | scalar (k : PrimKind) (idx : ArgIdx)
  | cString (idx : ArgIdx)
  | handle (idx : ArgIdx)
  | vecPtr (elem : Text) (idx : ArgIdx)
  | vecMutPtr (elem : Text) (idx : ArgIdx)
  | vecLen (elem : Text) (idx : ArgIdx)
  | handlesPtr (idx : ArgIdx)
  | handlesLen (idx : ArgIdx)
  deriving DecidableEq, Repr

def Operand.symType : Operand → CSymType
  | .scalar k _ => .prim k
  | .cString _ => .constChar
  | .handle _ => .mutVoid
  | .vecPtr _ _ => .constVoid
  | .vecMutPtr _ _ => .mutVoid
  | .vecLen _ _ => .prim .usize
  | .handlesPtr _ => .constMutVoid
  | .handlesLen _ => .prim .usize

inductive Local where
  | args
  | operand (o : Operand)
  | string (idx : ArgIdx)
  | cString (idx : ArgIdx)
  | handles (idx : ArgIdx)
  | vec (elem : Text) (idx : ArgIdx)
  deriving DecidableEq, Repr

/-- The newest binding comes first. -/
abbrev Env := List (Text × Local)

def Line.binds : Line → Env
  | .scalar name k idx => [(name, .operand (.scalar k idx))]
  | .string name idx => [(cStringName name, .cString idx), (stringName name, .string idx)]
  | .handle name idx => [(ptrName name, .operand (.handle idx))]
  | .array name len elem idx =>
    [(ptrName name, .operand (.vecPtr elem idx)), (len, .operand (.vecLen elem idx))]
  | .mutArrayLen len elem idx => [(len, .operand (.vecLen elem idx))]
  | .handles idx => [(handlesName, .handles idx)]

def argsName : Text := "args".toList

def vecName : Text := "v".toList

def rawName : Text := "__raw".toList

def Env.start : Env := [(argsName, .args)]

/-- Every line reads `args` and binds its names. -/
def declare (bindable : Text → Bool) (env : Env) (line : Line) : Option Env :=
  if env.lookup argsName = some .args ∧ (line.binds.all fun b => bindable b.1) = true then
    some (line.binds ++ env)
  else none

def resolve (env : Env) : CallArg → Option Operand
  | .var name =>
    match env.lookup name with
    | some (.operand o) => some o
    | _ => none
  | .asPtr name =>
    match env.lookup name with
    | some (.cString idx) => some (.cString idx)
    | some (.handles idx) => some (.handlesPtr idx)
    | _ => none
  | .lenOf name =>
    match env.lookup name with
    | some (.handles idx) => some (.handlesLen idx)
    | _ => none
  | .mutPtr =>
    match env.lookup vecName with
    | some (.vec elem idx) => some (.vecMutPtr elem idx)
    | _ => none

/-- How the result becomes the return value. -/
inductive Conversion where
  | none
  | scalar (k : PrimKind)
  | handle
  | vec (elem : Text) (len : Operand)
  | text
  deriving DecidableEq, Repr

/-- The length of a returned array is a variable of type `usize` behind `let __raw`. -/
def conversion (env : Env) : CmRet → Option Conversion
  | .void => some .none
  | .primitive k => some (.scalar k)
  | .opaquePtr => some .handle
  | .allocatedArray cElementType len _ =>
    if len = rawName then Option.none
    else
      match env.lookup len with
      | some (.operand o) =>
        if o.symType = .prim .usize then some (.vec (cElemRustType cElementType) o) else Option.none
      | _ => Option.none
  | .allocatedString _ => some .text

structure Program where
  lines : List Line
  operands : List Operand
  conversion : Conversion
  deriving DecidableEq, Repr

/-- The call arguments, where they are of the types of the symbol. -/
def Wrapper.operandsIn (w : Wrapper) (env : Env) : Option (List Operand) :=
  (w.callArgs.mapM (resolve env)).filter fun operands =>
    operands.map Operand.symType = w.sym.params

def Wrapper.compileIn (w : Wrapper) (env : Env) : Option Program :=
  match w.mutArray with
  | some closure =>
    if env.lookup argsName = some .args then
      (w.operandsIn ((vecName, .vec closure.elem closure.idx) :: env)).map fun operands =>
        ⟨w.lines, operands, .none⟩
    else none
  | none =>
    (w.operandsIn env).bind fun operands =>
      (conversion env w.ret).map fun c => ⟨w.lines, operands, c⟩

/-- The wrapper as `rustc` takes it. `bindable` tells which names it lets a variable have, and no two
statics are named alike. -/
def Wrapper.compile (bindable : Text → Bool) (w : Wrapper) : Option Program :=
  if w.freeSymName = some w.symName then none
  else (w.lines.foldlM (declare bindable) Env.start).bind w.compileIn

/-! ## Running it -/

/-- An argument. A vector is known by where its elements are and how many there are. -/
inductive ArgValue where
  | scalar (k : PrimKind) (v : ℤ)
  | string (s : Text)
  | handle (p : ℕ)
  | vec (elem : Text) (ptr len : ℕ)
  | other
  deriving DecidableEq, Repr

/-- What a C function sees of a parameter. -/
inductive CValue where
  | scalar (k : PrimKind) (v : ℤ)
  | string (s : Text)
  | pointer (p : ℕ)
  | pointers (ps : List ℕ)
  deriving DecidableEq, Repr

def ArgValue.asScalar (k : PrimKind) : ArgValue → Option CValue
  | .scalar k' v => if k' = k then some (.scalar k v) else none
  | _ => none

def ArgValue.asString : ArgValue → Option CValue
  | .string s => some (.string s)
  | _ => none

def ArgValue.asHandle : ArgValue → Option ℕ
  | .handle p => some p
  | _ => none

def ArgValue.asVec (elem : Text) : ArgValue → Option (ℕ × ℕ)
  | .vec elem' ptr len => if elem' = elem then some (ptr, len) else none
  | _ => none

def argAt (args : List ArgValue) (idx : ArgIdx) : Option ArgValue := idx.bind fun i => args[i]?

def vecAt (args : List ArgValue) (elem : Text) (idx : ArgIdx) : Option (ℕ × ℕ) :=
  (argAt args idx).bind (ArgValue.asVec elem)

/-- `&args[i..]`, each a handle. -/
def handlesFrom (args : List ArgValue) (idx : ArgIdx) : Option (List ℕ) :=
  idx.bind fun i => if i ≤ args.length then (args.drop i).mapM ArgValue.asHandle else none

/-- The value that an operand stands for, where the argument is of the right kind. -/
def Operand.value (args : List ArgValue) : Operand → Option CValue
  | .scalar k idx => (argAt args idx).bind (ArgValue.asScalar k)
  | .cString idx => (argAt args idx).bind ArgValue.asString
  | .handle idx => (argAt args idx).bind fun a => a.asHandle.map CValue.pointer
  | .vecPtr elem idx => (vecAt args elem idx).map fun v => .pointer v.1
  | .vecMutPtr elem idx => (vecAt args elem idx).map fun v => .pointer v.1
  | .vecLen elem idx => (vecAt args elem idx).map fun v => .scalar .usize v.2
  | .handlesPtr idx => (handlesFrom args idx).map CValue.pointers
  | .handlesLen idx => (handlesFrom args idx).map fun ps => .scalar .usize ps.length

/-- `CString::new(s)`, and the empty one where `s` has a NUL. -/
def CValue.asCString : CValue → CValue
  | .string s => .string (if '\x00' ∈ s then [] else s)
  | v => v

/-- What a line asks of `args` lest it panic. -/
def Line.source : Line → Operand
  | .scalar _ k idx => .scalar k idx
  | .string _ idx => .cString idx
  | .handle _ idx => .handle idx
  | .array _ _ elem idx => .vecPtr elem idx
  | .mutArrayLen _ elem idx => .vecLen elem idx
  | .handles idx => .handlesPtr idx

/-- What the C function is called with. -/
def Program.call (program : Program) (args : List ArgValue) : Option (List CValue) :=
  if (program.lines.all fun line => (line.source.value args).isSome) = true then
    program.operands.mapM fun o => (o.value args).map CValue.asCString
  else none

/-- A return value, made of the result `r`: a scalar or a handle of it, or a copy of what is read
there. -/
inductive Returned where
  | none
  | scalar (k : PrimKind) (r : ℤ)
  | handle (r : ℤ)
  | vec (elem : Text) (r : ℤ) (len : ℤ)
  | text (r : ℤ)
  deriving DecidableEq, Repr

def CValue.length? : CValue → Option ℤ
  | .scalar .usize v => some v
  | _ => Option.none

def Program.returned (program : Program) (args : List ArgValue) (r : ℤ) : Option Returned :=
  match program.conversion with
  | .none => some .none
  | .scalar k => some (.scalar k r)
  | .handle => some (.handle r)
  | .vec elem len => ((len.value args).bind CValue.length?).map (Returned.vec elem r)
  | .text => some (.text r)

end Tomii.CHeader
