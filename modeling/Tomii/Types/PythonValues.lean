import Tomii.Types.LiteralParsers

/-! # Argument values of the Python API (`tomii/_types.py`, `tomii/_serialize.py`)

The wrappers name a type and print the value; `_arg` and `_arg_init` put both into the graph file. -/
namespace Tomii.Types
set_option autoImplicit false
set_option maxHeartbeats 250000

/-! ## Python values -/

inductive PyValue (r : FloatParsers) where
  | int (n : ℤ)
  | float (x : r.F64)
  | bool (b : Bool)
  | str (s : Text)
  | complex (re im : r.F64)

/-- How Python prints floats, and what the parsers make of that. -/
structure PythonFloats (r : FloatParsers) where
  str : r.F64 → Text
  strComplex : r.F64 → r.F64 → Text
  /-- The float in single precision. -/
  narrow : r.F64 → r.F32
  parseF64_str : ∀ x, r.parseF64 (str x) = some x
  parseF32_str : ∀ x, r.parseF32 (str x) = some (narrow x)
  str_ne_nil : ∀ x, str x ≠ []
  mem_str : ∀ x, ∀ c ∈ str x, c ∈ "0123456789+-.einfa".toList
  getLast_str : ∀ x, (str x).getLast? ≠ some 'i'
  mem_strComplex : ∀ x y, ∀ c ∈ strComplex x y, c ∈ "0123456789+-.einfaj()".toList
  getLast_strComplex : ∀ x y, (strComplex x y).getLast? ≠ some 'i'

inductive PyError where
  /-- The message shows the value. -/
  | valueError (value : Text)
  | typeError
  deriving DecidableEq, Repr

section Wrappers

variable {r : FloatParsers} (p : PythonFloats r)

def pyStr : PyValue r → Text
  | .int n => showInt n
  | .float x => p.str x
  | .bool b => if b then "True".toList else "False".toList
  | .str s => s
  | .complex x y => p.strComplex x y

/-! ## Wrappers -/

structure TypedValue where
  typeName : Text
  valueStr : Text
  deriving DecidableEq, Repr

/-- `_scalar`. -/
def scalar (typeName : Text) (value : PyValue r) : TypedValue := ⟨typeName, pyStr p value⟩

def pyInt (k : IntType) : PyValue r → TypedValue := scalar p k.name

def pyF32 : PyValue r → TypedValue := scalar p "f32".toList

def pyF64 : PyValue r → TypedValue := scalar p "f64".toList

def pyString (value : PyValue r) : TypedValue := ⟨"String".toList, pyStr p value⟩

def bool_ (value : Bool) : TypedValue :=
  ⟨"bool".toList, if value then "true".toList else "false".toList⟩

def char_ (value : Text) : Except PyError TypedValue :=
  if value.length ≠ 1 then .error (.valueError value) else .ok ⟨"char".toList, value⟩

def pyComplex32 (real imag : r.F64) : TypedValue :=
  ⟨"Complex32".toList, p.str real ++ ',' :: p.str imag⟩

def pyComplex64 (real imag : r.F64) : TypedValue :=
  ⟨"Complex64".toList, p.str real ++ ',' :: p.str imag⟩

def pyVec (elementType : Text) (values : List (PyValue r)) : TypedValue :=
  ⟨"Vec<".toList ++ elementType ++ ">".toList, [','].intercalate (values.map (pyStr p))⟩

/-- A plain value, where Python has wrapped values and plain ones in one type. -/
def inferType : PyValue r ⊕ TypedValue → Except PyError TypedValue
  | .inl (.bool b) => .ok (bool_ b)
  | .inl (.int n) => .ok (pyInt p .usize (.int n))
  | .inl (.float x) => .ok (pyF64 p (.float x))
  | .inr typed => .ok typed
  | .inl (.str _) => .error .typeError
  | .inl (.complex _ _) => .error .typeError

/-! ## Arguments in the graph file -/

/-- The index specification of an argument that names a predecessor. -/
inductive Start where
  | one (index : ℤ)
  | text (s : Text)
  | many (indexes : List ℤ)
  deriving DecidableEq, Repr

/-- An integer, a text, or the name of a variable. -/
inductive Bound where
  | int (n : ℤ)
  | text (s : Text)
  | var (name : Text)
  deriving DecidableEq, Repr

structure NodeArg where
  name : Text
  start : Start
  stop : Option Bound
  groupBy : Option Bound
  deriving DecidableEq, Repr

inductive Factor where
  | int (n : ℤ)
  | text (s : Text)
  deriving DecidableEq, Repr

structure PredJson where
  name : Text
  indexes : Text
  groupBy : Option Factor
  deriving DecidableEq, Repr

/-- The `condition` of an argument is set elsewhere. -/
structure ArgJson where
  type : Text
  value : Option Text
  predecessor : Option PredJson
  deriving DecidableEq, Repr

structure ArgInit where
  type : Text
  value : Text
  deriving DecidableEq, Repr

inductive Arg (r : FloatParsers) where
  | var (name : Text)
  | nodeDep (a : NodeArg)
  | nodeOutput (a : NodeArg)
  | nodeBarrier (a : NodeArg)
  | typed (value : TypedValue)
  | plain (value : PyValue r)

def factor : Option Bound → Option Factor
  | none => none
  | some (.var name) => some (.text name)
  | some (.int n) => some (.int n)
  | some (.text s) => some (.text s)

def Start.show : Start → Text
  | .one index => showInt index
  | .text s => s
  | .many is => [','].intercalate (is.map showInt)

def Bound.show : Bound → Text
  | .int n => showInt n
  | .text s => s
  | .var name => name

/-- `_indexes`. -/
def indexes (start : Start) (stop : Option Bound) : Text :=
  match start, stop with
  | .many is, _ => Start.show (.many is)
  | start, none => start.show
  | start, some stop => start.show ++ '-' :: stop.show

def NodeArg.pred (a : NodeArg) : PredJson := ⟨a.name, indexes a.start a.stop, factor a.groupBy⟩

/-- `_arg`. -/
def argJson : Arg r → Except PyError ArgJson
  | .var name => .ok ⟨"$ref".toList, some name, none⟩
  | .nodeDep a => .ok ⟨"$dep".toList, none, some a.pred⟩
  | .nodeOutput a => .ok ⟨"$res".toList, none, some a.pred⟩
  | .nodeBarrier a => .ok ⟨"$barrier".toList, none, some a.pred⟩
  | .typed value => .ok ⟨value.typeName, some value.valueStr, none⟩
  | .plain value => do
    let tv ← inferType p (.inl value)
    .ok ⟨tv.typeName, some tv.valueStr, none⟩

/-- `_arg_init`. An argument that names a node reaches `infer_type` and is refused there. -/
def argInit : Arg r → Except PyError ArgInit
  | .var name => .ok ⟨"$ref".toList, name⟩
  | .typed value => .ok ⟨value.typeName, value.valueStr⟩
  | .plain value => do
    let tv ← inferType p (.inl value)
    .ok ⟨tv.typeName, tv.valueStr⟩
  | .nodeDep _ => .error .typeError
  | .nodeOutput _ => .error .typeError
  | .nodeBarrier _ => .error .typeError

end Wrappers

end Tomii.Types
