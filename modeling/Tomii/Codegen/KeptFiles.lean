import Tomii.Codegen.GeneratePython
import Tomii.Codegen.PyProgram

/-! # Files that survive code generation

What each part of a graph file has to be for its text in the program to read back as it: names that
are identifiers, numbers that Python prints as they are written, arguments of the types that have an
expression, and nothing that the generator leaves out. -/
namespace Tomii.Codegen
open Types (FloatParsers PyValue)
open Python
open Loading (Factor ArgInit ArgJson PredJson InitJson LoopJson NodeConditionJson NodeJson GraphFile)
set_option autoImplicit false
set_option maxHeartbeats 250000

/-! ## Names in scope -/

inductive Kind where
  | var
  | node
deriving DecidableEq

/-- What the lines so far have defined, the latest first. -/
abbrev Defined : Type := List (Text × Kind)

/-- The identifier made of the name stands for the object of that name. -/
def Means (defs : Defined) (name : Text) (k : Kind) : Prop :=
  (defs.map fun p => (pyname p.1, p)).lookup (pyname name) = some (name, k)

instance (defs : Defined) (name : Text) (k : Kind) : Decidable (Means defs name k) := by
  unfold Means
  infer_instance

/-! ## Numbers -/

section Values

variable {r : FloatParsers} (I : Interpreter r)

/-- A number without a sign, in Python. -/
def unsigned? (w : Text) : Option (PyValue r) :=
  if isNumber w then
    match Reader.number? w with
    | some (.int n) => some (.int n)
    | some (.float lexeme) => (I.floatLiteral lexeme).map .float
    | _ => none
  else none

def negatedNumber : PyValue r → Option (PyValue r)
  | .int n => some (.int (-n))
  | .float x => some (.float (I.negate x))
  | _ => none

def numeral? : Text → Option (PyValue r)
  | '-' :: w => (unsigned? I w).bind (negatedNumber I)
  | w => unsigned? I w

/-- A number of Python that is printed as it is written. -/
def Printed (s : Text) : Prop := (numeral? I s).map (Types.pyStr I.floats) = some s

instance (s : Text) : Decidable (Printed I s) := by
  unfold Printed
  infer_instance

def boolText (b : Bool) : Text := if b then "true".toList else "false".toList

/-! ## Arguments -/

/-- Literals by type and text. There is no expression for the other types. -/
inductive LiteralKept : Text → Text → Prop where
  | bool (b : Bool) : LiteralKept "bool".toList (boolText b)
  | usize (n : ℤ) : LiteralKept "usize".toList (showInt n)
  | scalar {type value : Text} (htype : type ∈ scalarNames) (hne : type ≠ "usize".toList)
      (hvalue : Printed I value) : LiteralKept type value
  | string (value : Text) : LiteralKept "String".toList value
  | complex {type re im : Text} (htype : type = "Complex32".toList ∨ type = "Complex64".toList)
      (hre : Printed I re) (him : Printed I im) : LiteralKept type (re ++ ',' :: im)
  | vec (inner : Text) {items : List Text} (hitems : ∀ item ∈ items, Printed I item) :
      LiteralKept ("Vec<".toList ++ inner ++ ">".toList) ([','].intercalate items)

variable (defs : Defined)

inductive InitArgKept : ArgInit → Prop where
  | ref {name : Text} (hname : Means defs name .var) : InitArgKept ⟨"$ref".toList, name⟩
  | literal {type value : Text} (hliteral : LiteralKept I type value) : InitArgKept ⟨type, value⟩

inductive FactorKept : Factor → Prop where
  | number (n : ℕ) : FactorKept (.number n)
  | ref {name : Text} (hname : Means defs name .var) : FactorKept (.ref name)

/-- One index, a list of them, or a range. A variable may end a range only. -/
inductive IndexesKept : Text → Prop where
  | single (n : ℕ) : IndexesKept (showInt n)
  | many {items : List ℤ} (hitems : 2 ≤ items.length) :
      IndexesKept ([','].intercalate (items.map showInt))
  | range (start stop : ℕ) : IndexesKept (showInt start ++ '-' :: showInt stop)
  | rangeTo (start : ℕ) {name : Text} (hname : Means defs name .var) :
      IndexesKept (showInt start ++ '-' :: name)

structure PredKept (pred : PredJson) : Prop where
  node : Means defs pred.name .node
  indexes : IndexesKept defs pred.indexes
  groupBy : ∀ factor ∈ pred.groupBy, FactorKept defs factor

/-- Neither value nor predecessor stands beside the other, and there is no condition. -/
inductive ArgKept : ArgJson → Prop where
  | ref {name : Text} (hname : Means defs name .var) :
      ArgKept ⟨"$ref".toList, some name, none, none⟩
  | literal {type value : Text} (hliteral : LiteralKept I type value) :
      ArgKept ⟨type, some value, none, none⟩
  | reference {type : Text} {pred : PredJson} (htype : (methodOf type).isSome)
      (hpred : PredKept defs pred) : ArgKept ⟨type, none, none, some pred⟩

/-! ## Conditions and loops -/

inductive ConditionValueKept : Text → Text → Prop where
  | bool (b : Bool) : ConditionValueKept "bool".toList (boolText b)
  | float {type value : Text} (htype : type = "f32".toList ∨ type = "f64".toList)
      (hread : (I.floatOf value).map I.floats.str = some value) (hvalue : Printed I value) :
      ConditionValueKept type value
  | int {type value : Text} (htype : type.head? = some 'i' ∨ type.head? = some 'u')
      (hvalue : Printed I value) : ConditionValueKept type value
  | text {type : Text} (value : Text) (hne : type ≠ [])
      (htype : type ∉ ["bool".toList, "f32".toList, "f64".toList])
      (hint : type.head? ≠ some 'i' ∧ type.head? ≠ some 'u') : ConditionValueKept type value

structure ConditionKept (cond : NodeConditionJson) : Prop where
  value : ConditionValueKept I cond.valueType cond.value
  args : ∀ a ∈ cond.args, ArgKept I defs a

def LoopKept (loop : LoopJson) : Prop := ∃ factor, loop.factor = some factor ∧ FactorKept defs factor

/-! ## Nodes and variables -/

/-- Between double quotes, Python reads the text as itself. -/
def ReadsBack (s : Text) : Prop := readBody '"' s = some s

instance (s : Text) : Decidable (ReadsBack s) := by
  unfold ReadsBack
  infer_instance

structure NodeKept (n : NodeJson) : Prop where
  function : ReadsBack n.function
  factor : ∀ factor ∈ n.factor, FactorKept defs factor
  groupSize : ∀ size ∈ n.groupSize, FactorKept defs size
  priority : n.priority ≠ some []
  useWorkers : n.useWorkers ≠ some []
  loop : ∀ loop ∈ n.loop, LoopKept defs loop
  loopArgs : n.loopArgs ≠ some [] ∧ ∀ args ∈ n.loopArgs, ∀ a ∈ args, ArgKept I defs a
  condition : ∀ cond ∈ n.condition, ConditionKept I defs cond
  args : ∀ a ∈ n.args, ArgKept I defs a

/-- Without a function there is exactly one argument. -/
structure InitKept (init : InitJson) : Prop where
  factor : ∀ factor ∈ init.factor, FactorKept defs factor
  args : ∀ a ∈ init.args, InitArgKept I defs a
  function : ∀ func ∈ init.function, func ≠ [] ∧ ReadsBack func
  direct : init.function = none → init.args.length = 1

/-! ## Files -/

/-- All names, in the order of their lines. -/
def namesOf (d : GraphFile) : List Text :=
  d.initializations.map (·.name) ++ (d.nodes.map (·.name) ++ (postNodesOf d).map (·.name))

def definedVars (inits : List InitJson) : Defined := (inits.map fun init => (init.name, .var)).reverse

def definedNodes (nodes : List NodeJson) : Defined := (nodes.map fun n => (n.name, .node)).reverse

/-- A name that the body assigns hides what the header imports. -/
structure NamesKept (d : GraphFile) : Prop where
  identifiers : ∀ name ∈ namesOf d, isIdentifier I.tables (pyname name) = true
  distinct : (namesOf d).Nodup
  module : "tm".toList ∉ (namesOf d).map pyname
  graph : "app".toList ∉ (namesOf d).map pyname
  condition : ∀ n ∈ d.nodes ++ postNodesOf d, n.condition.isSome →
    "Condition".toList ∉ (namesOf d).map pyname
  loop : ∀ n ∈ d.nodes ++ postNodesOf d, n.loop.isSome → "Loop".toList ∉ (namesOf d).map pyname

/-- Every part reads back, where it stands. -/
structure FileKept (d : GraphFile) : Prop where
  names : NamesKept I d
  inits : ∀ pre init post, d.initializations = pre ++ init :: post →
    InitKept I (definedVars pre) init
  nodes : ∀ pre n post, d.nodes = pre ++ n :: post →
    NodeKept I (definedNodes pre ++ definedVars d.initializations) n
  postNodes : ∀ pre n post, postNodesOf d = pre ++ n :: post →
    NodeKept I (definedNodes (d.nodes ++ pre) ++ definedVars d.initializations) n
  nonempty : d.postNodes ≠ some []

/-- The program runs, and the graph that it builds is written as the file `d'`. -/
def GivesBack (d d' : GraphFile) : Prop :=
  ∃ program g, generatePython I d = some program ∧ execute I program = some g ∧
    serializeGraph I g = some d'

end Values

end Tomii.Codegen
