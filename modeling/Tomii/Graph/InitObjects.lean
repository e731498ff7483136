import Tomii.Graph.PredecessorIndexes
import Tomii.Types.ValueRoundTrip

/-! # Init objects and the arguments that name them (`obj_gen.rs`, `graph_gen.rs`)

`init_objects` builds the objects one after the other, and `parse_arg` reads the arguments of nodes.
Both look a text up among the names of the objects before its type is considered. The functions of
the plugin come from outside, and so do the values that only they can build. -/
namespace Tomii.Loading
open Types
open Indexes (LoadFailure ObjectValue)
set_option autoImplicit false
set_option maxHeartbeats 250000

/-! ## The graph file -/

inductive Factor where
  | number (n : ℕ)
  | ref (name : Text)

structure ArgInit where
  type : Text
  value : Text

structure InitJson where
  name : Text
  factor : Option Factor
  args : List ArgInit
  function : Option Text

structure ConditionJson where
  operation : Text
  value : Text
  valueType : Text

structure PredJson where
  name : Text
  indexes : Text
  groupBy : Option Factor

structure ArgJson where
  type : Text
  value : Option Text
  condition : Option ConditionJson
  predecessor : Option PredJson

/-! ## Objects -/

variable (r : FloatParsers) (A : Type)

/-- A value that is read from a text, or one that a function of the plugin has built. -/
inductive Value where
  | read (v : Types.CmTypes r)
  | built (a : A)

/-- A function of the plugin. It may panic. -/
abbrev InitFn : Type := List (Value r A) → Option (Value r A)

/-- The objects built so far. Later names stand before earlier ones. -/
structure InitObjects where
  objIdMap : List (Text × ℕ)
  objects : List (List (Value r A))
  objCounter : ℕ

variable {r A}

def usizeValue (n : ℕ) : IntType.usize.Value :=
  ⟨(n % 2 ^ 64 : ℕ), ⟨Int.natCast_nonneg _, by
    have hlt : n % 2 ^ 64 < 2 ^ 64 := Nat.mod_lt _ (by decide)
    show ((n % 2 ^ 64 : ℕ) : ℤ) ≤ 2 ^ 64 - 1
    omega⟩⟩

def usize (n : ℕ) : Value r A := .read (.int .usize (usizeValue n))

/-- The value as an index reads it. -/
def Value.indexed : Value r A → ObjectValue
  | .read (.int k n) => .int k n
  | _ => .other

namespace InitObjects

/-- Ids 0 and 1 are kept for `$index` and `$workers`. -/
def start : InitObjects r A :=
  ⟨[("$workers".toList, 1), ("$index".toList, 0)], [[usize 0], [usize 1]], 2⟩

variable (env : InitObjects r A)

def firstValue (id : ℕ) : Option (Value r A) := env.objects[id]?.bind List.head?

def indexed : Indexes.InitObjects := ⟨env.objIdMap, env.objects.map (List.map Value.indexed)⟩

end InitObjects

/-- A name without a number panics. -/
def Factor.resolve (env : InitObjects r A) (workers : ℕ) : Factor → Option ℕ
  | .number n => some n
  | .ref name =>
    match env.objIdMap.lookup name with
    | some id => (env.firstValue id).bind fun v => v.indexed.validNumberToUsize
    | none => if name = "$workers".toList then some workers else none

def factorOf (env : InitObjects r A) (workers : ℕ) (factor : Option Factor) : Option ℕ :=
  factor.elim (some 1) (Factor.resolve env workers)

/-! ## Building objects -/

def orPanic {α : Type} (x : Option α) : Except LoadFailure α := x.elim (.error .panic) .ok

/-- A text of a declared type, where no object is looked for. -/
def literalArg (arg : ArgInit) : Except LoadFailure (Value r A) :=
  match stringToCmtype r arg.type arg.value with
  | .ok v => .ok (.read v)
  | .error e => .error (.error ("No init function for type '".toList ++ arg.type ++
      "' with value '".toList ++ arg.value ++ "': ".toList ++ e.details ++
      ". Create an init function to handle this type.".toList))

/-- An argument of the function for one instance of the object. -/
def initArg (env : InitObjects r A) (workers i : ℕ) (arg : ArgInit) :
    Except LoadFailure (Value r A) :=
  if arg.value = "$workers".toList then .ok (usize workers)
  else if arg.value = "$index".toList then .ok (usize i)
  else
    match env.objIdMap.lookup arg.value with
    | some id => orPanic (env.firstValue id)
    | none => literalArg arg

section Objects

variable (getFunc : Text → Option (InitFn r A)) (workers : ℕ)

/-- The values of one object, one for each instance. -/
def initObject (env : InitObjects r A) (init : InitJson) : Except LoadFailure (List (Value r A)) := do
  let factor ← orPanic (factorOf env workers init.factor)
  match init.function with
  | some funcName =>
    match getFunc funcName with
    | none =>
      .error (.error ("Function '".toList ++ funcName ++ "' not found in registry".toList))
    | some func =>
      (List.range factor).mapM fun i => do
        let args ← init.args.mapM (initArg env workers i)
        orPanic (func args)
  | none => do
    let arg ← orPanic init.args.head?
    let value ← literalArg arg
    pure (List.replicate factor value)

/-- The counter has 16 bits. In a build without overflow checks it wraps around. -/
def addObject (env : InitObjects r A) (init : InitJson) : Except LoadFailure (InitObjects r A) := do
  let values ← initObject getFunc workers env init
  pure ⟨(init.name, env.objCounter) :: env.objIdMap, env.objects ++ [values],
    (env.objCounter + 1) % 2 ^ 16⟩

def initObjects (inits : List InitJson) : Except LoadFailure (InitObjects r A) :=
  inits.foldlM (addObject getFunc workers) .start

end Objects

/-! ## Arguments of nodes -/

inductive CondOp where
  | eq | neq | gt | lt

def CondOp.parse (op : Text) : Option CondOp :=
  if op = "Eq".toList then some .eq
  else if op = "Neq".toList then some .neq
  else if op = "Gt".toList then some .gt
  else if op = "Lt".toList then some .lt
  else none

structure InitCondition (r : FloatParsers) where
  operation : CondOp
  evalValue : Types.CmTypes r

structure Arg (r : FloatParsers) where
  type : Types.CmTypes r
  initCondition : Option (InitCondition r)
  predecessor : Option Predecessor

def cmtypeOf (tp arg : Text) : Except LoadFailure (Types.CmTypes r) :=
  match stringToCmtype r tp arg with
  | .ok v => .ok v
  | .error e => .error (.error e.details)

def parseCondition (condition : ConditionJson) : Except LoadFailure (InitCondition r) :=
  match CondOp.parse condition.operation with
  | none =>
    .error (.error ("Invalid condition operation '".toList ++ condition.operation ++ "'".toList))
  | some operation => do
    let evalValue ← cmtypeOf condition.valueType condition.value
    pure ⟨operation, evalValue⟩

/-- The indexes are read before `group_by` is resolved. -/
def parsePredecessor (env : InitObjects r A) (nameToId : List (Text × ℕ)) (workers : ℕ)
    (pred : PredJson) : Except LoadFailure Predecessor := do
  let read ← Indexes.parsePredecessor env.indexed nameToId pred.name pred.indexes none
  match pred.groupBy with
  | none => pure read
  | some factor => do
    let groupBy ← orPanic (factor.resolve env workers)
    pure { read with groupBy := some groupBy }

/-- An id is printed and read again in the declared type. -/
def argCmtype (env : InitObjects r A) (arg : ArgJson) (predecessor : Option Predecessor) :
    Except LoadFailure (Types.CmTypes r) :=
  match predecessor with
  | some pred => cmtypeOf arg.type (showInt pred.id)
  | none =>
    match arg.value with
    | none => .ok .none
    | some value =>
      match env.objIdMap.lookup value with
      | some id => cmtypeOf arg.type (showInt id)
      | none => cmtypeOf arg.type value

def parseArg (env : InitObjects r A) (nameToId : List (Text × ℕ)) (workers : ℕ) (arg : ArgJson) :
    Except LoadFailure (Arg r) := do
  let condition ← arg.condition.mapM parseCondition
  let predecessor ← arg.predecessor.mapM (parsePredecessor env nameToId workers)
  let type ← argCmtype env arg predecessor
  pure ⟨type, condition, predecessor⟩

end Tomii.Loading
