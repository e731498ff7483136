import Tomii.Codegen.GraphFile
import Tomii.Foundations.PyTexts
import Tomii.Types.PythonValues

/-! # The graph API (`tomii/_graph.py`, `_node.py`, `_var.py`, `_loop.py`)

Values that programs over the API handle, the calls that build a graph, and the run of a program. A
value that no serializer takes is refused where it is put into the graph. -/
namespace Tomii.Codegen
open Types Python
set_option autoImplicit false
set_option maxHeartbeats 250000

/-! ## The interpreter -/

/-- What Python does with floats and with characters. -/
structure Interpreter (r : FloatParsers) where
  floats : PythonFloats r
  tables : CharTables
  /-- `float(text)` -/
  floatOf : Text → Option r.F64
  /-- A literal that is not an integer. -/
  floatLiteral : Text → Option r.F64
  negate : r.F64 → r.F64
  /-- Decimal digits outside of ASCII. -/
  digit : Char → Bool

/-! ## Values -/

structure Condition (r : FloatParsers) where
  operation : Text
  value : PyValue r ⊕ TypedValue
  valueType : Text
  func : Text
  args : List (Types.Arg r)

structure Loop where
  name : Text
  factor : Bound

structure IndexFunc (r : FloatParsers) where
  function : Text
  args : List (Types.Arg r)

inductive Reference where
  | out
  | dep
  | wait

/-- What can be called. -/
inductive Callable where
  | graphClass
  | scalar (typeName : Text)
  | string
  | complex (typeName : Text)
  | vec
  | condition
  | loop
  | indexFunc
  | var
  | addNode (post : Bool)
  | network
  | reference (kind : Reference) (node : Text)

/-- Variables and nodes are known by their names. -/
inductive Val (r : FloatParsers) where
  | none
  | arg (a : Types.Arg r)
  | list (items : List (Types.Arg r))
  | node (name : Text)
  | condition (c : Condition r)
  | loop (l : Loop)
  | indexFunc (f : IndexFunc r)
  | module
  | graph
  | fn (f : Callable)

namespace Val

variable {r : FloatParsers}

def int (n : ℤ) : Val r := .arg (.plain (.int n))

def str (s : Text) : Val r := .arg (.plain (.str s))

def arg? : Val r → Option (Types.Arg r)
  | .arg a => some a
  | _ => Option.none

def text? : Val r → Option Text
  | .arg (.plain (.str s)) => some s
  | _ => Option.none

/-- An integer, a text or a variable, for a `Factor`. -/
def bound? : Val r → Option Bound
  | .arg (.plain (.int n)) => some (.int n)
  | .arg (.plain (.str s)) => some (.text s)
  | .arg (.var name) => some (.var name)
  | _ => Option.none

/-- `None` or a value. -/
def optional {α : Type} (f : Val r → Option α) : Val r → Option (Option α)
  | .none => some Option.none
  | v => (f v).map some

/-- `args or []` -/
def args? : Val r → Option (List (Types.Arg r))
  | .none => some []
  | .list items => some items
  | _ => Option.none

variable (I : Interpreter r)

/-- `str`, of plain values and of variables. -/
def shown : Val r → Option Text
  | .none => some "None".toList
  | .arg (.plain v) => some (pyStr I.floats v)
  | .arg (.var name) => some ("Var(".toList ++ pyRepr I.tables name ++ ")".toList)
  | _ => Option.none

def int? : Types.Arg r → Option ℤ
  | .plain (.int n) => some n
  | _ => Option.none

/-- The start of an index specification. -/
def start? : Val r → Option Start
  | .arg (.plain (.int n)) => some (.one n)
  | .list items => (items.mapM int?).map .many
  | v => (v.shown I).map .text

/-- Its end. -/
def stop? : Val r → Option Bound
  | .arg (.plain (.int n)) => some (.int n)
  | .arg (.var name) => some (.var name)
  | v => (v.shown I).map .text

def conditionValue? : Val r → Option (PyValue r ⊕ TypedValue)
  | .arg (.plain v) => some (.inl v)
  | .arg (.typed v) => some (.inr v)
  | _ => Option.none

def loop? : Val r → Option Loop
  | .loop l => some l
  | _ => Option.none

def condition? : Val r → Option (Condition r)
  | .condition c => some c
  | _ => Option.none

end Val

/-! ## The graph -/

structure Var (r : FloatParsers) where
  name : Text
  value : Option (Types.Arg r)
  func : Option Text
  args : List (Types.Arg r)
  factor : Option Bound

structure Node (r : FloatParsers) where
  name : Text
  func : Text
  args : List (Types.Arg r)
  factor : Option Bound
  priority : Option Text
  useWorkers : Option Text
  groupSize : Option Bound
  loop : Option Loop
  loopArgs : List (Types.Arg r)
  condition : Option (Condition r)

structure Graph (r : FloatParsers) where
  vars : List (Var r)
  nodes : List (Node r)
  postNodes : List (Node r)
  network : List (Text × Val r)
  names : List Text

def Graph.empty {r : FloatParsers} : Graph r := ⟨[], [], [], [], []⟩

/-- `_check_name` -/
def Graph.checkName {r : FloatParsers} (g : Graph r) (name : Text) : Option Unit :=
  if name ∈ g.names then none else some ()

/-! ## Calls -/

structure Signature where
  positional : List Text
  keywordOnly : List Text

section Calls

variable {r : FloatParsers}

/-- Arguments by the names of their parameters. -/
abbrev Bindings (r : FloatParsers) : Type := List (Text × Val r)

/-- Keywords follow positions, and nothing is given twice. -/
def Signature.bind (sig : Signature) (args : List (Option Text × Val r)) : Option (Bindings r) :=
  let front := args.takeWhile (·.1.isNone)
  let back := args.dropWhile (·.1.isNone)
  let bound := sig.positional.zip (front.map (·.2)) ++
    back.filterMap fun a => a.1.map fun key => (key, a.2)
  if front.length ≤ sig.positional.length ∧ back.all (·.1.isSome) = true ∧
      (bound.map (·.1)).Nodup ∧ bound.map (·.1) ⊆ sig.positional ++ sig.keywordOnly then some bound
  else none

/-- Values by position, then values by keyword. -/
def callArgs (ps : List (Val r)) (ks : Bindings r) : List (Option Text × Val r) :=
  ps.map (fun v => (none, v)) ++ ks.map fun k => (some k.1, k.2)

theorem bind_callArgs (sig : Signature) {ps : List (Val r)} {ks : Bindings r}
    (hlength : ps.length ≤ sig.positional.length)
    (hnodup : (sig.positional.take ps.length ++ ks.map (·.1)).Nodup)
    (hkeys : ks.map (·.1) ⊆ sig.positional ++ sig.keywordOnly) :
    sig.bind (callArgs ps ks) = some (sig.positional.zip ps ++ ks) := by
  have hpos : ∀ a ∈ ps.map fun v => ((none : Option Text), v), a.1.isNone = true := by
    intro a ha
    obtain ⟨v, -, rfl⟩ := List.mem_map.mp ha
    rfl
  have hfront : (callArgs ps ks).takeWhile (·.1.isNone) = ps.map fun v => (none, v) := by
    rw [callArgs, List.takeWhile_append_of_pos hpos]
    cases ks with
    | nil => exact List.append_nil _
    | cons k ks => exact List.append_nil _
  have hback : (callArgs ps ks).dropWhile (·.1.isNone) = ks.map fun k => (some k.1, k.2) := by
    rw [callArgs, List.dropWhile_append_of_pos hpos]
    cases ks with
    | nil => rfl
    | cons k ks => rfl
  have hkeyed : (ks.map fun k => (some k.1, k.2)).all (·.1.isSome) = true := by
    rw [List.all_map]
    exact List.all_eq_true.mpr fun k _ => rfl
  have hbound : (ks.map fun k => (some k.1, k.2)).filterMap
      (fun a : Option Text × Val r => a.1.map fun key => (key, a.2)) = ks := by
    rw [List.filterMap_map]
    exact List.filterMap_some
  have hnames : (sig.positional.zip ps ++ ks).map (·.1) =
      sig.positional.take ps.length ++ ks.map (·.1) := by
    rw [List.map_append, List.zip_eq_zip_take_min, Nat.min_eq_right hlength, List.take_length,
      List.map_fst_zip (by rw [List.length_take]; omega)]
  have hsub : (sig.positional.zip ps ++ ks).map (·.1) ⊆ sig.positional ++ sig.keywordOnly := by
    rw [hnames]
    exact List.append_subset.mpr
      ⟨fun x hx => List.mem_append_left _ (List.mem_of_mem_take hx), hkeys⟩
  unfold Signature.bind
  simp only [hfront, hback, hkeyed, hbound, List.length_map, List.map_map, Function.comp_def,
    List.map_id']
  rw [if_pos ⟨hlength, trivial, hnames ▸ hnodup, hsub⟩]

/-- With the names of the arguments written out. -/
theorem bind_names (sig : Signature) (ps : List (Val r)) (ks : Bindings r) (n : ℕ) (keys : List Text)
    (hn : ps.length = n) (hkeys : ks.map (·.1) = keys) (hlength : n ≤ sig.positional.length)
    (hnodup : (sig.positional.take n ++ keys).Nodup)
    (hsub : keys ⊆ sig.positional ++ sig.keywordOnly) :
    sig.bind (callArgs ps ks) = some (sig.positional.zip ps ++ ks) := by
  subst hn hkeys
  exact bind_callArgs sig hlength hnodup hsub

namespace Bindings

variable (b : Bindings r)

/-- A parameter without a default. -/
def required (name : String) : Option (Val r) := b.lookup name.toList

/-- A parameter whose default is `None`. -/
def get (name : String) : Val r := (b.lookup name.toList).getD .none

end Bindings

variable (I : Interpreter r)

/-- `Graph.var` and `Var.__init__` -/
def callVar (b : Bindings r) (g : Graph r) : Option (Val r × Graph r) := do
  let name ← (← b.required "name").text?
  g.checkName name
  let value ← (b.get "value").optional Val.arg?
  let func ← (b.get "func").optional Val.text?
  let args ← (b.get "args").args?
  let factor ← (b.get "factor").optional Val.bound?
  if value.isSome = func.isSome then none
  else some (.arg (.var name),
    { g with vars := g.vars ++ [⟨name, value, func, args, factor⟩], names := name :: g.names })

/-- `Node.__init__` -/
def newNode (b : Bindings r) : Option (Node r) := do
  let name ← (← b.required "name").text?
  let func ← (← b.required "func").text?
  let args ← (b.get "args").args?
  let factor ← (b.get "factor").optional Val.bound?
  let priority ← (b.get "priority").optional Val.text?
  let useWorkers ← (b.get "use_workers").optional Val.text?
  let groupSize ← (b.get "group_size").optional Val.bound?
  let loop ← (b.get "loop").optional Val.loop?
  let loopArgs ← (b.get "loop_args").args?
  let condition ← (b.get "condition").optional Val.condition?
  pure ⟨name, func, args, factor, priority, useWorkers, groupSize, loop, loopArgs, condition⟩

/-- `Graph.node` and `Graph.post_node` -/
def callNode (post : Bool) (b : Bindings r) (g : Graph r) : Option (Val r × Graph r) := do
  let n ← newNode b
  g.checkName n.name
  some (.node n.name,
    if post then { g with postNodes := g.postNodes ++ [n], names := n.name :: g.names }
    else { g with nodes := g.nodes ++ [n], names := n.name :: g.names })

/-- `Node.out`, `Node.dep` and `Node.wait` -/
def callReference (kind : Reference) (node : Text) (b : Bindings r) : Option (Val r) := do
  let start ← ((b.lookup "start".toList).getD (.int 0)).start? I
  let stop ← (b.get "end").optional (Val.stop? I)
  let groupBy ← (b.get "group_by").optional Val.bound?
  let a : NodeArg := ⟨node, start, stop, groupBy⟩
  match kind with
  | .out => some (.arg (.nodeOutput a))
  | .dep => some (.arg (.nodeDep a))
  | .wait => some (.arg (.nodeBarrier a))

def callCondition (b : Bindings r) : Option (Val r) := do
  let operation ← (← b.required "operation").text?
  let value ← (← b.required "value").conditionValue?
  let valueType ← (← b.required "value_type").text?
  let func ← (← b.required "func").text?
  let args ← (b.get "args").args?
  pure (.condition ⟨operation, value, valueType, func, args⟩)

def callLoop (b : Bindings r) : Option (Val r) := do
  let name ← (← b.required "name").text?
  let factor ← (← b.required "factor").bound?
  pure (.loop ⟨name, factor⟩)

def callIndexFunc (b : Bindings r) : Option (Val r) := do
  let function ← (← b.required "function").text?
  let args ← (b.get "args").args?
  pure (.indexFunc ⟨function, args⟩)

def callScalar (typeName : Text) (b : Bindings r) : Option (Val r) := do
  let value ← (← b.required "value").shown I
  pure (.arg (.typed ⟨typeName, value⟩))

def callComplex (typeName : Text) (b : Bindings r) : Option (Val r) := do
  let real ← (← b.required "real").shown I
  let imag ← (← b.required "imag").shown I
  pure (.arg (.typed ⟨typeName, real ++ ',' :: imag⟩))

def callVec (b : Bindings r) : Option (Val r) := do
  let elementType ← (← b.required "element_type").text?
  match ← b.required "values" with
  | .list items => do
    let values ← items.mapM fun a => (Val.arg a).shown I
    pure (.arg (.typed ⟨"Vec<".toList ++ elementType ++ ">".toList, [','].intercalate values⟩))
  | _ => none

/-- `self._network.update(config)` -/
def callNetwork (args : List (Option Text × Val r)) (g : Graph r) : Option (Val r × Graph r) := do
  let config ← args.mapM fun a => a.1.map fun key => (key, a.2)
  if (config.map (·.1)).Nodup then some (.none, { g with network := config ++ g.network })
  else none

def nodeSignature : Signature :=
  ⟨["name".toList], ["func".toList, "args".toList, "factor".toList, "priority".toList,
    "use_workers".toList, "group_size".toList, "loop".toList, "loop_args".toList,
    "condition".toList]⟩

/-- The parameters of what takes no graph. -/
def Callable.signature : Callable → Signature
  | .scalar _ => ⟨["value".toList], []⟩
  | .string => ⟨["value".toList], []⟩
  | .complex _ => ⟨["real".toList, "imag".toList], []⟩
  | .vec => ⟨["element_type".toList, "values".toList], []⟩
  | .condition =>
    ⟨["operation".toList, "value".toList, "value_type".toList, "func".toList, "args".toList], []⟩
  | .loop => ⟨["name".toList, "factor".toList], []⟩
  | .indexFunc => ⟨["function".toList, "args".toList], []⟩
  | .reference _ _ => ⟨["start".toList, "end".toList], ["group_by".toList]⟩
  | .var => ⟨["name".toList, "value".toList], ["func".toList, "args".toList, "factor".toList]⟩
  | .addNode _ => nodeSignature
  | .graphClass | .network => ⟨[], []⟩

/-- A call that takes no graph. -/
def callPure (f : Callable) (b : Bindings r) : Option (Val r) :=
  match f with
  | .scalar typeName => callScalar I typeName b
  | .string => callScalar I "String".toList b
  | .complex typeName => callComplex I typeName b
  | .vec => callVec I b
  | .condition => callCondition b
  | .loop => callLoop b
  | .indexFunc => callIndexFunc b
  | .reference kind node => callReference I kind node b
  | .graphClass | .var | .addNode _ | .network => none

/-- A call that changes the graph. -/
def callOn (f : Callable) (args : List (Option Text × Val r)) (g : Graph r) :
    Option (Val r × Graph r) :=
  match f with
  | .network => callNetwork args g
  | .var => (f.signature.bind args).bind fun b => callVar b g
  | .addNode post => (f.signature.bind args).bind fun b => callNode post b g
  | _ => none

def Callable.onGraph : Callable → Bool
  | .var | .addNode _ | .network => true
  | _ => false

/-- A call with the graph that there is so far. A second graph is not made. -/
def apply (f : Callable) (args : List (Option Text × Val r)) (g : Option (Graph r)) :
    Option (Val r × Option (Graph r)) :=
  match f with
  | .graphClass => if args = [] ∧ g = none then some (.graph, some .empty) else none
  | f =>
    if f.onGraph then g.bind fun g => (callOn f args g).map fun v => (v.1, some v.2)
    else ((f.signature.bind args).bind (callPure I f)).map (·, g)

end Calls

end Tomii.Codegen
