import Tomii.Codegen.PyApi

/-! # Running a program and serializing its graph (`tomii/_serialize.py`)

The program defines `build_graph`, which is called. A name that the body assigns anywhere is local to
it. Programs outside of the fragment that is read do not run here. -/
namespace Tomii.Codegen
open Types Python
set_option autoImplicit false
set_option maxHeartbeats 250000

variable {r : FloatParsers} (I : Interpreter r)

/-! ## Expressions -/

/-- The types of `tomii` that wrap one value. -/
def scalarNames : List Text :=
  ["usize".toList, "isize".toList, "i8".toList, "i16".toList, "i32".toList, "i64".toList,
    "i128".toList, "u8".toList, "u16".toList, "u32".toList, "u64".toList, "u128".toList,
    "f32".toList, "f64".toList]

def moduleAttr (x : Text) : Option (Val r) :=
  if x ∈ scalarNames then some (.fn (.scalar x))
  else if x = "String".toList then some (.fn .string)
  else if x = "Complex32".toList ∨ x = "Complex64".toList then some (.fn (.complex x))
  else if x = "Vec".toList then some (.fn .vec)
  else if x = "Graph".toList then some (.fn .graphClass)
  else if x = "Condition".toList then some (.fn .condition)
  else if x = "Loop".toList then some (.fn .loop)
  else if x = "IndexFunc".toList then some (.fn .indexFunc)
  else none

def getAttr (v : Val r) (x : Text) : Option (Val r) :=
  match v with
  | .module => moduleAttr x
  | .graph =>
    if x = "var".toList then some (.fn .var)
    else if x = "node".toList then some (.fn (.addNode false))
    else if x = "post_node".toList then some (.fn (.addNode true))
    else if x = "network".toList then some (.fn .network)
    else none
  | .node name =>
    if x = "out".toList then some (.fn (.reference .out name))
    else if x = "dep".toList then some (.fn (.reference .dep name))
    else if x = "wait".toList then some (.fn (.reference .wait name))
    else none
  | _ => none

/-- What the header of the program imports. -/
def globalName (x : Text) : Option (Val r) :=
  if x = "tm".toList then some .module
  else if x = "Condition".toList then some (.fn .condition)
  else if x = "Loop".toList then some (.fn .loop)
  else none

/-- The names that are local, and those assigned so far, the latest first. -/
structure Scope (r : FloatParsers) where
  locals : List Text
  assigned : List (Text × Val r)

def Scope.get (s : Scope r) (x : Text) : Option (Val r) :=
  if x ∈ s.locals then s.assigned.lookup x else globalName x

def negated : Val r → Option (Val r)
  | .arg (.plain (.int n)) => some (.int (-n))
  | .arg (.plain (.float x)) => some (.arg (.plain (.float (I.negate x))))
  | _ => none

abbrev State (r : FloatParsers) : Type := Option (Graph r)

section Evaluation

variable (s : Scope r)

mutual

def eval : Expr → State r → Option (Val r × State r)
  | .none, g => some (.none, g)
  | .bool b, g => some (.arg (.plain (.bool b)), g)
  | .name x, g => (s.get x).map (·, g)
  | .int n, g => some (.int n, g)
  | .float lexeme, g => (I.floatLiteral lexeme).map fun x => (.arg (.plain (.float x)), g)
  | .str t, g => some (.str t, g)
  | .neg e, g => (eval e g).bind fun v => (negated I v.1).map (·, v.2)
  | .attr e x, g => (eval e g).bind fun v => (getAttr v.1 x).map (·, v.2)
  | .call f args, g =>
    (eval f g).bind fun v => (evalArgs args v.2).bind fun vs =>
      match v.1 with
      | .fn f => apply I f vs.1 vs.2
      | _ => none
  | .list items, g =>
    (evalArgs items g).bind fun vs =>
      (vs.1.mapM fun v : Option Text × Val r => v.2.arg?).map (.list ·, vs.2)

def evalArgs : Args → State r → Option (List (Option Text × Val r) × State r)
  | .nil, g => some ([], g)
  | .cons key e rest, g =>
    (eval e g).bind fun v => (evalArgs rest v.2).map fun vs => ((key, v.1) :: vs.1, vs.2)

end

theorem eval_name (x : Text) (g : State r) : eval I s (.name x) g = (s.get x).map (·, g) := rfl

theorem eval_float (lexeme : Text) (g : State r) : eval I s (.float lexeme) g =
    (I.floatLiteral lexeme).map fun x => (.arg (.plain (.float x)), g) := rfl

theorem eval_neg (e : Expr) (g : State r) : eval I s (.neg e) g =
    (eval I s e g).bind fun v => (negated I v.1).map (·, v.2) := rfl

theorem eval_attr (e : Expr) (x : Text) (g : State r) : eval I s (.attr e x) g =
    (eval I s e g).bind fun v => (getAttr v.1 x).map (·, v.2) := rfl

theorem eval_call (f : Expr) (args : Args) (g : State r) : eval I s (.call f args) g =
    (eval I s f g).bind fun v => (evalArgs I s args v.2).bind fun vs =>
      match v.1 with
      | .fn f => apply I f vs.1 vs.2
      | _ => none := rfl

theorem eval_list (items : Args) (g : State r) : eval I s (.list items) g =
    (evalArgs I s items g).bind fun vs =>
      (vs.1.mapM fun v : Option Text × Val r => v.2.arg?).map (.list ·, vs.2) := rfl

theorem evalArgs_cons (key : Option Text) (e : Expr) (rest : Args) (g : State r) :
    evalArgs I s (.cons key e rest) g = (eval I s e g).bind fun v =>
      (evalArgs I s rest v.2).map fun vs => ((key, v.1) :: vs.1, vs.2) := rfl

end Evaluation

/-! ## Statements -/

def assignedNames : List Stmt → List Text
  | [] => []
  | .assign x _ :: rest => x :: assignedNames rest
  | .ret _ :: rest => assignedNames rest

/-- The value that is returned, with the graph. -/
def exec (locals : List Text) : List Stmt → List (Text × Val r) → State r → Option (Val r × State r)
  | [], _, g => some (.none, g)
  | .assign x e :: rest, assigned, g =>
    (eval I ⟨locals, assigned⟩ e g).bind fun v => exec locals rest ((x, v.1) :: assigned) v.2
  | .ret e :: _, assigned, g => eval I ⟨locals, assigned⟩ e g

/-- The lines in front of the body, the last one included. -/
def header : Text :=
  "import tomii as tm\nfrom tomii import Condition, Loop\n\n\ndef build_graph() -> tm.Graph:\n".toList

/-- Runs the program, calls `build_graph`, and gives the graph that it returns. -/
def execute (program : Text) : Option (Graph r) := do
  let body ← header.isPrefixOf? program
  let stmts ← read I.tables body
  match ← exec I (assignedNames stmts) stmts [] none with
  | (.graph, some g) => some g
  | _ => none

/-! ## The graph file -/

/-- `_factor`. No graph file holds a negative factor. -/
def factorJson : Option Types.Factor → Option (Option Loading.Factor)
  | none => some none
  | some (.int n) => if 0 ≤ n then some (some (.number n.toNat)) else none
  | some (.text s) => some (some (.ref s))

/-- `_arg`, for the whole graph file. -/
def argJson (a : Types.Arg r) : Option Loading.ArgJson :=
  match Types.argJson I.floats a with
  | .error _ => none
  | .ok json =>
    match json.predecessor with
    | none => some ⟨json.type, json.value, none, none⟩
    | some pred => (factorJson pred.groupBy).map fun groupBy =>
        ⟨json.type, json.value, none, some ⟨pred.name, pred.indexes, groupBy⟩⟩

/-- `_arg_init` -/
def argInit (a : Types.Arg r) : Option Loading.ArgInit :=
  match Types.argInit I.floats a with
  | .error _ => none
  | .ok json => some ⟨json.type, json.value⟩

/-- `_condition_value` -/
def conditionValue : PyValue r ⊕ TypedValue → Text
  | .inr typed => typed.valueStr
  | .inl (.bool b) => if b then "true".toList else "false".toList
  | .inl v => pyStr I.floats v

def loopJson (l : Loop) : Option Loading.LoopJson :=
  (factorJson (Types.factor (some l.factor))).map fun factor => ⟨l.name, factor⟩

def conditionJson (c : Condition r) : Option Loading.NodeConditionJson :=
  (c.args.mapM (argJson I)).map fun args =>
    ⟨c.operation, conditionValue I c.value, c.valueType, c.func, args⟩

/-- `_node` -/
def nodeJson (n : Node r) : Option Loading.NodeJson := do
  let loop ← n.loop.mapM loopJson
  let condition ← n.condition.mapM (conditionJson I)
  let factor ← factorJson (Types.factor n.factor)
  let loopArgs ← n.loopArgs.mapM (argJson I)
  let args ← n.args.mapM (argJson I)
  let groupSize ← factorJson (Types.factor n.groupSize)
  pure ⟨n.name, factor, n.func, loop, if loopArgs = [] then none else some loopArgs, args,
    groupSize, condition, n.priority, n.useWorkers⟩

/-- `_init` -/
def initJson (v : Var r) : Option Loading.InitJson := do
  let args ← (v.value.toList ++ v.args).mapM (argInit I)
  let factor ← factorJson (Types.factor v.factor)
  pure ⟨v.name, factor, args, v.func⟩

/-- A text, or the name of a variable. -/
def textOrName : Val r → Option Text
  | .arg (.var name) => some name
  | v => v.text?

/-- A required number or name. -/
def networkFactor (v : Val r) : Option Loading.Factor := do
  let bound ← v.bound?
  let factor ← factorJson (Types.factor (some bound))
  factor

def bufferDepth : Option (Val r) → Option ℕ
  | none => some 128
  | some (.arg (.plain (.int n))) => if 0 ≤ n then some n.toNat else none
  | some _ => none

/-- `_network` -/
def networkJson (config : List (Text × Val r)) : Option Loading.NetworkConfigJson := do
  let indexFunction ← match ← config.lookup "index_function".toList with
    | .indexFunc f => (f.args.mapM (argJson I)).map fun args =>
        (⟨f.function, args⟩ : Loading.IndexFunctionJson)
    | _ => none
  let socketType ← (← config.lookup "socket_type".toList).text?
  let numSockets ← networkFactor (← config.lookup "num_sockets".toList)
  let packetLength ← networkFactor (← config.lookup "packet_length".toList)
  let framePackets ← networkFactor
    (← (config.lookup "frame_packets".toList).or (config.lookup "stream_packets".toList))
  let depth ← bufferDepth (config.lookup "buffer_depth".toList)
  let address ← textOrName (← config.lookup "address".toList)
  let startPort ← networkFactor (← config.lookup "start_port".toList)
  let extractPacketFunc ← (← config.lookup "extract_packet_func".toList).text?
  let idFunction ← (← config.lookup "id_function".toList).text?
  pure ⟨socketType, numSockets, packetLength, framePackets, depth, address, startPort,
    extractPacketFunc, idFunction, indexFunction⟩

/-- `serialize_graph` -/
def serializeGraph (g : Graph r) : Option Loading.GraphFile := do
  let initializations ← g.vars.mapM (initJson I)
  let nodes ← g.nodes.mapM (nodeJson I)
  let postNodes ← g.postNodes.mapM (nodeJson I)
  let networkConfig ← if g.network.isEmpty then some none else (networkJson I g.network).map some
  pure ⟨initializations, nodes, if postNodes = [] then none else some postNodes, networkConfig⟩

end Tomii.Codegen
