import Tomii.Graph.InitObjects
import Tomii.Runtime.AffinityGroups
import Tomii.Runtime.ArgPositions

/-! # Graph files and what the loader takes (`json_structs.rs`, `graph_gen.rs`)

The graph file as a whole, and `from_json_str` on it: objects first, then the network receiver, the
nodes one after the other, and the post-nodes. -/
namespace Tomii.Loading
open Types
open Indexes (LoadFailure)
open Affinity (WorkerRange WorkerRangeSpec)
set_option autoImplicit false
set_option maxHeartbeats 250000

/-! ## The file -/

deriving instance DecidableEq for Factor, ArgInit, InitJson, ConditionJson, PredJson, ArgJson

structure LoopJson where
  name : Text
  factor : Option Factor
deriving DecidableEq

structure NodeConditionJson where
  operation : Text
  value : Text
  valueType : Text
  function : Text
  args : List ArgJson
deriving DecidableEq

structure NodeJson where
  name : Text
  factor : Option Factor
  function : Text
  loop : Option LoopJson
  loopArgs : Option (List ArgJson)
  args : List ArgJson
  groupSize : Option Factor
  condition : Option NodeConditionJson
  priority : Option Text
  useWorkers : Option Text
deriving DecidableEq

structure IndexFunctionJson where
  function : Text
  args : List ArgJson
deriving DecidableEq

structure NetworkConfigJson where
  socketType : Text
  numSockets : Factor
  packetLength : Factor
  framePackets : Factor
  bufferDepth : ℕ
  address : Text
  startPort : Factor
  extractPacketFunc : Text
  idFunction : Text
  indexFunction : IndexFunctionJson
deriving DecidableEq

structure GraphFile where
  initializations : List InitJson
  nodes : List NodeJson
  postNodes : Option (List NodeJson)
  networkConfig : Option NetworkConfigJson
deriving DecidableEq

/-! ## Worker ranges (`worker_range.rs`) -/

def parseUsize (s : Text) : Option ℕ := (parseInt .usize s).map fun n => n.val.toNat

def rangeText (what part s : Text) : Text :=
  "Invalid ".toList ++ what ++ " value '".toList ++ part ++ "' in range '".toList ++ s ++ "'".toList

/-- `WorkerRange::parse` -/
def parseWorkerRange (s : Text) : Except Text WorkerRange :=
  match s.splitOn '-' with
  | [first, second] =>
    match parseUsize (trim first) with
    | none => .error (rangeText "start".toList first s)
    | some start =>
      match parseUsize (trim second) with
      | none => .error (rangeText "end".toList second s)
      | some endInclusive =>
        if start > endInclusive then
          .error ("Invalid range '".toList ++ s ++ "': start ".toList ++ showInt start ++
            " > end ".toList ++ showInt endInclusive)
        else .ok ⟨start, (endInclusive + 1) % 2 ^ 64⟩
  | _ => .error ("Invalid range format: '".toList ++ s ++ "'. Expected 'start-end'".toList)

/-- `WorkerRangeSpec::parse`. A text with one minus sign, not in front, is a range. -/
def parseWorkerRangeSpec (s : Text) : Except Text WorkerRangeSpec :=
  let s := trim s
  if s.count '-' = 1 ∧ s.head? ≠ some '-' then (parseWorkerRange s).map .range
  else
    match parseUsize s with
    | some 0 => .error "Worker count must be > 0".toList
    | some count => .ok (.count count)
    | none =>
      if '-' ∈ s then (parseWorkerRange s).map .range
      else .error ("Invalid use_workers format '".toList ++ s ++
        "'. Expected count (e.g., '4') or range (e.g., '0-7')".toList)

/-! ## Nodes -/

inductive NodePriority where
  | high | normal | low

def NodePriority.parse (s : Text) : NodePriority :=
  if s = "high".toList then .high else if s = "low".toList then .low else .normal

structure NodeCondition (r : FloatParsers) where
  operation : CondOp
  evalValue : Types.CmTypes r
  funcName : Text
  args : List (Arg r)

/-- `graph_struct::Node` without its id. -/
structure LoadedNode (r : FloatParsers) where
  name : Text
  args : List (Arg r)
  loopArgs : Option (List (Arg r))
  factor : ℕ
  groupSize : Option ℕ
  funcName : Text
  loop : Option (Text × ℕ)
  condition : Option (NodeCondition r)
  priority : NodePriority
  useWorkers : Option WorkerRangeSpec

section Nodes

variable {r : FloatParsers} {A : Type}

/-- What the check of the argument layout reads. -/
def Arg.loaded (a : Arg r) : LoadedArg Unit where
  type :=
    match a.type with
    | .res index => .res index.val.toNat
    | _ => .none
  initCondition := a.initCondition.isSome
  predecessor := a.predecessor

def checkLayout (name : Text) (args : List (Arg r)) (factor : ℕ) : Except LoadFailure Unit :=
  match validateResArgLayout (String.ofList name) (args.map Arg.loaded) factor with
  | .ok () => .ok ()
  | .error e => .error (.error e.toList)

variable (env : InitObjects r A) (nameToId : List (Text × ℕ)) (workers : ℕ)

def parseNodeCondition (cond : NodeConditionJson) : Except LoadFailure (NodeCondition r) :=
  match CondOp.parse cond.operation with
  | none =>
    .error (.error ("Invalid condition operation '".toList ++ cond.operation ++ "'".toList))
  | some operation =>
    match stringToCmtype r cond.valueType cond.value with
    | .error e =>
      .error (.error ("Failed to parse condition value '".toList ++ cond.value ++ "': ".toList ++
        e.details))
    | .ok evalValue => do
      let args ← cond.args.mapM (parseArg env nameToId workers)
      pure ⟨operation, evalValue, cond.function, args⟩

def parseUseWorkers (spec : Text) : Except LoadFailure WorkerRangeSpec :=
  match parseWorkerRangeSpec spec with
  | .ok useWorkers => .ok useWorkers
  | .error e =>
    .error (.error ("Invalid use_workers spec '".toList ++ spec ++ "': ".toList ++ e))

/-- `parse_single_node` -/
def parseSingleNode (node : NodeJson) : Except LoadFailure (LoadedNode r) := do
  let args ← node.args.mapM (parseArg env nameToId workers)
  let loopArgs ← node.loopArgs.mapM fun args => args.mapM (parseArg env nameToId workers)
  let factor ← orPanic (factorOf env workers node.factor)
  let groupSize ← node.groupSize.mapM fun size => orPanic (size.resolve env workers)
  let loop ← node.loop.mapM fun loop => do
    let factor ← orPanic (factorOf env workers loop.factor)
    pure (loop.name, factor)
  checkLayout node.name args factor
  let condition ← node.condition.mapM (parseNodeCondition env nameToId workers)
  let useWorkers ← node.useWorkers.mapM parseUseWorkers
  pure ⟨node.name, args, loopArgs, factor, groupSize, node.function, loop, condition,
    (node.priority.map NodePriority.parse).getD .normal, useWorkers⟩

end Nodes

/-! ## The network receiver -/

structure GraphNetworkConfig (r : FloatParsers) (A : Type) where
  numSockets : ℕ
  packetLength : ℕ
  framePackets : ℕ
  bufferDepth : ℕ
  address : Text
  startPort : ℕ
  extractPacketFunc : Option (InitFn r A)
  idFunction : Option (InitFn r A)
  indexFunction : Option (InitFn r A) × List (Arg r)

section Network

variable {r : FloatParsers} {A : Type}

/-- `as_string` -/
def Value.asString : Value r A → Option Text
  | .read (.string s) => some s
  | _ => none

def networkAddress (env : InitObjects r A) (given : Text) : Except LoadFailure Text :=
  match env.objIdMap.lookup given with
  | none => .ok given
  | some id => do
    let value ← orPanic (env.firstValue id)
    match value.asString with
    | some address => .ok address
    | none =>
      .error (.error "Network address must be a String type in init_objects".toList)

/-- `parse_network_config`. Functions that are not registered are left out. -/
def parseNetworkConfig (getFunc : Text → Option (InitFn r A)) (workers : ℕ) (env : InitObjects r A)
    (config : NetworkConfigJson) : Except LoadFailure (GraphNetworkConfig r A) := do
  if config.socketType.map Char.toLower ≠ "udp".toList then
    .error (.error ("Unsupported socket type '".toList ++ config.socketType.map Char.toLower ++
      "'. Only 'udp' is currently supported.".toList))
  let numSockets ← orPanic (config.numSockets.resolve env workers)
  let packetLength ← orPanic (config.packetLength.resolve env workers)
  let framePackets ← orPanic (config.framePackets.resolve env workers)
  let address ← networkAddress env config.address
  let startPort ← orPanic (config.startPort.resolve env workers)
  let args ← config.indexFunction.args.mapM (parseArg env [] workers)
  pure ⟨numSockets, packetLength, framePackets, config.bufferDepth, address, startPort,
    getFunc config.extractPacketFunc, getFunc config.idFunction,
    (getFunc config.indexFunction.function, args)⟩

end Network

/-! ## The graph -/

/-- The nodes in the order of their ids, and the ids by name. -/
structure NodeTable (r : FloatParsers) where
  nodes : List (LoadedNode r)
  nameToId : List (Text × ℕ)

/-- `GraphSpec` -/
structure GraphSpec (r : FloatParsers) (A : Type) where
  network : Option (GraphNetworkConfig r A)
  nodes : List (LoadedNode r)
  postNodes : List (LoadedNode r)
  initObjects : InitObjects r A

section Graph

variable {r : FloatParsers} {A : Type}

/-- The virtual node of the network receiver has id 0. -/
def networkNode (framePackets : ℕ) : LoadedNode r :=
  ⟨"$network".toList, [], none, framePackets, none, [], none, none, .normal, none⟩

def NodeTable.start : Option (GraphNetworkConfig r A) → NodeTable r
  | none => ⟨[], []⟩
  | some config => ⟨[networkNode config.framePackets], [("$network".toList, 0)]⟩

/-- Ids have 16 bits. The assertion on the id fails where the counter has wrapped around. -/
def NodeTable.add (env : InitObjects r A) (workers : ℕ) (table : NodeTable r) (node : NodeJson) :
    Except LoadFailure (NodeTable r) := do
  let loaded ← parseSingleNode env table.nameToId workers node
  if table.nodes.length < 2 ^ 16 then
    pure ⟨table.nodes ++ [loaded], (node.name, table.nodes.length) :: table.nameToId⟩
  else .error .panic

/-- `from_json_str`, once the text is read as a graph file. -/
def fromJsonStr (getFunc : Text → Option (InitFn r A)) (workers : ℕ) (file : GraphFile) :
    Except LoadFailure (GraphSpec r A) := do
  let env ← initObjects getFunc workers file.initializations
  let network ← file.networkConfig.mapM (parseNetworkConfig getFunc workers env)
  let table ← file.nodes.foldlM (NodeTable.add env workers) (.start network)
  let postNodes ← (file.postNodes.getD []).mapM (parseSingleNode env table.nameToId workers)
  if postNodes.length ≤ 2 ^ 16 then pure ⟨network, table.nodes, postNodes, env⟩
  else .error .panic

/-- The loader makes a graph of the file. -/
def GraphFile.Accepted (getFunc : Text → Option (InitFn r A)) (workers : ℕ) (file : GraphFile) :
    Prop :=
  (fromJsonStr getFunc workers file).isOk = true

end Graph

end Tomii.Loading
