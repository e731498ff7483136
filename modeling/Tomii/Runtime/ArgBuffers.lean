import Tomii.Foundations.SlotWrites
import Tomii.Buffers.ResultMap
import Tomii.Runtime.ArgResolution

/-! # Argument buffers (`node_cache.rs`, `arg_resolution.rs`)

A node's arguments become a template with placeholders and lists of the slots to fill for each
task. `$res` slots are filled with what the resolver finds, waits for, or gives up on. -/
namespace Tomii
set_option autoImplicit false
set_option maxHeartbeats 250000

/-! ## Loaded arguments -/

/-- An argument of a loaded node with its value (`graph_struct::Arg`). -/
structure LoadedArg (α : Type) where
  type : CmTypes α
  initCondition : Bool
  predecessor : Option Predecessor

namespace LoadedArg

variable {α : Type} (a : LoadedArg α)

def isCondition : Bool := a.initCondition

/-- `type_.is_result()` -/
def isResult : Bool :=
  match a.type with
  | .res _ => true
  | _ => false

/-- What routing reads of the argument. -/
def toArg : Arg where
  type :=
    match a.type with
    | .res _ => .res
    | .dep _ => .dep
    | .barrier _ => .barrier
    | .ref _ => .ref
    | _ => .value
  initCondition := a.initCondition
  predecessor := a.predecessor

end LoadedArg

/-- A loaded node (`graph_struct::Node`). -/
structure LoadedNode (α : Type) where
  name : String
  id : ℕ
  funcName : String
  args : List (LoadedArg α)
  /-- `condition.args` -/
  condArgs : Option (List (LoadedArg α))
  factor : ℕ
  groupSize : Option ℕ

/-- What the graph reads of the node. -/
def LoadedNode.toNode {α : Type} (node : LoadedNode α) : Node :=
  ⟨node.name = "$network", node.id, node.args.map (·.toArg), node.factor, node.groupSize,
    node.condArgs.isSome⟩

/-! ## Caches -/

structure ResPredCache where
  nodeId : ℕ
  resNodeId : ℕ
  indexes : List ℤ
  predFactor : ℕ
  predGroupSize : Option ℕ
  nodeGroupSize : Option ℕ
  nodeFactor : ℕ
  isDep : Bool
  nodeHasBarrier : Bool
deriving DecidableEq, Repr

structure ArgCacheEntry (α : Type) where
  args : List (CmTypes α)
  bufferRefIndexes : List ℕ
  bufferValues : List (List (CmTypes α))
  rtIdxsIndexes : List ℕ
  rtWorkersIndexes : List ℕ
  resIndexes : List ℕ
  resPredecessors : List ResPredCache

section Build

variable {α : Type}

/-- The arguments that have a slot. -/
def argLayout (skipConditions : Bool) (args : List (LoadedArg α)) : List (LoadedArg α) :=
  args.filter fun a => !(skipConditions && a.isCondition)

variable (initObjects : List (List (CmTypes α)))

/-- The loop body of `build_arg_cache` with `idx_count`; an object that does not exist or is
empty panics. -/
def ArgCacheEntry.addArg (st : ArgCacheEntry α × ℕ) (a : LoadedArg α) :
    Option (ArgCacheEntry α × ℕ) :=
  let (c, i) := st
  match a.type with
  | .ref objId =>
    if objId = 0 then some ({ c with rtIdxsIndexes := c.rtIdxsIndexes ++ [i] }, i + 1)
    else if objId = 1 then some ({ c with rtWorkersIndexes := c.rtWorkersIndexes ++ [i] }, i + 1)
    else
      match initObjects[objId]? with
      | none => none
      | some [] => none
      | some [v] => some ({ c with args := c.args.set i v }, i + 1)
      | some objVec =>
        some ({ c with
          bufferRefIndexes := c.bufferRefIndexes ++ [i]
          bufferValues := c.bufferValues ++ [objVec] }, i + 1)
  | .res _ => some ({ c with resIndexes := c.resIndexes ++ [i] }, i + 1)
  | .dep _ => some ({ c with resIndexes := c.resIndexes ++ [i] }, i + 1)
  | .barrier _ => some (c, i + 1)
  | t => some ({ c with args := c.args.set i t }, i + 1)

/-- `args_out` and the empty lists. -/
def ArgCacheEntry.blank (n : ℕ) : ArgCacheEntry α :=
  ⟨List.replicate n .none, [], [], [], [], [], []⟩

/-- `build_arg_cache` -/
def buildArgCache (args : List (LoadedArg α)) (skipConditions : Bool) : Option (ArgCacheEntry α) :=
  ((argLayout skipConditions args).foldlM (ArgCacheEntry.addArg initObjects)
    (.blank args.length, 0)).map (·.1)

variable (nodes : List (LoadedNode α)) (node : LoadedNode α)

/-- The entry of `build_res_preds` for an argument, if it has one; a result of a node that does
not exist panics. -/
def resPredOf (a : LoadedArg α) : Option (Option ResPredCache) :=
  match a.type with
  | .res resNid =>
    (nodes[resNid]?).map fun pred => some
      { nodeId := node.id
        resNodeId := resNid
        indexes := (a.predecessor.map (·.indexes)).getD []
        predFactor := pred.factor
        predGroupSize := pred.groupSize
        nodeGroupSize := node.groupSize
        nodeFactor := node.factor
        isDep := false
        nodeHasBarrier := node.toNode.hasBarrier }
  | .dep resNid =>
    some (some
      { nodeId := node.id
        resNodeId := resNid
        indexes := []
        predFactor := 0
        predGroupSize := none
        nodeGroupSize := none
        nodeFactor := node.factor
        isDep := true
        nodeHasBarrier := node.toNode.hasBarrier })
  | _ => some none

/-- `build_res_preds` -/
def buildResPreds (args : List (LoadedArg α)) (skipConditions : Bool) :
    Option (List ResPredCache) :=
  ((argLayout skipConditions args).mapM (resPredOf nodes node)).map (·.reduceOption)

/-- An argument cache with its predecessors, as the passes of `build_node_cache` leave it. -/
def argCacheOf (args : List (LoadedArg α)) (skipConditions : Bool) : Option (ArgCacheEntry α) := do
  let entry ← buildArgCache initObjects args skipConditions
  let preds ← buildResPreds nodes node args skipConditions
  pure { entry with resPredecessors := preds }

/-- `arg_cache` of a node: conditions have no slot. -/
def mainArgCache : Option (ArgCacheEntry α) := argCacheOf initObjects nodes node node.args true

/-- `arg_cache` of a node-level condition: every argument has a slot. -/
def condArgCache : Option (ArgCacheEntry α) :=
  node.condArgs.bind fun args => argCacheOf initObjects nodes node args false

end Build

/-! ## Resolving -/

/-- One look of a waiting worker at the result, the shutdown flag and the slot's generation. -/
structure Poll (α : Type) where
  result : Option (CmTypes α)
  shutdown : Bool
  gen : UInt32

inductive CellRead (α : Type) where
  | found (v : CmTypes α)
  /-- no value, and `stale` not set -/
  | abandoned
  | stale

/-- `spin_wait_for_result`; `execGen` is missing when `exec_slot` is `usize::MAX`. A worker that
still waits has no outcome. -/
def spinWaitForResult {α : Type} (singleSlotMode : Bool) (execGen : Option UInt32) :
    List (Poll α) → Option (CellRead α)
  | [] => none
  | poll :: polls =>
    match poll.result with
    | some v => some (.found v)
    | none =>
      if poll.shutdown then some .stale
      else if execGen.any (· ≠ poll.gen) then
        some (if singleSlotMode then .abandoned else .stale)
      else spinWaitForResult singleSlotMode execGen polls

/-- What one fetch sees: `node_results.get`, then the polls of the wait. -/
structure CellHistory (α : Type) where
  first : Option (CmTypes α)
  polls : List (Poll α)

/-- The settings that the resolver reads. -/
structure ArgConfig where
  singleSlotMode : Bool
  workers : ℕ
  predGroupBy : ℕ → ℕ → Option ℕ

/-- A task's view of the runtime: fetch `n` of `$res` argument `i`, at a cell. -/
structure TaskView (α : Type) where
  nodeIndex : ℕ
  slot : ℕ
  predIndex : ℕ
  execGen : Option UInt32
  looks : ℕ → ℕ → ResultCell → CellHistory α

inductive ArgResolution (α : Type) where
  | values (vs : List (CmTypes α))
  | missing
  | stale

namespace ResPredCache

variable {α : Type} (rp : ResPredCache) (cfg : ArgConfig) (task : TaskView α)

/-- `pred_eff_gs` -/
def predEffGs : Option ℕ := rp.predGroupSize.or (cfg.predGroupBy rp.nodeId rp.resNodeId)

/-- The predecessor instances that `fetch_res_results` reads; `none` for a panic. -/
def depIndexes (nodeIndex predIndex : ℕ) : Option (List ℕ) :=
  match rp.indexes with
  | [] => some []
  | [declared] =>
    (singleIndexDepIdx nodeIndex declared rp.predFactor rp.nodeGroupSize (rp.predEffGs cfg)).map
      ([·])
  | indexes =>
    if indexes.length = rp.nodeFactor then
      (perInstanceDepIdx indexes nodeIndex predIndex rp.predFactor rp.nodeFactor
        rp.nodeHasBarrier).map ([·])
    else indexes.mapM fun declared => findPredIndex nodeIndex declared rp.predFactor

/-- One fetch. -/
def readCell (history : CellHistory α) : Option (CellRead α) :=
  match history.first with
  | some v => some (.found v)
  | none => spinWaitForResult cfg.singleSlotMode task.execGen history.polls

/-- The fetches of one argument in order; the first that fails ends them. -/
def collectCells (arg : ℕ) : List ℕ → ℕ → Option (ArgResolution α)
  | [], _ => some (.values [])
  | depIdx :: rest, n =>
    match readCell cfg task (task.looks arg n ⟨task.slot, rp.resNodeId, depIdx⟩) with
    | none => none
    | some .stale => some .stale
    | some .abandoned => some .missing
    | some (.found v) =>
      match collectCells arg rest (n + 1) with
      | some (.values vs) => some (.values (v :: vs))
      | other => other

/-- `collect_res_from_cache` with `fetch_res_results`, for `$res` argument `arg`. -/
def collectResFromCache (arg : ℕ) : Option (ArgResolution α) :=
  if rp.isDep then some (.values [.none])
  else if rp.indexes = [] then some .missing
  else do
    let cells ← rp.depIndexes cfg task.nodeIndex task.predIndex
    rp.collectCells cfg task arg cells 0

end ResPredCache

/-! ## Filling -/

/-- `get_object_value` -/
def getObjectValue {α : Type} (objVec : List (CmTypes α)) (nodeIndex : ℕ) : CmTypes α :=
  objVec.getD (if 1 < objVec.length then nodeIndex % objVec.length else 0) .none

namespace ArgCacheEntry

variable {α : Type} (entry : ArgCacheEntry α) (cfg : ArgConfig) (task : TaskView α)

/-- `process_buffer_refs` -/
def processBufferRefs (nodeIndex : ℕ) (buf : List (CmTypes α)) : List (CmTypes α) :=
  setAll buf ((entry.bufferRefIndexes.zip entry.bufferValues).map fun p =>
    (p.1, getObjectValue p.2 nodeIndex))

/-- `process_runtime_refs` -/
def processRuntimeRefs (nodeIndex workers : ℕ) (buf : List (CmTypes α)) : List (CmTypes α) :=
  let index : CmTypes α := .usize (UInt64.ofNat nodeIndex)
  let count : CmTypes α := .usize (UInt64.ofNat workers)
  if entry.rtIdxsIndexes.length = entry.rtWorkersIndexes.length then
    (entry.rtIdxsIndexes.zip entry.rtWorkersIndexes).foldl
      (fun b p => (b.set p.1 index).set p.2 count) buf
  else
    setAll (setAll buf (entry.rtIdxsIndexes.map (·, index)))
      (entry.rtWorkersIndexes.map (·, count))

/-- The loop over the `$res` slots, from argument `arg` on: one value is assigned, several are
spliced, and a stale task ends it. -/
def fillResults : List (ℕ × ResPredCache) → ℕ → List (CmTypes α) →
    Option (List (CmTypes α) × Bool)
  | [], _, buf => some (buf, false)
  | (resIdx, rp) :: rest, arg, buf =>
    match rp.collectResFromCache cfg task arg with
    | none => none
    | some .stale => some (buf, true)
    | some .missing => fillResults rest (arg + 1) buf
    | some (.values [v]) => fillResults rest (arg + 1) (buf.set resIdx v)
    | some (.values vs) => fillResults rest (arg + 1) (splice buf resIdx vs)

/-- The worker count, which callers look up when some slot needs it. -/
def workerCount : ℕ := if entry.rtWorkersIndexes ≠ [] then cfg.workers else 0

/-- The slots that need no result. -/
def patchRefs (nodeIndex : ℕ) (buf : List (CmTypes α)) : List (CmTypes α) :=
  entry.processRuntimeRefs nodeIndex (entry.workerCount cfg) (entry.processBufferRefs nodeIndex buf)

/-- `populate_dynamic_args_into`: the buffer and `stale`; `none` for a panic or while a worker
waits. -/
def populateDynamicArgsInto (buf : List (CmTypes α)) : Option (List (CmTypes α) × Bool) :=
  fillResults cfg task (entry.resIndexes.zip entry.resPredecessors) 0
    (entry.patchRefs cfg task.nodeIndex buf)

/-- `has_dynamic` -/
def hasDynamic : Bool :=
  entry.bufferRefIndexes ≠ [] || entry.rtIdxsIndexes ≠ [] || entry.rtWorkersIndexes ≠ [] ||
    entry.resIndexes ≠ []

/-- `populate_cached_args_into` -/
def populateCachedArgsInto (buf : List (CmTypes α)) : Option (List (CmTypes α) × Bool) :=
  let buf := buf ++ entry.args
  if entry.hasDynamic then
    fillResults cfg task (entry.resIndexes.zip entry.resPredecessors) 0
      (entry.patchRefs cfg task.nodeIndex buf)
  else some (buf, false)

/-- Without dynamic slots there is nothing to fill. -/
theorem populateDynamicArgsInto_of_static (h : entry.hasDynamic = false) (buf : List (CmTypes α)) :
    entry.populateDynamicArgsInto cfg task buf = some (buf, false) := by
  simp only [hasDynamic, Bool.or_eq_false_iff, decide_eq_false_iff_not, not_not] at h
  obtain ⟨⟨⟨hbuf, hidx⟩, hworkers⟩, hres⟩ := h
  simp [populateDynamicArgsInto, patchRefs, processBufferRefs, processRuntimeRefs, hbuf, hidx,
    hworkers, hres, fillResults]

/-- A fresh buffer is the template with its dynamic slots filled. -/
theorem populateCachedArgsInto_nil :
    entry.populateCachedArgsInto cfg task [] = entry.populateDynamicArgsInto cfg task entry.args := by
  unfold populateCachedArgsInto
  rw [List.nil_append]
  split
  · rfl
  · next h =>
    rw [populateDynamicArgsInto_of_static _ _ _ (Bool.eq_false_iff.mpr h)]

variable {cfg task}

/-- What one `$res` slot can do. -/
inductive FillStep (w : ℕ × ResPredCache) (rest : List (ℕ × ResPredCache)) (arg : ℕ)
    (buf buf' : List (CmTypes α)) (stale : Bool) : Prop
  | stale (hstale : stale = true) (hbuf : buf' = buf)
      (hres : w.2.collectResFromCache cfg task arg = some .stale) : FillStep w rest arg buf buf' stale
  | missing (hres : w.2.collectResFromCache cfg task arg = some .missing)
      (hrest : fillResults cfg task rest (arg + 1) buf = some (buf', stale)) :
      FillStep w rest arg buf buf' stale
  | single (v : CmTypes α) (hres : w.2.collectResFromCache cfg task arg = some (.values [v]))
      (hrest : fillResults cfg task rest (arg + 1) (buf.set w.1 v) = some (buf', stale)) :
      FillStep w rest arg buf buf' stale
  | many (vs : List (CmTypes α)) (hvs : vs.length ≠ 1)
      (hres : w.2.collectResFromCache cfg task arg = some (.values vs))
      (hrest : fillResults cfg task rest (arg + 1) (splice buf w.1 vs) = some (buf', stale)) :
      FillStep w rest arg buf buf' stale

theorem fillResults_cons {w : ℕ × ResPredCache} {rest : List (ℕ × ResPredCache)} {arg : ℕ}
    {buf buf' : List (CmTypes α)} {stale : Bool}
    (h : fillResults cfg task (w :: rest) arg buf = some (buf', stale)) :
    @FillStep α cfg task w rest arg buf buf' stale := by
  obtain ⟨idx, rp⟩ := w
  unfold fillResults at h
  split at h
  · cases h
  · next hres =>
    obtain ⟨rfl, rfl⟩ := Prod.mk.inj (Option.some.inj h)
    exact .stale rfl rfl hres
  · next hres => exact .missing hres h
  · next v hres => exact .single v hres h
  · next vs hmany hres =>
    refine .many vs (fun hone => ?_) hres h
    obtain ⟨v, rfl⟩ := List.length_eq_one_iff.mp hone
    exact hmany v rfl

/-- A buffer that is filled has an outcome for every slot. -/
theorem fillResults_outcome {rs : List (ℕ × ResPredCache)} {arg : ℕ} {buf buf' : List (CmTypes α)}
    (h : fillResults cfg task rs arg buf = some (buf', false)) {i : ℕ} {w : ℕ × ResPredCache}
    (hw : rs[i]? = some w) :
    ∃ res, w.2.collectResFromCache cfg task (arg + i) = some res ∧ res ≠ .stale := by
  induction rs generalizing arg buf i with
  | nil => cases hw
  | cons v rest ih =>
    have hstep : (∃ res, v.2.collectResFromCache cfg task arg = some res ∧ res ≠ .stale) ∧
        ∃ mid, fillResults cfg task rest (arg + 1) mid = some (buf', false) := by
      cases fillResults_cons h with
      | stale hstale => cases hstale
      | missing hres hrest => exact ⟨⟨_, hres, nofun⟩, _, hrest⟩
      | single _ hres hrest => exact ⟨⟨_, hres, nofun⟩, _, hrest⟩
      | many _ _ hres hrest => exact ⟨⟨_, hres, nofun⟩, _, hrest⟩
    obtain ⟨hres, mid, hrest⟩ := hstep
    cases i with
    | zero =>
      obtain rfl := Option.some.inj hw
      exact hres
    | succ i =>
      obtain ⟨res, hres⟩ := ih hrest hw
      exact ⟨res, by rwa [Nat.add_assoc, Nat.add_comm 1 i] at hres⟩

/-- Every argument resolves without giving up, so the buffer is filled. -/
theorem fillResults_total {rs : List (ℕ × ResPredCache)}
    (h : ∀ w ∈ rs, ∀ i, ∃ res, w.2.collectResFromCache cfg task i = some res ∧ res ≠ .stale)
    (arg : ℕ) (buf : List (CmTypes α)) :
    ∃ buf', fillResults cfg task rs arg buf = some (buf', false) := by
  induction rs generalizing arg buf with
  | nil => exact ⟨buf, rfl⟩
  | cons w rest ih =>
    rw [List.forall_mem_cons] at h
    obtain ⟨res, hres, hstale⟩ := h.1 arg
    unfold fillResults
    rw [hres]
    match res with
    | .stale => exact absurd rfl hstale
    | .missing => exact ih h.2 _ _
    | .values [] => exact ih h.2 _ _
    | .values [v] => exact ih h.2 _ _
    | .values (v :: x :: vs) => exact ih h.2 _ _

/-- Which `$res` slots resolve does not depend on the buffer. -/
theorem exists_fillResults {rs : List (ℕ × ResPredCache)} {arg : ℕ} {buf buf' : List (CmTypes α)}
    {stale : Bool} (h : fillResults cfg task rs arg buf = some (buf', stale))
    (other : List (CmTypes α)) :
    ∃ other', fillResults cfg task rs arg other = some (other', stale) := by
  induction rs generalizing arg buf other with
  | nil =>
    obtain ⟨-, rfl⟩ := Prod.mk.inj (Option.some.inj h)
    exact ⟨other, rfl⟩
  | cons w rest ih =>
    unfold fillResults
    cases fillResults_cons h with
    | stale hstale _ hres =>
      rw [hres, hstale]
      exact ⟨other, rfl⟩
    | missing hres hrest =>
      rw [hres]
      exact ih hrest _
    | single v hres hrest =>
      rw [hres]
      exact ih hrest _
    | many vs hvs hres hrest =>
      rw [hres]
      match vs with
      | [] => exact ih hrest _
      | [v] => exact absurd rfl hvs
      | v :: x :: vs => exact ih hrest _

end ArgCacheEntry

end Tomii
