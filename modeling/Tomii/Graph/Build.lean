import Tomii.Graph.Struct
import Tomii.Buffers.NodeDep
import Mathlib.Data.Finset.Insert

/-! # Building a graph and counting dependencies (`graph.rs`, `NodeDepMap::new`) -/
namespace Tomii
set_option autoImplicit false
set_option maxHeartbeats 250000

/-- `successors` rows past the end of the vector read as empty. -/
structure Graph where
  nodes : List Node
  initialNodes : List ℕ
  successors : ℕ → List ℕ
  conditionNodes : Finset ℕ

namespace Graph

/-- `Graph::new` -/
def empty : Graph := ⟨[], [], fun _ => [], ∅⟩

/-- `add_node`; the assertion on the id is the `none` case. -/
def addNode (g : Graph) (node : Node) : Option Graph :=
  if node.id = g.nodes.length then
    some
      { nodes := g.nodes ++ [node]
        initialNodes :=
          if node.predIds = [] ∧ node.isNetwork = false then g.initialNodes ++ [node.id]
          else g.initialNodes
        successors := fun p =>
          if p ∈ node.predIds then g.successors p ++ [node.id] else g.successors p
        conditionNodes :=
          if node.carriesCondition then insert node.id g.conditionNodes else g.conditionNodes }
  else none

def addNodes : List Node → Graph → Option Graph
  | [], g => some g
  | n :: ns, g => (g.addNode n).bind (addNodes ns)

/-- `self.nodes[pred_id].factor`; an id past the end panics in the source. -/
def factorOf (g : Graph) (id : ℕ) : ℕ := (g.nodes[id]?.map (·.factor)).getD 0

variable (g : Graph) (node : Node)

/-- `has_scattered_per_instance_res` -/
def hasScatteredPerInstanceRes (predId : ℕ) : Bool :=
  (node.argsOnPred predId).any fun q =>
    q.1.isResult && q.2.indexes.length = node.factor && g.factorOf predId ≠ node.factor

/-- `barrier_group_by_for_dependency` -/
def barrierGroupByForDependency (pred : Predecessor) : Option ℕ :=
  if g.hasScatteredPerInstanceRes node pred.id then none else pred.groupBy

/-- `union_pred_indexes`; the order of the set does not matter to its readers. -/
def unionPredIndexes (predId : ℕ) : List ℤ :=
  ((node.argsOnPred predId).flatMap (·.2.indexes)).dedup

/-- The union of the indexes on `predId` as one ungrouped reference. -/
def unionPred (predId : ℕ) : Predecessor := ⟨predId, unionPredIndexes node predId, none⟩

/-! ## `dependency_count_vec` -/

/-- `num_groups` of the counting side. -/
def countGroups : ℕ := (groupLayout node.factor node.groupSize).2

/-- Pass 1 over the arguments: the count, `preds_seen` and `grouped_candidates_seen`. -/
structure CountState where
  depCount : ℕ
  predsSeen : List ℕ
  candidatesSeen : List ℕ

def countGroupedBarrier (st : CountState) (arg : Arg) : CountState :=
  if arg.isBarrier then
    match arg.predecessor with
    | none => st
    | some pred =>
      if pred.id ∈ st.candidatesSeen then st
      else
        match g.barrierGroupByForDependency node pred with
        | none => { st with candidatesSeen := pred.id :: st.candidatesSeen }
        | some groupBySize =>
          let numBarrierGroups :=
            if groupBySize = 0 then 1 else pred.indexes.length / groupBySize
          { depCount := wrappingAdd st.depCount (wrappingMul numBarrierGroups groupBySize)
            predsSeen := pred.id :: st.predsSeen
            candidatesSeen := pred.id :: st.candidatesSeen }
  else st

/-- What pass 2 adds for one remaining predecessor. -/
def countRemainingPred (predId : ℕ) : ℕ :=
  let predFactor := g.factorOf predId
  let hasBarrierOnPred := (node.argsOnPred predId).any (·.1.isBarrier)
  let ambiguous := node.predIsAmbiguousMultiArg predId
  let contributing :=
    if ambiguous then predFactor
    else (unionPred node predId).contributingInstances predFactor node.factor
  if (hasBarrierOnPred ∨ ambiguous) ∧ 1 < countGroups node then
    wrappingMul contributing (countGroups node)
  else contributing

/-- One entry of `dependency_count_vec`. -/
def dependencyCount : ℕ :=
  let pass1 := node.args.foldl (g.countGroupedBarrier node) ⟨0, [], []⟩
  ((node.predIds.filter (· ∉ pass1.predsSeen)).map (g.countRemainingPred node)).foldl wrappingAdd
    pass1.depCount

end Graph

/-! ## `NodeDepMap::new` -/

namespace Node

variable (node : Node)

/-- The grouped barrier references of a node. -/
def groupedBarriers : List (Predecessor × ℕ) :=
  node.args.filterMap fun a =>
    if a.isBarrier then a.predecessor.bind fun p => p.groupBy.map (p, ·) else none

/-- Barrier nodes with a grouped barrier are split by packet groups, others by `group_size`. -/
def effectiveGroupSize : Option ℕ :=
  if node.hasBarrier then
    match node.groupedBarriers with
    | [] => node.groupSize
    | (p, gb) :: rest =>
      let gb := rest.foldl (fun m q => max m q.2) gb
      let numPredPackets := rest.foldl (fun m q => max m q.1.indexes.length) p.indexes.length
      let numBarrierGroups := if 0 < numPredPackets ∧ 0 < gb then numPredPackets / gb else 1
      some (if numBarrierGroups = 0 then node.factor else node.factor / numBarrierGroups)
  else node.groupSize

end Node

/-- The entry `NodeDepMap::new` makes for a node. -/
def Graph.entryShape (g : Graph) (node : Node) : EntryShape :=
  EntryShape.new node.factor (g.dependencyCount node) node.hasBarrier node.effectiveGroupSize
    node.condition

end Tomii
