import Tomii.Runtime.Tables

/-! # The compiled graph

`node_cache_entry`, `build_node_cache` (`runtime/node_cache.rs`, `runtime/init.rs`) and
`SuccessorArena::build`: what the runtime reads of a graph. -/
namespace Tomii
set_option autoImplicit false
set_option maxHeartbeats 250000

/-- A graph with the two choices outside it: the order in which the hash set of condition
nodes iterates, and the `TOMII_DISABLE_RANGE_1TO1` toggle. -/
structure Compiled where
  graph : Graph
  condOrder : List ℕ
  range1to1Enabled : Bool

namespace Compiled

variable (c : Compiled)

/-- `graph.nodes[id]`; the source panics past the end. -/
def nodeAt (id : ℕ) : Node := (c.graph.nodes[id]?).getD ⟨false, id, [], 0, none, false⟩

def factor (id : ℕ) : ℕ := (c.nodeAt id).factor

/-- `is_condition`: in `condition_nodes`; the entry of `$network` is built without it. -/
def isCondition (id : ℕ) : Bool := !(c.nodeAt id).isNetwork && id ∈ c.graph.conditionNodes

/-- `node_condition.is_some()` -/
def nodeCondition (id : ℕ) : Bool := !(c.nodeAt id).isNetwork && (c.nodeAt id).condition

/-- `cond_index`: the position in the set's iteration order. -/
def condIndex (id : ℕ) : ℕ := if c.isCondition id then c.condOrder.idxOf id else 0

/-- `get_condition_indexes`: the rows of nodes without argument conditions are left out. -/
def conditionIndexes : List (List ℕ) :=
  (c.condOrder.map fun id =>
    ((c.nodeAt id).args.zipIdx.filterMap fun p => if p.1.isCondition then some p.2 else none)).filter
    (· ≠ [])

def isInitial (id : ℕ) : Bool := !(c.nodeAt id).isNetwork && id ∈ c.graph.initialNodes

/-- `worker_resolvable`: no successor has a node-level condition. -/
def workerResolvable (id : ℕ) : Bool := (c.graph.successors id).all fun s => !c.nodeCondition s

/-- The `$res` arguments of a node. -/
def resArgs (id : ℕ) : List Arg := (c.nodeAt id).args.filter (·.isResult)

/-- `is_fanout_bulk`: one `$res` argument on a computing predecessor of equal factor. -/
def isFanoutBulk (id : ℕ) : Bool :=
  c.workerResolvable id && !c.isCondition id && !(c.nodeAt id).isNetwork &&
    !(c.nodeAt id).args.any (·.isBarrier) &&
    match c.resArgs id with
    | [a] =>
      match a.predecessor with
      | some p =>
        (c.nodeAt p.id).factor = (c.nodeAt id).factor && 1 < (c.nodeAt id).factor &&
          !(c.nodeAt p.id).isNetwork
      | none => false
    | _ => false

/-- The edge from `pred` to `succ`. -/
def edge (pred succ : ℕ) : SuccEdge :=
  SuccEdge.ofRoute succ (c.factor succ) (c.isCondition succ) (c.isFanoutBulk succ)
    (c.graph.route c.range1to1Enabled (c.nodeAt succ) pred)

/-- `edges_for` -/
def edgesFor (pred : ℕ) : List SuccEdge := (c.graph.successors pred).map (c.edge pred)

/-- The shape of a node's dependency entry. -/
def entry (id : ℕ) : EntryShape := c.graph.entryShape (c.nodeAt id)

@[simp] theorem edge_succId (pred succ : ℕ) : (c.edge pred succ).succId = succ := rfl

@[simp] theorem edge_hasCondition (pred succ : ℕ) :
    (c.edge pred succ).hasCondition = c.isCondition succ := rfl

@[simp] theorem edge_isFanoutBulk (pred succ : ℕ) :
    (c.edge pred succ).isFanoutBulk = c.isFanoutBulk succ := rfl

@[simp] theorem edge_succFactor (pred succ : ℕ) :
    (c.edge pred succ).succFactor = asU32 (c.factor succ) := rfl

@[simp] theorem entry_factor (id : ℕ) : (c.entry id).factor = c.factor id := rfl

theorem entry_hasBarrier (id : ℕ) : (c.entry id).hasBarrier = (c.nodeAt id).hasBarrier := rfl

theorem mem_edgesFor {pred : ℕ} {e : SuccEdge} :
    e ∈ c.edgesFor pred ↔ ∃ s ∈ c.graph.successors pred, c.edge pred s = e := by
  simp [edgesFor]

end Compiled

/-! ## Graphs built by `add_node` -/

/-- `c` holds the graph that `add_node` builds from `nodes`, each predecessor of which exists
when the tables are built; the set of condition nodes iterates in some order. -/
structure BuiltFrom (nodes : List Node) (c : Compiled) : Prop where
  built : Graph.addNodes nodes Graph.empty = some c.graph
  preds_exist : ∀ v ∈ nodes, ∀ p ∈ v.predIds, p < nodes.length
  cond_order : c.condOrder.Nodup ∧ ∀ id, id ∈ c.condOrder ↔ id ∈ c.graph.conditionNodes

/-- The compiled graph of a list of nodes, with the set of condition nodes in id order. -/
def Compiled.ofNodes (nodes : List Node) : Compiled where
  graph := (Graph.addNodes nodes Graph.empty).getD Graph.empty
  condOrder := (nodes.filter (·.carriesCondition)).map (·.id)
  range1to1Enabled := true

namespace Graph

/-- What `add_node` keeps for the nodes added so far. -/
structure Rows (g : Graph) : Prop where
  ids : ∀ i (h : i < g.nodes.length), (g.nodes[i]).id = i
  successors : ∀ p s, s ∈ g.successors p ↔
    ∃ h : s < g.nodes.length, p ∈ (g.nodes[s]).predIds
  successors_nodup : ∀ p, (g.successors p).Nodup
  initial : ∀ i, i ∈ g.initialNodes ↔
    ∃ h : i < g.nodes.length, (g.nodes[i]).predIds = [] ∧ (g.nodes[i]).isNetwork = false
  initial_nodup : g.initialNodes.Nodup
  conditions : ∀ i, i ∈ g.conditionNodes ↔
    ∃ h : i < g.nodes.length, (g.nodes[i]).carriesCondition = true

theorem rows_empty : Rows empty where
  ids := by simp [empty]
  successors := by simp [empty]
  successors_nodup := by simp [empty]
  initial := by simp [empty]
  initial_nodup := by simp [empty]
  conditions := by simp [empty]

theorem exists_lt_append_one {nodes : List Node} {node : Node} {i : ℕ} {P : Node → Prop} :
    (∃ h : i < (nodes ++ [node]).length, P ((nodes ++ [node])[i])) ↔
      (∃ h : i < nodes.length, P (nodes[i])) ∨ (i = nodes.length ∧ P node) := by
  constructor
  · rintro ⟨h, hp⟩
    rw [List.length_append, List.length_singleton] at h
    rcases Nat.lt_succ_iff_lt_or_eq.mp h with hlt | heq
    · left
      rw [List.getElem_append_left hlt] at hp
      exact ⟨hlt, hp⟩
    · right
      subst heq
      rw [List.getElem_concat_length rfl] at hp
      exact ⟨rfl, hp⟩
  · rintro (⟨h, hp⟩ | ⟨rfl, hp⟩)
    · refine ⟨by simp; omega, ?_⟩
      rwa [List.getElem_append_left h]
    · refine ⟨by simp, ?_⟩
      rwa [List.getElem_concat_length rfl]

theorem rows_addNode {g g' : Graph} {node : Node} (h : Rows g) (hadd : g.addNode node = some g') :
    Rows g' ∧ g'.nodes = g.nodes ++ [node] := by
  unfold addNode at hadd
  split at hadd
  · next hid =>
    obtain rfl := Option.some.inj hadd
    refine ⟨?_, rfl⟩
    have hfresh : ∀ p, node.id ∉ g.successors p := by
      intro p hmem
      obtain ⟨hlt, -⟩ := (h.successors p _).mp hmem
      omega
    have hfresh' : node.id ∉ g.initialNodes := by
      intro hmem
      obtain ⟨hlt, -⟩ := (h.initial _).mp hmem
      omega
    constructor
    · intro i hi
      simp only [List.length_append, List.length_singleton] at hi
      rcases Nat.lt_succ_iff_lt_or_eq.mp hi with hlt | heq
      · rw [List.getElem_append_left hlt]
        exact h.ids i hlt
      · subst heq
        rw [List.getElem_concat_length rfl]
        exact hid
    · intro p s
      rw [exists_lt_append_one (P := fun n => p ∈ n.predIds), ← h.successors]
      simp only
      split
      · next hp => simp [hp, hid]
      · next hp => simp [hp]
    · intro p
      simp only
      split
      · exact List.nodup_append.mpr ⟨h.successors_nodup p, by simp, by
          intro a ha b hb hab
          rw [List.mem_singleton] at hb
          exact hfresh p (hb ▸ hab ▸ ha)⟩
      · exact h.successors_nodup p
    · intro i
      rw [exists_lt_append_one (P := fun n => n.predIds = [] ∧ n.isNetwork = false), ← h.initial]
      simp only
      split
      · next hp => simp [hp, hid]
      · next hp => simp [hp]
    · simp only
      split
      · exact List.nodup_append.mpr ⟨h.initial_nodup, by simp, by
          intro a ha b hb hab
          rw [List.mem_singleton] at hb
          exact hfresh' (hb ▸ hab ▸ ha)⟩
      · exact h.initial_nodup
    · intro i
      rw [exists_lt_append_one (P := fun n => n.carriesCondition = true), ← h.conditions]
      simp only
      split
      · next hp => simp [hp, hid, or_comm]
      · next hp => simp [hp]
  · cases hadd

theorem rows_addNodes {nodes : List Node} {g g' : Graph} (h : Rows g)
    (hadd : addNodes nodes g = some g') : Rows g' ∧ g'.nodes = g.nodes ++ nodes := by
  induction nodes generalizing g with
  | nil =>
    obtain rfl := Option.some.inj hadd
    exact ⟨h, (List.append_nil _).symm⟩
  | cons n ns ih =>
    obtain ⟨g1, hg1, hrest⟩ := Option.bind_eq_some_iff.mp hadd
    obtain ⟨hrows, hnodes⟩ := rows_addNode h hg1
    obtain ⟨hrows', hnodes'⟩ := ih hrows hrest
    refine ⟨hrows', ?_⟩
    rw [hnodes', hnodes, List.append_assoc, List.singleton_append]

end Graph

theorem Compiled.nodeAt_of_le {c : Compiled} {n : ℕ} (h : c.graph.nodes.length ≤ n) :
    c.nodeAt n = ⟨false, n, [], 0, none, false⟩ := by
  simp [nodeAt, List.getElem?_eq_none h]

namespace BuiltFrom

variable {nodes : List Node} {c : Compiled} (h : BuiltFrom nodes c)

include h

theorem rows : c.graph.Rows := (Graph.rows_addNodes Graph.rows_empty h.built).1

theorem nodes_eq : c.graph.nodes = nodes := (Graph.rows_addNodes Graph.rows_empty h.built).2

theorem nodeAt_eq {id : ℕ} (hid : id < nodes.length) : c.nodeAt id = nodes[id] := by
  simp [Compiled.nodeAt, h.nodes_eq, hid]

theorem mem_successors {p s : ℕ} :
    s ∈ c.graph.successors p ↔ s < nodes.length ∧ p ∈ (c.nodeAt s).predIds := by
  rw [h.rows.successors]
  simp only [h.nodes_eq]
  constructor
  · rintro ⟨hs, hp⟩
    exact ⟨hs, by rwa [h.nodeAt_eq hs]⟩
  · rintro ⟨hs, hp⟩
    exact ⟨hs, by rwa [h.nodeAt_eq hs] at hp⟩

/-- A node with a condition of its own is a condition node, unless it is `$network`. -/
theorem isCondition_of_condition {id : ℕ} (hcond : (c.nodeAt id).condition = true)
    (hnet : (c.nodeAt id).isNetwork = false) : c.isCondition id = true := by
  by_cases hlt : id < c.graph.nodes.length
  · have hat : c.nodeAt id = c.graph.nodes[id] := by simp [Compiled.nodeAt, hlt]
    have hmem : id ∈ c.graph.conditionNodes := by
      refine (h.rows.conditions id).mpr ⟨hlt, ?_⟩
      rw [Node.carriesCondition, ← hat, hcond, Bool.or_true]
    simp [Compiled.isCondition, hnet, hmem]
  · rw [Compiled.nodeAt_of_le (Nat.not_lt.mp hlt)] at hcond
    cases hcond

theorem edgesFor_filter (p v : ℕ) : (c.edgesFor p).filter (·.succId = v) =
      if v ∈ c.graph.successors p then [c.edge p v] else [] := by
  have hfilter : (c.edgesFor p).filter (·.succId = v) =
      ((c.graph.successors p).filter (· = v)).map (c.edge p) := by
    rw [Compiled.edgesFor, List.filter_map]
    rfl
  rw [hfilter, List.filter_eq, (h.rows.successors_nodup p).count]
  split <;> simp

end BuiltFrom

/-- Nodes in id order whose predecessors exist compile. -/
theorem builtFrom_ofNodes {nodes : List Node}
    (hadd : (Graph.addNodes nodes Graph.empty).isSome = true)
    (hpreds : ∀ v ∈ nodes, ∀ p ∈ v.predIds, p < nodes.length) :
    BuiltFrom nodes (Compiled.ofNodes nodes) := by
  obtain ⟨g, hg⟩ := Option.isSome_iff_exists.mp hadd
  obtain ⟨hrows, hnodes⟩ := Graph.rows_addNodes Graph.rows_empty hg
  have hgraph : (Compiled.ofNodes nodes).graph = g := by simp [Compiled.ofNodes, hg]
  have hnodes : g.nodes = nodes := hnodes
  have hids : ∀ i (h : i < nodes.length), (nodes[i]).id = i := by
    intro i hi
    simpa [hnodes] using hrows.ids i (by rwa [hnodes])
  refine ⟨hgraph ▸ hg, hpreds, ?_, ?_⟩
  · have hmap : (nodes.map (·.id)) = List.range nodes.length := by
      apply List.ext_getElem
      · simp
      · intro i h1 h2
        simpa using hids i (by simpa using h1)
    have hsub : ((nodes.filter (·.carriesCondition)).map (·.id)).Sublist (nodes.map (·.id)) :=
      List.filter_sublist.map _
    exact hsub.nodup (hmap ▸ List.nodup_range)
  · intro id
    rw [hgraph, hrows.conditions]
    simp only [Compiled.ofNodes, List.mem_map, List.mem_filter, hnodes]
    constructor
    · rintro ⟨v, ⟨hv, hc⟩, rfl⟩
      obtain ⟨i, hi, rfl⟩ := List.getElem_of_mem hv
      rw [hids i hi]
      exact ⟨hi, hc⟩
    · rintro ⟨hid, hc⟩
      exact ⟨nodes[id], ⟨List.getElem_mem hid, hc⟩, hids id hid⟩

end Tomii
