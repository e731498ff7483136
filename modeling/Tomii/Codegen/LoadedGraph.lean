import Tomii.Codegen.GraphFile
import Tomii.Graph.LiteralCapture
import Tomii.Runtime.NodeCache

/-! # Graphs of accepted files

A node is looked up among the nodes before it, so every edge of a loaded graph goes from a smaller id
to a greater one. The graph is one that the runtime compiles. -/
namespace Tomii.Loading
open Types
open Indexes (LoadFailure)
set_option autoImplicit false
set_option maxHeartbeats 250000

section Loaded

variable {r : FloatParsers} {A : Type}

/-- The argument as far as counting and routing read it. -/
def Arg.toArg (a : Arg r) : Tomii.Arg where
  type :=
    match a.type with
    | .res _ => .res
    | .dep _ => .dep
    | .barrier _ => .barrier
    | .ref _ => .ref
    | _ => .value
  initCondition := a.initCondition.isSome
  predecessor := a.predecessor

/-- The node with its id, as far as the runtime caches read it. -/
def LoadedNode.toNode (id : ℕ) (node : LoadedNode r) : Node where
  isNetwork := node.name = "$network".toList
  id := id
  args := node.args.map Arg.toArg
  factor := node.factor
  groupSize := node.groupSize
  condition := node.condition.isSome

def GraphSpec.graphNodes (spec : GraphSpec r A) : List Node := spec.nodes.mapIdx LoadedNode.toNode

theorem LoadedNode.mem_predIds {id p : ℕ} {node : LoadedNode r}
    (h : p ∈ (node.toNode id).predIds) :
    ∃ a ∈ node.args, ∃ read, a.predecessor = some read ∧ read.id = p := by
  obtain ⟨b, hb, read, hread, hid⟩ := (Node.mem_predIds _).mp h
  obtain ⟨a, ha, rfl⟩ := List.mem_map.mp hb
  exact ⟨a, ha, read, hread, hid⟩

/-! ## The table of nodes -/

variable {env : InitObjects r A} {nameToId : List (Text × ℕ)} {workers : ℕ}

/-- Names stand for the nodes of the table, a node reads nodes before it, and index lists are those of
index texts. -/
structure NodeTable.Loaded (env : InitObjects r A) (table : NodeTable r) : Prop where
  named : ∀ e ∈ table.nameToId, e.2 < table.nodes.length
  earlier : ∀ i (h : i < table.nodes.length), ∀ a ∈ table.nodes[i].args, ∀ read,
    a.predecessor = some read → read.id < i
  indexes : ∀ node ∈ table.nodes, ∀ a ∈ node.args, ∀ read, a.predecessor = some read →
    ∃ name text, Indexes.parseIndexes env.indexed name text = .ok read.indexes

theorem NodeTable.start_loaded (env : InitObjects r A) (network : Option (GraphNetworkConfig r A)) :
    (NodeTable.start network).Loaded env := by
  cases network with
  | none =>
    exact ⟨fun _ he => (List.not_mem_nil he).elim, fun _ hi => absurd hi (Nat.not_lt_zero _),
      fun _ hnode => (List.not_mem_nil hnode).elim⟩
  | some config =>
    refine ⟨fun e he => ?_, fun i hi a ha => ?_, fun node hnode a ha => ?_⟩
    · rw [List.mem_singleton.mp he]
      exact Nat.zero_lt_one
    · have hzero : i = 0 := Nat.lt_one_iff.mp hi
      subst hzero
      exact (List.not_mem_nil ha).elim
    · rw [List.mem_singleton.mp hnode] at ha
      exact (List.not_mem_nil ha).elim

theorem parsePredecessor_indexes {pred : PredJson} {read : Predecessor}
    (h : parsePredecessor env nameToId workers pred = .ok read) :
    Indexes.parseIndexes env.indexed pred.name pred.indexes = .ok read.indexes := by
  obtain ⟨before, hbefore, h⟩ := bind_eq_ok_iff.mp h
  have hsame : read.indexes = before.indexes := by
    cases hgroup : pred.groupBy with
    | none =>
      simp only [hgroup] at h
      rw [← Except.ok.inj h]
    | some factor =>
      simp only [hgroup] at h
      obtain ⟨groupBy, -, h⟩ := bind_eq_ok_iff.mp h
      rw [← Except.ok.inj h]
  unfold Indexes.parsePredecessor at hbefore
  split at hbefore
  · cases hbefore
  · obtain ⟨indexes, hindexes, hbefore⟩ := bind_eq_ok_iff.mp hbefore
    rw [hsame, ← Except.ok.inj hbefore]
    exact hindexes

theorem parseArg_pred {arg : ArgJson} {a : Arg r} (h : parseArg env nameToId workers arg = .ok a)
    {read : Predecessor} (hread : a.predecessor = some read) :
    ∃ pred, parsePredecessor env nameToId workers pred = .ok read := by
  obtain ⟨condition, -, h⟩ := bind_eq_ok_iff.mp h
  obtain ⟨predecessor, hpred, h⟩ := bind_eq_ok_iff.mp h
  obtain ⟨type, -, h⟩ := bind_eq_ok_iff.mp h
  have ha := Except.ok.inj h
  rw [← ha] at hread
  have hsome : predecessor = some read := hread
  cases hgiven : arg.predecessor with
  | none =>
    rw [hgiven] at hpred
    rw [hsome] at hpred
    cases Except.ok.inj hpred
  | some pred =>
    rw [hgiven] at hpred
    obtain ⟨found, hfound, hpred⟩ := bind_eq_ok_iff.mp hpred
    have hsame : found = read := Option.some.inj ((Except.ok.inj hpred).trans hsome)
    exact ⟨pred, hsame ▸ hfound⟩

/-- The references of a node are read from predecessors of the file. -/
theorem parseSingleNode_pred {node : NodeJson} {loaded : LoadedNode r}
    (h : parseSingleNode env nameToId workers node = .ok loaded) :
    ∀ a ∈ loaded.args, ∀ read, a.predecessor = some read →
      ∃ pred, parsePredecessor env nameToId workers pred = .ok read := by
  obtain ⟨args, hargs, h⟩ := bind_eq_ok_iff.mp h
  obtain ⟨loopArgs, -, h⟩ := bind_eq_ok_iff.mp h
  obtain ⟨factor, -, h⟩ := bind_eq_ok_iff.mp h
  obtain ⟨groupSize, -, h⟩ := bind_eq_ok_iff.mp h
  obtain ⟨loop, -, h⟩ := bind_eq_ok_iff.mp h
  obtain ⟨layout, -, h⟩ := bind_eq_ok_iff.mp h
  obtain ⟨condition, -, h⟩ := bind_eq_ok_iff.mp h
  obtain ⟨useWorkers, -, h⟩ := bind_eq_ok_iff.mp h
  have hloaded : args = loaded.args := congrArg LoadedNode.args (Except.ok.inj h)
  intro a ha read hread
  rw [← hloaded] at ha
  obtain ⟨arg, harg⟩ := forall₂_left (mapM_eq_ok_iff.mp hargs).flip a ha
  exact parseArg_pred harg hread

theorem NodeTable.Loaded.add {table table' : NodeTable r} (h : table.Loaded env) {node : NodeJson}
    (hadd : NodeTable.add env workers table node = .ok table') : table'.Loaded env := by
  obtain ⟨loaded, hloaded, hadd⟩ := bind_eq_ok_iff.mp hadd
  have hpred := parseSingleNode_pred hloaded
  split at hadd
  · have htable := Except.ok.inj hadd
    rw [← htable]
    refine ⟨fun e he => ?_, fun i hi a ha read hread => ?_, fun n hn a ha read hread => ?_⟩
    · rw [List.length_append, List.length_singleton]
      cases List.mem_cons.mp he with
      | inl hnew => rw [hnew]; exact Nat.lt_succ_self _
      | inr hold => exact Nat.lt_succ_of_lt (h.named e hold)
    · rw [List.length_append, List.length_singleton] at hi
      by_cases hlt : i < table.nodes.length
      · rw [List.getElem_append_left hlt] at ha
        exact h.earlier i hlt a ha read hread
      · have hlast : i = table.nodes.length := by omega
        subst hlast
        rw [List.getElem_concat_length rfl] at ha
        -- the name is looked up in the table as it was before this node
        obtain ⟨pred, hfound⟩ := hpred a ha read hread
        obtain ⟨front, back, hsplit, -⟩ := List.lookup_eq_some_iff.mp (parsePredecessor_id hfound)
        refine h.named (pred.name, read.id) ?_
        rw [hsplit]
        exact List.mem_append_right _ List.mem_cons_self
    · cases List.mem_append.mp hn with
      | inl hold => exact h.indexes n hold a ha read hread
      | inr hnew =>
        rw [List.mem_singleton.mp hnew] at ha
        obtain ⟨pred, hfound⟩ := hpred a ha read hread
        exact ⟨pred.name, pred.indexes, parsePredecessor_indexes hfound⟩
  · cases hadd

theorem NodeTable.Loaded.fold (files : List NodeJson) {table table' : NodeTable r}
    (h : table.Loaded env) (hfold : files.foldlM (NodeTable.add env workers) table = .ok table') :
    table'.Loaded env := by
  induction files generalizing table with
  | nil => exact Except.ok.inj hfold ▸ h
  | cons node files ih =>
    rw [List.foldlM_cons] at hfold
    obtain ⟨next, hnext, hfold⟩ := bind_eq_ok_iff.mp hfold
    exact ih (h.add hnext) hfold

/-! ## The graph -/

theorem addNodes_isSome (nodes : List Node) (g : Graph)
    (hids : ∀ i (h : i < nodes.length), nodes[i].id = g.nodes.length + i) :
    (Graph.addNodes nodes g).isSome = true := by
  induction nodes generalizing g with
  | nil => rfl
  | cons node nodes ih =>
    have hid : node.id = g.nodes.length := hids 0 (Nat.succ_pos _)
    simp only [Graph.addNodes, Graph.addNode, if_pos hid, Option.bind_some]
    refine ih _ fun i hi => ?_
    have hnext := hids (i + 1) (Nat.succ_lt_succ hi)
    rw [List.getElem_cons_succ] at hnext
    rw [hnext, List.length_append, List.length_singleton]
    omega

variable {getFunc : Text → Option (InitFn r A)} {file : GraphFile} {spec : GraphSpec r A}

theorem fromJsonStr_loaded (h : fromJsonStr getFunc workers file = .ok spec) :
    ∃ table : NodeTable r, table.Loaded spec.initObjects ∧ table.nodes = spec.nodes := by
  obtain ⟨env, -, h⟩ := bind_eq_ok_iff.mp h
  obtain ⟨network, -, h⟩ := bind_eq_ok_iff.mp h
  obtain ⟨table, htable, h⟩ := bind_eq_ok_iff.mp h
  obtain ⟨postNodes, -, h⟩ := bind_eq_ok_iff.mp h
  have hloaded := (NodeTable.start_loaded env network).fold file.nodes htable
  split at h
  · rw [← Except.ok.inj h]
    exact ⟨table, hloaded, rfl⟩
  · cases h

/-- The predecessors of a loaded node have smaller ids. -/
theorem graphNodes_ordered (h : fromJsonStr getFunc workers file = .ok spec) :
    ∀ v ∈ spec.graphNodes, ∀ p ∈ v.predIds, p < v.id := by
  obtain ⟨table, hloaded, hnodes⟩ := fromJsonStr_loaded h
  intro v hv p hp
  rw [GraphSpec.graphNodes, ← hnodes] at hv
  obtain ⟨i, hi, hvi⟩ := List.mem_mapIdx.mp hv
  subst hvi
  obtain ⟨a, ha, read, hread, hid⟩ := LoadedNode.mem_predIds hp
  exact hid ▸ hloaded.earlier i hi a ha read hread

/-- While the numbers of objects are of type `isize`, no lone index is negative. -/
theorem graphNodes_parsed (h : fromJsonStr getFunc workers file = .ok spec)
    (hfits : ∀ name, Indexes.Fits (spec.initObjects.indexed.namedNumber name)) :
    ∀ v ∈ spec.graphNodes, v.Parsed := by
  obtain ⟨table, hloaded, hnodes⟩ := fromJsonStr_loaded h
  intro v hv a ha read hread
  rw [GraphSpec.graphNodes, ← hnodes] at hv
  obtain ⟨i, hi, hvi⟩ := List.mem_mapIdx.mp hv
  subst hvi
  obtain ⟨arg, harg, harg'⟩ := List.mem_map.mp ha
  subst harg'
  obtain ⟨name, text, hparse⟩ :=
    hloaded.indexes table.nodes[i] (List.getElem_mem hi) arg harg read hread
  exact Indexes.parsedIndexes_of_parse hfits hparse

end Loaded

/-- Two instances of one node, and a node that reads both. -/
def sumFile : GraphFile where
  initializations := []
  nodes := [
    { name := "square".toList, factor := some (.number 2), function := "square".toList,
      loop := none, loopArgs := none, args := [⟨"$index".toList, none, none, none⟩],
      groupSize := none, condition := none, priority := none, useWorkers := none },
    { name := "sum".toList, factor := none, function := "sum".toList, loop := none,
      loopArgs := none,
      args := [⟨"$res".toList, none, none, some ⟨"square".toList, "0-1".toList, none⟩⟩],
      groupSize := none, condition := none, priority := none, useWorkers := none }]
  postNodes := none
  networkConfig := none

end Tomii.Loading
