import Tomii.Graph.Struct
import Tomii.Buffers.ResultMapSpec
import Mathlib.Algebra.GroupWithZero.Nat
import Mathlib.Data.Finset.Basic
import Mathlib.Data.Finset.Range
import Mathlib.Data.List.Infix
import Mathlib.Data.List.Perm.Basic

/-! # Post-nodes (`schedule_post_nodes`)

Post-nodes run once the frames are done, in a slot of the result map behind those of the frames.
Their ids start from 0 again, while the cells of that slot are laid out for the main nodes. Every
instance sends its completion to the queue of the resolution threads, which are about to stop.

Their kernels are given with their results: the arguments (`parse_args`, which leaves an argument out
when its result is missing after the shutdown) and the look-up of the function are left out. -/
namespace Tomii
set_option autoImplicit false
set_option maxHeartbeats 250000

/-- `parse_post_nodes`: the id of a post-node is its position in its own list. -/
def parsePostNodes (nodes : List Node) : List Node := nodes.mapIdx fun i node => { node with id := i }

/-- `add_post_node`; the assertion on the id is the `none` case. -/
def addPostNode (posts : List Node) (node : Node) : Option (List Node) :=
  if node.id = posts.length then some (posts ++ [node]) else none

theorem parsePostNodes_concat (nodes : List Node) (node : Node) :
    parsePostNodes (nodes ++ [node]) =
      parsePostNodes nodes ++ [{ node with id := nodes.length }] := by
  simp [parsePostNodes, List.mapIdx_append]

/-- The assertion never fails on the ids that the loader gives. -/
theorem addPostNode_parsePostNodes (nodes : List Node) :
    (parsePostNodes nodes).foldlM addPostNode [] = some (parsePostNodes nodes) := by
  induction nodes using List.reverseRecOn with
  | nil => rfl
  | append_singleton nodes node ih =>
    rw [parsePostNodes_concat, List.foldlM_append, ih]
    simp [addPostNode, parsePostNodes]

/-- What `schedule_post_nodes` reads of the runtime. -/
structure PostRuntime where
  nodes : List Node
  slots : ℕ
  systemThreads : ℕ
  /-- `slot_data.frame_id`, one entry for each frame slot -/
  frameId : List ℕ
  frameId_length : frameId.length = slots
  recordFrame : Option ℕ
  /-- `phase_prof::trace_on()` -/
  traceOn : Bool
  /-- How many sends to the bounded completion queue still go through: its free places, and what the
  resolution threads take from it before they stop. -/
  room : ℕ
  /-- The workers that take the tasks of a post-node, those of its `use_workers` or all, but for those
  that a main task's send holds already. -/
  takers : ℕ → Finset ℕ

/-- The results, the sends that still go through, the workers that wait in a send, and what is left
to run of the current post-node and of those after it. -/
structure PostRun (α : Type) where
  map : ResultMap α
  room : ℕ
  blocked : List ℕ
  todo : List (Node × List ℕ)

/-- A post-node with all its instances. -/
def Node.whole (node : Node) : Node × List ℕ := (node, List.range node.factor)

/-- The post-nodes of these instances, one entry for each. -/
def postIds (todo : List (Node × List ℕ)) : List ℕ :=
  todo.flatMap fun e => List.replicate e.2.length e.1.id

namespace PostRuntime

variable (rt : PostRuntime) {α : Type}

/-- `frame_use` -/
def frameUse : ℕ := rt.slots + rt.systemThreads

/-- The result map that the builder makes, with one slot more for the post-nodes. -/
def resultMap (α : Type) (deferred : Bool) : ResultMap α :=
  .new α (rt.nodes.map (·.factor)) (rt.slots + rt.systemThreads + 1) deferred

/-- `should_record_slot`; a slot without a frame id panics. -/
def shouldRecordSlot (slot : ℕ) : Option Bool :=
  match rt.recordFrame with
  | none => some true
  | some target => rt.frameId[slot]?.map fun frame => frame = target

/-- `trace_task`, which reads the frame id of the task's slot when tracing is on. -/
def traceTask (slot : ℕ) : Option Unit :=
  if rt.traceOn then rt.frameId[slot]?.map fun _ => () else some ()

def postCell (id index : ℕ) : ResultCell := ⟨rt.frameUse, id, index⟩

/-- `batch_queue_tx.send` at the end of `execute_single_task`, and after it the trace of
`execute_task`. A worker that finds the queue full stays in the send. -/
def sendCompletion (worker : ℕ) (s : PostRun α) : Option (PostRun α) :=
  if 0 < s.room then (rt.traceTask rt.frameUse).map fun _ => { s with room := s.room - 1 }
  else some { s with blocked := s.blocked ++ [worker] }

/-- One instance: `send_to_scheduler`, then `execute_single_task` with its kernel's result, which
looks up the node's name in the cache of the main nodes. -/
def executePostNode (worker id index : ℕ) (result : CmTypes α) (s : PostRun α) :
    Option (PostRun α) := do
  let _ ← rt.shouldRecordSlot rt.frameUse
  let _ ← rt.nodes[id]?
  let m ← s.map.set (rt.postCell id index) result
  rt.sendCompletion worker { s with map := m }

variable (results : ℕ → ℕ → CmTypes α)

/-- The states of `schedule_post_nodes` between two instances. Any idle worker that takes the tasks of
the current post-node may run any of its instances; the next post-node comes when all results of
this one are detected. -/
inductive Schedules (posts : List Node) (m : ResultMap α) : PostRun α → Prop where
  | start : Schedules posts m ⟨m, rt.room, [], posts.map Node.whole⟩
  | run {s s' : PostRun α} {node : Node} (before : List ℕ) {after : List ℕ} {index worker : ℕ}
      {later : List (Node × List ℕ)} (h : Schedules posts m s)
      (htodo : s.todo = (node, before ++ index :: after) :: later)
      (htakes : worker ∈ rt.takers node.id) (hidle : worker ∉ s.blocked)
      (hexec : rt.executePostNode worker node.id index (results node.id index) s = some s') :
      Schedules posts m { s' with todo := (node, before ++ after) :: later }
  | detected {s : PostRun α} {node : Node} {left : List ℕ} {later : List (Node × List ℕ)}
      (h : Schedules posts m s) (htodo : s.todo = (node, left) :: later)
      (hall : ∀ i < node.factor, s.map.resultExists (rt.postCell node.id i) = true) :
      Schedules posts m { s with todo := later }

/-- In every state each instance of the current post-node that is left can be run, the results of
those that ran are read back and detected, nothing is detected before, and the results of the frames
stay. -/
structure PostResultsFit (posts : List Node) (m : ResultMap α) : Prop where
  runs : ∀ s, rt.Schedules results posts m s → ∀ node left later, s.todo = (node, left) :: later →
    ∀ index ∈ left, ∃ worker ∈ rt.takers node.id, worker ∉ s.blocked ∧
      ∃ s', rt.executePostNode worker node.id index (results node.id index) s = some s'
  stored : ∀ s, rt.Schedules results posts m s → ∀ node ∈ posts, ∀ index < node.factor,
    (∀ left, (node, left) ∈ s.todo → index ∉ left) →
      s.map.get (rt.postCell node.id index) = some (results node.id index) ∧
        s.map.resultExists (rt.postCell node.id index) = true
  awaited : ∀ s, rt.Schedules results posts m s → ∀ node left, (node, left) ∈ s.todo →
    ∀ index ∈ left, s.map.resultExists (rt.postCell node.id index) = false
  kept : ∀ s, rt.Schedules results posts m s → ∀ c : ResultCell, c.slot ≠ rt.frameUse →
    s.map.get c = m.get c

/-! ## When the post-nodes fit -/

/-- Nothing on the way of a post-node instance reads the frame id of its slot. -/
def Untraced : Prop := rt.recordFrame = none ∧ (rt.traceOn = false ∨ rt.room = 0)

instance : Decidable rt.Untraced :=
  inferInstanceAs (Decidable (rt.recordFrame = none ∧ (rt.traceOn = false ∨ rt.room = 0)))

/-- The main node of the same id has at least as many instances. -/
def FitsMain (node : Node) : Prop := ∃ main ∈ rt.nodes[node.id]?, node.factor ≤ main.factor

instance (node : Node) : Decidable (rt.FitsMain node) :=
  inferInstanceAs (Decidable (∃ main ∈ rt.nodes[node.id]?, node.factor ≤ main.factor))

/-- However the instances that find the completion queue full are given to different workers, there is
another worker for the next one. -/
def WorkersLast (ids : List ℕ) : Prop :=
  ∀ pre id post, ids = pre ++ id :: post → ∀ blocked : List ℕ, blocked.Nodup →
    List.Forall₂ (fun worker id => worker ∈ rt.takers id) blocked (pre.drop rt.room) →
      ∃ worker ∈ rt.takers id, worker ∉ blocked

theorem frameId_frameUse : rt.frameId[rt.frameUse]? = none := by
  rw [List.getElem?_eq_none_iff, rt.frameId_length, frameUse]
  omega

/-- A pool of workers that take every task lasts when it makes up for the places in the queue. -/
theorem workersLast_pool {ids : List ℕ} {workers : ℕ}
    (hpool : ∀ id ∈ ids, rt.takers id = Finset.range workers) :
    rt.WorkersLast ids ↔ ids = [] ∨ (0 < workers ∧ ids.length ≤ rt.room + workers) := by
  constructor
  · intro hlast
    cases ids with
    | nil => exact .inl rfl
    | cons first rest =>
      obtain ⟨worker, htakes, -⟩ := hlast [] first rest rfl [] List.nodup_nil (by simp)
      rw [hpool first List.mem_cons_self, Finset.mem_range] at htakes
      refine .inr ⟨by omega, ?_⟩
      by_contra hfew
      have hlt : rt.room + workers < (first :: rest).length := not_le.mp hfew
      -- the pool is used up before the first instance too many
      obtain ⟨id, post, hpost⟩ : ∃ id post, (first :: rest).drop (rt.room + workers) = id :: post :=
        ⟨_, _, List.drop_eq_getElem_cons hlt⟩
      have hsplit := (List.take_append_drop (rt.room + workers) (first :: rest)).symm
      rw [hpost] at hsplit
      have hmem : id ∈ first :: rest := by
        rw [hsplit]
        exact List.mem_append_right _ List.mem_cons_self
      obtain ⟨worker, htakes, hidle⟩ := hlast _ id post hsplit (List.range workers)
        List.nodup_range (by
          rw [List.forall₂_iff_zip]
          refine ⟨by rw [List.length_range, List.length_drop, List.length_take]; omega, ?_⟩
          intro w i hzip
          obtain ⟨hw, hi⟩ := List.of_mem_zip hzip
          rw [hpool i (List.mem_of_mem_take (List.mem_of_mem_drop hi)), Finset.mem_range]
          exact List.mem_range.mp hw)
      rw [hpool id hmem, Finset.mem_range] at htakes
      exact hidle (List.mem_range.mpr htakes)
  · rintro hroom pre id post rfl blocked hnodup hblocked
    obtain ⟨hpos, hlength⟩ := hroom.resolve_left (List.append_ne_nil_of_right_ne_nil _
      (List.cons_ne_nil _ _))
    rw [hpool id (by simp)]
    by_contra hnone
    have hall : List.range workers ⊆ blocked := by
      intro worker hworker
      by_contra hidle
      exact hnone ⟨worker, Finset.mem_range.mpr (List.mem_range.mp hworker), hidle⟩
    have hle := (List.subperm_of_subset List.nodup_range hall).length_le
    have heq := hblocked.length_eq
    rw [List.length_range] at hle
    rw [List.length_drop] at heq
    rw [List.length_append, List.length_cons] at hlength
    omega

/-! ## One instance -/

/-- A map with the cells of the main nodes and the post-nodes' slot. -/
structure Hosts (m : ResultMap α) : Prop where
  nodeFactors : m.nodeFactors = rt.nodes.map (·.factor)
  slots : m.slots = rt.slots + rt.systemThreads + 1
  valid : m.Valid

variable {rt} {results}

theorem Hosts.step {m m' : ResultMap α} (h : rt.Hosts m) (hshape : m.SameShape m')
    (hvalid : m'.Valid) : rt.Hosts m' :=
  ⟨hshape.nodeFactors.trans h.nodeFactors, hshape.slots.trans h.slots, hvalid⟩

theorem Hosts.inBounds_iff {m : ResultMap α} (h : rt.Hosts m) (id index : ℕ) :
    m.InBounds (rt.postCell id index) ↔ ∃ main ∈ rt.nodes[id]?, index < main.factor := by
  have hslot : rt.frameUse < m.slots := by
    rw [h.slots, frameUse]
    omega
  rw [ResultMap.InBounds, h.nodeFactors]
  simp [postCell, hslot]

theorem postCell_inj {id index id' index' : ℕ} :
    rt.postCell id index = rt.postCell id' index' ↔ id = id' ∧ index = index' := by
  simp [postCell]

/-- What an instance leaves. -/
structure Executes (worker id index : ℕ) (result : CmTypes α) (s s' : PostRun α) : Prop where
  stores : s.map.Stores (rt.postCell id index) result s'.map
  room : s'.room = s.room - 1
  blocked : s'.blocked = if 0 < s.room then s.blocked else s.blocked ++ [worker]

theorem sendCompletion_some {worker : ℕ} {s s' : PostRun α}
    (h : rt.sendCompletion worker s = some s') : (0 < s.room → rt.traceOn = false) ∧
      s' = { s with
        room := s.room - 1
        blocked := if 0 < s.room then s.blocked else s.blocked ++ [worker] } := by
  unfold sendCompletion traceTask at h
  rw [frameId_frameUse] at h
  split at h
  · next hroom =>
    split at h
    · cases h
    · next hoff =>
      obtain rfl := Option.some.inj h
      exact ⟨fun _ => Bool.eq_false_of_not_eq_true hoff, by rw [if_pos hroom]⟩
  · next hroom =>
    obtain rfl := Option.some.inj h
    have hzero : s.room = 0 := by omega
    exact ⟨fun hpos => absurd hpos hroom, by rw [if_neg hroom, hzero]⟩

/-- An instance that is run stores its result in a cell that exists, and no frame id is read. -/
theorem executePostNode_some {worker id index : ℕ} {result : CmTypes α} {s s' : PostRun α}
    (hvalid : s.map.Valid) (hexec : rt.executePostNode worker id index result s = some s') :
    (rt.recordFrame = none ∧ (0 < s.room → rt.traceOn = false)) ∧
      s.map.InBounds (rt.postCell id index) ∧ rt.Executes worker id index result s s' := by
  unfold executePostNode at hexec
  simp only [Option.bind_eq_bind, Option.bind_eq_some_iff] at hexec
  obtain ⟨recorded, hrecord, main, hmain, m, hset, hsend⟩ := hexec
  have hbounds : s.map.InBounds (rt.postCell id index) := by
    unfold ResultMap.set at hset
    split at hset
    · assumption
    · cases hset
  obtain ⟨n, hset', hstores⟩ := ResultMap.set_stores hvalid hbounds result
  obtain rfl := Option.some.inj (hset.symm.trans hset')
  obtain ⟨htrace, rfl⟩ := sendCompletion_some hsend
  refine ⟨⟨?_, htrace⟩, hbounds, hstores, rfl, rfl⟩
  unfold shouldRecordSlot at hrecord
  rw [frameId_frameUse] at hrecord
  split at hrecord
  · assumption
  · cases hrecord

theorem executePostNode_spec {s : PostRun α} (h : rt.Hosts s.map) (hrecord : rt.recordFrame = none)
    (htrace : 0 < s.room → rt.traceOn = false) {id index : ℕ}
    (hfits : ∃ main ∈ rt.nodes[id]?, index < main.factor) (worker : ℕ) (result : CmTypes α) :
    ∃ s', rt.executePostNode worker id index result s = some s' := by
  obtain ⟨m', hset, -⟩ :=
    ResultMap.set_stores h.valid ((h.inBounds_iff id index).mpr hfits) result
  obtain ⟨main, hmain, -⟩ := hfits
  unfold executePostNode shouldRecordSlot sendCompletion traceTask
  rw [hrecord, Option.mem_def.mp hmain, hset]
  by_cases hroom : 0 < s.room
  · rw [htrace hroom]
    exact ⟨_, if_pos hroom⟩
  · exact ⟨_, if_neg hroom⟩

/-! ## What every run keeps -/

theorem postIds_cons (node : Node) (left : List ℕ) (later : List (Node × List ℕ)) :
    postIds ((node, left) :: later) = List.replicate left.length node.id ++ postIds later := rfl

/-- The instances run so far are `ran`, and those beyond the room of the queue hold a worker each. -/
structure Spent (rt : PostRuntime) (ids : List ℕ) (s : PostRun α) (ran : List ℕ) : Prop where
  split : ids = ran ++ postIds s.todo
  room : s.room = rt.room - ran.length
  blocked : List.Forall₂ (fun worker id => worker ∈ rt.takers id) s.blocked (ran.drop rt.room)
  nodup : s.blocked.Nodup

structure PostInv (rt : PostRuntime) (results : ℕ → ℕ → CmTypes α) (posts : List Node)
    (m : ResultMap α) (s : PostRun α) : Prop where
  hosts : rt.Hosts s.map
  nodes : s.todo.map Prod.fst <:+ posts
  left : ∀ e ∈ s.todo, e.2.Nodup ∧ ∀ i ∈ e.2, i < e.1.factor
  stored : ∀ node ∈ posts, ∀ index < node.factor,
    (∀ left, (node, left) ∈ s.todo → index ∉ left) →
      s.map.get (rt.postCell node.id index) = some (results node.id index) ∧
        s.map.resultExists (rt.postCell node.id index) = true
  awaited : ∀ node left, (node, left) ∈ s.todo → ∀ index ∈ left,
    s.map.resultExists (rt.postCell node.id index) = false
  kept : ∀ c : ResultCell, c.slot ≠ rt.frameUse → s.map.get c = m.get c
  spent : ∃ ran, Spent rt (postIds (posts.map Node.whole)) s ran
  traced : s.room = rt.room ∨ rt.traceOn = false

variable {posts : List Node} {m : ResultMap α}

theorem mem_posts_of_todo {s : PostRun α} (h : s.todo.map Prod.fst <:+ posts)
    {e : Node × List ℕ} (he : e ∈ s.todo) : e.1 ∈ posts :=
  h.subset (List.mem_map_of_mem he)

/-- An entry of the list of post-nodes is known by its id. -/
theorem todo_unique (hids : (posts.map (·.id)).Nodup) {todo : List (Node × List ℕ)}
    (h : todo.map Prod.fst <:+ posts) {e e' : Node × List ℕ} (he : e ∈ todo) (he' : e' ∈ todo)
    (hid : e.1.id = e'.1.id) : e = e' := by
  have hnodup : (todo.map fun e => e.1.id).Nodup := by
    have hsub := (h.sublist.map fun node : Node => node.id).nodup hids
    rwa [List.map_map] at hsub
  exact List.inj_on_of_nodup_map hnodup he he' hid

theorem Spent.run {ids ran : List ℕ} {s s' : PostRun α} {node : Node} {before after : List ℕ}
    {index worker : ℕ} {result : CmTypes α} {later : List (Node × List ℕ)}
    (h : Spent rt ids s ran)
    (htodo : s.todo = (node, before ++ index :: after) :: later)
    (htakes : worker ∈ rt.takers node.id) (hidle : worker ∉ s.blocked)
    (hexec : rt.Executes worker node.id index result s s') :
    Spent rt ids { s' with todo := (node, before ++ after) :: later } (ran ++ [node.id]) where
  split := by
    rw [h.split, htodo, postIds_cons, postIds_cons, List.length_append, List.length_cons,
      List.length_append, ← Nat.add_assoc, List.replicate_succ]
    simp
  room := by
    rw [List.length_append, List.length_singleton]
    exact hexec.room.trans (by rw [h.room]; omega)
  blocked := by
    have hroom := h.room
    by_cases hlt : ran.length < rt.room
    · have hnone := h.blocked
      rw [List.drop_eq_nil_of_le (by omega), List.forall₂_nil_right_iff] at hnone
      have hblocked : s'.blocked = [] := by
        rw [hexec.blocked, if_pos (by omega), hnone]
      rw [List.drop_eq_nil_of_le (by rw [List.length_append, List.length_singleton]; omega)]
      exact List.forall₂_nil_right_iff.mpr hblocked
    · have hblocked : s'.blocked = s.blocked ++ [worker] := by
        rw [hexec.blocked, if_neg (by omega)]
      rw [List.drop_append_of_le_length (by omega)]
      exact hblocked ▸ List.rel_append h.blocked (.cons htakes .nil)
  nodup := by
    have hcases : s'.blocked = s.blocked ∨ s'.blocked = s.blocked ++ [worker] := by
      rw [hexec.blocked]
      split
      · exact .inl rfl
      · exact .inr rfl
    rcases hcases with hsame | hmore
    · exact hsame ▸ h.nodup
    · refine hmore ▸ List.nodup_append.mpr ⟨h.nodup, List.nodup_singleton _, ?_⟩
      rintro w hw _ hlast rfl
      exact hidle (List.mem_singleton.mp hlast ▸ hw)

theorem PostInv.run (hids : (posts.map (·.id)).Nodup) {s s' : PostRun α} {node : Node}
    {before after : List ℕ} {index worker : ℕ} {later : List (Node × List ℕ)}
    (h : PostInv rt results posts m s)
    (htodo : s.todo = (node, before ++ index :: after) :: later)
    (htakes : worker ∈ rt.takers node.id) (hidle : worker ∉ s.blocked)
    (hexec : rt.executePostNode worker node.id index (results node.id index) s = some s') :
    PostInv rt results posts m { s' with todo := (node, before ++ after) :: later } := by
  obtain ⟨⟨-, htrace⟩, -, hexecutes⟩ := executePostNode_some h.hosts.valid hexec
  have hstores := hexecutes.stores
  have hroom := hexecutes.room
  have hhead : (node, before ++ index :: after) ∈ s.todo := htodo ▸ List.mem_cons_self
  obtain ⟨hnodup, hlt⟩ := h.left _ hhead
  have hfresh : index ∉ before ++ after := (List.nodup_middle.mp hnodup).notMem
  have hnodes : ((node, before ++ after) :: later).map Prod.fst <:+ posts := by
    have hsuffix := h.nodes
    rwa [htodo] at hsuffix
  -- the cell is that of this instance alone
  have hother : ∀ {n : Node} {left : List ℕ}, (n, left) ∈ (node, before ++ after) :: later →
      ∀ i ∈ left, rt.postCell n.id i ≠ rt.postCell node.id index := by
    intro n left hn i hi heq
    obtain ⟨hid, rfl⟩ := postCell_inj.mp heq
    have hsame := todo_unique hids hnodes hn List.mem_cons_self hid
    obtain ⟨-, rfl⟩ := Prod.mk.inj hsame
    exact hfresh hi
  refine ⟨h.hosts.step hstores.shape hstores.valid, hnodes, ?_, ?_, ?_, fun c hc => ?_, ?_, ?_⟩
  · rintro e he
    rcases List.mem_cons.mp he with rfl | he
    · refine ⟨(List.nodup_middle.mp hnodup).of_cons, fun i hi => hlt i ?_⟩
      rcases List.mem_append.mp hi with hi | hi
      · exact List.mem_append_left _ hi
      · exact List.mem_append_right _ (List.mem_cons_of_mem _ hi)
    · exact h.left e (htodo ▸ List.mem_cons_of_mem _ he)
  · intro n hn i hi hleft
    rw [hstores.get_eq, hstores.exists_eq]
    by_cases heq : rt.postCell n.id i = rt.postCell node.id index
    · obtain ⟨hid, rfl⟩ := postCell_inj.mp heq
      rw [heq, Function.update_self, Function.update_self, hid]
      exact ⟨rfl, rfl⟩
    · rw [Function.update_of_ne heq, Function.update_of_ne heq]
      refine h.stored n hn i hi fun left hin hmem => ?_
      rw [htodo] at hin
      rcases List.mem_cons.mp hin with hfirst | hin
      · obtain ⟨rfl, rfl⟩ := Prod.mk.inj hfirst
        have hne : i ≠ index := fun hii => heq (by rw [hii])
        refine hleft _ List.mem_cons_self ?_
        simpa [hne] using hmem
      · exact hleft left (List.mem_cons_of_mem _ hin) hmem
  · intro n left hn i hi
    rw [hstores.exists_eq, Function.update_of_ne (hother hn i hi)]
    rcases List.mem_cons.mp hn with hfirst | hin
    · obtain ⟨rfl, rfl⟩ := Prod.mk.inj hfirst
      refine h.awaited _ _ hhead i ?_
      rcases List.mem_append.mp hi with hi | hi
      · exact List.mem_append_left _ hi
      · exact List.mem_append_right _ (List.mem_cons_of_mem _ hi)
    · exact h.awaited n left (htodo ▸ List.mem_cons_of_mem _ hin) i hi
  · have hne : c ≠ rt.postCell node.id index := fun heq => hc (by rw [heq]; rfl)
    rw [hstores.get_eq, Function.update_of_ne hne]
    exact h.kept c hc
  · obtain ⟨ran, hspent⟩ := h.spent
    exact ⟨_, hspent.run htodo htakes hidle hexecutes⟩
  · rcases h.traced with hall | hoff
    · by_cases hpos : 0 < s.room
      · exact .inr (htrace hpos)
      · exact .inl (hroom.trans (by omega))
    · exact .inr hoff

theorem PostInv.detected {s : PostRun α} {node : Node} {left : List ℕ}
    {later : List (Node × List ℕ)} (h : PostInv rt results posts m s)
    (htodo : s.todo = (node, left) :: later)
    (hall : ∀ i < node.factor, s.map.resultExists (rt.postCell node.id i) = true) :
    PostInv rt results posts m { s with todo := later } := by
  have hhead : (node, left) ∈ s.todo := htodo ▸ List.mem_cons_self
  have hin : ∀ {e}, e ∈ later → e ∈ s.todo := fun he => htodo ▸ List.mem_cons_of_mem _ he
  -- nothing of it is left, because nothing is detected before it is stored
  obtain rfl : left = [] := by
    refine List.eq_nil_iff_forall_not_mem.mpr fun i hi => ?_
    have hset := hall i ((h.left _ hhead).2 i hi)
    rw [h.awaited _ _ hhead i hi] at hset
    cases hset
  refine ⟨h.hosts, ?_, fun e he => h.left e (hin he), ?_, fun n l hn => h.awaited n l (hin hn),
    h.kept, ?_, h.traced⟩
  · have hsuffix := h.nodes
    rw [htodo, List.map_cons] at hsuffix
    exact (List.suffix_cons _ _).trans hsuffix
  · intro n hn i hi hleft
    refine h.stored n hn i hi fun l hl hmem => ?_
    rw [htodo] at hl
    rcases List.mem_cons.mp hl with hfirst | hl
    · obtain ⟨-, rfl⟩ := Prod.mk.inj hfirst
      cases hmem
    · exact hleft l hl hmem
  · obtain ⟨ran, hspent⟩ := h.spent
    have hsplit := hspent.split
    rw [htodo, postIds_cons] at hsplit
    exact ⟨ran, hsplit, hspent.room, hspent.blocked, hspent.nodup⟩

/-- Nothing stands in the cells of the post-nodes before they run. -/
def Clean (rt : PostRuntime) (m : ResultMap α) : Prop :=
  ∀ id index, m.resultExists (rt.postCell id index) = false

theorem postInv_start (hhosts : rt.Hosts m) (hclean : Clean rt m) :
    PostInv rt results posts m ⟨m, rt.room, [], posts.map Node.whole⟩ where
  hosts := hhosts
  nodes := by
    rw [List.map_map]
    exact (List.map_id posts).symm ▸ List.suffix_rfl
  left := by
    intro e he
    obtain ⟨node, -, rfl⟩ := List.mem_map.mp he
    exact ⟨List.nodup_range, fun i hi => List.mem_range.mp hi⟩
  stored := by
    intro node hnode index hindex hleft
    exact absurd (List.mem_range.mpr hindex) (hleft _ (List.mem_map_of_mem hnode))
  awaited := fun node _ _ index _ => hclean node.id index
  kept := fun _ _ => rfl
  spent := ⟨[], rfl, rfl, by simp, List.nodup_nil⟩
  traced := .inl rfl

theorem Schedules.inv (hids : (posts.map (·.id)).Nodup) (hhosts : rt.Hosts m)
    (hclean : Clean rt m) {s : PostRun α} (h : rt.Schedules results posts m s) :
    PostInv rt results posts m s := by
  induction h with
  | start => exact postInv_start hhosts hclean
  | run _ _ htodo htakes hidle hexec ih => exact ih.run hids htodo htakes hidle hexec
  | detected _ htodo hall ih => exact ih.detected htodo hall

/-! ## Driving a run -/

theorem forall₂_concat {β γ : Type} {R : β → γ → Prop} {xs : List β} {ys : List γ} {y : γ}
    (h : List.Forall₂ R xs (ys ++ [y])) : ∃ ws w, xs = ws ++ [w] ∧ List.Forall₂ R ws ys ∧ R w y := by
  rcases List.eq_nil_or_concat' xs with rfl | ⟨ws, w, rfl⟩
  · have hlength := h.length_eq
    rw [List.length_append] at hlength
    cases hlength
  · have hlength : ws.length = ys.length := by
      have hall := h.length_eq
      rw [List.length_append, List.length_append] at hall
      exact Nat.succ.inj hall
    have hfront := List.forall₂_take_append _ _ _ h
    have hback := List.forall₂_drop_append _ _ _ h
    rw [← hlength, List.take_left] at hfront
    rw [← hlength, List.drop_left] at hback
    exact ⟨ws, w, rfl, hfront, (List.forall₂_cons.mp hback).1⟩

section Drive

variable (hids : (posts.map (·.id)).Nodup) (hhosts : rt.Hosts m) (hclean : Clean rt m)

include hids hhosts hclean

/-- A post-node of which nothing is left is detected. -/
theorem Schedules.pass {s : PostRun α} {node : Node} {later : List (Node × List ℕ)}
    (h : rt.Schedules results posts m s) (htodo : s.todo = (node, []) :: later) :
    rt.Schedules results posts m { s with todo := later } := by
  have hinv := h.inv hids hhosts hclean
  have hhead : (node, []) ∈ s.todo := htodo ▸ List.mem_cons_self
  refine .detected h htodo fun i hi => ?_
  refine (hinv.stored node (mem_posts_of_todo hinv.nodes hhead) i hi fun left hin hmem => ?_).2
  obtain ⟨-, rfl⟩ := Prod.mk.inj (todo_unique hids hinv.nodes hin hhead rfl)
  cases hmem

/-- The instance that comes next is one of the current post-node, once the others are detected. -/
theorem Schedules.head {s : PostRun α} {id : ℕ} {rest : List ℕ}
    (h : rt.Schedules results posts m s) (hrest : postIds s.todo = id :: rest) :
    ∃ node index left later, node.id = id ∧
      rt.Schedules results posts m { s with todo := (node, index :: left) :: later } ∧
        postIds ((node, index :: left) :: later) = id :: rest := by
  obtain ⟨todo, htodo⟩ : ∃ todo, s.todo = todo := ⟨_, rfl⟩
  rw [htodo] at hrest
  induction todo generalizing s with
  | nil => cases hrest
  | cons e later ih =>
    obtain ⟨node, left⟩ := e
    cases left with
    | nil =>
      have hpass := h.pass hids hhosts hclean htodo
      have hnext := ih hpass hrest rfl
      exact hnext
    | cons index left =>
      refine ⟨node, index, left, later, (List.cons.inj hrest).1, ?_, hrest⟩
      rw [← htodo]
      exact h

variable (hfit : rt.PostResultsFit results posts m)

include hfit

/-- An instance that some worker can run can be run by any idle worker that takes it. -/
theorem PostResultsFit.execute (worker : ℕ) {s : PostRun α} {node : Node} {index : ℕ}
    {left : List ℕ} {later : List (Node × List ℕ)} (h : rt.Schedules results posts m s)
    (htodo : s.todo = (node, left) :: later) (hindex : index ∈ left) :
    ∃ s', rt.executePostNode worker node.id index (results node.id index) s = some s' := by
  have hinv := h.inv hids hhosts hclean
  obtain ⟨_, -, -, s', hexec⟩ := hfit.runs s h node left later htodo index hindex
  obtain ⟨⟨hrecord, htrace⟩, hbounds, -⟩ := executePostNode_some hinv.hosts.valid hexec
  exact executePostNode_spec hinv.hosts hrecord htrace ((hinv.hosts.inBounds_iff _ _).mp hbounds)
    worker _

/-- The instances run in any way that keeps to idle workers. -/
theorem PostResultsFit.reaches (pre : List ℕ) {rest blocked : List ℕ}
    (hsplit : postIds (posts.map Node.whole) = pre ++ rest) (hnodup : blocked.Nodup)
    (hblocked : List.Forall₂ (fun worker id => worker ∈ rt.takers id) blocked (pre.drop rt.room)) :
    ∃ s, rt.Schedules results posts m s ∧ postIds s.todo = rest ∧ s.blocked = blocked ∧
      s.room = rt.room - pre.length := by
  induction pre using List.reverseRecOn generalizing rest blocked with
  | nil =>
    rw [List.drop_nil, List.forall₂_nil_right_iff] at hblocked
    exact ⟨_, .start, hsplit, hblocked.symm, rfl⟩
  | append_singleton pre id ih =>
    rw [List.append_assoc, List.singleton_append] at hsplit
    by_cases hlt : pre.length < rt.room
    · -- the send goes through, whoever runs the instance
      rw [List.drop_eq_nil_of_le (by rw [List.length_append, List.length_singleton]; omega),
        List.forall₂_nil_right_iff] at hblocked
      obtain ⟨s, hreach, hrest, hnone, hroom⟩ := ih hsplit List.nodup_nil
        (by rw [List.drop_eq_nil_of_le (by omega)]; exact .nil)
      obtain ⟨node, index, left, later, rfl, hhead, hids'⟩ := hreach.head hids hhosts hclean hrest
      obtain ⟨worker, htakes, hidle, s', hexec⟩ :=
        hfit.runs _ hhead node _ later rfl index List.mem_cons_self
      obtain ⟨-, -, hexecutes⟩ :=
        executePostNode_some (hhead.inv hids hhosts hclean).hosts.valid hexec
      refine ⟨_, .run [] hhead rfl htakes hidle hexec, ?_, ?_, ?_⟩
      · exact (List.cons.inj hids').2
      · rw [hblocked]
        refine hexecutes.blocked.trans ?_
        have hpos : 0 < s.room := by omega
        exact (if_pos hpos).trans hnone
      · rw [List.length_append, List.length_singleton]
        exact hexecutes.room.trans (by simp only [hroom]; omega)
    · -- the worker stays in the send
      rw [List.drop_append_of_le_length (by omega)] at hblocked
      obtain ⟨workers, worker, rfl, hworkers, htakes⟩ := forall₂_concat hblocked
      obtain ⟨hfront, -, happart⟩ := List.nodup_append.mp hnodup
      obtain ⟨s, hreach, hrest, hsame, hroom⟩ := ih hsplit hfront hworkers
      obtain ⟨node, index, left, later, rfl, hhead, hids'⟩ := hreach.head hids hhosts hclean hrest
      have hidle : worker ∉ s.blocked := by
        rw [hsame]
        exact fun hin => happart worker hin worker (List.mem_singleton_self _) rfl
      obtain ⟨s', hexec⟩ := hfit.execute hids hhosts hclean worker hhead rfl
        (List.mem_cons_self : index ∈ index :: left)
      obtain ⟨-, -, hexecutes⟩ :=
        executePostNode_some (hhead.inv hids hhosts hclean).hosts.valid hexec
      refine ⟨_, .run [] hhead rfl htakes hidle hexec, ?_, ?_, ?_⟩
      · exact (List.cons.inj hids').2
      · refine hexecutes.blocked.trans ?_
        have hzero : ¬ 0 < s.room := by omega
        exact (if_neg hzero).trans (by rw [hsame])
      · rw [List.length_append, List.length_singleton]
        exact hexecutes.room.trans (by simp only [hroom]; omega)

theorem PostResultsFit.workersLast : rt.WorkersLast (postIds (posts.map Node.whole)) := by
  intro pre id post hsplit blocked hnodup hblocked
  obtain ⟨s, hreach, hrest, rfl, -⟩ :=
    hfit.reaches hids hhosts hclean pre hsplit hnodup hblocked
  obtain ⟨node, index, left, later, rfl, hhead, -⟩ := hreach.head hids hhosts hclean hrest
  obtain ⟨worker, htakes, hidle, -⟩ := hfit.runs _ hhead node _ later rfl index List.mem_cons_self
  exact ⟨worker, htakes, hidle⟩

/-- All that is left of the current post-node is run, and the next one comes. -/
theorem PostResultsFit.finishes {s : PostRun α} {node : Node} {left : List ℕ}
    {later : List (Node × List ℕ)} (h : rt.Schedules results posts m s)
    (htodo : s.todo = (node, left) :: later) :
    ∃ s', rt.Schedules results posts m s' ∧ s'.todo = later := by
  induction left generalizing s with
  | nil => exact ⟨_, h.pass hids hhosts hclean htodo, rfl⟩
  | cons index left ih =>
    obtain ⟨worker, htakes, hidle, s', hexec⟩ :=
      hfit.runs s h node _ later htodo index List.mem_cons_self
    exact ih (.run [] h htodo htakes hidle hexec) rfl

/-- Every post-node has its turn, with all its instances to run. -/
theorem PostResultsFit.turn (before : List Node) {after : List Node}
    (hposts : posts = before ++ after) :
    ∃ s, rt.Schedules results posts m s ∧ s.todo = after.map Node.whole := by
  induction before using List.reverseRecOn generalizing after with
  | nil =>
    subst hposts
    exact ⟨_, .start, rfl⟩
  | append_singleton before node ih =>
    rw [List.append_assoc] at hposts
    obtain ⟨s, hreach, htodo⟩ := ih hposts
    exact hfit.finishes hids hhosts hclean hreach htodo

/-- So the scheduling comes to an end. -/
theorem PostResultsFit.ends : ∃ s, rt.Schedules results posts m s ∧ s.todo = [] :=
  hfit.turn hids hhosts hclean posts (List.append_nil posts).symm

theorem PostResultsFit.fits (node : Node) (hnode : node ∈ posts) (hpos : 0 < node.factor) :
    rt.Untraced ∧ rt.FitsMain node := by
  obtain ⟨before, after, hposts⟩ := List.append_of_mem hnode
  obtain ⟨s, hreach, htodo⟩ := hfit.turn hids hhosts hclean before hposts
  have hinv := hreach.inv hids hhosts hclean
  obtain ⟨worker, -, -, s', hexec⟩ := hfit.runs s hreach node _ _ htodo (node.factor - 1)
    (List.mem_range.mpr (Nat.sub_lt hpos Nat.one_pos))
  obtain ⟨⟨hrecord, htrace⟩, hbounds, -⟩ := executePostNode_some hinv.hosts.valid hexec
  obtain ⟨main, hmain, hlt⟩ := (hinv.hosts.inBounds_iff _ _).mp hbounds
  refine ⟨⟨hrecord, ?_⟩, main, hmain, by omega⟩
  rcases hinv.traced with hall | hoff
  · by_cases hroom : 0 < s.room
    · exact .inl (htrace hroom)
    · exact .inr (by omega)
  · exact .inl hoff

end Drive

/-! ## The map before the post-nodes -/

theorem resultExists_clearCell {st : ResultMap α × List ℕ} {idx : ℕ} {c : ResultCell}
    (h : (ResultMap.clearCell st idx).1.resultExists c = true) : st.1.resultExists c = true := by
  obtain ⟨m, detached⟩ := st
  have hwords : (ResultMap.clearCell (m, detached) idx).1.inlineTag =
      Function.update m.inlineTag idx 0 ∧
        (ResultMap.clearCell (m, detached) idx).1.nodeFactors = m.nodeFactors ∧
          (ResultMap.clearCell (m, detached) idx).1.slots = m.slots := by
    unfold ResultMap.clearCell
    dsimp only
    split
    · split
      · split <;> exact ⟨rfl, rfl, rfl⟩
      · exact ⟨rfl, rfl, rfl⟩
    · exact ⟨rfl, rfl, rfl⟩
  obtain ⟨htag, hfactors, hslots⟩ := hwords
  have hshape : m.SameShape (ResultMap.clearCell (m, detached) idx).1 := ⟨hfactors, hslots⟩
  unfold ResultMap.resultExists at h ⊢
  rw [if_congr (hshape.inBounds c) rfl rfl, htag, hshape.flatIndex] at h
  split at h
  · next hc =>
    rw [if_pos hc]
    by_cases hidx : m.flatIndex c = idx
    · rw [hidx, Function.update_self] at h
      cases h
    · rwa [Function.update_of_ne hidx] at h
  · cases h

theorem resultExists_foldl {places : List ℕ} {st : ResultMap α × List ℕ} {c : ResultCell}
    (h : (places.foldl ResultMap.clearCell st).1.resultExists c = true) :
    st.1.resultExists c = true := by
  induction places generalizing st with
  | nil => exact h
  | cons idx places ih => exact resultExists_clearCell (ih h)

/-- Only a `set` of the cell makes its result exist. -/
theorem resultExists_step {m m' : ResultMap α} (hm : m.Valid) {op : MapOp α} {reply : MapReply α}
    (hstep : m.step op = some (reply, m')) {c : ResultCell} (hset : ∀ v, op ≠ .set c v)
    (h : m'.resultExists c = true) : m.resultExists c = true := by
  cases op with
  | set d v =>
    obtain ⟨n, hn, heq⟩ := Option.map_eq_some_iff.mp hstep
    obtain ⟨-, rfl⟩ := Prod.mk.inj heq
    have hd : m.InBounds d := by
      unfold ResultMap.set at hn
      split at hn
      · assumption
      · cases hn
    obtain ⟨n', hn', hstores⟩ := ResultMap.set_stores hm hd v
    obtain rfl := Option.some.inj (hn.symm.trans hn')
    have hne : c ≠ d := fun hcd => hset v (hcd ▸ rfl)
    rwa [hstores.exists_eq, Function.update_of_ne hne] at h
  | get d =>
    obtain ⟨-, rfl⟩ := Prod.mk.inj (Option.some.inj hstep)
    exact h
  | resultExists d =>
    obtain ⟨-, rfl⟩ := Prod.mk.inj (Option.some.inj hstep)
    exact h
  | reinitSlot slot =>
    obtain ⟨n, hreinit, heq⟩ := Option.map_eq_some_iff.mp hstep
    obtain ⟨-, rfl⟩ := Prod.mk.inj heq
    unfold ResultMap.reinitSlot at hreinit
    split at hreinit
    · obtain rfl := Option.some.inj hreinit
      apply @resultExists_foldl _ (List.range' (slot * m.perSlotSize) m.perSlotSize) (m, []) c
      generalize (List.range' (slot * m.perSlotSize) m.perSlotSize).foldl ResultMap.clearCell
        (m, []) = st at h
      obtain ⟨htag, -, -, -, -, hfactors, hslots⟩ := ResultMap.send_words st.1 st.2
      have hshape : st.1.SameShape (st.1.send st.2) := ⟨hfactors, hslots⟩
      unfold ResultMap.resultExists at h ⊢
      rwa [if_congr (hshape.inBounds c) rfl rfl, htag, hshape.flatIndex] at h
    · cases hreinit
  | reclaimBatch =>
    obtain ⟨-, rfl⟩ := Prod.mk.inj (Option.some.inj hstep)
    unfold ResultMap.reclaimBatch at h
    split at h
    · exact h
    · exact h

/-- The frames leave the slot of the post-nodes empty when they set no result there. -/
theorem clean_run {m m' : ResultMap α} (hm : m.Valid) (hclean : Clean rt m) {ops : List (MapOp α)}
    {replies : List (MapReply α)} (hrun : ResultMap.step.run ops m = some (replies, m'))
    (hops : ∀ c v, MapOp.set c v ∈ ops → c.slot ≠ rt.frameUse) : Clean rt m' := by
  induction ops generalizing m replies with
  | nil =>
    obtain ⟨-, rfl⟩ := Prod.mk.inj (Option.some.inj hrun)
    exact hclean
  | cons op ops ih =>
    simp only [MapStep.run, Option.bind_eq_bind, Option.bind_eq_some_iff, Option.pure_def] at hrun
    obtain ⟨⟨reply, s⟩, hstep, ⟨rest, s'⟩, hrest, hend⟩ := hrun
    obtain ⟨-, rfl⟩ := Prod.mk.inj (Option.some.inj hend)
    refine ih (ResultMap.valid_step hm hstep).1 (fun id index => ?_) hrest
      fun c v hin => hops c v (List.mem_cons_of_mem _ hin)
    refine Bool.eq_false_of_not_eq_true fun hset => ?_
    have hbefore := resultExists_step hm hstep
      (fun v heq => hops _ v (List.mem_cons.mpr (.inl heq.symm)) rfl) hset
    rw [hclean id index] at hbefore
    cases hbefore

theorem valid_resultMap (deferred : Bool) : (rt.resultMap α deferred).Valid := by
  intro idx p hp
  cases hp

theorem clean_resultMap (deferred : Bool) : Clean rt (rt.resultMap α deferred) := by
  intro id index
  unfold ResultMap.resultExists
  split
  · rfl
  · rfl

theorem parsePostNodes_ids (nodes : List Node) :
    (parsePostNodes nodes).map (·.id) = List.range nodes.length := by
  induction nodes using List.reverseRecOn with
  | nil => rfl
  | append_singleton nodes node ih =>
    rw [parsePostNodes_concat, List.map_append, ih, List.length_append, List.length_singleton,
      List.range_succ]
    rfl

theorem parsePostNodes_nodup (nodes : List Node) : ((parsePostNodes nodes).map (·.id)).Nodup := by
  rw [parsePostNodes_ids]
  exact List.nodup_range

/-! ## The whole schedule -/

/-- With workers left and cells for all instances every instance can be run. -/
theorem runs_of_fits {s : PostRun α} (h : PostInv rt results posts m s)
    (hfits : ∀ node ∈ posts, 0 < node.factor → rt.Untraced ∧ rt.FitsMain node)
    (hworkers : rt.WorkersLast (postIds (posts.map Node.whole))) {node : Node} {left : List ℕ}
    {later : List (Node × List ℕ)} (htodo : s.todo = (node, left) :: later) {index : ℕ}
    (hindex : index ∈ left) :
    ∃ worker ∈ rt.takers node.id, worker ∉ s.blocked ∧
      ∃ s', rt.executePostNode worker node.id index (results node.id index) s = some s' := by
  have hhead : (node, left) ∈ s.todo := htodo ▸ List.mem_cons_self
  have hlt := (h.left _ hhead).2 index hindex
  obtain ⟨⟨hrecord, htrace⟩, main, hmain, hle⟩ :=
    hfits node (mem_posts_of_todo h.nodes hhead) (Nat.zero_lt_of_lt hlt)
  obtain ⟨ran, hspent⟩ := h.spent
  obtain ⟨n, hn⟩ : ∃ n, left.length = n + 1 :=
    Nat.exists_eq_succ_of_ne_zero (List.length_pos_of_mem hindex).ne'
  have hsplit := hspent.split
  rw [htodo, postIds_cons, hn, List.replicate_succ, List.cons_append] at hsplit
  obtain ⟨worker, htakes, hidle⟩ := hworkers ran node.id _ hsplit _ hspent.nodup hspent.blocked
  refine ⟨worker, htakes, hidle, executePostNode_spec h.hosts hrecord (fun hroom => ?_)
    ⟨main, hmain, hlt.trans_le hle⟩ worker _⟩
  have hspentRoom := hspent.room
  exact htrace.resolve_right (by omega)

variable (rt) (results)

/-- A graph of one main node and one frame slot, a pool of two workers, and a queue with one place. -/
def oneMain : PostRuntime where
  nodes := [⟨false, 0, [], 3, none, false⟩]
  slots := 1
  systemThreads := 1
  frameId := [0]
  frameId_length := rfl
  recordFrame := none
  traceOn := false
  room := 1
  takers := fun _ => Finset.range 2

end PostRuntime

end Tomii
