import Tomii.Runtime.ReleaseRuns

/-! # Resolving `$res` arguments (`runtime/arg_resolution.rs`)

Which predecessor instance a task's `$res` argument is fetched from, and which tasks the two
resolution paths dispatch: the resolver trusts the index a task carries from the completion
that dispatched it, unless the factors differ or the node has a barrier. -/
namespace Tomii
set_option autoImplicit false
set_option maxHeartbeats 250000

/-- `declared.rem_euclid(pred_factor)`; a zero factor panics. -/
def remEuclid (declared : ℤ) (predFactor : ℕ) : Option ℕ :=
  if predFactor = 0 then none else some (declared % (predFactor : ℤ)).toNat

/-- `single_index_dep_idx`; a zero `group_size` panics. -/
def singleIndexDepIdx (nodeIndex : ℕ) (declared : ℤ) (predFactor : ℕ)
    (nodeGroupSize predEffGroupSize : Option ℕ) : Option ℕ :=
  match nodeGroupSize, predEffGroupSize with
  | some ngs, some effGs =>
    if ngs = 0 then none else some ((nodeIndex / ngs * effGs + isizeAsUsize declared) % 2 ^ 64)
  | some _, none => remEuclid declared predFactor
  | none, _ => findPredIndex nodeIndex declared predFactor

/-- `per_instance_dep_idx` -/
def perInstanceDepIdx (indexes : List ℤ) (nodeIndex predIndex predFactor nodeFactor : ℕ)
    (nodeHasBarrier : Bool) : Option ℕ :=
  if predFactor = nodeFactor ∧ nodeHasBarrier = false then
    if predFactor = 0 then none else some (predIndex % predFactor)
  else indexes[nodeIndex]?.bind fun declared => remEuclid declared predFactor

/-- What the plugin and the condition expressions say of a node. -/
structure Kernels where
  /-- `bulk_func.is_some()` -/
  bulkFunc : ℕ → Bool
  /-- The condition of the first node reads a result of the second. -/
  conditionReads : ℕ → ℕ → Bool

namespace Compiled

variable (c : Compiled)

/-- `needs_result_store` -/
def needsResultStore (k : Kernels) (id : ℕ) : Bool :=
  (c.graph.successors id).any fun s =>
    (c.nodeAt s).args.any (fun a => a.isResult && a.reads id) || k.conditionReads s id

/-- `fetch_res_results`, as the predecessor instances it fetches; `none` for no value or a
panic. -/
def fetchResResults (id : ℕ) (p : Predecessor) (nodeIndex predIndex : ℕ) : Option (List ℕ) :=
  let predFactor := c.factor p.id
  let predEffGroupSize := (c.nodeAt p.id).groupSize.or
    (c.graph.route c.range1to1Enabled (c.nodeAt id) p.id).groupBy
  match p.indexes with
  | [] => none
  | [declared] =>
    (singleIndexDepIdx nodeIndex declared predFactor (c.nodeAt id).groupSize predEffGroupSize).map
      ([·])
  | indexes =>
    if indexes.length = c.factor id then
      (perInstanceDepIdx indexes nodeIndex predIndex predFactor (c.factor id)
        (c.nodeAt id).hasBarrier).map ([·])
    else indexes.mapM fun declared => findPredIndex nodeIndex declared predFactor

/-- `use_bulk_fast_path`: the bulk kernel is called once and resolves no argument. -/
def bulkFastPath (k : Kernels) (task : NodeInfo) : Bool :=
  1 < task.bulkCount && k.bulkFunc task.id && !c.needsResultStore k task.id

/-- The predecessor instances that instance `j` of a task fetches for the reference `p`: each
cell of a bulk task passes its own index as the triggering one. -/
def receivedCells (k : Kernels) (task : NodeInfo) (j : ℕ) (p : Predecessor) : Option (List ℕ) :=
  if c.bulkFastPath k task then none
  else c.fetchResResults task.id p j (if 1 < task.bulkCount then j else task.predIndex)

/-! ## Dispatched tasks -/

variable (cfg : Config)

/-- The tasks that a step hands out. -/
def handedOut (r : Resolution) (s : SlotState) : List NodeInfo :=
  match r with
  | .worker ni =>
    let out := c.workerResolveSuccessors cfg ni s
    out.scheduled ++ out.inline.toList
  | .batch eval ni => (c.batchEntry cfg eval ni s).1.sched

/-- The step counts arrivals of `v` and sends the whole factor when the last one is in. -/
def sendsWhole (r : Resolution) (v : ℕ) : Bool :=
  match r with
  | .worker ni => cfg.fanoutBulkEligible (c.edge ni.id v)
  | .batch _ ni => !c.isCondition v && cfg.fanoutBulkEligible (c.edge ni.id v)

/-- Instance `j` of `v` goes out in one task with other instances: the whole factor is cut in
chunks for the workers, or a worker cuts the instances `ready` that have just become ready,
when they are consecutive and more than the workers. The batch path cuts nothing else. -/
def SharesTask (r : Resolution) (v : ℕ) (ready : List ℕ) (j : ℕ) : Prop :=
  if c.sendsWhole cfg r v then
    SharesChunk 0 (asU32 (c.factor v)).toNat
      (max (min cfg.workers (asU32 (c.factor v)).toNat) 1) j
  else
    match r with
    | .worker _ => cfg.coalesceBarriers = true ∧ 0 < cfg.workers ∧
        ready = List.range' (ready.headD 0) ready.length ∧
        SharesChunk (ready.headD 0) ready.length cfg.workers j
    | .batch _ _ => False

/-- A task for `v` as every dispatch path makes it. -/
structure Follows (r : Resolution) (v : ℕ) (ready : List ℕ) (task : NodeInfo) : Prop where
  id : task.id = v
  predIndex : task.predIndex = r.task.index
  instances_lt : ∀ j ∈ task.instances, j < c.factor v
  shares : ∀ j ∈ task.instances, (1 < task.bulkCount ↔ c.SharesTask cfg r v ready j)

variable {c cfg}

theorem Follows.stamp {r : Resolution} {v : ℕ} {ready : List ℕ} {task : NodeInfo}
    (h : c.Follows cfg r v ready task) (gen : UInt32) :
    c.Follows cfg r v ready { task with gen := gen } :=
  ⟨h.id, h.predIndex, h.instances_lt, h.shares⟩

theorem decrementEdge_ready_lt {p v : ℕ} (hv : v < c.graph.nodes.length) (i n : ℕ) (s : LazySlot)
    {r : ℕ} (hr : r ∈ (c.decrementEdge (c.edge p v) i n s).1) : r < c.factor v := by
  obtain ⟨hready, -, -⟩ := runCalls_deps hv ((c.edge p v).calls i n) s
  have hmem : r ∈ (c.runOn v ((c.edge p v).calls i n) s).1 := by
    rw [← hready]
    exact hr
  exact EntryState.runCalls_ready_lt (c.entry v) _ _ hmem

theorem follows_chunkTasks {r : Resolution} {v start total n : ℕ} {ready : List ℕ} {gen : UInt32}
    (hn : 0 < n) (hlt : ∀ j ∈ List.range' start total, j < c.factor v)
    (hshares : ∀ j ∈ List.range' start total,
      (SharesChunk start total n j ↔ c.SharesTask cfg r v ready j)) :
    ∀ task ∈ chunkTasks v r.task.slot r.task.index gen (chunks start total n),
      c.Follows cfg r v ready task := by
  intro task htask
  obtain ⟨ch, hch, heq⟩ := List.mem_map.mp htask
  subst heq
  have hin : ∀ j ∈ List.range' ch.1 ch.2, j ∈ List.range' start total := by
    intro j hj
    rw [← chunks_cover start total n hn]
    exact List.mem_flatMap.mpr ⟨ch, hch, hj⟩
  exact ⟨rfl, rfl, fun j hj => hlt j (hin j hj),
    fun j hj => (one_lt_chunk_iff hn hch hj).trans (hshares j (hin j hj))⟩

/-- A task of one instance. -/
theorem follows_singles {r : Resolution} {v : ℕ} {ready : List ℕ}
    (hlt : ∀ j ∈ ready, j < c.factor v) (halone : ∀ j, ¬ c.SharesTask cfg r v ready j) :
    ∀ task ∈ ready.map fun idx => NodeInfo.new v r.task.slot idx r.task.index,
      c.Follows cfg r v ready task := by
  intro task htask
  obtain ⟨idx, hidx, heq⟩ := List.mem_map.mp htask
  subst heq
  refine ⟨rfl, rfl, fun j hj => ?_, fun j _ => iff_of_false (lt_irrefl 1) (halone j)⟩
  simp only [NodeInfo.instances, NodeInfo.new, List.mem_range'_1] at hj
  have hj' : j = idx := by omega
  rw [hj']
  exact hlt idx hidx

theorem follows_pushReadyChunked {ni : NodeInfo} {v : ℕ} {ready : List ℕ}
    (hwhole : c.sendsWhole cfg (.worker ni) v = false) (hlt : ∀ j ∈ ready, j < c.factor v) :
    ∀ task ∈ pushReadyChunked ready v ni.slot ni.index cfg.workers cfg.coalesceBarriers,
      c.Follows cfg (.worker ni) v ready task := by
  have hshares : ∀ j, c.SharesTask cfg (.worker ni) v ready j ↔
      cfg.coalesceBarriers = true ∧ 0 < cfg.workers ∧
        ready = List.range' (ready.headD 0) ready.length ∧
        SharesChunk (ready.headD 0) ready.length cfg.workers j := by
    intro j
    simp only [SharesTask, hwhole, Bool.false_eq_true, if_false]
  cases ready with
  | nil =>
    intro task htask
    cases htask
  | cons start rest =>
    simp only [pushReadyChunked]
    by_cases hchunk : cfg.coalesceBarriers = true ∧
        start :: rest = List.range' start (start :: rest).length ∧ 0 < cfg.workers ∧
        cfg.workers < (start :: rest).length
    · rw [if_pos hchunk]
      refine follows_chunkTasks (r := .worker ni) hchunk.2.2.1 (fun j hj => ?_) fun j _ => ?_
      · rw [← hchunk.2.1] at hj
        exact hlt j hj
      · rw [hshares]
        exact ⟨fun h => ⟨hchunk.1, hchunk.2.2.1, hchunk.2.1, h⟩, fun h => h.2.2.2⟩
    · rw [if_neg hchunk]
      refine follows_singles (r := .worker ni) hlt fun j hshare => ?_
      obtain ⟨hco, hpos, hrange, hlong⟩ := (hshares j).mp hshare
      exact hchunk ⟨hco, hrange, hpos, hlong.1⟩

theorem follows_arriveFanout {r : Resolution} {v : ℕ} (hwhole : c.sendsWhole cfg r v = true)
    (ready returned : List ℕ) (s : LazySlot) :
    ∀ task ∈ (arriveFanout cfg r.task (c.edge r.task.id v) ready s).1,
      c.Follows cfg r v returned task := by
  intro task htask
  simp only [arriveFanout] at htask
  split at htask
  · refine follows_chunkTasks (by omega) (fun j hj => ?_) (fun j _ => ?_) task htask
    · have hle : (asU32 (c.factor v)).toNat ≤ c.factor v := by
        rw [asU32_toNat]
        exact Nat.mod_le _ _
      rw [edge_succFactor, List.mem_range'_1] at hj
      omega
    · unfold SharesTask
      rw [if_pos hwhole]
      rfl
  · cases htask

/-! ## The two walks -/

/-- An edge marks the instances of its successor only. -/
theorem workerEdge_readyOf (ni : NodeInfo) (e : SuccEdge) (s : LazySlot) (w : ℕ) :
    (c.workerEdge cfg ni e s).1.readyOf w =
      if w = e.succId then (c.decrementEdge e ni.index ni.bulkCount s).1 else [] := by
  simp only [workerEdge]
  split
  · exact Trace.readyOf_marked w e.succId _ _
  · exact Trace.readyOf_marked w e.succId _ _

theorem workerWalk_readyOf_of_notMem (ni : NodeInfo) (p : ℕ) {vs : List ℕ} {w : ℕ} (hw : w ∉ vs)
    (s : LazySlot) : (c.workerWalk cfg ni (vs.map (c.edge p)) s).1.readyOf w = [] := by
  induction vs generalizing s with
  | nil => rfl
  | cons v vs ih =>
    rw [List.mem_cons, not_or] at hw
    have hne : w ≠ (c.edge p v).succId := hw.1
    simp only [List.map_cons, workerWalk, Trace.readyOf_append, workerEdge_readyOf, if_neg hne,
      ih hw.2, List.append_nil]

theorem follows_workerEdge (ni : NodeInfo) {v : ℕ} (hlt : v < c.graph.nodes.length)
    (s : LazySlot) : ∀ task ∈ (c.workerEdge cfg ni (c.edge ni.id v) s).1.sched,
      c.Follows cfg (.worker ni) v ((c.workerEdge cfg ni (c.edge ni.id v) s).1.readyOf v) task := by
  have hready : ∀ j ∈ (c.decrementEdge (c.edge ni.id v) ni.index ni.bulkCount s).1,
      j < c.factor v := fun j hj => decrementEdge_ready_lt hlt _ _ _ hj
  intro task htask
  rw [workerEdge_readyOf, edge_succId, if_pos rfl]
  simp only [workerEdge, edge_succId] at htask
  by_cases hwhole : cfg.fanoutBulkEligible (c.edge ni.id v) = true
  · split at htask
    · exact follows_arriveFanout (r := .worker ni) hwhole _ _ _ task htask
    · next hnone =>
      have hempty : (c.decrementEdge (c.edge ni.id v) ni.index ni.bulkCount s).1 = [] := by
        simpa [hwhole] using hnone
      rw [hempty] at htask
      cases htask
  · have hno : c.sendsWhole cfg (.worker ni) v = false := Bool.eq_false_of_not_eq_true hwhole
    simp only [hwhole, Bool.false_and, Bool.false_eq_true, if_false] at htask
    exact follows_pushReadyChunked hno hready task htask

theorem follows_workerWalk (ni : NodeInfo) (vs : List ℕ) (hnd : vs.Nodup)
    (hvs : ∀ v ∈ vs, v < c.graph.nodes.length) (s : LazySlot) :
    ∀ task ∈ (c.workerWalk cfg ni (vs.map (c.edge ni.id)) s).1.sched, task.id ∈ vs ∧
      c.Follows cfg (.worker ni) task.id
        ((c.workerWalk cfg ni (vs.map (c.edge ni.id)) s).1.readyOf task.id) task := by
  induction vs generalizing s with
  | nil =>
    intro task htask
    cases htask
  | cons v vs ih =>
    obtain ⟨hv, hnd'⟩ := List.nodup_cons.mp hnd
    intro task htask
    simp only [List.map_cons, workerWalk, Trace.append, List.mem_append] at htask
    simp only [List.map_cons, workerWalk, Trace.readyOf_append]
    cases htask with
    | inl h =>
      have hfirst := follows_workerEdge ni (hvs v List.mem_cons_self) s task h
      rw [hfirst.id, workerWalk_readyOf_of_notMem ni ni.id hv, List.append_nil]
      exact ⟨List.mem_cons_self, hfirst⟩
    | inr h =>
      obtain ⟨hmem, hrest⟩ := ih hnd' (fun w hw => hvs w (List.mem_cons_of_mem _ hw)) _ task h
      have hne : task.id ≠ v := fun heq => hv (heq ▸ hmem)
      rw [workerEdge_readyOf, edge_succId, if_neg hne, List.nil_append]
      exact ⟨List.mem_cons_of_mem _ hmem, hrest⟩

theorem mem_dispatchEach {eval : NodeInfo → Bool} {tasks : List NodeInfo} {s : SlotState}
    {task : NodeInfo} (h : task ∈ (c.dispatchEach eval tasks s).1) : task ∈ tasks := by
  induction tasks generalizing s with
  | nil => cases h
  | cons t ts ih =>
    simp only [dispatchEach, List.mem_append] at h
    cases h with
    | inl h =>
      simp only [dispatchConditionSuccessor] at h
      split at h
      · rw [List.mem_singleton.mp h]
        exact List.mem_cons_self
      · cases h
    | inr h => exact List.mem_cons_of_mem _ (ih h)

theorem batchEdge_readyOf_of_ne (eval : NodeInfo → Bool) (ni : NodeInfo) {e : SuccEdge} {w : ℕ}
    (hw : w ≠ e.succId) (s : SlotState) : (c.batchEdge cfg eval ni e s).1.readyOf w = [] := by
  have hmarked : ∀ (ready : List ℕ) (sched : List NodeInfo),
      (Trace.mk (ready.map fun r => (e.succId, r)) sched).readyOf w = [] := by
    intro ready sched
    rw [Trace.readyOf_marked, if_neg hw]
  unfold batchEdge
  split
  · rfl
  · split
    · rfl
    · dsimp only
      split
      · exact hmarked _ _
      · split
        · exact hmarked _ _
        · exact hmarked _ _

theorem batchWalk_readyOf_of_notMem (eval : NodeInfo → Bool) (ni : NodeInfo) (p : ℕ) {vs : List ℕ}
    {w : ℕ} (hw : w ∉ vs) (s : SlotState) :
    (c.batchWalk cfg eval ni (vs.map (c.edge p)) s).1.readyOf w = [] := by
  induction vs generalizing s with
  | nil => rfl
  | cons v vs ih =>
    rw [List.mem_cons, not_or] at hw
    have hne : w ≠ (c.edge p v).succId := hw.1
    simp only [List.map_cons, batchWalk, Trace.readyOf_append, ih hw.2, List.append_nil]
    exact batchEdge_readyOf_of_ne eval ni hne s

theorem follows_batchEdge (eval : NodeInfo → Bool) (ni : NodeInfo) {v : ℕ}
    (hlt : v < c.graph.nodes.length) (s : SlotState) :
    ∀ task ∈ (c.batchEdge cfg eval ni (c.edge ni.id v) s).1.sched,
      c.Follows cfg (.batch eval ni) v
        ((c.batchEdge cfg eval ni (c.edge ni.id v) s).1.readyOf v) task := by
  have hready : ∀ j ∈ (c.decrementEdge (c.edge ni.id v) ni.index ni.bulkCount s.cells).1,
      j < c.factor v := fun j hj => decrementEdge_ready_lt hlt _ _ _ hj
  have hsingle : c.sendsWhole cfg (.batch eval ni) v = false →
      ∀ task ∈ (c.decrementEdge (c.edge ni.id v) ni.index ni.bulkCount s.cells).1.map fun idx =>
        NodeInfo.new v ni.slot idx ni.index, c.Follows cfg (.batch eval ni) v
          (c.decrementEdge (c.edge ni.id v) ni.index ni.bulkCount s.cells).1 task := by
    intro hno
    refine follows_singles (r := .batch eval ni) hready fun j hshare => ?_
    simp only [SharesTask, hno, Bool.false_eq_true, if_false] at hshare
  intro task htask
  unfold batchEdge at htask ⊢
  split at htask
  · cases htask
  · next hpass =>
    rw [if_neg hpass]
    by_cases hspawned : ((c.edge ni.id v).hasCondition &&
        decide (s.cells.remainingSpawns c.layout (c.edge ni.id v).succId = 0)) = true
    · rw [if_pos hspawned] at htask
      cases htask
    · rw [if_neg hspawned] at htask ⊢
      dsimp only at htask ⊢
      by_cases hwhole : c.sendsWhole cfg (.batch eval ni) v = true
      · have helig : (!c.isCondition v && cfg.fanoutBulkEligible (c.edge ni.id v)) = true := hwhole
        split at htask
        · next hsome =>
          rw [if_pos hsome]
          exact follows_arriveFanout (r := .batch eval ni) hwhole _ _ _ task htask
        · next hnone =>
          have hempty : (c.decrementEdge (c.edge ni.id v) ni.index ni.bulkCount s.cells).1 = [] := by
            simpa [helig] using hnone
          rw [Bool.and_eq_true, Bool.not_eq_true'] at helig
          simp only [edge_hasCondition, helig.1, hempty, Bool.false_eq_true, if_false] at htask
          cases htask
      · have hno := Bool.eq_false_of_not_eq_true hwhole
        have helig : ¬ (!(c.edge ni.id v).hasCondition && cfg.fanoutBulkEligible (c.edge ni.id v) &&
            !(c.decrementEdge (c.edge ni.id v) ni.index ni.bulkCount s.cells).1.isEmpty) = true := by
          rw [Bool.and_eq_true]
          exact fun h => hwhole h.1
        rw [if_neg helig] at htask ⊢
        split at htask
        · next hcond =>
          rw [if_pos hcond, Trace.readyOf_marked, if_pos (c.edge_succId ni.id v).symm]
          exact hsingle hno task (mem_dispatchEach htask)
        · next hcond =>
          rw [if_neg hcond, Trace.readyOf_marked, if_pos (c.edge_succId ni.id v).symm]
          exact hsingle hno task htask

theorem follows_batchWalk (eval : NodeInfo → Bool) (ni : NodeInfo) (vs : List ℕ) (hnd : vs.Nodup)
    (hvs : ∀ v ∈ vs, v < c.graph.nodes.length) (s : SlotState) :
    ∀ task ∈ (c.batchWalk cfg eval ni (vs.map (c.edge ni.id)) s).1.sched, task.id ∈ vs ∧
      c.Follows cfg (.batch eval ni) task.id
        ((c.batchWalk cfg eval ni (vs.map (c.edge ni.id)) s).1.readyOf task.id) task := by
  induction vs generalizing s with
  | nil =>
    intro task htask
    cases htask
  | cons v vs ih =>
    obtain ⟨hv, hnd'⟩ := List.nodup_cons.mp hnd
    intro task htask
    simp only [List.map_cons, batchWalk, Trace.append, List.mem_append] at htask
    simp only [List.map_cons, batchWalk, Trace.readyOf_append]
    cases htask with
    | inl h =>
      have hfirst := follows_batchEdge eval ni (hvs v List.mem_cons_self) s task h
      rw [hfirst.id, batchWalk_readyOf_of_notMem eval ni ni.id hv, List.append_nil]
      exact ⟨List.mem_cons_self, hfirst⟩
    | inr h =>
      obtain ⟨hmem, hrest⟩ := ih hnd' (fun w hw => hvs w (List.mem_cons_of_mem _ hw)) _ task h
      have hne : task.id ≠ v := fun heq => hv (heq ▸ hmem)
      rw [batchEdge_readyOf_of_ne eval ni (by rwa [edge_succId]), List.nil_append]
      exact ⟨List.mem_cons_of_mem _ hmem, hrest⟩

end Compiled

/-- What a worker hands out it has laid out on its walk, and stamped with the generation. -/
theorem Compiled.handedOut_worker {c : Compiled} {cfg : Config} {ni : NodeInfo} {s : SlotState}
    {task : NodeInfo} (hd : task ∈ c.handedOut cfg (.worker ni) s) :
    s.cells.slotGen = ni.gen ∧ ∃ t ∈ (c.workerWalk cfg ni (c.edgesFor ni.id) s.cells).1.sched,
      ∃ gen, { t with gen := gen } = task := by
  simp only [handedOut, workerResolveSuccessors] at hd
  split at hd
  · cases hd
  · next hgen =>
    rw [retire_cells] at hd
    refine ⟨of_not_not hgen, ?_⟩
    rw [List.mem_append] at hd
    cases hd with
    | inl hd =>
      obtain ⟨t, ht, heq⟩ := List.mem_map.mp hd
      split at ht
      · exact ⟨t, List.mem_of_mem_dropLast ht, _, heq⟩
      · exact ⟨t, ht, _, heq⟩
    | inr hd =>
      rw [Option.mem_toList] at hd
      split at hd
      · obtain ⟨t, ht, heq⟩ := Option.map_eq_some_iff.mp hd
        exact ⟨t, List.mem_of_getLast? ht, _, heq⟩
      · cases hd

/-- What a worker's step makes ready it has marked on its walk. -/
theorem Compiled.returned_worker (c : Compiled) (cfg : Config) {ni : NodeInfo} {s : SlotState}
    (hgen : s.cells.slotGen = ni.gen) (v : ℕ) : c.returned cfg (.worker ni) s v =
      (c.workerWalk cfg ni (c.edgesFor ni.id) s.cells).1.readyOf v := by
  simp only [returned, resolve, workerResolveSuccessors]
  rw [if_neg (not_not_intro hgen), retire_cells]
  rfl

/-- Every task that a step hands out carries the index of the completed task. -/
theorem BuiltFrom.follows {nodes : List Node} {c : Compiled} (h : BuiltFrom nodes c) {cfg : Config}
    {r : Resolution} {s : SlotState} {task : NodeInfo} (hd : task ∈ c.handedOut cfg r s) :
    c.Follows cfg r task.id (c.returned cfg r s task.id) task := by
  cases r with
  | worker ni =>
    obtain ⟨hgen, t, ht, gen, heq⟩ := Compiled.handedOut_worker hd
    rw [c.returned_worker cfg hgen, ← heq]
    exact (Compiled.follows_workerWalk ni (c.graph.successors ni.id)
      (h.rows.successors_nodup ni.id) h.successors_lt _ t ht).2.stamp gen
  | batch eval ni =>
    exact (Compiled.follows_batchWalk eval ni (c.graph.successors ni.id)
      (h.rows.successors_nodup ni.id) h.successors_lt (c.retire ni s) task hd).2

/-! ## Per-instance references -/

namespace Compiled

variable (c : Compiled)

/-- `p` is the reference of a main `$res` argument of `v`, with one index for each instance. -/
structure PerInstanceRes (v : ℕ) (p : Predecessor) : Prop where
  declared : ∃ a ∈ (c.nodeAt v).args,
    a.isResult = true ∧ a.isCondition = false ∧ a.predecessor = some p
  length : p.indexes.length = c.factor v
  many : 1 < c.factor v

/-- Instance `j` of the task fetches exactly the cell that it declares. -/
def ReceivesDeclared (k : Kernels) (task : NodeInfo) (j : ℕ) (p : Predecessor) : Prop :=
  ∃ declared, p.indexes[j]? = some declared ∧
    c.receivedCells k task j p = some [(declared % (c.factor p.id : ℤ)).toNat]

/-- When instance `j` of `v` fetches the cell that it declares of `p`, in the step `r` whose
decrements returned `ready`. A task of several instances must have a kernel that resolves
arguments. With equal factors and no barrier the resolver goes by the instance itself in such
a task, and otherwise by the completed task, for a chunk by its first instance; that has to be
the declared one. -/
structure FetchesDeclared (cfg : Config) (k : Kernels) (r : Resolution) (v : ℕ) (ready : List ℕ)
    (j : ℕ) (p : Predecessor) : Prop where
  resolves : c.SharesTask cfg r v ready j → k.bulkFunc v = true → c.needsResultStore k v = true
  pred_pos : 0 < c.factor p.id
  shared : c.factor p.id = c.factor v → (c.nodeAt v).hasBarrier = false →
    c.SharesTask cfg r v ready j → ∀ declared, p.indexes[j]? = some declared →
      (j : ℤ) % (c.factor v : ℤ) = declared % (c.factor v : ℤ)
  alone : c.factor p.id = c.factor v → (c.nodeAt v).hasBarrier = false →
    ¬ c.SharesTask cfg r v ready j → ∀ declared, p.indexes[j]? = some declared →
      (r.task.index : ℤ) % (c.factor v : ℤ) = declared % (c.factor v : ℤ)

variable {c}

theorem fetchResResults_of_length {v : ℕ} {p : Predecessor} (hlength : p.indexes.length = c.factor v)
    (hmany : 1 < c.factor v) (j predIndex : ℕ) : c.fetchResResults v p j predIndex =
      (perInstanceDepIdx p.indexes j predIndex (c.factor p.id) (c.factor v)
        (c.nodeAt v).hasBarrier).map ([·]) := by
  unfold fetchResResults
  match hindexes : p.indexes with
  | [] =>
    rw [hindexes, List.length_nil] at hlength
    omega
  | [_] =>
    rw [hindexes, List.length_singleton] at hlength
    omega
  | d₀ :: d₁ :: rest =>
    rw [hindexes] at hlength
    simp only [hlength, if_true]

theorem fetchResResults_perInstance {v : ℕ} {p : Predecessor} (h : c.PerInstanceRes v p)
    (j predIndex : ℕ) : c.fetchResResults v p j predIndex =
      (perInstanceDepIdx p.indexes j predIndex (c.factor p.id) (c.factor v)
        (c.nodeAt v).hasBarrier).map ([·]) :=
  fetchResResults_of_length h.length h.many j predIndex

theorem remEuclid_pos {predFactor : ℕ} (h : 0 < predFactor) (declared : ℤ) :
    remEuclid declared predFactor = some (declared % (predFactor : ℤ)).toNat :=
  if_neg (by omega)

/-- The resolver's own fast path is right exactly when the index it trusts is the declared one. -/
theorem perInstanceDepIdx_eq_iff {indexes : List ℤ} {j P : ℕ} (predIndex F : ℕ) (bar : Bool)
    {declared : ℤ} (hP : 0 < P) (hj : indexes[j]? = some declared) :
    perInstanceDepIdx indexes j predIndex P F bar = some (declared % (P : ℤ)).toNat ↔
      (P = F → bar = false → (predIndex : ℤ) % (P : ℤ) = declared % (P : ℤ)) := by
  unfold perInstanceDepIdx
  by_cases hfast : P = F ∧ bar = false
  · have hne : ¬ P = 0 := by omega
    have hpos : 0 ≤ declared % (P : ℤ) := Int.emod_nonneg _ (by omega)
    have hcast : ((predIndex % P : ℕ) : ℤ) = (predIndex : ℤ) % P := Int.natCast_emod predIndex P
    rw [if_pos hfast, if_neg hne, Option.some.injEq]
    constructor
    · intro h _ _
      omega
    · intro h
      have hmod := h hfast.1 hfast.2
      omega
  · rw [if_neg hfast, hj, Option.bind_some, remEuclid_pos hP]
    exact iff_of_true rfl fun h1 h2 => absurd ⟨h1, h2⟩ hfast

end Compiled

/-- What an instance receives, by the index that its task lets the resolver trust. -/
theorem Compiled.receivesDeclared_iff {c : Compiled} (k : Kernels) (task : NodeInfo) {j : ℕ}
    {p : Predecessor} (hp : c.PerInstanceRes task.id p) {declared : ℤ}
    (hdecl : p.indexes[j]? = some declared) :
    c.ReceivesDeclared k task j p ↔ c.bulkFastPath k task = false ∧ 0 < c.factor p.id ∧
      (c.factor p.id = c.factor task.id → (c.nodeAt task.id).hasBarrier = false →
        ((if 1 < task.bulkCount then j else task.predIndex : ℕ) : ℤ) % (c.factor p.id : ℤ) =
          declared % (c.factor p.id : ℤ)) := by
  have hsome : ∀ cells : Option (List ℕ), (∃ declared', p.indexes[j]? = some declared' ∧
      cells = some [(declared' % (c.factor p.id : ℤ)).toNat]) ↔
        cells = some [(declared % (c.factor p.id : ℤ)).toNat] := by
    intro cells
    constructor
    · rintro ⟨declared', hsome, hcells⟩
      rw [hdecl, Option.some.injEq] at hsome
      rw [hsome, hcells]
    · exact fun hcells => ⟨declared, hdecl, hcells⟩
  rw [ReceivesDeclared, hsome, receivedCells]
  by_cases hfast : c.bulkFastPath k task = true
  · simp only [if_pos hfast, reduceCtorEq, false_iff]
    rintro ⟨hno, -⟩
    rw [hno] at hfast
    cases hfast
  · rw [if_neg hfast, fetchResResults_perInstance hp]
    generalize (if 1 < task.bulkCount then j else task.predIndex) = trusted
    have hmap : ∀ cell : Option ℕ, ∀ i, cell.map ([·]) = some [i] ↔ cell = some i := by
      intro cell i
      cases cell with
      | none => simp
      | some cell => simp
    rw [hmap]
    by_cases hP : 0 < c.factor p.id
    · rw [perInstanceDepIdx_eq_iff trusted (c.factor task.id) _ hP hdecl]
      exact ⟨fun h => ⟨Bool.eq_false_of_not_eq_true hfast, hP, h⟩, fun h => h.2.2⟩
    · -- the predecessor has no instances and the remainder panics
      have hzero : c.factor p.id = 0 := by omega
      have hmany := hp.many
      have hne : ¬ (0 = c.factor task.id ∧ (c.nodeAt task.id).hasBarrier = false) := by omega
      rw [perInstanceDepIdx, hzero, if_neg hne, hdecl, Option.bind_some, remEuclid, if_pos rfl]
      refine iff_of_false (by simp) fun h => absurd h.2.1 (lt_irrefl 0)

/-- Whatever completion handed out a task, and by whichever path, an instance fetches its
declared cell if and only if the way it went out makes the resolver trust the declared index. -/
theorem declared_cell_received {nodes : List Node} {c : Compiled} (h : BuiltFrom nodes c)
    (cfg : Config) (k : Kernels) (r : Resolution) (s : SlotState) (task : NodeInfo)
    (hd : task ∈ c.handedOut cfg r s) (p : Predecessor) (hp : c.PerInstanceRes task.id p) (j : ℕ)
    (hj : j ∈ task.instances) : c.ReceivesDeclared k task j p ↔
      c.FetchesDeclared cfg k r task.id (c.returned cfg r s task.id) j p := by
  have hfollows := h.follows hd
  have hshares := hfollows.shares j hj
  have hlt : j < p.indexes.length := by
    rw [hp.length]
    exact hfollows.instances_lt j hj
  have hdecl : p.indexes[j]? = some p.indexes[j] := List.getElem?_eq_getElem hlt
  have hfast : c.bulkFastPath k task = false ↔ (1 < task.bulkCount →
      k.bulkFunc task.id = true → c.needsResultStore k task.id = true) := by
    unfold Compiled.bulkFastPath
    by_cases hmany : 1 < task.bulkCount <;> cases k.bulkFunc task.id <;>
      cases c.needsResultStore k task.id <;> simp [hmany]
  rw [Compiled.receivesDeclared_iff k task hp hdecl, hfast, hfollows.predIndex]
  constructor
  · rintro ⟨hresolves, hP, htrust⟩
    refine ⟨fun hs => hresolves (hshares.mpr hs), hP, ?_, ?_⟩
    · intro hF hbar hs declared hsome
      have hmod := htrust hF hbar
      rw [if_pos (hshares.mpr hs), hF] at hmod
      rw [hdecl, Option.some.injEq] at hsome
      rw [← hsome]
      exact hmod
    · intro hF hbar hs declared hsome
      have hmod := htrust hF hbar
      rw [if_neg fun hm => hs (hshares.mp hm), hF] at hmod
      rw [hdecl, Option.some.injEq] at hsome
      rw [← hsome]
      exact hmod
  · intro ht
    refine ⟨fun hm => ht.resolves (hshares.mp hm), ht.pred_pos, fun hF hbar => ?_⟩
    rw [hF]
    by_cases hm : 1 < task.bulkCount
    · rw [if_pos hm]
      exact ht.shared hF hbar (hshares.mp hm) _ hdecl
    · rw [if_neg hm]
      exact ht.alone hF hbar (fun hs => hm (hshares.mpr hs)) _ hdecl

/-- A root of factor 4 read instance by instance. -/
def equalPair : List Node :=
  [⟨false, 0, [], 4, none, false⟩,
    ⟨false, 1, [⟨.res, false, some ⟨0, [0, 1, 2, 3], none⟩⟩], 4, none, false⟩]

theorem builtFrom_equalPair : BuiltFrom equalPair (Compiled.ofNodes equalPair) :=
  builtFrom_ofNodes (by decide) (by decide)

/-- The slot after instances 0, 1 and 2 of the root completed, with eight workers. -/
def threeArrived : SlotState :=
  ((Compiled.ofNodes equalPair).singleCompletions ⟨8, true, false, false⟩ ⟨0, 0, 0, 0, 1, 0⟩ [0, 1, 2]
    ⟨LazySlot.initial (Compiled.ofNodes equalPair).layout, 8, 0, 0, false⟩).slot

/-- The last of the four arrivals sends all four instances out, one to a worker. -/
theorem equalPair_handedOut : ⟨1, 0, 0, 0, 1, 3⟩ ∈ (Compiled.ofNodes equalPair).handedOut
    ⟨8, true, false, false⟩ (.worker ⟨0, 0, 0, 3, 1, 0⟩) threeArrived := by
  decide +kernel

theorem equalPair_perInstance :
    (Compiled.ofNodes equalPair).PerInstanceRes 1 ⟨0, [0, 1, 2, 3], none⟩ :=
  ⟨⟨⟨.res, false, some ⟨0, [0, 1, 2, 3], none⟩⟩, by decide, rfl, rfl, rfl⟩, by decide, by decide⟩

theorem declared_cell_received_at_equalPair :
    (Compiled.ofNodes equalPair).ReceivesDeclared ⟨fun _ => false, fun _ _ => false⟩
        ⟨1, 0, 0, 0, 1, 3⟩ 0 ⟨0, [0, 1, 2, 3], none⟩ ↔
      (Compiled.ofNodes equalPair).FetchesDeclared ⟨8, true, false, false⟩
        ⟨fun _ => false, fun _ _ => false⟩ (.worker ⟨0, 0, 0, 3, 1, 0⟩) 1
        ((Compiled.ofNodes equalPair).returned ⟨8, true, false, false⟩
          (.worker ⟨0, 0, 0, 3, 1, 0⟩) threeArrived 1) 0 ⟨0, [0, 1, 2, 3], none⟩ :=
  declared_cell_received builtFrom_equalPair ⟨8, true, false, false⟩
    ⟨fun _ => false, fun _ _ => false⟩ (.worker ⟨0, 0, 0, 3, 1, 0⟩) threeArrived
    ⟨1, 0, 0, 0, 1, 3⟩ equalPair_handedOut ⟨0, [0, 1, 2, 3], none⟩ equalPair_perInstance 0
    (by decide)

/-- Instance 0 fetches cell 3, the one that arrived last. -/
theorem declared_cell_missed :
    ¬ ∀ nodes c, BuiltFrom nodes c → ∀ (cfg : Config) (k : Kernels) (r : Resolution)
      (s : SlotState), ∀ task ∈ c.handedOut cfg r s,
      ∀ p, c.PerInstanceRes task.id p → ∀ j ∈ task.instances, c.ReceivesDeclared k task j p := by
  intro h
  obtain ⟨declared, hdecl, hcells⟩ := h equalPair _ builtFrom_equalPair ⟨8, true, false, false⟩
    ⟨fun _ => false, fun _ _ => false⟩ (.worker ⟨0, 0, 0, 3, 1, 0⟩) threeArrived
    ⟨1, 0, 0, 0, 1, 3⟩ equalPair_handedOut ⟨0, [0, 1, 2, 3], none⟩ equalPair_perInstance 0
    (by decide)
  have hzero : declared = 0 := (Option.some.inj hdecl).symm
  subst hzero
  revert hcells
  decide +kernel

end Tomii
