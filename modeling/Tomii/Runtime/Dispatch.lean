import Tomii.Runtime.NodeCache

/-! # Dispatched tasks and their chunks

`NodeInfo` (`buffers/node_info.rs`), the division of a range of instances into chunks that
`initial_nodes`, `push_ready_chunked` and fanout-bulk share, and the first two of them. -/
namespace Tomii
set_option autoImplicit false
set_option maxHeartbeats 250000

/-- A task: the instances `index .. index + bulkCount` of a node. -/
structure NodeInfo where
  id : ℕ
  gen : UInt32
  slot : ℕ
  index : ℕ
  bulkCount : ℕ
  predIndex : ℕ
deriving DecidableEq

/-- `NodeInfo::new` -/
def NodeInfo.new (id slot index predIndex : ℕ) : NodeInfo := ⟨id, 0, slot, index, 1, predIndex⟩

/-- The instances a task covers. -/
def NodeInfo.instances (ni : NodeInfo) : List ℕ := List.range' ni.index ni.bulkCount

/-- The options of the runtime that resolution reads. -/
structure Config where
  workers : ℕ
  coalesceBarriers : Bool
  noFanoutBulk : Bool
  inlineContinuation : Bool
deriving DecidableEq

/-! ## Chunks -/

/-- `base + if c < extra { 1 } else { 0 }` for each of `numChunks` chunks. -/
def chunkCounts (total numChunks : ℕ) : List ℕ :=
  (List.range numChunks).map fun c => total / numChunks + if c < total % numChunks then 1 else 0

/-- Consecutive `(start, count)` pairs. -/
def layChunks (start : ℕ) : List ℕ → List (ℕ × ℕ)
  | [] => []
  | count :: counts => (start, count) :: layChunks (start + count) counts

/-- The chunks of `start .. start + total`. -/
def chunks (start total numChunks : ℕ) : List (ℕ × ℕ) := layChunks start (chunkCounts total numChunks)

/-- One bulk task for each chunk. -/
def chunkTasks (id slot predIndex : ℕ) (gen : UInt32) (cs : List (ℕ × ℕ)) : List NodeInfo :=
  cs.map fun ch => ⟨id, gen, slot, ch.1, ch.2, predIndex⟩

theorem sum_ite_lt (n m : ℕ) (h : m ≤ n) :
    ((List.range n).map fun c => if c < m then 1 else 0).sum = m := by
  induction n generalizing m with
  | zero => simp; omega
  | succ n ih =>
    rw [List.range_succ, List.map_append, List.sum_append]
    by_cases hm : m ≤ n
    · have hlast : ¬ n < m := by omega
      simp [ih m hm, hlast]
    · have hm' : m = n + 1 := by omega
      subst hm'
      have hall : (List.range n).map (fun c => if c < n + 1 then 1 else 0) =
          (List.range n).map fun c => if c < n then 1 else 0 := by
        apply List.map_congr_left
        intro c hc
        rw [List.mem_range] at hc
        rw [if_pos (by omega), if_pos hc]
      rw [hall, ih n le_rfl]
      simp

theorem chunkCounts_sum (total numChunks : ℕ) (h : 0 < numChunks) :
    (chunkCounts total numChunks).sum = total := by
  have hsplit : (chunkCounts total numChunks).sum =
      ((List.range numChunks).map fun _ => total / numChunks).sum +
        ((List.range numChunks).map fun c => if c < total % numChunks then 1 else 0).sum := by
    unfold chunkCounts
    induction List.range numChunks with
    | nil => rfl
    | cons c cs ih => simp only [List.map_cons, List.sum_cons, ih]; omega
  rw [hsplit, sum_ite_lt _ _ (le_of_lt (Nat.mod_lt _ h))]
  simp only [List.map_const', List.length_range, List.sum_replicate_nat]
  exact Nat.div_add_mod total numChunks

/-- Consecutive chunks cover their range once, in order. -/
theorem layChunks_cover (start : ℕ) (counts : List ℕ) :
    ((layChunks start counts).flatMap fun ch => List.range' ch.1 ch.2) =
      List.range' start counts.sum := by
  induction counts generalizing start with
  | nil => rfl
  | cons count counts ih =>
    simp only [layChunks, List.flatMap_cons, List.sum_cons, ih, List.range'_append_1]

theorem chunks_cover (start total numChunks : ℕ) (h : 0 < numChunks) :
    ((chunks start total numChunks).flatMap fun ch => List.range' ch.1 ch.2) =
      List.range' start total := by
  rw [chunks, layChunks_cover, chunkCounts_sum total numChunks h]

theorem chunkTasks_instances (id slot predIndex : ℕ) (gen : UInt32) (cs : List (ℕ × ℕ)) :
    (chunkTasks id slot predIndex gen cs).flatMap NodeInfo.instances =
      cs.flatMap fun ch => List.range' ch.1 ch.2 := by
  simp [chunkTasks, List.flatMap_map, NodeInfo.instances]

/-- A chunk starts behind those before it. -/
theorem mem_layChunks {start : ℕ} {counts : List ℕ} {ch : ℕ × ℕ} (h : ch ∈ layChunks start counts) :
    ∃ c, ∃ hc : c < counts.length, ch = (start + (counts.take c).sum, counts[c]) := by
  induction counts generalizing start with
  | nil => cases h
  | cons count counts ih =>
    rw [layChunks, List.mem_cons] at h
    cases h with
    | inl h => exact ⟨0, Nat.succ_pos _, by simpa using h⟩
    | inr h =>
      obtain ⟨c, hc, heq⟩ := ih h
      refine ⟨c + 1, Nat.succ_lt_succ hc, ?_⟩
      simp only [heq, List.take_succ_cons, List.sum_cons, List.getElem_cons_succ, Nat.add_assoc]

theorem chunkCounts_take_sum (total numChunks : ℕ) {c : ℕ} (hc : c ≤ numChunks) :
    ((chunkCounts total numChunks).take c).sum =
      c * (total / numChunks) + min c (total % numChunks) := by
  rw [chunkCounts, ← List.map_take, List.take_range, Nat.min_eq_left hc]
  clear hc
  induction c with
  | zero => simp
  | succ c ih =>
    rw [List.range_succ, List.map_append, List.sum_append, ih, List.map_singleton,
      List.sum_singleton, Nat.succ_mul]
    split <;> omega

/-- Instance `j` is in a chunk of two or more when the `total` instances from `start` are cut
in `n` chunks: the longer chunks come first, and all are long from `2 * n` instances on. -/
def SharesChunk (start total n j : ℕ) : Prop :=
  n < total ∧ (2 * n ≤ total ∨ j < start + 2 * (total - n))

instance (start total n j : ℕ) : Decidable (SharesChunk start total n j) :=
  inferInstanceAs (Decidable (_ ∧ _))

theorem one_lt_chunk_iff {start total n : ℕ} (hn : 0 < n) {ch : ℕ × ℕ}
    (hch : ch ∈ chunks start total n) {j : ℕ} (hj : j ∈ List.range' ch.1 ch.2) :
    1 < ch.2 ↔ SharesChunk start total n j := by
  obtain ⟨c, hc, heq⟩ := mem_layChunks hch
  have hcn : c < n := by simpa [chunkCounts] using hc
  have hcount : (chunkCounts total n)[c] = total / n + if c < total % n then 1 else 0 := by
    simp [chunkCounts]
  have htotal : n * (total / n) + total % n = total := Nat.div_add_mod total n
  have hrest : total % n < n := Nat.mod_lt _ hn
  rw [chunkCounts_take_sum total n (le_of_lt hcn), hcount] at heq
  subst heq
  rw [List.mem_range'_1] at hj
  obtain ⟨hlo, hhi⟩ := hj
  unfold SharesChunk
  generalize total / n = q at htotal hlo hhi ⊢
  generalize total % n = extra at htotal hrest hlo hhi ⊢
  have hq : q = 0 ∨ q = 1 ∨ 2 ≤ q ∧ 2 * n ≤ n * q := by
    cases Nat.lt_or_ge q 2 with
    | inl hlt => omega
    | inr hge => exact .inr (.inr ⟨hge, Nat.mul_comm 2 n ▸ Nat.mul_le_mul_left n hge⟩)
  generalize hext : (if c < extra then 1 else 0) = extended at hlo hhi ⊢
  split at hext
  all_goals
    rcases hq with rfl | rfl | hq
    all_goals omega

/-! ## Dispatching ready instances -/

/-- `push_ready_chunked`: many contiguous instances go out as `numWorkers` bulk tasks. -/
def pushReadyChunked (ready : List ℕ) (succId slot predIndex numWorkers : ℕ) (coalesce : Bool) :
    List NodeInfo :=
  match ready with
  | [] => []
  | start :: _ =>
    let contiguous := ready = List.range' start ready.length
    if coalesce = true ∧ contiguous ∧ 0 < numWorkers ∧ numWorkers < ready.length then
      chunkTasks succId slot predIndex 0 (chunks start ready.length numWorkers)
    else ready.map fun idx => NodeInfo.new succId slot idx predIndex

/-- The fanout-bulk dispatch of the whole factor. -/
def fanoutTasks (succId slot factor predIndex workers : ℕ) (gen : UInt32) : List NodeInfo :=
  chunkTasks succId slot predIndex gen (chunks 0 factor (max (min workers factor) 1))

/-- `initial_nodes` for one slot: each root in up to `workers` chunks. -/
def initialNodes (c : Compiled) (slot workers : ℕ) : List NodeInfo :=
  c.graph.initialNodes.flatMap fun id =>
    if c.factor id = 0 then []
    else chunkTasks id slot 0 0 (chunks 0 (c.factor id) (min (max workers 1) (c.factor id)))

/-- The tasks cover exactly the ready instances. -/
theorem pushReadyChunked_instances (ready : List ℕ) (succId slot predIndex numWorkers : ℕ)
    (coalesce : Bool) :
    (pushReadyChunked ready succId slot predIndex numWorkers coalesce).flatMap
      NodeInfo.instances = ready := by
  cases ready with
  | nil => rfl
  | cons start rest =>
    simp only [pushReadyChunked]
    split
    · next h =>
      rw [chunkTasks_instances, chunks_cover _ _ _ h.2.2.1]
      exact h.2.1.symm
    · simp [List.flatMap_map, NodeInfo.new, NodeInfo.instances]

theorem fanoutTasks_instances (succId slot factor predIndex workers : ℕ) (gen : UInt32) :
    (fanoutTasks succId slot factor predIndex workers gen).flatMap NodeInfo.instances =
      List.range factor := by
  rw [fanoutTasks, chunkTasks_instances, chunks_cover _ _ _ (by omega), List.range_eq_range']

theorem initialNodes_instances (c : Compiled) (slot workers id : ℕ)
    (hid : id ∈ c.graph.initialNodes) (hnd : c.graph.initialNodes.Nodup) :
    ((initialNodes c slot workers).filter (·.id = id)).flatMap NodeInfo.instances =
      List.range (c.factor id) := by
  unfold initialNodes
  obtain ⟨pre, post, hsplit⟩ := List.append_of_mem hid
  rw [hsplit] at hnd ⊢
  have hother : ∀ l : List ℕ, id ∉ l → (l.flatMap fun id' =>
      if c.factor id' = 0 then []
      else chunkTasks id' slot 0 0
        (chunks 0 (c.factor id') (min (max workers 1) (c.factor id')))).filter (·.id = id) = [] := by
    intro l hl
    rw [List.filter_eq_nil_iff]
    intro ni hni
    obtain ⟨id', hid', hmem⟩ := List.mem_flatMap.mp hni
    split at hmem
    · cases hmem
    · obtain ⟨ch, -, rfl⟩ := List.mem_map.mp hmem
      simp only [decide_eq_true_eq]
      rintro rfl
      exact hl hid'
  have hpre : id ∉ pre := by
    intro h
    exact (List.disjoint_of_nodup_append hnd) h List.mem_cons_self
  have hpost : id ∉ post := by
    have := (List.nodup_append.mp hnd).2.1
    exact (List.nodup_cons.mp this).1
  rw [List.flatMap_append, List.filter_append, hother pre hpre, List.nil_append,
    List.flatMap_cons, List.filter_append, hother post hpost, List.append_nil]
  split
  · next hz => simp [hz]
  · next hz =>
    have hself : ∀ ni ∈ chunkTasks id slot 0 0
        (chunks 0 (c.factor id) (min (max workers 1) (c.factor id))), decide (ni.id = id) = true := by
      intro ni hni
      obtain ⟨ch, -, rfl⟩ := List.mem_map.mp hni
      simp
    rw [List.filter_eq_self.mpr hself, chunkTasks_instances, chunks_cover _ _ _ (by omega),
      List.range_eq_range']

end Tomii
