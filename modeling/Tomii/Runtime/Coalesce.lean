import Tomii.Runtime.BatchSpec
import Tomii.Runtime.BulkCompletion
import Mathlib.Algebra.Order.BigOperators.Group.List
import Mathlib.Data.List.Sort
import Mathlib.Data.List.SplitBy

/-! # Coalescing a network batch (`runtime/packet_processing.rs`)

`coalesce_network_batch` replaces each run of consecutive packets of one slot by one bulk entry.
Running the batch path on the result should do what running it on the packets does. -/
namespace Tomii
set_option autoImplicit false
set_option maxHeartbeats 250000

namespace Compiled

variable (c : Compiled) {V : Type}

/-- The sort key `(slot, index)`. -/
def cellLe (a b : NodeInfo × Option V) : Prop :=
  a.1.slot < b.1.slot ∨ (a.1.slot = b.1.slot ∧ a.1.index ≤ b.1.index)

instance (a b : NodeInfo × Option V) : Decidable (cellLe a b) := inferInstanceAs (Decidable (_ ∨ _))

/-- `b` is the packet after `a`. -/
def continues (a b : NodeInfo × Option V) : Bool :=
  a.1.id = 0 && b.1.id = 0 && b.1.slot = a.1.slot && b.1.index = a.1.index + 1

/-- A batch of one, or an edge of node 0 with a condition or a 1:1 offset. -/
def coalesceBails (batch : List (NodeInfo × Option V)) : Bool :=
  batch.length < 2 || (c.edgesFor 0).any fun e => e.hasCondition || e.isOneToOne

/-- The entry that replaces a run; a lone packet stays as it is. -/
def coalesceRun : List (NodeInfo × Option V) → List (NodeInfo × Option V)
  | [] => []
  | [entry] => [entry]
  | entry :: next :: rest =>
    [({ NodeInfo.new 0 entry.1.slot entry.1.index 0 with bulkCount := (entry :: next :: rest).length },
      none)]

/-- The packets of a run whose payloads are stored before the batch runs. -/
def storedAhead (run : List (NodeInfo × Option V)) : List (NodeInfo × Option V) :=
  if run.length = 1 then [] else run

/-- The runs of a sorted batch. -/
def packetRuns (batch : List (NodeInfo × Option V)) : List (List (NodeInfo × Option V)) :=
  (batch.insertionSort cellLe).splitBy continues

/-- `coalesce_network_batch` -/
def coalesceNetworkBatch (batch : List (NodeInfo × Option V)) (s : BatchState V) :
    List (NodeInfo × Option V) × BatchState V :=
  if c.coalesceBails batch then (batch, s)
  else ((packetRuns batch).flatMap coalesceRun, storeAll ((packetRuns batch).flatMap storedAhead) s)

/-- The instances that the entries of `batch` complete in slot `σ`. -/
def slotCells (batch : List (NodeInfo × Option V)) (σ : ℕ) : List ℕ :=
  (batch.filter (·.1.slot = σ)).flatMap (·.1.instances)

/-! ## Runs -/

/-- What `admit_packet` puts into a batch. -/
def IsPacket (entry : NodeInfo × Option V) : Prop :=
  entry.1 = NodeInfo.new 0 entry.1.slot entry.1.index 0

/-- A run is the packets of one slot, index after index. -/
theorem chain_cells (entry : NodeInfo × Option V) (rest : List (NodeInfo × Option V))
    (h : (entry :: rest).IsChain fun a b => continues a b = true) :
    (∀ e ∈ entry :: rest, e.1.slot = entry.1.slot) ∧
      (entry :: rest).map (·.1.index) = List.range' entry.1.index (rest.length + 1) := by
  induction rest generalizing entry with
  | nil => simp
  | cons next rest ih =>
    obtain ⟨hstep, hchain⟩ := List.isChain_cons_cons.mp h
    obtain ⟨hslots, hindex⟩ := ih next hchain
    simp only [continues, Bool.and_eq_true, decide_eq_true_eq] at hstep
    obtain ⟨⟨⟨-, -⟩, hslot⟩, hnext⟩ := hstep
    refine ⟨fun e he => ?_, ?_⟩
    · cases List.mem_cons.mp he with
      | inl heq => rw [heq]
      | inr hmem => rw [hslots e hmem, hslot]
    · rw [List.map_cons, hindex, hnext, List.length_cons, ← List.range'_succ]

theorem packet_instances {entry : NodeInfo × Option V} (h : IsPacket entry) :
    entry.1.instances = [entry.1.index] := by
  rw [h]
  rfl

theorem slotCells_packets (batch : List (NodeInfo × Option V)) (hnet : ∀ e ∈ batch, IsPacket e)
    (σ : ℕ) : slotCells batch σ = (batch.filter (·.1.slot = σ)).map (·.1.index) := by
  unfold slotCells
  rw [List.map_eq_flatMap]
  apply List.flatMap_congr
  intro e he
  exact packet_instances (hnet e (List.mem_filter.mp he).1)

/-- A run's entry is for the run's packets. -/
theorem coalesceRun_cells {run : List (NodeInfo × Option V)} (hnet : ∀ e ∈ run, IsPacket e)
    (hchain : run.IsChain fun a b => continues a b = true) (σ : ℕ) :
    slotCells (coalesceRun run) σ = slotCells run σ := by
  match run, hnet, hchain with
  | [], _, _ => rfl
  | [entry], _, _ => rfl
  | entry :: next :: rest, hnet, hchain =>
    obtain ⟨hslots, hindex⟩ := chain_cells entry (next :: rest) hchain
    rw [slotCells_packets _ hnet]
    by_cases hσ : entry.1.slot = σ
    · have hall : (entry :: next :: rest).filter (·.1.slot = σ) = entry :: next :: rest := by
        rw [List.filter_eq_self]
        intro e he
        rw [hslots e he]
        exact decide_eq_true hσ
      rw [hall, hindex]
      simp [slotCells, coalesceRun, NodeInfo.new, NodeInfo.instances, hσ]
    · have hnone : (entry :: next :: rest).filter (·.1.slot = σ) = [] := by
        rw [List.filter_eq_nil_iff]
        intro e he
        rw [hslots e he]
        simpa using hσ
      rw [hnone]
      simp [slotCells, coalesceRun, NodeInfo.new, hσ]

theorem slotCells_append (xs ys : List (NodeInfo × Option V)) (σ : ℕ) :
    slotCells (xs ++ ys) σ = slotCells xs σ ++ slotCells ys σ := by
  simp [slotCells]

theorem slotCells_perm {xs ys : List (NodeInfo × Option V)} (h : xs.Perm ys) (σ : ℕ) :
    (slotCells xs σ).Perm (slotCells ys σ) := (h.filter _).flatMap_right _

theorem runs_cells (runs : List (List (NodeInfo × Option V)))
    (hnet : ∀ run ∈ runs, ∀ e ∈ run, IsPacket e)
    (hchain : ∀ run ∈ runs, run.IsChain fun a b => continues a b = true) (σ : ℕ) :
    slotCells (runs.flatMap coalesceRun) σ = slotCells runs.flatten σ := by
  induction runs with
  | nil => rfl
  | cons run runs ih =>
    rw [List.flatMap_cons, List.flatten_cons, slotCells_append, slotCells_append,
      coalesceRun_cells (hnet run List.mem_cons_self) (hchain run List.mem_cons_self),
      ih (fun r hr => hnet r (List.mem_cons_of_mem _ hr))
        (fun r hr => hchain r (List.mem_cons_of_mem _ hr))]

theorem packetRuns_flatten (batch : List (NodeInfo × Option V)) :
    (packetRuns batch).flatten.Perm batch := by
  rw [packetRuns, List.flatten_splitBy]
  exact List.perm_insertionSort cellLe batch

theorem mem_packetRuns {batch run : List (NodeInfo × Option V)} (h : run ∈ packetRuns batch) :
    (∀ e ∈ run, e ∈ batch) ∧ run.IsChain fun a b => continues a b = true := by
  refine ⟨fun e he => ?_, List.isChain_of_mem_splitBy h⟩
  exact (packetRuns_flatten batch).mem_iff.mp (List.mem_flatten.mpr ⟨run, h, he⟩)

/-- Coalescing keeps the cells of every slot. -/
theorem coalesced_cells {batch : List (NodeInfo × Option V)} (hnet : ∀ e ∈ batch, IsPacket e)
    (σ : ℕ) : (slotCells ((packetRuns batch).flatMap coalesceRun) σ).Perm (slotCells batch σ) := by
  rw [runs_cells _ (fun run hrun e he => hnet e ((mem_packetRuns hrun).1 e he))
    fun run hrun => (mem_packetRuns hrun).2]
  exact slotCells_perm (packetRuns_flatten batch) σ

end Compiled

/-! ## The runs of a slot on one edge -/

namespace SuccEdge

variable (e : SuccEdge) (sh : EntryShape)

/-- Runs `(start, length)` are safe on a filtered edge when none starts before the window and
reaches into it, and on an unfiltered edge when they charge each group what their cells would,
up to what a counter can hold. -/
def RunsSafe (runs : List (ℕ × ℕ)) : Prop :=
  match e.filterBounds with
  | some (lo, hi) => ∀ r ∈ runs, ¬ (r.1 < lo ∧ lo < r.1 + r.2 ∧ lo < hi)
  | none => ∀ g < sh.numGroups,
      min (runs.map fun r => e.chunkShare r.1 r.2 g).sum (2 ^ 32 - 1) =
        min (runs.map fun r => e.cellShare r.1 r.2 g).sum (2 ^ 32 - 1)

/-- The calls of the batch path for `runs`. -/
def chunkCalls (runs : List (ℕ × ℕ)) : List DepCall :=
  runs.flatMap fun r => Compiled.batchCalls r.1 r.2 e

/-- The calls of the same instances completing one at a time, run by run. -/
def runCellCalls (runs : List (ℕ × ℕ)) : List DepCall :=
  runs.flatMap fun r => e.singleCalls r.1 r.2

theorem runCellCalls_eq (runs : List (ℕ × ℕ)) : e.runCellCalls runs =
    (runs.flatMap fun r => List.range' r.1 r.2).flatMap fun k => e.calls k 1 := by
  rw [List.flatMap_assoc]
  rfl

theorem chunkCalls_unaimed (h11 : e.hasOneToOne = false) (runs : List (ℕ × ℕ)) :
    sh.Unaimed (e.chunkCalls runs) := by
  right
  intro c hc
  obtain ⟨r, -, hr⟩ := List.mem_flatMap.mp hc
  unfold Compiled.batchCalls at hr
  split at hr
  · exact e.calls_unaimed h11 r.1 r.2 c hr
  · cases hr

theorem runCellCalls_unaimed (h11 : e.hasOneToOne = false) (runs : List (ℕ × ℕ)) :
    sh.Unaimed (e.runCellCalls runs) := by
  right
  intro c hc
  obtain ⟨r, -, hr⟩ := List.mem_flatMap.mp hc
  obtain ⟨k, -, hk⟩ := List.mem_flatMap.mp hr
  exact e.calls_unaimed h11 k 1 c hk

/-- Every single call takes one off a group it hits. -/
theorem singleCalls_count (i n : ℕ) : ∀ c ∈ e.singleCalls i n, c.count = 1 := by
  intro c hc
  obtain ⟨k, -, hk⟩ := List.mem_flatMap.mp hc
  rw [e.calls_single] at hk
  split at hk
  · rw [List.mem_singleton.mp hk]
    rfl
  · cases hk

theorem takenBy_runCellCalls_pos {runs : List (ℕ × ℕ)} {g : ℕ}
    (h : sh.HitBy (e.runCellCalls runs) g) : 0 < sh.takenBy (e.runCellCalls runs) g := by
  obtain ⟨c, hc, hhit⟩ := h
  have hle := sh.taken_le_takenBy hc g
  obtain ⟨r, -, hr⟩ := List.mem_flatMap.mp hc
  have hone := e.singleCalls_count r.1 r.2 c hr
  rw [EntryShape.taken, if_pos hhit, hone] at hle
  omega

/-- A chunk hits only groups that one of its cells hits. -/
theorem hitBy_cells_of_chunk {runs : List (ℕ × ℕ)} (hpos : ∀ r ∈ runs, 0 < r.2) {g : ℕ}
    (h : sh.HitBy (e.chunkCalls runs) g) : sh.HitBy (e.runCellCalls runs) g := by
  obtain ⟨c, hc, hhit⟩ := h
  obtain ⟨r, hr, hcr⟩ := List.mem_flatMap.mp hc
  have hmem : ∀ d ∈ e.singleCalls r.1 r.2, d ∈ e.runCellCalls runs := fun d hd =>
    List.mem_flatMap.mpr ⟨r, hr, hd⟩
  unfold Compiled.batchCalls at hcr
  split at hcr
  · cases hb : e.filterBounds with
    | some b =>
      rw [e.calls_eq_singleCalls_of_filter hb (hpos r hr)] at hcr
      exact ⟨c, hmem c hcr, hhit⟩
    | none =>
      simp only [calls, hb, List.mem_singleton] at hcr
      have hfirst := (e.hitBy_singleCalls sh hb r.1 r.2 g).mpr
        ⟨hhit.1, e.cellShare_pos (hpos r hr) (by rw [hcr] at hhit; exact hhit.2)⟩
      obtain ⟨d, hd, hdg⟩ := hfirst
      exact ⟨d, hmem d hd, hdg⟩
  · cases hcr

theorem takenBy_chunkCalls (runs : List (ℕ × ℕ)) (g : ℕ) : sh.takenBy (e.chunkCalls runs) g =
    (runs.map fun r => sh.takenBy (Compiled.batchCalls r.1 r.2 e) g).sum :=
  sh.takenBy_flatMap runs _ g

theorem takenBy_runCellCalls (runs : List (ℕ × ℕ)) (g : ℕ) : sh.takenBy (e.runCellCalls runs) g =
    (runs.map fun r => sh.takenBy (e.singleCalls r.1 r.2) g).sum :=
  sh.takenBy_flatMap runs _ g

/-! ### Filtered -/

/-- The window bounds what distinct cells take. -/
theorem takenBy_cells_le {lo hi : ℕ} (hb : e.filterBounds = some (lo, hi)) {cells : List ℕ}
    (hnd : cells.Nodup) (g : ℕ) : sh.takenBy (cells.flatMap fun k => e.calls k 1) g ≤ hi - lo := by
  have hcell : ∀ k, sh.takenBy (e.calls k 1) g ≤ if lo ≤ k ∧ k < hi then 1 else 0 := by
    intro k
    rw [e.calls_single]
    split
    · next hp =>
      rw [if_pos ((e.passesFilter_of_some hb k).mp hp), EntryShape.takenBy_cons,
        EntryShape.takenBy_nil, EntryShape.taken]
      split
      · exact le_of_eq rfl
      · exact Nat.zero_le _
    · exact Nat.zero_le _
  have hcount : sh.takenBy (cells.flatMap fun k => e.calls k 1) g ≤
      (cells.filter fun k => lo ≤ k ∧ k < hi).length := by
    rw [sh.takenBy_flatMap]
    clear hnd
    induction cells with
    | nil => exact le_rfl
    | cons k ks ih =>
      have hk := hcell k
      rw [List.map_cons, List.sum_cons, List.filter_cons]
      by_cases hin : lo ≤ k ∧ k < hi
      · rw [if_pos hin] at hk
        simp only [hin, and_self, decide_true, if_true, List.length_cons]
        omega
      · rw [if_neg hin] at hk
        simp only [hin, decide_false, Bool.false_eq_true, if_false]
        omega
  have hsub : (cells.filter fun k => lo ≤ k ∧ k < hi).length ≤ (List.range' lo (hi - lo)).length := by
    refine ((hnd.filter _).subperm fun k hk => ?_).length_le
    have hin := of_decide_eq_true (List.mem_filter.mp hk).2
    rw [List.mem_range'_1]
    omega
  rw [List.length_range'] at hsub
  omega

/-- A cell at the start of the window takes one off group 0. -/
theorem takenBy_crossing {lo hi i n : ℕ} (hb : e.filterBounds = some (lo, hi))
    (hcross : i < lo ∧ lo < i + n ∧ lo < hi) : 0 < sh.takenBy (e.singleCalls i n) 0 := by
  have hmem := e.first_call_mem hb hcross.1 hcross.2.1 hcross.2.2
  have hle := sh.taken_le_takenBy hmem 0
  rw [sh.taken_cellCall e lo sh.groups_pos, if_pos (e.predGroup_start hb),
    e.calls_eq_singleCalls_of_filter hb (by omega)] at hle
  exact hle

theorem filtered_totals_iff {lo hi : ℕ} (hb : e.filterBounds = some (lo, hi))
    {runs : List (ℕ × ℕ)} (hpos : ∀ r ∈ runs, 0 < r.2)
    (hbound : sh.takenBy (e.runCellCalls runs) 0 ≤ hi - lo) :
    (∀ g < sh.numGroups, min (sh.takenBy (e.chunkCalls runs) g) (2 ^ 32 - 1) =
        min (sh.takenBy (e.runCellCalls runs) g) (2 ^ 32 - 1)) ↔
      ∀ r ∈ runs, ¬ (r.1 < lo ∧ lo < r.1 + r.2 ∧ lo < hi) := by
  constructor
  · intro h r hr hcross
    have htotal := h 0 sh.groups_pos
    have hlt := e.filterBounds_lt hb
    have hless : sh.takenBy (e.chunkCalls runs) 0 < sh.takenBy (e.runCellCalls runs) 0 := by
      rw [e.takenBy_chunkCalls, e.takenBy_runCellCalls]
      refine List.sum_lt_sum _ _ (fun q hq => ?_) ⟨r, hr, ?_⟩
      · rw [e.batchCalls_filtered hb (hpos q hq)]
        split
        · exact Nat.zero_le _
        · exact le_rfl
      · rw [e.batchCalls_filtered hb (hpos r hr), if_pos hcross]
        exact e.takenBy_crossing sh hb hcross
    omega
  · intro hsafe g _
    have hsame : e.chunkCalls runs = e.runCellCalls runs := by
      apply List.flatMap_congr
      intro r hr
      rw [e.batchCalls_filtered hb (hpos r hr), if_neg (hsafe r hr)]
    rw [hsame]

/-! ### Unfiltered -/

theorem unfiltered_totals (hb : e.filterBounds = none) (runs : List (ℕ × ℕ)) {g : ℕ}
    (hg : g < sh.numGroups) :
    sh.takenBy (e.chunkCalls runs) g = (runs.map fun r => e.chunkShare r.1 r.2 g).sum ∧
      sh.takenBy (e.runCellCalls runs) g = (runs.map fun r => e.cellShare r.1 r.2 g).sum := by
  rw [e.takenBy_chunkCalls, e.takenBy_runCellCalls]
  refine ⟨?_, ?_⟩
  · congr 1
    apply List.map_congr_left
    intro r _
    rw [Compiled.batchCalls, if_pos (e.passesFilter_of_none hb r.1)]
    simp only [calls, hb]
    exact e.takenBy_bulkCall sh r.1 r.2 hg _
  · congr 1
    apply List.map_congr_left
    intro r _
    exact e.takenBy_singleCalls sh hb r.1 r.2 hg

theorem totals_iff_runsSafe {runs : List (ℕ × ℕ)} (hpos : ∀ r ∈ runs, 0 < r.2)
    (hnd : (runs.flatMap fun r => List.range' r.1 r.2).Nodup) :
    (∀ g < sh.numGroups, min (sh.takenBy (e.chunkCalls runs) g) (2 ^ 32 - 1) =
        min (sh.takenBy (e.runCellCalls runs) g) (2 ^ 32 - 1)) ↔ e.RunsSafe sh runs := by
  unfold RunsSafe
  cases hb : e.filterBounds with
  | some b =>
    obtain ⟨lo, hi⟩ := b
    refine e.filtered_totals_iff sh hb hpos ?_
    rw [e.runCellCalls_eq]
    exact e.takenBy_cells_le sh hb hnd 0
  | none =>
    constructor
    · intro h g hg
      obtain ⟨h1, h2⟩ := e.unfiltered_totals sh hb runs hg
      rw [← h1, ← h2]
      exact h g hg
    · intro h g hg
      obtain ⟨h1, h2⟩ := e.unfiltered_totals sh hb runs hg
      rw [h1, h2]
      exact h g hg

/-- An unfiltered edge without groups is safe for runs whose lengths fit 32 bits. -/
theorem runsSafe_of_ungrouped {runs : List (ℕ × ℕ)} (hb : e.filterBounds = none)
    (hg : e.groupBy = noGroup) (hlen : ∀ r ∈ runs, r.2 < 2 ^ 32) : e.RunsSafe sh runs := by
  unfold RunsSafe
  simp only [hb]
  intro g _
  have hshare : (runs.map fun r => e.chunkShare r.1 r.2 g) =
      runs.map fun r => e.cellShare r.1 r.2 g := by
    apply List.map_congr_left
    intro r hr
    rw [e.chunkShare_ungrouped hg, e.cellShare_ungrouped hg, Nat.mod_eq_of_lt (hlen r hr)]
  rw [hshare]

/-- Without a 1:1 offset safe runs do what their cells do, in whatever order these come. -/
theorem runs_agree (h11 : e.hasOneToOne = false) {runs : List (ℕ × ℕ)}
    (hpos : ∀ r ∈ runs, 0 < r.2) {cells : List ℕ}
    (hcells : (runs.flatMap fun r => List.range' r.1 r.2).Perm cells) (hnd : cells.Nodup)
    (hsafe : e.RunsSafe sh runs) {x : EntryState} (hx : x.Fits) :
    SameOutcome (runCalls (EntryState.call sh) (e.chunkCalls runs) x)
      (runCalls (EntryState.call sh) (cells.flatMap fun k => e.calls k 1) x) := by
  have hperm : (e.runCellCalls runs).Perm (cells.flatMap fun k => e.calls k 1) := by
    rw [e.runCellCalls_eq]
    exact hcells.flatMap_right _
  have htaken : ∀ g, sh.takenBy (cells.flatMap fun k => e.calls k 1) g =
      sh.takenBy (e.runCellCalls runs) g := fun g => ((hperm.map _).sum_eq).symm
  have hhit : ∀ g, sh.HitBy (cells.flatMap fun k => e.calls k 1) g ↔
      sh.HitBy (e.runCellCalls runs) g := by
    intro g
    simp only [EntryShape.HitBy, hperm.mem_iff]
  have hunaimed : sh.Unaimed (cells.flatMap fun k => e.calls k 1) :=
    (e.runCellCalls_unaimed sh h11 runs).imp_right fun h c hc => h c (hperm.mem_iff.mpr hc)
  refine EntryState.unaimed_same sh (e.chunkCalls_unaimed sh h11 runs) hunaimed
    (fun g hg => (hhit g).mpr (e.hitBy_cells_of_chunk sh hpos hg)) (fun g hg => ?_) ?_ hx
  · rw [htaken]
    exact e.takenBy_runCellCalls_pos sh ((hhit g).mp hg)
  · simp only [htaken]
    exact (e.totals_iff_runsSafe sh hpos (hcells.nodup_iff.mpr hnd)).mpr hsafe

/-- Runs that leave full counters as their cells do are safe. -/
theorem runsSafe_of_level {runs : List (ℕ × ℕ)} (hpos : ∀ r ∈ runs, 0 < r.2) {cells : List ℕ}
    (hcells : (runs.flatMap fun r => List.range' r.1 r.2).Perm cells) (hnd : cells.Nodup)
    (h : (runCalls (EntryState.call sh) (e.chunkCalls runs) (EntryState.level (2 ^ 32 - 1))).2 =
      (runCalls (EntryState.call sh) (cells.flatMap fun k => e.calls k 1)
        (EntryState.level (2 ^ 32 - 1))).2) : e.RunsSafe sh runs := by
  rw [← e.totals_iff_runsSafe sh hpos (hcells.nodup_iff.mpr hnd)]
  intro g _
  have hperm : (e.runCellCalls runs).Perm (cells.flatMap fun k => e.calls k 1) := by
    rw [e.runCellCalls_eq]
    exact hcells.flatMap_right _
  have htaken : sh.takenBy (cells.flatMap fun k => e.calls k 1) g =
      sh.takenBy (e.runCellCalls runs) g := ((hperm.map _).sum_eq).symm
  rw [EntryState.totals_of_level sh h g, htaken]

end SuccEdge

/-! ## The whole batch -/

namespace Compiled

variable (c : Compiled) {V : Type}

/-- The same decrements, results and dispatched instances in every slot. -/
structure SameBatch (a b : Trace × BatchState V) : Prop where
  pendingTasks : ∀ σ, (a.2.slots σ).pendingTasks = (b.2.slots σ).pendingTasks
  pendingCondTasks : ∀ σ, (a.2.slots σ).pendingCondTasks = (b.2.slots σ).pendingCondTasks
  deps : ∀ σ v, c.deps (a.2.slots σ).cells v = c.deps (b.2.slots σ).cells v
  results : a.2.results = b.2.results
  dispatched : ∀ σ v j, a.1.Dispatches σ v j ↔ b.1.Dispatches σ v j

/-- The batch path on the coalesced batch. -/
def processCoalesced (cfg : Config) (eval : NodeInfo → Bool) (batch : List (NodeInfo × Option V))
    (s : BatchState V) : Trace × BatchState V :=
  let (batch, s) := c.coalesceNetworkBatch batch s
  c.processBatchInner cfg eval batch s

/-- The runs of a slot, lone packets included, as `(start, length)`. -/
def slotRuns (batch : List (NodeInfo × Option V)) (σ : ℕ) : List (ℕ × ℕ) :=
  (((packetRuns batch).flatMap coalesceRun).filter (·.1.slot = σ)).map fun entry =>
    (entry.1.index, entry.1.bulkCount)

variable {c}

theorem slotRuns_cells (batch : List (NodeInfo × Option V)) (σ : ℕ) :
    ((slotRuns batch σ).flatMap fun r => List.range' r.1 r.2) =
      slotCells ((packetRuns batch).flatMap coalesceRun) σ := by
  rw [slotRuns, List.flatMap_map]
  rfl

theorem mem_coalesced {batch : List (NodeInfo × Option V)} (hnet : ∀ e ∈ batch, IsPacket e)
    {entry : NodeInfo × Option V} (h : entry ∈ (packetRuns batch).flatMap coalesceRun) :
    entry.1.id = 0 ∧ 0 < entry.1.bulkCount := by
  obtain ⟨run, hrun, he⟩ := List.mem_flatMap.mp h
  have hmem := (mem_packetRuns hrun).1
  match run, he with
  | [], he => cases he
  | [e], he =>
    have hpacket := hnet entry (hmem entry he)
    rw [hpacket]
    exact ⟨rfl, Nat.one_pos⟩
  | e :: next :: rest, he =>
    rw [List.mem_singleton.mp he]
    exact ⟨rfl, Nat.succ_pos _⟩

theorem slotTotal_eq (batch : List (NodeInfo × Option V)) (σ : ℕ) :
    slotTotal batch σ = (slotCells batch σ).length := by
  rw [slotTotal, slotCells, List.length_flatMap]
  congr 1
  apply List.map_congr_left
  intro e _
  rw [NodeInfo.instances, List.length_range']

theorem slotCells_nodup {batch : List (NodeInfo × Option V)} (hnet : ∀ e ∈ batch, IsPacket e)
    (hdist : DistinctCells batch) (σ : ℕ) : (slotCells batch σ).Nodup := by
  rw [slotCells_packets batch hnet]
  have hkeys : ((batch.filter (·.1.slot = σ)).map
      fun e => (e.1.id, e.1.slot, e.1.index)).Nodup := (List.filter_sublist.map _).nodup hdist
  refine List.Nodup.of_map (fun i => (0, σ, i)) ?_
  rw [List.map_map]
  have hsame : (batch.filter (·.1.slot = σ)).map ((fun i => (0, σ, i)) ∘ fun e => e.1.index) =
      (batch.filter (·.1.slot = σ)).map fun e => (e.1.id, e.1.slot, e.1.index) := by
    apply List.map_congr_left
    intro e he
    obtain ⟨hmem, hslot⟩ := List.mem_filter.mp he
    have hid : e.1.id = 0 := by
      rw [hnet e hmem]
      rfl
    simp only [Function.comp_apply, hid, of_decide_eq_true hslot]
  rw [hsame]
  exact hkeys

/-! ### Stored results -/

/-- The lone packets, whose payloads the batch stores itself. -/
def storedInBatch (run : List (NodeInfo × Option V)) : List (NodeInfo × Option V) :=
  if run.length = 1 then run else []

theorem storeAll_append (xs ys : List (NodeInfo × Option V)) (s : BatchState V) :
    storeAll (xs ++ ys) s = storeAll ys (storeAll xs s) := by
  induction xs generalizing s with
  | nil => rfl
  | cons x xs ih => exact ih _

/-- A bulk entry has no payload, so only lone packets store in the batch. -/
theorem storeAll_coalesced (runs : List (List (NodeInfo × Option V))) (s : BatchState V) :
    storeAll (runs.flatMap coalesceRun) s = storeAll (runs.flatMap storedInBatch) s := by
  induction runs generalizing s with
  | nil => rfl
  | cons run runs ih =>
    have hrun : storeAll (coalesceRun run) s = storeAll (storedInBatch run) s := by
      match run with
      | [] => rfl
      | [_] => rfl
      | _ :: _ :: _ => rfl
    rw [List.flatMap_cons, List.flatMap_cons, storeAll_append, storeAll_append, hrun, ih]

theorem stored_perm (runs : List (List (NodeInfo × Option V))) :
    (runs.flatMap storedAhead ++ runs.flatMap storedInBatch).Perm runs.flatten := by
  induction runs with
  | nil => exact List.Perm.refl _
  | cons run runs ih =>
    have hrun : storedAhead run ++ storedInBatch run = run := by
      unfold storedAhead storedInBatch
      split <;> simp
    rw [List.flatMap_cons, List.flatMap_cons, List.flatten_cons]
    have hswap : (storedAhead run ++ runs.flatMap storedAhead ++
        (storedInBatch run ++ runs.flatMap storedInBatch)).Perm
        (storedAhead run ++ storedInBatch run ++
          (runs.flatMap storedAhead ++ runs.flatMap storedInBatch)) := by
      rw [List.append_assoc, List.append_assoc]
      exact List.Perm.append_left _ (List.perm_append_comm_assoc _ _ _)
    rw [hrun] at hswap
    exact hswap.trans (ih.append_left run)

theorem coalesced_results {batch : List (NodeInfo × Option V)} (hdist : DistinctCells batch)
    (s : BatchState V) :
    (storeAll ((packetRuns batch).flatMap coalesceRun)
        (storeAll ((packetRuns batch).flatMap storedAhead) s)).results =
      (storeAll batch s).results := by
  have hperm := (stored_perm (packetRuns batch)).trans (packetRuns_flatten batch)
  have hdist' : DistinctCells ((packetRuns batch).flatMap storedAhead ++
      (packetRuns batch).flatMap storedInBatch) := (hperm.map _).nodup_iff.mpr hdist
  rw [storeAll_coalesced, ← storeAll_append]
  exact (storeAll_stored _ hdist' s).unique (storeAll_stored batch hdist s) fun e => hperm.mem_iff

/-! ### Calls and dispatches -/

theorem slotCalls_coalesced {nodes : List Node} (h : BuiltFrom nodes c)
    (batch : List (NodeInfo × Option V)) (σ v : ℕ) :
    slotCalls c 0 ((packetRuns batch).flatMap coalesceRun) σ v =
      if v ∈ c.graph.successors 0 then (c.edge 0 v).chunkCalls (slotRuns batch σ) else [] := by
  unfold slotCalls
  simp only [h.callsOver_eq]
  split
  · rw [SuccEdge.chunkCalls, slotRuns, List.flatMap_map]
  · exact List.flatMap_eq_nil_iff.mpr fun _ _ => rfl

theorem slotCalls_packets {nodes : List Node} (h : BuiltFrom nodes c)
    {batch : List (NodeInfo × Option V)} (hnet : ∀ e ∈ batch, IsPacket e) (σ v : ℕ) :
    slotCalls c 0 batch σ v =
      if v ∈ c.graph.successors 0 then
        (slotCells batch σ).flatMap fun k => (c.edge 0 v).calls k 1 else [] := by
  unfold slotCalls
  simp only [h.callsOver_eq]
  split
  · rw [slotCells_packets batch hnet, List.flatMap_map]
    apply List.flatMap_congr
    intro e he
    have hone : e.1.bulkCount = 1 := by
      rw [hnet e (List.mem_filter.mp he).1]
      rfl
    rw [hone, (c.edge 0 v).batchCalls_single]
  · exact List.flatMap_eq_nil_iff.mpr fun _ _ => rfl

theorem sends_perm {cfg : Config} {v before : ℕ} {r1 r2 : List ℕ} (h : r1.Perm r2) (j : ℕ) :
    c.Sends cfg v before r1 j ↔ c.Sends cfg v before r2 j := by
  unfold Sends
  rw [h.length_eq, h.mem_iff]

end Compiled

/-- A batch that is not left alone is transparent to coalesce, whatever the slots hold, if and
only if its runs are safe on every edge of node 0. -/
theorem coalescing_transparent {nodes : List Node} {c : Compiled} (h : BuiltFrom nodes c)
    (cfg : Config) (eval : NodeInfo → Bool) {V : Type} (batch : List (NodeInfo × Option V))
    (hnet : ∀ e ∈ batch, Compiled.IsPacket e) (hdist : Compiled.DistinctCells batch)
    (hgo : c.coalesceBails batch = false) :
    (∀ s : BatchState V,
        c.SameBatch (c.processCoalesced cfg eval batch s) (c.processBatchInner cfg eval batch s)) ↔
      ∀ v ∈ c.graph.successors 0, ∀ σ,
        (c.edge 0 v).RunsSafe (c.entry v) (Compiled.slotRuns batch σ) := by
  have hedges : ∀ v ∈ c.graph.successors 0,
      c.isCondition v = false ∧ (c.edge 0 v).hasOneToOne = false := by
    intro v hv
    simp only [Compiled.coalesceBails, Bool.or_eq_false_iff, List.any_eq_false] at hgo
    have hedge := hgo.2 (c.edge 0 v) (c.mem_edgesFor.mpr ⟨v, hv, rfl⟩)
    rw [Bool.or_eq_true, not_or] at hedge
    exact ⟨Bool.eq_false_of_not_eq_true hedge.1, Bool.eq_false_of_not_eq_true hedge.2⟩
  have hvs : ∀ v ∈ c.graph.successors 0, v < c.graph.nodes.length ∧ c.isCondition v = false := by
    intro v hv
    rw [h.nodes_eq]
    exact ⟨(h.mem_successors.mp hv).1, (hedges v hv).1⟩
  have hpos : ∀ σ, ∀ r ∈ Compiled.slotRuns batch σ, 0 < r.2 := by
    intro σ r hr
    obtain ⟨e, he, heq⟩ := List.mem_map.mp hr
    rw [← heq]
    exact (Compiled.mem_coalesced hnet (List.mem_filter.mp he).1).2
  have hcells : ∀ σ, ((Compiled.slotRuns batch σ).flatMap fun r => List.range' r.1 r.2).Perm
      (Compiled.slotCells batch σ) := by
    intro σ
    rw [Compiled.slotRuns_cells]
    exact Compiled.coalesced_cells hnet σ
  have hnd := Compiled.slotCells_nodup hnet hdist
  have hrun : ∀ s : BatchState V, c.processCoalesced cfg eval batch s =
      c.processBatchInner cfg eval ((Compiled.packetRuns batch).flatMap Compiled.coalesceRun)
        (Compiled.storeAll ((Compiled.packetRuns batch).flatMap Compiled.storedAhead) s) := by
    intro s
    simp only [Compiled.processCoalesced, Compiled.coalesceNetworkBatch, hgo, Bool.false_eq_true,
      if_false]
  have hid : ∀ e ∈ batch, e.1.id = 0 := by
    intro e he
    rw [hnet e he]
    rfl
  -- both sides in terms of the calls they make in each slot
  have hcoalesced := fun (s : BatchState V) σ => Compiled.processBatch_effect cfg eval hvs
    ((Compiled.packetRuns batch).flatMap Compiled.coalesceRun)
    (fun e he => (Compiled.mem_coalesced hnet he).1)
    (Compiled.storeAll ((Compiled.packetRuns batch).flatMap Compiled.storedAhead) s) σ
  have hpackets := fun (s : BatchState V) σ => Compiled.processBatch_effect cfg eval hvs
    batch hid s σ
  simp only [Compiled.storeAll_slots, Compiled.slotTotal_eq] at hcoalesced hpackets
  constructor
  · intro hall v hv σ
    -- a slot whose counters are all full shows what was taken
    have hfits := EntryState.level_fits (v := 2 ^ 32 - 1) (by omega)
    have hsame := (hall ⟨fun _ => ⟨LazySlot.ofEntries 0 (EntryState.level (2 ^ 32 - 1)), 0, 0, 0,
      false⟩, fun _ _ _ => none⟩).deps σ v
    rw [hrun, (hcoalesced _ σ).1.deps, (hpackets _ σ).1.deps, Compiled.slotCalls_coalesced h,
      Compiled.slotCalls_packets h hnet, if_pos hv, if_pos hv, Compiled.runOn, Compiled.runOn,
      c.deps_ofEntries 0 hfits] at hsame
    exact (c.edge 0 v).runsSafe_of_level (c.entry v) (hpos σ) (hcells σ) (hnd σ) hsame
  · intro hsafe s
    have hout : ∀ σ v, SameOutcome
        (c.runOn v (Compiled.slotCalls c 0
          ((Compiled.packetRuns batch).flatMap Compiled.coalesceRun) σ v) (s.slots σ).cells)
        (c.runOn v (Compiled.slotCalls c 0 batch σ v) (s.slots σ).cells) := by
      intro σ v
      rw [Compiled.slotCalls_coalesced h, Compiled.slotCalls_packets h hnet]
      by_cases hv : v ∈ c.graph.successors 0
      · rw [if_pos hv, if_pos hv]
        exact (c.edge 0 v).runs_agree (c.entry v) (hedges v hv).2 (hpos σ) (hcells σ) (hnd σ)
          (hsafe v hv σ) (c.deps_fits _ v)
      · rw [if_neg hv, if_neg hv]
        exact SameOutcome.refl _
    have hlength : ∀ σ, (Compiled.slotCells
        ((Compiled.packetRuns batch).flatMap Compiled.coalesceRun) σ).length =
          (Compiled.slotCells batch σ).length := fun σ => (Compiled.coalesced_cells hnet σ).length_eq
    rw [hrun]
    refine ⟨fun σ => ?_, fun σ => ?_, fun σ v => ?_, ?_, fun σ v j => ?_⟩
    · rw [(hcoalesced s σ).2.pendingTasks, (hpackets s σ).2.pendingTasks, hlength]
    · rw [(hcoalesced s σ).2.pendingCondTasks, (hpackets s σ).2.pendingCondTasks, hlength]
    · rw [(hcoalesced s σ).1.deps, (hpackets s σ).1.deps, (hout σ v).1]
    · rw [Compiled.processBatch_results eval _ _ _ rfl, Compiled.processBatch_results eval batch s s rfl]
      exact Compiled.coalesced_results hdist s
    · rw [(hcoalesced s σ).1.sent_iff, (hpackets s σ).1.sent_iff]
      exact Compiled.sends_perm (hout σ v).2 j

/-- The four packets of `windowedBarrier`, in one slot. -/
def fourPackets : List (NodeInfo × Option ℕ) :=
  (List.range 4).map fun i => (NodeInfo.new 0 0 i 0, some i)

theorem fourPackets_isPacket : ∀ e ∈ fourPackets, Compiled.IsPacket e := by
  intro e he
  obtain ⟨i, -, heq⟩ := List.mem_map.mp he
  rw [← heq]
  rfl

theorem coalescing_transparent_at_fourPackets :
    (∀ s : BatchState ℕ,
        (Compiled.ofNodes windowedBarrier).SameBatch
          ((Compiled.ofNodes windowedBarrier).processCoalesced ⟨2, true, false, false⟩
            (fun _ => true) fourPackets s)
          ((Compiled.ofNodes windowedBarrier).processBatchInner ⟨2, true, false, false⟩
            (fun _ => true) fourPackets s)) ↔
      ∀ v ∈ (Compiled.ofNodes windowedBarrier).graph.successors 0, ∀ σ,
        ((Compiled.ofNodes windowedBarrier).edge 0 v).RunsSafe
          ((Compiled.ofNodes windowedBarrier).entry v) (Compiled.slotRuns fourPackets σ) :=
  coalescing_transparent builtFrom_windowedBarrier ⟨2, true, false, false⟩ (fun _ => true)
    fourPackets fourPackets_isPacket (by unfold Compiled.DistinctCells; decide) (by decide)

/-- Coalesced, the four packets leave the barrier waiting for both that it awaits. -/
theorem coalescing_differs :
    ¬ ∀ nodes c, BuiltFrom nodes c → ∀ (cfg : Config) (eval : NodeInfo → Bool)
      (batch : List (NodeInfo × Option ℕ)), (∀ e ∈ batch, Compiled.IsPacket e) →
      Compiled.DistinctCells batch → c.coalesceBails batch = false →
      ∀ s : BatchState ℕ,
        c.SameBatch (c.processCoalesced cfg eval batch s) (c.processBatchInner cfg eval batch s) := by
  intro h
  have hsame := (h windowedBarrier _ builtFrom_windowedBarrier ⟨2, true, false, false⟩
    (fun _ => true) fourPackets fourPackets_isPacket (by unfold Compiled.DistinctCells; decide)
    (by decide) ⟨fun _ => ⟨LazySlot.initial (Compiled.ofNodes windowedBarrier).layout, 5, 0, 0, false⟩,
      fun _ _ _ => none⟩).deps 0 1
  have hwaiting := congrFun (congrArg EntryState.remaining hsame) 0
  revert hwaiting
  decide +kernel

end Tomii
