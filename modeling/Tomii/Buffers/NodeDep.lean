import Tomii.Buffers.GenPacked
import Mathlib.Data.List.Range
import Mathlib.Logic.Function.Basic

/-! # Dependency entries (`buffers/node_dep.rs`)

A node's entry in a slot: one packed counter for each dependency group, one packed sent
flag for each instance. The dispatch of `decrease_and_get_ready_into` is written once
over the two atomic operations it makes on those words; the packed words and their plain
reading (`EntryState`) are two instances of it, related by `viewOps`. -/
namespace Tomii
set_option autoImplicit false
set_option maxHeartbeats 250000

/-! ## Shape of an entry -/

/-- The cached metadata of a `NodeDependencyEntry`. Group ranges are inside the factor. -/
structure EntryShape where
  factor : ℕ
  groupSize : ℕ
  numGroups : ℕ
  depsPerGroup : UInt32
  depsPerInstance : ℕ
  hasBarrier : Bool
  isCondition : Bool
  groups_pos : 0 < numGroups
  groups_fit : numGroups * groupSize ≤ factor
deriving DecidableEq

/-- `(group_size, num_groups)`: `Some(gs)` with `0 < gs < factor` splits the node. -/
def groupLayout (factor : ℕ) : Option ℕ → ℕ × ℕ
  | some gs => if 0 < gs ∧ gs < factor then (gs, factor / gs) else (factor, 1)
  | none => (factor, 1)

theorem groupLayout_pos (factor : ℕ) (gs : Option ℕ) : 0 < (groupLayout factor gs).2 := by
  unfold groupLayout
  split
  · next gs =>
    split
    · next h => exact Nat.div_pos (by omega) h.1
    · exact Nat.one_pos
  · exact Nat.one_pos

theorem groupLayout_fit (factor : ℕ) (gs : Option ℕ) :
    (groupLayout factor gs).2 * (groupLayout factor gs).1 ≤ factor := by
  unfold groupLayout
  split
  · next gs =>
    split
    · exact Nat.div_mul_le_self factor gs
    · simp
  · simp

theorem groupLayout_size_pos {factor : ℕ} (hf : 0 < factor) (gs : Option ℕ) :
    0 < (groupLayout factor gs).1 := by
  unfold groupLayout
  split
  · next gs =>
    split
    · next h => exact h.1
    · exact hf
  · exact hf

namespace EntryShape

/-- `NodeDependencyEntry::new`, without the atomics. -/
def new (factor totalDeps : ℕ) (hasBarrier : Bool) (groupSizeOpt : Option ℕ)
    (isCondition : Bool) : EntryShape where
  factor := factor
  groupSize := (groupLayout factor groupSizeOpt).1
  numGroups := (groupLayout factor groupSizeOpt).2
  depsPerGroup := asU32 (totalDeps / (groupLayout factor groupSizeOpt).2)
  depsPerInstance := totalDeps / (groupLayout factor groupSizeOpt).2 /
    (groupLayout factor groupSizeOpt).1
  hasBarrier := hasBarrier
  isCondition := isCondition
  groups_pos := groupLayout_pos factor groupSizeOpt
  groups_fit := groupLayout_fit factor groupSizeOpt

variable (sh : EntryShape)

/-- Instances of group `g`: `start..end` of the dispatch loop. -/
def groupRange (g : ℕ) : List ℕ :=
  List.range' (g * sh.groupSize) (min (g * sh.groupSize + sh.groupSize) sh.factor - g * sh.groupSize)

/-- `threshold_for_instance_in_group`. -/
def thresholdForInstanceInGroup (idxInGroup : ℕ) : ℕ :=
  if sh.groupSize ≤ idxInGroup then 2 ^ 64 - 1
  else (sh.groupSize - idxInGroup - 1) * sh.depsPerInstance

/-- The group an instance belongs to, as `increment_dependency` finds it. -/
def groupOf (idx : ℕ) : ℕ := min (idx / sh.groupSize) (sh.numGroups - 1)

theorem mem_groupRange {g i : ℕ} (hg : g < sh.numGroups) :
    i ∈ sh.groupRange g ↔ g * sh.groupSize ≤ i ∧ i < (g + 1) * sh.groupSize := by
  have hfit : (g + 1) * sh.groupSize ≤ sh.factor :=
    le_trans (Nat.mul_le_mul_right _ hg) sh.groups_fit
  have hsucc : (g + 1) * sh.groupSize = g * sh.groupSize + sh.groupSize := by ring
  rw [groupRange, List.mem_range'_1]
  omega

theorem groupRange_lt_factor {g i : ℕ} (hi : i ∈ sh.groupRange g) : i < sh.factor := by
  rw [groupRange, List.mem_range'_1] at hi
  omega

theorem groupRange_nodup (g : ℕ) : (sh.groupRange g).Nodup := List.nodup_range' ..

end EntryShape

/-- The arguments of one call of `decrease_and_get_ready_into`. -/
structure DepCall where
  group : Option ℕ
  count : ℕ
  specific : Option ℕ
deriving DecidableEq, Repr

/-! ## Dispatch over two atomic operations -/

/-- The atomic operations of dispatch: the counter update of a group, returning the old and
the new count, and the compare-exchange loop of a sent flag, which returns whether this
call set it (a retry of the loop only rereads, so the loop is one step). -/
structure CellOps (S : Type) where
  fetchDec : ℕ → ℕ → S → (ℕ × ℕ) × S
  trySend : ℕ → S → Bool × S

namespace CellOps

variable {S : Type} (ops : CellOps S)

/-- Send each instance in turn and keep those this call sent. -/
def sendEach : List ℕ → S → List ℕ × S
  | [], s => ([], s)
  | i :: is, s =>
    let (fired, s') := ops.trySend i s
    let (rest, s'') := sendEach is s'
    (if fired then i :: rest else rest, s'')

/-- The body of the loop `for g in g_start..g_end`. -/
def decreaseGroup (sh : EntryShape) (g count : ℕ) (specificSuccIdx : Option ℕ) (s : S) :
    List ℕ × S :=
  let ((oldRemaining, newRemaining), s) := ops.fetchDec g count s
  if sh.hasBarrier then
    if 0 < oldRemaining ∧ newRemaining = 0 then
      -- the unique caller of the 0-transition publishes the whole range; condition
      -- nodes keep the per-instance flags because a failed instance may be reopened
      if sh.isCondition then ops.sendEach (sh.groupRange g) s else (sh.groupRange g, s)
    else ([], s)
  else
    match specificSuccIdx with
    | some specificIdx => if specificIdx < sh.factor then ops.sendEach [specificIdx] s else ([], s)
    | none =>
      if newRemaining ≤ sh.groupSize * sh.depsPerInstance then
        ops.sendEach ((sh.groupRange g).filter fun idx =>
          newRemaining ≤ sh.thresholdForInstanceInGroup (idx - g * sh.groupSize)) s
      else ([], s)

def decreaseGroups (sh : EntryShape) (count : ℕ) (specificSuccIdx : Option ℕ) :
    List ℕ → S → List ℕ × S
  | [], s => ([], s)
  | g :: gs, s =>
    let (ready, s') := ops.decreaseGroup sh g count specificSuccIdx s
    let (rest, s'') := decreaseGroups sh count specificSuccIdx gs s'
    (ready ++ rest, s'')

/-- `decrease_and_get_ready_into`: `none` decrements every group, an invalid group none. -/
def decreaseAndGetReadyInto (sh : EntryShape) (group : Option ℕ) (count : ℕ)
    (specificSuccIdx : Option ℕ) (s : S) : List ℕ × S :=
  match group with
  | some g =>
    if g < sh.numGroups then ops.decreaseGroups sh count specificSuccIdx [g] s else ([], s)
  | none => ops.decreaseGroups sh count specificSuccIdx (List.range sh.numGroups) s

/-- `ops` computes `spec` through the reading `view` of its state. -/
structure Simulates {T : Type} (spec : CellOps T) (view : S → T) : Prop where
  fetchDec : ∀ g count s, (ops.fetchDec g count s).1 = (spec.fetchDec g count (view s)).1 ∧
    view (ops.fetchDec g count s).2 = (spec.fetchDec g count (view s)).2
  trySend : ∀ i s, (ops.trySend i s).1 = (spec.trySend i (view s)).1 ∧
    view (ops.trySend i s).2 = (spec.trySend i (view s)).2

namespace Simulates

variable {ops} {T : Type} {spec : CellOps T} {view : S → T} (sim : ops.Simulates spec view)

include sim

theorem sendEach (is : List ℕ) (s : S) :
    (ops.sendEach is s).1 = (spec.sendEach is (view s)).1 ∧
      view (ops.sendEach is s).2 = (spec.sendEach is (view s)).2 := by
  induction is generalizing s with
  | nil => exact ⟨rfl, rfl⟩
  | cons i is ih =>
    obtain ⟨hfired, hnext⟩ := sim.trySend i s
    obtain ⟨hrest, hend⟩ := ih (ops.trySend i s).2
    simp only [CellOps.sendEach, hfired, hrest, hend, hnext, and_self]

theorem decreaseGroup (sh : EntryShape) (g count : ℕ) (specific : Option ℕ) (s : S) :
    (ops.decreaseGroup sh g count specific s).1 =
        (spec.decreaseGroup sh g count specific (view s)).1 ∧
      view (ops.decreaseGroup sh g count specific s).2 =
        (spec.decreaseGroup sh g count specific (view s)).2 := by
  obtain ⟨hcounts, hnext⟩ := sim.fetchDec g count s
  have hsend := fun is => sim.sendEach is (ops.fetchDec g count s).2
  rw [hnext] at hsend
  cases specific <;> simp only [CellOps.decreaseGroup, hcounts] <;> split_ifs <;>
    simp only [hsend, hnext, and_self]

theorem decreaseGroups (sh : EntryShape) (count : ℕ) (specific : Option ℕ) (gs : List ℕ) (s : S) :
    (ops.decreaseGroups sh count specific gs s).1 =
        (spec.decreaseGroups sh count specific gs (view s)).1 ∧
      view (ops.decreaseGroups sh count specific gs s).2 =
        (spec.decreaseGroups sh count specific gs (view s)).2 := by
  induction gs generalizing s with
  | nil => exact ⟨rfl, rfl⟩
  | cons g gs ih =>
    obtain ⟨hready, hnext⟩ := sim.decreaseGroup sh g count specific s
    obtain ⟨hrest, hend⟩ := ih (ops.decreaseGroup sh g count specific s).2
    simp only [CellOps.decreaseGroups, hready, hrest, hend, hnext, and_self]

theorem decreaseAndGetReadyInto (sh : EntryShape) (group : Option ℕ) (count : ℕ)
    (specific : Option ℕ) (s : S) :
    (ops.decreaseAndGetReadyInto sh group count specific s).1 =
        (spec.decreaseAndGetReadyInto sh group count specific (view s)).1 ∧
      view (ops.decreaseAndGetReadyInto sh group count specific s).2 =
        (spec.decreaseAndGetReadyInto sh group count specific (view s)).2 := by
  cases group with
  | none => exact sim.decreaseGroups sh count specific _ s
  | some g =>
    simp only [CellOps.decreaseAndGetReadyInto]
    split
    · exact sim.decreaseGroups sh count specific [g] s
    · exact ⟨rfl, rfl⟩

end Simulates

end CellOps

/-! ## Packed words -/

/-- `remaining_deps` and `instances_sent`; only indices below their lengths are read. -/
structure EntryCells where
  remainingDeps : ℕ → UInt64
  instancesSent : ℕ → UInt64

namespace EntryCells

def setRemaining (cells : EntryCells) (g : ℕ) (packed : UInt64) : EntryCells :=
  { cells with remainingDeps := Function.update cells.remainingDeps g packed }

def setSent (cells : EntryCells) (idx : ℕ) (packed : UInt64) : EntryCells :=
  { cells with instancesSent := Function.update cells.instancesSent idx packed }

variable (sh : EntryShape) (slotGen : UInt32)

/-- All words as `reset_epoch` leaves them; `NodeDependencyEntry::new` starts at epoch 0. -/
def resetEpoch (newGen : UInt32) : EntryCells where
  remainingDeps := fun _ => genPack newGen sh.depsPerGroup
  instancesSent := fun _ => genPack newGen 0

def packedOps : CellOps EntryCells where
  fetchDec := fun g count cells =>
    let old := genRead slotGen sh.depsPerGroup (cells.remainingDeps g)
    let new := saturatingSub old (asU32 count)
    ((old.toNat, new.toNat), cells.setRemaining g (genPack slotGen new))
  trySend := fun idx cells =>
    let cur := cells.instancesSent idx
    if genUnpackGen cur = slotGen ∧ genUnpackVal cur ≠ 0 then (false, cells)
    else (true, cells.setSent idx (genPack slotGen 1))

def decreaseAndGetReadyInto (group : Option ℕ) (count : ℕ) (specificSuccIdx : Option ℕ)
    (cells : EntryCells) : List ℕ × EntryCells :=
  (packedOps sh slotGen).decreaseAndGetReadyInto sh group count specificSuccIdx cells

/-- `increment_dependency`; the returned `old_val + 1` wraps like the `u32` it is. -/
def incrementDependency (instanceIdx : Option ℕ) (cells : EntryCells) : ℕ × EntryCells :=
  let g := instanceIdx.elim 0 sh.groupOf
  let old := genRead slotGen sh.depsPerGroup (cells.remainingDeps g)
  ((old + 1).toNat, cells.setRemaining g (genPack slotGen (saturatingAdd old 1)))

def resetSentFlag (instanceIdx : ℕ) (cells : EntryCells) : EntryCells :=
  if instanceIdx < sh.factor then cells.setSent instanceIdx (genPack slotGen 0) else cells

end EntryCells

/-! ## Plain counters -/

/-- What the words of an entry mean in the current generation. -/
@[ext] structure EntryState where
  remaining : ℕ → ℕ
  sent : ℕ → Bool

namespace EntryState

def setRemaining (s : EntryState) (g v : ℕ) : EntryState :=
  { s with remaining := Function.update s.remaining g v }

def setSent (s : EntryState) (idx : ℕ) (b : Bool) : EntryState :=
  { s with sent := Function.update s.sent idx b }

variable (sh : EntryShape)

/-- A freshly reset entry. -/
def initial : EntryState where
  remaining := fun _ => sh.depsPerGroup.toNat
  sent := fun _ => false

def plainOps : CellOps EntryState where
  fetchDec := fun g count s =>
    let new := s.remaining g - count % 2 ^ 32
    ((s.remaining g, new), s.setRemaining g new)
  trySend := fun idx s =>
    if s.sent idx then (false, s) else (true, s.setSent idx true)

def decrease (group : Option ℕ) (count : ℕ) (specific : Option ℕ) (s : EntryState) :
    List ℕ × EntryState :=
  plainOps.decreaseAndGetReadyInto sh group count specific s

/-- One call on the plain counters. -/
def call (c : DepCall) (s : EntryState) : List ℕ × EntryState :=
  decrease sh c.group c.count c.specific s

def increment (instanceIdx : Option ℕ) (s : EntryState) : ℕ × EntryState :=
  let g := instanceIdx.elim 0 sh.groupOf
  ((s.remaining g + 1) % 2 ^ 32, s.setRemaining g (min (s.remaining g + 1) (2 ^ 32 - 1)))

def resetSent (instanceIdx : ℕ) (s : EntryState) : EntryState :=
  if instanceIdx < sh.factor then s.setSent instanceIdx false else s

end EntryState

/-! ## The words read as plain counters -/

namespace EntryCells

variable (sh : EntryShape) (slotGen : UInt32)

/-- The reading rule repeated at every access: another generation means the initial value. -/
def view (cells : EntryCells) : EntryState where
  remaining := fun g => (genRead slotGen sh.depsPerGroup (cells.remainingDeps g)).toNat
  sent := fun i => genRead slotGen 0 (cells.instancesSent i) ≠ 0

theorem view_setRemaining (cells : EntryCells) (g : ℕ) (v : UInt32) :
    view sh slotGen (cells.setRemaining g (genPack slotGen v)) =
      (view sh slotGen cells).setRemaining g v.toNat := by
  ext i
  · by_cases hi : i = g
    · subst hi
      simp [view, setRemaining, EntryState.setRemaining]
    · simp [view, setRemaining, EntryState.setRemaining, hi]
  · rfl

theorem view_setSent (cells : EntryCells) (idx : ℕ) (v : UInt32) :
    view sh slotGen (cells.setSent idx (genPack slotGen v)) =
      (view sh slotGen cells).setSent idx (decide (v ≠ 0)) := by
  ext i
  · rfl
  · by_cases hi : i = idx
    · subst hi
      simp [view, setSent, EntryState.setSent]
    · simp [view, setSent, EntryState.setSent, hi]

theorem sent_word_iff (cells : EntryCells) (idx : ℕ) :
    (genUnpackGen (cells.instancesSent idx) = slotGen ∧
      genUnpackVal (cells.instancesSent idx) ≠ 0) ↔ (view sh slotGen cells).sent idx = true := by
  simp only [view, genRead]
  split
  · next h => simp [h]
  · next h => simp [h]

theorem view_resetEpoch (newGen : UInt32) :
    view sh newGen (resetEpoch sh newGen) = EntryState.initial sh := by
  ext i <;> simp [view, resetEpoch, EntryState.initial]

/-- The packed words compute the plain counters. -/
theorem viewOps : (packedOps sh slotGen).Simulates EntryState.plainOps (view sh slotGen) where
  fetchDec := by
    intro g count cells
    simp only [packedOps, EntryState.plainOps, view_setRemaining, saturatingSub_toNat,
      asU32_toNat]
    exact ⟨rfl, rfl⟩
  trySend := by
    intro i cells
    simp only [packedOps, EntryState.plainOps, sent_word_iff sh]
    split
    · exact ⟨rfl, rfl⟩
    · exact ⟨rfl, view_setSent sh slotGen cells i 1⟩

theorem view_decreaseAndGetReadyInto (group : Option ℕ) (count : ℕ) (specific : Option ℕ)
    (cells : EntryCells) :
    (decreaseAndGetReadyInto sh slotGen group count specific cells).1 =
        (EntryState.decrease sh group count specific (view sh slotGen cells)).1 ∧
      view sh slotGen (decreaseAndGetReadyInto sh slotGen group count specific cells).2 =
        (EntryState.decrease sh group count specific (view sh slotGen cells)).2 :=
  (viewOps sh slotGen).decreaseAndGetReadyInto sh group count specific cells

theorem view_incrementDependency (instanceIdx : Option ℕ) (cells : EntryCells) :
    (incrementDependency sh slotGen instanceIdx cells).1 =
        (EntryState.increment sh instanceIdx (view sh slotGen cells)).1 ∧
      view sh slotGen (incrementDependency sh slotGen instanceIdx cells).2 =
        (EntryState.increment sh instanceIdx (view sh slotGen cells)).2 := by
  simp only [incrementDependency, EntryState.increment, view_setRemaining, saturatingAdd_toNat,
    UInt32.toNat_add]
  exact ⟨rfl, rfl⟩

theorem view_resetSentFlag (instanceIdx : ℕ) (cells : EntryCells) :
    view sh slotGen (resetSentFlag sh slotGen instanceIdx cells) =
      EntryState.resetSent sh instanceIdx (view sh slotGen cells) := by
  simp only [resetSentFlag, EntryState.resetSent]
  split
  · exact view_setSent sh slotGen cells instanceIdx 0
  · rfl

end EntryCells

end Tomii
