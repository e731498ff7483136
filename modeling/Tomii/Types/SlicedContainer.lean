import Tomii.Foundations.WordSet
import Tomii.Foundations.Interleaving
import Mathlib.Data.List.Nodup
import Mathlib.Data.List.Perm.Subperm

/-! # Guards of a sliced container (`tomii-types/src/lib.rs`)

Each element of the container has a write bit and a read bit, 64 to a word. Acquisitions and
releases go through the words of their range one atomic step at a time. The elements themselves are
left out: a guard is its kind and its range. -/
namespace Tomii.Types
set_option autoImplicit false
set_option maxHeartbeats 250000

/-! ## Ranges -/

/-- The two bits of an element, `write_chunks` and `read_chunks`. -/
inductive Access where
  | write
  | read
deriving DecidableEq, Repr

/-- A guard that has been handed out: `MutSliceGuard` holds write bits, `ReadSliceGuard` and
`CmReadGuard` hold read bits. -/
structure Guard where
  access : Access
  start : ℕ
  len : ℕ
deriving DecidableEq, Repr

namespace Guard

def elements (g : Guard) : List ℕ := List.range' g.start g.len

theorem mem_elements {g : Guard} {e : ℕ} : e ∈ g.elements ↔ g.start ≤ e ∧ e < g.start + g.len := by
  simp [elements]

end Guard

/-- `mask_for_chunk` -/
def maskForChunk (rangeStart rangeEnd chunkIdx : ℕ) : UInt64 :=
  let chunkStart := chunkIdx * 64
  let chunkEnd := chunkStart + 64
  let lo := max rangeStart chunkStart
  let hi := min rangeEnd chunkEnd
  if hi ≤ lo then 0
  else if 64 ≤ hi - lo then UInt64.ofNat (2 ^ 64 - 1)
  else wordRun (lo - chunkStart) (hi - lo)

/-- `first_chunk..=last_chunk` of a range that is not empty. -/
def chunksOf (start rangeEnd : ℕ) : List ℕ :=
  List.range' (start / 64) ((rangeEnd - 1) / 64 + 1 - start / 64)

/-- The elements of the container whose bits a mask selects. -/
def maskElements (chunkIdx : ℕ) (mask : UInt64) : List ℕ :=
  (wordElements mask).map (64 * chunkIdx + ·)

theorem wordHas_maskForChunk {rangeStart rangeEnd chunkIdx i : ℕ} (hi : i < 64) :
    wordHas (maskForChunk rangeStart rangeEnd chunkIdx) i =
      decide (rangeStart ≤ 64 * chunkIdx + i ∧ 64 * chunkIdx + i < rangeEnd) := by
  have hmul : chunkIdx * 64 = 64 * chunkIdx := Nat.mul_comm ..
  unfold maskForChunk
  simp only [hmul]
  split
  · next h =>
    rw [wordHas_zero, eq_comm, decide_eq_false_iff_not]
    omega
  · next h =>
    split
    · next hfull =>
      have hall : wordHas (UInt64.ofNat (2 ^ 64 - 1)) i = true := by
        rw [wordHas_eq_getLsbD hi]
        have hones : (UInt64.ofNat (2 ^ 64 - 1)).toBitVec = BitVec.allOnes 64 := by decide
        rw [hones, BitVec.getLsbD_allOnes, decide_eq_true hi]
      rw [hall, eq_comm, decide_eq_true_eq]
      omega
    · next hpart =>
      rw [wordHas_run (by omega) (by omega) (by omega) hi, decide_eq_decide]
      omega

theorem mem_maskElements {chunkIdx : ℕ} {mask : UInt64} {e : ℕ} :
    e ∈ maskElements chunkIdx mask ↔ e / 64 = chunkIdx ∧ wordHas mask (e % 64) = true := by
  simp only [maskElements, List.mem_map, mem_wordElements]
  constructor
  · rintro ⟨i, ⟨hi, hhas⟩, rfl⟩
    have hmod : (64 * chunkIdx + i) % 64 = i := by omega
    exact ⟨by omega, by rw [hmod]; exact hhas⟩
  · rintro ⟨rfl, hhas⟩
    exact ⟨e % 64, ⟨Nat.mod_lt _ (by omega), hhas⟩, by omega⟩

theorem maskElements_nodup (chunkIdx : ℕ) (mask : UInt64) : (maskElements chunkIdx mask).Nodup :=
  (wordElements_nodup mask).map fun _ _ => Nat.add_left_cancel

/-- The masks of its chunks select the elements of a range. -/
theorem mem_chunkMask {rangeStart rangeEnd chunkIdx e : ℕ} :
    e ∈ maskElements chunkIdx (maskForChunk rangeStart rangeEnd chunkIdx) ↔
      e / 64 = chunkIdx ∧ rangeStart ≤ e ∧ e < rangeEnd := by
  rw [mem_maskElements, wordHas_maskForChunk (Nat.mod_lt _ (by omega)), decide_eq_true_eq]
  refine and_congr_right fun hchunk => ?_
  have he : 64 * chunkIdx + e % 64 = e := by omega
  rw [he]

theorem mem_chunksOf {start rangeEnd chunkIdx : ℕ} (h : start < rangeEnd) :
    chunkIdx ∈ chunksOf start rangeEnd ↔ start / 64 ≤ chunkIdx ∧ chunkIdx ≤ (rangeEnd - 1) / 64 := by
  have hle : start / 64 ≤ (rangeEnd - 1) / 64 := Nat.div_le_div_right (by omega)
  rw [chunksOf, List.mem_range'_1]
  omega

/-- All elements of a range, chunk by chunk. -/
theorem chunkElements_perm {start len : ℕ} (h : 0 < len) :
    ((chunksOf start (start + len)).flatMap fun chunkIdx =>
      maskElements chunkIdx (maskForChunk start (start + len) chunkIdx)).Perm
        (List.range' start len) := by
  refine (List.perm_ext_iff_of_nodup ?_ (List.nodup_range' ..)).mpr fun e => ?_
  · refine List.nodup_flatMap.mpr ⟨fun chunkIdx _ => maskElements_nodup _ _, ?_⟩
    refine (List.nodup_range' ..).imp fun {a b} hne e ha hb => ?_
    exact hne ((mem_chunkMask.mp ha).1.symm.trans (mem_chunkMask.mp hb).1)
  · simp only [List.mem_flatMap, mem_chunkMask, mem_chunksOf (Nat.lt_add_of_pos_right h),
      List.mem_range'_1]
    constructor
    · rintro ⟨chunkIdx, -, -, hlo, hhi⟩
      exact ⟨hlo, hhi⟩
    · rintro ⟨hlo, hhi⟩
      exact ⟨e / 64, ⟨Nat.div_le_div_right hlo, Nat.div_le_div_right (by omega)⟩, rfl, hlo, hhi⟩

/-! ## Steps -/

/-- A container, with the guards handed out and the elements whose read bits somebody has set, once
for each time; no program reads these two. -/
structure Container where
  totalLength : ℕ
  chunks : Access → ℕ → UInt64
  live : List Guard
  reading : List ℕ

namespace Container

def empty (totalLength : ℕ) : Container := ⟨totalLength, fun _ _ => 0, [], []⟩

variable (σ : Container)

def setWord (bits : Access) (chunkIdx : ℕ) (word : UInt64) : Container :=
  { σ with
    chunks := Function.update σ.chunks bits (Function.update (σ.chunks bits) chunkIdx word) }

/-- `range_end` -/
def rangeEnd (totalLength start len : ℕ) : Option ℕ :=
  if totalLength < start then none
  else if start + len ≤ totalLength then some (start + len) else none

end Container

/-- The atomic steps, and the two ends of a guard's life. -/
inductive SliceAct where
  | totalLength
  | load (bits : Access) (chunkIdx : ℕ)
  | casWrite (chunkIdx : ℕ) (current mask : UInt64)
  | orRead (chunkIdx : ℕ) (mask : UInt64)
  | clear (bits : Access) (chunkIdx : ℕ) (mask : UInt64)
  | handOut (g : Guard)
  | takeBack
deriving DecidableEq

@[reducible] def SliceAct.Reply : SliceAct → Type
  | .totalLength => ℕ
  | .load _ _ => UInt64
  | .casWrite _ _ _ => Option UInt64
  | .takeBack => Option Guard
  | _ => Unit

@[reducible] def sliceSteps : Interface := ⟨SliceAct, SliceAct.Reply⟩

abbrev SliceThread (α : Type) : Type := Prog sliceSteps α

def sliceStep (a : SliceAct) : SliceThread a.Reply := Prog.call (I := sliceSteps) a

namespace Container

/-- `compare_exchange` answers with the word it found when it fails; `choice` picks the guard that
is dropped. -/
def perform (choice : ℕ) : (a : SliceAct) → Container → a.Reply × Container
  | .totalLength, σ => (σ.totalLength, σ)
  | .load bits chunkIdx, σ => (σ.chunks bits chunkIdx, σ)
  | .casWrite chunkIdx current mask, σ =>
    if σ.chunks .write chunkIdx = current then
      (none, σ.setWord .write chunkIdx (current ||| mask))
    else (some (σ.chunks .write chunkIdx), σ)
  | .orRead chunkIdx mask, σ =>
    ((), { σ.setWord .read chunkIdx (σ.chunks .read chunkIdx ||| mask) with
      reading := maskElements chunkIdx mask ++ σ.reading })
  | .clear bits chunkIdx mask, σ =>
    ((), { σ.setWord bits chunkIdx (σ.chunks bits chunkIdx &&& ~~~ mask) with
      reading := if bits = .read then σ.reading.diff (maskElements chunkIdx mask)
        else σ.reading })
  | .handOut g, σ => ((), { σ with live := g :: σ.live })
  | .takeBack, σ => (σ.live[choice]?, { σ with live := σ.live.eraseIdx choice })

end Container

/-! ## Acquisitions and releases -/

section Programs

/-- The rollback of a failed acquisition. -/
def rollback (bits : Access) : List (ℕ × UInt64) → SliceThread Unit
  | [] => pure ()
  | (idx, releaseMask) :: rest => do
    sliceStep (.clear bits idx releaseMask)
    rollback bits rest

/-- The compare-exchange loop of one chunk. A thread whose attempts run out takes no further turn, so
that every finite run of the loop is one of some number of attempts. -/
def markChunk (chunkIdx : ℕ) (mask : UInt64) : ℕ → UInt64 → SliceThread Bool
  | 0, _ => .fail
  | attempts + 1, current =>
    if current &&& mask ≠ 0 then pure false
    else do
      match ← sliceStep (.casWrite chunkIdx current mask) with
      | none => pure true
      | some actual => markChunk chunkIdx mask attempts actual

/-- The loop over the chunks in `sliced_data_mut`. -/
def markWrites (attempts start rangeEnd : ℕ) :
    List ℕ → List (ℕ × UInt64) → SliceThread Bool
  | [], _ => pure true
  | chunkIdx :: rest, acquired =>
    let mask := maskForChunk start rangeEnd chunkIdx
    if mask = 0 then markWrites attempts start rangeEnd rest acquired
    else do
      let readers ← sliceStep (.load .read chunkIdx)
      if readers &&& mask ≠ 0 then
        rollback .write acquired
        pure false
      else
        let current ← sliceStep (.load .write chunkIdx)
        let marked ← markChunk chunkIdx mask attempts current
        if marked then markWrites attempts start rangeEnd rest (acquired ++ [(chunkIdx, mask)])
        else
          rollback .write acquired
          pure false

/-- `acquire_read_range` -/
def acquireReadRange (start rangeEnd : ℕ) : List ℕ → List (ℕ × UInt64) → SliceThread Bool
  | [], _ => pure true
  | chunkIdx :: rest, acquired =>
    let mask := maskForChunk start rangeEnd chunkIdx
    if mask = 0 then acquireReadRange start rangeEnd rest acquired
    else do
      let writers ← sliceStep (.load .write chunkIdx)
      if writers &&& mask ≠ 0 then
        rollback .read acquired
        pure false
      else
        sliceStep (.orRead chunkIdx mask)
        acquireReadRange start rangeEnd rest (acquired ++ [(chunkIdx, mask)])

/-- `sliced_data_mut` and the `MutSliceGuard` over its slice. -/
def slicedDataMut (attempts start len : ℕ) : SliceThread Unit := do
  let total ← sliceStep .totalLength
  match Container.rangeEnd total start len with
  | none => pure ()
  | some rangeEnd =>
    if len = 0 then sliceStep (.handOut ⟨.write, start, 0⟩)
    else
      let acquired ← markWrites attempts start rangeEnd (chunksOf start rangeEnd) []
      if acquired then sliceStep (.handOut ⟨.write, start, len⟩) else pure ()

/-- `sliced_get_range` and `get_range_raw` -/
def slicedGetRange (start len : ℕ) : SliceThread Unit := do
  let total ← sliceStep .totalLength
  match Container.rangeEnd total start len with
  | none => pure ()
  | some rangeEnd =>
    if len = 0 then sliceStep (.handOut ⟨.read, start, 0⟩)
    else
      let acquired ← acquireReadRange start rangeEnd (chunksOf start rangeEnd) []
      if acquired then sliceStep (.handOut ⟨.read, start, len⟩) else pure ()

/-- The loop of a release over its chunks. -/
def clearRange (bits : Access) (start rangeEnd : ℕ) : List ℕ → SliceThread Unit
  | [] => pure ()
  | chunkIdx :: rest =>
    let mask := maskForChunk start rangeEnd chunkIdx
    if mask ≠ 0 then do
      sliceStep (.clear bits chunkIdx mask)
      clearRange bits start rangeEnd rest
    else clearRange bits start rangeEnd rest

def releaseBits (bits : Access) (start len : ℕ) : SliceThread Unit := do
  let total ← sliceStep .totalLength
  match Container.rangeEnd total start len with
  | none => pure ()
  | some rangeEnd =>
    if len = 0 then pure () else clearRange bits start rangeEnd (chunksOf start rangeEnd)

/-- `unset_range` -/
def unsetRange : ℕ → ℕ → SliceThread Unit := releaseBits .write

/-- `release_read_range` -/
def releaseReadRange : ℕ → ℕ → SliceThread Unit := releaseBits .read

/-- `Drop` of a guard. -/
def dropGuard : SliceThread Unit := do
  match ← sliceStep .takeBack with
  | none => pure ()
  | some g =>
    match g.access with
    | .write => unsetRange g.start g.len
    | .read => releaseReadRange g.start g.len

end Programs

/-- What a thread may do with the container. The variants with a timeout try again. -/
inductive SliceJob where
  | acquireMut (attempts start len : ℕ)
  | acquireRead (start len : ℕ)
  | drop

def sliceMachine : Machine sliceSteps Container SliceJob where
  perform := Container.perform
  program
    | .acquireMut attempts start len => slicedDataMut attempts start len
    | .acquireRead start len => slicedGetRange start len
    | .drop => dropGuard

def sliceWorld (totalLength threads : ℕ) : World sliceSteps Container :=
  ⟨.empty totalLength, List.replicate threads (.done ())⟩

end Tomii.Types
