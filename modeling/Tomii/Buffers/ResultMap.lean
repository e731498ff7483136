import Tomii.Types.RuntimeValues
import Mathlib.Algebra.GroupWithZero.Nat
import Mathlib.Data.List.Range
import Mathlib.Data.List.Perm.Basic
import Mathlib.Logic.Function.Basic

/-! # The result map (`buffers/result_map.rs`)

One flat array of cells for all slots: a tag, the bits of an inline value and a pointer to a
box. The cells of a slot are freed when the slot is reset, at once or by a background thread. -/
namespace Tomii
set_option autoImplicit false
set_option maxHeartbeats 250000

/-- What `NodeInfo` says of a cell. -/
structure ResultCell where
  slot : ℕ
  id : ℕ
  index : ℕ
deriving DecidableEq, Repr

/-- `node_offsets`, with the loop's running offset. -/
def nodeOffsets (offset : ℕ) : List ℕ → List ℕ
  | [] => []
  | factor :: factors => offset :: nodeOffsets (offset + factor) factors

/-- `LockFreeResultMap`; pointers number the boxes in the order of their allocation. -/
structure ResultMap (α : Type) where
  nodeFactors : List ℕ
  slots : ℕ
  buffer : ℕ → Option ℕ
  inlineVal : ℕ → UInt64
  inlineTag : ℕ → UInt8
  boxes : List (CmTypes α)
  /-- Every pointer dropped so far. -/
  freed : List ℕ
  /-- The batches that the reclaiming thread has not dropped yet. -/
  reclaim : Option (List (List ℕ))

namespace ResultMap

variable {α : Type}

/-- `new`, with `with_deferred_reclaim` or without. -/
def new (α : Type) (nodeFactors : List ℕ) (slots : ℕ) (deferred : Bool) : ResultMap α where
  nodeFactors := nodeFactors
  slots := slots
  buffer := fun _ => none
  inlineVal := fun _ => 0
  inlineTag := fun _ => 0
  boxes := []
  freed := []
  reclaim := if deferred then some [] else none

variable (m : ResultMap α)

def perSlotSize : ℕ := m.nodeFactors.sum

def totalSize : ℕ := m.slots * m.perSlotSize

/-- The checks at the head of `set`, `get` and `result_exists`. -/
def InBounds (c : ResultCell) : Prop := c.slot < m.slots ∧ ∃ f ∈ m.nodeFactors[c.id]?, c.index < f

instance (c : ResultCell) : Decidable (m.InBounds c) :=
  inferInstanceAs (Decidable (c.slot < m.slots ∧ ∃ f ∈ m.nodeFactors[c.id]?, c.index < f))

/-- `flat_index`; an id past the end panics in the source. -/
def flatIndex (c : ResultCell) : ℕ :=
  c.slot * m.perSlotSize + ((nodeOffsets 0 m.nodeFactors)[c.id]?).getD 0 + c.index

/-- `set`; a cell out of bounds panics. -/
def set (c : ResultCell) (result : CmTypes α) : Option (ResultMap α) :=
  if m.InBounds c then
    let idx := m.flatIndex c
    match result.encodeInline with
    | some (tag, val) =>
      some { m with
        inlineVal := Function.update m.inlineVal idx val
        inlineTag := Function.update m.inlineTag idx tag }
    | none =>
      some { m with
        buffer := Function.update m.buffer idx (some m.boxes.length)
        boxes := m.boxes ++ [result]
        inlineTag := Function.update m.inlineTag idx CmTypes.tagBoxed
        freed := m.freed ++ (m.buffer idx).toList }
  else none

/-- What a cell of the array holds. -/
def load (idx : ℕ) : Option (CmTypes α) :=
  if m.inlineTag idx = 0 then none
  else if m.inlineTag idx = CmTypes.tagBoxed then (m.buffer idx).bind (m.boxes[·]?)
  else CmTypes.decodeInline (m.inlineTag idx) (m.inlineVal idx)

/-- `get` -/
def get (c : ResultCell) : Option (CmTypes α) :=
  if m.InBounds c then m.load (m.flatIndex c) else none

/-- `result_exists` -/
def resultExists (c : ResultCell) : Bool :=
  if m.InBounds c then m.inlineTag (m.flatIndex c) != 0 else false

/-- The body of the loop of `reinit_slot`, with the vector of detached boxes. -/
def clearCell (st : ResultMap α × List ℕ) (idx : ℕ) : ResultMap α × List ℕ :=
  let (m, detached) := st
  let oldTag := m.inlineTag idx
  let cleared := { m with inlineTag := Function.update m.inlineTag idx 0 }
  if oldTag = CmTypes.tagBoxed then
    let emptied := { cleared with buffer := Function.update m.buffer idx none }
    match m.buffer idx with
    | some p =>
      if m.reclaim.isSome then (emptied, detached ++ [p])
      else ({ emptied with freed := m.freed ++ [p] }, detached)
    | none => (emptied, detached)
  else (cleared, detached)

/-- `tx.send(detached)`, when there is a reclaiming thread and something to send. -/
def send (detached : List ℕ) : ResultMap α :=
  if detached = [] then m else { m with reclaim := m.reclaim.map (· ++ [detached]) }

/-- `reinit_slot`; a slot out of bounds panics. -/
def reinitSlot (slot : ℕ) : Option (ResultMap α) :=
  if slot < m.slots then
    let st := (List.range' (slot * m.perSlotSize) m.perSlotSize).foldl clearCell (m, [])
    some (st.1.send st.2)
  else none

/-- The reclaiming thread drops its oldest batch. -/
def reclaimBatch : ResultMap α :=
  match m.reclaim with
  | some (batch :: batches) => { m with reclaim := some batches, freed := m.freed ++ batch }
  | _ => m

/-- The boxes that the map owns. -/
def live : List ℕ := (List.range m.totalSize).filterMap m.buffer

/-- The boxes that wait for the reclaiming thread. -/
def pending : List ℕ := (m.reclaim.getD []).flatten

/-- Everything dropped when the map is: the boxed cells, then what the thread still receives. -/
def dropAll : List ℕ :=
  m.freed ++ (List.range m.totalSize).filterMap (fun idx =>
    if m.inlineTag idx = CmTypes.tagBoxed then m.buffer idx else none) ++ m.pending

end ResultMap

/-! ## Runs -/

inductive MapOp (α : Type) where
  | set (c : ResultCell) (v : CmTypes α)
  | get (c : ResultCell)
  | resultExists (c : ResultCell)
  | reinitSlot (slot : ℕ)
  | reclaimBatch

inductive MapReply (α : Type) where
  | done
  | value (v : Option (CmTypes α))
  | present (b : Bool)
deriving DecidableEq

/-- An operation on some kind of map; `none` is a panic. -/
abbrev MapStep (α σ : Type) : Type := σ → MapOp α → Option (MapReply α × σ)

def MapStep.run {α σ : Type} (step : MapStep α σ) : List (MapOp α) → σ → Option (List (MapReply α) × σ)
  | [], s => some ([], s)
  | op :: ops, s => do
    let (reply, s) ← step s op
    let (replies, s) ← run step ops s
    pure (reply :: replies, s)

variable {α : Type}

def ResultMap.step : MapStep α (ResultMap α)
  | m, .set c v => (m.set c v).map (.done, ·)
  | m, .get c => some (.value (m.get c), m)
  | m, .resultExists c => some (.present (m.resultExists c), m)
  | m, .reinitSlot slot => (m.reinitSlot slot).map (.done, ·)
  | m, .reclaimBatch => some (.done, m.reclaimBatch)

/-! ## The map it stands for -/

/-- One optional value for each slot, node and instance. -/
abbrev CellMap (α : Type) : Type := ResultCell → Option (CmTypes α)

/-- Setting changes one cell, a reset empties the cells of one slot. -/
def CellMap.step (nodeFactors : List ℕ) (slots : ℕ) : MapStep α (CellMap α)
  | f, .set c v =>
    if c.slot < slots ∧ ∃ n ∈ nodeFactors[c.id]?, c.index < n then
      some (.done, Function.update f c (some v))
    else none
  | f, .get c => some (.value (f c), f)
  | f, .resultExists c => some (.present (f c).isSome, f)
  | f, .reinitSlot slot =>
    if slot < slots then some (.done, fun c => if c.slot = slot then none else f c) else none
  | f, .reclaimBatch => some (.done, f)

/-- No cell is set twice between two resets of its slot; `written` are the cells set so far. -/
def SetsOnce (written : List ResultCell) : List (MapOp α) → Prop
  | [] => True
  | .set c _ :: ops => c ∉ written ∧ SetsOnce (c :: written) ops
  | .reinitSlot slot :: ops => SetsOnce (written.filter (·.slot ≠ slot)) ops
  | _ :: ops => SetsOnce written ops

end Tomii
