import Mathlib.Data.List.Basic
import Mathlib.Logic.Function.Basic
import Tomii.Buffers.GenPacked
import Tomii.Foundations.WordSet
import Tomii.Runtime.Dispatch

/-! # The slot table

Slots hold frames. Five views of one fact are kept side by side: the states, the bitmap of
active slots, the list of running frames, the frame of each slot, and the lock-free map from
frames to slots. The functions here are the critical sections that move all of them. -/
namespace Tomii.Slots
set_option autoImplicit false
set_option maxHeartbeats 250000

inductive SlotState where
  | inactive
  | active
  | buffering
deriving DecidableEq

/-- The configuration of a built runtime: `build` accepts between 1 and `MAX_SLOTS` slots. -/
structure SlotConfig where
  slots : ℕ
  slotPriorityEnabled : Bool
  hasNetwork : Bool
  maxFrames : ℕ
  one_le_slots : 1 ≤ slots
  slots_le : slots ≤ 64

theorem one_slot_le : 1 ≤ 64 := by decide

theorem two_slots_le : 2 ≤ 64 := by decide

theorem two_slots_fit : 2 ≤ 2 := by decide

/-- `usize::MAX` -/
def usizeMax : ℕ := 2 ^ 64 - 1

/-- `FRAME_SLOT_EMPTY` -/
def frameSlotEmpty : UInt64 := UInt64.ofNat (2 ^ 64 - 1)

/-- The fields of `SlotData` that assignment and release work on. -/
structure SlotData where
  generation : ℕ → UInt64
  needsCheck : ℕ → Bool
  frameId : ℕ → ℕ
  activeBitmap : UInt64
  states : ℕ → SlotState
  runningFrames : List (ℕ × ℕ)
  frameSlotMap : ℕ → UInt64
  buffers : ℕ → List NodeInfo
  lastAssigned : ℕ

namespace SlotData

def initial : SlotData where
  generation := fun _ => 0
  needsCheck := fun _ => false
  frameId := fun _ => usizeMax
  activeBitmap := 0
  states := fun _ => .inactive
  runningFrames := []
  frameSlotMap := fun _ => frameSlotEmpty
  buffers := fun _ => []
  lastAssigned := 0

/-! ## The lock-free map -/

variable (cfg : SlotConfig)

/-- `frame & (map.len() - 1)`, for a map of `(2 * slots).next_power_of_two()` cells -/
def frameCell (frame : ℕ) : ℕ := frame &&& ((2 * cfg.slots).nextPowerOfTwo - 1)

def frameSlotLookup (frame : ℕ) (d : SlotData) : Option ℕ :=
  let packed := d.frameSlotMap (frameCell cfg frame)
  if packed ≠ frameSlotEmpty ∧ genUnpackGen packed = asU32 frame then
    some (genUnpackVal packed).toNat
  else none

def frameSlotPublish (frame slot : ℕ) (d : SlotData) : SlotData :=
  { d with
    frameSlotMap :=
      Function.update d.frameSlotMap (frameCell cfg frame) (genPack (asU32 frame) (asU32 slot)) }

def frameSlotClear (frame : ℕ) (d : SlotData) : SlotData :=
  let packed := d.frameSlotMap (frameCell cfg frame)
  if packed ≠ frameSlotEmpty ∧ genUnpackGen packed = asU32 frame then
    { d with
      frameSlotMap := Function.update d.frameSlotMap (frameCell cfg frame) frameSlotEmpty }
  else d

/-! ## Steps shared by the critical sections -/

/-- The counter alone; the sweep at its 2^32 wrap writes no field of the table. -/
def bumpSlotGeneration (slot : ℕ) (d : SlotData) : SlotData :=
  { d with generation := Function.update d.generation slot (d.generation slot + 1) }

/-- The slot turns `Active`: its state, its bit and its check flag. -/
def activate (slot : ℕ) (d : SlotData) : SlotData :=
  { d with
    states := Function.update d.states slot .active
    activeBitmap := wordInsert d.activeBitmap slot
    needsCheck := Function.update d.needsCheck slot true }

/-- `running_frames.push`, `frame_slot_publish` and the store of `frame_id`. -/
def register (frame slot : ℕ) (d : SlotData) : SlotData :=
  frameSlotPublish cfg frame slot
    { d with
      runningFrames := d.runningFrames ++ [(frame, slot)]
      frameId := Function.update d.frameId slot frame }

/-! ## Assignment -/

/-- The slots after `last` in the order of the search: `(last + i) % slots` for `1 ≤ i`. -/
def roundRobin (last : ℕ) : List ℕ :=
  (List.range' 1 (cfg.slots - 1)).map fun i => (last + i) % cfg.slots

/-- The slow path, up to the generation bump that follows when a slot was activated. -/
def assignUnderLock (frame : ℕ) (d : SlotData) : Option (ℕ × Bool) × SlotData :=
  match d.runningFrames.find? fun e => e.1 = frame with
  | some e => (some (e.2, false), d)
  | none =>
    if d.states d.lastAssigned = .inactive then
      (some (d.lastAssigned, true), (d.activate d.lastAssigned).register cfg frame d.lastAssigned)
    else
      match (roundRobin cfg d.lastAssigned).find? fun s => d.states s = .inactive with
      | none => (none, d)
      | some slot =>
        if !cfg.slotPriorityEnabled && cfg.hasNetwork then
          (some (slot, true),
            { (d.activate slot).register cfg frame slot with lastAssigned := slot })
        else
          (some (slot, false),
            { ({ d with states := Function.update d.states slot .buffering }).register cfg
                frame slot with lastAssigned := slot })

/-- The slow path with its bump. -/
def assignScanning (frame : ℕ) (d : SlotData) : Option (ℕ × Bool) × SlotData :=
  match assignUnderLock cfg frame d with
  | (some (slot, true), d') => (some (slot, true), d'.bumpSlotGeneration slot)
  | out => out

def assignFrameToAvailableSlot (frame : ℕ) (d : SlotData) : Option (ℕ × Bool) × SlotData :=
  match frameSlotLookup cfg frame d with
  | some slot => (some (slot, false), d)
  | none => assignScanning cfg frame d

/-! ## Release -/

/-- The release of `slot` in the first part of `release_and_activate_next`. -/
def releaseSlot (slot : ℕ) (d : SlotData) : SlotData :=
  let d' : SlotData :=
    { d with
      states := Function.update d.states slot .inactive
      activeBitmap := wordErase d.activeBitmap slot
      frameId := Function.update d.frameId slot usizeMax }
  match d'.runningFrames.find? fun e => e.2 = slot with
  | none => d'
  | some e =>
    frameSlotClear cfg e.1 { d' with runningFrames := d'.runningFrames.eraseP fun e => e.2 = slot }

/-- The slot of the oldest running frame that is `Buffering`. -/
def nextBuffering (d : SlotData) : Option ℕ :=
  (d.runningFrames.find? fun e => d.states e.2 = .buffering).map Prod.snd

/-- Release and promotion under the locks, with the packets taken from the promoted slot. -/
def releaseUnderLock (slot : ℕ) (d : SlotData) : Option (ℕ × List NodeInfo) × SlotData :=
  let d' := releaseSlot cfg slot d
  if cfg.slotPriorityEnabled then
    match nextBuffering d' with
    | none => (none, d')
    | some next =>
      (some (next, d'.buffers next),
        { d'.activate next with
          lastAssigned := next
          buffers := Function.update d'.buffers next [] })
  else (none, d')

def releaseAndActivateNext (slot : ℕ) (d : SlotData) : Option (ℕ × List NodeInfo) × SlotData :=
  match releaseUnderLock cfg slot d with
  | (some (next, buffered), d') => (some (next, buffered), d'.bumpSlotGeneration next)
  | out => out

/-! ## Restart -/

/-- The slots that are `Active` or `Buffering`. -/
def currentlyActive (d : SlotData) : ℕ :=
  (List.range cfg.slots).countP fun s => d.states s = .active ∨ d.states s = .buffering

/-- Slots other than `slot` that are `Active` or `Buffering`. -/
def currentlyActiveFrames (slot : ℕ) (d : SlotData) : ℕ :=
  (List.range cfg.slots).countP fun s =>
    s ≠ slot ∧ (d.states s = .active ∨ d.states s = .buffering)

/-- `completed` is what the load of `frame_complete_counter` returned. -/
def restartSlotNonnetwork (slot completed : ℕ) (d : SlotData) : SlotData :=
  if cfg.hasNetwork then d
  else
    let nextFrameId := completed + currentlyActive cfg d
    ({ d with
        states := Function.update d.states slot .active
        activeBitmap := wordInsert d.activeBitmap slot }).register cfg nextFrameId slot

end SlotData

end Tomii.Slots
