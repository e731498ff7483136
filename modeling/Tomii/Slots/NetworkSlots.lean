import Tomii.Slots.SlotRuns

/-! # Slots of a network run

What packet admission, completion and eviction do to a slot beyond the table: its packet
counter and flag, its buffered packets and its results. Every step is taken atomically. -/
namespace Tomii.Slots
set_option autoImplicit false
set_option maxHeartbeats 250000

/-- A network graph with a published number of packets for each frame. -/
structure NetConfig extends SlotConfig where
  framePackets : ℕ
  network : hasNetwork = true

/-- The table, the counters of a slot, and the result cells `(node, index)` that hold a value. -/
structure NetData where
  table : SlotData
  packetCounters : ℕ → ℕ
  packetComplete : ℕ → Bool
  results : ℕ → List (ℕ × ℕ)
  frameDropped : ℕ → Bool
  frameCompleteCounter : ℕ

namespace NetData

def initial : NetData where
  table := .initial
  packetCounters := fun _ => 0
  packetComplete := fun _ => false
  results := fun _ => []
  frameDropped := fun _ => false
  frameCompleteCounter := 0

variable (cfg : NetConfig)

/-- `mark_frame_dropped`; the bitmap has `max_frames + slots` entries. -/
def markFrameDropped (frame : ℕ) (σ : NetData) : NetData :=
  if frame < cfg.maxFrames + cfg.slots ∧ σ.frameDropped frame = false then
    { σ with
      frameDropped := Function.update σ.frameDropped frame true
      frameCompleteCounter := σ.frameCompleteCounter + 1 }
  else σ

/-- The part of `reset_slot_state` that these fields see. -/
def resetSlotState (slot : ℕ) (σ : NetData) : NetData :=
  { σ with
    table :=
      { σ.table.bumpSlotGeneration slot with
        needsCheck := Function.update σ.table.needsCheck slot false }
    packetComplete := Function.update σ.packetComplete slot false
    packetCounters := Function.update σ.packetCounters slot 0 }

def reinitSlot (slot : ℕ) (σ : NetData) : NetData :=
  { σ with results := Function.update σ.results slot [] }

/-- Phase 1 of batch resolution: the packets of a batch are stored as results of node 0. -/
def storePackets (slot : ℕ) (batch : List NodeInfo) (σ : NetData) : NetData :=
  { σ with
    results :=
      Function.update σ.results slot (σ.results slot ++ batch.map fun ni => (ni.id, ni.index)) }

/-- `can_restart` -/
def canRestart (slot : ℕ) (σ : NetData) : Bool :=
  σ.frameCompleteCounter + 1 + σ.table.currentlyActiveFrames cfg.toSlotConfig slot <
    cfg.maxFrames

def processSlotCompletion (slot : ℕ) (σ : NetData) : NetData :=
  let σ' := { σ with frameCompleteCounter := σ.frameCompleteCounter + 1 }
  if canRestart cfg slot σ then reinitSlot slot σ' else σ'

def releaseAndDispatchNext (slot : ℕ) (σ : NetData) : NetData :=
  match σ.table.releaseAndActivateNext cfg.toSlotConfig slot with
  | (some (next, buffered), d) => storePackets next buffered { σ with table := d }
  | (none, d) => { σ with table := d }

/-- A slot on which `try_evict_stalled_slots` acts once it has been silent for the timeout
with no task in flight. -/
def Stalled (slot : ℕ) (σ : NetData) : Prop :=
  0 < σ.packetCounters slot ∧ σ.packetCounters slot < cfg.framePackets ∧
    σ.packetComplete slot = false

instance (slot : ℕ) (σ : NetData) : Decidable (Stalled cfg slot σ) :=
  inferInstanceAs (Decidable (_ ∧ _))

/-- One slot of `try_evict_stalled_slots`. The claim's `packet_complete.swap(true)` is undone by
the reset. -/
def evict (slot : ℕ) (σ : NetData) : NetData :=
  if Stalled cfg slot σ then
    releaseAndDispatchNext cfg slot
      (reinitSlot slot (resetSlotState slot (markFrameDropped cfg (σ.table.frameId slot) σ)))
  else σ

/-- The slots that `check_slots` looks at: of running frames, and with slot priority active. -/
def Checked (slot : ℕ) (σ : NetData) : Prop :=
  slot ∈ σ.table.runningFrames.map Prod.snd ∧
    (cfg.slotPriorityEnabled = true → wordHas σ.table.activeBitmap slot = true)

instance (slot : ℕ) (σ : NetData) : Decidable (Checked cfg slot σ) :=
  inferInstanceAs (Decidable (_ ∧ _))

/-- One slot of `check_slots` whose frame turns out complete. -/
def complete (slot : ℕ) (σ : NetData) : NetData :=
  if Checked cfg slot σ then
    releaseAndDispatchNext cfg slot (processSlotCompletion cfg slot (resetSlotState slot σ))
  else σ

/-- The active batch, which is resolved at once here, or the buffer of the slot. -/
def route (slot index : ℕ) (σ : NetData) : NetData :=
  if wordHas σ.table.activeBitmap slot then storePackets slot [NodeInfo.new 0 slot index 0] σ
  else
    { σ with
      table :=
        { σ.table with
          buffers :=
            Function.update σ.table.buffers slot
              (σ.table.buffers slot ++ [NodeInfo.new 0 slot index 0]) } }

/-- `check_frame_completion` -/
def checkFrameCompletion (slot : ℕ) (σ : NetData) : NetData :=
  if σ.packetCounters slot = cfg.framePackets then
    { σ with packetComplete := Function.update σ.packetComplete slot true }
  else σ

/-- `assign_packet_to_slot` with the rest of `admit_packet`; `index` is what the index function
returned. Without a free slot the packet is parked. -/
def admitPacket (frame index : ℕ) (σ : NetData) : NetData :=
  if frame < cfg.maxFrames + cfg.slots ∧ σ.frameDropped frame = true then σ
  else
    match σ.table.assignFrameToAvailableSlot cfg.toSlotConfig frame with
    | (none, d) => { σ with table := d }
    | (some (slot, _), d) =>
      checkFrameCompletion cfg slot
        (route slot index
          { σ with
            table := d
            packetCounters := Function.update σ.packetCounters slot (σ.packetCounters slot + 1) })

end NetData

/-- An assignment without packets is the initial preparation; `store` is a task of the frame of
an active slot that leaves its result. -/
inductive NetOp (cfg : NetConfig) where
  | assign (frame : ℕ)
  | admitPacket (frame index : ℕ)
  | store (slot : Fin cfg.slots) (node index : ℕ)
  | complete (slot : Fin cfg.slots)
  | evict (slot : Fin cfg.slots)

variable {cfg : NetConfig}

def NetOp.step : NetOp cfg → NetData → NetData
  | .assign frame, σ =>
    { σ with table := (σ.table.assignFrameToAvailableSlot cfg.toSlotConfig frame).2 }
  | .admitPacket frame index, σ => σ.admitPacket cfg frame index
  | .store slot node index, σ =>
    if σ.table.states slot = .active then
      { σ with results := Function.update σ.results slot (σ.results slot ++ [(node, index)]) }
    else σ
  | .complete slot, σ => σ.complete cfg slot
  | .evict slot, σ => σ.evict cfg slot

/-- The state after a sequence of steps. -/
def netAfter : List (NetOp cfg) → NetData → NetData
  | [], σ => σ
  | op :: ops, σ => netAfter ops (op.step σ)

/-- A condition on each step of a run, in the state before it. -/
def EachStep (P : NetOp cfg → NetData → Prop) : List (NetOp cfg) → NetData → Prop
  | [], _ => True
  | op :: ops, σ => P op σ ∧ EachStep P ops (op.step σ)

instance decidableEachStep (P : NetOp cfg → NetData → Prop) [∀ op σ, Decidable (P op σ)] :
    (ops : List (NetOp cfg)) → (σ : NetData) → Decidable (EachStep P ops σ)
  | [], _ => .isTrue trivial
  | op :: ops, σ => @instDecidableAnd _ _ _ (decidableEachStep P ops (op.step σ))

/-- An invariant that every step keeps under the condition holds after the run. -/
theorem netAfter_keeps {P : NetOp cfg → NetData → Prop} (I : NetData → Prop)
    (hstep : ∀ op σ, I σ → P op σ → I (op.step σ)) (ops : List (NetOp cfg)) {σ : NetData}
    (h : I σ) (hrun : EachStep P ops σ) : I (netAfter ops σ) := by
  induction ops generalizing σ with
  | nil => exact h
  | cons op ops ih => exact ih (hstep op σ h hrun.1) hrun.2

end Tomii.Slots
