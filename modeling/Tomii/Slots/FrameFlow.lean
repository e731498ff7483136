import Tomii.Foundations.Interleaving
import Tomii.Slots.FrameNumbers

/-! # Frames and packets on their way through the slots

The steps of resolution threads that decide which frame gets a slot and what becomes of its packets:
initial preparation, the poll with its admission window, parking and re-injection, completion,
release with promotion, restart and eviction (`packet_processing.rs`, `slot_lifecycle.rs`,
`slot_management.rs`, `resolution_loop.rs`). A packet in an active batch counts as dispatched: the
flush of the batch, which `--dispatch-chunk 1` makes follow each packet, is left out. -/
namespace Tomii.Slots
set_option autoImplicit false
set_option maxHeartbeats 250000

/-- `build` takes at most `max_frames` slots. A timeout of zero turns eviction off. -/
structure FlowConfig extends SlotConfig where
  hasInitialNodes : Bool
  hasIndexFunction : Bool
  framePackets : ℕ
  frameTimeoutMs : ℕ
  slots_le_maxFrames : slots ≤ maxFrames

/-- The length of `frame_dropped`. -/
def FlowConfig.trackable (cfg : FlowConfig) : ℕ := cfg.maxFrames + cfg.slots

/-- A decoded packet with its frame, and what the index function returns for it. -/
structure Packet where
  frame : ℕ
  index : ℕ
deriving DecidableEq, Repr

/-! ## The shared state -/

/-- What has happened. No step depends on it. -/
structure FlowLog where
  /-- Packets taken from the channel, and packets thrown away. -/
  received : List Packet
  lost : List Packet
  /-- Packets that were given a slot, and where they went. -/
  admitted : List (Packet × NodeInfo)
  batched : List NodeInfo
  drained : List NodeInfo
  /-- Frames whose drop bit was found clear for a packet that has no slot yet. -/
  cleared : List ℕ
  /-- Slots of packets that have one and are in no batch or buffer yet. -/
  carried : List ℕ
  /-- Frames that were given a slot. -/
  occupied : List ℕ
  /-- How many frames each slot has started, and for which of them initial nodes were dispatched. -/
  starts : ℕ → ℕ
  spawned : List (ℕ × ℕ)
  /-- Frames for which the completion counter was advanced, and slots whose eviction is claimed. -/
  counted : List ℕ
  evicting : List ℕ
  /-- On a compute-only graph: slots whose frame is counted and that are not released, and slots that
  are going to restart. A slot is in `snapshots` if there were none of these when the others were
  counted for it, and no completion has been counted since. -/
  unreleased : List ℕ
  restarting : List ℕ
  snapshots : List ℕ

/-- `pending` holds the parked packets in the order in which they were parked. The counters of a slot
can be at zero, so that its completion is claimed, once `rootsDispatched` and until it is
`claimed`. -/
structure Flow where
  table : SlotData
  prepDone : Bool
  frameCompleteCounter : ℕ
  frameDropped : ℕ → Bool
  pending : List Packet
  packetCounters : ℕ → ℕ
  packetComplete : ℕ → Bool
  rootsDispatched : ℕ → Bool
  claimed : List ℕ
  log : FlowLog

def FlowLog.initial : FlowLog :=
  ⟨[], [], [], [], [], [], [], [], fun _ => 0, [], [], [], [], [], []⟩

def Flow.initial : Flow :=
  ⟨.initial, false, 0, fun _ => false, [], fun _ => 0, fun _ => false, fun _ => false, [], .initial⟩

/-! ## Steps -/

/-- Who assigns a slot. -/
inductive Site where
  | packet
  | preparation
deriving DecidableEq

/-- Atomic operations and critical sections. `receive`, `batch` and `discard` touch nothing that is
shared: they tell where a packet is. -/
inductive FlowAct where
  | claimPreparation
  | loadCompleted
  | receive (p : Packet)
  | discard (p : Packet)
  | loadDropped (frame : ℕ)
  | recheckDropped (frame : ℕ)
  | lookup (frame : ℕ) (site : Site)
  | assignUnderLock (frame : ℕ) (site : Site)
  | bump (slot : ℕ)
  | dispatchInitial (slot : ℕ)
  | countPacket (slot : ℕ) (p : Packet)
  | isActive (slot : ℕ)
  | buffer (ni : NodeInfo)
  | batch (ni : NodeInfo)
  | checkFrameCompletion (slot : ℕ)
  | park (p : Packet)
  | swapDropped (frame : ℕ)
  | countDropped (frame : ℕ)
  | takePending (windowEnd : ℕ)
  | claimCompletion (slot : ℕ)
  | resetCounters (slot : ℕ)
  | countActive (slot : ℕ)
  | countCompletion (slot others : ℕ)
  | releaseUnderLock (slot : ℕ)
  | restartUnderLock (slot : ℕ)
  | loadStalled (slot : ℕ)
  | claimEviction (slot : ℕ)
  | loadFrameId (slot : ℕ)
deriving DecidableEq

@[reducible] def FlowAct.Reply : FlowAct → Type
  | .claimPreparation => Bool
  | .loadCompleted => ℕ
  | .loadDropped _ => Bool
  | .recheckDropped _ => Bool
  | .lookup _ _ => Option ℕ
  | .assignUnderLock _ _ => Option (ℕ × Bool)
  | .countPacket _ _ => NodeInfo
  | .isActive _ => Bool
  | .buffer _ => Bool
  | .park _ => Option ℕ
  | .swapDropped _ => Bool
  | .takePending _ => List Packet
  | .claimCompletion _ => Bool
  | .countActive _ => ℕ
  | .countCompletion _ _ => ℕ
  | .releaseUnderLock _ => Option (ℕ × List NodeInfo)
  | .loadStalled _ => Bool
  | .claimEviction _ => Bool
  | .loadFrameId _ => ℕ
  | _ => Unit

@[reducible] def flowSteps : Interface := ⟨FlowAct, FlowAct.Reply⟩

abbrev FlowThread (α : Type) : Type := Prog flowSteps α

abbrev FlowAct.perform (a : FlowAct) : FlowThread a.Reply := Prog.call (I := flowSteps) a

namespace Flow

variable (cfg : FlowConfig)

/-- `frame_dropped[frame].load()`; frames outside the bitmap count as not dropped. -/
def isDropped (frame : ℕ) (σ : Flow) : Bool :=
  decide (frame < cfg.trackable) && σ.frameDropped frame

/-- The slow path of `assign_frame_to_available_slot` up to the bump. On a compute-only graph the
caller dispatches the initial nodes of a buffering slot as well. -/
def assignUnderLock (frame : ℕ) (site : Site) (σ : Flow) : Option (ℕ × Bool) × Flow :=
  let fresh := decide (frame ∉ σ.table.runningFrames.map Prod.fst)
  match σ.table.assignUnderLock cfg.toSlotConfig frame with
  | (none, d) => (none, { σ with
      table := d
      log := { σ.log with
        cleared := if site = .packet then σ.log.cleared.erase frame else σ.log.cleared } })
  | (some (slot, newly), d) =>
    (some (slot, newly), { σ with
      table := d
      log := { σ.log with
        cleared := if site = .packet then σ.log.cleared.erase frame else σ.log.cleared
        carried := if site = .packet then slot :: σ.log.carried else σ.log.carried
        occupied := if fresh then frame :: σ.log.occupied else σ.log.occupied
        starts :=
          if newly || (fresh && !cfg.hasNetwork) then
            Function.update σ.log.starts slot (σ.log.starts slot + 1)
          else σ.log.starts } })

/-- The lock-free path: a hit gives the packet, and so its frame, a slot. -/
def lookup (frame : ℕ) (site : Site) (σ : Flow) : Option ℕ × Flow :=
  match σ.table.frameSlotLookup cfg.toSlotConfig frame with
  | none => (none, σ)
  | some slot =>
    (some slot,
      if site = .packet then
        { σ with log := { σ.log with
            cleared := σ.log.cleared.erase frame
            carried := slot :: σ.log.carried
            occupied :=
              if frame ∈ σ.log.occupied then σ.log.occupied else frame :: σ.log.occupied } }
      else σ)

/-- The end of `assign_packet_to_slot`: without an index function a packet's index is its number. -/
def countPacket (slot : ℕ) (p : Packet) (σ : Flow) : NodeInfo × Flow :=
  let index := if cfg.hasIndexFunction then p.index else σ.packetCounters slot
  (NodeInfo.new 0 slot index 0, { σ with
    packetCounters := Function.update σ.packetCounters slot (σ.packetCounters slot + 1)
    log := { σ.log with admitted := (p, NodeInfo.new 0 slot index 0) :: σ.log.admitted } })

/-- The buffering branch of `admit_packet`, under `states.read()`: `false` when the slot has been
promoted in between. -/
def buffer (ni : NodeInfo) (σ : Flow) : Bool × Flow :=
  if wordHas σ.table.activeBitmap ni.slot then (false, σ)
  else
    (true, { σ with
      table :=
        { σ.table with
          buffers := Function.update σ.table.buffers ni.slot (σ.table.buffers ni.slot ++ [ni]) }
      log := { σ.log with carried := σ.log.carried.erase ni.slot } })

/-- The highest frame among the parked packets and the incoming one. -/
def victimOf (pending : List Packet) (frame : ℕ) : ℕ :=
  pending.foldr (fun p most => max p.frame most) frame

/-- The section of `park_pending_packet` under the `pending_frames` lock. The reply is the frame
that `mark_frame_dropped` marks, if it was not marked before. -/
def park (p : Packet) (σ : Flow) : Option ℕ × Flow :=
  if cfg.framePackets * cfg.slots ≤ σ.pending.length then
    let victim := victimOf σ.pending p.frame
    let kept := σ.pending.filter fun q => q.frame ≠ victim
    let evicted := σ.pending.filter fun q => q.frame = victim
    (if victim < cfg.trackable ∧ σ.frameDropped victim = false then some victim else none,
      { σ with
        pending := if victim = p.frame then kept else kept ++ [p]
        frameDropped :=
          if victim < cfg.trackable then Function.update σ.frameDropped victim true
          else σ.frameDropped
        log := { σ.log with
          lost := (if victim = p.frame then [p] else []) ++ evicted ++ σ.log.lost } })
  else (none, { σ with pending := σ.pending ++ [p] })

/-- The swap of `mark_frame_dropped`. -/
def swapDropped (frame : ℕ) (σ : Flow) : Bool × Flow :=
  (σ.frameDropped frame,
    { σ with frameDropped := Function.update σ.frameDropped frame true })

/-- The parked packets of frames before `windowEnd`, by frame. -/
def takePending (windowEnd : ℕ) (σ : Flow) : List Packet × Flow :=
  ((σ.pending.filter fun p => p.frame < windowEnd).mergeSort fun p q => p.frame ≤ q.frame,
    { σ with pending := σ.pending.filter fun p => ¬ p.frame < windowEnd })

/-- What `check_slots` finds complete, and nobody has claimed. -/
def Claimable (slot : ℕ) (σ : Flow) : Prop :=
  slot ∈ σ.table.runningFrames.map Prod.snd ∧
    (cfg.slotPriorityEnabled = true → wordHas σ.table.activeBitmap slot = true) ∧
    (cfg.hasInitialNodes = true → σ.rootsDispatched slot = true) ∧ slot ∉ σ.claimed

instance (slot : ℕ) (σ : Flow) : Decidable (Claimable cfg slot σ) :=
  inferInstanceAs (Decidable (_ ∧ _))

/-- The stores of `reset_slot_state` after its bump: the slot's tasks are all to be done again. -/
def resetCounters (slot : ℕ) (σ : Flow) : Flow :=
  { σ with
    table := { σ.table with needsCheck := Function.update σ.table.needsCheck slot false }
    packetComplete := Function.update σ.packetComplete slot false
    packetCounters := Function.update σ.packetCounters slot 0
    rootsDispatched := Function.update σ.rootsDispatched slot false
    claimed := if slot ∈ σ.claimed then σ.claimed else slot :: σ.claimed }

/-- The count of the other slots in `process_slot_completion`. -/
def countActive (slot : ℕ) (σ : Flow) : ℕ × Flow :=
  (σ.table.currentlyActiveFrames cfg.toSlotConfig slot, { σ with
    log := { σ.log with
      snapshots :=
        if σ.log.unreleased = [] ∧ σ.log.restarting = [] then slot :: σ.log.snapshots
        else σ.log.snapshots.filter (· ≠ slot) } })

/-- `can_restart` -/
def canRestart (others : ℕ) (σ : Flow) : Bool :=
  decide (σ.frameCompleteCounter + 1 + others < cfg.maxFrames)

def countCompletion (slot others : ℕ) (σ : Flow) : ℕ × Flow :=
  (σ.frameCompleteCounter + 1, { σ with
    frameCompleteCounter := σ.frameCompleteCounter + 1
    log := { σ.log with
      counted := σ.table.frameId slot :: σ.log.counted
      unreleased := slot :: σ.log.unreleased
      restarting :=
        if canRestart cfg others σ then slot :: σ.log.restarting else σ.log.restarting
      snapshots := [] } })

def releaseUnderLock (slot : ℕ) (σ : Flow) : Option (ℕ × List NodeInfo) × Flow :=
  let log := { σ.log with
    unreleased := σ.log.unreleased.erase slot
    evicting := σ.log.evicting.erase slot }
  match σ.table.releaseUnderLock cfg.toSlotConfig slot with
  | (none, d) => (none, { σ with table := d, claimed := σ.claimed.erase slot, log := log })
  | (some (next, buffered), d) =>
    (some (next, buffered), { σ with
      table := d
      claimed := σ.claimed.erase slot
      log := { log with
        drained := buffered ++ σ.log.drained
        starts := Function.update σ.log.starts next (σ.log.starts next + 1) } })

def restartUnderLock (slot : ℕ) (σ : Flow) : Flow :=
  let nextFrameId := σ.frameCompleteCounter + σ.table.currentlyActive cfg.toSlotConfig
  { σ with
    table := σ.table.restartSlotNonnetwork cfg.toSlotConfig slot σ.frameCompleteCounter
    log := { σ.log with
      occupied := nextFrameId :: σ.log.occupied
      starts := Function.update σ.log.starts slot (σ.log.starts slot + 1)
      restarting := σ.log.restarting.erase slot } }

/-- What the loads of `try_evict_stalled_slots` see of a slot that has been silent for long. -/
def stalled (slot : ℕ) (σ : Flow) : Bool :=
  decide (0 < σ.packetCounters slot ∧ σ.packetCounters slot < cfg.framePackets)

def perform : (a : FlowAct) → Flow → a.Reply × Flow
  | .claimPreparation, σ => (!σ.prepDone, { σ with prepDone := true })
  | .loadCompleted, σ => (σ.frameCompleteCounter, σ)
  | .receive p, σ => ((), { σ with log := { σ.log with received := p :: σ.log.received } })
  | .discard p, σ => ((), { σ with log := { σ.log with lost := p :: σ.log.lost } })
  | .loadDropped frame, σ =>
    (isDropped cfg frame σ,
      if isDropped cfg frame σ then σ
      else { σ with log := { σ.log with cleared := frame :: σ.log.cleared } })
  | .recheckDropped frame, σ => (isDropped cfg frame σ, σ)
  | .lookup frame site, σ => lookup cfg frame site σ
  | .assignUnderLock frame site, σ => assignUnderLock cfg frame site σ
  | .bump slot, σ => ((), { σ with table := σ.table.bumpSlotGeneration slot })
  | .dispatchInitial slot, σ =>
    ((), { σ with
      rootsDispatched := Function.update σ.rootsDispatched slot true
      log := { σ.log with spawned := (slot, σ.log.starts slot) :: σ.log.spawned } })
  | .countPacket slot p, σ => countPacket cfg slot p σ
  | .isActive slot, σ => (wordHas σ.table.activeBitmap slot, σ)
  | .buffer ni, σ => buffer ni σ
  | .batch ni, σ =>
    ((), { σ with log := { σ.log with
      batched := ni :: σ.log.batched, carried := σ.log.carried.erase ni.slot } })
  | .checkFrameCompletion slot, σ =>
    ((), if σ.packetCounters slot = cfg.framePackets then
        { σ with packetComplete := Function.update σ.packetComplete slot true }
      else σ)
  | .park p, σ => park cfg p σ
  | .swapDropped frame, σ => swapDropped frame σ
  | .countDropped frame, σ =>
    ((), { σ with
      frameCompleteCounter := σ.frameCompleteCounter + 1
      log := { σ.log with counted := frame :: σ.log.counted } })
  | .takePending windowEnd, σ => takePending windowEnd σ
  | .claimCompletion slot, σ =>
    if Claimable cfg slot σ then (true, { σ with claimed := slot :: σ.claimed }) else (false, σ)
  | .resetCounters slot, σ => ((), resetCounters slot σ)
  | .countActive slot, σ => countActive cfg slot σ
  | .countCompletion slot others, σ => countCompletion cfg slot others σ
  | .releaseUnderLock slot, σ => releaseUnderLock cfg slot σ
  | .restartUnderLock slot, σ => ((), restartUnderLock cfg slot σ)
  | .loadStalled slot, σ => (stalled cfg slot σ, σ)
  | .claimEviction slot, σ =>
    (!σ.packetComplete slot, { σ with
      packetComplete := Function.update σ.packetComplete slot true
      log := { σ.log with
        evicting :=
          if σ.packetComplete slot then σ.log.evicting else slot :: σ.log.evicting } })
  | .loadFrameId slot, σ => (σ.table.frameId slot, σ)

/-! ## Programs -/

section Programs

/-- `initial_nodes` and their dispatch, if the graph has any. -/
def spawnInitial (slot : ℕ) : FlowThread Unit :=
  if cfg.hasInitialNodes then (FlowAct.dispatchInitial slot).perform else pure ()

def assignFrameToAvailableSlot (frame : ℕ) (site : Site) : FlowThread (Option (ℕ × Bool)) := do
  match ← (FlowAct.lookup frame site).perform with
  | some slot => pure (some (slot, false))
  | none =>
    match ← (FlowAct.assignUnderLock frame site).perform with
    | none => pure none
    | some (slot, true) => do
      (FlowAct.bump slot).perform
      pure (some (slot, true))
    | some (slot, false) => pure (some (slot, false))

inductive SlotAssignment where
  | assigned (ni : NodeInfo)
  | noSlotYet
  | dropped

def assignPacketToSlot (p : Packet) : FlowThread SlotAssignment := do
  let dropped ← (FlowAct.loadDropped p.frame).perform
  if dropped then pure .dropped
  else
    match ← assignFrameToAvailableSlot p.frame .packet with
    | none => pure .noSlotYet
    | some (slot, newly) => do
      if newly then spawnInitial cfg slot else pure ()
      let ni ← (FlowAct.countPacket slot p).perform
      pure (.assigned ni)

/-- `mark_frame_dropped`, for an evicted frame. -/
def markFrameDropped (frame : ℕ) : FlowThread Unit :=
  if cfg.trackable ≤ frame then pure ()
  else do
    let alreadyMarked ← (FlowAct.swapDropped frame).perform
    if alreadyMarked then pure () else (FlowAct.countDropped frame).perform

def parkPendingPacket (p : Packet) : FlowThread Unit :=
  if cfg.trackable ≤ p.frame then (FlowAct.discard p).perform
  else do
    let dropped ← (FlowAct.recheckDropped p.frame).perform
    if dropped then (FlowAct.discard p).perform
    else
      match ← (FlowAct.park p).perform with
      | none => pure ()
      | some victim => (FlowAct.countDropped victim).perform

/-- The active batch or the buffer of the slot. -/
def routePacket (ni : NodeInfo) : FlowThread Unit := do
  let active ← (FlowAct.isActive ni.slot).perform
  if active then (FlowAct.batch ni).perform
  else
    let buffered ← (FlowAct.buffer ni).perform
    if buffered then pure () else (FlowAct.batch ni).perform

def admitPacket (p : Packet) : FlowThread Unit := do
  match ← assignPacketToSlot cfg p with
  | .assigned ni => do
    routePacket ni
    (FlowAct.checkFrameCompletion ni.slot).perform
  | .noSlotYet => parkPendingPacket cfg p
  | .dropped => (FlowAct.discard p).perform

def admitPackets : List Packet → FlowThread Unit
  | [] => pure ()
  | p :: packets => do
    admitPacket cfg p
    admitPackets packets

def reinjectPendingFrames : FlowThread Unit := do
  let completed ← FlowAct.loadCompleted.perform
  let ready ← (FlowAct.takePending (completed + cfg.slots)).perform
  admitPackets cfg ready

/-- The fresh packets of a poll, each against the window as it is then. -/
def processPackets : List Packet → FlowThread Unit
  | [] => pure ()
  | p :: packets => do
    (FlowAct.receive p).perform
    let completed ← FlowAct.loadCompleted.perform
    if completed + cfg.slots ≤ p.frame then parkPendingPacket cfg p else admitPacket cfg p
    processPackets packets

/-- The load of `pending_count` that guards the re-injection is only a hint. -/
def pollAndProcessNetworkPackets (hint : Bool) (packets : List Packet) : FlowThread Unit := do
  if hint then reinjectPendingFrames cfg else pure ()
  processPackets cfg packets

/-- The promoted slot starts its frame; its buffered packets are resolved as one batch. -/
def releaseAndDispatchNext (slot : ℕ) : FlowThread Unit := do
  match ← (FlowAct.releaseUnderLock slot).perform with
  | none => pure ()
  | some (next, _) => do
    (FlowAct.bump next).perform
    spawnInitial cfg next

def restartSlotNonnetwork (slot : ℕ) : FlowThread Unit :=
  if cfg.hasNetwork then pure ()
  else do
    (FlowAct.restartUnderLock slot).perform
    spawnInitial cfg slot

def resetSlotState (slot : ℕ) : FlowThread Unit := do
  (FlowAct.bump slot).perform
  (FlowAct.resetCounters slot).perform

/-- One slot of `check_slots`. -/
def checkSlot (slot : ℕ) : FlowThread Unit := do
  let won ← (FlowAct.claimCompletion slot).perform
  if won then
    resetSlotState slot
    let others ← (FlowAct.countActive slot).perform
    let completed ← (FlowAct.countCompletion slot others).perform
    releaseAndDispatchNext cfg slot
    if completed + others < cfg.maxFrames then restartSlotNonnetwork cfg slot else pure ()
  else pure ()

/-- One slot of `try_evict_stalled_slots`. -/
def evictSlot (slot : ℕ) : FlowThread Unit :=
  if cfg.frameTimeoutMs = 0 then pure ()
  else do
    let stalled ← (FlowAct.loadStalled slot).perform
    if stalled then
      let won ← (FlowAct.claimEviction slot).perform
      if won then
        let frame ← (FlowAct.loadFrameId slot).perform
        markFrameDropped cfg frame
        resetSlotState slot
        releaseAndDispatchNext cfg slot
      else pure ()
    else pure ()

/-- The assignments of the initial preparation; one that finds no slot panics. -/
def assignFrames : List ℕ → FlowThread (List ℕ)
  | [] => pure []
  | frame :: frames => do
    match ← assignFrameToAvailableSlot frame .preparation with
    | none => .fail
    | some (slot, _) => do
      let slots ← assignFrames frames
      pure (slot :: slots)

def dispatchAll : List ℕ → FlowThread Unit
  | [] => pure ()
  | slot :: slots => do
    (FlowAct.dispatchInitial slot).perform
    dispatchAll slots

def performInitialPreparation : FlowThread Unit := do
  let first ← FlowAct.claimPreparation.perform
  if first && cfg.hasInitialNodes then
    let slots ← assignFrames (activateFrames cfg.toSlotConfig)
    dispatchAll slots
  else pure ()

end Programs

end Flow

/-- What resolution threads do. Only thread 0 prepares; the packets of a poll are those it took from
the channel. -/
inductive FlowJob where
  | prepare
  | poll (hint : Bool) (packets : List Packet)
  | check (slot : ℕ)
  | evict (slot : ℕ)

/-- Packets reach a run with a network only. -/
def flowMachine (cfg : FlowConfig) : Machine flowSteps Flow FlowJob where
  perform := fun _ a σ => Flow.perform cfg a σ
  program
    | .prepare => Flow.performInitialPreparation cfg
    | .poll hint packets =>
      if cfg.hasNetwork then Flow.pollAndProcessNetworkPackets cfg hint packets else pure ()
    | .check slot => Flow.checkSlot cfg slot
    | .evict slot => if cfg.hasNetwork then Flow.evictSlot cfg slot else pure ()

def flowWorld (threads : ℕ) : World flowSteps Flow :=
  ⟨.initial, List.replicate threads (.done ())⟩

/-- The turns of one thread. -/
def turns (thread n : ℕ) : List (Move FlowJob) := List.replicate n (.step thread 0)

namespace Flow

/-! ## Sections, field by field -/

section Sections

variable (cfg : FlowConfig) (frame slot : ℕ) (site : Site) (σ : Flow)

@[simp] theorem releaseUnderLock_table : (releaseUnderLock cfg slot σ).2.table =
    (σ.table.releaseUnderLock cfg.toSlotConfig slot).2 := by
  unfold releaseUnderLock
  split
  · next heq => rw [heq]
  · next heq => rw [heq]

/-- A release changes the table, the claims and the log. -/
theorem releaseUnderLock_eq : (releaseUnderLock cfg slot σ).2 =
    { σ with
      table := (σ.table.releaseUnderLock cfg.toSlotConfig slot).2
      claimed := σ.claimed.erase slot
      log := (releaseUnderLock cfg slot σ).2.log } := by
  unfold releaseUnderLock
  split
  · next heq => rw [heq]
  · next heq => rw [heq]

/-- Of the log a release changes the drained packets, the starts and what it has still to release. -/
theorem releaseUnderLock_log : (releaseUnderLock cfg slot σ).2.log =
    { σ.log with
      unreleased := σ.log.unreleased.erase slot
      evicting := σ.log.evicting.erase slot
      drained := (releaseUnderLock cfg slot σ).2.log.drained
      starts := (releaseUnderLock cfg slot σ).2.log.starts } := by
  unfold releaseUnderLock
  split
  · rfl
  · rfl

@[simp] theorem assignUnderLock_table : (assignUnderLock cfg frame site σ).2.table =
    (σ.table.assignUnderLock cfg.toSlotConfig frame).2 := by
  unfold assignUnderLock
  split
  · next heq => rw [heq]
  · next heq => rw [heq]

/-- An assignment changes the table and the log. -/
theorem assignUnderLock_eq : (assignUnderLock cfg frame site σ).2 =
    { σ with
      table := (σ.table.assignUnderLock cfg.toSlotConfig frame).2
      log := (assignUnderLock cfg frame site σ).2.log } := by
  unfold assignUnderLock
  split
  · next heq => rw [heq]
  · next heq => rw [heq]

/-- Of the log an assignment changes where its packet is, who was given a slot, and the starts. -/
theorem assignUnderLock_log : (assignUnderLock cfg frame site σ).2.log =
    { σ.log with
      cleared := (assignUnderLock cfg frame site σ).2.log.cleared
      carried := (assignUnderLock cfg frame site σ).2.log.carried
      occupied := (assignUnderLock cfg frame site σ).2.log.occupied
      starts := (assignUnderLock cfg frame site σ).2.log.starts } := by
  unfold assignUnderLock
  split
  · rfl
  · rfl

theorem assignUnderLock_reply : (assignUnderLock cfg frame site σ).1 =
    (σ.table.assignUnderLock cfg.toSlotConfig frame).1 := by
  unfold assignUnderLock
  dsimp only
  split
  · next heq => rw [heq]
  · next heq => rw [heq]

theorem assignUnderLock_cleared : (assignUnderLock cfg frame site σ).2.log.cleared =
    if site = .packet then σ.log.cleared.erase frame else σ.log.cleared := by
  unfold assignUnderLock
  dsimp only
  split
  · rfl
  · rfl

/-- A frame that was not running and is given a slot occupies it. -/
theorem assignUnderLock_occupied : (assignUnderLock cfg frame site σ).2.log.occupied =
    if (assignUnderLock cfg frame site σ).1 ≠ none ∧ frame ∉ σ.table.runningFrames.map Prod.fst then
      frame :: σ.log.occupied
    else σ.log.occupied := by
  unfold assignUnderLock
  dsimp only
  split
  · rfl
  · next slot newly d _ =>
    show (if decide (frame ∉ σ.table.runningFrames.map Prod.fst) = true then
        frame :: σ.log.occupied else σ.log.occupied) =
      if some (slot, newly) ≠ none ∧ frame ∉ σ.table.runningFrames.map Prod.fst then
        frame :: σ.log.occupied else σ.log.occupied
    by_cases hin : frame ∈ σ.table.runningFrames.map Prod.fst
    · rw [if_neg (by simpa using hin), if_neg fun h => h.2 hin]
    · rw [if_pos (decide_eq_true hin), if_pos ⟨Option.some_ne_none _, hin⟩]

/-- A lookup changes where its packet is and who was given a slot. -/
theorem lookup_eq : (lookup cfg frame site σ).2 =
    { σ with log := { σ.log with
        cleared := (lookup cfg frame site σ).2.log.cleared
        carried := (lookup cfg frame site σ).2.log.carried
        occupied := (lookup cfg frame site σ).2.log.occupied } } := by
  unfold lookup
  split
  · rfl
  · split
    · rfl
    · rfl

theorem buffer_eq (ni : NodeInfo) : (buffer ni σ).2 =
    { σ with
      table := { σ.table with buffers := (buffer ni σ).2.table.buffers }
      log := { σ.log with carried := (buffer ni σ).2.log.carried } } := by
  unfold buffer
  split
  · rfl
  · rfl

theorem park_eq (p : Packet) : (park cfg p σ).2 =
    { σ with
      pending := (park cfg p σ).2.pending
      frameDropped := (park cfg p σ).2.frameDropped
      log := { σ.log with lost := (park cfg p σ).2.log.lost } } := by
  unfold park
  split
  · rfl
  · rfl

end Sections

end Flow

/-! ## Counting steps -/

/-- The frame that a step counts. -/
def FlowAct.counts (σ : Flow) : FlowAct → Option ℕ
  | .countCompletion slot _ => some (σ.table.frameId slot)
  | .countDropped frame => some frame
  | _ => none

namespace Flow

variable (cfg : FlowConfig) (a : FlowAct) (σ : Flow)

/-- The counter and the frames counted change together. -/
theorem perform_counts :
    (perform cfg a σ).2.frameCompleteCounter =
        σ.frameCompleteCounter + (a.counts σ).toList.length ∧
      (perform cfg a σ).2.log.counted = (a.counts σ).toList ++ σ.log.counted := by
  cases a with
  | lookup frame site =>
    simp only [perform, lookup]
    split
    · exact ⟨rfl, rfl⟩
    · split <;> exact ⟨rfl, rfl⟩
  | assignUnderLock frame site =>
    simp only [perform]
    rw [assignUnderLock_eq, assignUnderLock_log]
    exact ⟨rfl, rfl⟩
  | releaseUnderLock slot =>
    simp only [perform]
    rw [releaseUnderLock_eq, releaseUnderLock_log]
    exact ⟨rfl, rfl⟩
  | park p =>
    simp only [perform, park]
    split <;> exact ⟨rfl, rfl⟩
  | buffer ni =>
    simp only [perform, buffer]
    split <;> exact ⟨rfl, rfl⟩
  | loadDropped frame =>
    simp only [perform]
    split <;> exact ⟨rfl, rfl⟩
  | checkFrameCompletion slot =>
    simp only [perform]
    split <;> exact ⟨rfl, rfl⟩
  | claimCompletion slot =>
    simp only [perform]
    split <;> exact ⟨rfl, rfl⟩
  | _ => exact ⟨rfl, rfl⟩

end Flow

end Tomii.Slots
