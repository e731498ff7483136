import Tomii.Timing.FrameLog
import Tomii.Runtime.ThreadPrograms

/-! # What the threads send to the time buffer

The programs of the threads with their telemetry: workers record each kernel before they resolve
its successors, resolution threads start and finish slots, and `try_evict_stalled_slots`
takes a slot away without an end. Code without telemetry is the code of the threads as it is. The
frames, and the mark of an eviction under way, are on record only; no program reads them but the
number of the frame that is finished. -/
namespace Tomii.Timing
set_option autoImplicit false
set_option maxHeartbeats 250000

/-- The options of a run with timing. -/
structure TimedOptions where
  options : Options
  /-- The slots of the time buffer. -/
  slots : ℕ
  baseTime : ℕ
  framePackets : ℕ
  frameTimeoutMs : ℕ
  nodeName : ℕ → Text
  /-- `bulk_func.is_some() && !needs_result_store` -/
  bulkFastPath : ℕ → Bool

/-! ## State -/

structure Timed where
  shared : Shared
  packetCounters : ℕ → ℕ
  packetComplete : ℕ → Bool
  /-- The requests in the order of the channel, with their frames. -/
  log : List Entry
  /-- The number of the frame to which an epoch of a slot belongs. -/
  frames : ℕ → ℕ → ℕ
  /-- From the swap that an eviction wins to the end of its reset. -/
  evicting : ℕ → Bool

namespace Timed

variable (s : Timed)

/-- The frame that has the slot. -/
def frameOn (slot : ℕ) : ℕ := s.frames slot (s.shared.slots slot).epoch

def send (e : Entry) : Timed := { s with log := s.log ++ [e] }

end Timed

/-- The bump of an eviction. The instances that wait at a fanout-bulk counter go with their frame. -/
def bumpEvicted (c : Compiled) (σ : Shared) (slot : ℕ) : Shared :=
  let σ' := σ.bumpSlotGeneration c slot true
  σ'.setLedger { σ'.ledger with
    released := σ.ledger.released.filter fun x => ¬ (x.slot = slot ∧ x ∈ σ.ledger.arrived) }

/-! ## Actions -/

inductive TimingAct where
  | recordTiming (t : Ticket) (workerId : ℕ)
  | startSlotProcessing (slot : ℕ)
  | finishSlotProcessing (slot frame : ℕ)
  | frameId (slot : ℕ)
  | receivePacket (slot : ℕ)
  | loadPackets (slot : ℕ)
  | isIdle (slot : ℕ)
  | swapPacketComplete (slot : ℕ) (evict : Bool)
  | clearPacketComplete (slot : ℕ)
  | clearPackets (slot : ℕ)
deriving DecidableEq

@[reducible] def TimingAct.Reply : TimingAct → Type
  | .frameId _ => ℕ
  | .loadPackets _ => ℕ
  | .isIdle _ => Bool
  | .swapPacketComplete _ _ => Bool
  | _ => Unit

@[reducible] def timingSteps : Interface := ⟨TimingAct, TimingAct.Reply⟩

@[reducible] def timedAtomics : Interface := atomics.sum timingSteps

abbrev TimedThread (α : Type) : Type := Prog timedAtomics α

def run (a : Act) : TimedThread a.Reply := .act (.inl a) .done

def note (b : TimingAct) : TimedThread b.Reply := .act (.inr b) .done

namespace Timed

variable (c : Compiled) (cfg : TimedOptions) (s : Timed)

/-- A step of resolution: a reset opens the next frame of its slot, and an eviction ends with the
unmark. -/
def perform (choice : ℕ) (a : Act) : Timed :=
  match a with
  | .bumpSlotGeneration slot reset =>
    let evicted := reset && s.evicting slot
    { s with
      shared := if evicted then bumpEvicted c s.shared slot else s.shared.bumpSlotGeneration c slot reset
      frames := Function.update s.frames slot (Function.update (s.frames slot)
        ((s.shared.slots slot).epoch + 1) (if reset then s.frameOn slot + 1 else s.frameOn slot))
      log := if evicted then s.log ++ [.drop slot (s.frameOn slot)] else s.log }
  | .unmarkSlotCompleted slot => { s with
      shared := (s.shared.perform c choice (.unmarkSlotCompleted slot)).2
      evicting := Function.update s.evicting slot false }
  | a => { s with shared := (s.shared.perform c choice a).2 }

/-- `choice` is what the clock shows: a duration, a time, or that no packet came for too long. -/
def performTiming (choice : ℕ) : (b : TimingAct) → Timed → b.Reply × Timed
  | .recordTiming t workerId, s =>
    ((), s.send (.timing t.slot (s.frames t.slot t.epoch) (cfg.nodeName t.info.id) workerId choice))
  | .startSlotProcessing slot, s => ((), s.send (.start slot choice))
  | .finishSlotProcessing slot frame, s => ((), s.send (.finish slot frame choice))
  | .frameId slot, s => (s.frameOn slot, s)
  | .receivePacket slot, s =>
    ((), { s with packetCounters := Function.update s.packetCounters slot (s.packetCounters slot + 1) })
  | .loadPackets slot, s => (s.packetCounters slot, s)
  | .isIdle _, s => (choice = 1, s)
  | .swapPacketComplete slot evict, s =>
    (s.packetComplete slot, { s with
      packetComplete := Function.update s.packetComplete slot true
      evicting := if evict && !s.packetComplete slot then Function.update s.evicting slot true
        else s.evicting })
  | .clearPacketComplete slot, s =>
    ((), { s with packetComplete := Function.update s.packetComplete slot false })
  | .clearPackets slot, s =>
    ((), { s with packetCounters := Function.update s.packetCounters slot 0 })

end Timed

/-! ## Workers -/

section Workers

variable (c : Compiled) (cfg : TimedOptions) (workerId : ℕ) (t : Ticket)

/-- The per-cell loop of `execute_bulk_task`. -/
def runCells : List ℕ → TimedThread Bool
  | [] => pure false
  | idx :: rest => do
    let stale ← run (.fetchArgs t idx)
    if stale then pure true
    else
      run (.runKernel t idx)
      note (.recordTiming t workerId)
      runCells rest

/-- One call of the bulk kernel for the whole range; it is not recorded. -/
def runBulkKernel : List ℕ → TimedThread Unit
  | [] => pure ()
  | idx :: rest => do
    run (.runKernel t idx)
    runBulkKernel rest

/-- `execute_bulk_task` -/
def executeBulkTask : TimedThread (Option Ticket) :=
  if cfg.bulkFastPath t.info.id then do
    runBulkKernel t t.info.instances
    (Threads.workerResolveSuccessors c cfg.options.config t).left
  else do
    let bulkStale ← runCells workerId t t.info.instances
    if bulkStale then pure none
    else (Threads.workerResolveSuccessors c cfg.options.config t).left

/-- `execute_single_task`: the timing is sent before anything is resolved or submitted. -/
def executeSingleTask : TimedThread (Option Ticket) := do
  let stale ← run (.fetchArgs t t.info.index)
  if stale then pure none
  else
    run (.runKernel t t.info.index)
    note (.recordTiming t workerId)
    if c.workerResolvable t.info.id then
      (Threads.workerResolveSuccessors c cfg.options.config t).left
    else
      run (.submit t)
      pure none

/-- `execute_task` -/
def executeTask : TimedThread (Option Ticket) := do
  let current ← run (.loadGeneration t.slot)
  if current.gen ≠ t.info.gen then pure none
  else if 1 < t.info.bulkCount then executeBulkTask c cfg workerId t
  else executeSingleTask c cfg workerId t

def work : TimedThread Unit := do
  match ← run .takeTask with
  | none => pure ()
  | some t =>
    match ← executeTask c cfg workerId t with
    | none => pure ()
    | some next => run (.resume next)

end Workers

/-! ## Ends of frames -/

/-- `reset_slot_state` -/
def resetSlotState (slot : ℕ) : TimedThread Unit := do
  run (.bumpSlotGeneration slot true)
  note (.clearPacketComplete slot)
  note (.clearPackets slot)
  run (.storePendingTasks slot)
  run (.storePendingCondTasks slot)
  run (.setNeedsCheck slot false)
  run (.unmarkSlotCompleted slot)

/-- One slot of `check_slots`. The end is sent by `process_slot_completion`, after the reset and
before the release. -/
def checkSlot (slot : ℕ) : TimedThread Unit := do
  let dirty ← run (.swapNeedsCheck slot)
  if dirty then
    let claimed ← (Threads.detectAndClaimSlotCompletion slot).left
    if claimed then
      let frame ← note (.frameId slot)
      resetSlotState slot
      note (.finishSlotProcessing slot frame)
      run (.release slot)

def checkEach : List ℕ → TimedThread Unit
  | [] => pure ()
  | slot :: slots => do
    checkSlot slot
    checkEach slots

section Evictions

variable (cfg : TimedOptions)

/-- One slot of `try_evict_stalled_slots`. No end is sent. -/
def evictSlot (slot : ℕ) : TimedThread Unit := do
  let received ← note (.loadPackets slot)
  if received = 0 ∨ cfg.framePackets ≤ received then pure ()
  else
    let idle ← note (.isIdle slot)
    if !idle then pure ()
    else
      let processing ← run (.load .processingCount slot)
      if processing ≠ 0 then pure ()
      else
        let already ← note (.swapPacketComplete slot true)
        if already then pure ()
        else
          resetSlotState slot
          run (.release slot)

/-- `try_evict_stalled_slots` -/
def tryEvictStalledSlots : List ℕ → TimedThread Unit
  | [] => pure ()
  | slot :: slots => do
    evictSlot cfg slot
    tryEvictStalledSlots slots

/-- `check_slots` -/
def checkSlots (slots : List ℕ) : TimedThread Unit :=
  if cfg.frameTimeoutMs = 0 ∨ cfg.framePackets = 0 then checkEach slots
  else do
    tryEvictStalledSlots cfg slots
    checkEach slots

end Evictions

/-! ## Starts of frames, and packets -/

/-- A slot becomes active, by assignment or by promotion. -/
def activateSlot (slot : ℕ) : TimedThread Unit := do
  let newly ← run (.activate slot)
  if newly then
    run (.setNeedsCheck slot true)
    run (.bumpSlotGeneration slot false)
    note (.startSlotProcessing slot)

section Frames

variable (c : Compiled) (cfg : TimedOptions)

/-- `restart_slot_nonnetwork` -/
def restartSlot (slot : ℕ) : TimedThread Unit := do
  (Threads.restartSlot slot).left
  note (.startSlotProcessing slot)
  (Threads.spawnInitial c cfg.options [slot]).left

/-- `check_frame_completion`; only its mark is followed here. -/
def checkFrameCompletion (slot : ℕ) : TimedThread Unit := do
  let packetCount ← note (.loadPackets slot)
  if packetCount ≠ cfg.framePackets then pure ()
  else
    let _ ← note (.swapPacketComplete slot false)
    pure ()

/-- `admit_packet` for packets whose slot is known: those of active slots make up the batch. -/
def admitPackets : List (ℕ × ℕ) → TimedThread (List NodeInfo)
  | [] => pure []
  | (slot, index) :: rest => do
    note (.receivePacket slot)
    let active ← run (.isActive slot)
    checkFrameCompletion cfg slot
    let batch ← admitPackets rest
    pure (if active then NodeInfo.new 0 slot index 0 :: batch else batch)

def processPackets (packets : List (ℕ × ℕ)) : TimedThread Unit := do
  let batch ← admitPackets cfg packets
  (Threads.deliverAll (Threads.coalescedEntries c batch) >>=
    Threads.processBatchResolution c cfg.options).left

end Frames

/-! ## The machine -/

/-- What an idle thread may turn to. -/
inductive TimedJob where
  | work (workerId : ℕ)
  | drain
  | check (slots : List ℕ)
  | activate (slot : ℕ)
  /-- A slot that is assigned while it has to wait for its promotion. -/
  | buffer (slot : ℕ)
  | restart (slot : ℕ)
  | spawnInitial (slots : List ℕ)
  | packets (ps : List (ℕ × ℕ))
  | buffered (ps : List (ℕ × ℕ))

def TimedJob.program (c : Compiled) (cfg : TimedOptions) : TimedJob → TimedThread Unit
  | .work workerId => Timing.work c cfg workerId
  | .drain => (Threads.drainAndProcessBatchQueue c cfg.options).left
  | .check slots => checkSlots cfg slots
  | .activate slot => activateSlot slot
  | .buffer slot => note (.startSlotProcessing slot)
  | .restart slot => restartSlot c cfg slot
  | .spawnInitial slots => (Threads.spawnInitial c cfg.options slots).left
  | .packets ps => processPackets c cfg ps
  | .buffered ps => (Threads.processBuffered c cfg.options ps).left

def timedMachine (c : Compiled) (cfg : TimedOptions) : Machine timedAtomics Timed TimedJob where
  perform := fun choice a s =>
    match a with
    | .inl a => ((s.shared.perform c choice a).1, s.perform c choice a)
    | .inr b => Timed.performTiming cfg choice b s
  program := TimedJob.program c cfg

def Timed.initial (c : Compiled) : Timed where
  shared := Shared.initial c
  packetCounters := fun _ => 0
  packetComplete := fun _ => false
  log := []
  frames := fun _ _ => 0
  evicting := fun _ => false

/-- Every thread of a run idle. -/
def timedWorld (c : Compiled) (threads : UInt64) : World timedAtomics Timed :=
  ⟨Timed.initial c, List.replicate threads.toNat (.done ())⟩

end Tomii.Timing
