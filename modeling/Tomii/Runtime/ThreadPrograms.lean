import Tomii.Runtime.SharedSlots
import Tomii.Runtime.Coalesce

/-! # What the threads run

The resolution code as programs of atomic steps, in the order of the source: the counter calls
(`buffers/node_dep.rs`), both resolution paths, task execution, the drain of the batch queue,
completion detection and reset, and the frame starts and packets that feed them. Stored
results and telemetry are left out: a task whose `$res` arguments are spun for in the source may
run at once here, so the machine has every run of the code and more. -/
namespace Tomii
set_option autoImplicit false
set_option maxHeartbeats 250000

/-- The options of a run: those of resolution, and the sizes of batches. -/
structure Options where
  config : Config
  flushThreshold : ℕ
  targetSize : ℕ

namespace Threads

/-! ## Counter calls -/

section Calls

variable (t : Ticket) (gen : UInt32) (node : ℕ)

def sendEach : List ℕ → Thread (List ℕ)
  | [] => pure []
  | i :: is => do
    let fired ← atomic (.trySend t gen node i)
    let rest ← sendEach is
    pure (if fired then i :: rest else rest)

/-- The body of the loop `for g in g_start..g_end`. -/
def decreaseGroup (sh : EntryShape) (g count : ℕ) (specificSuccIdx : Option ℕ) :
    Thread (List ℕ) := do
  let (oldRemaining, newRemaining) ← atomic (.fetchDec t gen node g count)
  if sh.hasBarrier then
    if 0 < oldRemaining ∧ newRemaining = 0 then
      if sh.isCondition then sendEach t gen node (sh.groupRange g) else pure (sh.groupRange g)
    else pure []
  else
    match specificSuccIdx with
    | some specificIdx =>
      if specificIdx < sh.factor then sendEach t gen node [specificIdx] else pure []
    | none =>
      if newRemaining ≤ sh.groupSize * sh.depsPerInstance then
        sendEach t gen node ((sh.groupRange g).filter fun idx =>
          newRemaining ≤ sh.thresholdForInstanceInGroup (idx - g * sh.groupSize))
      else pure []

def decreaseGroups (sh : EntryShape) (count : ℕ) (specificSuccIdx : Option ℕ) :
    List ℕ → Thread (List ℕ)
  | [] => pure []
  | g :: gs => do
    let ready ← decreaseGroup t gen node sh g count specificSuccIdx
    let rest ← decreaseGroups sh count specificSuccIdx gs
    pure (ready ++ rest)

variable (c : Compiled)

/-- `NodeDepMap::decrease_and_get_ready_into` -/
def decreaseAndGetReadyInto (call : DepCall) : Thread (List ℕ) :=
  let sh := c.entry node
  if node < c.graph.nodes.length then
    match call.group with
    | some g =>
      if g < sh.numGroups then decreaseGroups t gen node sh call.count call.specific [g] else pure []
    | none => decreaseGroups t gen node sh call.count call.specific (List.range sh.numGroups)
  else pure []

def runCalls : List DepCall → Thread (List ℕ)
  | [] => pure []
  | call :: calls => do
    let ready ← decreaseAndGetReadyInto t gen node c call
    let rest ← runCalls calls
    pure (ready ++ rest)

end Calls

/-! ## Resolution -/

section Resolution

variable (c : Compiled) (cfg : Config) (t : Ticket) (gen : UInt32)

def decrementAndCollectReady (e : SuccEdge) : Thread (List ℕ) :=
  runCalls t gen e.succId c (e.calls t.info.index t.info.bulkCount)

/-- Count `ready` arrivals and dispatch the whole factor once all have arrived. -/
def arriveFanout (e : SuccEdge) (ready : List ℕ) : Thread (List NodeInfo) := do
  let newArrived ← atomic (.arriveFanout t gen e.succId ready)
  pure (if e.succFactor.toNat ≤ newArrived then
      fanoutTasks e.succId t.slot e.succFactor.toNat t.info.index cfg.workers gen
    else [])

/-- `send_to_scheduler`: each task with the task on whose behalf it goes out. -/
def sendToScheduler : List (Option Ticket × NodeInfo) → Thread Unit
  | [] => pure ()
  | (cause, ni) :: rest => do
    let st ← atomic (.loadGeneration ni.slot)
    atomic (.enqueue cause (.stamped ni st))
    sendToScheduler rest

def workerEdge (e : SuccEdge) : Thread (List NodeInfo) := do
  let ready ← decrementAndCollectReady c t gen e
  if cfg.fanoutBulkEligible e && !ready.isEmpty then arriveFanout cfg t gen e ready
  else
    pure (pushReadyChunked ready e.succId t.slot t.info.index cfg.workers cfg.coalesceBarriers)

def workerWalk : List SuccEdge → Thread (List NodeInfo)
  | [] => pure []
  | e :: es => do
    let sched ← workerEdge c cfg t gen e
    let rest ← workerWalk es
    pure (sched ++ rest)

/-- Inline continuation: the last ready successor stays with the worker. -/
def reserveInline (st : Stamp) (inline : Option NodeInfo) : Thread Unit :=
  match inline with
  | some ni => atomic (.reserve t (.stamped ni st))
  | none => pure ()

/-- `worker_resolve_successors` -/
def workerResolveSuccessors : Thread (Option Ticket) := do
  atomic (.enter t.slot)
  let current ← atomic (.loadGeneration t.slot)
  if current.gen ≠ t.info.gen then
    atomic (.leave t.slot)
    atomic (.setNeedsCheck t.slot true)
    pure none
  else
    atomic (.retire t true)
    let st ← atomic (.loadGeneration t.slot)
    let sched ← workerWalk c cfg t st.gen (c.edgesFor t.info.id)
    let inline := if cfg.inlineContinuation then sched.getLast? else none
    let rest := if cfg.inlineContinuation then sched.dropLast else sched
    reserveInline t st inline
    sendToScheduler (rest.map (some t, ·))
    atomic (.leave t.slot)
    atomic (.setNeedsCheck t.slot true)
    pure (inline.map (Ticket.stamped · st))

end Resolution

/-! ## Task execution -/

section Execution

variable (c : Compiled) (cfg : Config) (t : Ticket)

/-- The per-cell loop of `execute_bulk_task`; it says whether a cell found its slot recycled. -/
def runCells : List ℕ → Thread Bool
  | [] => pure false
  | idx :: rest => do
    let stale ← atomic (.fetchArgs t idx)
    if stale then pure true
    else
      atomic (.runKernel t idx)
      runCells rest

/-- `execute_bulk_task` -/
def executeBulkTask : Thread (Option Ticket) := do
  let bulkStale ← runCells t t.info.instances
  if bulkStale then pure none else workerResolveSuccessors c cfg t

/-- `execute_single_task` -/
def executeSingleTask : Thread (Option Ticket) := do
  let stale ← atomic (.fetchArgs t t.info.index)
  if stale then pure none
  else
    atomic (.runKernel t t.info.index)
    if c.workerResolvable t.info.id then workerResolveSuccessors c cfg t
    else
      atomic (.submit t)
      pure none

/-- `execute_task` -/
def executeTask : Thread (Option Ticket) := do
  let current ← atomic (.loadGeneration t.slot)
  if current.gen ≠ t.info.gen then pure none
  else if 1 < t.info.bulkCount then executeBulkTask c cfg t
  else executeSingleTask c cfg t

/-- A worker takes a task. An inline continuation is put back for a next turn, where this
worker may take it as `run_node_desc` does. -/
def work : Thread Unit := do
  match ← atomic .takeTask with
  | none => pure ()
  | some t =>
    match ← executeTask c cfg t with
    | none => pure ()
    | some next => atomic (.resume next)

end Execution

/-! ## Batch resolution -/

section Batch

variable (c : Compiled)

/-- What `dispatch_condition_successor` evaluates; a row past the end panics. -/
def evaluatedParts (id : ℕ) : Option (List CondPart) :=
  if c.nodeCondition id then some [.node]
  else c.conditionIndexes[c.condIndex id]?.map fun positions => positions.map .arg

variable (t : Ticket) (gen : UInt32)

/-- `dispatch_condition_successor` -/
def dispatchConditionSuccessor (task : NodeInfo) : Thread (List NodeInfo) :=
  match evaluatedParts c task.id with
  | none => .fail
  | some parts => do
    let passed ← atomic (.evaluate t task parts)
    if passed then
      atomic (.spawnOne t gen task.id)
      pure [task]
    else
      atomic (.discharge t task)
      atomic (.incrementDependency t gen task)
      atomic (.resetSent t gen task)
      pure []

def dispatchEach : List NodeInfo → Thread (List NodeInfo)
  | [] => pure []
  | task :: tasks => do
    let out ← dispatchConditionSuccessor c t gen task
    let outs ← dispatchEach tasks
    pure (out ++ outs)

/-- A successor with a condition is skipped once all its instances have been spawned. -/
def spawnsLeft (e : SuccEdge) : Thread Bool :=
  if e.hasCondition then do
    let remaining ← atomic (.remainingSpawns t gen e.succId)
    pure (remaining ≠ 0)
  else pure true

variable (cfg : Config)

def batchEdge (e : SuccEdge) : Thread (List NodeInfo) :=
  if !e.passesFilter t.info.index then pure []
  else do
    let left ← spawnsLeft t gen e
    if !left then pure []
    else
      let ready ← decrementAndCollectReady c t gen e
      if !e.hasCondition && cfg.fanoutBulkEligible e && !ready.isEmpty then
        arriveFanout cfg t gen e ready
      else
        let tasks := ready.map fun idx => NodeInfo.new e.succId t.slot idx t.info.index
        if e.hasCondition then dispatchEach c t gen tasks else pure tasks

def batchWalk : List SuccEdge → Thread (List NodeInfo)
  | [] => pure []
  | e :: es => do
    let sched ← batchEdge c t gen cfg e
    let rest ← batchWalk es
    pure (sched ++ rest)

end Batch

section BatchLoop

variable (c : Compiled) (opts : Options)

/-- `process_batch_inner`; `batchSched` waits for the flush threshold. -/
def processBatchInner : List Ticket → List (Option Ticket × NodeInfo) → Thread Unit
  | [], batchSched => sendToScheduler batchSched
  | t :: batch, batchSched => do
    atomic (.retire t false)
    let st ← atomic (.loadGeneration t.slot)
    let sched ← batchWalk c t st.gen opts.config (c.edgesFor t.info.id)
    let batchSched := batchSched ++ sched.map (some t, ·)
    if opts.flushThreshold ≤ batchSched.length then
      sendToScheduler batchSched
      processBatchInner batch []
    else processBatchInner batch batchSched

def enterAll : List ℕ → Thread Unit
  | [] => pure ()
  | slot :: slots => do
    atomic (.enter slot)
    enterAll slots

def leaveAll : List ℕ → Thread Unit
  | [] => pure ()
  | slot :: slots => do
    atomic (.leave slot)
    atomic (.setNeedsCheck slot true)
    leaveAll slots

/-- The slots of a batch, each once. -/
def slotsInBatch (batch : List Ticket) : List ℕ := (batch.map Ticket.slot).dedup

/-- `process_batch_resolution` -/
def processBatchResolution (batch : List Ticket) : Thread Unit :=
  if batch.isEmpty then pure ()
  else do
    enterAll (slotsInBatch batch)
    processBatchInner c opts batch []
    leaveAll (slotsInBatch batch)

def takeBatchUpTo : ℕ → Thread (List Ticket)
  | 0 => pure []
  | n + 1 => do
    match ← atomic .takeBatch with
    | none => pure []
    | some t =>
      let rest ← takeBatchUpTo n
      pure (t :: rest)

/-- `gen_cache`: the generation of each slot, loaded once. -/
def loadGenerations : List ℕ → Thread (List (ℕ × UInt32))
  | [] => pure []
  | slot :: slots => do
    let st ← atomic (.loadGeneration slot)
    let rest ← loadGenerations slots
    pure ((slot, st.gen) :: rest)

/-- `drain_and_process_batch_queue` -/
def drainAndProcessBatchQueue : Thread Unit := do
  let batch ← takeBatchUpTo opts.targetSize
  let genCache ← loadGenerations (slotsInBatch batch)
  processBatchResolution c opts (batch.filter fun t => (t.slot, t.info.gen) ∈ genCache)

end BatchLoop

/-! ## Completion and reset -/

/-- `detect_and_claim_slot_completion` -/
def detectAndClaimSlotCompletion (slot : ℕ) : Thread Bool := do
  let pendingRegular ← atomic (.load .pendingTasks slot)
  let pendingCond ← atomic (.load .pendingCondTasks slot)
  let processingCount ← atomic (.load .processingCount slot)
  if pendingRegular ≠ 0 ∨ pendingCond ≠ 0 ∨ processingCount ≠ 0 then pure false
  else
    let won ← atomic (.tryCompleteSlot slot)
    if !won then pure false
    else
      -- the counters may belong to a later frame than the first three loads saw
      let rePending ← atomic (.load .pendingTasks slot)
      let reCond ← atomic (.load .pendingCondTasks slot)
      let reProc ← atomic (.load .processingCount slot)
      if rePending ≠ 0 ∨ reCond ≠ 0 ∨ reProc ≠ 0 then
        atomic (.unmarkSlotCompleted slot)
        pure false
      else pure true

/-- `reset_slot_state` -/
def resetSlotState (slot : ℕ) : Thread Unit := do
  atomic (.bumpSlotGeneration slot true)
  atomic (.storePendingTasks slot)
  atomic (.storePendingCondTasks slot)
  atomic (.setNeedsCheck slot false)
  atomic (.unmarkSlotCompleted slot)

/-- One slot of `check_slots`. -/
def checkSlot (slot : ℕ) : Thread Unit := do
  let dirty ← atomic (.swapNeedsCheck slot)
  if dirty then
    let claimed ← detectAndClaimSlotCompletion slot
    if claimed then
      resetSlotState slot
      atomic (.release slot)

/-- `check_slots` -/
def checkSlots : List ℕ → Thread Unit
  | [] => pure ()
  | slot :: slots => do
    checkSlot slot
    checkSlots slots

/-! ## Frames and packets -/

/-- `assign_frame_to_available_slot` and the promotion of `release_and_activate_next`: the
slot is visible as active before its generation is bumped. -/
def activateSlot (slot : ℕ) : Thread Unit := do
  let newly ← atomic (.activate slot)
  if newly then
    atomic (.setNeedsCheck slot true)
    atomic (.bumpSlotGeneration slot false)

/-- `restart_slot_nonnetwork`, up to its initial nodes. -/
def restartSlot (slot : ℕ) : Thread Unit := do
  let _ ← atomic (.activate slot)
  pure ()

section Frames

variable (c : Compiled) (opts : Options)

/-- The dispatch of `initial_nodes`. -/
def spawnInitial (slots : List ℕ) : Thread Unit :=
  sendToScheduler ((slots.flatMap fun s => initialNodes c s opts.config.workers).map (none, ·))

/-- The packets of active slots; others go to the buffers of their slots. -/
def admitPackets : List (ℕ × ℕ) → Thread (List NodeInfo)
  | [] => pure []
  | (slot, index) :: rest => do
    let active ← atomic (.isActive slot)
    let batch ← admitPackets rest
    pure (if active then NodeInfo.new 0 slot index 0 :: batch else batch)

/-- The entries of `coalesce_network_batch`, whose payloads are not followed here. -/
def coalescedEntries (batch : List NodeInfo) : List NodeInfo :=
  let entries : List (NodeInfo × Option Unit) := batch.map (·, none)
  if c.coalesceBails entries then batch
  else ((Compiled.packetRuns entries).flatMap Compiled.coalesceRun).map (·.1)

def deliverAll : List NodeInfo → Thread (List Ticket)
  | [] => pure []
  | ni :: rest => do
    let t ← atomic (.deliver ni)
    let ts ← deliverAll rest
    pure (t :: ts)

/-- A drain of the packet channel. -/
def processPackets (packets : List (ℕ × ℕ)) : Thread Unit := do
  let batch ← admitPackets packets
  let entries ← deliverAll (coalescedEntries c batch)
  processBatchResolution c opts entries

/-- The packets that waited for the promotion of their slot. -/
def processBuffered (packets : List (ℕ × ℕ)) : Thread Unit := do
  let entries ← deliverAll (packets.map fun p => NodeInfo.new 0 p.1 p.2 0)
  processBatchResolution c opts entries

end Frames

end Threads

/-! ## The machine -/

/-- What an idle thread may turn to. -/
inductive Job where
  | work
  | drain
  | check (slots : List ℕ)
  | activate (slot : ℕ)
  | restart (slot : ℕ)
  | spawnInitial (slots : List ℕ)
  | packets (ps : List (ℕ × ℕ))
  | buffered (ps : List (ℕ × ℕ))

namespace Job

def program (c : Compiled) (opts : Options) : Job → Thread Unit
  | .work => Threads.work c opts.config
  | .drain => Threads.drainAndProcessBatchQueue c opts
  | .check slots => Threads.checkSlots slots
  | .activate slot => Threads.activateSlot slot
  | .restart slot => Threads.restartSlot slot
  | .spawnInitial slots => Threads.spawnInitial c opts slots
  | .packets ps => Threads.processPackets c opts ps
  | .buffered ps => Threads.processBuffered c opts ps

end Job

/-- No thread waits for a result in it; what holds along its runs holds along those of the code, and
a run that is to be one of the code's has no task run before the results it reads. -/
def runtimeMachine (c : Compiled) (opts : Options) : Machine atomics Shared Job where
  perform := Shared.perform c
  program := Job.program c opts

/-- A slot as the builder allocates it. -/
def Slot.initial (c : Compiled) : Slot where
  cells := LazySlot.initial c.layout
  pendingTasks := UInt64.ofNat (c.totalOf false)
  pendingCondTasks := UInt64.ofNat (c.totalOf true)
  processingCount := 0
  needsCheck := false
  completed := false
  active := false
  epoch := 0
  resetting := false

def Ledger.empty : Ledger := ⟨[], [], [], [], [], [], []⟩

def Shared.initial (c : Compiled) : Shared := ⟨fun _ => Slot.initial c, [], [], Ledger.empty⟩

/-- Every thread of a run idle. The number of threads is a machine word. -/
def World.initial (c : Compiled) (threads : UInt64) : World atomics Shared :=
  ⟨Shared.initial c, List.replicate threads.toNat (.done ())⟩

end Tomii
