import Tomii.Foundations.Texts
import Mathlib.Logic.Function.Basic

/-! # The time buffer (`time_buffer/buffer.rs`)

Timings, starts and ends of slots come as requests from all threads, and one controller serves them in
the order in which they were sent. A timing is kept with its slot until the slot is finished; neither
a start nor a request says which frame it is about. -/
namespace Tomii.Timing
set_option autoImplicit false
set_option maxHeartbeats 250000

/-! ## Statistics of a slot -/

/-- Worker and duration of each measurement of a task, task by task. -/
abbrev TaskTimes : Type := Text → List (ℕ × ℕ)

namespace TaskTimes

def empty : TaskTimes := fun _ => []

/-- `entry(task_name).or_default().push((worker_id, duration))` -/
def add (times : TaskTimes) (taskName : Text) (workerId duration : ℕ) : TaskTimes :=
  Function.update times taskName (times taskName ++ [(workerId, duration)])

end TaskTimes

/-- What is reported about one frame. Times are in nanoseconds or cycles, by one method for the whole run. -/
structure SlotStats where
  taskTimes : TaskTimes
  totalTime : ℕ
  slotId : ℕ
  frameCount : ℕ
  startOffset : ℕ
  endOffset : ℕ

/-- The requests that the runtime sends. -/
inductive TimingRequest where
  | addTaskTime (slotId : ℕ) (taskName : Text) (workerId duration : ℕ)
  | startSlotProcessing (slotId startTime : ℕ)
  | finishSlotProcessing (slotId endTime : ℕ)
deriving DecidableEq

structure TimeBuffer where
  slots : ℕ
  slotStartTimes : ℕ → Option ℕ
  currentSlotTasks : ℕ → TaskTimes
  slotStatistics : ℕ → List SlotStats
  baseTime : ℕ

namespace TimeBuffer

def new (slots baseTime : ℕ) : TimeBuffer where
  slots := slots
  slotStartTimes := fun _ => none
  currentSlotTasks := fun _ => .empty
  slotStatistics := fun _ => []
  baseTime := baseTime

variable (tb : TimeBuffer)

def addTaskTime (slotId : ℕ) (taskName : Text) (workerId duration : ℕ) : Option TimeBuffer :=
  if tb.slots ≤ slotId then none
  else
    some { tb with
      currentSlotTasks := Function.update tb.currentSlotTasks slotId
        ((tb.currentSlotTasks slotId).add taskName workerId duration) }

/-- Timings from before the start are preserved. -/
def startSlotProcessingWithTime (slotId startTime : ℕ) : Option TimeBuffer :=
  if tb.slots ≤ slotId then none
  else some { tb with slotStartTimes := Function.update tb.slotStartTimes slotId (some startTime) }

/-- The task times are copied entry by entry into the new statistics. A slot that was not started
panics. -/
def finishSlotProcessingWithTime (slotId endTime : ℕ) : Option (SlotStats × TimeBuffer) :=
  if tb.slots ≤ slotId then none
  else
    (tb.slotStartTimes slotId).map fun startTime =>
      let slotStats : SlotStats := {
        taskTimes := tb.currentSlotTasks slotId
        totalTime := endTime - startTime
        slotId := slotId
        frameCount := (tb.slotStatistics slotId).length
        startOffset := startTime - tb.baseTime
        endOffset := endTime - tb.baseTime }
      (slotStats, { tb with
        slotStartTimes := Function.update tb.slotStartTimes slotId none
        currentSlotTasks := Function.update tb.currentSlotTasks slotId .empty
        slotStatistics := Function.update tb.slotStatistics slotId
          (tb.slotStatistics slotId ++ [slotStats]) })

/-- One turn of the controller. -/
def handle : TimingRequest → TimeBuffer → Option TimeBuffer
  | .addTaskTime slotId taskName workerId duration, tb =>
    tb.addTaskTime slotId taskName workerId duration
  | .startSlotProcessing slotId startTime, tb => tb.startSlotProcessingWithTime slotId startTime
  | .finishSlotProcessing slotId endTime, tb =>
    (tb.finishSlotProcessingWithTime slotId endTime).map (·.2)

/-- The controller after some requests, if none of them has made it panic. -/
def serve : List TimingRequest → TimeBuffer → Option TimeBuffer
  | [], tb => some tb
  | request :: requests, tb => (tb.handle request).bind (serve requests)

theorem serve_append (requests requests' : List TimingRequest) :
    serve (requests ++ requests') tb = (serve requests tb).bind (serve requests') := by
  induction requests generalizing tb with
  | nil => rfl
  | cons request requests ih =>
    simp only [List.cons_append, serve, Option.bind_assoc]
    exact Option.bind_congr fun tb' _ => ih tb'

variable {tb} {tb' : TimeBuffer}

/-! ## What a request changes -/

theorem addTaskTime_spec {slotId workerId duration : ℕ} {taskName : Text}
    (h : tb.addTaskTime slotId taskName workerId duration = some tb') :
    tb'.slots = tb.slots ∧ tb'.slotStatistics = tb.slotStatistics ∧
      tb'.slotStartTimes = tb.slotStartTimes ∧
      tb'.currentSlotTasks slotId = (tb.currentSlotTasks slotId).add taskName workerId duration ∧
      ∀ s, s ≠ slotId → tb'.currentSlotTasks s = tb.currentSlotTasks s := by
  simp only [addTaskTime] at h
  split at h
  · cases h
  · obtain rfl := Option.some.inj h
    exact ⟨rfl, rfl, rfl, Function.update_self .., fun s hs => Function.update_of_ne hs _ _⟩

theorem startSlotProcessingWithTime_spec {slotId startTime : ℕ}
    (h : tb.startSlotProcessingWithTime slotId startTime = some tb') :
    tb'.slots = tb.slots ∧ tb'.slotStatistics = tb.slotStatistics ∧
      tb'.currentSlotTasks = tb.currentSlotTasks := by
  simp only [startSlotProcessingWithTime] at h
  split at h
  · cases h
  · obtain rfl := Option.some.inj h
    exact ⟨rfl, rfl, rfl⟩

theorem finishSlotProcessingWithTime_spec {slotId endTime : ℕ} {stats : SlotStats}
    (h : tb.finishSlotProcessingWithTime slotId endTime = some (stats, tb')) :
    tb'.slots = tb.slots ∧ stats.taskTimes = tb.currentSlotTasks slotId ∧
      tb'.slotStatistics slotId = tb.slotStatistics slotId ++ [stats] ∧
      tb'.currentSlotTasks slotId = .empty ∧
      ∀ s, s ≠ slotId → tb'.slotStatistics s = tb.slotStatistics s ∧
        tb'.currentSlotTasks s = tb.currentSlotTasks s := by
  simp only [finishSlotProcessingWithTime] at h
  split at h
  · cases h
  · obtain ⟨startTime, -, hstats⟩ := Option.map_eq_some_iff.mp h
    obtain ⟨rfl, rfl⟩ := Prod.mk.inj hstats
    exact ⟨rfl, rfl, Function.update_self .., Function.update_self .., fun s hs =>
      ⟨Function.update_of_ne hs _ _, Function.update_of_ne hs _ _⟩⟩

/-- A slot that was started can be finished. -/
theorem exists_finish {slotId : ℕ} (hslot : slotId < tb.slots)
    (hstarted : (tb.slotStartTimes slotId).isSome = true) (endTime : ℕ) :
    ∃ stats tb', tb.finishSlotProcessingWithTime slotId endTime = some (stats, tb') := by
  obtain ⟨startTime, hstart⟩ := Option.isSome_iff_exists.mp hstarted
  exact ⟨_, _, by rw [finishSlotProcessingWithTime, if_neg (Nat.not_le.mpr hslot), hstart]; rfl⟩

end TimeBuffer

end Tomii.Timing
