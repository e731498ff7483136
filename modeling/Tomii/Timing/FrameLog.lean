import Tomii.Timing.TimeBuffer
import Mathlib.Data.List.Nodup

/-! # Timings by frame

The requests together with what they do not say: which frame a timing belongs to, which frame an end
is about, and which frames left a slot without an end. The frames of a slot are kept apart when each
end has collected the timings of its own frame and no others. -/
namespace Tomii.Timing
set_option autoImplicit false
set_option maxHeartbeats 250000

/-- A request with its frame, or a frame that was dropped. -/
inductive Entry where
  | timing (slot frame : ℕ) (taskName : Text) (workerId duration : ℕ)
  | start (slot time : ℕ)
  | finish (slot frame time : ℕ)
  | drop (slot frame : ℕ)
deriving DecidableEq

namespace Entry

def request : Entry → Option TimingRequest
  | .timing slot _ taskName workerId duration => some (.addTaskTime slot taskName workerId duration)
  | .start slot time => some (.startSlotProcessing slot time)
  | .finish slot _ time => some (.finishSlotProcessing slot time)
  | .drop _ _ => none

def slot : Entry → ℕ
  | .timing slot _ _ _ _ => slot
  | .start slot _ => slot
  | .finish slot _ _ => slot
  | .drop slot _ => slot

/-- The measurement of a task of the frame. -/
def measured (slot frame : ℕ) (taskName : Text) : Entry → Option (ℕ × ℕ)
  | .timing s f task workerId duration =>
    if s = slot ∧ f = frame ∧ task = taskName then some (workerId, duration) else none
  | _ => none

def finishes (slot : ℕ) : Entry → Option ℕ
  | .finish s frame _ => if s = slot then some frame else none
  | _ => none

/-- The frame of a timing. -/
def times (slot : ℕ) : Entry → Option ℕ
  | .timing s frame _ _ _ => if s = slot then some frame else none
  | _ => none

def drops (slot : ℕ) : Entry → Option ℕ
  | .drop s frame => if s = slot then some frame else none
  | _ => none

variable {slot frame : ℕ} {taskName : Text} {e : Entry}

theorem measured_of_slot_ne (h : e.slot ≠ slot) : e.measured slot frame taskName = none := by
  cases e with
  | timing s f task workerId duration => exact if_neg fun hs => h hs.1
  | _ => rfl

theorem finishes_of_slot_ne (h : e.slot ≠ slot) : e.finishes slot = none := by
  cases e with
  | finish s f time => exact if_neg h
  | _ => rfl

theorem drops_of_slot_ne (h : e.slot ≠ slot) : e.drops slot = none := by
  cases e with
  | drop s f => exact if_neg h
  | _ => rfl

end Entry

/-! ## What a log says about the frames of a slot -/

section Log

variable (log : List Entry) (slot : ℕ)

def requests : List TimingRequest := log.filterMap Entry.request

/-- The timings of a frame. -/
def timesOf (frame : ℕ) : TaskTimes := fun taskName => log.filterMap (Entry.measured slot frame taskName)

/-- The frames that have a timing. -/
def timed : List ℕ := log.filterMap (Entry.times slot)

/-- The frames that were finished, in this order. -/
def finished : List ℕ := log.filterMap (Entry.finishes slot)

/-- The frames that were evicted. -/
def dropped : List ℕ := log.filterMap (Entry.drops slot)

/-- The frame has left the slot, one way or the other. -/
def Over (frame : ℕ) : Prop := frame ∈ finished log slot ∨ frame ∈ dropped log slot

instance (frame : ℕ) : Decidable (Over log slot frame) := inferInstanceAs (Decidable (_ ∨ _))

variable {log slot} {e : Entry} {frame : ℕ}

theorem requests_concat : requests (log ++ [e]) = requests log ++ e.request.toList := by
  rw [requests, List.filterMap_append]
  cases h : e.request <;> simp [requests, h]

theorem finished_concat : finished (log ++ [e]) slot = finished log slot ++ (e.finishes slot).toList := by
  rw [finished, List.filterMap_append]
  cases h : e.finishes slot <;> simp [finished, h]

theorem dropped_concat : dropped (log ++ [e]) slot = dropped log slot ++ (e.drops slot).toList := by
  rw [dropped, List.filterMap_append]
  cases h : e.drops slot <;> simp [dropped, h]

theorem timesOf_concat (taskName : Text) : timesOf (log ++ [e]) slot frame taskName =
    timesOf log slot frame taskName ++ (e.measured slot frame taskName).toList := by
  rw [timesOf, List.filterMap_append]
  cases h : e.measured slot frame taskName <;> simp [timesOf, h]

/-- Only a timing of the frame adds to its times. -/
theorem timesOf_of_not_measured (h : ∀ taskName, e.measured slot frame taskName = none) :
    timesOf (log ++ [e]) slot frame = timesOf log slot frame := by
  funext taskName
  rw [timesOf_concat, h]
  exact List.append_nil _

theorem timesOf_timing_of_ne {g : ℕ} (h : g ≠ frame) (taskName : Text) (workerId duration : ℕ) :
    timesOf (log ++ [.timing slot frame taskName workerId duration]) slot g = timesOf log slot g :=
  timesOf_of_not_measured fun _ => if_neg fun hs => h hs.2.1.symm

theorem timesOf_timing (taskName : Text) (workerId duration : ℕ) :
    timesOf (log ++ [.timing slot frame taskName workerId duration]) slot frame =
      (timesOf log slot frame).add taskName workerId duration := by
  funext task
  rw [timesOf_concat, TaskTimes.add]
  by_cases h : task = taskName
  · subst h
    rw [Function.update_self]
    simp [Entry.measured]
  · rw [Function.update_of_ne h]
    simp [Entry.measured, Ne.symm h]

theorem timesOf_of_not_timed (h : frame ∉ timed log slot) : timesOf log slot frame = .empty := by
  funext taskName
  refine List.filterMap_eq_nil_iff.mpr fun e he => ?_
  have hnot : e.times slot ≠ some frame := fun htimes => h (List.mem_filterMap.mpr ⟨e, he, htimes⟩)
  cases e with
  | timing s f task workerId duration =>
    refine if_neg fun hsame => hnot ?_
    rw [Entry.times, if_pos hsame.1, hsame.2.1]
  | _ => rfl

theorem over_concat {f : ℕ} : Over (log ++ [e]) slot f ↔
    Over log slot f ∨ e.finishes slot = some f ∨ e.drops slot = some f := by
  rw [Over, Over, finished_concat, dropped_concat]
  simp only [List.mem_append, Option.mem_toList]
  tauto

end Log

/-! ## Frames kept apart -/

/-- Each finished frame has its own timings in its own statistics, dropped frames have none, and
what waits for the next end belongs to `frame` alone. -/
structure KeptApart (log : List Entry) (tb : TimeBuffer) (slot frame : ℕ) : Prop where
  statistics : (tb.slotStatistics slot).map (·.taskTimes) =
    (finished log slot).map (timesOf log slot)
  once : (finished log slot).Nodup
  dropped : ∀ f ∈ dropped log slot, timesOf log slot f = .empty
  unfinished : frame ∉ finished log slot
  current : tb.currentSlotTasks slot = timesOf log slot frame
  others : ∀ f, f ∉ finished log slot → f ≠ frame → timesOf log slot f = .empty

/-- The controller has served all requests, and every slot keeps its frames apart. -/
def FramesKeptApart (slots baseTime : ℕ) (log : List Entry) : Prop :=
  ∃ tb, TimeBuffer.serve (requests log) (.new slots baseTime) = some tb ∧
    ∀ slot, ∃ frame, KeptApart log tb slot frame

namespace KeptApart

variable {log : List Entry} {tb tb' : TimeBuffer} {slot frame next : ℕ} {e : Entry}

theorem nothing (slots baseTime slot frame : ℕ) :
    KeptApart [] (.new slots baseTime) slot frame where
  statistics := rfl
  once := List.nodup_nil
  dropped := fun _ hf => (nomatch hf)
  unfinished := fun hf => (nomatch hf)
  current := rfl
  others := fun _ _ _ => rfl

/-- An entry that is neither a timing nor an end nor a drop of the slot. -/
theorem still (h : KeptApart log tb slot frame)
    (hmeasured : ∀ f taskName, e.measured slot f taskName = none) (hfinishes : e.finishes slot = none)
    (hdrops : e.drops slot = none) (hcurrent : tb'.currentSlotTasks slot = tb.currentSlotTasks slot)
    (hstatistics : tb'.slotStatistics slot = tb.slotStatistics slot) :
    KeptApart (log ++ [e]) tb' slot frame := by
  have htimes : timesOf (log ++ [e]) slot = timesOf log slot := by
    funext f
    exact timesOf_of_not_measured (hmeasured f)
  have hfinished : finished (log ++ [e]) slot = finished log slot := by
    rw [finished_concat, hfinishes]
    exact List.append_nil _
  have hdropped : Timing.dropped (log ++ [e]) slot = Timing.dropped log slot := by
    rw [dropped_concat, hdrops]
    exact List.append_nil _
  refine ⟨?_, ?_, ?_, ?_, ?_, ?_⟩
  · rw [hstatistics, hfinished, htimes]
    exact h.statistics
  · rw [hfinished]
    exact h.once
  · rw [hdropped, htimes]
    exact h.dropped
  · rw [hfinished]
    exact h.unfinished
  · rw [hcurrent, htimes]
    exact h.current
  · rw [hfinished, htimes]
    exact h.others

/-- An entry of another slot. -/
theorem elsewhere (h : KeptApart log tb slot frame) (hslot : e.slot ≠ slot)
    (hcurrent : tb'.currentSlotTasks slot = tb.currentSlotTasks slot)
    (hstatistics : tb'.slotStatistics slot = tb.slotStatistics slot) :
    KeptApart (log ++ [e]) tb' slot frame :=
  h.still (fun _ _ => Entry.measured_of_slot_ne hslot) (Entry.finishes_of_slot_ne hslot)
    (Entry.drops_of_slot_ne hslot) hcurrent hstatistics

/-- A timing of the frame that the current times belong to. -/
theorem timing (h : KeptApart log tb slot frame) (hkept : frame ∉ Timing.dropped log slot)
    (taskName : Text) (workerId duration : ℕ)
    (hadd : tb.addTaskTime slot taskName workerId duration = some tb') :
    KeptApart (log ++ [.timing slot frame taskName workerId duration]) tb' slot frame := by
  have hother : ∀ f, f ≠ frame →
      timesOf (log ++ [.timing slot frame taskName workerId duration]) slot f = timesOf log slot f :=
    fun f hf => timesOf_timing_of_ne hf taskName workerId duration
  have hfinished : finished (log ++ [.timing slot frame taskName workerId duration]) slot =
      finished log slot := finished_concat.trans (List.append_nil _)
  have hdropped : Timing.dropped (log ++ [.timing slot frame taskName workerId duration]) slot =
      Timing.dropped log slot := dropped_concat.trans (List.append_nil _)
  obtain ⟨-, hstatistics, -, hcurrent, -⟩ := TimeBuffer.addTaskTime_spec hadd
  refine ⟨?_, ?_, fun f hf => ?_, ?_, ?_, fun f hf hne => ?_⟩
  · rw [hfinished, hstatistics]
    refine h.statistics.trans (List.map_congr_left fun f hf => (hother f ?_).symm)
    rintro rfl
    exact h.unfinished hf
  · rw [hfinished]
    exact h.once
  · rw [hdropped] at hf
    rw [hother f fun hfe => hkept (hfe ▸ hf)]
    exact h.dropped f hf
  · rw [hfinished]
    exact h.unfinished
  · rw [hcurrent, timesOf_timing, h.current]
  · rw [hfinished] at hf
    rw [hother f hne]
    exact h.others f hf hne

/-- The end of the frame that the current times belong to. -/
theorem finish (h : KeptApart log tb slot frame) (hnext : next ∉ finished log slot)
    (hne : next ≠ frame) {time : ℕ} {stats : SlotStats}
    (hfinish : tb.finishSlotProcessingWithTime slot time = some (stats, tb')) :
    KeptApart (log ++ [.finish slot frame time]) tb' slot next := by
  have htimes : timesOf (log ++ [.finish slot frame time]) slot = timesOf log slot := by
    funext f
    exact timesOf_of_not_measured fun _ => rfl
  have hfinished : finished (log ++ [.finish slot frame time]) slot =
      finished log slot ++ [frame] := by
    rw [finished_concat]
    simp [Entry.finishes]
  have hdropped : Timing.dropped (log ++ [.finish slot frame time]) slot =
      Timing.dropped log slot := dropped_concat.trans (List.append_nil _)
  obtain ⟨-, hstats, hstatistics, hcurrent, -⟩ :=
    TimeBuffer.finishSlotProcessingWithTime_spec hfinish
  refine ⟨?_, ?_, ?_, ?_, ?_, fun f hf hfne => ?_⟩
  · rw [hfinished, htimes, hstatistics, List.map_append, List.map_append, h.statistics]
    exact congrArg (fun times => _ ++ [times]) (hstats.trans h.current)
  · rw [hfinished, List.nodup_append]
    exact ⟨h.once, List.nodup_singleton _, fun f hf g hg heq =>
      h.unfinished (List.mem_singleton.mp hg ▸ heq ▸ hf)⟩
  · rw [hdropped, htimes]
    exact h.dropped
  · rw [hfinished, List.mem_append, List.mem_singleton]
    rintro (hmem | hsame)
    · exact hnext hmem
    · exact hne hsame
  · rw [hcurrent, htimes]
    exact (h.others next hnext hne).symm
  · rw [hfinished, List.mem_append, List.mem_singleton, not_or] at hf
    rw [htimes]
    exact h.others f hf.1 hf.2

/-- A frame without timings leaves without an end. -/
theorem drop (h : KeptApart log tb slot frame) (hempty : timesOf log slot frame = .empty)
    (hnext : next ∉ finished log slot) : KeptApart (log ++ [.drop slot frame]) tb slot next := by
  have htimes : timesOf (log ++ [.drop slot frame]) slot = timesOf log slot := by
    funext f
    exact timesOf_of_not_measured fun _ => rfl
  have hfinished : finished (log ++ [.drop slot frame]) slot = finished log slot :=
    finished_concat.trans (List.append_nil _)
  have hnone : ∀ f, f ∉ finished log slot → timesOf log slot f = .empty := by
    intro f hf
    by_cases hfe : f = frame
    · rw [hfe]
      exact hempty
    · exact h.others f hf hfe
  refine ⟨?_, ?_, fun f hf => ?_, ?_, ?_, fun f hf _ => ?_⟩
  · rw [hfinished, htimes]
    exact h.statistics
  · rw [hfinished]
    exact h.once
  · rw [dropped_concat, List.mem_append] at hf
    rw [htimes]
    rcases hf with hf | hf
    · exact h.dropped f hf
    · have hframe : f = frame := by simpa [Entry.drops, eq_comm] using hf
      rw [hframe]
      exact hempty
  · rw [hfinished]
    exact hnext
  · rw [htimes, h.current, hempty, hnone next hnext]
  · rw [hfinished] at hf
    rw [htimes]
    exact hnone f hf

end KeptApart

end Tomii.Timing
