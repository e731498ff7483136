import Tomii.Slots.SlotRuns

/-! # What assignments and releases do to the states

Each critical section, taken apart once: an assignment leaves the table alone or gives an inactive
slot to its frame, a release vacates a slot and may promote another. -/
namespace Tomii.Slots
set_option autoImplicit false
set_option maxHeartbeats 250000

/-! ## Assignments -/

/-- An assignment gives an inactive slot to the frame, as `mode`. -/
structure Occupies (cfg : SlotConfig) (d : SlotData) (slot : ℕ) (mode : SlotState)
    (d' : SlotData) : Prop where
  inRange : slot < cfg.slots
  free : d.states slot = .inactive
  mode_ne : mode ≠ .inactive
  states : d'.states = Function.update d.states slot mode
  buffers : d'.buffers = d.buffers
  last : d'.lastAssigned = slot
  active : mode = .active → slot = d.lastAssigned ∨ cfg.slotPriorityEnabled = false
  buffering : mode = .buffering → d.states d.lastAssigned ≠ .inactive
  queued : mode = .buffering → cfg.slotPriorityEnabled = true ∨ cfg.hasNetwork = false

variable {cfg : SlotConfig} {d : SlotData}

theorem assignUnderLock_cases (h : Indexed cfg d) (frame : ℕ) :
    (d.assignUnderLock cfg frame = (none, d)) ∨
      (∃ slot ∈ d.runningFrames.map Prod.snd,
        d.assignUnderLock cfg frame = (some (slot, false), d)) ∨
      ∃ slot mode newly d', d.assignUnderLock cfg frame = (some (slot, newly), d') ∧
        Occupies cfg d slot mode d' ∧ d'.generation = d.generation := by
  unfold SlotData.assignUnderLock
  split
  · next e hfound =>
    exact .inr (.inl ⟨e.2, List.mem_map_of_mem (List.mem_of_find?_eq_some hfound), rfl⟩)
  · split
    · next hfree =>
      exact .inr (.inr ⟨_, .active, _, _, rfl, ⟨h.lastInRange, hfree, by decide, rfl, rfl, rfl,
        fun _ => .inl rfl, fun hmode => (nomatch hmode), fun hmode => (nomatch hmode)⟩, rfl⟩)
    · next hbusy =>
      split
      · exact .inl rfl
      · next slot hfound =>
        have hslot : slot < cfg.slots := SlotData.mem_roundRobin (List.mem_of_find?_eq_some hfound)
        have hfree : d.states slot = .inactive := by simpa using List.find?_some hfound
        split
        · next hparallel =>
          have hoff : cfg.slotPriorityEnabled = false := by
            simp only [Bool.and_eq_true, Bool.not_eq_true'] at hparallel
            exact hparallel.1
          exact .inr (.inr ⟨_, .active, _, _, rfl, ⟨hslot, hfree, by decide, rfl, rfl, rfl,
            fun _ => .inr hoff, fun hmode => (nomatch hmode), fun hmode => (nomatch hmode)⟩, rfl⟩)
        · next hqueued =>
          have hmode : cfg.slotPriorityEnabled = true ∨ cfg.hasNetwork = false := by
            cases hpriority : cfg.slotPriorityEnabled with
            | true => exact .inl rfl
            | false => exact .inr (by simpa [hpriority] using hqueued)
          exact .inr (.inr ⟨_, .buffering, _, _, rfl, ⟨hslot, hfree, by decide, rfl, rfl, rfl,
            fun hmode => (nomatch hmode), fun _ => hbusy, fun _ => hmode⟩, rfl⟩)

theorem assign_cases (h : Indexed cfg d) (frame : ℕ) :
    (d.assignFrameToAvailableSlot cfg frame = (none, d)) ∨
      (∃ slot ∈ d.runningFrames.map Prod.snd,
        d.assignFrameToAvailableSlot cfg frame = (some (slot, false), d)) ∨
      ∃ slot mode newly d', d.assignFrameToAvailableSlot cfg frame = (some (slot, newly), d') ∧
        Occupies cfg d slot mode d' := by
  unfold SlotData.assignFrameToAvailableSlot
  split
  · next slot hhit =>
    obtain ⟨e, he, -, rfl⟩ := h.sound.lookup hhit
    exact .inr (.inl ⟨e.2, List.mem_map_of_mem he, rfl⟩)
  · unfold SlotData.assignScanning
    rcases assignUnderLock_cases h frame with
      heq | ⟨slot, hslot, heq⟩ | ⟨slot, mode, newly, d', heq, hocc, -⟩
    · rw [heq]
      exact .inl rfl
    · rw [heq]
      exact .inr (.inl ⟨slot, hslot, rfl⟩)
    · rw [heq]
      cases newly with
      | false => exact .inr (.inr ⟨slot, mode, false, d', rfl, hocc⟩)
      | true =>
        exact .inr (.inr ⟨slot, mode, true, _, rfl, hocc.inRange, hocc.free, hocc.mode_ne,
          hocc.states, hocc.buffers, hocc.last, hocc.active, hocc.buffering, hocc.queued⟩)

/-- What an assignment under the lock does when it gives `slot` to a frame that is not running. -/
structure Seats (cfg : SlotConfig) (d : SlotData) (frame slot : ℕ) (newly : Bool)
    (d' : SlotData) : Prop where
  fresh : frame ∉ d.runningFrames.map Prod.fst
  inRange : slot < cfg.slots
  free : d.states slot = .inactive
  states : d'.states = Function.update d.states slot (if newly then .active else .buffering)
  running : d'.runningFrames = d.runningFrames ++ [(frame, slot)]
  frameId : d'.frameId = Function.update d.frameId slot frame
  buffers : d'.buffers = d.buffers
  queued : newly = false → d.states d.lastAssigned ≠ .inactive ∧
    (cfg.slotPriorityEnabled = true ∨ cfg.hasNetwork = false)

/-- An assignment finds no slot, finds the frame running, or seats it. -/
theorem assignUnderLock_seats (h : Coherent cfg d) (frame : ℕ) :
    (d.assignUnderLock cfg frame = (none, d)) ∨
      (∃ slot, (frame, slot) ∈ d.runningFrames ∧
        d.assignUnderLock cfg frame = (some (slot, false), d)) ∨
      ∃ slot newly d', d.assignUnderLock cfg frame = (some (slot, newly), d') ∧
        Seats cfg d frame slot newly d' := by
  unfold SlotData.assignUnderLock
  split
  · next e hfound =>
    have hframe : e.1 = frame := by simpa using List.find?_some hfound
    exact .inr (.inl ⟨e.2, hframe ▸ List.mem_of_find?_eq_some hfound, rfl⟩)
  · next hnone =>
    have hfresh : frame ∉ d.runningFrames.map Prod.fst := by
      intro hin
      obtain ⟨e, he, heq⟩ := List.mem_map.mp hin
      exact List.find?_eq_none.mp hnone e he (by simpa using heq)
    split
    · next hfree =>
      exact .inr (.inr ⟨_, true, _, rfl, hfresh, h.lastInRange, hfree, rfl, rfl, rfl, rfl,
        fun hnewly => (nomatch hnewly)⟩)
    · next hbusy =>
      split
      · exact .inl rfl
      · next slot hfound =>
        have hslot : slot < cfg.slots := SlotData.mem_roundRobin (List.mem_of_find?_eq_some hfound)
        have hfree : d.states slot = .inactive := by simpa using List.find?_some hfound
        split
        · exact .inr (.inr ⟨_, true, _, rfl, hfresh, hslot, hfree, rfl, rfl, rfl, rfl,
            fun hnewly => (nomatch hnewly)⟩)
        · next hqueued =>
          have hmode : cfg.slotPriorityEnabled = true ∨ cfg.hasNetwork = false := by
            cases hpriority : cfg.slotPriorityEnabled with
            | true => exact .inl rfl
            | false => exact .inr (by simpa [hpriority] using hqueued)
          exact .inr (.inr ⟨_, false, _, rfl, hfresh, hslot, hfree, rfl, rfl, rfl, rfl,
            fun _ => ⟨hbusy, hmode⟩⟩)

theorem Seats.slot_fresh {frame slot : ℕ} {newly : Bool} {d' : SlotData}
    (hs : Seats cfg d frame slot newly d') (h : Coherent cfg d) :
    slot ∉ d.runningFrames.map Prod.snd :=
  (h.inactive_iff slot hs.inRange).mp hs.free

/-- A frame that runs after an assignment ran before, or is the one that was given a slot. -/
theorem mem_assignUnderLock {frame : ℕ} {e : ℕ × ℕ}
    (he : e ∈ (d.assignUnderLock cfg frame).2.runningFrames) :
    e ∈ d.runningFrames ∨ e.1 = frame ∧ frame ∉ d.runningFrames.map Prod.fst ∧
      (d.assignUnderLock cfg frame).1 ≠ none := by
  unfold SlotData.assignUnderLock at he ⊢
  split at he
  · exact .inl he
  · next hnone =>
    have hfresh : frame ∉ d.runningFrames.map Prod.fst := by
      intro hin
      obtain ⟨g, hg, heq⟩ := List.mem_map.mp hin
      exact List.find?_eq_none.mp hnone g hg (by simpa using heq)
    have hnew : ∀ slot, e ∈ d.runningFrames ++ [(frame, slot)] →
        e ∈ d.runningFrames ∨ e.1 = frame := by
      intro slot hin
      rcases List.mem_append.mp hin with hin | hin
      · exact .inl hin
      · exact .inr (congrArg Prod.fst (List.mem_singleton.mp hin))
    split at he
    · exact (hnew _ he).imp_right fun hframe => ⟨hframe, hfresh, by simp [*]⟩
    · split at he
      · exact .inl he
      · split at he
        · exact (hnew _ he).imp_right fun hframe => ⟨hframe, hfresh, by simp [*]⟩
        · exact (hnew _ he).imp_right fun hframe => ⟨hframe, hfresh, by simp [*]⟩

/-! ## Releases -/

/-- A release without a promotion. -/
structure Vacates (cfg : SlotConfig) (d : SlotData) (slot : ℕ) (d' : SlotData) : Prop where
  states : d'.states = Function.update d.states slot .inactive
  buffers : d'.buffers = d.buffers
  last : d'.lastAssigned = d.lastAssigned
  noQueue : cfg.slotPriorityEnabled = true → ∀ s < cfg.slots, d'.states s ≠ .buffering

/-- A release that promotes `next`. -/
structure Promotes (cfg : SlotConfig) (d : SlotData) (slot next : ℕ) (d' : SlotData) : Prop where
  inRange : next < cfg.slots
  ne : next ≠ slot
  waiting : d.states next = .buffering
  states : d'.states = Function.update (Function.update d.states slot .inactive) next .active
  buffers : d'.buffers = Function.update d.buffers next []
  last : d'.lastAssigned = next

theorem releaseUnderLock_cases (h : Coherent cfg d) {slot : ℕ} (hslot : slot < cfg.slots) :
    (d.releaseUnderLock cfg slot).2.generation = d.generation ∧
      ((∃ d', d.releaseUnderLock cfg slot = (none, d') ∧ Vacates cfg d slot d') ∨
        ∃ next d', d.releaseUnderLock cfg slot = (some (next, d.buffers next), d') ∧
          Promotes cfg d slot next d') := by
  have hvacant := h.vacate hslot
  obtain ⟨map, heq⟩ := SlotData.releaseSlot_eq cfg slot d
  have hstates : (d.releaseSlot cfg slot).states = Function.update d.states slot .inactive := by
    rw [heq]
  have hbuffers : (d.releaseSlot cfg slot).buffers = d.buffers := by rw [heq]
  have hlast : (d.releaseSlot cfg slot).lastAssigned = d.lastAssigned := by rw [heq]
  have hgeneration : (d.releaseSlot cfg slot).generation = d.generation := by rw [heq]
  unfold SlotData.releaseUnderLock
  simp only
  by_cases hpriority : cfg.slotPriorityEnabled = true
  · rw [if_pos hpriority]
    cases hnext : (d.releaseSlot cfg slot).nextBuffering with
    | none =>
      refine ⟨hgeneration, .inl ⟨_, rfl, hstates, hbuffers, hlast, fun _ s hs hbuf => ?_⟩⟩
      have hin : s ∈ (d.releaseSlot cfg slot).runningFrames.map Prod.snd := by
        by_contra hout
        rw [(hvacant.inactive_iff s hs).mpr hout] at hbuf
        cases hbuf
      obtain ⟨e, he, rfl⟩ := List.mem_map.mp hin
      have hnone := List.find?_eq_none.mp (Option.map_eq_none_iff.mp hnext) e he
      exact hnone (by simpa using hbuf)
    | some next =>
      obtain ⟨hwait, hin⟩ := SlotData.nextBuffering_eq_some hnext
      obtain ⟨e, he, hnextSlot⟩ := List.mem_map.mp hin
      have hlt : next < cfg.slots := hnextSlot ▸ hvacant.inRange e he
      have hne : next ≠ slot := by
        intro hn
        rw [hstates, hn, Function.update_self] at hwait
        cases hwait
      rw [hstates, Function.update_of_ne hne] at hwait
      simp only [hbuffers]
      refine ⟨hgeneration, .inr ⟨next, _, rfl, hlt, hne, hwait, ?_, rfl, rfl⟩⟩
      simp [SlotData.activate, hstates]
  · rw [if_neg hpriority]
    exact ⟨hgeneration, .inl ⟨_, rfl, hstates, hbuffers, hlast, fun hon => absurd hon hpriority⟩⟩

theorem runningFrames_releaseUnderLock (h : Coherent cfg d) (slot : ℕ) :
    (d.releaseUnderLock cfg slot).2.runningFrames =
      d.runningFrames.filter fun e => e.2 ≠ slot := by
  obtain ⟨map, heq⟩ := SlotData.releaseSlot_eq cfg slot d
  have hvacant : (d.releaseSlot cfg slot).runningFrames =
      d.runningFrames.filter fun e => e.2 ≠ slot := by
    rw [heq]
    exact eraseP_slot slot h.distinct
  unfold SlotData.releaseUnderLock
  simp only
  split
  · split
    · exact hvacant
    · exact hvacant
  · exact hvacant

theorem mem_releaseUnderLock {slot : ℕ} {e : ℕ × ℕ}
    (he : e ∈ (d.releaseUnderLock cfg slot).2.runningFrames) : e ∈ d.runningFrames := by
  obtain ⟨map, heq⟩ := SlotData.releaseSlot_eq cfg slot d
  have hvacant : (d.releaseSlot cfg slot).runningFrames ⊆ d.runningFrames := by
    rw [heq]
    exact List.eraseP_subset
  unfold SlotData.releaseUnderLock at he
  simp only at he
  split at he
  · split at he
    · exact hvacant he
    · exact hvacant he
  · exact hvacant he

theorem release_cases (h : Coherent cfg d) {slot : ℕ} (hslot : slot < cfg.slots) :
    (∃ d', d.releaseAndActivateNext cfg slot = (none, d') ∧ Vacates cfg d slot d') ∨
      ∃ next d', d.releaseAndActivateNext cfg slot = (some (next, d.buffers next), d') ∧
        Promotes cfg d slot next d' := by
  unfold SlotData.releaseAndActivateNext
  rcases (releaseUnderLock_cases h hslot).2 with ⟨d', heq, hvac⟩ | ⟨next, d', heq, hprom⟩
  · rw [heq]
    exact .inl ⟨d', rfl, hvac⟩
  · rw [heq]
    exact .inr ⟨next, _, rfl, hprom.inRange, hprom.ne, hprom.waiting, hprom.states, hprom.buffers,
      hprom.last⟩

end Tomii.Slots
