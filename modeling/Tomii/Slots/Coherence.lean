import Tomii.Slots.SlotTable

/-! # Coherence of the slot table

The five views agree after every critical section: what each section does to them is said once,
as `Coherent.occupy`, `Coherent.vacate` and `Coherent.promote`. -/
namespace Tomii.Slots
set_option autoImplicit false
set_option maxHeartbeats 250000

/-! ## Projections of the critical sections -/

namespace SlotData

variable {cfg : SlotConfig} {d : SlotData}

@[simp] theorem states_register (frame slot : ℕ) :
    (d.register cfg frame slot).states = d.states := rfl

@[simp] theorem activeBitmap_register (frame slot : ℕ) :
    (d.register cfg frame slot).activeBitmap = d.activeBitmap := rfl

@[simp] theorem runningFrames_register (frame slot : ℕ) :
    (d.register cfg frame slot).runningFrames = d.runningFrames ++ [(frame, slot)] := rfl

@[simp] theorem frameId_register (frame slot : ℕ) :
    (d.register cfg frame slot).frameId = Function.update d.frameId slot frame := rfl

@[simp] theorem lastAssigned_register (frame slot : ℕ) :
    (d.register cfg frame slot).lastAssigned = d.lastAssigned := rfl

@[simp] theorem buffers_register (frame slot : ℕ) :
    (d.register cfg frame slot).buffers = d.buffers := rfl

/-- Clearing a cell of the map leaves the locked views alone. -/
theorem frameSlotClear_eq (cfg : SlotConfig) (frame : ℕ) (d : SlotData) :
    ∃ map, d.frameSlotClear cfg frame = { d with frameSlotMap := map } := by
  unfold frameSlotClear
  simp only
  split
  · exact ⟨_, rfl⟩
  · exact ⟨d.frameSlotMap, rfl⟩

/-- What `releaseSlot` does to the locked views. -/
theorem releaseSlot_eq (cfg : SlotConfig) (slot : ℕ) (d : SlotData) :
    ∃ map, d.releaseSlot cfg slot =
      { d with
        states := Function.update d.states slot .inactive
        activeBitmap := wordErase d.activeBitmap slot
        frameId := Function.update d.frameId slot usizeMax
        runningFrames := d.runningFrames.eraseP fun e => e.2 = slot
        frameSlotMap := map } := by
  unfold releaseSlot
  simp only
  split
  · next hnone =>
    refine ⟨d.frameSlotMap, ?_⟩
    rw [List.eraseP_of_forall_not fun e he => List.find?_eq_none.mp hnone e he]
  · next e hsome =>
    obtain ⟨map, hmap⟩ := frameSlotClear_eq cfg e.1
      { d with
        states := Function.update d.states slot .inactive
        activeBitmap := wordErase d.activeBitmap slot
        frameId := Function.update d.frameId slot usizeMax
        runningFrames := d.runningFrames.eraseP fun e => e.2 = slot }
    exact ⟨map, hmap⟩

theorem nextBuffering_eq_some {next : ℕ} (h : d.nextBuffering = some next) :
    d.states next = .buffering ∧ next ∈ d.runningFrames.map Prod.snd := by
  obtain ⟨e, he, rfl⟩ := Option.map_eq_some_iff.mp h
  exact ⟨by simpa using List.find?_some he, List.mem_map_of_mem (List.mem_of_find?_eq_some he)⟩

theorem mem_roundRobin {last slot : ℕ} (h : slot ∈ roundRobin cfg last) : slot < cfg.slots := by
  obtain ⟨i, -, rfl⟩ := List.mem_map.mp h
  exact Nat.mod_lt _ cfg.one_le_slots

end SlotData

/-- With distinct slots, erasing the entry of a slot filters it out. -/
theorem eraseP_slot {entries : List (ℕ × ℕ)} (slot : ℕ) (h : (entries.map Prod.snd).Nodup) :
    (entries.eraseP fun e => e.2 = slot) = entries.filter fun e => e.2 ≠ slot := by
  induction entries with
  | nil => rfl
  | cons e entries ih =>
    obtain ⟨hnot, hrest⟩ := List.nodup_cons.mp h
    by_cases he : e.2 = slot
    · have hall : ∀ e' ∈ entries, e'.2 ≠ slot := fun e' he' heq =>
        hnot (List.mem_map.mpr ⟨e', he', heq.trans he.symm⟩)
      simp only [he, decide_true, List.eraseP_cons_of_pos, List.filter_cons, ne_eq, not_true,
        decide_false]
      exact (List.filter_eq_self.mpr fun e' he' => by simpa using hall e' he').symm
    · simp [he, ih hrest]

/-! ## Coherence -/

/-- The views of the slot table agree. -/
structure Coherent (cfg : SlotConfig) (d : SlotData) : Prop where
  inRange : ∀ e ∈ d.runningFrames, e.2 < cfg.slots
  lastInRange : d.lastAssigned < cfg.slots
  inactive_iff : ∀ s < cfg.slots, d.states s = .inactive ↔ s ∉ d.runningFrames.map Prod.snd
  distinct : (d.runningFrames.map Prod.snd).Nodup
  bitmap : ∀ s < cfg.slots, wordHas d.activeBitmap s = true ↔ d.states s = .active
  frameOf : ∀ e ∈ d.runningFrames, d.frameId e.2 = e.1
  noFrame : ∀ s < cfg.slots, s ∉ d.runningFrames.map Prod.snd → d.frameId s = usizeMax

theorem coherent_initial (cfg : SlotConfig) : Coherent cfg .initial where
  inRange := fun _ he => (nomatch he)
  lastInRange := cfg.one_le_slots
  inactive_iff := by simp [SlotData.initial]
  distinct := .nil
  bitmap := by simp [SlotData.initial]
  frameOf := fun _ he => (nomatch he)
  noFrame := fun _ _ _ => rfl

namespace Coherent

variable {cfg : SlotConfig} {d d' : SlotData}

/-- An inactive slot is given a frame, as `Active` or as `Buffering`. -/
theorem occupy (h : Coherent cfg d) (frame : ℕ) {slot last : ℕ} (mode : SlotState)
    (hslot : slot < cfg.slots) (hfree : d.states slot = .inactive) (hmode : mode ≠ .inactive)
    (hlast : last < cfg.slots) {bitmap : UInt64}
    (hbit : ∀ s < cfg.slots,
      wordHas bitmap s = (wordHas d.activeBitmap s || decide (s = slot ∧ mode = .active)))
    (hstates : d'.states = Function.update d.states slot mode) (hbitmap : d'.activeBitmap = bitmap)
    (hrun : d'.runningFrames = d.runningFrames ++ [(frame, slot)])
    (hframe : d'.frameId = Function.update d.frameId slot frame) (hto : d'.lastAssigned = last) :
    Coherent cfg d' := by
  have hnew : slot ∉ d.runningFrames.map Prod.snd := (h.inactive_iff slot hslot).mp hfree
  have hne : ∀ e ∈ d.runningFrames, e.2 ≠ slot := fun e he heq =>
    hnew (List.mem_map.mpr ⟨e, he, heq⟩)
  refine ⟨?_, by omega, ?_, ?_, ?_, ?_, ?_⟩
  · intro e he
    rw [hrun, List.mem_append, List.mem_singleton] at he
    rcases he with he | rfl
    · exact h.inRange e he
    · exact hslot
  · intro s hs
    rw [hstates, hrun]
    by_cases hss : s = slot
    · subst hss
      simp [hmode]
    · simpa [Function.update_of_ne hss, hss] using h.inactive_iff s hs
  · rw [hrun, List.map_append, List.nodup_append]
    refine ⟨h.distinct, by simp, ?_⟩
    intro a ha b hb
    obtain rfl : b = slot := by simpa using hb
    intro hab
    exact hnew (hab ▸ ha)
  · intro s hs
    rw [hstates, hbitmap, hbit s hs]
    by_cases hss : s = slot
    · subst hss
      have hoff : wordHas d.activeBitmap s = false := by
        apply Bool.eq_false_of_not_eq_true
        rw [h.bitmap s hs, hfree]
        decide
      simp [hoff]
    · simpa [Function.update_of_ne hss, hss] using h.bitmap s hs
  · intro e he
    rw [hrun, List.mem_append, List.mem_singleton] at he
    rw [hframe]
    rcases he with he | rfl
    · rw [Function.update_of_ne (hne e he)]
      exact h.frameOf e he
    · exact Function.update_self ..
  · intro s hs hnot
    have hout : s ∉ d.runningFrames.map Prod.snd ∧ s ≠ slot := by simpa [hrun] using hnot
    rw [hframe, Function.update_of_ne hout.2]
    exact h.noFrame s hs hout.1

/-- A slot loses its frame. -/
theorem vacate (h : Coherent cfg d) {slot : ℕ} (hslot : slot < cfg.slots) :
    Coherent cfg (d.releaseSlot cfg slot) := by
  obtain ⟨map, heq⟩ := SlotData.releaseSlot_eq cfg slot d
  have hrun : (d.releaseSlot cfg slot).runningFrames =
      d.runningFrames.filter fun e => e.2 ≠ slot := by
    rw [heq]
    exact eraseP_slot slot h.distinct
  have hmem : ∀ e, e ∈ (d.releaseSlot cfg slot).runningFrames ↔
      e ∈ d.runningFrames ∧ e.2 ≠ slot := by
    simp [hrun]
  have hslots : ∀ s, s ∈ (d.releaseSlot cfg slot).runningFrames.map Prod.snd ↔
      s ∈ d.runningFrames.map Prod.snd ∧ s ≠ slot := by
    intro s
    simp only [List.mem_map, hmem]
    constructor
    · intro ⟨e, he, hs⟩
      exact ⟨⟨e, he.1, hs⟩, hs ▸ he.2⟩
    · intro ⟨⟨e, he, hs⟩, hne⟩
      exact ⟨e, ⟨he, hs ▸ hne⟩, hs⟩
  have hstates : (d.releaseSlot cfg slot).states = Function.update d.states slot .inactive := by
    rw [heq]
  have hframe : (d.releaseSlot cfg slot).frameId = Function.update d.frameId slot usizeMax := by
    rw [heq]
  refine ⟨fun e he => h.inRange e ((hmem e).mp he).1, ?_, ?_, ?_, ?_, ?_, ?_⟩
  · rw [heq]
    exact h.lastInRange
  · intro s hs
    rw [hslots, hstates]
    by_cases hss : s = slot
    · simp [hss]
    · rw [Function.update_of_ne hss, h.inactive_iff s hs]
      simp [hss]
  · rw [hrun]
    exact h.distinct.sublist (List.filter_sublist.map _)
  · intro s hs
    have hbitmap : (d.releaseSlot cfg slot).activeBitmap = wordErase d.activeBitmap slot := by
      rw [heq]
    have hle := cfg.slots_le
    rw [hbitmap, hstates, wordHas_erase (by omega) (by omega)]
    by_cases hss : s = slot
    · simp [hss]
    · simpa [Function.update_of_ne hss, hss] using h.bitmap s hs
  · intro e he
    obtain ⟨he, hne⟩ := (hmem e).mp he
    rw [hframe, Function.update_of_ne hne]
    exact h.frameOf e he
  · intro s hs hnot
    rw [hframe]
    by_cases hss : s = slot
    · rw [hss, Function.update_self]
    · rw [Function.update_of_ne hss]
      exact h.noFrame s hs fun hin => hnot ((hslots s).mpr ⟨hin, hss⟩)

/-- A buffering slot turns active. -/
theorem promote (h : Coherent cfg d) {next : ℕ} (hnext : d.nextBuffering = some next)
    (buffers : ℕ → List NodeInfo) :
    Coherent cfg { d.activate next with lastAssigned := next, buffers := buffers } := by
  obtain ⟨hbuf, hin⟩ := SlotData.nextBuffering_eq_some hnext
  have hlt : next < cfg.slots := by
    obtain ⟨e, he, rfl⟩ := List.mem_map.mp hin
    exact h.inRange e he
  have hle := cfg.slots_le
  refine ⟨h.inRange, hlt, ?_, h.distinct, ?_, h.frameOf, h.noFrame⟩
  · intro s hs
    simp only [SlotData.activate]
    by_cases hss : s = next
    · subst hss
      simpa using hin
    · rw [Function.update_of_ne hss]
      exact h.inactive_iff s hs
  · intro s hs
    simp only [SlotData.activate]
    rw [wordHas_insert (by omega) (by omega)]
    by_cases hss : s = next
    · simp [hss]
    · simpa [Function.update_of_ne hss, hss] using h.bitmap s hs

theorem bump (h : Coherent cfg d) (slot : ℕ) : Coherent cfg (d.bumpSlotGeneration slot) :=
  ⟨h.inRange, h.lastInRange, h.inactive_iff, h.distinct, h.bitmap, h.frameOf, h.noFrame⟩

/-- The bit of a slot that turns active. -/
theorem bit_insert (d : SlotData) {slot : ℕ} (hslot : slot < cfg.slots) :
    ∀ s < cfg.slots, wordHas (wordInsert d.activeBitmap slot) s =
      (wordHas d.activeBitmap s || decide (s = slot ∧ SlotState.active = .active)) := by
  intro s hs
  have hle := cfg.slots_le
  rw [wordHas_insert (by omega) (by omega)]
  simp

theorem assignUnderLock (h : Coherent cfg d) (frame : ℕ) :
    Coherent cfg (d.assignUnderLock cfg frame).2 := by
  unfold SlotData.assignUnderLock
  split
  · exact h
  · split
    · next hfree =>
      exact h.occupy frame .active h.lastInRange hfree (by decide) h.lastInRange
        (bit_insert d h.lastInRange) rfl rfl rfl rfl rfl
    · split
      · exact h
      · next slot hfound =>
        have hslot : slot < cfg.slots := SlotData.mem_roundRobin (List.mem_of_find?_eq_some hfound)
        have hfree : d.states slot = .inactive := by simpa using List.find?_some hfound
        split
        · exact h.occupy frame .active hslot hfree (by decide) hslot (bit_insert d hslot)
            rfl rfl rfl rfl rfl
        · exact h.occupy frame .buffering hslot hfree (by decide) hslot
            (by simp) rfl rfl rfl rfl rfl

theorem assignScanning (h : Coherent cfg d) (frame : ℕ) :
    Coherent cfg (d.assignScanning cfg frame).2 := by
  have hlocked := h.assignUnderLock frame
  unfold SlotData.assignScanning
  split
  · next slot d' heq =>
    rw [heq] at hlocked
    exact hlocked.bump slot
  · exact hlocked

theorem assign (h : Coherent cfg d) (frame : ℕ) :
    Coherent cfg (d.assignFrameToAvailableSlot cfg frame).2 := by
  unfold SlotData.assignFrameToAvailableSlot
  split
  · exact h
  · exact h.assignScanning frame

theorem releaseUnderLock (h : Coherent cfg d) {slot : ℕ} (hslot : slot < cfg.slots) :
    Coherent cfg (d.releaseUnderLock cfg slot).2 := by
  have hvacant := h.vacate hslot
  unfold SlotData.releaseUnderLock
  simp only
  split
  · split
    · exact hvacant
    · next next hnext => exact hvacant.promote hnext _
  · exact hvacant

theorem releaseAndActivateNext (h : Coherent cfg d) {slot : ℕ} (hslot : slot < cfg.slots) :
    Coherent cfg (d.releaseAndActivateNext cfg slot).2 := by
  have hlocked := h.releaseUnderLock hslot
  unfold SlotData.releaseAndActivateNext
  split
  · next next buffered d' heq =>
    rw [heq] at hlocked
    exact hlocked.bump next
  · exact hlocked

theorem restart (h : Coherent cfg d) {slot : ℕ} (hslot : slot < cfg.slots) (completed : ℕ)
    (hfree : cfg.hasNetwork = false → d.states slot = .inactive) :
    Coherent cfg (d.restartSlotNonnetwork cfg slot completed) := by
  unfold SlotData.restartSlotNonnetwork
  split
  · exact h
  · next hnet =>
    exact h.occupy (completed + d.currentlyActive cfg) .active hslot
      (hfree (Bool.eq_false_of_not_eq_true hnet)) (by decide) h.lastInRange (bit_insert d hslot)
      rfl rfl rfl rfl rfl

end Coherent

end Tomii.Slots
