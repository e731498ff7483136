import Tomii.Slots.SlotPriority

/-! # A slot is clean when it is reused

The packet buffer, the results and the packet counters of a slot are cleared by different
functions on its different exits. Under the condition that rules out the two exits that forget
a piece, an inactive slot has nothing left of its last frame. -/
namespace Tomii.Slots
set_option autoImplicit false
set_option maxHeartbeats 250000

variable {cfg : NetConfig} {σ σ' : NetData}

/-- Nothing is left in the slot. -/
structure Clean (σ : NetData) (slot : ℕ) : Prop where
  buffers : σ.table.buffers slot = []
  results : σ.results slot = []
  counters : σ.packetCounters slot = 0
  complete : σ.packetComplete slot = false

/-- The exits that clear every piece: a completion that may restart, or whose frame left no result,
and an eviction of a slot that is not buffering. -/
def LeavesClean : NetOp cfg → NetData → Prop
  | .complete slot, σ => σ.Checked cfg slot → σ.canRestart cfg slot = true ∨ σ.results slot = []
  | .evict slot, σ => σ.Stalled cfg slot → σ.table.states slot ≠ .buffering
  | _, _ => True

instance (op : NetOp cfg) (σ : NetData) : Decidable (LeavesClean op σ) := by
  induction op using NetOp.casesOn with
  | complete slot => exact inferInstanceAs (Decidable (_ → _))
  | evict slot => exact inferInstanceAs (Decidable (_ → _))
  | _ => exact .isTrue trivial

/-- An inactive slot holds no packets and no results, an active one buffers no packets, and
without slot priority no slot buffers. -/
structure Tidy (cfg : NetConfig) (σ : NetData) : Prop where
  settled : Settled cfg σ
  vacant : ∀ s < cfg.slots, σ.table.states s = .inactive →
    σ.table.buffers s = [] ∧ σ.results s = []
  running : ∀ s < cfg.slots, σ.table.states s = .active → σ.table.buffers s = []
  parallel : cfg.slotPriorityEnabled = false → ∀ s < cfg.slots, σ.table.states s ≠ .buffering

theorem tidy_initial (cfg : NetConfig) : Tidy cfg .initial where
  settled := settled_initial cfg
  vacant := fun _ _ _ => ⟨rfl, rfl⟩
  running := fun _ _ _ => rfl
  parallel := fun _ _ _ h => (nomatch h)

/-- A slot that a frame takes keeps what it had. -/
theorem Tidy.assign (h : Tidy cfg σ) (frame : ℕ) :
    Tidy cfg
      { σ with table := (σ.table.assignFrameToAvailableSlot cfg.toSlotConfig frame).2 } := by
  have hsettled := h.settled.assign frame
  rcases assign_cases h.settled.indexed frame with
    heq | ⟨slot, hslot, heq⟩ | ⟨slot, mode, newly, d', heq, hocc⟩
  · rw [heq]
    exact h
  · rw [heq]
    exact h
  · rw [heq] at hsettled ⊢
    have hempty := h.vacant slot hocc.inRange hocc.free
    have hstates : ∀ s ≠ slot, d'.states s = σ.table.states s := fun s hs => by
      rw [hocc.states, Function.update_of_ne hs]
    refine ⟨hsettled, fun s hs hin => ?_, fun s hs hact => ?_, fun hoff s hs hbuf => ?_⟩
    · by_cases hss : s = slot
      · simp only [hss, hocc.buffers]
        exact hempty
      · simp only [hocc.buffers]
        exact h.vacant s hs (hstates s hss ▸ hin)
    · by_cases hss : s = slot
      · simp only [hss, hocc.buffers]
        exact hempty.1
      · simp only [hocc.buffers]
        exact h.running s hs (hstates s hss ▸ hact)
    · by_cases hss : s = slot
      · simp only [hss, hocc.states, Function.update_self] at hbuf
        rcases hocc.queued hbuf with hon | hnet
        · rw [hoff] at hon
          cases hon
        · rw [cfg.network] at hnet
          cases hnet
      · exact h.parallel hoff s hs (hstates s hss ▸ hbuf)

theorem Tidy.admitPacket (h : Tidy cfg σ) (frame index : ℕ) :
    Tidy cfg (σ.admitPacket cfg frame index) := by
  have hassign := h.assign frame
  have hsettled := h.settled.admitPacket frame index
  rcases admit_cases cfg frame index σ with ⟨d, hd, heq⟩ | ⟨slot, newly, d, hd, hadm⟩
  · rw [heq]
    rcases hd with rfl | hd
    · exact h
    · rwa [hd] at hassign
  · obtain ⟨hslot, hocc⟩ := assigned_occupied h.settled hd
    rw [hd] at hassign
    refine ⟨hsettled, fun s hs hin => ?_, fun s hs hact => ?_, fun hoff s hs hbuf => ?_⟩
    · rw [hadm.states] at hin
      have hne : s ≠ slot := fun heq => hocc (heq ▸ hin)
      rw [hadm.buffers s (.inl hne), hadm.results s hne]
      exact hassign.vacant s hs hin
    · rw [hadm.states] at hact
      have hbit := (hassign.settled.coherent.bitmap s hs).mpr hact
      rw [hadm.buffers s (.inr hbit)]
      exact hassign.running s hs hact
    · rw [hadm.states] at hbuf
      exact hassign.parallel hoff s hs hbuf

/-- Releasing an active slot whose results are gone. -/
theorem Tidy.release {slot : ℕ} (h : Tidy cfg σ) (hslot : slot < cfg.slots)
    (hr : Resets slot σ σ') (hactive : σ.table.states slot = .active)
    (hresults : σ'.results slot = []) : Tidy cfg (σ'.releaseAndDispatchNext cfg slot) := by
  have hreleased := hr.released h.settled.coherent hslot
  have hbuffer := h.running slot hslot hactive
  have hvacant : ∀ s < cfg.slots, s = slot ∨ σ.table.states s = .inactive →
      σ'.table.buffers s = [] ∧ σ'.results s = [] := by
    intro s hs hin
    by_cases hss : s = slot
    · rw [hss, hr.buffers]
      exact ⟨hbuffer, hresults⟩
    · rw [hr.buffers, hr.results s hss]
      exact h.vacant s hs (hin.resolve_left hss)
  have hrunning : ∀ s < cfg.slots, σ.table.states s = .active → σ'.table.buffers s = [] :=
    fun s hs hact => hr.buffers ▸ h.running s hs hact
  refine ⟨h.settled.release hslot hr, fun s hs hin => ?_, fun s hs hact => ?_,
    fun hoff s hs hbuf => ?_⟩
  · have hbefore := hreleased.inactive hin
    rw [hr.states] at hbefore
    rcases hreleased.table with ⟨hvac, hres⟩ | ⟨next, hprom, hres⟩
    · rw [hvac.buffers, hres]
      exact hvacant s hs hbefore
    · have hne : s ≠ next := by
        intro hsn
        rw [hprom.states, hsn, Function.update_self] at hin
        cases hin
      rw [hprom.buffers, Function.update_of_ne hne, hres s hne]
      exact hvacant s hs hbefore
  · rcases hreleased.table with ⟨hvac, -⟩ | ⟨next, hprom, -⟩
    · rw [hvac.states, hr.states] at hact
      rw [hvac.buffers]
      by_cases hss : s = slot
      · rw [hss, Function.update_self] at hact
        cases hact
      · rw [Function.update_of_ne hss] at hact
        exact hrunning s hs hact
    · rw [hprom.buffers]
      by_cases hsn : s = next
      · rw [hsn, Function.update_self]
      · rw [hprom.states, hr.states, Function.update_of_ne hsn] at hact
        rw [Function.update_of_ne hsn]
        by_cases hss : s = slot
        · rw [hss, Function.update_self] at hact
          cases hact
        · rw [Function.update_of_ne hss] at hact
          exact hrunning s hs hact
  · have hother : ∀ s < cfg.slots, σ'.table.states s ≠ .buffering := by
      intro s hs
      rw [hr.states]
      exact h.parallel hoff s hs
    rcases hreleased.table with ⟨hvac, -⟩ | ⟨next, hprom, -⟩
    · rw [hvac.states] at hbuf
      by_cases hss : s = slot
      · rw [hss, Function.update_self] at hbuf
        cases hbuf
      · rw [Function.update_of_ne hss] at hbuf
        exact hother s hs hbuf
    · exact hother next hprom.inRange hprom.waiting

/-- A completion empties the results when it may restart. -/
theorem results_completion {slot : ℕ}
    (h : σ.canRestart cfg slot = true ∨ σ.results slot = []) :
    ((σ.resetSlotState slot).processSlotCompletion cfg slot).results slot = [] := by
  unfold NetData.processSlotCompletion
  simp only
  split
  · exact Function.update_self ..
  · next hno => exact h.resolve_left hno

theorem Tidy.step (op : NetOp cfg) (σ : NetData) (h : Tidy cfg σ) (hop : LeavesClean op σ) :
    Tidy cfg (op.step σ) := by
  cases op with
  | assign frame => exact h.assign frame
  | admitPacket frame index => exact h.admitPacket frame index
  | store slot node index =>
    simp only [NetOp.step]
    split
    · next hact =>
      refine ⟨⟨h.settled.coherent, h.settled.indexed, h.settled.idle⟩, fun s hs hin => ?_,
        h.running, h.parallel⟩
      have hne : s ≠ slot := by
        intro hss
        simp only [hss, hact] at hin
        cases hin
      obtain ⟨hbuffers, hresults⟩ := h.vacant s hs hin
      exact ⟨hbuffers, (Function.update_of_ne hne _ _).trans hresults⟩
    · exact h
  | complete slot =>
    simp only [NetOp.step, NetData.complete]
    split
    · next hchecked =>
      -- without slot priority an occupied slot is active, with it the bitmap says so
      have hact : σ.table.states slot = .active := by
        cases hpriority : cfg.slotPriorityEnabled with
        | true =>
          exact (h.settled.coherent.bitmap slot slot.isLt).mp (hchecked.2 hpriority)
        | false =>
          have hbusy : σ.table.states slot ≠ .inactive := fun hin =>
            (h.settled.coherent.inactive_iff slot slot.isLt).mp hin hchecked.1
          cases hmode : σ.table.states slot with
          | inactive => exact absurd hmode hbusy
          | active => rfl
          | buffering => exact absurd hmode (h.parallel hpriority slot slot.isLt)
      exact h.release slot.isLt (resets_completion cfg slot σ) hact
        (results_completion (hop hchecked))
    · exact h
  | evict slot =>
    simp only [NetOp.step, NetData.evict]
    split
    · next hstalled =>
      have hact : σ.table.states slot = .active := by
        cases hmode : σ.table.states slot with
        | inactive =>
          have hzero := (h.settled.idle slot slot.isLt hmode).1
          have hpos := hstalled.1
          omega
        | active => rfl
        | buffering => exact absurd hmode (hop hstalled)
      exact h.release slot.isLt (resets_eviction cfg slot (σ.table.frameId slot) σ) hact
        (Function.update_self ..)
    · exact h

/-- Whatever step comes next, a slot that it gives to a frame is clean. -/
def ReusedClean (cfg : NetConfig) (σ : NetData) : Prop :=
  ∀ (op : NetOp cfg) (s : ℕ), s < cfg.slots → σ.table.states s = .inactive →
    (op.step σ).table.states s ≠ .inactive → Clean σ s

theorem Tidy.reusedClean (h : Tidy cfg σ) : ReusedClean cfg σ := by
  intro op s hs hin _
  obtain ⟨hcounters, hcomplete⟩ := h.settled.idle s hs hin
  obtain ⟨hbuffers, hresults⟩ := h.vacant s hs hin
  exact ⟨hbuffers, hresults, hcounters, hcomplete⟩

/-- Slots are clean when they are reused, in every run whose exits clear every piece. -/
theorem reused_slots_clean (cfg : NetConfig) (ops : List (NetOp cfg))
    (hrun : EachStep LeavesClean ops .initial) : ReusedClean cfg (netAfter ops .initial) :=
  (netAfter_keeps (Tidy cfg) Tidy.step ops (tidy_initial cfg) hrun).reusedClean

/-- The handovers among three slots evict an active slot and complete another. -/
theorem reused_slots_clean_after_handovers :
    ReusedClean threeSlots (netAfter handovers .initial) :=
  reused_slots_clean threeSlots handovers (by decide +kernel)

/-- Frame 1 is evicted while it buffers in slot 1, and its packet stays in the buffer. -/
def evictedWhileBuffering : List (NetOp threeSlots) :=
  [.admitPacket 0 0, .admitPacket 1 0, .evict ⟨1, one_lt_threeSlots⟩]

/-- Two slots and a budget of two frames. -/
def twoFrames : NetConfig where
  slots := 2
  slotPriorityEnabled := false
  hasNetwork := true
  maxFrames := 2
  one_le_slots := Nat.zero_lt_two
  slots_le := two_slots_le
  framePackets := 1
  network := rfl

/-- Frame 0 completes while frame 1 takes the rest of the budget: its packet stays among the
results of slot 0. -/
def completedWithoutRestart : List (NetOp twoFrames) :=
  [.admitPacket 0 0, .admitPacket 1 0, .complete ⟨0, by decide⟩]

/-- Both exits leave a slot dirty for the next frame. -/
theorem reused_slots_dirty :
    ¬ ReusedClean threeSlots (netAfter evictedWhileBuffering .initial) ∧
      ¬ ReusedClean twoFrames (netAfter completedWithoutRestart .initial) := by
  constructor
  · intro h
    have hclean := h (.admitPacket 2 0) 1 (by decide) (by decide +kernel) (by decide +kernel)
    exact absurd hclean.buffers (by decide +kernel)
  · intro h
    have hclean := h (.admitPacket 2 0) 0 (by decide) (by decide +kernel) (by decide +kernel)
    exact absurd hclean.results (by decide +kernel)

end Tomii.Slots
