import Tomii.Slots.NetworkSlots
import Tomii.Slots.SlotMoves

/-! # One active slot under slot priority

Slots are activated in three places. What every network run keeps comes first, then that at most
one slot is active when no buffering slot is evicted from its queue. -/
namespace Tomii.Slots
set_option autoImplicit false
set_option maxHeartbeats 250000

variable {cfg : SlotConfig} {d : SlotData}

/-! ## What every network run keeps -/

theorem Coherent.of_views {d' : SlotData} (h : Coherent cfg d) (hstates : d'.states = d.states)
    (hbitmap : d'.activeBitmap = d.activeBitmap) (hrun : d'.runningFrames = d.runningFrames)
    (hframe : d'.frameId = d.frameId) (hlast : d'.lastAssigned = d.lastAssigned) :
    Coherent cfg d' where
  inRange := hrun ▸ h.inRange
  lastInRange := hlast ▸ h.lastInRange
  inactive_iff := by rw [hstates, hrun]; exact h.inactive_iff
  distinct := hrun ▸ h.distinct
  bitmap := by rw [hstates, hbitmap]; exact h.bitmap
  frameOf := by rw [hrun, hframe]; exact h.frameOf
  noFrame := by rw [hrun, hframe]; exact h.noFrame

/-- The table is coherent, and an inactive slot has no packets counted. -/
structure Settled (cfg : NetConfig) (σ : NetData) : Prop where
  coherent : Coherent cfg.toSlotConfig σ.table
  indexed : Indexed cfg.toSlotConfig σ.table
  idle : ∀ s < cfg.slots, σ.table.states s = .inactive →
    σ.packetCounters s = 0 ∧ σ.packetComplete s = false

theorem settled_initial (cfg : NetConfig) : Settled cfg .initial where
  coherent := coherent_initial _
  indexed := indexed_initial _
  idle := fun _ _ _ => ⟨rfl, rfl⟩

section Steps

variable {cfg : NetConfig} {σ σ' : NetData} {slot : ℕ}

/-- What `release_and_dispatch_next` does. -/
structure Released (cfg : NetConfig) (slot : ℕ) (σ σ' : NetData) : Prop where
  counters : σ'.packetCounters = σ.packetCounters
  flags : σ'.packetComplete = σ.packetComplete
  table : Vacates cfg.toSlotConfig σ.table slot σ'.table ∧ σ'.results = σ.results ∨
    ∃ next, Promotes cfg.toSlotConfig σ.table slot next σ'.table ∧ ∀ s ≠ next, σ'.results s = σ.results s

theorem releaseAndDispatchNext_released (h : Coherent cfg.toSlotConfig σ.table)
    (hslot : slot < cfg.slots) : Released cfg slot σ (σ.releaseAndDispatchNext cfg slot) := by
  unfold NetData.releaseAndDispatchNext
  rcases release_cases h hslot with ⟨d', heq, hvac⟩ | ⟨next, d', heq, hprom⟩
  · rw [heq]
    exact ⟨rfl, rfl, .inl ⟨hvac, rfl⟩⟩
  · rw [heq]
    refine ⟨rfl, rfl, .inr ⟨next, hprom, fun s hs => ?_⟩⟩
    simp [NetData.storePackets, Function.update_of_ne hs]

/-- Inactive slots after a release: the released one, and those that were inactive. -/
theorem Released.inactive (h : Released cfg slot σ σ') {s : ℕ}
    (hs : σ'.table.states s = .inactive) : s = slot ∨ σ.table.states s = .inactive := by
  by_cases hss : s = slot
  · exact .inl hss
  · rcases h.table with ⟨hvac, -⟩ | ⟨next, hprom, -⟩
    · rw [hvac.states, Function.update_of_ne hss] at hs
      exact .inr hs
    · rw [hprom.states] at hs
      by_cases hsn : s = next
      · rw [hsn, Function.update_self] at hs
        cases hs
      · rw [Function.update_of_ne hsn, Function.update_of_ne hss] at hs
        exact .inr hs

/-- What happens to a slot before its release: its counters are reset, the views of the table
and the other slots are left alone. -/
structure Resets (slot : ℕ) (σ σ' : NetData) : Prop where
  states : σ'.table.states = σ.table.states
  bitmap : σ'.table.activeBitmap = σ.table.activeBitmap
  running : σ'.table.runningFrames = σ.table.runningFrames
  frameId : σ'.table.frameId = σ.table.frameId
  last : σ'.table.lastAssigned = σ.table.lastAssigned
  map : σ'.table.frameSlotMap = σ.table.frameSlotMap
  buffers : σ'.table.buffers = σ.table.buffers
  counters : σ'.packetCounters = Function.update σ.packetCounters slot 0
  flags : σ'.packetComplete = Function.update σ.packetComplete slot false
  results : ∀ s ≠ slot, σ'.results s = σ.results s

theorem resets_completion (cfg : NetConfig) (slot : ℕ) (σ : NetData) :
    Resets slot σ ((σ.resetSlotState slot).processSlotCompletion cfg slot) := by
  unfold NetData.processSlotCompletion
  simp only
  split
  · exact ⟨rfl, rfl, rfl, rfl, rfl, rfl, rfl, rfl, rfl, fun s hs => Function.update_of_ne hs _ _⟩
  · exact ⟨rfl, rfl, rfl, rfl, rfl, rfl, rfl, rfl, rfl, fun _ _ => rfl⟩

theorem resets_eviction (cfg : NetConfig) (slot frame : ℕ) (σ : NetData) :
    Resets slot σ (((σ.markFrameDropped cfg frame).resetSlotState slot).reinitSlot slot) := by
  unfold NetData.markFrameDropped
  split
  · exact ⟨rfl, rfl, rfl, rfl, rfl, rfl, rfl, rfl, rfl, fun s hs => Function.update_of_ne hs _ _⟩
  · exact ⟨rfl, rfl, rfl, rfl, rfl, rfl, rfl, rfl, rfl, fun s hs => Function.update_of_ne hs _ _⟩

theorem Resets.coherent (hr : Resets slot σ σ') (h : Coherent cfg.toSlotConfig σ.table) :
    Coherent cfg.toSlotConfig σ'.table :=
  h.of_views hr.states hr.bitmap hr.running hr.frameId hr.last

theorem Resets.released (hr : Resets slot σ σ') (h : Coherent cfg.toSlotConfig σ.table)
    (hslot : slot < cfg.slots) : Released cfg slot σ' (σ'.releaseAndDispatchNext cfg slot) :=
  releaseAndDispatchNext_released (hr.coherent h) hslot

theorem Settled.release (h : Settled cfg σ) (hslot : slot < cfg.slots) (hr : Resets slot σ σ') :
    Settled cfg (σ'.releaseAndDispatchNext cfg slot) := by
  have hcoherent := hr.coherent h.coherent
  have hindexed : Indexed cfg.toSlotConfig σ'.table :=
    ⟨by rw [hr.running, hr.map]; exact h.indexed.sound, hr.last ▸ h.indexed.lastInRange⟩
  have hreleased := hr.released h.coherent hslot
  refine ⟨?_, ?_, fun s hs hinactive => ?_⟩
  · have hcoh := hcoherent.releaseAndActivateNext hslot
    unfold NetData.releaseAndDispatchNext
    split
    · next next buffered d' heq => rw [heq] at hcoh; exact hcoh
    · next d' heq => rw [heq] at hcoh; exact hcoh
  · have hidx := hindexed.release slot
    unfold NetData.releaseAndDispatchNext
    split
    · next next buffered d' heq => rw [heq] at hidx; exact hidx
    · next d' heq => rw [heq] at hidx; exact hidx
  · rw [hreleased.counters, hreleased.flags, hr.counters, hr.flags]
    by_cases hss : s = slot
    · simp [hss]
    · rw [Function.update_of_ne hss, Function.update_of_ne hss]
      have hbefore := (hreleased.inactive hinactive).resolve_left hss
      exact h.idle s hs (hr.states ▸ hbefore)

/-- An assignment, with or without a packet, on an occupied slot or on one it occupies. -/
theorem Settled.assign (h : Settled cfg σ) (frame : ℕ) :
    Settled cfg
      { σ with table := (σ.table.assignFrameToAvailableSlot cfg.toSlotConfig frame).2 } := by
  refine ⟨h.coherent.assign frame, h.indexed.assign frame, fun s hs hinactive => h.idle s hs ?_⟩
  rcases assign_cases h.indexed frame with
    heq | ⟨slot, hslot, heq⟩ | ⟨slot, mode, newly, d', heq, hocc⟩
  · rwa [heq] at hinactive
  · rwa [heq] at hinactive
  · rw [heq] at hinactive
    simp only [hocc.states] at hinactive
    by_cases hss : s = slot
    · rw [hss, Function.update_self] at hinactive
      exact absurd hinactive hocc.mode_ne
    · rwa [Function.update_of_ne hss] at hinactive

/-- The slot that an assignment returns is occupied. -/
theorem assigned_occupied (h : Settled cfg σ) {frame newly : _} {d' : SlotData}
    (heq : σ.table.assignFrameToAvailableSlot cfg.toSlotConfig frame = (some (slot, newly), d')) :
    slot < cfg.slots ∧ d'.states slot ≠ .inactive := by
  rcases assign_cases h.indexed frame with hn | ⟨slot', hin, ho⟩ | ⟨slot', mode, new, d1, ho, hocc⟩
  · rw [hn] at heq
    cases heq
  · rw [ho] at heq
    obtain ⟨hslot, rfl⟩ := Prod.mk.inj heq
    obtain ⟨rfl, -⟩ := Prod.mk.inj (Option.some.inj hslot)
    obtain ⟨e, he, rfl⟩ := List.mem_map.mp hin
    have hlt := h.coherent.inRange e he
    exact ⟨hlt, fun hfree => (h.coherent.inactive_iff _ hlt).mp hfree hin⟩
  · rw [ho] at heq
    obtain ⟨hslot, rfl⟩ := Prod.mk.inj heq
    obtain ⟨rfl, -⟩ := Prod.mk.inj (Option.some.inj hslot)
    refine ⟨hocc.inRange, ?_⟩
    rw [hocc.states, Function.update_self]
    exact hocc.mode_ne

/-- A packet admitted to `slot` of the table `d`: besides that slot nothing but the table moves, and
an active slot buffers nothing. -/
structure Admitted (slot : ℕ) (d : SlotData) (σ σ' : NetData) : Prop where
  states : σ'.table.states = d.states
  bitmap : σ'.table.activeBitmap = d.activeBitmap
  running : σ'.table.runningFrames = d.runningFrames
  frameId : σ'.table.frameId = d.frameId
  last : σ'.table.lastAssigned = d.lastAssigned
  map : σ'.table.frameSlotMap = d.frameSlotMap
  buffers : ∀ s, s ≠ slot ∨ wordHas d.activeBitmap s = true → σ'.table.buffers s = d.buffers s
  counters : ∀ s ≠ slot, σ'.packetCounters s = σ.packetCounters s
  flags : ∀ s ≠ slot, σ'.packetComplete s = σ.packetComplete s
  results : ∀ s ≠ slot, σ'.results s = σ.results s

theorem admit_cases (cfg : NetConfig) (frame index : ℕ) (σ : NetData) :
    (∃ d, (d = σ.table ∨ σ.table.assignFrameToAvailableSlot cfg.toSlotConfig frame = (none, d)) ∧
        σ.admitPacket cfg frame index = { σ with table := d }) ∨
      ∃ slot newly d, σ.table.assignFrameToAvailableSlot cfg.toSlotConfig frame =
        (some (slot, newly), d) ∧ Admitted slot d σ (σ.admitPacket cfg frame index) := by
  unfold NetData.admitPacket
  split
  · exact .inl ⟨σ.table, .inl rfl, rfl⟩
  · split
    · next d heq => exact .inl ⟨d, .inr heq, rfl⟩
    · next slot newly d heq =>
      refine .inr ⟨slot, newly, d, heq, ?_⟩
      unfold NetData.checkFrameCompletion NetData.route
      by_cases hactive : wordHas d.activeBitmap slot = true
      · simp only [hactive, if_true, NetData.storePackets]
        split
        · refine ⟨rfl, rfl, rfl, rfl, rfl, rfl, fun _ _ => rfl, ?_, ?_, ?_⟩
          all_goals exact fun s hs => Function.update_of_ne hs _ _
        · refine ⟨rfl, rfl, rfl, rfl, rfl, rfl, fun _ _ => rfl, ?_, fun _ _ => rfl, ?_⟩
          all_goals exact fun s hs => Function.update_of_ne hs _ _
      · have hbuffers : ∀ s, s ≠ slot ∨ wordHas d.activeBitmap s = true →
            Function.update d.buffers slot (d.buffers slot ++ [NodeInfo.new 0 slot index 0]) s =
              d.buffers s := by
          intro s hs
          have hne : s ≠ slot := by
            rcases hs with hs | hs
            · exact hs
            · exact fun heq => hactive (heq ▸ hs)
          exact Function.update_of_ne hne _ _
        simp only [hactive, Bool.false_eq_true, if_false]
        split
        · refine ⟨rfl, rfl, rfl, rfl, rfl, rfl, hbuffers, ?_, ?_, fun _ _ => rfl⟩
          all_goals exact fun s hs => Function.update_of_ne hs _ _
        · refine ⟨rfl, rfl, rfl, rfl, rfl, rfl, hbuffers, ?_, fun _ _ => rfl, fun _ _ => rfl⟩
          exact fun s hs => Function.update_of_ne hs _ _

theorem Settled.admitPacket (h : Settled cfg σ) (frame index : ℕ) :
    Settled cfg (σ.admitPacket cfg frame index) := by
  have hassign := h.assign frame
  rcases admit_cases cfg frame index σ with ⟨d, hd, heq⟩ | ⟨slot, newly, d, hd, hadm⟩
  · rw [heq]
    rcases hd with rfl | hd
    · exact h
    · rwa [hd] at hassign
  · obtain ⟨hslot, hocc⟩ := assigned_occupied h hd
    rw [hd] at hassign
    refine ⟨hassign.coherent.of_views hadm.states hadm.bitmap hadm.running hadm.frameId hadm.last,
      ⟨by rw [hadm.running, hadm.map]; exact hassign.indexed.sound,
        by rw [hadm.last]; exact hassign.indexed.lastInRange⟩, fun s hs hinactive => ?_⟩
    rw [hadm.states] at hinactive
    have hne : s ≠ slot := fun heq => hocc (heq ▸ hinactive)
    rw [hadm.counters s hne, hadm.flags s hne]
    exact hassign.idle s hs hinactive

/-- Every step keeps the slots settled. -/
theorem Settled.step (h : Settled cfg σ) (op : NetOp cfg) : Settled cfg (op.step σ) := by
  cases op with
  | assign frame => exact h.assign frame
  | admitPacket frame index => exact h.admitPacket frame index
  | store slot node index =>
    simp only [NetOp.step]
    split
    · exact ⟨h.coherent, h.indexed, h.idle⟩
    · exact h
  | complete slot =>
    simp only [NetOp.step, NetData.complete]
    split
    · exact h.release slot.isLt (resets_completion cfg slot σ)
    · exact h
  | evict slot =>
    simp only [NetOp.step, NetData.evict]
    split
    · exact h.release slot.isLt (resets_eviction cfg slot (σ.table.frameId slot) σ)
    · exact h

/-! ## At most one active slot -/

/-- At most one slot is active; while one is, the slot assigned last is occupied; and no slot
buffers without one. -/
structure Serial (cfg : SlotConfig) (d : SlotData) : Prop where
  one : ∀ s < cfg.slots, ∀ t < cfg.slots, d.states s = .active → d.states t = .active → s = t
  last : ∀ s < cfg.slots, d.states s = .active → d.states d.lastAssigned ≠ .inactive
  queue : ∀ s < cfg.slots, d.states s = .buffering → ∃ t < cfg.slots, d.states t = .active

theorem serial_initial (cfg : SlotConfig) : Serial cfg .initial where
  one := fun _ _ _ _ h => (nomatch h)
  last := fun _ _ h => (nomatch h)
  queue := fun _ _ h => (nomatch h)

theorem Serial.of_views {cfg : SlotConfig} {d d' : SlotData} (h : Serial cfg d)
    (hstates : d'.states = d.states) (hlast : d'.lastAssigned = d.lastAssigned) :
    Serial cfg d' where
  one := hstates ▸ h.one
  last := by rw [hstates, hlast]; exact h.last
  queue := hstates ▸ h.queue

/-- A new frame is activated only when no slot is, and queued behind an active slot. -/
theorem Serial.occupy {cfg : SlotConfig} {d d' : SlotData} {slot : ℕ} {mode : SlotState}
    (h : Serial cfg d) (hpriority : cfg.slotPriorityEnabled = true)
    (hlast : d.lastAssigned < cfg.slots) (hocc : Occupies cfg d slot mode d') : Serial cfg d' := by
  have hstates := hocc.states
  cases mode with
  | inactive => exact absurd rfl hocc.mode_ne
  | active =>
    have hslot : slot = d.lastAssigned := by
      rcases hocc.active rfl with hs | hoff
      · exact hs
      · rw [hpriority] at hoff
        cases hoff
    have hnone : ∀ s < cfg.slots, d.states s ≠ .active := fun s hs hact =>
      h.last s hs hact (hslot ▸ hocc.free)
    have honly : ∀ s < cfg.slots, d'.states s = .active → s = slot := by
      intro s hs hact
      by_contra hne
      rw [hstates, Function.update_of_ne hne] at hact
      exact hnone s hs hact
    refine ⟨fun s hs t ht hsa hta => (honly s hs hsa).trans (honly t ht hta).symm, ?_, ?_⟩
    · intro s hs _
      rw [hocc.last, hstates, Function.update_self]
      decide
    · intro s hs hbuf
      exact ⟨slot, hocc.inRange, by rw [hstates, Function.update_self]⟩
  | buffering =>
    have hact : ∀ s, d'.states s = .active ↔ d.states s = .active := by
      intro s
      rw [hstates]
      by_cases hss : s = slot
      · simp [hss, hocc.free]
      · rw [Function.update_of_ne hss]
    refine ⟨fun s hs t ht hsa hta => h.one s hs t ht ((hact s).mp hsa) ((hact t).mp hta), ?_, ?_⟩
    · intro s hs _
      rw [hocc.last, hstates, Function.update_self]
      decide
    · intro s hs hbuf
      -- the slot assigned last is active, or waits for one that is
      have hbusy := hocc.buffering rfl
      cases hmode : d.states d.lastAssigned with
      | inactive => exact absurd hmode hbusy
      | active => exact ⟨_, hlast, (hact _).mpr hmode⟩
      | buffering =>
        obtain ⟨t, ht, hta⟩ := h.queue _ hlast hmode
        exact ⟨t, ht, (hact t).mpr hta⟩

/-- Releasing the active slot hands over; releasing a queued slot must leave nothing queued and not
be the slot assigned last. -/
theorem Serial.release {cfg : SlotConfig} {d d' : SlotData} {slot : ℕ} (h : Serial cfg d)
    (hpriority : cfg.slotPriorityEnabled = true) (hslot : slot < cfg.slots)
    (hbusy : d.states slot ≠ .inactive)
    (hqueue : d.states slot = .buffering →
      d.lastAssigned ≠ slot ∧ ∀ t < cfg.slots, t ≠ slot → d.states t ≠ .buffering)
    (hrel : Vacates cfg d slot d' ∨ ∃ next, Promotes cfg d slot next d') : Serial cfg d' := by
  rcases hrel with hvac | ⟨next, hprom⟩
  · have hact : ∀ s, d'.states s = .active → s ≠ slot ∧ d.states s = .active := by
      intro s hsa
      rw [hvac.states] at hsa
      by_cases hss : s = slot
      · rw [hss, Function.update_self] at hsa
        cases hsa
      · exact ⟨hss, by rwa [Function.update_of_ne hss] at hsa⟩
    refine ⟨fun s hs t ht hsa hta => h.one s hs t ht (hact s hsa).2 (hact t hta).2, ?_, ?_⟩
    · intro s hs hsa
      obtain ⟨hne, hbefore⟩ := hact s hsa
      have hother : d.lastAssigned ≠ slot := by
        cases hmode : d.states slot with
        | inactive => exact absurd hmode hbusy
        | active => exact absurd (h.one s hs slot hslot hbefore hmode) hne
        | buffering => exact (hqueue hmode).1
      rw [hvac.last, hvac.states, Function.update_of_ne hother]
      exact h.last s hs hbefore
    · intro s hs hbuf
      exact absurd hbuf (hvac.noQueue hpriority s hs)
  · have hwasActive : d.states slot = .active := by
      cases hmode : d.states slot with
      | inactive => exact absurd hmode hbusy
      | active => rfl
      | buffering => exact absurd hprom.waiting ((hqueue hmode).2 next hprom.inRange hprom.ne)
    have honly : ∀ s < cfg.slots, d'.states s = .active → s = next := by
      intro s hs hsa
      by_contra hne
      rw [hprom.states, Function.update_of_ne hne] at hsa
      by_cases hss : s = slot
      · rw [hss, Function.update_self] at hsa
        cases hsa
      · rw [Function.update_of_ne hss] at hsa
        exact hss (h.one s hs slot hslot hsa hwasActive)
    refine ⟨fun s hs t ht hsa hta => (honly s hs hsa).trans (honly t ht hta).symm, ?_, ?_⟩
    · intro s hs _
      rw [hprom.last, hprom.states, Function.update_self]
      decide
    · intro s hs _
      exact ⟨next, hprom.inRange, by rw [hprom.states, Function.update_self]⟩

/-- An eviction leaves the queue in order: it takes the active slot, or a buffering slot that is
the only one and not the slot assigned last. -/
def KeepsQueue : NetOp cfg → NetData → Prop
  | .evict slot, σ => σ.Stalled cfg slot → σ.table.states slot = .buffering →
      σ.table.lastAssigned ≠ slot ∧
        ∀ t < cfg.slots, t ≠ slot → σ.table.states t ≠ .buffering
  | _, _ => True

instance (op : NetOp cfg) (σ : NetData) : Decidable (KeepsQueue op σ) := by
  cases op with
  | evict slot => exact inferInstanceAs (Decidable (_ → _))
  | _ => exact .isTrue trivial

theorem Resets.serial (hr : Resets slot σ σ') (h : Settled cfg σ)
    (hserial : Serial cfg.toSlotConfig σ.table) (hpriority : cfg.slotPriorityEnabled = true)
    (hslot : slot < cfg.slots) (hbusy : σ.table.states slot ≠ .inactive)
    (hqueue : σ.table.states slot = .buffering →
      σ.table.lastAssigned ≠ slot ∧ ∀ t < cfg.slots, t ≠ slot → σ.table.states t ≠ .buffering) :
    Serial cfg.toSlotConfig (σ'.releaseAndDispatchNext cfg slot).table := by
  have hbefore := hserial.of_views hr.states hr.last
  have hreleased := hr.released h.coherent hslot
  rw [← hr.states] at hbusy hqueue
  rw [← hr.last] at hqueue
  apply hbefore.release hpriority hslot hbusy hqueue
  rcases hreleased.table with ⟨hvac, -⟩ | ⟨next, hprom, -⟩
  · exact .inl hvac
  · exact .inr ⟨next, hprom⟩

/-- Under the condition a step keeps the slots serial. -/
theorem Serial.step (hpriority : cfg.slotPriorityEnabled = true) (op : NetOp cfg)
    (h : Settled cfg σ ∧ Serial cfg.toSlotConfig σ.table) (hop : KeepsQueue op σ) :
    Settled cfg (op.step σ) ∧ Serial cfg.toSlotConfig (op.step σ).table := by
  obtain ⟨hsettled, hserial⟩ := h
  refine ⟨hsettled.step op, ?_⟩
  have hlast := hsettled.coherent.lastInRange
  have hassign : ∀ frame, Serial cfg.toSlotConfig
      (σ.table.assignFrameToAvailableSlot cfg.toSlotConfig frame).2 := by
    intro frame
    rcases assign_cases hsettled.indexed frame with
      heq | ⟨slot, hslot, heq⟩ | ⟨slot, mode, newly, d', heq, hocc⟩
    · rwa [heq]
    · rwa [heq]
    · rw [heq]
      exact hserial.occupy hpriority hlast hocc
  cases op with
  | assign frame => exact hassign frame
  | admitPacket frame index =>
    simp only [NetOp.step]
    rcases admit_cases cfg frame index σ with ⟨d, hd, heq⟩ | ⟨slot, newly, d, hd, hadm⟩
    · rw [heq]
      rcases hd with rfl | hd
      · exact hserial
      · have := hassign frame
        rwa [hd] at this
    · have hafter := hassign frame
      rw [hd] at hafter
      exact hafter.of_views hadm.states hadm.last
  | store slot node index =>
    simp only [NetOp.step]
    split
    · exact hserial
    · exact hserial
  | complete slot =>
    simp only [NetOp.step, NetData.complete]
    split
    · next hchecked =>
      have hactive : σ.table.states slot = .active :=
        (hsettled.coherent.bitmap slot slot.isLt).mp (hchecked.2 hpriority)
      apply (resets_completion cfg slot σ).serial hsettled hserial hpriority slot.isLt
      · rw [hactive]
        decide
      · intro hbuf
        rw [hactive] at hbuf
        cases hbuf
    · exact hserial
  | evict slot =>
    simp only [NetOp.step, NetData.evict]
    split
    · next hstalled =>
      apply (resets_eviction cfg slot (σ.table.frameId slot) σ).serial hsettled hserial hpriority
        slot.isLt
      · intro hfree
        have hzero := (hsettled.idle slot slot.isLt hfree).1
        have hpos := hstalled.1
        omega
      · exact hop hstalled
    · exact hserial

end Steps

/-- At most one slot is `Active`. -/
def OneActive (cfg : NetConfig) (σ : NetData) : Prop :=
  ∀ s < cfg.slots, ∀ t < cfg.slots,
    σ.table.states s = .active → σ.table.states t = .active → s = t

instance (cfg : NetConfig) (σ : NetData) : Decidable (OneActive cfg σ) :=
  inferInstanceAs (Decidable (∀ s < cfg.slots, ∀ t < cfg.slots, _ → _ → s = t))

/-- With slot priority, evictions that leave the queue in order keep at most one slot active. -/
theorem one_active_after (cfg : NetConfig) (hpriority : cfg.slotPriorityEnabled = true)
    (ops : List (NetOp cfg)) (hrun : EachStep KeepsQueue ops .initial) :
    OneActive cfg (netAfter ops .initial) :=
  (netAfter_keeps (fun σ => Settled cfg σ ∧ Serial cfg.toSlotConfig σ.table)
    (fun op _ => Serial.step hpriority op) ops ⟨settled_initial cfg, serial_initial _⟩ hrun).2.one

/-- Three slots under slot priority, two packets a frame. -/
def threeSlots : NetConfig where
  slots := 3
  slotPriorityEnabled := true
  hasNetwork := true
  maxFrames := 10
  one_le_slots := by decide
  slots_le := by decide
  framePackets := 2
  network := rfl

theorem one_lt_threeSlots : 1 < threeSlots.slots := by decide

/-- The active slot is evicted, the promoted one completes, and a new frame arrives. -/
def handovers : List (NetOp threeSlots) :=
  [.admitPacket 0 0, .admitPacket 1 0, .evict ⟨0, by decide⟩, .complete ⟨1, one_lt_threeSlots⟩,
    .admitPacket 2 0]

theorem one_active_after_handovers : OneActive threeSlots (netAfter handovers .initial) :=
  one_active_after threeSlots rfl handovers (by decide +kernel)

/-- The frame buffering in slot 1 is evicted while slot 0 is active: slot 2 is promoted. -/
theorem eviction_activates_second_slot :
    ¬ ∀ (cfg : NetConfig), cfg.slotPriorityEnabled = true → ∀ ops : List (NetOp cfg),
      OneActive cfg (netAfter ops .initial) := by
  intro h
  have hone := h threeSlots rfl
    [.admitPacket 0 0, .admitPacket 1 0, .admitPacket 2 0, .evict ⟨1, by decide⟩]
  exact absurd hone (by decide +kernel)

end Tomii.Slots
