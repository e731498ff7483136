import Tomii.Slots.Coherence

/-! # Runs of the slot table

Sequences of atomic assignments, releases and restarts, as the resolution threads issue them:
the table stays coherent, and the lock-free map answers what a scan of the running frames
would. -/
namespace Tomii.Slots
set_option autoImplicit false
set_option maxHeartbeats 250000

/-- One atomic operation; a restart carries the completion count that it loads. -/
inductive SlotOp (cfg : SlotConfig) where
  | assign (frame : ℕ)
  | release (slot : Fin cfg.slots)
  | restart (slot : Fin cfg.slots) (completed : ℕ)

/-- An implementation of `assign_frame_to_available_slot`. -/
abbrev Assigner := ℕ → SlotData → Option (ℕ × Bool) × SlotData

variable {cfg : SlotConfig}

/-- The reply of an assignment, if the operation is one, and the table afterwards. -/
def SlotOp.step (assign : Assigner) : SlotOp cfg → SlotData →
    Option (Option (ℕ × Bool)) × SlotData
  | .assign frame, d => ((assign frame d).1, (assign frame d).2)
  | .release slot, d => (none, (d.releaseAndActivateNext cfg slot).2)
  | .restart slot completed, d => (none, d.restartSlotNonnetwork cfg slot completed)

/-- The table after a sequence of operations. -/
def tableAfter (assign : Assigner) : List (SlotOp cfg) → SlotData → SlotData
  | [], d => d
  | op :: ops, d => tableAfter assign ops (op.step assign d).2

/-- The replies of the assignments of a sequence, in order. -/
def replies (assign : Assigner) : List (SlotOp cfg) → SlotData → List (Option (ℕ × Bool))
  | [], _ => []
  | op :: ops, d => (op.step assign d).1.toList ++ replies assign ops (op.step assign d).2

variable (cfg) in
/-- The assignment of the runtime, which consults the map first. -/
def cached : Assigner := SlotData.assignFrameToAvailableSlot cfg

variable (cfg) in
/-- The assignment that always scans. -/
def scanning : Assigner := SlotData.assignScanning cfg

/-! ## Coherence along runs -/

/-- A condition on each operation of a run, in the table before it. -/
def Throughout (P : SlotOp cfg → SlotData → Prop) : List (SlotOp cfg) → SlotData → Prop
  | [], _ => True
  | op :: ops, d => P op d ∧ Throughout P ops (op.step (cached cfg) d).2

instance decidableThroughout (P : SlotOp cfg → SlotData → Prop) [∀ op d, Decidable (P op d)] :
    (ops : List (SlotOp cfg)) → (d : SlotData) → Decidable (Throughout P ops d)
  | [], _ => .isTrue trivial
  | op :: ops, d =>
    @instDecidableAnd _ _ _ (decidableThroughout P ops (op.step (cached cfg) d).2)

/-- The precondition in the docstring of `restart_slot_nonnetwork`: the slot has been released.
In network mode a restart does nothing. -/
def SlotOp.Released : SlotOp cfg → SlotData → Prop
  | .restart slot _, d => cfg.hasNetwork = false → d.states slot = .inactive
  | _, _ => True

instance (d : SlotData) : (op : SlotOp cfg) → Decidable (op.Released d)
  | .restart slot _ =>
    inferInstanceAs (Decidable (cfg.hasNetwork = false → d.states slot = .inactive))
  | .assign _ => .isTrue trivial
  | .release _ => .isTrue trivial

theorem Coherent.step {d : SlotData} (h : Coherent cfg d) (op : SlotOp cfg)
    (hreleased : op.Released d) : Coherent cfg (op.step (cached cfg) d).2 := by
  cases op with
  | assign frame => exact h.assign frame
  | release slot => exact h.releaseAndActivateNext slot.isLt
  | restart slot completed => exact h.restart slot.isLt completed hreleased

theorem coherent_after (ops : List (SlotOp cfg)) {d : SlotData} (h : Coherent cfg d)
    (hreleased : Throughout SlotOp.Released ops d) :
    Coherent cfg (tableAfter (cached cfg) ops d) := by
  induction ops generalizing d with
  | nil => exact h
  | cons op ops ih => exact ih (h.step op hreleased.1) hreleased.2

/-- The five views agree after any operations that restart released slots only. -/
theorem slot_table_coherent (cfg : SlotConfig) (ops : List (SlotOp cfg))
    (hreleased : Throughout SlotOp.Released ops .initial) :
    Coherent cfg (tableAfter (cached cfg) ops .initial) :=
  coherent_after ops (coherent_initial cfg) hreleased

/-- Two slots of a compute-only graph. -/
def twoSlots : SlotConfig where
  slots := 2
  slotPriorityEnabled := false
  hasNetwork := false
  maxFrames := 10
  one_le_slots := by decide
  slots_le := by decide

def SlotConfig.first (cfg : SlotConfig) : Fin cfg.slots := ⟨0, cfg.one_le_slots⟩

theorem slot_table_coherent_at_twoSlots :
    Coherent twoSlots (tableAfter (cached twoSlots)
      [.assign 0, .assign 1, .release twoSlots.first, .restart twoSlots.first 1] .initial) :=
  slot_table_coherent twoSlots _ (by decide +kernel)

/-- A restart of a slot in use gives it a second entry. -/
theorem slot_table_incoherent :
    ¬ ∀ (cfg : SlotConfig) (ops : List (SlotOp cfg)),
      Coherent cfg (tableAfter (cached cfg) ops .initial) := by
  intro h
  have hdistinct := (h twoSlots [.assign 0, .restart twoSlots.first 1]).distinct
  have hentries : (tableAfter (cached twoSlots) [.assign 0, .restart twoSlots.first 1]
      .initial).runningFrames = [(0, 0), (2, 0)] := by
    decide +kernel
  rw [hentries] at hdistinct
  exact absurd hdistinct (by decide)

/-! ### The order of the callers -/

/-- `check_slots` restarts a slot that it has released, and a compute-only graph assigns frames
only before its slots are released. `freed` are the slots released and neither restarted nor
open to an assignment since. -/
def InCallOrder (freed : List (Fin cfg.slots)) : List (SlotOp cfg) → Prop
  | [] => True
  | .assign _ :: ops => InCallOrder [] ops
  | .release slot :: ops => InCallOrder (slot :: freed) ops
  | .restart slot _ :: ops =>
    (cfg.hasNetwork = false → slot ∈ freed) ∧ InCallOrder (freed.filter fun s => s ≠ slot) ops

theorem releaseUnderLock_inactive {d : SlotData} (slot : ℕ) {s : ℕ}
    (h : s = slot ∨ d.states s = .inactive) :
    (d.releaseUnderLock cfg slot).2.states s = .inactive := by
  obtain ⟨map, heq⟩ := SlotData.releaseSlot_eq cfg slot d
  have hvacant : (d.releaseSlot cfg slot).states s = .inactive := by
    rw [heq]
    by_cases hs : s = slot
    · simp [hs]
    · simpa [Function.update_of_ne hs, hs] using h
  unfold SlotData.releaseUnderLock
  simp only
  split
  · split
    · exact hvacant
    · next next hnext =>
      have hbuf := (SlotData.nextBuffering_eq_some hnext).1
      have hne : s ≠ next := by
        intro hsn
        rw [hsn, hbuf] at hvacant
        cases hvacant
      simpa [SlotData.activate, Function.update_of_ne hne] using hvacant
  · exact hvacant

theorem releaseAndActivateNext_states (d : SlotData) (slot : ℕ) :
    (d.releaseAndActivateNext cfg slot).2.states = (d.releaseUnderLock cfg slot).2.states := by
  unfold SlotData.releaseAndActivateNext
  split
  · next next buffered d' heq => rw [heq]; rfl
  · rfl

/-- In that order a restart finds its slot released. -/
theorem InCallOrder.released (ops : List (SlotOp cfg)) {freed : List (Fin cfg.slots)}
    {d : SlotData} (hcalls : InCallOrder freed ops)
    (hfreed : ∀ s ∈ freed, d.states s = .inactive) : Throughout SlotOp.Released ops d := by
  induction ops generalizing freed d with
  | nil => trivial
  | cons op ops ih =>
    cases op with
    | assign frame => exact ⟨trivial, ih hcalls (by simp)⟩
    | release slot =>
      refine ⟨trivial, ih hcalls fun s hs => ?_⟩
      simp only [SlotOp.step]
      rw [releaseAndActivateNext_states]
      apply releaseUnderLock_inactive
      rcases List.mem_cons.mp hs with rfl | hs
      · exact .inl rfl
      · exact .inr (hfreed s hs)
    | restart slot completed =>
      obtain ⟨hslot, hrest⟩ := hcalls
      refine ⟨fun hnet => hfreed slot (hslot hnet), ih hrest fun s hs => ?_⟩
      obtain ⟨hs, hne⟩ := List.mem_filter.mp hs
      have hval : (s : ℕ) ≠ slot := fun heq => of_decide_eq_true hne (Fin.ext heq)
      simp only [SlotOp.step, SlotData.restartSlotNonnetwork]
      split
      · exact hfreed s hs
      · simpa [Function.update_of_ne hval] using hfreed s hs

/-- So the table is coherent whenever its callers keep to their order. -/
theorem coherent_in_call_order (cfg : SlotConfig) (ops : List (SlotOp cfg))
    (hcalls : InCallOrder [] ops) : Coherent cfg (tableAfter (cached cfg) ops .initial) :=
  coherent_after ops (coherent_initial cfg) (hcalls.released ops (by simp))

/-! ## The map against the scan -/

/-- Every occupied cell of the map is the entry of a running frame. -/
structure MapSound (cfg : SlotConfig) (running : List (ℕ × ℕ)) (map : ℕ → UInt64) : Prop where
  entry : ∀ i, map i ≠ frameSlotEmpty → ∃ e ∈ running,
    SlotData.frameCell cfg e.1 = i ∧ map i = genPack (asU32 e.1) (asU32 e.2)
  inRange : ∀ e ∈ running, e.2 < cfg.slots

/-- The numbers of the running frames fit the tag, and no frame runs twice. -/
structure Numbered (running : List (ℕ × ℕ)) : Prop where
  small : ∀ e ∈ running, e.1 < 2 ^ 32
  once : (running.map Prod.fst).Nodup

theorem mapSound_initial (cfg : SlotConfig) : MapSound cfg [] SlotData.initial.frameSlotMap where
  entry := fun _ h => absurd rfl h
  inRange := by simp

theorem asU32_inj {a b : ℕ} (ha : a < 2 ^ 32) (hb : b < 2 ^ 32) (h : asU32 a = asU32 b) :
    a = b := by
  have hnat := congrArg UInt32.toNat h
  rwa [asU32_toNat_of_lt ha, asU32_toNat_of_lt hb] at hnat

theorem find?_frame {running : List (ℕ × ℕ)} (honce : (running.map Prod.fst).Nodup)
    {e : ℕ × ℕ} (he : e ∈ running) : running.find? (fun e' => e'.1 = e.1) = some e := by
  induction running with
  | nil => cases he
  | cons e' running ih =>
    obtain ⟨hnot, hrest⟩ := List.nodup_cons.mp honce
    rcases List.mem_cons.mp he with rfl | he
    · simp
    · have hne : e'.1 ≠ e.1 := fun heq => hnot (List.mem_map.mpr ⟨e, he, heq.symm⟩)
      simp [hne, ih hrest he]

/-- Only the entry that a search finds is erased by it. -/
theorem mem_eraseP_of_find? {α : Type} {p : α → Bool} {l : List α} {a b : α}
    (hfound : l.find? p = some a) (hb : b ∈ l) (hne : b ≠ a) : b ∈ l.eraseP p := by
  induction l with
  | nil => cases hb
  | cons c l ih =>
    by_cases hc : p c = true
    · obtain rfl : c = a := by simpa [hc] using hfound
      simpa [hc, hne] using hb
    · simp only [List.find?_cons, hc] at hfound
      rw [List.eraseP_cons_of_neg (by simpa using hc), List.mem_cons]
      exact (List.mem_cons.mp hb).imp_right fun hb => ih hfound hb

namespace MapSound

variable {running : List (ℕ × ℕ)} {map : ℕ → UInt64} {d : SlotData}

/-- A hit of the map is the entry of a running frame. -/
theorem lookup (h : MapSound cfg d.runningFrames d.frameSlotMap) {frame slot : ℕ}
    (hhit : d.frameSlotLookup cfg frame = some slot) :
    ∃ e ∈ d.runningFrames, asU32 e.1 = asU32 frame ∧ e.2 = slot := by
  unfold SlotData.frameSlotLookup at hhit
  simp only at hhit
  split at hhit
  · next hcell =>
    obtain ⟨e, he, -, hpacked⟩ := h.entry _ hcell.1
    have hslot := h.inRange e he
    have hle := cfg.slots_le
    have htag := hcell.2
    rw [hpacked, genUnpackGen_genPack] at htag
    rw [hpacked, genUnpackVal_genPack, asU32_toNat_of_lt (by omega), Option.some.injEq] at hhit
    exact ⟨e, he, htag, hhit⟩
  · cases hhit

/-- With numbers that fit, it is what the scan finds. -/
theorem lookup_scans (h : MapSound cfg d.runningFrames d.frameSlotMap)
    (hnum : Numbered d.runningFrames) {frame slot : ℕ} (hframe : frame < 2 ^ 32)
    (hhit : d.frameSlotLookup cfg frame = some slot) :
    d.runningFrames.find? (fun e => e.1 = frame) = some (frame, slot) := by
  obtain ⟨e, he, htag, rfl⟩ := h.lookup hhit
  obtain rfl := asU32_inj (hnum.small e he) hframe htag
  exact find?_frame hnum.once he

/-- A new frame is pushed and published. -/
theorem push (h : MapSound cfg running map) (frame : ℕ) {slot : ℕ} (hslot : slot < cfg.slots) :
    MapSound cfg (running ++ [(frame, slot)])
      (Function.update map (SlotData.frameCell cfg frame)
        (genPack (asU32 frame) (asU32 slot))) := by
  refine ⟨fun i hi => ?_, ?_⟩
  · by_cases hcell : i = SlotData.frameCell cfg frame
    · subst hcell
      exact ⟨(frame, slot), by simp, rfl, by simp⟩
    · rw [Function.update_of_ne hcell] at hi ⊢
      obtain ⟨e, he, heq⟩ := h.entry i hi
      exact ⟨e, List.mem_append_left _ he, heq⟩
  · intro e he
    rcases List.mem_append.mp he with he | he
    · exact h.inRange e he
    · obtain rfl := List.mem_singleton.mp he
      exact hslot

/-- A released entry is removed, and its cell cleared if it still holds the frame. -/
theorem releaseSlot (h : MapSound cfg d.runningFrames d.frameSlotMap) (slot : ℕ) :
    MapSound cfg (d.releaseSlot cfg slot).runningFrames (d.releaseSlot cfg slot).frameSlotMap := by
  unfold SlotData.releaseSlot
  simp only
  split
  · exact h
  · next e hfound =>
    -- a cell that still holds an entry belongs to another frame
    have hother : ∀ i e', e' ∈ d.runningFrames → SlotData.frameCell cfg e'.1 = i →
        d.frameSlotMap i = genPack (asU32 e'.1) (asU32 e'.2) →
        ¬ (i = SlotData.frameCell cfg e.1 ∧ genUnpackGen (d.frameSlotMap i) = asU32 e.1) →
        e' ≠ e := by
      intro i e' _ hcell hpacked hno heq
      subst heq
      exact hno ⟨hcell.symm, by rw [hpacked, genUnpackGen_genPack]⟩
    refine ⟨fun i hi => ?_, ?_⟩
    · simp only [SlotData.frameSlotClear] at hi ⊢
      split at hi
      · next hclear =>
        by_cases hcell : i = SlotData.frameCell cfg e.1
        · subst hcell
          simp at hi
        · rw [if_pos hclear] at ⊢
          simp only [Function.update_of_ne hcell] at hi ⊢
          obtain ⟨e', he', hat, hpacked⟩ := h.entry i hi
          exact ⟨e', mem_eraseP_of_find? hfound he' (hother i e' he' hat hpacked
            fun hno => hcell hno.1), hat, hpacked⟩
      · next hclear =>
        rw [if_neg hclear] at ⊢
        obtain ⟨e', he', hat, hpacked⟩ := h.entry i hi
        refine ⟨e', mem_eraseP_of_find? hfound he' (hother i e' he' hat hpacked
          fun hno => hclear ?_), hat, hpacked⟩
        rw [← hno.1]
        exact ⟨hi, hno.2⟩
    · intro e' he'
      obtain ⟨map, heq⟩ := SlotData.frameSlotClear_eq cfg e.1
        { d with
          states := Function.update d.states slot .inactive
          activeBitmap := wordErase d.activeBitmap slot
          frameId := Function.update d.frameId slot usizeMax
          runningFrames := d.runningFrames.eraseP fun e => e.2 = slot }
      rw [heq] at he'
      exact h.inRange e' (List.eraseP_sublist.subset he')

end MapSound

theorem Numbered.push {running : List (ℕ × ℕ)} (h : Numbered running) {frame : ℕ} (slot : ℕ)
    (hframe : frame < 2 ^ 32) (hnew : frame ∉ running.map Prod.fst) :
    Numbered (running ++ [(frame, slot)]) := by
  refine ⟨?_, ?_⟩
  · intro e he
    rcases List.mem_append.mp he with he | he
    · exact h.small e he
    · obtain rfl := List.mem_singleton.mp he
      exact hframe
  · rw [List.map_append, List.nodup_append]
    refine ⟨h.once, by simp, ?_⟩
    intro a ha b hb
    obtain rfl : b = frame := by simpa using hb
    intro hab
    exact hnew (hab ▸ ha)

/-- What every operation keeps for the map. -/
structure Indexed (cfg : SlotConfig) (d : SlotData) : Prop where
  sound : MapSound cfg d.runningFrames d.frameSlotMap
  lastInRange : d.lastAssigned < cfg.slots

theorem indexed_initial (cfg : SlotConfig) : Indexed cfg .initial :=
  ⟨mapSound_initial cfg, cfg.one_le_slots⟩

namespace Indexed

variable {d : SlotData}

theorem register (h : Indexed cfg d) (frame : ℕ) {slot last : ℕ} (d' : SlotData)
    (hrun : d'.runningFrames = d.runningFrames) (hmap : d'.frameSlotMap = d.frameSlotMap)
    (hslot : slot < cfg.slots) (hlast : last < cfg.slots) :
    Indexed cfg { d'.register cfg frame slot with lastAssigned := last } where
  sound := by
    have hpush := h.sound.push frame hslot
    rw [← hrun, ← hmap] at hpush
    exact hpush
  lastInRange := hlast

theorem assignUnderLock (h : Indexed cfg d) (frame : ℕ) :
    Indexed cfg (d.assignUnderLock cfg frame).2 := by
  unfold SlotData.assignUnderLock
  split
  · exact h
  · split
    · exact h.register frame (d.activate d.lastAssigned) rfl rfl h.lastInRange h.lastInRange
    · split
      · exact h
      · next slot hfound =>
        have hslot : slot < cfg.slots := SlotData.mem_roundRobin (List.mem_of_find?_eq_some hfound)
        split
        · exact h.register frame (d.activate slot) rfl rfl hslot hslot
        · exact h.register frame
            { d with states := Function.update d.states slot .buffering } rfl rfl hslot
            hslot

theorem assign (h : Indexed cfg d) (frame : ℕ) :
    Indexed cfg (d.assignFrameToAvailableSlot cfg frame).2 := by
  have hlocked := h.assignUnderLock frame
  unfold SlotData.assignFrameToAvailableSlot SlotData.assignScanning
  split
  · exact h
  · split
    · next slot d' heq =>
      rw [heq] at hlocked
      exact ⟨hlocked.sound, hlocked.lastInRange⟩
    · exact hlocked

theorem releaseUnderLock (h : Indexed cfg d) (slot : ℕ) :
    Indexed cfg (d.releaseUnderLock cfg slot).2 := by
  have hvacant := h.sound.releaseSlot slot
  obtain ⟨map, heq⟩ := SlotData.releaseSlot_eq cfg slot d
  have hkeep : Indexed cfg (d.releaseSlot cfg slot) :=
    ⟨hvacant, by rw [heq]; exact h.lastInRange⟩
  unfold SlotData.releaseUnderLock
  simp only
  split
  · split
    · exact hkeep
    · next next hnext =>
      obtain ⟨e, he, rfl⟩ := List.mem_map.mp (SlotData.nextBuffering_eq_some hnext).2
      exact ⟨hvacant, hvacant.inRange e he⟩
  · exact hkeep

theorem release (h : Indexed cfg d) (slot : ℕ) :
    Indexed cfg (d.releaseAndActivateNext cfg slot).2 := by
  have hlocked := h.releaseUnderLock slot
  unfold SlotData.releaseAndActivateNext
  split
  · next next buffered d' heq =>
    rw [heq] at hlocked
    exact ⟨hlocked.sound, hlocked.lastInRange⟩
  · exact hlocked

theorem restart (h : Indexed cfg d) (slot : Fin cfg.slots) (completed : ℕ) :
    Indexed cfg (d.restartSlotNonnetwork cfg slot completed) := by
  unfold SlotData.restartSlotNonnetwork
  split
  · exact h
  · exact h.register _ { d with
        states := Function.update d.states slot .active
        activeBitmap := wordInsert d.activeBitmap slot } rfl rfl slot.isLt h.lastInRange

theorem step (h : Indexed cfg d) (op : SlotOp cfg) : Indexed cfg (op.step (cached cfg) d).2 := by
  cases op with
  | assign frame => exact h.assign frame
  | release slot => exact h.release slot
  | restart slot completed => exact h.restart slot completed

end Indexed

/-- What the operations do to the running frames: an assignment pushes a frame that is not there,
a release erases an entry. -/
theorem runningFrames_assign (cfg : SlotConfig) (frame : ℕ) (d : SlotData) :
    (d.assignFrameToAvailableSlot cfg frame).2.runningFrames = d.runningFrames ∨
      frame ∉ d.runningFrames.map Prod.fst ∧ ∃ slot,
        (d.assignFrameToAvailableSlot cfg frame).2.runningFrames =
          d.runningFrames ++ [(frame, slot)] := by
  have hlocked : (d.assignUnderLock cfg frame).2.runningFrames = d.runningFrames ∨
      frame ∉ d.runningFrames.map Prod.fst ∧ ∃ slot,
        (d.assignUnderLock cfg frame).2.runningFrames = d.runningFrames ++ [(frame, slot)] := by
    unfold SlotData.assignUnderLock
    split
    · exact .inl rfl
    · next hnone =>
      have hnew : frame ∉ d.runningFrames.map Prod.fst := by
        intro hin
        obtain ⟨e, he, heq⟩ := List.mem_map.mp hin
        exact List.find?_eq_none.mp hnone e he (by simpa using heq)
      split
      · exact .inr ⟨hnew, _, rfl⟩
      · split
        · exact .inl rfl
        · split
          · exact .inr ⟨hnew, _, rfl⟩
          · exact .inr ⟨hnew, _, rfl⟩
  unfold SlotData.assignFrameToAvailableSlot SlotData.assignScanning
  split
  · exact .inl rfl
  · split
    · next slot d' heq =>
      rw [heq] at hlocked
      exact hlocked
    · exact hlocked

theorem runningFrames_release (slot : ℕ) (d : SlotData) :
    (d.releaseAndActivateNext cfg slot).2.runningFrames =
      d.runningFrames.eraseP fun e => e.2 = slot := by
  obtain ⟨map, heq⟩ := SlotData.releaseSlot_eq cfg slot d
  have hvacant : (d.releaseSlot cfg slot).runningFrames =
      d.runningFrames.eraseP fun e => e.2 = slot := by
    rw [heq]
  have hlocked : (d.releaseUnderLock cfg slot).2.runningFrames =
      d.runningFrames.eraseP fun e => e.2 = slot := by
    unfold SlotData.releaseUnderLock
    simp only
    split
    · split
      · exact hvacant
      · exact hvacant
    · exact hvacant
  unfold SlotData.releaseAndActivateNext
  split
  · next next buffered d' heq =>
    rw [heq] at hlocked
    exact hlocked
  · exact hlocked

/-- The frame number that an operation hands out. -/
def SlotOp.frame? : SlotOp cfg → SlotData → Option ℕ
  | .assign frame, _ => some frame
  | .release _, _ => none
  | .restart _ completed, d =>
    if cfg.hasNetwork then none else some (completed + d.currentlyActive cfg)

/-- Frame numbers stay below 2^32. -/
def SlotOp.Small (op : SlotOp cfg) (d : SlotData) : Prop :=
  ∀ frame, op.frame? d = some frame → frame < 2 ^ 32

/-- A restart on a compute-only graph does not arrive at the number of a running frame. -/
def SlotOp.Fresh : SlotOp cfg → SlotData → Prop
  | .restart _ completed, d =>
    cfg.hasNetwork = false → completed + d.currentlyActive cfg ∉ d.runningFrames.map Prod.fst
  | _, _ => True

instance (op : SlotOp cfg) (d : SlotData) : Decidable (op.Small d) :=
  inferInstanceAs (Decidable (∀ frame ∈ op.frame? d, frame < 2 ^ 32))

instance (d : SlotData) : (op : SlotOp cfg) → Decidable (op.Fresh d)
  | .restart _ completed =>
    inferInstanceAs (Decidable (cfg.hasNetwork = false →
      completed + d.currentlyActive cfg ∉ d.runningFrames.map Prod.fst))
  | .assign _ => .isTrue trivial
  | .release _ => .isTrue trivial

theorem Numbered.step {d : SlotData} (h : Numbered d.runningFrames) {op : SlotOp cfg}
    (hsmall : op.Small d) (hfresh : op.Fresh d) :
    Numbered (op.step (cached cfg) d).2.runningFrames := by
  cases op with
  | assign frame =>
    simp only [SlotOp.step, cached]
    rcases runningFrames_assign cfg frame d with hsame | ⟨hnew, slot, hpush⟩
    · rw [hsame]
      exact h
    · rw [hpush]
      exact h.push slot (hsmall frame rfl) hnew
  | release slot =>
    simp only [SlotOp.step]
    rw [runningFrames_release]
    exact ⟨fun e he => h.small e (List.eraseP_sublist.subset he),
      h.once.sublist (List.eraseP_sublist.map _)⟩
  | restart slot completed =>
    simp only [SlotOp.step, SlotData.restartSlotNonnetwork]
    split
    · exact h
    · next hnet =>
      have hoff := Bool.eq_false_of_not_eq_true hnet
      exact h.push slot (hsmall _ (by simp [SlotOp.frame?, hoff])) (hfresh hoff)

/-- One operation, with the map and without. -/
theorem step_cached_eq_scanning {d : SlotData} (h : Indexed cfg d)
    (hnum : Numbered d.runningFrames) {op : SlotOp cfg} (hsmall : op.Small d) :
    op.step (cached cfg) d = op.step (scanning cfg) d := by
  cases op with
  | assign frame =>
    have heq : cached cfg frame d = scanning cfg frame d := by
      unfold cached scanning SlotData.assignFrameToAvailableSlot
      split
      · next slot hhit =>
        simp [SlotData.assignScanning, SlotData.assignUnderLock,
          h.sound.lookup_scans hnum (hsmall frame rfl) hhit]
      · rfl
    simp only [SlotOp.step, heq]
  | release slot => rfl
  | restart slot completed => rfl

theorem replies_cached_eq_scanning (ops : List (SlotOp cfg)) {d : SlotData}
    (h : Indexed cfg d) (hnum : Numbered d.runningFrames)
    (hsmall : Throughout SlotOp.Small ops d) (hfresh : Throughout SlotOp.Fresh ops d) :
    replies (cached cfg) ops d = replies (scanning cfg) ops d := by
  induction ops generalizing d with
  | nil => rfl
  | cons op ops ih =>
    have hstep := step_cached_eq_scanning h hnum hsmall.1
    have hrest := ih (h.step op) (hnum.step hsmall.1 hfresh.1) hsmall.2 hfresh.2
    simp only [replies]
    rw [hrest, hstep]

/-- The map is a refinement of the scan as long as running frames have different numbers. -/
theorem map_answers_as_scan (cfg : SlotConfig) (ops : List (SlotOp cfg))
    (hsmall : Throughout SlotOp.Small ops .initial)
    (hfresh : Throughout SlotOp.Fresh ops .initial) :
    replies (cached cfg) ops .initial = replies (scanning cfg) ops .initial :=
  replies_cached_eq_scanning ops (indexed_initial cfg) ⟨by simp [SlotData.initial], .nil⟩ hsmall
    hfresh

/-- Frames 0 and 4 share a cell of the four. -/
theorem map_answers_as_scan_at_aliases :
    replies (cached twoSlots) [.assign 0, .assign 4, .assign 0, .release twoSlots.first, .assign 4]
        .initial =
      replies (scanning twoSlots)
        [.assign 0, .assign 4, .assign 0, .release twoSlots.first, .assign 4] .initial :=
  map_answers_as_scan twoSlots _ (by decide +kernel) (by decide +kernel)

/-- Two completions counted before either slot is released: both restarts arrive at 3. -/
def doubledNumber : List (SlotOp twoSlots) :=
  [.assign 0, .assign 1, .release ⟨0, by decide⟩, .restart ⟨0, by decide⟩ 2,
    .release ⟨1, by decide⟩, .restart ⟨1, by decide⟩ 2, .assign 3]

theorem map_differs_from_scan :
    ¬ ∀ (cfg : SlotConfig) (ops : List (SlotOp cfg)), Throughout SlotOp.Small ops .initial →
      replies (cached cfg) ops .initial = replies (scanning cfg) ops .initial := by
  intro h
  have heq := h twoSlots doubledNumber (by decide +kernel)
  have hne : replies (cached twoSlots) doubledNumber .initial ≠
      replies (scanning twoSlots) doubledNumber .initial := by
    decide +kernel
  exact hne heq

end Tomii.Slots
