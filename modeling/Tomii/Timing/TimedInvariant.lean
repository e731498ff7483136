import Tomii.Timing.TimedPhases
import Tomii.Timing.EvictionSteps
import Tomii.Runtime.FrameClaims

/-! # Whose timings a slot collects

What waits for the next end of a slot belongs to the frame that has the slot. Between the bump of a
reset and the end that is sent after it, it belongs to the frame before, and the slot is shut: none of
its instances is released, except those that the reset is about to clear. -/
namespace Tomii.Timing
set_option autoImplicit false
set_option maxHeartbeats 250000

/-! ## Instances that a step releases -/

/-- The slot that an initial task or a packet enters. -/
def entered : Act → Option ℕ
  | .enqueue none task => some task.slot
  | .deliver ni => some ni.slot
  | _ => none

section Released

variable {c : Compiled} {cfg : Config} {σ : Shared} {l : Phase} {others : List Phase}

/-- A thread that serves a task has released instances in its slot. -/
theorem released_of_served (h : Inv c cfg False False σ (l :: others)) {t : Ticket}
    (ht : t ∈ l.served) : ∃ y ∈ σ.ledger.released, y.slot = t.slot := by
  obtain ⟨-, -, hpos, hretired⟩ := (h.tickets.phases l List.mem_cons_self).served t ht
  have hhead := NodeInfo.head_mem_cells hpos
  exact ⟨_, h.accounts.released_of_retired (hretired _ hhead), rfl⟩

/-- A step releases instances where some were released before, or they enter with a frame. -/
theorem released_after (h : Inv c cfg False False σ (l :: others)) (choice : ℕ) {a : Act}
    (hpermits : l.permits c cfg False a) {x : Cell}
    (hx : x ∈ (σ.perform c choice a).2.ledger.released) :
    (∃ y ∈ σ.ledger.released, y.slot = x.slot) ∨ entered a = some x.slot := by
  cases a with
  | fetchDec t gen node g count =>
    rcases List.mem_append.mp hx with hnew | hx
    · obtain ⟨i, -, rfl⟩ := List.mem_map.mp hnew
      exact .inl (released_of_served h (Phase.works_of_cause hpermits rfl).1.1)
    · exact .inl ⟨x, hx, rfl⟩
  | trySend t gen node idx =>
    simp only [Shared.perform, Shared.trySend] at hx
    split at hx
    · rcases List.mem_cons.mp hx with rfl | hx
      · exact .inl (released_of_served h (Phase.works_of_cause hpermits rfl).1.1)
      · exact .inl ⟨x, hx, rfl⟩
    · exact .inl ⟨x, hx, rfl⟩
  | arriveFanout t gen node ready =>
    simp only [Shared.perform, Shared.arriveFanout, Ledger.arrive, Shared.setLedger] at hx
    split at hx <;> exact .inl ⟨x, hx, rfl⟩
  | enqueue cause task =>
    cases cause with
    | none =>
      rcases List.mem_append.mp hx with hnew | hx
      · exact .inr (congrArg some (Ticket.mem_cells.mp hnew).1.symm)
      · exact .inl ⟨x, hx, rfl⟩
    | some t => exact .inl ⟨x, hx, rfl⟩
  | deliver ni =>
    rcases List.mem_append.mp hx with hnew | hx
    · exact .inr (congrArg some (NodeInfo.mem_cells.mp hnew).1.symm)
    · exact .inl ⟨x, hx, rfl⟩
  | storePendingTasks slot => exact .inl ⟨x, (List.mem_filter.mp hx).1, rfl⟩
  | storePendingCondTasks slot => exact .inl ⟨x, (List.mem_filter.mp hx).1, rfl⟩
  | _ => exact .inl ⟨x, hx, rfl⟩

end Released

/-! ## The frame of a slot -/

namespace Timed

variable {c : Compiled} {s : Timed} (choice : ℕ) {a : Act}

/-- Only a reset ends a frame. -/
theorem frameOn_perform (h : ∀ slot, a ≠ .bumpSlotGeneration slot true) :
    (s.perform c choice a).frameOn = s.frameOn := by
  have hkeep : ∀ slot, (∀ reset, a ≠ .bumpSlotGeneration slot reset) →
      s.frames slot (((s.shared.perform c choice a).2.slots slot).epoch) = s.frameOn slot :=
    fun slot ha => congrArg (s.frames slot) (Shared.frame_perform choice a s.shared slot ha).1
  funext slot
  cases a with
  | bumpSlotGeneration bumped reset =>
    cases reset with
    | true => exact absurd rfl (h bumped)
    | false =>
      by_cases hs : slot = bumped
      · subst hs
        have hepoch := s.shared.epoch_bump (c := c) slot false
        simp only [frameOn, perform, Bool.false_and, Function.update_self, hepoch,
          Bool.false_eq_true, if_false]
      · simp only [frameOn, perform, Function.update_of_ne hs, Bool.false_and, Bool.false_eq_true,
          if_false]
        refine hkeep slot fun reset ha => hs ?_
        exact (Act.bumpSlotGeneration.inj ha).1.symm
  | unmarkSlotCompleted unmarked => exact hkeep slot fun _ ha => (nomatch ha)
  | _ => exact hkeep slot fun _ ha => (nomatch ha)

/-- A reset opens the next frame. -/
theorem frameOn_reset (slot : ℕ) : (s.perform c choice (.bumpSlotGeneration slot true)).frameOn =
    Function.update s.frameOn slot (s.frameOn slot + 1) := by
  have hslots : (s.perform c choice (.bumpSlotGeneration slot true)).shared.slots =
      (s.shared.bumpSlotGeneration c slot true).slots := by
    simp only [perform]
    split <;> rfl
  funext t
  simp only [frameOn, hslots]
  by_cases ht : t = slot
  · subst ht
    rw [Function.update_self, s.shared.epoch_bump]
    simp only [perform, Function.update_self, if_true]
    rfl
  · rw [Function.update_of_ne ht]
    simp only [perform, Function.update_of_ne ht]
    exact congrArg (fun v : Slot => s.frames t v.epoch) (s.shared.slots_setSlot_of_ne ht _)

/-- A reset that no eviction is about. -/
def Plain (s : Timed) (a : Act) : Prop :=
  ∀ slot, a = .bumpSlotGeneration slot true → s.evicting slot = false

theorem shared_perform (h : s.Plain a) :
    (s.perform c choice a).shared = (s.shared.perform c choice a).2 := by
  cases a with
  | bumpSlotGeneration slot reset =>
    cases reset with
    | false => rfl
    | true =>
      simp only [perform, h slot rfl]
      rfl
  | _ => rfl

theorem log_perform (h : s.Plain a) : (s.perform c choice a).log = s.log := by
  cases a with
  | bumpSlotGeneration slot reset =>
    cases reset with
    | false => rfl
    | true =>
      simp only [perform, h slot rfl]
      rfl
  | _ => rfl

theorem evicting_perform (h : ∀ slot, a ≠ .unmarkSlotCompleted slot) :
    (s.perform c choice a).evicting = s.evicting := by
  cases a with
  | unmarkSlotCompleted slot => exact absurd rfl (h slot)
  | _ => rfl

/-- With the slots under eviction counted as marked, a step is one of resolution. -/
theorem marked_perform (hplain : s.Plain a) (htry : s.EvictsUntimed a) :
    ((marked s.evicting s.shared).perform c choice a).1 = (s.shared.perform c choice a).1 ∧
      marked (s.perform c choice a).evicting (s.perform c choice a).shared =
        ((marked s.evicting s.shared).perform c choice a).2 := by
  by_cases hunmark : ∃ slot, a = .unmarkSlotCompleted slot
  · obtain ⟨slot, rfl⟩ := hunmark
    refine ⟨rfl, ?_⟩
    simp only [perform, Shared.perform, marked, Shared.setSlot]
    congr 1
    funext t
    by_cases ht : t = slot
    · subst ht
      simp only [Function.update_self]
      rfl
    · simp only [Function.update_of_ne ht]
  · have hstep := perform_marked (c := c) (E := s.evicting) (σ := s.shared) choice (a := a)
      (fun slot ha => by subst ha; exact htry) fun slot ha => absurd ⟨slot, ha⟩ hunmark
    rw [shared_perform choice hplain, evicting_perform choice fun slot ha => hunmark ⟨slot, ha⟩, hstep]
    exact ⟨rfl, rfl⟩

end Timed

/-! ## The invariant -/

section Invariant

variable (c : Compiled) (cfg : TimedOptions) (s : Timed) (ls : List TimedPhase)

/-- Nothing of the slot is released. -/
def Vacant (slot : ℕ) : Prop := ∀ x ∈ s.shared.ledger.released, x.slot ≠ slot

/-- A thread is inside the reset of the slot. -/
def InReset (slot : ℕ) : Prop := ∃ l ∈ ls, ∃ stage, l.1.focus = .reset slot stage

/-- What waits for the end of `frame`, and where that frame is. -/
structure Collects (tb : TimeBuffer) (slot frame : ℕ) : Prop where
  apart : KeptApart s.log tb slot frame
  ended : ∀ f, Over s.log slot f ↔ f < frame
  turn : s.frameOn slot = frame ∨
    s.frameOn slot = frame + 1 ∧ (Vacant s slot ∨ InReset ls slot)

/-- What an errand rests on. -/
def ErrandOk (l : TimedPhase) : Prop :=
  match l.2 with
  | .free => True
  | .closing slot frame => l.1.focus = .claim slot .quiet ∧ frame = s.frameOn slot
  | .finish slot frame => slot < cfg.slots ∧ frame + 1 = s.frameOn slot ∧ ¬ Over s.log slot frame
  | .evict slot => s.evicting slot = true ∧
      (l.1.focus = .claim slot .fresh ∨ ∃ stage, l.1.focus = .reset slot stage)

/-- Not both are about to send the end of the slot. -/
def EndsApart (l m : TimedPhase) : Prop := ∀ slot f g, l.2 = .finish slot f → m.2 ≠ .finish slot g

structure TimedInv : Prop where
  base : Inv c cfg.options.config False False (marked s.evicting s.shared) (ls.map Prod.fst)
  errands : ∀ l ∈ ls, ErrandOk cfg s l
  evictor : ∀ slot, s.evicting slot = true → ∃ l ∈ ls, l.2 = .evict slot
  once : ls.Pairwise EndsApart
  bounded : ∀ x ∈ s.shared.ledger.released, x.slot < cfg.slots
  kept : ∃ tb, TimeBuffer.serve (requests s.log) (.new cfg.slots cfg.baseTime) = some tb ∧
    tb.slots = cfg.slots ∧ ∀ slot, ∃ frame, Collects s ls tb slot frame

end Invariant

section Claims

variable {c : Compiled} {cfg : TimedOptions} {s s' : Timed} {l l' : TimedPhase}
  {ls ls' others : List TimedPhase} {slot : ℕ}

theorem EndsApart.symm (h : EndsApart l l') : EndsApart l' l :=
  fun slot f g hl' hl => h slot g f hl hl'

/-- The errand of a slot under eviction marks it. -/
theorem ErrandOk.marked (h : ErrandOk cfg s l) (hevict : l.2 = .evict slot) :
    l.1.focus.marked = some slot := by
  rw [ErrandOk, hevict] at h
  obtain ⟨-, hf | ⟨stage, hf⟩⟩ := h <;> rw [hf] <;> rfl

/-- Where the frame, its log and the evictions are the same, so are errands. -/
theorem ErrandOk.keep (h : ErrandOk cfg s l) (hfocus : l'.1.focus = l.1.focus) (herrand : l'.2 = l.2)
    (hframe : ∀ slot f, l.2 = .closing slot f ∨ l.2 = .finish slot f → s'.frameOn slot = s.frameOn slot)
    (hover : ∀ slot f, l.2 = .finish slot f → Over s'.log slot f → Over s.log slot f)
    (hevicting : ∀ slot, l.2 = .evict slot → s.evicting slot = true → s'.evicting slot = true) :
    ErrandOk cfg s' l' := by
  unfold ErrandOk at h ⊢
  rw [herrand, hfocus]
  cases he : l.2 with
  | free => trivial
  | closing slot f =>
    rw [he] at h
    exact ⟨h.1, by rw [hframe slot f (.inl he)]; exact h.2⟩
  | finish slot f =>
    rw [he] at h
    exact ⟨h.1, by rw [hframe slot f (.inr he)]; exact h.2.1, fun hnow => h.2.2 (hover slot f he hnow)⟩
  | evict slot =>
    rw [he] at h
    exact ⟨hevicting slot he h.1, h.2⟩

/-- A thread that is not inside a reset of the slot may go anywhere. -/
theorem InReset.refocus (h : InReset (l :: others) slot)
    (hf : ∀ stage, l.1.focus ≠ .reset slot stage) : InReset (l' :: others) slot := by
  obtain ⟨m, hm, stage, hreset⟩ := h
  rcases List.mem_cons.mp hm with rfl | hmem
  · exact absurd hreset (hf stage)
  · exact ⟨m, List.mem_cons_of_mem _ hmem, stage, hreset⟩

theorem Collects.still {tb : TimeBuffer} {frame : ℕ} (h : Collects s ls tb slot frame)
    (hlog : s'.log = s.log) (hturn : s'.frameOn slot = s.frameOn slot)
    (hreleased : s'.shared.ledger.released = s.shared.ledger.released)
    (hreset : InReset ls slot → InReset ls' slot) : Collects s' ls' tb slot frame where
  apart := hlog ▸ h.apart
  ended := hlog ▸ h.ended
  turn := by
    rw [hturn, Vacant, hreleased]
    exact h.turn.imp_right (And.imp_right (Or.imp_right hreset))

namespace TimedInv

theorem perm (h : TimedInv c cfg s ls) (hp : ls.Perm ls') : TimedInv c cfg s ls' where
  base := h.base.perm (hp.map Prod.fst)
  errands := fun l hl => h.errands l (hp.mem_iff.mpr hl)
  evictor := by
    intro slot hslot
    obtain ⟨l, hl, he⟩ := h.evictor slot hslot
    exact ⟨l, hp.mem_iff.mp hl, he⟩
  once := hp.pairwise h.once fun hlm => hlm.symm
  bounded := h.bounded
  kept := by
    obtain ⟨tb, hserve, hslots, hall⟩ := h.kept
    refine ⟨tb, hserve, hslots, fun slot => ?_⟩
    obtain ⟨frame, hframe⟩ := hall slot
    refine ⟨frame, hframe.still rfl rfl rfl ?_⟩
    rintro ⟨l, hl, stage, hf⟩
    exact ⟨l, hp.mem_iff.mp hl, stage, hf⟩

section Alone

variable (h : TimedInv c cfg s (l :: others)) (hmark : l.1.focus.marked = some slot)

include h hmark

/-- No other thread has marked the slot. -/
theorem unmarked {m : TimedPhase} (hm : m ∈ others) : m.1.focus.marked ≠ some slot :=
  (h.base.claims.alone hmark).2 m.1 (List.mem_map_of_mem hm)

/-- An eviction of the slot is the thread's own. -/
theorem evict_of_evicting (hevicting : s.evicting slot = true) : l.2 = .evict slot := by
  obtain ⟨m, hm, he⟩ := h.evictor slot hevicting
  rcases List.mem_cons.mp hm with rfl | hmem
  · exact he
  · exact absurd ((h.errands m hm).marked he) (h.unmarked hmark hmem)

theorem not_inReset : ¬ InReset others slot := by
  rintro ⟨m, hm, stage, hf⟩
  exact h.unmarked hmark hm (by rw [hf]; rfl)

end Alone

end TimedInv

end Claims

end Tomii.Timing
