import Tomii.Timing.TimedInvariant
import Tomii.Runtime.FrameAccounts

/-! # Statistics of one frame at a time

Every permitted step keeps the invariant of timed threads, so in a run whose steps are orderly each end
collects the timings of its own frame. An eviction of a frame that has timings breaks it: nothing tells
the time buffer. -/
namespace Tomii.Timing
set_option autoImplicit false
set_option maxHeartbeats 250000

/-! ## Phases around a reset -/

section Phases

variable {c : Compiled} {cfg : Config} {guarded : Prop} {p : Phase} {slot : ℕ} {a : Act}

/-- A slot is unmarked by the thread that has marked it. -/
theorem marked_of_unmark (h : p.permits c cfg guarded (.unmarkSlotCompleted slot)) :
    p.focus.marked = some slot := by
  unfold Phase.permits at h
  split at h
  · exact absurd h id
  · cases h
  · next look _ => cases look <;> cases h
  · next look _ => cases look <;> cases h
  · next s hf =>
    rcases h with h | ⟨counter, h⟩
    · rw [hf, Act.unmarkSlotCompleted.inj h]
      rfl
    · cases h
  · cases h
  · cases h
  · cases h
  · next s hf =>
    rw [hf, Act.unmarkSlotCompleted.inj h]
    rfl

/-- Inside a reset the next step is settled, and only the unmark ends it. -/
theorem reset_continues {stage : Stage} (hf : p.focus = .reset slot stage)
    (h : p.permits c cfg guarded a) :
    (stage = .lowered ∧ a = .unmarkSlotCompleted slot) ∨
      ((∀ u, a ≠ .unmarkSlotCompleted u) ∧ (∀ u, a ≠ .bumpSlotGeneration u true) ∧
        ∀ r, ∃ stage', (p.next c cfg a r).focus = .reset slot stage') := by
  unfold Phase.permits at h
  rw [hf] at h
  cases stage with
  | bumped =>
    obtain rfl := h
    exact .inr ⟨fun _ hu => (nomatch hu), fun _ hu => (nomatch hu), fun _ => ⟨.stored, rfl⟩⟩
  | stored =>
    obtain rfl := h
    exact .inr ⟨fun _ hu => (nomatch hu), fun _ hu => (nomatch hu), fun _ => ⟨.restored, rfl⟩⟩
  | restored =>
    obtain rfl := h
    refine .inr ⟨fun _ hu => (nomatch hu), fun _ hu => (nomatch hu), fun _ => ⟨.lowered, ?_⟩⟩
    show p.focus.stored = _
    rw [hf]
    rfl
  | lowered => exact .inl ⟨rfl, h⟩

end Phases

section Errands

variable {c : Compiled} {cfg : TimedOptions} {l : TimedPhase} {a : Act}

/-- Only a bump is permitted by the errand alone. -/
theorem base_permits (h : l.permits c cfg (.inl a)) (hreset : ∀ slot, a ≠ .bumpSlotGeneration slot true) :
    l.1.permits c cfg.options.config False a := by
  obtain ⟨p, e⟩ := l
  cases e with
  | free => exact h
  | closing slot frame => exact absurd h (hreset slot)
  | finish slot frame => exact h.2
  | evict slot =>
    rcases h with ⟨-, h⟩ | h
    · exact absurd h (hreset slot)
    · exact h.2

theorem Errand.after_of_ne {e : Errand} (hreset : ∀ slot, a ≠ .bumpSlotGeneration slot true)
    (hunmark : ∀ slot, a ≠ .unmarkSlotCompleted slot) : e.after a = e := by
  cases a with
  | bumpSlotGeneration slot reset =>
    cases reset with
    | false => rfl
    | true => exact absurd rfl (hreset slot)
  | unmarkSlotCompleted slot => exact absurd rfl (hunmark slot)
  | _ => rfl

theorem Errand.after_finish {slot f : ℕ} : (Errand.finish slot f).after a = .finish slot f := by
  cases a with
  | bumpSlotGeneration slot reset => cases reset <;> rfl
  | _ => rfl

/-- An end to be sent is there before and after any other step than a reset. -/
theorem Errand.finish_of_after {e : Errand} (hreset : ∀ slot, a ≠ .bumpSlotGeneration slot true)
    {slot f : ℕ} (h : e.after a = .finish slot f) : e = .finish slot f := by
  by_cases hunmark : ∃ u, a = .unmarkSlotCompleted u
  · obtain ⟨u, rfl⟩ := hunmark
    cases e with
    | evict s => cases h
    | _ => exact h
  · rwa [Errand.after_of_ne hreset fun u hu => hunmark ⟨u, hu⟩] at h

end Errands

/-! ## Steps of resolution -/

section Steps

variable {c : Compiled} {cfg : TimedOptions} {s : Timed} {l : TimedPhase} {others : List TimedPhase}
  {a : Act} {slot : ℕ}

/-- What is in the ledger of a step is in a slot of the time buffer. -/
theorem bounded_after (h : TimedInv c cfg s (l :: others)) (choice : ℕ)
    (hpermits : l.1.permits c cfg.options.config False a) (hsources : s.SourcesInTime cfg a) :
    ∀ x ∈ ((marked s.evicting s.shared).perform c choice a).2.ledger.released, x.slot < cfg.slots := by
  intro x hx
  rcases released_after h.base choice hpermits hx with ⟨y, hy, hslot⟩ | hentered
  · exact hslot ▸ h.bounded y hy
  · cases a with
    | enqueue cause task =>
      cases cause with
      | none => exact Option.some.inj hentered ▸ hsources.1
      | some t => cases hentered
    | deliver ni => exact Option.some.inj hentered ▸ hsources.1
    | _ => cases hentered

/-- Nothing enters a slot before the end of its frame. -/
theorem entered_ready (hsources : s.SourcesInTime cfg a) (hentered : entered a = some slot) :
    s.Ready slot := by
  cases a with
  | enqueue cause task =>
    cases cause with
    | none => exact Option.some.inj hentered ▸ hsources.2
    | some t => cases hentered
  | deliver ni => exact Option.some.inj hentered ▸ hsources.2
  | _ => cases hentered

/-- A reset ends with nothing of its slot released. -/
theorem vacant_of_lowered (h : TimedInv c cfg s (l :: others))
    (hf : l.1.focus = .reset slot .lowered) : Vacant s slot := fun x hx hslot =>
  (((h.base.claims.phases l.1 (by simp)).reset slot .lowered hf).kept x hx hslot)

variable (h : TimedInv c cfg s (l :: others)) (hrun : Runnable c) (choice : ℕ)
  (hreset : ∀ slot, a ≠ .bumpSlotGeneration slot true) (hpermits : l.permits c cfg (.inl a))
  (hok : TimedOrderly c cfg s choice (.inl a))

include h hreset hpermits hok

theorem collects_perform {tb : TimeBuffer} {frame : ℕ} (hframe : Collects s (l :: others) tb slot frame) :
    Collects (s.perform c choice a)
      (l.next c cfg (.inl a) (s.shared.perform c choice a).1 :: others) tb slot frame := by
  have hplain : s.Plain a := fun slot ha => absurd ha (hreset slot)
  have hbase := base_permits hpermits hreset
  have hlog : (s.perform c choice a).log = s.log := Timed.log_perform choice hplain
  have hreleased : (s.perform c choice a).shared.ledger.released =
      ((marked s.evicting s.shared).perform c choice a).2.ledger.released :=
    congrArg (·.ledger.released) (Timed.marked_perform (c := c) choice hplain hok.2.2).2
  refine ⟨?_, ?_, ?_⟩
  · rw [hlog]
    exact hframe.apart
  · rw [hlog]
    exact hframe.ended
  · rw [Timed.frameOn_perform choice hreset]
    refine hframe.turn.imp_right fun hturn => ⟨hturn.1, ?_⟩
    -- the frame before has not ended yet, so nothing enters the slot
    have hvacant : Vacant s slot → Vacant (s.perform c choice a) slot := by
      intro hempty x hx hslot
      rw [hreleased] at hx
      rcases released_after h.base choice hbase hx with ⟨y, hy, hyx⟩ | hentered
      · exact hempty y hy (hyx.trans hslot)
      · have hready := entered_ready hok.2.1 (hslot ▸ hentered)
        have hover := (hframe.ended frame).mp (hready frame (by omega))
        exact lt_irrefl frame hover
    rcases hturn.2 with hempty | ⟨m, hm, stage, hf⟩
    · exact .inl (hvacant hempty)
    · rcases List.mem_cons.mp hm with rfl | hm
      · rcases reset_continues hf hbase with ⟨rfl, rfl⟩ | ⟨-, -, hnext⟩
        · exact .inl (hvacant (vacant_of_lowered h hf))
        · obtain ⟨stage', hf'⟩ := hnext (s.shared.perform c choice a).1
          exact .inr ⟨_, List.mem_cons_self, stage', hf'⟩
      · exact .inr ⟨m, List.mem_cons_of_mem _ hm, stage, hf⟩

/-- Others are on the errands they were on. -/
theorem errands_perform {m : TimedPhase} (hm : m ∈ others) : ErrandOk cfg (s.perform c choice a) m := by
  have hlog : (s.perform c choice a).log = s.log :=
    Timed.log_perform choice fun slot ha => absurd ha (hreset slot)
  have hmem := List.mem_cons_of_mem l hm
  refine (h.errands m hmem).keep rfl rfl (fun slot f _ => ?_) (fun slot f _ hover => hlog ▸ hover)
    fun slot hevict hevicting => ?_
  · rw [Timed.frameOn_perform choice hreset]
  · by_cases hunmark : ∃ u, a = .unmarkSlotCompleted u
    · obtain ⟨u, rfl⟩ := hunmark
      -- a slot that another thread evicts is not this thread's to unmark
      have hne : slot ≠ u := by
        rintro rfl
        exact h.unmarked (marked_of_unmark (base_permits hpermits hreset)) hm
          ((h.errands m hmem).marked hevict)
      exact (Function.update_of_ne hne ..).trans hevicting
    · rw [Timed.evicting_perform choice fun u hu => hunmark ⟨u, hu⟩]
      exact hevicting

theorem errand_next : ErrandOk cfg (s.perform c choice a)
    (l.next c cfg (.inl a) (s.shared.perform c choice a).1) := by
  have hlog : (s.perform c choice a).log = s.log :=
    Timed.log_perform choice fun slot ha => absurd ha (hreset slot)
  have hframe := Timed.frameOn_perform (c := c) (s := s) choice hreset
  have hown := h.errands l List.mem_cons_self
  have hbase := base_permits hpermits hreset
  obtain ⟨p, e⟩ := l
  cases e with
  | free =>
    simp only [ErrandOk, TimedPhase.next, Errand.after_free]
  | closing slot f => exact absurd hpermits (hreset slot)
  | finish slot f =>
    simp only [ErrandOk, TimedPhase.next, Errand.after_finish, hlog, hframe]
    exact hown
  | evict slot =>
    obtain ⟨hevicting, -⟩ := hown
    obtain ⟨stage, hf⟩ : ∃ stage, p.focus = .reset slot stage := by
      rcases hpermits with ⟨-, ha⟩ | hpermits
      · exact absurd ha (hreset slot)
      · exact hpermits.1
    rcases reset_continues hf hbase with ⟨-, rfl⟩ | ⟨hunmark, -, hnext⟩
    · trivial
    · simp only [ErrandOk, TimedPhase.next, Errand.after_of_ne hreset hunmark,
        Timed.evicting_perform choice hunmark]
      exact ⟨hevicting, .inr (hnext _)⟩

theorem evictor_perform (hevicting : (s.perform c choice a).evicting slot = true) :
    ∃ m ∈ l.next c cfg (.inl a) (s.shared.perform c choice a).1 :: others, m.2 = .evict slot := by
  by_cases hunmark : ∃ u, a = .unmarkSlotCompleted u
  · obtain ⟨u, rfl⟩ := hunmark
    have hne : slot ≠ u := by
      rintro rfl
      have hlowered : (Function.update s.evicting slot false) slot = true := hevicting
      rw [Function.update_self] at hlowered
      cases hlowered
    obtain ⟨m, hm, he⟩ := h.evictor slot ((Function.update_of_ne hne ..).symm.trans hevicting)
    rcases List.mem_cons.mp hm with rfl | hm'
    · have hmark := marked_of_unmark (base_permits hpermits hreset)
      exact absurd (Option.some.inj (((h.errands m hm).marked he).symm.trans hmark)) hne
    · exact ⟨m, List.mem_cons_of_mem _ hm', he⟩
  · have hkeep : ∀ u, a ≠ .unmarkSlotCompleted u := fun u hu => hunmark ⟨u, hu⟩
    rw [Timed.evicting_perform choice hkeep] at hevicting
    obtain ⟨m, hm, he⟩ := h.evictor slot hevicting
    rcases List.mem_cons.mp hm with rfl | hm'
    · exact ⟨_, List.mem_cons_self, (Errand.after_of_ne hreset hkeep).trans he⟩
    · exact ⟨m, List.mem_cons_of_mem _ hm', he⟩

include hrun in
/-- A step of resolution that ends no frame. -/
theorem TimedInv.act : TimedInv c cfg (s.perform c choice a)
    (l.next c cfg (.inl a) (s.shared.perform c choice a).1 :: others) := by
  have hplain : s.Plain a := fun slot ha => absurd ha (hreset slot)
  have hbase := base_permits hpermits hreset
  obtain ⟨hreply, hmarked⟩ := Timed.marked_perform (c := c) choice hplain hok.2.2
  have hstep := h.base.act hrun choice a hbase (orderly_marked hok.1)
  rw [hreply, ← hmarked] at hstep
  refine ⟨hstep, ?_, fun slot => evictor_perform h choice hreset hpermits hok, ?_, ?_, ?_⟩
  · intro m hm
    rcases List.mem_cons.mp hm with rfl | hm
    · exact errand_next h choice hreset hpermits hok
    · exact errands_perform h choice hreset hpermits hok hm
  · obtain ⟨hfirst, hrest⟩ := List.pairwise_cons.mp h.once
    exact List.pairwise_cons.mpr ⟨fun m hm slot f g hl =>
      hfirst m hm slot f g (Errand.finish_of_after hreset hl), hrest⟩
  · intro x hx
    exact bounded_after h choice hbase hok.2.1 x
      (congrArg (·.ledger.released) hmarked ▸ hx)
  · obtain ⟨tb, hserve, hslots, hall⟩ := h.kept
    refine ⟨tb, ?_, hslots, fun slot => ?_⟩
    · rw [Timed.log_perform choice hplain]
      exact hserve
    · obtain ⟨frame, hframe⟩ := hall slot
      exact ⟨frame, collects_perform h choice hreset hpermits hok hframe⟩

end Steps

/-! ## Resets -/

section Resets

variable {c : Compiled} {cfg : TimedOptions} {s : Timed} {l : TimedPhase} {others : List TimedPhase}
  {slot : ℕ}

/-- A frame that is complete has instances on record. -/
theorem released_of_quiet (h : TimedInv c cfg s (l :: others))
    (hpos : 0 < c.totalOf false + c.totalOf true) (hf : l.1.focus = .claim slot .quiet) :
    ∃ x ∈ s.shared.ledger.released, x.slot = slot := by
  have hinv : Inv c cfg.options.config False False (marked s.evicting s.shared)
      (l.1 :: others.map Prod.fst) := h.base
  obtain ⟨htasks, hconds, -⟩ := (hinv.claims.phases l.1 List.mem_cons_self).look slot .quiet hf
  have hcond : ∃ cond, 0 < (retiredOf c (marked s.evicting s.shared) slot cond).length := by
    by_cases hzero : 0 < c.totalOf false
    · exact ⟨false, ((hinv.accounts.allRetired_iff slot false).mp htasks) ▸ hzero⟩
    · exact ⟨true, ((hinv.accounts.allRetired_iff slot true).mp hconds) ▸ (by omega)⟩
  obtain ⟨cond, hlen⟩ := hcond
  obtain ⟨x, hx⟩ := List.exists_mem_of_length_pos hlen
  obtain ⟨hretired, hslot, -⟩ := mem_retiredOf.mp hx
  exact ⟨x, hinv.accounts.released_of_retired hretired, hslot⟩

/-- While a thread has marked a slot that has released instances, the timings of its frame are
collected. -/
theorem Collects.turn_of_marked {tb : TimeBuffer} {frame : ℕ}
    (hframe : Collects s (l :: others) tb slot frame) (h : TimedInv c cfg s (l :: others))
    {look : Look} (hf : l.1.focus = .claim slot look)
    (hreleased : ∃ x ∈ s.shared.ledger.released, x.slot = slot) : s.frameOn slot = frame := by
  obtain ⟨x, hx, hslot⟩ := hreleased
  refine hframe.turn.resolve_right ?_
  rintro ⟨-, hempty | ⟨m, hm, stage, hreset⟩⟩
  · exact hempty x hx hslot
  · have hmark : l.1.focus.marked = some slot := by rw [hf]; rfl
    rcases List.mem_cons.mp hm with rfl | hm
    · rw [hf] at hreset
      cases hreset
    · exact h.not_inReset hmark ⟨m, hm, stage, hreset⟩

/-- A reset of `slot` leaves the other slots where they are. -/
theorem Collects.reset_of_ne {s' : Timed} {l' : TimedPhase} {tb : TimeBuffer} {frame bumped : ℕ}
    {look : Look} (hframe : Collects s (l :: others) tb slot frame) (hne : slot ≠ bumped)
    (hf : l.1.focus = .claim bumped look)
    (hturn : s'.frameOn = Function.update s.frameOn bumped (s.frameOn bumped + 1))
    (hreleased : ∀ x ∈ s'.shared.ledger.released, x ∈ s.shared.ledger.released)
    (hapart : KeptApart s'.log tb slot frame)
    (hover : ∀ f, Over s'.log slot f ↔ Over s.log slot f) :
    Collects s' (l' :: others) tb slot frame := by
  refine ⟨hapart, fun f => (hover f).trans (hframe.ended f), ?_⟩
  rw [hturn, Function.update_of_ne hne]
  refine hframe.turn.imp_right (And.imp_right (Or.imp (fun hempty x hx => ?_) fun hin => ?_))
  · exact hempty x (hreleased x hx)
  · refine hin.refocus fun stage hreset => ?_
    cases hf.symm.trans hreset

/-- The thread that resets the slot has no errand, or is to send the end. -/
theorem errand_of_reset (hf : l.1.focus = .claim slot .quiet)
    (hpermits : l.permits c cfg (.inl (.bumpSlotGeneration slot true))) :
    l.2 = .free ∨ ∃ f, l.2 = .closing slot f := by
  obtain ⟨p, e⟩ := l
  replace hf : p.focus = .claim slot .quiet := hf
  cases e with
  | free => exact .inl rfl
  | closing closed f =>
    obtain ⟨rfl, -⟩ := Act.bumpSlotGeneration.inj hpermits
    exact .inr ⟨f, rfl⟩
  | finish closed f =>
    obtain ⟨⟨stage, hreset⟩, -⟩ := hpermits
    cases hf.symm.trans hreset
  | evict evicted =>
    rcases hpermits with ⟨hfresh, -⟩ | ⟨⟨stage, hreset⟩, -⟩
    · cases hf.symm.trans hfresh
    · cases hf.symm.trans hreset

section Quiet

variable (h : TimedInv c cfg s (l :: others)) (hf : l.1.focus = .claim slot .quiet)

include h hf

/-- An eviction does not look at the counters. -/
theorem not_evicting_of_quiet : s.evicting slot = false := by
  refine Bool.eq_false_iff.mpr fun hevicting => ?_
  have hown := h.errands l List.mem_cons_self
  rw [ErrandOk, h.evict_of_evicting (by rw [hf]; rfl) hevicting, hf] at hown
  obtain ⟨-, hfresh | ⟨stage, hreset⟩⟩ := hown
  · cases hfresh
  · cases hreset

variable (hpos : 0 < c.totalOf false + c.totalOf true)

include hpos

/-- The end of the frame before has been sent. -/
theorem not_finishing_of_quiet {m : TimedPhase} (hm : m ∈ others) (f : ℕ) : m.2 ≠ .finish slot f := by
  intro he
  have hfinish := h.errands m (List.mem_cons_of_mem _ hm)
  rw [ErrandOk, he] at hfinish
  obtain ⟨-, hnext, hnot⟩ := hfinish
  obtain ⟨tb, -, -, hall⟩ := h.kept
  obtain ⟨frame, hframe⟩ := hall slot
  have hturn := hframe.turn_of_marked h hf (released_of_quiet h hpos hf)
  exact hnot ((hframe.ended f).mpr (by omega))

variable (choice : ℕ) (hpermits : l.permits c cfg (.inl (.bumpSlotGeneration slot true)))

theorem errands_reset {m : TimedPhase} (hm : m ∈ others) :
    ErrandOk cfg (s.perform c choice (.bumpSlotGeneration slot true)) m := by
  have hplain : s.Plain (.bumpSlotGeneration slot true) := by
    rintro bumped ⟨⟩
    exact not_evicting_of_quiet h hf
  have hmem := List.mem_cons_of_mem l hm
  refine (h.errands m hmem).keep rfl rfl (fun closed f he => ?_) (fun closed f _ hover => ?_)
    fun evicted he => id
  · have hne : closed ≠ slot := by
      rintro rfl
      rcases he with he | he
      · have hclosing := h.errands m hmem
        rw [ErrandOk, he] at hclosing
        exact h.unmarked (by rw [hf]; rfl) hm (by rw [hclosing.1]; rfl)
      · exact not_finishing_of_quiet h hf hpos hm f he
    rw [Timed.frameOn_reset, Function.update_of_ne hne]
  · rwa [Timed.log_perform choice hplain] at hover

include hpermits

theorem errand_next_reset : ErrandOk cfg (s.perform c choice (.bumpSlotGeneration slot true))
    (l.next c cfg (.inl (.bumpSlotGeneration slot true)) ()) := by
  have hplain : s.Plain (.bumpSlotGeneration slot true) := by
    rintro bumped ⟨⟩
    exact not_evicting_of_quiet h hf
  rcases errand_of_reset hf hpermits with he | ⟨f, he⟩
  · simp only [ErrandOk, TimedPhase.next, he, Errand.after]
  · have hown := h.errands l List.mem_cons_self
    rw [ErrandOk, he] at hown
    obtain ⟨tb, -, -, hall⟩ := h.kept
    obtain ⟨frame, hframe⟩ := hall slot
    have hreleased := released_of_quiet h hpos hf
    have hturn := hframe.turn_of_marked h hf hreleased
    obtain ⟨x, hx, hslot⟩ := hreleased
    simp only [ErrandOk, TimedPhase.next, he, Errand.after, Timed.frameOn_reset,
      Function.update_self, Timed.log_perform choice hplain]
    refine ⟨hslot ▸ h.bounded x hx, congrArg (· + 1) hown.2, fun hover => ?_⟩
    have hlt := (hframe.ended f).mp hover
    omega

variable (hrun : Runnable c) (hok : TimedOrderly c cfg s choice (.inl (.bumpSlotGeneration slot true)))

include hrun hok

/-- A complete frame is reset, and its end is still to be sent. -/
theorem TimedInv.reset : TimedInv c cfg (s.perform c choice (.bumpSlotGeneration slot true))
    (l.next c cfg (.inl (.bumpSlotGeneration slot true)) () :: others) := by
  have hplain : s.Plain (.bumpSlotGeneration slot true) := by
    rintro bumped ⟨⟩
    exact not_evicting_of_quiet h hf
  have hbase : l.1.permits c cfg.options.config False (.bumpSlotGeneration slot true) := by
    unfold Phase.permits
    rw [hf]
    rfl
  have hturn := Timed.frameOn_reset (c := c) (s := s) choice slot
  have hlog := Timed.log_perform (c := c) choice hplain
  have hshared := Timed.shared_perform (c := c) choice hplain
  obtain ⟨-, hmarked⟩ := Timed.marked_perform (c := c) choice hplain hok.2.2
  have hstep := h.base.act hrun choice _ hbase (orderly_marked hok.1)
  rw [← hmarked] at hstep
  have hreleased : ∀ x ∈ (s.perform c choice (.bumpSlotGeneration slot true)).shared.ledger.released,
      x ∈ s.shared.ledger.released := fun x hx => by rwa [hshared] at hx
  refine ⟨hstep, fun m hm => ?_, fun evicted hevicting => ?_, ?_,
    fun x hx => h.bounded x (hreleased x hx), ?_⟩
  · rcases List.mem_cons.mp hm with rfl | hmem
    · exact errand_next_reset h hf hpos choice hpermits
    · exact errands_reset h hf hpos choice hmem
  · obtain ⟨m, hm, he⟩ := h.evictor evicted hevicting
    rcases List.mem_cons.mp hm with rfl | hmem
    · rcases errand_of_reset hf hpermits with hfree | ⟨f, hclosing⟩
      · cases he.symm.trans hfree
      · cases he.symm.trans hclosing
    · exact ⟨m, List.mem_cons_of_mem _ hmem, he⟩
  · obtain ⟨-, hrest⟩ := List.pairwise_cons.mp h.once
    refine List.pairwise_cons.mpr ⟨fun m hm closed f g hl he => ?_, hrest⟩
    have hclosed : closed = slot := by
      rcases errand_of_reset hf hpermits with hfree | ⟨f', hclosing⟩
      · simp only [TimedPhase.next, hfree, Errand.after] at hl
        cases hl
      · simp only [TimedPhase.next, hclosing, Errand.after] at hl
        exact (Errand.finish.inj hl).1.symm
    exact not_finishing_of_quiet h hf hpos hm g (hclosed ▸ he)
  · obtain ⟨tb, hserve, hslots, hall⟩ := h.kept
    refine ⟨tb, by rwa [hlog], hslots, fun other => ?_⟩
    obtain ⟨frame, hframe⟩ := hall other
    refine ⟨frame, ?_⟩
    by_cases hother : other = slot
    · subst hother
      have hthis := hframe.turn_of_marked h hf (released_of_quiet h hpos hf)
      refine ⟨?_, fun f => ?_, .inr ⟨?_, .inr ⟨_, List.mem_cons_self, .bumped, rfl⟩⟩⟩
      · rw [hlog]
        exact hframe.apart
      · rw [hlog]
        exact hframe.ended f
      · rw [hturn, Function.update_self, hthis]
    · refine hframe.reset_of_ne hother hf hturn hreleased ?_ fun f => ?_
      · rw [hlog]
        exact hframe.apart
      · rw [hlog]

end Quiet

end Resets

/-! ## Evictions -/

section Evictions

variable {c : Compiled} {cfg : TimedOptions} {s : Timed} {l : TimedPhase} {others : List TimedPhase}
  {slot : ℕ}

theorem marked_bumpEvicted (E : ℕ → Bool) (σ : Shared) :
    marked E (bumpEvicted c σ slot) = bumpEvicted c (marked E σ) slot := by
  simp only [bumpEvicted, Shared.bumpSlotGeneration, marked_setLedger, marked_setSlot]
  rfl

/-- The frame that has a slot when all before have left it. -/
theorem Collects.turn_of_ready {ls : List TimedPhase} {tb : TimeBuffer} {frame : ℕ}
    (hframe : Collects s ls tb slot frame) (hready : s.Ready slot) : s.frameOn slot = frame := by
  refine hframe.turn.resolve_right fun hturn => ?_
  exact lt_irrefl frame ((hframe.ended frame).mp (hready frame (by omega)))

/-- An eviction drops a frame without timings. -/
theorem Collects.evict {s' : Timed} {ls ls' : List TimedPhase} {tb : TimeBuffer} {frame : ℕ}
    (hframe : Collects s ls tb slot frame) (hready : s.Ready slot)
    (huntimed : s.frameOn slot ∉ timed s.log slot)
    (hlog : s'.log = s.log ++ [.drop slot (s.frameOn slot)])
    (hturn : s'.frameOn slot = s.frameOn slot + 1) : Collects s' ls' tb slot (frame + 1) := by
  have hthis := hframe.turn_of_ready hready
  rw [hthis] at huntimed hlog hturn
  refine ⟨?_, fun f => ?_, .inl hturn⟩
  · rw [hlog]
    refine hframe.apart.drop (timesOf_of_not_timed huntimed) fun hmem => ?_
    have hlt := (hframe.ended (frame + 1)).mp (.inl hmem)
    omega
  · rw [hlog, over_concat, hframe.ended f]
    simp only [Entry.finishes, Entry.drops, if_pos, reduceCtorEq, false_or, Option.some.injEq]
    omega

variable (h : TimedInv c cfg s (l :: others)) (he : l.2 = .evict slot)
  (hf : l.1.focus = .claim slot .fresh) (choice : ℕ)
  (hok : TimedOrderly c cfg s choice (.inl (.bumpSlotGeneration slot true)))

include h he hf hok

theorem TimedInv.evict : TimedInv c cfg (s.perform c choice (.bumpSlotGeneration slot true))
    (l.next c cfg (.inl (.bumpSlotGeneration slot true)) () :: others) := by
  have hmark : l.1.focus.marked = some slot := by rw [hf]; rfl
  have hevicting : s.evicting slot = true := by
    have hown := h.errands l List.mem_cons_self
    rw [ErrandOk, he] at hown
    exact hown.1
  obtain ⟨hready, huntimed, hzero, hquiet⟩ := hok.2.2 hevicting
  have hturn := Timed.frameOn_reset (c := c) (s := s) choice slot
  have hlog : (s.perform c choice (.bumpSlotGeneration slot true)).log =
      s.log ++ [.drop slot (s.frameOn slot)] := by
    simp only [Timed.perform, hevicting]
    rfl
  have hshared : (s.perform c choice (.bumpSlotGeneration slot true)).shared =
      bumpEvicted c s.shared slot := by
    simp only [Timed.perform, hevicting]
    rfl
  have hreleased : ∀ x ∈ (s.perform c choice (.bumpSlotGeneration slot true)).shared.ledger.released,
      x ∈ s.shared.ledger.released := by
    intro x hx
    rw [hshared] at hx
    exact (List.mem_filter.mp hx).1
  have hnext : l.next c cfg (.inl (.bumpSlotGeneration slot true)) () =
      ({ l.1 with focus := .reset slot .bumped }, .evict slot) := by
    simp only [TimedPhase.next, he]
    rfl
  have hbase : Inv c cfg.options.config False False (marked s.evicting s.shared)
      (l.1 :: others.map Prod.fst) := h.base
  have hnone := hbase.brackets.none_of_zero hbase.tickets hzero
  have hstep := Inv.bumpEvicted hbase hquiet hf hnone
  rw [← marked_bumpEvicted, ← hshared] at hstep
  have hother : ∀ {other f : ℕ}, slot ≠ other → (Over (s.perform c choice
      (.bumpSlotGeneration slot true)).log other f ↔ Over s.log other f) := by
    intro other f hne
    rw [hlog, over_concat, Entry.finishes_of_slot_ne (e := .drop slot _) hne,
      Entry.drops_of_slot_ne (e := .drop slot _) hne]
    simp
  obtain ⟨tb, hserve, hslots, hall⟩ := h.kept
  rw [hnext]
  refine ⟨hstep, fun m hm => ?_, fun evicted hev => ?_, ?_,
    fun x hx => h.bounded x (hreleased x hx), tb, ?_, hslots, fun other => ?_⟩
  · rcases List.mem_cons.mp hm with rfl | hmem
    · exact ⟨hevicting, .inr ⟨.bumped, rfl⟩⟩
    · have hold := h.errands m (List.mem_cons_of_mem _ hmem)
      have hne : ∀ closed f, m.2 = .closing closed f ∨ m.2 = .finish closed f → closed ≠ slot := by
        rintro closed f hme rfl
        rcases hme with hme | hme
        · rw [ErrandOk, hme] at hold
          exact h.unmarked hmark hmem (by rw [hold.1]; rfl)
        · rw [ErrandOk, hme] at hold
          exact hold.2.2 (hready f (by omega))
      refine hold.keep rfl rfl (fun closed f hme => ?_) (fun closed f hme => ?_) fun evicted _ => id
      · rw [hturn, Function.update_of_ne (hne closed f hme)]
      · exact (hother (hne closed f (.inr hme)).symm).mp
  · obtain ⟨m, hm, hme⟩ := h.evictor evicted hev
    rcases List.mem_cons.mp hm with rfl | hmem
    · exact ⟨_, List.mem_cons_self, he.symm.trans hme⟩
    · exact ⟨m, List.mem_cons_of_mem _ hmem, hme⟩
  · obtain ⟨-, hrest⟩ := List.pairwise_cons.mp h.once
    exact List.pairwise_cons.mpr ⟨fun _ _ _ _ _ hl => (by cases hl), hrest⟩
  · rw [hlog, requests_concat]
    exact (congrArg (TimeBuffer.serve · _) (List.append_nil _)).trans hserve
  · obtain ⟨frame, hframe⟩ := hall other
    by_cases hne : other = slot
    · subst hne
      refine ⟨frame + 1, hframe.evict hready huntimed hlog ?_⟩
      rw [hturn, Function.update_self]
    · refine ⟨frame, hframe.reset_of_ne hne hf hturn hreleased ?_ fun f => hother (Ne.symm hne)⟩
      rw [hlog]
      exact hframe.apart.elsewhere (Ne.symm hne) rfl rfl

end Evictions

/-! ## Requests -/

section Requests

variable {c : Compiled} {cfg : TimedOptions} {s : Timed} {l : TimedPhase} {ls others : List TimedPhase}
  {slot frame : ℕ}

/-- A request that ends no frame. -/
theorem TimedInv.sent (h : TimedInv c cfg s ls) {e : Entry} {request : TimingRequest}
    (hrequest : e.request = some request) (hfinishes : ∀ slot, e.finishes slot = none)
    (hdrops : ∀ slot, e.drops slot = none)
    (hhandle : ∀ tb : TimeBuffer, tb.slots = cfg.slots → ∃ tb', tb.handle request = some tb' ∧
      tb'.slots = cfg.slots ∧ ∀ slot frame, Collects s ls tb slot frame →
        KeptApart (s.log ++ [e]) tb' slot frame) : TimedInv c cfg (s.send e) ls := by
  have hover : ∀ slot f, Over (s.send e).log slot f ↔ Over s.log slot f := by
    intro slot f
    show Over (s.log ++ [e]) slot f ↔ _
    rw [over_concat, hfinishes, hdrops]
    simp
  obtain ⟨tb, hserve, hslots, hall⟩ := h.kept
  obtain ⟨tb', hstep, hslots', hkept⟩ := hhandle tb hslots
  refine ⟨h.base, fun m hm => ?_, h.evictor, h.once, h.bounded, tb', ?_, hslots', fun slot => ?_⟩
  · exact (h.errands m hm).keep rfl rfl (fun _ _ _ => rfl) (fun slot f _ => (hover slot f).mp)
      fun _ _ => id
  · show TimeBuffer.serve (requests (s.log ++ [e])) _ = _
    rw [requests_concat, hrequest, TimeBuffer.serve_append, hserve]
    simp [TimeBuffer.serve, hstep]
  · obtain ⟨frame, hframe⟩ := hall slot
    exact ⟨frame, hkept slot frame hframe, fun f => (hover slot f).trans (hframe.ended f), hframe.turn⟩

/-- A task in hand is one of the frame whose timings are collected. -/
theorem Collects.turn_of_hand {tb : TimeBuffer} {t : Ticket} {k : ℕ}
    (hframe : Collects s (l :: others) tb t.slot frame) (h : TimedInv c cfg s (l :: others))
    (ht : (t, k) ∈ l.1.hand) : s.frames t.slot t.epoch = frame ∧ t.slot < cfg.slots := by
  have hbase : Inv c cfg.options.config False False (marked s.evicting s.shared)
      (l.1 :: others.map Prod.fst) := h.base
  have hcurrent := (hbase.tickets.phases l.1 List.mem_cons_self).hand _ ht
  have hlive := mem_live_of_hand ht (NodeInfo.head_mem_cells hcurrent.nonempty)
  have hout : (⟨t.slot, t.info.id, t.info.index⟩ : Cell) ∈
      outstanding (marked s.evicting s.shared) (l.1 :: others.map Prod.fst) :=
    mem_outstanding.mpr (.inl ⟨l.1, List.mem_cons_self, hlive⟩)
  have hreleased := hbase.accounts.released_of_outstanding hout
  have hturn : s.frameOn t.slot = frame := by
    refine hframe.turn.resolve_right ?_
    rintro ⟨-, hempty | ⟨m, hm, stage, hreset⟩⟩
    · exact hempty _ hreleased rfl
    · have hclaim := hbase.claims.phases m.1 (List.mem_map_of_mem hm)
      exact hbase.accounts.not_retired hout ((hclaim.reset _ stage hreset).settled _ hreleased rfl)
  refine ⟨?_, h.bounded _ hreleased⟩
  rw [← hturn, Timed.frameOn]
  exact congrArg (s.frames t.slot) hcurrent.epoch

theorem TimedInv.recordTiming (h : TimedInv c cfg s (l :: others)) {t : Ticket} {k : ℕ}
    (ht : (t, k) ∈ l.1.hand) (workerId duration : ℕ) :
    TimedInv c cfg (s.send (.timing t.slot (s.frames t.slot t.epoch) (cfg.nodeName t.info.id)
      workerId duration)) (l :: others) := by
  obtain ⟨tb₀, -, -, hall⟩ := h.kept
  obtain ⟨frame, hframe⟩ := hall t.slot
  obtain ⟨hturn, hslot⟩ := hframe.turn_of_hand h ht
  refine h.sent rfl (fun _ => rfl) (fun _ => rfl) fun tb hslots => ?_
  have hadd : ∃ tb', tb.addTaskTime t.slot (cfg.nodeName t.info.id) workerId duration = some tb' :=
    ⟨_, if_neg (by omega)⟩
  obtain ⟨tb', hadd⟩ := hadd
  obtain ⟨hslots', hstatistics, -, -, hcurrent⟩ := TimeBuffer.addTaskTime_spec hadd
  refine ⟨tb', hadd, hslots'.trans hslots, fun slot g hg => ?_⟩
  by_cases hs : slot = t.slot
  · subst hs
    obtain ⟨hsame, -⟩ := hg.turn_of_hand h ht
    rw [hsame]
    refine hg.apart.timing (fun hdropped => ?_) _ _ _ hadd
    exact lt_irrefl g ((hg.ended g).mp (.inr hdropped))
  · exact hg.apart.elsewhere (Ne.symm hs) (hcurrent slot hs) (congrFun hstatistics slot)

theorem TimedInv.startSlot (h : TimedInv c cfg s ls) (hslot : slot < cfg.slots) (time : ℕ) :
    TimedInv c cfg (s.send (.start slot time)) ls := by
  refine h.sent rfl (fun _ => rfl) (fun _ => rfl) fun tb hslots => ?_
  have hstart : ∃ tb', tb.startSlotProcessingWithTime slot time = some tb' :=
    ⟨_, if_neg (by omega)⟩
  obtain ⟨tb', hstart⟩ := hstart
  obtain ⟨hslots', hstatistics, hcurrent⟩ := TimeBuffer.startSlotProcessingWithTime_spec hstart
  refine ⟨tb', hstart, hslots'.trans hslots, fun other g hg => ?_⟩
  exact hg.apart.still (fun _ _ => rfl) rfl rfl (congrFun hcurrent other) (congrFun hstatistics other)

/-- The end of a frame is sent by the thread that has reset its slot. -/
theorem TimedInv.finishSlot (h : TimedInv c cfg s ((.idle, .finish slot frame) :: others))
    (hstarted : s.Started cfg slot) (time : ℕ) :
    TimedInv c cfg (s.send (.finish slot frame time)) ((.idle, .free) :: others) := by
  obtain ⟨hslot, hnext, hnot⟩ : slot < cfg.slots ∧ frame + 1 = s.frameOn slot ∧
      ¬ Over s.log slot frame := h.errands _ List.mem_cons_self
  obtain ⟨tb, hserve, hslots, hall⟩ := h.kept
  have hsome : (tb.slotStartTimes slot).isSome = true := by
    have hany := hstarted
    rw [Timed.Started, hserve] at hany
    exact hany
  obtain ⟨stats, tb', hfinish⟩ := TimeBuffer.exists_finish (hslots.symm ▸ hslot) hsome time
  obtain ⟨hslots', -, -, -, hothers⟩ := TimeBuffer.finishSlotProcessingWithTime_spec hfinish
  have hthis : ∀ g, Collects s ((.idle, .finish slot frame) :: others) tb slot g → g = frame := by
    intro g hg
    have hle : g ≤ frame := Nat.not_lt.mp fun hlt => hnot ((hg.ended frame).mpr hlt)
    rcases hg.turn with hturn | ⟨hturn, -⟩ <;> omega
  have hover : ∀ other f, Over (s.send (.finish slot frame time)).log other f ↔
      Over s.log other f ∨ slot = other ∧ frame = f := by
    intro other f
    show Over (s.log ++ [_]) other f ↔ _
    rw [over_concat]
    simp [Entry.finishes, Entry.drops]
  refine ⟨h.base, fun m hm => ?_, fun evicted hev => ?_, ?_, h.bounded, tb', ?_,
    hslots'.trans hslots, fun other => ?_⟩
  · rcases List.mem_cons.mp hm with rfl | hmem
    · trivial
    · refine (h.errands m (List.mem_cons_of_mem _ hmem)).keep rfl rfl (fun _ _ _ => rfl)
        (fun closed f he hnow => ((hover closed f).mp hnow).resolve_right ?_) fun _ _ => id
      rintro ⟨rfl, rfl⟩
      exact (List.pairwise_cons.mp h.once).1 m hmem slot frame frame rfl he
  · obtain ⟨m, hm, he⟩ := h.evictor evicted hev
    rcases List.mem_cons.mp hm with rfl | hmem
    · cases he
    · exact ⟨m, List.mem_cons_of_mem _ hmem, he⟩
  · exact List.pairwise_cons.mpr ⟨fun _ _ _ _ _ hl => (by cases hl), (List.pairwise_cons.mp h.once).2⟩
  · show TimeBuffer.serve (requests (s.log ++ [_])) _ = _
    rw [requests_concat, TimeBuffer.serve_append, hserve]
    simp [TimeBuffer.serve, Entry.request, TimeBuffer.handle, hfinish]
  · obtain ⟨g, hg⟩ := hall other
    by_cases hs : slot = other
    · subst hs
      obtain rfl := hthis g hg
      refine ⟨g + 1, hg.apart.finish (fun hmem => ?_) (Nat.succ_ne_self g) hfinish, fun f => ?_,
        .inl hnext.symm⟩
      · have hlt := (hg.ended (g + 1)).mp (.inl hmem)
        omega
      · rw [hover, hg.ended]
        omega
    · obtain ⟨hstatistics, hcurrent⟩ := hothers other (Ne.symm hs)
      refine ⟨g, hg.apart.elsewhere hs hcurrent hstatistics, fun f => ?_, ?_⟩
      · rw [hover, ← hg.ended f]
        exact or_iff_left fun hsame => hs hsame.1
      · exact hg.turn.imp_right (And.imp_right (Or.imp_right fun hin =>
          hin.refocus fun _ hno => by cases hno))

end Requests

/-! ## All steps -/

section All

variable {c : Compiled} {cfg : TimedOptions} {s : Timed} {l : TimedPhase} {ls others : List TimedPhase}

/-- Packet counters and packet bits are nothing to the invariant. -/
theorem TimedInv.packets (h : TimedInv c cfg s ls) (counters : ℕ → ℕ) (complete : ℕ → Bool) :
    TimedInv c cfg { s with packetCounters := counters, packetComplete := complete } ls := by
  refine ⟨h.base, h.errands, h.evictor, h.once, h.bounded, ?_⟩
  obtain ⟨tb, hserve, hslots, hall⟩ := h.kept
  refine ⟨tb, hserve, hslots, fun slot => ?_⟩
  obtain ⟨frame, hframe⟩ := hall slot
  exact ⟨frame, hframe.still rfl rfl rfl id⟩

/-- An idle thread begins to evict a slot that is not marked. -/
theorem TimedInv.beginEvict (h : TimedInv c cfg s ((.idle, .free) :: others)) (hrun : Runnable c)
    {slot : ℕ} (hbit : (s.shared.slots slot).completed = false) (hevicting : s.evicting slot = false) :
    TimedInv c cfg { s with evicting := Function.update s.evicting slot true }
      (({ Phase.idle with focus := .claim slot .fresh }, .evict slot) :: others) := by
  have hmarked : marked (Function.update s.evicting slot true) s.shared =
      (marked s.evicting s.shared).setSlot slot
        { (marked s.evicting s.shared).slots slot with completed := true } := by
    simp only [marked, Shared.setSlot]
    congr 1
    funext t
    by_cases ht : t = slot
    · subst ht
      simp only [Function.update_self, Bool.or_true]
    · simp only [Function.update_of_ne ht]
  have hbit' : ((marked s.evicting s.shared).slots slot).completed = false := by
    simp only [marked, hbit, hevicting, Bool.or_false]
  have hstep := Inv.mark h.base hrun rfl hbit'
  rw [← hmarked] at hstep
  refine ⟨hstep, fun m hm => ?_, fun evicted hev => ?_, ?_, h.bounded, ?_⟩
  · rcases List.mem_cons.mp hm with rfl | hmem
    · exact ⟨Function.update_self .., .inl rfl⟩
    · refine (h.errands m (List.mem_cons_of_mem _ hmem)).keep rfl rfl (fun _ _ _ => rfl)
        (fun _ _ _ => id) fun evicted _ hold => ?_
      by_cases hs : evicted = slot
      · subst hs
        exact Function.update_self ..
      · exact (Function.update_of_ne hs ..).trans hold
  · by_cases hs : evicted = slot
    · subst hs
      exact ⟨_, List.mem_cons_self, rfl⟩
    · obtain ⟨m, hm, he⟩ := h.evictor evicted ((Function.update_of_ne hs ..).symm.trans hev)
      rcases List.mem_cons.mp hm with rfl | hmem
      · cases he
      · exact ⟨m, List.mem_cons_of_mem _ hmem, he⟩
  · exact List.pairwise_cons.mpr ⟨fun _ _ _ _ _ hl => (by cases hl), (List.pairwise_cons.mp h.once).2⟩
  · obtain ⟨tb, hserve, hslots, hall⟩ := h.kept
    refine ⟨tb, hserve, hslots, fun other => ?_⟩
    obtain ⟨frame, hframe⟩ := hall other
    exact ⟨frame, hframe.still rfl rfl rfl fun hin => hin.refocus fun _ hno => by cases hno⟩

/-- The thread takes the number of the frame it has claimed. -/
theorem TimedInv.closing (h : TimedInv c cfg s (l :: others)) (hfree : l.2 = .free) {slot : ℕ}
    (hf : l.1.focus = .claim slot .quiet) :
    TimedInv c cfg s ((l.1, .closing slot (s.frameOn slot)) :: others) := by
  refine ⟨h.base, fun m hm => ?_, fun evicted hev => ?_, ?_, h.bounded, ?_⟩
  · rcases List.mem_cons.mp hm with rfl | hmem
    · exact ⟨hf, rfl⟩
    · exact h.errands m (List.mem_cons_of_mem _ hmem)
  · obtain ⟨m, hm, he⟩ := h.evictor evicted hev
    rcases List.mem_cons.mp hm with rfl | hmem
    · cases hfree.symm.trans he
    · exact ⟨m, List.mem_cons_of_mem _ hmem, he⟩
  · exact List.pairwise_cons.mpr ⟨fun _ _ _ _ _ hl => (nomatch hl), (List.pairwise_cons.mp h.once).2⟩
  · obtain ⟨tb, hserve, hslots, hall⟩ := h.kept
    refine ⟨tb, hserve, hslots, fun other => ?_⟩
    obtain ⟨frame, hframe⟩ := hall other
    refine ⟨frame, hframe.still rfl rfl rfl fun hin => hin.refocus fun stage hreset => ?_⟩
    cases hf.symm.trans hreset

theorem TimedInv.note (h : TimedInv c cfg s (l :: others)) (hrun : Runnable c) (choice : ℕ)
    (b : TimingAct) (hpermits : l.permits c cfg (.inr b)) (hok : s.NotesInTime cfg b) :
    TimedInv c cfg (Timed.performTiming cfg choice b s).2
      (l.next c cfg (.inr b) (Timed.performTiming cfg choice b s).1 :: others) := by
  cases b with
  | recordTiming t workerId =>
    obtain ⟨-, k, ht⟩ := hpermits
    exact h.recordTiming ht workerId choice
  | startSlotProcessing slot => exact h.startSlot hok choice
  | finishSlotProcessing slot frame =>
    obtain rfl : l = (.idle, .finish slot frame) := hpermits
    exact h.finishSlot hok choice
  | frameId slot => exact h.closing hpermits.1 hpermits.2
  | receivePacket slot => exact h.packets _ _
  | loadPackets slot => exact h
  | isIdle slot => exact h
  | swapPacketComplete slot evict =>
    cases evict with
    | false => exact h.packets _ _
    | true =>
      obtain rfl : l = (.idle, .free) := hpermits rfl
      cases hbit : s.packetComplete slot with
      | true =>
        simp only [Timed.performTiming, TimedPhase.next, hbit]
        exact h.packets _ _
      | false =>
        obtain ⟨hcompleted, hevicting⟩ := hok hbit
        simp only [Timed.performTiming, TimedPhase.next, hbit]
        exact (h.beginEvict hrun hcompleted hevicting).packets _ _
  | clearPacketComplete slot => exact h.packets _ _
  | clearPackets slot => exact h.packets _ _

theorem TimedInv.step (h : TimedInv c cfg s (l :: others)) (hrun : Runnable c)
    (hpos : 0 < c.totalOf false + c.totalOf true) (choice : ℕ) (a : timedAtomics.Act)
    (hpermits : l.permits c cfg a) (hok : TimedOrderly c cfg s choice a) :
    l.knows c a ((timedMachine c cfg).perform choice a s).1 ∧
      TimedInv c cfg ((timedMachine c cfg).perform choice a s).2
        (l.next c cfg a ((timedMachine c cfg).perform choice a s).1 :: others) := by
  cases a with
  | inr b => exact ⟨trivial, h.note hrun choice b hpermits hok⟩
  | inl a =>
    by_cases hreset : ∃ slot, a = .bumpSlotGeneration slot true
    · obtain ⟨slot, rfl⟩ := hreset
      refine ⟨trivial, ?_⟩
      obtain ⟨p, e⟩ := l
      cases e with
      | free =>
        exact h.reset (Phase.focus_of_reset_bump hpermits) hpos choice hpermits hrun hok
      | closing closed f =>
        obtain ⟨rfl, -⟩ := Act.bumpSlotGeneration.inj hpermits
        exact h.reset (h.errands _ List.mem_cons_self).1 hpos choice hpermits hrun hok
      | finish closed f =>
        obtain ⟨⟨stage, hf⟩, hbase⟩ := hpermits
        cases hf.symm.trans (Phase.focus_of_reset_bump hbase)
      | evict evicted =>
        rcases hpermits with ⟨hf, ha⟩ | ⟨⟨stage, hf⟩, hbase⟩
        · obtain ⟨rfl, -⟩ := Act.bumpSlotGeneration.inj ha
          exact h.evict rfl hf choice hok
        · cases hf.symm.trans (Phase.focus_of_reset_bump hbase)
    · have hkeep : ∀ slot, a ≠ .bumpSlotGeneration slot true := fun slot ha => hreset ⟨slot, ha⟩
      have hreply := (Timed.marked_perform (c := c) (s := s) choice
        (fun slot ha => absurd ha (hkeep slot)) hok.2.2).1
      refine ⟨?_, h.act hrun choice hkeep hpermits hok⟩
      have hknows := h.base.knows choice a (orderly_marked hok.1)
      rwa [hreply] at hknows

/-- Before the first request no frame has ended. -/
theorem TimedInv.initial (c : Compiled) (cfg : TimedOptions) {n : ℕ} (hn : n < 2 ^ 64) :
    TimedInv c cfg (.initial c) (List.replicate n (.idle, .free)) := by
  have hmarked : marked (Timed.initial c).evicting (Timed.initial c).shared = Shared.initial c := by
    simp only [marked, Timed.initial, Bool.or_false]
  refine ⟨?_, fun l hl => ?_, fun _ hev => (by cases hev), ?_, fun _ hx => (by cases hx),
    _, rfl, rfl, fun slot => ⟨0, .nothing _ _ _ _, fun f => ?_, .inl rfl⟩⟩
  · rw [hmarked, List.map_replicate]
    exact Inv.initial c cfg.options.config False False hn
  · rw [List.eq_of_mem_replicate hl]
    trivial
  · exact List.pairwise_replicate.mpr (.inr fun _ _ _ hl => (by cases hl))
  · exact ⟨fun hover => hover.elim (fun hmem => (by cases hmem)) fun hmem => (by cases hmem),
      fun hlt => absurd hlt (Nat.not_lt_zero f)⟩

theorem timed_maintains (hrun : Runnable c) (hpos : 0 < c.totalOf false + c.totalOf true) :
    Machine.Maintains (timedMachine c cfg) (TimedOrderly c cfg) (timedDiscipline c cfg)
      (.idle, .free) (· = (.idle, .free)) (TimedInv c cfg) := by
  refine .of_front (obeys_timedJob hrun) (fun h hp => h.perm hp) ?_ fun choice a h hpermits hok =>
    h.step hrun hpos choice a hpermits hok
  rintro s others l rfl h
  exact h

end All

/-! ## Runs -/

/-- In every orderly run each end has collected the timings of its frame, and of no other. -/
theorem frames_kept_apart {nodes : List Node} {c : Compiled} {cfg : TimedOptions} {threads : UInt64}
    {w : World timedAtomics Timed} (hfits : Fits nodes c)
    (hpos : 0 < c.totalOf false + c.totalOf true)
    (hreach : (timedMachine c cfg).Reaches (TimedOrderly c cfg) (timedWorld c threads) w) :
    FramesKeptApart cfg.slots cfg.baseTime w.shared.log := by
  obtain ⟨ls, hinv, -⟩ := (timed_maintains hfits.runnable hpos).reached hreach
    (TimedInv.initial c cfg threads.toNat_lt)
    (Machine.follows_idle (· = (Phase.idle, Errand.free)) rfl threads.toNat)
  obtain ⟨tb, hserve, -, hall⟩ := hinv.kept
  refine ⟨tb, hserve, fun slot => ?_⟩
  obtain ⟨frame, hframe⟩ := hall slot
  exact ⟨frame, hframe.apart⟩

def pairTiming : TimedOptions := ⟨twoWorkers, 1, 0, 4, 10, fun _ => ['p', 'a', 'i', 'r'], fun _ => false⟩

/-- `n` steps of a thread with one choice. -/
def choosing (thread n choice : ℕ) : List (Move TimedJob) := List.replicate n (.step thread choice)

/-- The slot becomes active, and two packets bring a task. -/
def pairRun : List (Move TimedJob) :=
  .begin 0 (.activate 0) :: choosing 0 4 0 ++ .begin 1 (.packets [(0, 0), (0, 1)]) :: choosing 1 16 0 ++
    .begin 1 (.work 7) :: choosing 1 11 0

/-- A frame of four packets and two tasks, from its start to its end. -/
def wholeFrame : List (Move TimedJob) :=
  pairRun ++ .begin 1 (.packets [(0, 2), (0, 3)]) :: choosing 1 18 0 ++
    .begin 1 (.work 7) :: choosing 1 11 0 ++ .begin 0 (.check [0]) :: choosing 0 19 0

/-- No more packets come for too long. -/
def stalled : List (Move TimedJob) := .begin 0 (.check [0]) :: choosing 0 13 1

/-- A frame stalls before its first task. -/
def stalledEmpty : List (Move TimedJob) :=
  .begin 0 (.activate 0) :: choosing 0 4 0 ++ .begin 1 (.packets [(0, 0)]) :: choosing 1 10 0 ++ stalled

theorem frames_kept_apart_stalledEmpty : ∃ w : World timedAtomics Timed,
    (timedMachine packetGraph pairTiming).fireAllowed (TimedOrderly packetGraph pairTiming)
        (stalledEmpty ++ wholeFrame) (timedWorld packetGraph 2) = some w ∧
      dropped w.shared.log 0 = [0] ∧ finished w.shared.log 0 = [1] ∧
        FramesKeptApart 1 0 w.shared.log := by
  have hrun : ((timedMachine packetGraph pairTiming).fireAllowed
      (TimedOrderly packetGraph pairTiming) (stalledEmpty ++ wholeFrame)
        (timedWorld packetGraph 2)).any (fun w =>
          dropped w.shared.log 0 = [0] ∧ finished w.shared.log 0 = [1]) = true := by
    decide +kernel
  obtain ⟨w, hw, hstate⟩ := (Option.any_eq_true _ _).mp hrun
  obtain ⟨hdropped, hfinished⟩ := of_decide_eq_true hstate
  exact ⟨w, hw, hdropped, hfinished, frames_kept_apart fits_packetPairs (by decide +kernel)
    (Machine.reaches_of_fireAllowed hw)⟩

/-- Steps that are orderly but for what evictions take away. -/
def OrderlyButEvictions (c : Compiled) (cfg : TimedOptions) (s : Timed) (choice : ℕ) :
    timedAtomics.Act → Prop
  | .inl a => Orderly c False False s.shared choice a ∧ s.SourcesInTime cfg a
  | .inr b => s.NotesInTime cfg b

instance (c : Compiled) (cfg : TimedOptions) (s : Timed) (choice : ℕ) :
    (a : timedAtomics.Act) → Decidable (OrderlyButEvictions c cfg s choice a)
  | .inl a => inferInstanceAs (Decidable (Orderly c False False s.shared choice a ∧ _))
  | .inr b => inferInstanceAs (Decidable (s.NotesInTime cfg b))

/-- The statistics of the second frame have the task of the first, which was evicted. -/
theorem evicted_frame_in_next_statistics :
    ¬ ∀ (nodes : List Node) (c : Compiled) (cfg : TimedOptions) (threads : UInt64)
        (w : World timedAtomics Timed), Fits nodes c → 0 < c.totalOf false + c.totalOf true →
      (timedMachine c cfg).Reaches (OrderlyButEvictions c cfg) (timedWorld c threads) w →
        FramesKeptApart cfg.slots cfg.baseTime w.shared.log := by
  intro h
  have hrun : ((timedMachine packetGraph pairTiming).fireAllowed
      (OrderlyButEvictions packetGraph pairTiming) (pairRun ++ stalled ++ wholeFrame)
        (timedWorld packetGraph 2)).any (fun w =>
          (TimeBuffer.serve (requests w.shared.log) (.new 1 0)).all fun tb =>
            (tb.slotStatistics 0).map (·.taskTimes ['p', 'a', 'i', 'r']) ≠
              (finished w.shared.log 0).map (timesOf w.shared.log 0 · ['p', 'a', 'i', 'r'])) =
                true := by
    decide +kernel
  obtain ⟨w, hw, hstate⟩ := (Option.any_eq_true _ _).mp hrun
  obtain ⟨tb, hserve, hall⟩ := h _ _ pairTiming 2 w fits_packetPairs (by decide +kernel)
    (Machine.reaches_of_fireAllowed hw)
  obtain ⟨frame, hkept⟩ := hall 0
  rw [show TimeBuffer.serve (requests w.shared.log) (.new 1 0) = some tb from hserve] at hstate
  refine of_decide_eq_true hstate ?_
  have htimes := congrArg (List.map fun times : TaskTimes => times ['p', 'a', 'i', 'r'])
    hkept.statistics
  rwa [List.map_map, List.map_map] at htimes

end Tomii.Timing
