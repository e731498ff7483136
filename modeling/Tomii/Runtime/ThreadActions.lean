import Tomii.Runtime.ThreadResets

/-! # Every permitted action keeps the invariant

The lemmas on single steps, one for each action and for each place of a thread in its claim. -/
namespace Tomii
set_option autoImplicit false
set_option maxHeartbeats 250000

variable {c : Compiled} {cfg : Config} {guarded clean : Prop} {σ : Shared} {l : Phase}
  {others : List Phase}

/-- What the thread may count on holds of the reply. -/
theorem Inv.knows (h : Inv c cfg guarded clean σ (l :: others)) (choice : ℕ) (a : Act)
    (hok : Orderly c guarded clean σ choice a) :
    l.knows c guarded a (σ.perform c choice a).1 := by
  have hl := h.tickets.phases l List.mem_cons_self
  cases a with
  | loadGeneration slot =>
    rintro p hp rfl hnet
    exact ((hl.hand p hp).gen hnet).symm
  | retire t byWorker =>
    rintro hg rfl
    exact hok.2.2.1 hg
  | evaluate t task parts => exact fun hg => hok.2.2.1 hg
  | takeTask =>
    intro u hu
    obtain ⟨hcur, hnet⟩ := h.tickets.queue u (mem_of_takeAt hu)
    exact ⟨hcur.nonempty, hnet⟩
  | takeBatch => exact fun u hu => (h.tickets.batchQueue u (mem_of_takeAt hu)).2
  | fetchArgs t idx =>
    rintro ⟨k, hk⟩ hnet
    refine decide_eq_false fun hstale => hstale.2 ?_
    exact ((hl.hand _ hk).gen hnet).symm
  | deliver ni => exact rfl
  | _ => trivial

/-! ## Outside a claim -/

/-- An access to nothing that the invariant is about. -/
theorem Inv.idles (h : Inv c cfg guarded clean σ (l :: others)) {σ' : Shared} {slot : ℕ} {b : Bool}
    (hσ : σ' = σ.setSlot slot { σ.slots slot with active := b }) :
    Inv c cfg guarded clean σ' (l :: others) := by
  subst hσ
  have halike : (σ.slots slot).Alike { σ.slots slot with active := b } :=
    ⟨rfl, rfl, rfl, rfl, rfl, rfl, id⟩
  exact h.quiet rfl rfl rfl (Shared.alike_setSlot halike) (σ.setSlot_keeps (·.cells) rfl) (.refl l)
    h.stampOk

/-- A load by a thread that does not look at counters. -/
theorem Inv.unseen (h : Inv c cfg guarded clean σ (l :: others))
    (hfocus : ∀ zero, l.focus.seen zero = l.focus) (zero : Bool) :
    Inv c cfg guarded clean σ ({ l with focus := l.focus.seen zero } :: others) := by
  rw [hfocus]
  exact h

theorem Inv.work (h : Inv c cfg guarded clean σ (l :: others)) (hrun : Runnable c) (choice : ℕ)
    (a : Act) (hfree : l.focus = .free) (hworks : l.works c cfg guarded a)
    (hok : Orderly c guarded clean σ choice a) :
    Inv c cfg guarded clean (σ.perform c choice a).2
      (l.next c cfg a (σ.perform c choice a).1 :: others) := by
  have hl := h.tickets.phases l List.mem_cons_self
  cases a with
  | loadGeneration slot =>
    simp only [Shared.perform, Phase.next]
    split
    · next hin =>
      refine h.quiet rfl rfl rfl (fun s => .refl _) (fun s => rfl) ⟨rfl, rfl, rfl, rfl, rfl, rfl, rfl⟩
        fun s st hst => ?_
      obtain ⟨rfl, rfl⟩ := Prod.mk.inj (Option.some.inj hst)
      exact ⟨hin, rfl⟩
    · exact h
  | load counter slot =>
    exact h.unseen (fun zero => by rw [hfree]; rfl) _
  | enter slot => exact h.enter hworks.1 hworks.2
  | leave slot => exact h.leave hworks hfree
  | retire t byWorker => exact h.retire hworks.1 hworks.2
  | fetchDec t gen node g count => exact h.fetchDec hrun hworks.1 hworks.2 hok.2.1
  | trySend t gen node idx =>
    obtain ⟨hs, hnode, hidx, hflags⟩ := hworks
    exact h.trySend hrun hs hnode hidx hflags hok.2.1
  | arriveFanout t gen node ready =>
    obtain ⟨hs, -, hfans, hne, hready⟩ := hworks
    exact h.arriveFanout hrun hs hfans hne hready
  | remainingSpawns t gen node => exact h
  | evaluate t task parts => exact h.evaluate hworks.1 hworks.2 choice
  | spawnOne t gen node => exact h.spawnOne hworks node
  | discharge t task =>
    obtain ⟨hserved, hslot, hone, hcond, hready⟩ := hworks
    exact h.discharge hserved hslot hone hcond hready
  | incrementDependency t gen task => exact h.incrementDependency hworks.1 hworks.2.2 task.index
  | resetSent t gen task => exact h.resetSent hworks.1 hworks.2.2 task.index
  | enqueue cause task =>
    cases cause with
    | none => exact h.enqueueInitial hrun hworks.1 hworks.2.1 hworks.2.2 hok.1 hok.2.2.1
    | some t => exact h.enqueue t task hworks.2.2
  | reserve t task => exact h.reserve task hworks.2.2
  | resume task =>
    obtain ⟨hmem, hout, hnet⟩ := hworks
    refine h.put (k := 0) rfl rfl (fun u hu => List.mem_cons.mp hu) (fun u hu => .inr hu) ?_ ?_ hmem
      hnet hout
    · rw [← add_assoc]
      exact congrArg (· + _) (queuedCells_cons task σ.queue)
    · simp [Shared.perform]
  | takeTask =>
    have hreply : (σ.perform c choice .takeTask).1 = (takeAt choice σ.queue).1 := rfl
    cases ht : (takeAt choice σ.queue).1 with
    | none =>
      have hsame : (σ.perform c choice .takeTask).2 = σ := by
        show ({ σ with queue := (takeAt choice σ.queue).2 } : Shared) = σ
        rw [takeAt_none ht]
      rw [hreply, ht, hsame]
      exact h
    | some t =>
      rw [hreply, ht]
      refine h.take (k := 0) rfl rfl (fun u hu => mem_takeAt_rest hu) (fun u hu => hu) ?_ ?_
        (h.tickets.queue t (mem_of_takeAt ht)).1 fun hg hcond =>
          (h.grants hg).queue t (mem_of_takeAt ht) hcond
      · rw [queuedCells_takeAt ht, add_assoc]
        rfl
      · simp [Shared.perform]
  | takeBatch =>
    have hreply : (σ.perform c choice .takeBatch).1 = (takeAt choice σ.batchQueue).1 := rfl
    cases ht : (takeAt choice σ.batchQueue).1 with
    | none =>
      have hsame : (σ.perform c choice .takeBatch).2 = σ := by
        show ({ σ with batchQueue := (takeAt choice σ.batchQueue).2 } : Shared) = σ
        rw [takeAt_none ht]
      rw [hreply, ht, hsame]
      exact h
    | some t =>
      rw [hreply, ht]
      refine h.take (k := t.info.bulkCount) rfl rfl (fun u hu => hu) (fun u hu => mem_takeAt_rest hu)
        ?_ ?_ (h.tickets.batchQueue t (mem_of_takeAt ht)).1 fun hg hcond =>
          (h.grants hg).batchQueue t (mem_of_takeAt ht) hcond
      · rw [queuedCells_takeAt ht, add_left_comm]
        rfl
      · rw [queuedCells_takeAt ht, Ticket.take_bulkCount]
        rfl
  | submit t =>
    obtain ⟨hmem, hout, hnet⟩ := hworks
    refine h.put rfl rfl (fun u hu => .inr hu) (fun u hu => List.mem_cons.mp hu) ?_ ?_ hmem hnet hout
    · rw [add_left_comm]
      exact congrArg (_ + ·) (queuedCells_cons t σ.batchQueue)
    · rw [Ticket.take_bulkCount]
      exact queuedCells_cons t σ.batchQueue
  | fetchArgs t idx => exact h
  | runKernel t idx =>
    obtain ⟨hlo, hhi, hmem⟩ := hworks
    obtain ⟨k, rfl⟩ := Nat.exists_eq_add_of_le hlo
    rw [Nat.add_sub_cancel_left] at hmem
    have hstep := h.runKernel (by omega) hmem
    simp only [Shared.perform, Phase.next, Nat.add_sub_cancel_left]
    exact hstep
  | deliver ni => exact h.deliver hrun hworks hok.1
  | setNeedsCheck slot b =>
    obtain rfl : b = true := hworks
    have hsame : ({ l with focus := l.focus.stored } : Phase) = { l with focus := .free } := by
      rw [hfree]
      rfl
    have hstep : Inv c cfg guarded clean
        (σ.setSlot slot { σ.slots slot with needsCheck := true })
        ({ l with focus := .free } :: others) := h.setNeedsCheck (.inl hfree)
    show Inv c cfg guarded clean _ ({ l with focus := l.focus.stored } :: others)
    rw [hsame]
    exact hstep
  | swapNeedsCheck slot => exact h.swapNeedsCheck hfree
  | tryCompleteSlot slot => exact absurd hworks id
  | unmarkSlotCompleted slot => exact absurd hworks id
  | bumpSlotGeneration slot reset =>
    obtain rfl : reset = false := hworks
    exact h.activated hok.1
  | storePendingTasks slot => exact absurd hworks id
  | storePendingCondTasks slot => exact absurd hworks id
  | activate slot => exact h.idles rfl
  | release slot => exact h.idles rfl
  | isActive slot => exact h

/-! ## All of them -/

theorem Inv.act (h : Inv c cfg guarded clean σ (l :: others)) (hrun : Runnable c) (choice : ℕ)
    (a : Act) (hpermits : l.permits c cfg guarded a) (hok : Orderly c guarded clean σ choice a) :
    Inv c cfg guarded clean (σ.perform c choice a).2
      (l.next c cfg a (σ.perform c choice a).1 :: others) := by
  unfold Phase.permits at hpermits
  split at hpermits
  · next hf => exact h.work hrun choice a hf hpermits hok
  · next slot hf =>
    subst hpermits
    have hstep := h.setNeedsCheck (.inr hf)
    simp only [Phase.next, hf]
    exact hstep
  · next slot look hf =>
    cases hnext : look.counter with
    | some counter =>
      rw [hnext] at hpermits
      obtain rfl : a = .load counter slot := hpermits
      exact h.loadCheck hrun hf hnext
    | none =>
      rw [hnext] at hpermits
      obtain rfl : a = .tryCompleteSlot slot := hpermits
      obtain rfl : look = .quiet := by cases look <;> first | rfl | cases hnext
      exact h.tryCompleteSlot hrun hf hok.2.2.2
  · next slot look hf =>
    cases hnext : look.counter with
    | some counter =>
      rw [hnext] at hpermits
      obtain rfl : a = .load counter slot := hpermits
      exact h.loadClaim hrun hf hnext
    | none =>
      rw [hnext] at hpermits
      obtain rfl : a = .bumpSlotGeneration slot true := hpermits
      obtain rfl : look = .quiet := by cases look <;> first | rfl | cases hnext
      exact h.bumpReset hf
  · next slot hf =>
    rcases hpermits with rfl | ⟨counter, rfl⟩
    · exact h.unmark (.inl hf)
    · exact h.unseen (fun zero => by rw [hf]; rfl) _
  · next slot hf =>
    subst hpermits
    exact h.storePending false hf fun n _ hne => Bool.eq_true_of_not_eq_false hne
  · next slot hf =>
    subst hpermits
    exact h.storePending true hf fun n hkeep hne => hne hkeep
  · next slot hf =>
    subst hpermits
    have hstep := h.lowerNeedsCheck hf
    simp only [Phase.next, hf]
    exact hstep
  · next slot hf =>
    subst hpermits
    exact h.unmark (.inr hf)

/-! ## Before the first step -/

theorem retiredOf_initial (slot : ℕ) (cond : Bool) :
    retiredOf c (Shared.initial c) slot cond = [] := rfl

theorem noneInside_idle (slot n : ℕ) : NoneInside (List.replicate n Phase.idle) slot := by
  intro l hl
  obtain rfl := List.eq_of_mem_replicate hl
  exact Multiset.notMem_zero slot

theorem phaseTickets_idle : PhaseTickets c σ Phase.idle where
  hand := fun p hp => absurd hp (Multiset.notMem_zero p)
  served := fun _ ht => (nomatch ht)
  inside := fun slot hs => absurd hs (Multiset.notMem_zero slot)
  once := Multiset.nodup_zero
  stamp := fun _ _ hst => (nomatch hst)

theorem Inv.initial (c : Compiled) (cfg : Config) (guarded clean : Prop) {n : ℕ} (hn : n < 2 ^ 64) :
    Inv c cfg guarded clean (Shared.initial c) (List.replicate n Phase.idle) where
  accounts := by
    refine ⟨?_, List.nodup_nil, fun _ hx => (by cases hx), ?_⟩
    · rw [outstanding, total_replicate_zero _ rfl]
      rfl
    · rw [total_replicate_zero _ rfl]
      rfl
  tickets := by
    refine ⟨fun _ ht => (by cases ht), fun _ ht => (by cases ht), fun l hl => ?_⟩
    rw [List.eq_of_mem_replicate hl]
    exact phaseTickets_idle
  brackets := by
    refine ⟨fun slot => ?_, by rwa [List.length_replicate]⟩
    rw [total_inside_of_none (noneInside_idle slot n)]
    rfl
  counters := by
    intro slot cond
    rw [retiredOf_initial]
    cases cond <;> simp [Shared.initial, Slot.initial, Slot.load]
  words := by
    refine ⟨fun slot => LazySlot.swept_inEpoch c.layout 0, fun _ hx => (by cases hx),
      fun slot node _ _ => ?_, fun _ _ hf => (by cases hf)⟩
    refine le_trans (le_of_eq ?_) (Nat.zero_le _)
    exact congrArg UInt32.toNat (genRead_genPack 0 0 0)
  claims := by
    refine ⟨fun slot => ?_, fun l hl => ?_, fun slot hflag => ?_⟩
    · rw [total_replicate_zero _ rfl]
      rfl
    · rw [List.eq_of_mem_replicate hl]
      exact phaseClaims_of_unmarked rfl
    · cases hflag
  awake := by
    intro _ slot hun
    obtain ⟨x, hx, -⟩ := hun.ran
    cases hx
  grants := by
    intro _
    refine ⟨fun _ ht => (by cases ht), fun _ ht => (by cases ht), fun l hl => ?_,
      fun _ hx => (by cases hx)⟩
    rw [List.eq_of_mem_replicate hl]
    exact ⟨fun p hp => absurd hp (Multiset.notMem_zero p), fun _ hx => (by cases hx)⟩

end Tomii
