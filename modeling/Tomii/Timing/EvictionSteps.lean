import Tomii.Timing.TimedPrograms
import Tomii.Runtime.FrameSafety

/-! # Evictions and the invariant of resolution

An eviction resets a slot that it has not marked complete. Where nobody else marks the slot meanwhile,
the run is one of resolution with the slots under eviction counted as marked, and the reset of a slot
of which nothing is under way keeps the invariant. -/
namespace Tomii.Timing
set_option autoImplicit false
set_option maxHeartbeats 250000

/-! ## Slots under eviction -/

/-- The slots under eviction count as marked. -/
def marked (evicting : ℕ → Bool) (σ : Shared) : Shared :=
  { σ with slots := fun slot => { σ.slots slot with
      completed := (σ.slots slot).completed || evicting slot } }

section Marked

variable {c : Compiled} {E : ℕ → Bool} {σ : Shared}

theorem marked_setSlot (slot : ℕ) (v : Slot) : marked E (σ.setSlot slot v) =
    (marked E σ).setSlot slot { v with completed := v.completed || E slot } := by
  simp only [marked, Shared.setSlot]
  congr 1
  funext s
  by_cases hs : s = slot
  · subst hs
    simp only [Function.update_self]
  · simp only [Function.update_of_ne hs]

theorem marked_setLedger (ledger : Ledger) :
    marked E (σ.setLedger ledger) = (marked E σ).setLedger ledger := rfl

theorem perform_marked (choice : ℕ) {a : Act}
    (htry : ∀ slot, a = .tryCompleteSlot slot → E slot = true → (σ.slots slot).completed = true)
    (hunmark : ∀ slot, a = .unmarkSlotCompleted slot → E slot = false) :
    (marked E σ).perform c choice a =
      ((σ.perform c choice a).1, marked E (σ.perform c choice a).2) := by
  cases a with
  | tryCompleteSlot slot =>
    simp only [Shared.perform, marked_setSlot]
    cases hE : E slot with
    | false => simp [marked, hE]
    | true => simp [marked, hE, htry slot rfl hE]
  | unmarkSlotCompleted slot =>
    simp only [Shared.perform, marked_setSlot, hunmark slot rfl]
    rfl
  | loadGeneration slot => rfl
  | load counter slot => cases counter <;> rfl
  | enter slot => simp only [Shared.perform, marked_setSlot]; rfl
  | leave slot => simp only [Shared.perform, marked_setSlot]; rfl
  | retire t byWorker =>
    simp only [Shared.perform, Shared.retireTask, marked_setLedger, marked_setSlot, Slot.lowerPending]
    split <;> rfl
  | fetchDec t gen node g count =>
    simp only [Shared.perform, Shared.fetchDec, Shared.onCells, Shared.setCells, marked_setLedger, marked_setSlot]
    rfl
  | trySend t gen node idx =>
    simp only [Shared.perform, Shared.trySend, Shared.onCells, Shared.setCells, marked_setLedger, marked_setSlot]
    rfl
  | arriveFanout t gen node ready =>
    simp only [Shared.perform, Shared.arriveFanout, Shared.onCells, Shared.setCells, marked_setLedger, marked_setSlot]
    rfl
  | spawnOne t gen node => simp only [Shared.perform, Shared.setCells, marked_setSlot]; rfl
  | discharge t task =>
    simp only [Shared.perform, Shared.discharge, marked_setLedger, marked_setSlot]
    rfl
  | incrementDependency t gen task => simp only [Shared.perform, Shared.setCells, marked_setSlot]; rfl
  | resetSent t gen task => simp only [Shared.perform, Shared.setCells, marked_setSlot]; rfl
  | setNeedsCheck slot b => simp only [Shared.perform, marked_setSlot]; rfl
  | swapNeedsCheck slot => simp only [Shared.perform, marked_setSlot]; rfl
  | bumpSlotGeneration slot reset =>
    simp only [Shared.perform, Shared.bumpSlotGeneration, marked_setLedger, marked_setSlot]
    rfl
  | storePendingTasks slot =>
    simp only [Shared.perform, Shared.storePending, marked_setLedger, marked_setSlot]
    rfl
  | storePendingCondTasks slot =>
    simp only [Shared.perform, Shared.storePending, marked_setLedger, marked_setSlot]
    rfl
  | activate slot => simp only [Shared.perform, marked_setSlot]; rfl
  | release slot => simp only [Shared.perform, marked_setSlot]; rfl
  | _ => rfl

theorem orderly_marked {choice : ℕ} {a : Act} (h : Orderly c False False σ choice a) :
    Orderly c False False (marked E σ) choice a := by
  refine ⟨?_, ?_, False.elim, False.elim⟩
  · have hsources := h.1
    cases a with
    | enqueue cause task => cases cause <;> exact hsources
    | bumpSlotGeneration slot reset => cases reset <;> exact hsources
    | _ => exact hsources
  · have hconds := h.2.1
    cases a with
    | _ => exact hconds

end Marked
/-! ## The bump of an eviction -/

section Evicted

variable {c : Compiled} {cfg : Config} {σ : Shared} {l : Phase} {others : List Phase} {slot : ℕ}

/-- The thread marks a slot that nobody has marked. -/
theorem Inv.mark (h : Inv c cfg False False σ (l :: others)) (hrun : Runnable c)
    (hfree : l.focus = .free) (hbit : (σ.slots slot).completed = false) :
    Inv c cfg False False (σ.setSlot slot { σ.slots slot with completed := true })
      ({ l with focus := .claim slot .fresh } :: others) := by
  have hlook : Inv c cfg False False σ ({ l with focus := .check slot .quiet } :: others) := by
    refine h.focused (fun s => ⟨_, rfl⟩) rfl rfl rfl (by rw [hfree]; rfl) (fun s stage hf => ?_)
      (phaseClaims_of_unmarked rfl) False.elim
    rw [hfree] at hf
    cases hf
  have hmarked := hlook.tryCompleteSlot hrun rfl False.elim
  rw [hbit] at hmarked
  exact hmarked

section Quiet

variable (h : Inv c cfg False False σ (l :: others))
  (hquiet : ∀ x ∈ σ.ledger.released, x.slot = slot → x ∈ σ.ledger.retired ∨ x ∈ σ.ledger.arrived)

include h hquiet

/-- Of a quiet slot only what waits at fanout-bulk counters is not retired. -/
theorem quiet_outstanding {x : Cell} (hx : x ∈ outstanding σ (l :: others)) (hslot : x.slot = slot) :
    x ∈ σ.ledger.arrived :=
  (hquiet x (h.accounts.released_of_outstanding hx) hslot).resolve_left (h.accounts.not_retired hx)

/-- What is in hand or queued has not arrived at a counter. -/
theorem quiet_apart {x : Cell} (hslot : x.slot = slot)
    (hx : 0 < (total Phase.live (l :: others)).count x + (queuedCells σ.queue).count x +
      (queuedCells σ.batchQueue).count x) : False := by
  have hnodup : (outstanding σ (l :: others)).Nodup :=
    (Multiset.nodup_add.mp h.accounts.placed_nodup).1
  have hcount := Multiset.nodup_iff_count_le_one.mp hnodup x
  rw [outstanding] at hcount
  simp only [Multiset.count_add] at hcount
  have hout : x ∈ outstanding σ (l :: others) := by
    rw [← Multiset.count_pos, outstanding]
    simp only [Multiset.count_add]
    omega
  have harrived := Multiset.count_pos.mpr
    (Multiset.mem_coe.mpr (quiet_outstanding h hquiet hout hslot))
  omega

theorem quiet_not_busy (hnone : NoneInside (l :: others) slot) :
    ¬ Busy σ (l :: others) slot := by
  rintro (⟨t, ht, hslot⟩ | ⟨t, ht, hslot⟩ | ⟨m, hm, hin | ⟨p, hp, hslot⟩⟩)
  · have hhead := NodeInfo.head_mem_cells (h.tickets.queue t ht).1.nonempty
    refine quiet_apart h hquiet (x := ⟨t.info.slot, t.info.id, t.info.index⟩) hslot ?_
    have hpos := Multiset.count_pos.mpr (mem_queuedCells.mpr ⟨t, ht, hhead⟩)
    omega
  · have hhead := NodeInfo.head_mem_cells (h.tickets.batchQueue t ht).1.nonempty
    refine quiet_apart h hquiet (x := ⟨t.info.slot, t.info.id, t.info.index⟩) hslot ?_
    have hpos := Multiset.count_pos.mpr (mem_queuedCells.mpr ⟨t, ht, hhead⟩)
    omega
  · exact hnone m hm hin
  · have hhead := NodeInfo.head_mem_cells ((h.tickets.phases m hm).hand p hp).nonempty
    refine quiet_apart h hquiet (x := ⟨p.1.info.slot, p.1.info.id, p.1.info.index⟩) hslot ?_
    have hpos := Multiset.count_pos.mpr (mem_total.mpr ⟨m, hm, mem_live_of_hand hp hhead⟩)
    omega

/-- The ledger without the instances that wait. -/
theorem accounts_bumpEvicted (f : Focus) :
    Accounts c (bumpEvicted c σ slot) ({ l with focus := f } :: others) := by
  refine ⟨?_, h.accounts.nodup.filter _, fun x hx => h.accounts.bounded x (List.mem_filter.mp hx).1,
    h.accounts.run⟩
  ext x
  have hplaced := congrArg (Multiset.count x) h.accounts.placed
  show Multiset.count x (total Phase.live (l :: others) +
    ((σ.ledger.arrived.filter (·.slot ≠ slot) : List Cell) : Multiset Cell) + queuedCells σ.queue +
      queuedCells σ.batchQueue + (σ.ledger.retired : Multiset Cell)) =
        Multiset.count x ((σ.ledger.released.filter
          fun x => ¬ (x.slot = slot ∧ x ∈ σ.ledger.arrived) : List Cell) : Multiset Cell)
  rw [outstanding] at hplaced
  simp only [Multiset.count_add, Multiset.coe_count] at hplaced ⊢
  by_cases hwaits : x.slot = slot ∧ x ∈ σ.ledger.arrived
  · -- it goes with its frame, and it was nowhere else
    have hgone : List.count x (σ.ledger.released.filter
        fun x => ¬ (x.slot = slot ∧ x ∈ σ.ledger.arrived)) = 0 := by
      rw [List.count_eq_zero]
      intro hmem
      exact of_decide_eq_true (List.mem_filter.mp hmem).2 hwaits
    have hleft : List.count x (σ.ledger.arrived.filter (·.slot ≠ slot)) = 0 := by
      rw [List.count_eq_zero]
      intro hmem
      exact of_decide_eq_true (List.mem_filter.mp hmem).2 hwaits.1
    have hretired : List.count x σ.ledger.retired = 0 := by
      rw [List.count_eq_zero]
      exact h.accounts.not_retired (mem_outstanding.mpr (.inr (.inl hwaits.2)))
    have hapart := mt (quiet_apart h hquiet hwaits.1) not_false
    omega
  · have hreleased : List.count x (σ.ledger.released.filter
        fun x => ¬ (x.slot = slot ∧ x ∈ σ.ledger.arrived)) = List.count x σ.ledger.released :=
      List.count_filter (decide_eq_true hwaits)
    have harrived : List.count x (σ.ledger.arrived.filter (·.slot ≠ slot)) =
        List.count x σ.ledger.arrived := by
      by_cases hslot : x.slot = slot
      · have hnot : x ∉ σ.ledger.arrived := fun hmem => hwaits ⟨hslot, hmem⟩
        rw [List.count_eq_zero.mpr hnot, List.count_eq_zero]
        exact fun hmem => hnot (List.mem_filter.mp hmem).1
      · exact List.count_filter (decide_eq_true hslot)
    omega

/-- A quiet slot that the thread has marked is reset. -/
theorem Inv.bumpEvicted (hfocus : l.focus = .claim slot .fresh)
    (hnone : NoneInside (l :: others) slot) :
    Inv c cfg False False (bumpEvicted c σ slot) ({ l with focus := .reset slot .bumped } :: others) := by
  have hself : (Timing.bumpEvicted c σ slot).slots slot = (σ.slots slot).bump c.layout true :=
    Shared.slots_setSlot_self ..
  have hother : ∀ s, s ≠ slot → (Timing.bumpEvicted c σ slot).slots s = σ.slots s := fun s hs =>
    Shared.slots_setSlot_of_ne σ hs _
  have hkeep : ∀ {R : Type} (g : Slot → R), (g ((σ.slots slot).bump c.layout true) =
      g (σ.slots slot)) → ∀ s, g ((Timing.bumpEvicted c σ slot).slots s) = g (σ.slots s) :=
    fun g hg => σ.setSlot_keeps g hg
  have hreleased : ∀ x ∈ (Timing.bumpEvicted c σ slot).ledger.released, x ∈ σ.ledger.released :=
    fun x hx => (List.mem_filter.mp hx).1
  have hstay : ∀ s, Busy σ (l :: others) s → s ≠ slot := by
    rintro s hs rfl
    exact quiet_not_busy h hquiet hnone hs
  obtain ⟨hbit, hunmarked⟩ := h.claims.alone (by rw [hfocus]; rfl)
  refine ⟨accounts_bumpEvicted h hquiet _, ?_, h.brackets.still rfl (hkeep (·.processingCount) rfl),
    h.counters.still rfl (hkeep (·.pendingTasks) rfl) (hkeep (·.pendingCondTasks) rfl), ?_, ?_,
    False.elim, False.elim⟩
  · exact h.tickets.step (fun s hs => congrArg Slot.stamp (hother s (hstay s hs))) (fun x _ hx => hx)
      (fun t ht => .inl ht) (fun t ht => .inl ht)
      fun hl => ⟨hl.hand, hl.served, hl.inside, hl.once, hl.stamp⟩
  · refine ⟨fun s => ?_, fun x hx hflag hcond hpreds => ?_, fun s n hf hnot => ?_,
      fun s n hf x hx => ?_⟩
    · by_cases hs : s = slot
      · subst hs
        rw [hself]
        exact LazySlot.bump_inEpoch c.layout (h.words.tags s)
      · rw [hother s hs]
        exact h.words.tags s
    · have hs : x.slot ≠ slot := by
        intro hs
        rw [hs, hself] at hflag
        simp only [Slot.bump, Bool.or_true] at hflag
        cases hflag
      rw [hother _ hs] at hflag
      refine Words.locked_congr ?_ (h.words.locked x (hreleased x hx) hflag hcond hpreds)
      simp only [Shared.entryAt, hother _ hs]
    · by_cases hs : s = slot
      · subst hs
        refine le_trans (le_of_eq ?_) (Nat.zero_le _)
        exact Shared.fanoutAt_bump (h.words.tags s) true n
      · have hwait : (s, n) ∉ σ.ledger.fired := fun hm =>
          hnot (List.mem_filter.mpr ⟨hm, decide_eq_true hs⟩)
        refine (le_of_eq ?_).trans ((h.words.waiting s n hf hwait).trans (le_of_eq ?_))
        · simp only [Shared.fanoutAt, hother s hs]
        · refine congrArg List.length (Eq.symm ?_)
          show (σ.ledger.arrived.filter (·.slot ≠ slot)).filter _ = _
          rw [List.filter_filter, arrivedAt]
          refine List.filter_congr fun x _ => ?_
          by_cases hxs : x.slot = s
          · simp [hxs, hs]
          · simp [hxs]
    · exact late_same (σ := σ) (l := l) (fun _ => id) (fun _ => id) rfl rfl (fun _ => id) x
        (h.words.fired s n (List.mem_filter.mp hf).1 x hx)
  · refine h.claims.refocus h.accounts (fun s hs => ?_) hunmarked
      (fun s hs => by rw [hother s hs]) ?_ (fun s hs => by rw [hother s hs]) (fun _ => ⟨.bumped, rfl⟩)
      (fun s stage _ hf => ?_) (fun s hs => ?_) ⟨fun s look hf => ?_, fun s stage hf => ?_,
        False.elim, False.elim⟩
    · rw [hfocus]
      rfl
    · rw [hself]
      exact hbit.trans (decide_eq_true rfl).symm
    · rw [hfocus] at hf
      cases hf
    · refine ⟨fun x _ hx => hx, fun x _ hx => .inl (hreleased x hx),
        fun n hn => .inl (List.mem_filter.mp hn).1, fun _ hn => hn.refocus _, fun hflag => ?_⟩
      rw [hother s hs]
      exact hflag
    · cases hf
    · cases hf
      refine ⟨hnone.refocus _, fun x hx hslot => ?_, fun _ _ _ => trivial, ?_, fun n hn => ?_⟩
      · obtain ⟨hx, hnot⟩ := List.mem_filter.mp hx
        exact (hquiet x hx hslot).resolve_right fun harrived =>
          of_decide_eq_true hnot ⟨hslot, harrived⟩
      · rw [hself]
        exact Bool.or_true _
      · exact of_decide_eq_true (List.mem_filter.mp hn).2 rfl

end Quiet

end Evicted

end Tomii.Timing
