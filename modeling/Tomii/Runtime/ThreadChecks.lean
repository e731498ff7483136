import Tomii.Runtime.ThreadSources

/-! # Completion detection, step by step

The three loads before the claim settle nothing, the three after it are binding: while a thread has
marked a slot no other thread can. -/
namespace Tomii
set_option autoImplicit false
set_option maxHeartbeats 250000

variable {c : Compiled} {cfg : Config} {guarded clean : Prop} {σ σ' : Shared} {l l' : Phase}
  {others : List Phase} {slot : ℕ}

/-- The wake-up of a slot rests on its flag, on the thread that steps, or on another thread. -/
theorem Awake.step {s : ℕ} (h : Awake σ (l :: others) s)
    (hflag : (σ.slots s).needsCheck = true → Awake σ' (l' :: others) s)
    (hown : (l.focus = .due s ∨ (∃ look, l.focus = .check s look) ∨
      ∃ look, l.focus = .claim s look) → Awake σ' (l' :: others) s) :
    Awake σ' (l' :: others) s := by
  rcases h with hset | ⟨m, hm, hf⟩
  · exact hflag hset
  · rcases List.mem_cons.mp hm with rfl | hm
    · exact hown hf
    · exact .inr ⟨m, List.mem_cons_of_mem _ hm, hf⟩

/-- All three counters of a slot whose frame is over read zero. -/
theorem Inv.load_zero (h : Inv c cfg guarded clean σ (l :: others)) (hrun : Runnable c)
    (htasks : AllRetired c σ slot false) (hconds : AllRetired c σ slot true)
    (hnone : NoneInside (l :: others) slot) (counter : Counter) : (σ.slots slot).load counter = 0 := by
  cases counter with
  | pendingTasks => exact (h.counters.zero_iff h.accounts hrun.totals slot false).mpr htasks
  | pendingCondTasks => exact (h.counters.zero_iff h.accounts hrun.totals slot true).mpr hconds
  | processingCount => exact h.brackets.zero_of_none hnone

/-- A counter at zero adds what it stands for to what was seen. -/
theorem Inv.lookOk_after (h : Inv c cfg guarded clean σ (l :: others)) (hrun : Runnable c)
    {look : Look} {counter : Counter} (hnext : look.counter = some counter)
    (hlook : LookOk c σ (l :: others) slot look) (hzero : (σ.slots slot).load counter = 0) :
    LookOk c σ (l :: others) slot look.after := by
  cases look with
  | fresh =>
    obtain rfl := Option.some.inj hnext
    exact (h.counters.zero_iff h.accounts hrun.totals slot false).mp hzero
  | empty =>
    obtain rfl := Option.some.inj hnext
    exact ⟨hlook, (h.counters.zero_iff h.accounts hrun.totals slot true).mp hzero⟩
  | drained =>
    obtain rfl := Option.some.inj hnext
    exact ⟨hlook.1, hlook.2, h.brackets.none_of_zero h.tickets hzero⟩
  | quiet => cases hnext

/-- Nobody is inside a slot but those who were: the focus of a thread does not matter. -/
theorem LookOk.congr {look : Look} {ls ls' : List Phase} (h : LookOk c σ ls slot look)
    (hnone : NoneInside ls slot → NoneInside ls' slot) : LookOk c σ ls' slot look := by
  cases look with
  | quiet => exact ⟨h.1, h.2.1, hnone h.2.2⟩
  | _ => exact h

theorem NoneInside.refocus (h : NoneInside (l :: others) slot) (f : Focus) :
    NoneInside ({ l with focus := f } :: others) slot := by
  intro m hm
  rcases List.mem_cons.mp hm with rfl | hm
  · exact h l List.mem_cons_self
  · exact h m (List.mem_cons_of_mem _ hm)

namespace Inv

/-! ## Flags and loads -/

/-- The thread goes on in its claim, or outside one, and `needs_check` flags are stored. -/
theorem focused (h : Inv c cfg guarded clean σ (l :: others)) {f : Focus}
    (hslots : ∀ s, ∃ b, σ'.slots s = { σ.slots s with needsCheck := b })
    (hledger : σ'.ledger = σ.ledger) (hqueue : σ'.queue = σ.queue)
    (hbatch : σ'.batchQueue = σ.batchQueue) (hmarked : f.marked = l.focus.marked)
    (hreset : ∀ s stage, l.focus = .reset s stage → ∃ stage', f = .reset s stage')
    (hclaims : PhaseClaims c clean σ (l :: others) { l with focus := f })
    (hawake : clean → ∀ s, Unclaimed c σ ({ l with focus := f } :: others) s →
      Awake σ' ({ l with focus := f } :: others) s) :
    Inv c cfg guarded clean σ' ({ l with focus := f } :: others) := by
  have hkeep : ∀ {R : Type} (g : Slot → R), (∀ t b, g { t with needsCheck := b } = g t) →
      ∀ s, g (σ'.slots s) = g (σ.slots s) := by
    intro R g hg s
    obtain ⟨b, hb⟩ := hslots s
    rw [hb]
    exact hg _ b
  have hadv : ∀ s, Advances σ σ' (l :: others) ({ l with focus := f } :: others) s := by
    apply advances_of_grows
    · exact fun x hx => hledger ▸ hx
    · exact fun x hx => .inl (hledger ▸ hx)
    · exact fun p hp => .inl (hledger ▸ hp)
    · rfl
    · exact hkeep Slot.resetting fun _ _ => rfl
  refine ⟨h.accounts.still rfl rfl hledger hqueue hbatch, ?_,
    h.brackets.still rfl (hkeep (·.processingCount) fun _ _ => rfl),
    h.counters.still (by rw [hledger]) (hkeep (·.pendingTasks) fun _ _ => rfl)
      (hkeep (·.pendingCondTasks) fun _ _ => rfl), ?_, ?_, fun hclean s hun => ?_, fun hg => ?_⟩
  · exact h.tickets.step (fun s _ => hkeep Slot.stamp (fun _ _ => rfl) s) (fun x _ hx => hledger ▸ hx)
      (fun t ht => .inl (hqueue ▸ ht)) (fun t ht => .inl (hbatch ▸ ht))
      fun hl => ⟨hl.hand, hl.served, hl.inside, hl.once, hl.stamp⟩
  · exact h.words.bookkeeping (hkeep (·.cells) fun _ _ => rfl) (hkeep Slot.resetting fun _ _ => rfl)
      (fun x hx => .inl (hledger ▸ hx)) (by rw [hledger]) (by rw [hledger])
      (late_same (fun _ => id) (fun _ => id) hqueue hbatch fun x hx => hledger ▸ hx)
  · refine ⟨fun s => ?_, fun m hm => ?_, fun s hs => ?_⟩
    · rw [hkeep Slot.completed (fun _ _ => rfl), ← h.claims.bit, total_cons, total_cons, hmarked]
    · rcases List.mem_cons.mp hm with rfl | hm
      · exact hclaims.keep (fun s _ => hadv s) h.accounts
      · exact (h.claims.phases m (List.mem_cons_of_mem _ hm)).keep (fun s _ => hadv s) h.accounts
    · rw [hkeep Slot.resetting fun _ _ => rfl] at hs
      obtain ⟨m, hm, stage, hst⟩ := h.claims.flagged s hs
      rcases List.mem_cons.mp hm with rfl | hm
      · obtain ⟨stage', hf⟩ := hreset s stage hst
        exact ⟨_, List.mem_cons_self, stage', hf⟩
      · exact ⟨m, List.mem_cons_of_mem _ hm, stage, hst⟩
  · refine hawake hclean s ⟨?_, ?_, hun.none, ?_, ?_, hun.unclaimed⟩
    · exact fun n hn hc j hj => hledger ▸ hun.tasks n hn hc j hj
    · exact fun n hn hc j hj => hledger ▸ hun.conds n hn hc j hj
    · exact hledger ▸ hun.ran
    · rw [← hkeep Slot.resetting fun _ _ => rfl]
      exact hun.before
  · refine (h.grants hg).still (fun x hx => ?_) hqueue hbatch (by rw [hledger])
      fun hlg => ⟨hlg.hand, hlg.passed⟩
    rw [Granted, hledger]
    exact hx

theorem slots_needsCheck (σ : Shared) (slot : ℕ) (b : Bool) (s : ℕ) :
    ∃ b', (σ.setSlot slot { σ.slots slot with needsCheck := b }).slots s =
      { σ.slots s with needsCheck := b' } := by
  by_cases hs : s = slot
  · subst hs
    exact ⟨b, Shared.slots_setSlot_self ..⟩
  · exact ⟨(σ.slots s).needsCheck, Shared.slots_setSlot_of_ne σ hs _⟩

/-- A frame that is unclaimed with another focus of the thread was unclaimed. -/
theorem unclaimed_of_refocus {s : ℕ} {f : Focus}
    (hun : Unclaimed c σ ({ l with focus := f } :: others) s)
    (hfocus : l.focus = .claim s .quiet → f = .claim s .quiet) : Unclaimed c σ (l :: others) s :=
  hun.before_step (fun _ hx _ => hx) (fun hs => hs) rfl hfocus

/-- The flag is stored, by the thread whose store was due or by any other that is free. -/
theorem setNeedsCheck (h : Inv c cfg guarded clean σ (l :: others)) (hunmarked : l.focus = .free ∨
    l.focus = .due slot) :
    Inv c cfg guarded clean (σ.setSlot slot { σ.slots slot with needsCheck := true })
      ({ l with focus := .free } :: others) := by
  have hnone : l.focus.marked = none := by
    rcases hunmarked with hf | hf <;> rw [hf] <;> rfl
  refine h.focused (slots_needsCheck σ slot true) rfl rfl rfl hnone.symm (fun s stage hf => ?_)
    (phaseClaims_of_unmarked rfl) fun hclean s hun => ?_
  · rw [hf] at hnone
    cases hnone
  · by_cases hs : s = slot
    · subst hs
      exact .inl (by rw [Shared.slots_setSlot_self])
    · have hbefore := unclaimed_of_refocus hun fun hf => by
        rw [hf] at hnone
        cases hnone
      refine (h.awake hclean s hbefore).step (fun hset => .inl ?_) fun hown => ?_
      · rwa [Shared.slots_setSlot_of_ne σ hs]
      · exfalso
        rcases hunmarked with hf | hf <;> rw [hf] at hown <;>
          rcases hown with hown | ⟨look, hown⟩ | ⟨look, hown⟩ <;> cases hown
        exact hs rfl

/-- The flag is consumed by a thread that then loads the counters. -/
theorem swapNeedsCheck (h : Inv c cfg guarded clean σ (l :: others)) (hfree : l.focus = .free) :
    Inv c cfg guarded clean (σ.setSlot slot { σ.slots slot with needsCheck := false })
      ((if (σ.slots slot).needsCheck then { l with focus := .check slot .fresh } else l) ::
        others) := by
  have hrefocus : (if (σ.slots slot).needsCheck then { l with focus := .check slot .fresh } else l) =
      { l with focus := if (σ.slots slot).needsCheck then .check slot .fresh else .free } := by
    split
    · rfl
    · rw [← hfree]
  have hunmarked : (if (σ.slots slot).needsCheck then Focus.check slot .fresh else .free).marked =
      none := by
    split <;> rfl
  rw [hrefocus]
  refine h.focused (slots_needsCheck σ slot false) rfl rfl rfl ?_ (fun s stage hf => ?_)
    (phaseClaims_of_unmarked hunmarked) fun hclean s hun => ?_
  · rw [hunmarked, hfree]
    rfl
  · rw [hfree] at hf
    cases hf
  · have hbefore := unclaimed_of_refocus hun fun hf => by
      rw [hfree] at hf
      cases hf
    refine (h.awake hclean s hbefore).step (fun hset => ?_) fun hown => ?_
    · by_cases hs : s = slot
      · subst hs
        exact .inr ⟨_, List.mem_cons_self, .inr (.inl ⟨.fresh, by rw [hset]; rfl⟩)⟩
      · refine .inl ?_
        rwa [Shared.slots_setSlot_of_ne σ hs]
    · exfalso
      rw [hfree] at hown
      rcases hown with hown | ⟨look, hown⟩ | ⟨look, hown⟩ <;> cases hown

/-- A counter is loaded before the claim. -/
theorem loadCheck (h : Inv c cfg guarded clean σ (l :: others)) (hrun : Runnable c) {look : Look}
    {counter : Counter} (hfocus : l.focus = .check slot look) (_hnext : look.counter = some counter) :
    Inv c cfg guarded clean σ
      ({ l with focus := l.focus.seen ((σ.slots slot).load counter = 0) } :: others) := by
  rw [hfocus]
  have hunmarked : ((Focus.check slot look).seen ((σ.slots slot).load counter = 0)).marked =
      none := by
    simp only [Focus.seen]
    split <;> rfl
  refine h.focused (fun s => ⟨_, rfl⟩) rfl rfl rfl (by rw [hunmarked, hfocus]; rfl)
    (fun s stage hf => ?_) (phaseClaims_of_unmarked hunmarked) fun hclean s hun => ?_
  · rw [hfocus] at hf
    cases hf
  · have hbefore := unclaimed_of_refocus hun fun hf => by
      rw [hfocus] at hf
      cases hf
    refine (h.awake hclean s hbefore).step .inl fun hown => ?_
    rw [hfocus] at hown
    rcases hown with hown | ⟨look', hown⟩ | ⟨look', hown⟩ <;> cases hown
    -- a frame that is over reads zero
    have hzero := h.load_zero hrun hbefore.tasks hbefore.conds hbefore.none counter
    exact .inr ⟨_, List.mem_cons_self, .inr (.inl ⟨look.after, by simp [Focus.seen, hzero]⟩)⟩

/-- A counter is loaded after the claim. -/
theorem loadClaim (h : Inv c cfg guarded clean σ (l :: others)) (hrun : Runnable c) {look : Look}
    {counter : Counter} (hfocus : l.focus = .claim slot look) (hnext : look.counter = some counter) :
    Inv c cfg guarded clean σ
      ({ l with focus := l.focus.seen ((σ.slots slot).load counter = 0) } :: others) := by
  have hl := h.claims.phases l List.mem_cons_self
  -- where the mark was taken at zero, the counter reads zero again
  have hclean_zero : clean → (σ.slots slot).load counter = 0 := by
    intro hclean
    obtain ⟨htasks, hconds, hnone⟩ := hl.sure hclean slot look hfocus
    exact h.load_zero hrun htasks hconds hnone counter
  have hlook := hl.look slot look hfocus
  have hmarked : ((Focus.claim slot look).seen ((σ.slots slot).load counter = 0)).marked =
      some slot := by
    simp only [Focus.seen]
    split <;> rfl
  refine h.focused (fun s => ⟨_, rfl⟩) rfl rfl rfl (by rw [hfocus, hmarked]; rfl)
    (fun s stage hf => ?_) ⟨?_, ?_, ?_, ?_⟩ fun hclean s hun => ?_
  · rw [hfocus] at hf
    cases hf
  · intro s look' hf
    rw [hfocus] at hf
    simp only [Focus.seen] at hf
    split at hf
    · next hz =>
      cases hf
      exact h.lookOk_after hrun hnext hlook (of_decide_eq_true hz)
    · cases hf
  · intro s stage hf
    rw [hfocus] at hf
    simp only [Focus.seen] at hf
    split at hf <;> cases hf
  · intro hclean s look' hf
    rw [hfocus] at hf
    simp only [Focus.seen, hclean_zero hclean, decide_true, if_true] at hf
    cases hf
    exact hl.sure hclean slot look hfocus
  · intro hclean s hf
    rw [hfocus] at hf
    simp only [Focus.seen, hclean_zero hclean, decide_true, if_true] at hf
    cases hf
  · have hbefore := unclaimed_of_refocus hun fun hf => by
      rw [hfocus] at hf
      cases hf
      cases hnext
    refine (h.awake hclean s hbefore).step .inl fun hown => ?_
    rw [hfocus] at hown
    rcases hown with hown | ⟨look', hown⟩ | ⟨look', hown⟩ <;> cases hown
    refine .inr ⟨_, List.mem_cons_self, .inr (.inr ⟨look.after, ?_⟩)⟩
    simp [hfocus, Focus.seen, hclean_zero hclean]

/-! ## The claim -/

/-- The bit of a slot is set; one thread finds it clear. -/
theorem tryCompleteSlot (h : Inv c cfg guarded clean σ (l :: others)) (hrun : Runnable c)
    (hfocus : l.focus = .check slot .quiet) (hzero : clean → MarkedAtZero σ (.tryCompleteSlot slot)) :
    Inv c cfg guarded clean (σ.setSlot slot { σ.slots slot with completed := true })
      ({ l with focus := if !(σ.slots slot).completed then .claim slot .fresh else .free } ::
        others) := by
  cases hbit : (σ.slots slot).completed with
  | true =>
    have hsame : σ.setSlot slot { σ.slots slot with completed := true } = σ := by
      rw [← hbit]
      show { σ with slots := _ } = σ
      rw [Function.update_eq_self]
    rw [hsame]
    refine h.focused (fun s => ⟨_, rfl⟩) rfl rfl rfl (by rw [hfocus]; rfl) (fun s stage hf => ?_)
      (phaseClaims_of_unmarked rfl) fun hclean s hun => ?_
    · rw [hfocus] at hf
      cases hf
    · have hbefore := unclaimed_of_refocus hun fun hf => by
        rw [hfocus] at hf
        cases hf
      refine (h.awake hclean s hbefore).step .inl fun hown => ?_
      rw [hfocus] at hown
      rcases hown with hown | ⟨look', hown⟩ | ⟨look', hown⟩ <;> cases hown
      -- whoever set the bit has claimed the frame
      obtain ⟨m, hm, hmark⟩ : ∃ m ∈ l :: others, m.focus.marked = some slot := by
        by_contra hnone
        push Not at hnone
        have hcount := h.claims.bit slot
        rw [Claims.marks_zero_iff.mpr hnone, hbit] at hcount
        cases hcount
      have hm' : m ∈ others := by
        rcases List.mem_cons.mp hm with rfl | hm
        · rw [hfocus] at hmark
          cases hmark
        · exact hm
      have hclaims := h.claims.phases m hm
      refine .inr ⟨m, List.mem_cons_of_mem _ hm', .inr (.inr ?_)⟩
      cases hmf : m.focus with
      | claim s look =>
        rw [hmf] at hmark
        cases hmark
        exact ⟨look, rfl⟩
      | stale s => exact absurd hmf (hclaims.fresh hclean s)
      | reset s stage =>
        rw [hmf] at hmark
        cases hmark
        have hflag := (hclaims.reset slot stage hmf).flag
        rw [hbefore.before] at hflag
        cases hflag
      | _ => rw [hmf] at hmark; cases hmark
  | false =>
    have hkeep : ∀ {R : Type} (g : Slot → R), (g { σ.slots slot with completed := true } =
        g (σ.slots slot)) → ∀ s,
          g ((σ.setSlot slot { σ.slots slot with completed := true }).slots s) = g (σ.slots s) :=
      fun g hg => σ.setSlot_keeps g hg
    have hunmarked : ∀ m ∈ l :: others, m.focus.marked ≠ some slot := by
      refine Claims.marks_zero_iff.mp ?_
      rw [h.claims.bit slot, hbit]
      rfl
    have hadv : ∀ s, Advances σ (σ.setSlot slot { σ.slots slot with completed := true })
        (l :: others) ({ l with focus := .claim slot .fresh } :: others) s := by
      apply advances_of_grows
      · exact fun x hx => hx
      · exact fun x hx => .inl hx
      · exact fun p hp => .inl hp
      · rfl
      · exact hkeep Slot.resetting rfl
    refine ⟨h.accounts.still rfl rfl rfl rfl rfl, ?_,
      h.brackets.still rfl (hkeep (·.processingCount) rfl),
      h.counters.still rfl (hkeep (·.pendingTasks) rfl) (hkeep (·.pendingCondTasks) rfl), ?_, ?_,
      fun hclean s hun => ?_, fun hg => ?_⟩
    · exact h.tickets.step (fun s _ => hkeep Slot.stamp rfl s) (fun x _ hx => hx)
        (fun t ht => .inl ht) (fun t ht => .inl ht)
        fun hl => ⟨hl.hand, hl.served, hl.inside, hl.once, hl.stamp⟩
    · exact h.words.bookkeeping (hkeep (·.cells) rfl) (hkeep Slot.resetting rfl)
        (fun x hx => .inl hx) rfl rfl (late_same (fun _ => id) (fun _ => id) rfl rfl fun _ => id)
    · refine h.claims.refocus h.accounts (fun s hs => ?_)
        (fun m hm => hunmarked m (List.mem_cons_of_mem _ hm)) (fun s hs => ?_) ?_
        (fun s _ => hkeep Slot.resetting rfl s) (fun hflag => ?_) (fun s stage _ hf => ?_)
        (fun s _ => hadv s) ⟨fun s look hf => ?_, fun s stage hf => ?_, fun hclean s look hf => ?_,
          fun _ s hf => ?_⟩
      · rw [hfocus]
        simp [Focus.marked, Ne.symm hs]
      · rw [Shared.slots_setSlot_of_ne σ hs]
      · rw [Shared.slots_setSlot_self]
        exact (decide_eq_true rfl).symm
      · rw [hkeep Slot.resetting rfl] at hflag
        obtain ⟨m, hm, stage, hst⟩ := h.claims.flagged slot hflag
        exact absurd (by rw [hst]; rfl) (hunmarked m hm)
      · rw [hfocus] at hf
        cases hf
      · cases hf
        trivial
      · cases hf
      · cases hf
        have hload := hzero hclean hbit
        refine ⟨?_, ?_, NoneInside.refocus (h.brackets.none_of_zero h.tickets ?_) _⟩
        · exact (h.counters.zero_iff h.accounts hrun.totals slot false).mp (hload .pendingTasks)
        · exact (h.counters.zero_iff h.accounts hrun.totals slot true).mp (hload .pendingCondTasks)
        · exact hload .processingCount
      · cases hf
    · by_cases hs : s = slot
      · exact .inr ⟨_, List.mem_cons_self, .inr (.inr ⟨.fresh, by rw [hs]; rfl⟩)⟩
      · have hbefore : Unclaimed c σ (l :: others) s := by
          refine hun.before_step (fun x hx _ => hx) (fun hin => hin)
            (hkeep Slot.resetting rfl s) fun hf => ?_
          rw [hfocus] at hf
          cases hf
        refine (h.awake hclean s hbefore).step (fun hset => .inl ?_) fun hown => ?_
        · rwa [Shared.slots_setSlot_of_ne σ hs]
        · rw [hfocus] at hown
          rcases hown with hown | ⟨look', hown⟩ | ⟨look', hown⟩ <;> cases hown
          exact absurd rfl hs
    · exact (h.grants hg).still (fun x => id) rfl rfl rfl fun hlg => ⟨hlg.hand, hlg.passed⟩

end Inv

end Tomii
