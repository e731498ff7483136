import Tomii.Runtime.ThreadChecks

/-! # Bumps and resets, step by step

A generation ends when nothing of its frame is left in the slot: neither a task that is queued or in
hand, nor a thread inside. From the bump to the unmark the slot stays empty, while the ledger gives up
the frame and the counters are restored. -/
namespace Tomii
set_option autoImplicit false
set_option maxHeartbeats 250000

variable {c : Compiled} {cfg : Config} {guarded clean : Prop} {σ σ' : Shared} {l l' : Phase}
  {ls others : List Phase} {slot : ℕ}

/-! ## Bumps -/

/-- No arrival of a frame that is over is left. -/
theorem Accounts.none_arrived (h : Accounts c σ ls)
    (hsettled : ∀ x ∈ σ.ledger.released, x.slot = slot → x ∈ σ.ledger.retired) :
    σ.ledger.arrived.filter (·.slot ≠ slot) = σ.ledger.arrived := by
  refine List.filter_eq_self.mpr fun x hx => decide_eq_true fun hslot => ?_
  have hout : x ∈ outstanding σ ls := mem_outstanding.mpr (.inr (.inl hx))
  exact h.not_retired hout (hsettled x (h.released_of_outstanding hout) hslot)

namespace Inv

/-- A slot in which nothing is left enters its next generation. -/
theorem bumped (h : Inv c cfg guarded clean σ (l :: others)) (reset : Bool) {f : Focus}
    (hsettled : ∀ x ∈ σ.ledger.released, x.slot = slot → x ∈ σ.ledger.retired)
    (hbusy : ¬ Busy σ (l :: others) slot)
    (hempty : reset = false → ∀ x ∈ σ.ledger.released, x.slot ≠ slot)
    (hclaims : Claims c clean (σ.bumpSlotGeneration c slot reset) ({ l with focus := f } :: others))
    (hawake : clean → ∀ s, s ≠ slot →
      Unclaimed c (σ.bumpSlotGeneration c slot reset) ({ l with focus := f } :: others) s →
        Awake (σ.bumpSlotGeneration c slot reset) ({ l with focus := f } :: others) s) :
    Inv c cfg guarded clean (σ.bumpSlotGeneration c slot reset) ({ l with focus := f } :: others) := by
  have hother : ∀ s, s ≠ slot → (σ.bumpSlotGeneration c slot reset).slots s = σ.slots s := fun s hs =>
    Shared.slots_setSlot_of_ne σ hs _
  have hself : (σ.bumpSlotGeneration c slot reset).slots slot = (σ.slots slot).bump c.layout reset :=
    Shared.slots_setSlot_self ..
  have hkeep : ∀ {R : Type} (g : Slot → R), (g ((σ.slots slot).bump c.layout reset) =
      g (σ.slots slot)) → ∀ s, g ((σ.bumpSlotGeneration c slot reset).slots s) = g (σ.slots s) :=
    fun g hg => σ.setSlot_keeps g hg
  have harrived : (σ.bumpSlotGeneration c slot reset).ledger.arrived = σ.ledger.arrived :=
    h.accounts.none_arrived hsettled
  have hfired : ∀ p ∈ (σ.bumpSlotGeneration c slot reset).ledger.fired,
      p ∈ σ.ledger.fired ∧ p.1 ≠ slot := by
    intro p hp
    obtain ⟨hp, hne⟩ := List.mem_filter.mp hp
    exact ⟨hp, of_decide_eq_true hne⟩
  have hstay : ∀ s, Busy σ (l :: others) s → s ≠ slot := by
    rintro s hs rfl
    exact hbusy hs
  refine ⟨?_, ?_, h.brackets.still rfl (hkeep (·.processingCount) rfl),
    h.counters.still rfl (hkeep (·.pendingTasks) rfl) (hkeep (·.pendingCondTasks) rfl), ?_, hclaims,
    fun hclean s hun => ?_, fun hg => ?_⟩
  · apply h.accounts.step
    · rw [harrived]
      rfl
    · rfl
    · exact h.accounts.nodup
    · exact h.accounts.bounded
  · exact h.tickets.step (fun s hs => congrArg Slot.stamp (hother s (hstay s hs))) (fun x _ hx => hx)
      (fun t ht => .inl ht) (fun t ht => .inl ht)
      fun hl => ⟨hl.hand, hl.served, hl.inside, hl.once, hl.stamp⟩
  · refine ⟨fun s => ?_, fun x hx hflag hcond hpreds => ?_, fun s n hf hnot => ?_,
      fun s n hf x hx => ?_⟩
    · by_cases hs : s = slot
      · subst hs
        rw [hself]
        exact LazySlot.bump_inEpoch c.layout (h.words.tags s)
      · rw [hother s hs]
        exact h.words.tags s
    · have hs : x.slot ≠ slot := by
        intro hs
        rw [hs, hself] at hflag
        cases reset with
        | true =>
          simp only [Slot.bump, Bool.or_true] at hflag
          cases hflag
        | false => exact hempty rfl x hx hs
      rw [hother _ hs] at hflag
      refine Words.locked_congr ?_ (h.words.locked x hx hflag hcond hpreds)
      simp only [Shared.entryAt, hother _ hs]
    · by_cases hs : s = slot
      · subst hs
        rw [Shared.fanoutAt_bump (h.words.tags s)]
        exact Nat.zero_le _
      · have hwait : (s, n) ∉ σ.ledger.fired := fun hm =>
          hnot (List.mem_filter.mpr ⟨hm, decide_eq_true hs⟩)
        rw [arrivedAt, harrived]
        refine le_trans (le_of_eq ?_) (h.words.waiting s n hf hwait)
        simp only [Shared.fanoutAt, hother s hs]
    · exact late_same (σ := σ) (l := l) (fun _ => id) (fun _ => id) rfl rfl (fun _ => id) x
        (h.words.fired s n (hfired _ hf).1 x hx)
  · by_cases hs : s = slot
    · subst hs
      exfalso
      obtain ⟨x, hx, hslot⟩ := hun.ran
      have hflag := hun.before
      rw [hself] at hflag
      cases reset with
      | true =>
        simp only [Slot.bump, Bool.or_true] at hflag
        cases hflag
      | false => exact hempty rfl x (h.accounts.released_of_retired hx) hslot
    · exact hawake hclean s hs hun
  · exact (h.grants hg).still (fun x => id) rfl rfl rfl fun hlg => ⟨hlg.hand, hlg.passed⟩

/-- An activation bumps a slot in which nothing was released. -/
theorem activated (h : Inv c cfg guarded clean σ (l :: others))
    (hempty : ∀ x ∈ σ.ledger.released, x.slot ≠ slot) :
    Inv c cfg guarded clean (σ.bumpSlotGeneration c slot false) (l :: others) := by
  have hkeep : ∀ {R : Type} (g : Slot → R), (g ((σ.slots slot).bump c.layout false) =
      g (σ.slots slot)) → ∀ s, g ((σ.bumpSlotGeneration c slot false).slots s) = g (σ.slots s) :=
    fun g hg => σ.setSlot_keeps g hg
  have hresetting := hkeep Slot.resetting (Bool.or_false _)
  have hsettled : ∀ x ∈ σ.ledger.released, x.slot = slot → x ∈ σ.ledger.retired := fun x hx hs =>
    absurd hs (hempty x hx)
  have hnone : NoneInside (l :: others) slot := by
    intro m hm hin
    have hm' := h.tickets.phases m hm
    rcases hm'.inside slot hin with ⟨p, hp, hs⟩ | ⟨t, ht, hs⟩
    · have hhead := mem_live_of_hand hp (NodeInfo.head_mem_cells (hm'.hand p hp).nonempty)
      have hout : _ ∈ outstanding σ (l :: others) := mem_outstanding.mpr (.inl ⟨m, hm, hhead⟩)
      exact hempty _ (h.accounts.released_of_outstanding hout) hs
    · obtain ⟨-, -, hpos, hcells⟩ := hm'.served t ht
      exact hempty _ (h.accounts.released_of_retired (hcells _ (NodeInfo.head_mem_cells hpos))) hs
  refine h.bumped false hsettled (h.tickets.not_busy h.accounts hsettled hnone) (fun _ => hempty) ?_
    fun hclean s hs hun => ?_
  · refine h.claims.step h.accounts (.inl rfl) (hkeep Slot.completed rfl) hresetting ?_
    apply advances_of_grows
    · exact fun x hx => hx
    · exact fun x hx => .inl hx
    · exact fun p hp => .inl (List.mem_filter.mp hp).1
    · rfl
    · exact hresetting
  · exact (h.awake hclean s (hun.before_step (fun x hx _ => hx) id (hresetting s) id)).keep (.inr rfl)
      (hkeep (·.needsCheck) rfl s).trans

/-- The thread that has seen a marked slot quiet begins its reset. -/
theorem bumpReset (h : Inv c cfg guarded clean σ (l :: others))
    (hfocus : l.focus = .claim slot .quiet) :
    Inv c cfg guarded clean (σ.bumpSlotGeneration c slot true)
      ({ l with focus := .reset slot .bumped } :: others) := by
  have hself : (σ.bumpSlotGeneration c slot true).slots slot = (σ.slots slot).bump c.layout true :=
    Shared.slots_setSlot_self ..
  have hother : ∀ s, s ≠ slot → (σ.bumpSlotGeneration c slot true).slots s = σ.slots s := fun s hs =>
    Shared.slots_setSlot_of_ne σ hs _
  obtain ⟨htasks, hconds, hnone⟩ :=
    (h.claims.phases l List.mem_cons_self).look slot .quiet hfocus
  have hsettled := h.accounts.settled_of_allRetired htasks hconds
  obtain ⟨hbit, hunmarked⟩ := h.claims.alone (by rw [hfocus]; rfl)
  refine h.bumped true hsettled (h.tickets.not_busy h.accounts hsettled hnone)
    (fun hf => by cases hf) ?_ fun hclean s hs hun => ?_
  · refine h.claims.refocus h.accounts (fun s hs => ?_) hunmarked
      (fun s hs => by rw [hother s hs]) ?_ (fun s hs => by rw [hother s hs]) (fun _ => ⟨.bumped, rfl⟩)
      (fun s stage _ hf => ?_) (fun s hs => ?_) ⟨fun s look hf => ?_, fun s stage hf => ?_,
        fun _ s look hf => ?_, fun _ s hf => ?_⟩
    · rw [hfocus]
      rfl
    · rw [hself]
      exact hbit.trans (decide_eq_true rfl).symm
    · rw [hfocus] at hf
      cases hf
    · refine ⟨fun x _ hx => hx, fun x _ hx => .inl hx, fun n hn => .inl (List.mem_filter.mp hn).1,
        fun _ hn => hn.refocus _, fun hflag => ?_⟩
      rw [hother s hs]
      exact hflag
    · cases hf
    · cases hf
      refine ⟨hnone.refocus _, hsettled, fun _ _ _ => trivial, ?_, fun n hn => ?_⟩
      · rw [hself]
        exact Bool.or_true _
      · exact of_decide_eq_true (List.mem_filter.mp hn).2 rfl
    · cases hf
    · cases hf
  · have hbefore : Unclaimed c σ (l :: others) s := by
      refine hun.before_step (fun x hx _ => hx) (fun hin => hin) (by rw [hother s hs]) fun hf => ?_
      rw [hfocus] at hf
      cases hf
      exact absurd rfl hs
    refine (h.awake hclean s hbefore).step (fun hset => .inl (by rw [hother s hs]; exact hset))
      fun hown => ?_
    rw [hfocus] at hown
    rcases hown with hown | ⟨look', hown⟩ | ⟨look', hown⟩ <;> cases hown
    exact absurd rfl hs

end Inv

/-! ## Stores -/

/-- The ledger without the instances that a store restores the counter for. -/
theorem Accounts.clear (h : Accounts c σ (l :: others)) {p : Cell → Bool}
    (hsettled : ∀ x ∈ σ.ledger.released, p x = true → x ∈ σ.ledger.retired)
    (hledger : σ'.ledger = σ.ledger.clear p) (hqueue : σ'.queue = σ.queue)
    (hbatch : σ'.batchQueue = σ.batchQueue) (hlive : l'.live = l.live) (hran : l'.ran = l.ran) :
    Accounts c σ' (l' :: others) := by
  -- nothing outstanding is given up
  have hout : (outstanding σ (l :: others)).filter (!p ·) = outstanding σ (l :: others) := by
    refine Multiset.filter_eq_self.mpr fun x hx => ?_
    cases hp : p x with
    | false => rfl
    | true => exact absurd (hsettled x (h.released_of_outstanding hx) hp) (h.not_retired hx)
  have hsame : outstanding σ' (l' :: others) = outstanding σ (l :: others) := by
    rw [outstanding, outstanding, hledger, hqueue, hbatch, total_cons, total_cons, hlive]
    rfl
  have hran' : total Phase.ran (l' :: others) + queuedCells σ'.batchQueue =
      total Phase.ran (l :: others) + queuedCells σ.batchQueue := by
    rw [total_cons, total_cons, hran, hbatch]
  have hruns : ∀ m ∈ l :: others, ∀ x ∈ m.ran, x ∈ outstanding σ (l :: others) := by
    intro m hm x hx
    obtain ⟨q, hq, hx⟩ := Multiset.mem_bind.mp hx
    exact mem_outstanding.mpr (.inl ⟨m, hm, mem_live_of_hand hq (List.mem_of_mem_take hx)⟩)
  have hkept : (total Phase.ran (l :: others) + queuedCells σ.batchQueue).filter (!p ·) =
      total Phase.ran (l :: others) + queuedCells σ.batchQueue := by
    refine Multiset.filter_eq_self.mpr fun x hx => ?_
    rw [← hout] at hruns
    rcases Multiset.mem_add.mp hx with hx | hx
    · obtain ⟨m, hm, hx⟩ := mem_total.mp hx
      exact (Multiset.mem_filter.mp (hruns m hm x hx)).2
    · have hx : x ∈ outstanding σ (l :: others) :=
        mem_outstanding.mpr (.inr (.inr (.inr (mem_queuedCells.mp hx))))
      rw [← hout] at hx
      exact (Multiset.mem_filter.mp hx).2
  refine ⟨?_, ?_, fun x hx => ?_, ?_⟩
  · have hplaced := congrArg (Multiset.filter (!p ·)) h.placed
    rw [Multiset.filter_add, hout] at hplaced
    simp only [Multiset.filter_coe, Bool.decide_eq_true] at hplaced
    rw [hsame, hledger]
    exact hplaced
  · rw [hledger]
    exact h.nodup.filter _
  · rw [hledger] at hx
    exact h.bounded x (List.mem_filter.mp hx).1
  · have hrun := congrArg (Multiset.filter (!p ·)) h.run
    rw [Multiset.filter_add, hkept, Multiset.filter_add] at hrun
    simp only [Multiset.filter_coe, Bool.decide_eq_true] at hrun
    rw [hran', hledger]
    exact hrun

namespace Inv

/-- A counter of a slot that is being reset is restored, and its instances are given up. -/
theorem storePending (h : Inv c cfg guarded clean σ (l :: others)) (cond : Bool)
    {stage stage' : Stage} (hfocus : l.focus = .reset slot stage)
    (hkeeps : ∀ n, stage.keeps c n → c.isCondition n ≠ cond → stage'.keeps c n) :
    Inv c cfg guarded clean (σ.storePending c slot cond)
      ({ l with focus := .reset slot stage' } :: others) := by
  have hreset := (h.claims.phases l List.mem_cons_self).reset slot stage hfocus
  have hmarked : l.focus.marked = some slot := by rw [hfocus]; rfl
  obtain ⟨hbit, hunmarked⟩ := h.claims.alone hmarked
  have hbusy := h.tickets.not_busy h.accounts hreset.settled hreset.none
  have hrest : ∀ {R : Type} (g : Slot → R), (∀ a b, g { σ.slots slot with
      pendingTasks := a, pendingCondTasks := b } = g (σ.slots slot)) →
        ∀ s, g ((σ.storePending c slot cond).slots s) = g (σ.slots s) := by
    intro R g hg
    refine σ.setSlot_keeps g ?_
    split
    · exact hg (σ.slots slot).pendingTasks _
    · exact hg _ (σ.slots slot).pendingCondTasks
  have hmem : ∀ (xs : List Cell) x, x ∈ xs.filter (fun x =>
      !decide (x.slot = slot ∧ c.isCondition x.node = cond)) ↔
        x ∈ xs ∧ ¬ (x.slot = slot ∧ c.isCondition x.node = cond) := by
    intro xs x
    rw [List.mem_filter, Bool.not_eq_true', decide_eq_false_iff_not]
  have hretired : ∀ x, x.slot ≠ slot → x ∈ σ.ledger.retired →
      x ∈ (σ.storePending c slot cond).ledger.retired := fun x hs hx =>
    (hmem _ x).mpr ⟨hx, fun hp => hs hp.1⟩
  have hgranted : ∀ x, x.slot ≠ slot ∨ c.isCondition x.node ≠ cond → Granted c σ x →
      Granted c (σ.storePending c slot cond) x := by
    intro x hs hx part hpart
    refine List.mem_filter.mpr ⟨hx part hpart, ?_⟩
    rw [Bool.not_eq_true', decide_eq_false_iff_not]
    exact fun hp => hs.elim (fun hs => hs hp.1) fun hs => hs hp.2
  have hstay : ∀ s, Busy σ (l :: others) s → s ≠ slot := by
    rintro s hs rfl
    exact hbusy hs
  have hresetting := hrest Slot.resetting fun _ _ => rfl
  refine ⟨?_, ?_, h.brackets.still rfl (hrest (·.processingCount) fun _ _ => rfl), fun s b => ?_, ?_,
    ?_, fun hclean s hun => ?_, fun hg => ?_⟩
  · refine h.accounts.clear (fun x hx hp => ?_) rfl rfl rfl rfl rfl
    exact hreset.settled x hx (of_decide_eq_true hp).1
  · exact h.tickets.step (fun s _ => hrest Slot.stamp (fun _ _ => rfl) s)
      (fun x hx => hretired x (hstay _ hx)) (fun t ht => .inl ht) (fun t ht => .inl ht)
      fun hl => ⟨hl.hand, hl.served, hl.inside, hl.once, hl.stamp⟩
  · have hload := h.counters s b
    by_cases hs : s = slot
    · subst hs
      by_cases hb : b = cond
      · subst hb
        have hnil : retiredOf c (σ.storePending c s b) s b = [] := by
          refine List.filter_eq_nil_iff.mpr fun x hx hp => ?_
          exact ((hmem _ x).mp hx).2 (of_decide_eq_true hp)
        rw [hnil]
        simp only [Shared.storePending, Shared.slots_setLedger, Shared.slots_setSlot_self]
        cases b <;> simp [Slot.load]
      · have hsame : retiredOf c (σ.storePending c s cond) s b = retiredOf c σ s b := by
          refine (List.filter_filter ..).trans (List.filter_congr fun x _ => ?_)
          by_cases hx : x.slot = s ∧ c.isCondition x.node = b
          · have hne : ¬ (x.slot = s ∧ c.isCondition x.node = cond) := fun hp =>
              hb (hx.2.symm.trans hp.2)
            simp [hx, hb]
          · simp [hx]
        rw [hsame, ← hload]
        simp only [Shared.storePending, Shared.slots_setLedger, Shared.slots_setSlot_self]
        cases b <;> cases cond <;> first | rfl | exact absurd rfl hb
    · have hsame : retiredOf c (σ.storePending c slot cond) s b = retiredOf c σ s b := by
        refine (List.filter_filter ..).trans (List.filter_congr fun x _ => ?_)
        by_cases hx : x.slot = s
        · simp [hx, hs]
        · simp [hx]
      rw [hsame, ← hload]
      simp only [Shared.storePending, Shared.slots_setLedger, Shared.slots_setSlot_of_ne σ hs]
  · refine ⟨fun s => ?_, fun x hx hflag hcond hpreds => ?_, fun s n hf hnot => ?_,
      fun s n hf x hx => ?_⟩
    · rw [hrest (·.cells) fun _ _ => rfl]
      exact h.words.tags s
    · rw [hresetting] at hflag
      refine Words.locked_congr ?_ (h.words.locked x ((hmem _ x).mp hx).1 hflag hcond hpreds)
      simp only [Shared.entryAt, hrest (·.cells) fun _ _ => rfl]
    · refine le_trans (le_of_eq ?_) (h.words.waiting s n hf hnot)
      simp only [Shared.fanoutAt, hrest (·.cells) fun _ _ => rfl]
    · have hs : s ≠ slot := by
        rintro rfl
        exact hreset.fired n hf
      have hxs : x.slot ≠ slot := (c.mem_allCells.mp hx).1 ▸ hs
      refine late_step (h.words.fired s n hf x hx)
        (fun hown => mem_late.mpr (.inl ⟨_, List.mem_cons_self, hown⟩))
        (fun hq => mem_late.mpr (.inr (.inl hq))) (fun hb => mem_late.mpr (.inr (.inr (.inl hb))))
        fun hr => mem_late.mpr (.inr (.inr (.inr (hretired x hxs hr))))
  · refine h.claims.refocus h.accounts (fun s hs => ?_) hunmarked
      (fun s _ => hrest Slot.completed (fun _ _ => rfl) s) ?_ (fun s _ => hresetting s)
      (fun _ => ⟨stage', rfl⟩) (fun s st hs hf => ?_) (fun s hs => ?_) ⟨fun s look hf => ?_,
        fun s st hf => ?_, fun _ s look hf => ?_, fun _ s hf => ?_⟩
    · rw [hfocus]
      rfl
    · rw [hrest Slot.completed fun _ _ => rfl]
      exact hbit.trans (decide_eq_true rfl).symm
    · rw [hfocus] at hf
      cases hf
      exact hs rfl
    · refine ⟨fun x hx => hretired x (hx ▸ hs), fun x _ hx => .inl ((hmem _ x).mp hx).1,
        fun n hn => .inl hn, fun _ hn => hn.refocus _, fun hflag => (hresetting s).trans hflag⟩
    · cases hf
    · cases hf
      refine ⟨hreset.none.refocus _, fun x hx hs => ?_, fun x hx hs => ?_,
        (hresetting slot).trans hreset.flag, hreset.fired⟩
      · obtain ⟨hx, hp⟩ := (hmem _ x).mp hx
        exact (hmem _ x).mpr ⟨hreset.settled x hx hs, hp⟩
      · obtain ⟨hx, hp⟩ := (hmem _ x).mp hx
        exact hkeeps _ (hreset.kept x hx hs) fun hb => hp ⟨hs, hb⟩
    · cases hf
    · cases hf
  · have hs : s ≠ slot := by
      rintro rfl
      have hflag := hun.before
      rw [hresetting, hreset.flag] at hflag
      cases hflag
    have hbefore : Unclaimed c σ (l :: others) s := by
      refine hun.before_step (fun x hx _ => ((hmem _ x).mp hx).1) (fun hin => hin) (hresetting s)
        fun hf => ?_
      rw [hfocus] at hf
      cases hf
    refine (h.awake hclean s hbefore).step
      (fun hset => .inl ((hrest (·.needsCheck) (fun _ _ => rfl) s).trans hset)) fun hown => ?_
    rw [hfocus] at hown
    rcases hown with hown | ⟨look', hown⟩ | ⟨look', hown⟩ <;> cases hown
  · have hgr := h.grants hg
    refine hgr.step (fun x hx => hgranted x (.inl (hstay _ hx))) (fun t ht => .inl ht)
      (fun t ht => .inl ht) (fun x hx hc => ?_) fun hlg => ⟨hlg.hand, hlg.passed⟩
    obtain ⟨hx, hp⟩ := (hmem _ x).mp hx
    exact hgranted x (not_and_or.mp hp) (hgr.executed x hx hc)

/-- The bit of a slot is cleared: after a failed second look, or at the end of the reset. -/
theorem unmark (h : Inv c cfg guarded clean σ (l :: others))
    (hfocus : l.focus = .stale slot ∨ l.focus = .reset slot .lowered) :
    Inv c cfg guarded clean
      (σ.setSlot slot { σ.slots slot with completed := false, resetting := false })
      ({ l with focus := .free } :: others) := by
  have hl := h.claims.phases l List.mem_cons_self
  have hmarked : l.focus.marked = some slot := by
    rcases hfocus with hf | hf <;> rw [hf] <;> rfl
  obtain ⟨hbit, hunmarked⟩ := h.claims.alone hmarked
  have hkeep : ∀ {R : Type} (g : Slot → R), (∀ a b, g { σ.slots slot with
      completed := a, resetting := b } = g (σ.slots slot)) → ∀ s,
        g ((σ.setSlot slot { σ.slots slot with completed := false, resetting := false }).slots s) =
          g (σ.slots s) := fun g hg => σ.setSlot_keeps g (hg _ _)
  have hother : ∀ s, s ≠ slot → (σ.setSlot slot { σ.slots slot with
      completed := false, resetting := false }).slots s = σ.slots s := fun s hs =>
    Shared.slots_setSlot_of_ne σ hs _
  -- at the end of a reset nothing released is left in the slot
  have hgone : (σ.slots slot).resetting = true → ∀ x ∈ σ.ledger.released, x.slot ≠ slot := by
    intro hflag x hx hs
    rcases hfocus with hf | hf
    · obtain ⟨m, hm, stage, hst⟩ := h.claims.flagged slot hflag
      rcases List.mem_cons.mp hm with rfl | hm
      · rw [hf] at hst
        cases hst
      · exact hunmarked m hm (by rw [hst]; rfl)
    · exact (hl.reset slot .lowered hf).kept x hx hs
  refine ⟨h.accounts.still rfl rfl rfl rfl rfl, ?_,
    h.brackets.still rfl (hkeep (·.processingCount) fun _ _ => rfl),
    h.counters.still rfl (hkeep (·.pendingTasks) fun _ _ => rfl)
      (hkeep (·.pendingCondTasks) fun _ _ => rfl), ?_, ?_, fun hclean s hun => ?_, fun hg => ?_⟩
  · exact h.tickets.step (fun s _ => hkeep Slot.stamp (fun _ _ => rfl) s) (fun x _ hx => hx)
      (fun t ht => .inl ht) (fun t ht => .inl ht)
      fun hl => ⟨hl.hand, hl.served, hl.inside, hl.once, hl.stamp⟩
  · refine ⟨fun s => ?_, fun x hx hflag hcond hpreds => ?_, fun s n hf hnot => ?_,
      fun s n hf x hx => ?_⟩
    · rw [hkeep (·.cells) fun _ _ => rfl]
      exact h.words.tags s
    · have hflag' : (σ.slots x.slot).resetting = false := by
        by_cases hs : x.slot = slot
        · cases hset : (σ.slots slot).resetting with
          | false => rw [hs, hset]
          | true => exact absurd hs (hgone hset x hx)
        · rwa [hother _ hs] at hflag
      refine Words.locked_congr ?_ (h.words.locked x hx hflag' hcond hpreds)
      simp only [Shared.entryAt, hkeep (·.cells) fun _ _ => rfl]
    · refine le_trans (le_of_eq ?_) (h.words.waiting s n hf hnot)
      simp only [Shared.fanoutAt, hkeep (·.cells) fun _ _ => rfl]
    · exact late_same (σ := σ) (l := l) (fun _ => id) (fun _ => id) rfl rfl (fun _ => id) x
        (h.words.fired s n hf x hx)
  · refine h.claims.refocus h.accounts (fun s hs => ?_) hunmarked (fun s hs => by rw [hother s hs]) ?_
      (fun s hs => by rw [hother s hs]) (fun hflag => ?_) (fun s stage hs hf => ?_) (fun s hs => ?_)
      (phaseClaims_of_unmarked rfl)
    · rw [hmarked]
      simp [Focus.marked, Ne.symm hs]
    · rw [Shared.slots_setSlot_self]
      exact (decide_eq_false (by simp [Focus.marked])).symm
    · rw [Shared.slots_setSlot_self] at hflag
      cases hflag
    · rw [hf] at hmarked
      cases hmarked
      exact hs rfl
    · refine ⟨fun x _ hx => hx, fun x _ hx => .inl hx, fun n hn => .inl hn,
        fun _ hn => hn.refocus _, fun hflag => ?_⟩
      rw [hother s hs]
      exact hflag
  · rcases hfocus with hf | hf
    · exact absurd hf (hl.fresh hclean slot)
    · have hs : s ≠ slot := by
        rintro rfl
        obtain ⟨x, hx, hslot⟩ := hun.ran
        exact (hl.reset s .lowered hf).kept x (h.accounts.released_of_retired hx) hslot
      have hbefore : Unclaimed c σ (l :: others) s := by
        refine hun.before_step (fun x hx _ => hx) (fun hin => hin) (by rw [hother s hs])
          fun hclaim => ?_
        rw [hf] at hclaim
        cases hclaim
      refine (h.awake hclean s hbefore).step (fun hset => .inl ?_) fun hown => ?_
      · rw [hother s hs]
        exact hset
      · rw [hf] at hown
        rcases hown with hown | ⟨look', hown⟩ | ⟨look', hown⟩ <;> cases hown
  · exact (h.grants hg).still (fun x => id) rfl rfl rfl fun hlg => ⟨hlg.hand, hlg.passed⟩

/-- `needs_check` is lowered inside the reset. -/
theorem lowerNeedsCheck (h : Inv c cfg guarded clean σ (l :: others))
    (hfocus : l.focus = .reset slot .restored) :
    Inv c cfg guarded clean (σ.setSlot slot { σ.slots slot with needsCheck := false })
      ({ l with focus := .reset slot .lowered } :: others) := by
  have hreset := (h.claims.phases l List.mem_cons_self).reset slot .restored hfocus
  refine h.focused (slots_needsCheck σ slot false) rfl rfl rfl (by rw [hfocus]; rfl)
    (fun s stage hf => ?_) ⟨fun s look hf => ?_, fun s stage hf => ?_, fun _ s look hf => ?_,
      fun _ s hf => ?_⟩ fun hclean s hun => ?_
  · rw [hfocus] at hf
    cases hf
    exact ⟨.lowered, rfl⟩
  · cases hf
  · cases hf
    exact ⟨hreset.none, hreset.settled, hreset.kept, hreset.flag, hreset.fired⟩
  · cases hf
  · cases hf
  · have hs : s ≠ slot := by
      rintro rfl
      have hflag := hun.before
      rw [hreset.flag] at hflag
      cases hflag
    have hbefore := unclaimed_of_refocus hun fun hf => by
      rw [hfocus] at hf
      cases hf
    refine (h.awake hclean s hbefore).step (fun hset => .inl ?_) fun hown => ?_
    · rwa [Shared.slots_setSlot_of_ne σ hs]
    · rw [hfocus] at hown
      rcases hown with hown | ⟨look', hown⟩ | ⟨look', hown⟩ <;> cases hown

end Inv

end Tomii
