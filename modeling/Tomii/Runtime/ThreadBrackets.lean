import Tomii.Runtime.ThreadSteps

/-! # Brackets and retirement

A thread enters the bracket of a slot while it holds a task there, retires the task inside, and leaves
once it has served it. While anybody is inside, the slot is not reset. -/
namespace Tomii
set_option autoImplicit false
set_option maxHeartbeats 250000

variable {c : Compiled} {cfg : Config} {guarded clean : Prop} {σ σ' : Shared} {l l' : Phase}
  {others : List Phase}

/-- The words of no slot and no entry of the ledger change. -/
theorem Words.bookkeeping (h : Words c cfg σ (l :: others))
    (hcells : ∀ s, (σ'.slots s).cells = (σ.slots s).cells)
    (hresetting : ∀ s, (σ'.slots s).resetting = (σ.slots s).resetting)
    (hreleased : ∀ x ∈ σ'.ledger.released, x ∈ σ.ledger.released ∨ (c.nodeAt x.node).predIds = [])
    (harrived : σ'.ledger.arrived = σ.ledger.arrived) (hfired : σ'.ledger.fired = σ.ledger.fired)
    (hlate : ∀ x ∈ late σ (l :: others), x ∈ late σ' (l' :: others)) :
    Words c cfg σ' (l' :: others) := by
  refine h.still (fun s => ?_) hresetting (fun slot node _ => ?_) (fun slot node => ?_) hreleased
    harrived hfired hlate
  · rw [hcells]
    exact h.tags s
  · simp only [Shared.entryAt, hcells]
  · simp only [Shared.fanoutAt, hcells]

/-- What was dispatched stays so when the thread keeps its tasks and the queues are left alone. -/
theorem late_same (hout : ∀ x ∈ l.outgoing, x ∈ l'.outgoing) (hhand : ∀ p ∈ l.hand, p ∈ l'.hand)
    (hqueue : σ'.queue = σ.queue) (hbatch : σ'.batchQueue = σ.batchQueue)
    (hretired : ∀ x ∈ σ.ledger.retired, x ∈ σ'.ledger.retired) :
    ∀ x ∈ late σ (l :: others), x ∈ late σ' (l' :: others) := by
  intro x hx
  refine late_step hx (fun hown => mem_late.mpr (.inl ⟨_, List.mem_cons_self, ?_⟩))
    (fun hq => mem_late.mpr (.inr (.inl (hqueue ▸ hq))))
    (fun hb => mem_late.mpr (.inr (.inr (.inl (hbatch ▸ hb)))))
    fun hr => mem_late.mpr (.inr (.inr (.inr (hretired x hr))))
  rcases hown with ho | ⟨p, hp, hxp⟩
  · exact .inl (hout x ho)
  · exact .inr ⟨p, hhand p hp, hxp⟩

theorem UInt64.ofNat_succ (n : ℕ) : UInt64.ofNat (n + 1) = UInt64.ofNat n + 1 := UInt64.ofNat_add n 1

namespace Inv

/-- `processing_count` is raised for a slot in which the thread holds a task. -/
theorem enter (h : Inv c cfg guarded clean σ (l :: others)) {slot : ℕ} (hout : slot ∉ l.inside)
    (hhand : ∃ p ∈ l.hand, p.1.slot = slot) :
    Inv c cfg guarded clean
      (σ.setSlot slot { σ.slots slot with processingCount := (σ.slots slot).processingCount + 1 })
      ({ l with inside := slot ::ₘ l.inside } :: others) := by
  have hkeep : ∀ {R : Type} (f : Slot → R), (∀ n, f { σ.slots slot with processingCount := n } =
      f (σ.slots slot)) → ∀ s, f ((σ.setSlot slot { σ.slots slot with
        processingCount := (σ.slots slot).processingCount + 1 }).slots s) = f (σ.slots s) :=
    fun f hf => σ.setSlot_keeps f (hf _)
  refine ⟨h.accounts.still rfl rfl rfl rfl rfl, ?_, ⟨fun s => ?_, h.brackets.threads⟩,
    h.counters.still rfl (hkeep (·.pendingTasks) fun _ => rfl)
      (hkeep (·.pendingCondTasks) fun _ => rfl), ?_, ?_, fun hclean s hun => ?_, fun hg => ?_⟩
  · refine h.tickets.step (fun s _ => hkeep Slot.stamp (fun _ => rfl) s) (fun x _ hx => hx)
      (fun t ht => .inl ht) (fun t ht => .inl ht) fun hl => ⟨hl.hand, fun t ht => ?_,
        fun s hs => ?_, Multiset.nodup_cons.mpr ⟨hout, hl.once⟩, fun s st hst => ?_⟩
    · obtain ⟨hin, hrest⟩ := hl.served t ht
      exact ⟨Multiset.mem_cons_of_mem hin, hrest⟩
    · rcases Multiset.mem_cons.mp hs with rfl | hs
      · exact .inl hhand
      · exact hl.inside s hs
    · obtain ⟨hin, hcur⟩ := hl.stamp s st hst
      exact ⟨Multiset.mem_cons_of_mem hin, hcur⟩
  · have hcount := h.brackets.count s
    rw [total_cons] at hcount ⊢
    by_cases hs : s = slot
    · subst hs
      rw [Shared.slots_setSlot_self, Multiset.count_cons_self, hcount, Nat.add_right_comm,
        UInt64.ofNat_succ]
    · rw [Shared.slots_setSlot_of_ne σ hs, Multiset.count_cons_of_ne hs]
      exact hcount
  · refine h.words.bookkeeping (hkeep (·.cells) fun _ => rfl) (hkeep Slot.resetting fun _ => rfl)
      (fun x hx => .inl hx) rfl rfl (late_same (fun _ => id) (fun _ => id) rfl rfl fun _ => id)
  · refine h.claims.step h.accounts (.inl rfl) (hkeep Slot.completed fun _ => rfl)
      (hkeep Slot.resetting fun _ => rfl) fun s => ⟨fun x _ hx => hx, fun x _ hx => .inl hx,
        fun n hn => .inl hn, fun hsettled hnone => ?_, fun hflag => ?_⟩
    · intro m hm
      rcases List.mem_cons.mp hm with rfl | hm
      · intro hin
        rcases Multiset.mem_cons.mp hin with rfl | hin
        · exact h.tickets.not_busy h.accounts hsettled hnone
            (.inr (.inr ⟨l, List.mem_cons_self, .inr hhand⟩))
        · exact hnone l List.mem_cons_self hin
      · exact hnone m (List.mem_cons_of_mem _ hm)
    · exact (hkeep Slot.resetting (fun _ => rfl) s).trans hflag
  · refine (h.awake hclean s (hun.before_step (fun x hx _ => hx) ?_
      (hkeep Slot.resetting (fun _ => rfl) s) id)).keep (.inr rfl)
        (hkeep (·.needsCheck) (fun _ => rfl) s).trans
    exact fun hnot hin => hnot (Multiset.mem_cons_of_mem hin)
  · refine (h.grants hg).still (fun x => id) rfl rfl rfl fun hlg => ⟨hlg.hand, fun x hx => ?_⟩
    obtain ⟨hin, hgr⟩ := hlg.passed x hx
    exact ⟨Multiset.mem_cons_of_mem hin, hgr⟩

/-- `processing_count` is lowered; the store of `needs_check` is due. -/
theorem leave (h : Inv c cfg guarded clean σ (l :: others)) {slot : ℕ} (hin : slot ∈ l.inside)
    (hfree : l.focus = .free) :
    Inv c cfg guarded clean
      (σ.setSlot slot { σ.slots slot with processingCount := (σ.slots slot).processingCount - 1 })
      ({ l with
        inside := l.inside.erase slot
        served := l.served.filter (·.slot ≠ slot)
        stamp := none
        passed := l.passed.filter (·.slot ≠ slot)
        focus := .due slot } :: others) := by
  have hkeep : ∀ {R : Type} (f : Slot → R), (∀ n, f { σ.slots slot with processingCount := n } =
      f (σ.slots slot)) → ∀ s, f ((σ.setSlot slot { σ.slots slot with
        processingCount := (σ.slots slot).processingCount - 1 }).slots s) = f (σ.slots s) :=
    fun f hf => σ.setSlot_keeps f (hf _)
  have honce := (h.tickets.phases l List.mem_cons_self).once
  have hstay : ∀ s ∈ l.inside, s ≠ slot → s ∈ l.inside.erase slot := fun s hs hne =>
    (Multiset.mem_erase_of_ne hne).mpr hs
  refine ⟨h.accounts.still rfl rfl rfl rfl rfl, ?_, ⟨fun s => ?_, h.brackets.threads⟩,
    h.counters.still rfl (hkeep (·.pendingTasks) fun _ => rfl)
      (hkeep (·.pendingCondTasks) fun _ => rfl), ?_, ?_, fun hclean s hun => ?_, fun hg => ?_⟩
  · refine h.tickets.step (fun s _ => hkeep Slot.stamp (fun _ => rfl) s) (fun x _ hx => hx)
      (fun t ht => .inl ht) (fun t ht => .inl ht) fun hl => ⟨hl.hand, fun t ht => ?_,
        fun s hs => ?_, honce.erase slot, fun s st hst => (nomatch hst)⟩
    · obtain ⟨ht, hne⟩ := List.mem_filter.mp ht
      obtain ⟨hin', hrest⟩ := hl.served t ht
      exact ⟨hstay _ hin' (of_decide_eq_true hne), hrest⟩
    · have hne : s ≠ slot := fun heq => (Multiset.Nodup.notMem_erase honce) (heq ▸ hs)
      refine (hl.inside s (Multiset.mem_of_mem_erase hs)).imp_right ?_
      rintro ⟨t, ht, rfl⟩
      exact ⟨t, List.mem_filter.mpr ⟨ht, decide_eq_true hne⟩, rfl⟩
  · have hcount := h.brackets.count s
    rw [total_cons] at hcount ⊢
    by_cases hs : s = slot
    · subst hs
      have hone : l.inside.count s = (l.inside.erase s).count s + 1 := by
        rw [Multiset.count_erase_self]
        have hpos := Multiset.count_pos.mpr hin
        omega
      rw [Shared.slots_setSlot_self, hcount, hone, Nat.add_right_comm, UInt64.ofNat_succ]
      exact UInt64.add_sub_cancel _ _
    · rw [Shared.slots_setSlot_of_ne σ hs, Multiset.count_erase_of_ne hs]
      exact hcount
  · refine h.words.bookkeeping (hkeep (·.cells) fun _ => rfl) (hkeep Slot.resetting fun _ => rfl)
      (fun x hx => .inl hx) rfl rfl (late_same (fun _ => id) (fun _ => id) rfl rfl fun _ => id)
  · refine h.claims.step h.accounts (.inr ⟨by rw [hfree]; rfl, rfl⟩)
      (hkeep Slot.completed fun _ => rfl) (hkeep Slot.resetting fun _ => rfl) fun s =>
        ⟨fun x _ hx => hx, fun x _ hx => .inl hx, fun n hn => .inl hn, fun _ hnone => ?_,
          fun hflag => (hkeep Slot.resetting (fun _ => rfl) s).trans hflag⟩
    intro m hm
    rcases List.mem_cons.mp hm with rfl | hm
    · exact fun hs => hnone l List.mem_cons_self (Multiset.mem_of_mem_erase hs)
    · exact hnone m (List.mem_cons_of_mem _ hm)
  · by_cases hs : s = slot
    · exact .inr ⟨_, List.mem_cons_self, .inl (by rw [hs])⟩
    · refine (h.awake hclean s (hun.before_step (fun x hx _ => hx) ?_
        (hkeep Slot.resetting (fun _ => rfl) s) ?_)).keep (.inl hfree)
          (hkeep (·.needsCheck) (fun _ => rfl) s).trans
      · exact fun hnot hin' => hnot (hstay s hin' hs)
      · rw [hfree]
        intro hclaim
        cases hclaim
  · refine (h.grants hg).still (fun x => id) rfl rfl rfl fun hlg => ⟨hlg.hand, fun x hx => ?_⟩
    obtain ⟨hx, hne⟩ := List.mem_filter.mp hx
    obtain ⟨hin', hgr⟩ := hlg.passed x hx
    exact ⟨hstay _ hin' (of_decide_eq_true hne), hgr⟩

/-- Instances of a slot inside whose bracket the thread is are retired. -/
theorem retires (h : Inv c cfg guarded clean σ (l :: others)) (slot : ℕ) (cond : Bool)
    (cells : List Cell) (hin : slot ∈ l.inside)
    (hcells : ∀ x ∈ cells, x.slot = slot ∧ c.isCondition x.node = cond)
    (hslots : σ'.slots = (σ.setSlot slot ((σ.slots slot).lowerPending cond cells.length)).slots)
    (hledger : σ'.ledger = { σ.ledger with
      retired := cells ++ σ.ledger.retired, discharged := σ'.ledger.discharged })
    (hqueue : σ'.queue = σ.queue) (hbatch : σ'.batchQueue = σ.batchQueue)
    (hinside : l'.inside = l.inside) (hpassed : l'.passed = l.passed) (hfocus : l'.focus = l.focus)
    (haccounts : Accounts c σ' (l' :: others)) (hhand : ∀ p ∈ l'.hand, p ∈ l.hand)
    (htickets : PhaseTickets c σ' l → PhaseTickets c σ' l')
    (hlate : ∀ x, (x ∈ l.outgoing ∨ ∃ p ∈ l.hand, x ∈ p.1.cells) →
      x ∈ late σ' (l' :: others)) : Inv c cfg guarded clean σ' (l' :: others) := by
  have hkeep : ∀ {R : Type} (f : Slot → R), (f ((σ.slots slot).lowerPending cond cells.length) =
      f (σ.slots slot)) → ∀ s, f (σ'.slots s) = f (σ.slots s) := by
    intro R f hf s
    rw [hslots]
    exact σ.setSlot_keeps f hf s
  have hrest : ∀ {R : Type} (f : Slot → R), (∀ a b, f { σ.slots slot with
      pendingTasks := a, pendingCondTasks := b } = f (σ.slots slot)) →
        ∀ s, f (σ'.slots s) = f (σ.slots s) := by
    intro R f hf
    refine hkeep f ?_
    unfold Slot.lowerPending
    split
    · exact hf (σ.slots slot).pendingTasks _
    · exact hf _ (σ.slots slot).pendingCondTasks
  have hretired : ∀ x ∈ σ.ledger.retired, x ∈ σ'.ledger.retired := by
    intro x hx
    rw [hledger]
    exact List.mem_append_right _ hx
  have hstamp := hrest Slot.stamp fun _ _ => rfl
  have hreset := hrest Slot.resetting fun _ _ => rfl
  refine ⟨haccounts, ?_, h.brackets.still hinside (hrest (·.processingCount) fun _ _ => rfl), ?_, ?_,
    ?_, fun hclean s hun => ?_, fun hg => ?_⟩
  · exact h.tickets.step (fun s _ => hstamp s) (fun x _ hx => hretired x hx)
      (fun t ht => .inl (hqueue ▸ ht)) (fun t ht => .inl (hbatch ▸ ht)) htickets
  · intro s b
    have hload := h.counters s b
    have hlen : (retiredOf c σ' s b).length =
        (if s = slot ∧ b = cond then cells.length else 0) + (retiredOf c σ s b).length := by
      rw [retiredOf, hledger, List.filter_append, List.length_append, retiredOf]
      congr 1
      split
      · next heq =>
        rw [List.filter_eq_self.mpr fun x hx => ?_]
        obtain ⟨hs, hb⟩ := hcells x hx
        simp [hs, hb, heq.1, heq.2]
      · next hne =>
        rw [List.filter_eq_nil_iff.mpr fun x hx hsel => ?_]
        · rfl
        · obtain ⟨hs, hb⟩ := hcells x hx
          simp only [decide_eq_true_eq, hs, hb] at hsel
          exact hne ⟨hsel.1.symm, hsel.2.symm⟩
    have hslot : (σ'.slots s).load (if b then .pendingCondTasks else .pendingTasks) =
        (σ.slots s).load (if b then .pendingCondTasks else .pendingTasks) -
          UInt64.ofNat (if s = slot ∧ b = cond then cells.length else 0) := by
      rw [hslots]
      by_cases hs : s = slot
      · subst hs
        rw [Shared.slots_setSlot_self]
        cases b <;> cases cond <;> simp [Slot.lowerPending, Slot.load]
      · rw [Shared.slots_setSlot_of_ne σ hs]
        simp [hs]
    rw [hslot, hload, hlen, Nat.add_comm, UInt64.ofNat_add]
    grind
  · refine h.words.bookkeeping (hrest (·.cells) fun _ _ => rfl) hreset (fun x hx => ?_) ?_ ?_
      fun x hx => late_step hx (hlate x) (fun hq => mem_late.mpr (.inr (.inl (hqueue ▸ hq))))
        (fun hb => mem_late.mpr (.inr (.inr (.inl (hbatch ▸ hb)))))
        fun hr => mem_late.mpr (.inr (.inr (.inr (hretired x hr))))
    · rw [hledger] at hx
      exact .inl hx
    · rw [hledger]
    · rw [hledger]
  · refine h.claims.step h.accounts (.inl hfocus) (hrest Slot.completed fun _ _ => rfl) hreset
      (advances_of_grows hretired ?_ ?_ hinside hreset)
    · intro x hx
      rw [hledger] at hx
      exact .inl hx
    · intro p hp
      rw [hledger] at hp
      exact .inl hp
  · refine (h.awake hclean s (hun.before_step ?_ (by rw [hinside]; exact id) (hreset s)
      (by rw [hfocus]; exact id))).keep (.inr hfocus) (hrest (·.needsCheck) (fun _ _ => rfl) s).trans
    intro x hx hs
    rw [hledger] at hx
    rcases List.mem_append.mp hx with hx | hx
    · exact absurd (hinside ▸ hin) ((hcells x hx).1 ▸ hs ▸ hun.none l' List.mem_cons_self)
    · exact hx
  · refine (h.grants hg).still (fun x hx => ?_) hqueue hbatch (by rw [hledger]) fun hlg =>
      ⟨fun p hp => hlg.hand p (hhand p hp), ?_⟩
    · rw [Granted, hledger]
      exact hx
    · rw [hpassed, hinside]
      exact hlg.passed

/-- A task in hand that has run is retired. -/
theorem retire (h : Inv c cfg guarded clean σ (l :: others)) {t : Ticket}
    (hmem : (t, t.info.bulkCount) ∈ l.hand) (hin : t.slot ∈ l.inside) :
    Inv c cfg guarded clean (σ.retireTask c t)
      ({ l with hand := l.hand.erase (t, t.info.bulkCount), served := t :: l.served } :: others) := by
  have hcurrent := (h.tickets.phases l List.mem_cons_self).hand _ hmem
  have hlive := Phase.live_erase_hand hmem
  have hran := Phase.ran_erase_hand hmem
  refine h.retires t.slot (c.isCondition t.info.id) t.cells hin ?_ ?_ rfl rfl rfl rfl rfl rfl
    ?_ (fun p hp => Multiset.mem_of_mem_erase hp) ?_ ?_
  · intro x hx
    obtain ⟨hslot, hnode, -⟩ := Ticket.mem_cells.mp hx
    exact ⟨hslot, by rw [hnode]⟩
  · rw [Ticket.cells_length]
    rfl
  · apply h.accounts.step
    · rw [hlive]
      simp only [Shared.retireTask, Shared.setLedger, Shared.setSlot, ← Multiset.coe_add]
      ext x
      simp only [Multiset.count_add, Phase.live]
      omega
    · rw [hran]
      simp only [Ticket.take_bulkCount, Shared.retireTask, Shared.setLedger, Shared.setSlot,
        ← Multiset.coe_add]
      ext x
      simp only [Multiset.count_add, Phase.ran]
      omega
    · exact h.accounts.nodup
    · exact h.accounts.bounded
  · intro hl
    refine ⟨fun p hp => hl.hand p (Multiset.mem_of_mem_erase hp), fun u hu => ?_, fun s hs => ?_,
      hl.once, hl.stamp⟩
    · rcases List.mem_cons.mp hu with rfl | hu
      · have hepoch := (hl.hand _ hmem).epoch
        exact ⟨hin, hepoch, hcurrent.nonempty, fun x hx => List.mem_append_left _ hx⟩
      · exact hl.served u hu
    · rcases hl.inside s hs with ⟨p, hp, hslot⟩ | ⟨u, hu, hslot⟩
      · by_cases hpt : p = (t, t.info.bulkCount)
        · exact .inr ⟨t, List.mem_cons_self, by rw [← hslot, hpt]⟩
        · exact .inl ⟨p, (Multiset.mem_erase_of_ne hpt).mpr hp, hslot⟩
      · exact .inr ⟨u, List.mem_cons_of_mem _ hu, hslot⟩
  · rintro x (hout | ⟨p, hp, hxp⟩)
    · exact mem_late.mpr (.inl ⟨_, List.mem_cons_self, .inl hout⟩)
    · by_cases hpt : p = (t, t.info.bulkCount)
      · subst hpt
        exact mem_late.mpr (.inr (.inr (.inr (List.mem_append_left _ hxp))))
      · exact mem_late.mpr (.inl ⟨_, List.mem_cons_self,
          .inr ⟨p, (Multiset.mem_erase_of_ne hpt).mpr hp, hxp⟩⟩)

/-- An instance whose condition failed is retired without running. -/
theorem discharge (h : Inv c cfg guarded clean σ (l :: others)) {t : Ticket} {task : NodeInfo}
    (hserved : t ∈ l.served) (hslot : task.slot = t.slot) (hone : task.bulkCount = 1)
    (hcond : c.isCondition task.id = true) (hready : (task.cells : Multiset Cell) ≤ l.ready) :
    Inv c cfg guarded clean (σ.discharge task)
      ({ l with ready := l.ready - (task.cells : Multiset Cell) } :: others) := by
  obtain ⟨hin, -⟩ := (h.tickets.phases l List.mem_cons_self).served t hserved
  have hlive := Phase.live_sub_ready hready
  refine h.retires task.slot true task.cells (hslot ▸ hin) ?_ ?_ rfl rfl
    rfl rfl rfl rfl ?_ (fun p hp => hp) (fun hl => ⟨hl.hand, hl.served, hl.inside, hl.once, hl.stamp⟩) ?_
  · intro x hx
    obtain ⟨hs, hnode, -⟩ := NodeInfo.mem_cells.mp hx
    exact ⟨hs, by rw [hnode, hcond]⟩
  · rw [NodeInfo.cells_length, hone]
    rfl
  · apply h.accounts.step
    · rw [hlive]
      simp only [Shared.discharge, Shared.setLedger, Shared.setSlot, ← Multiset.coe_add]
      ext x
      simp only [Multiset.count_add]
      omega
    · simp only [Shared.discharge, Shared.setLedger, Shared.setSlot, ← Multiset.coe_add, Phase.ran]
      ext x
      simp only [Multiset.count_add]
      omega
    · exact h.accounts.nodup
    · exact h.accounts.bounded
  · exact fun x hx => mem_late.mpr (.inl ⟨_, List.mem_cons_self, hx⟩)

/-- Conditions were evaluated to true for instances of a slot the thread is inside. -/
theorem evaluate (h : Inv c cfg guarded clean σ (l :: others)) {t : Ticket} {task : NodeInfo}
    {parts : List CondPart} (hserved : t ∈ l.served) (hslot : task.slot = t.slot) (choice : ℕ) :
    Inv c cfg guarded clean (σ.perform c choice (.evaluate t task parts)).2
      (l.next c cfg (.evaluate t task parts) (σ.perform c choice (.evaluate t task parts)).1 ::
        others) := by
  obtain ⟨hin, -⟩ := (h.tickets.phases l List.mem_cons_self).served t hserved
  have hgrow : ∀ x, Granted c σ x → Granted c (σ.perform c choice (.evaluate t task parts)).2 x := by
    intro x hx part hpart
    simp only [Shared.perform, Shared.setLedger]
    split
    · exact List.mem_append_right _ (hx part hpart)
    · exact hx part hpart
  have hnew : (σ.perform c choice (.evaluate t task parts)).1 = true → c.ownParts task.id ⊆ parts →
      ∀ x ∈ task.cells, Granted c (σ.perform c choice (.evaluate t task parts)).2 x := by
    intro hpassed hparts x hx part hpart
    have hpassed : parts = [] ∨ choice = 1 := of_decide_eq_true hpassed
    simp only [Shared.perform, Shared.setLedger, hpassed, decide_true, if_true]
    refine List.mem_append_left _ (List.mem_flatMap.mpr ⟨x, hx, List.mem_map.mpr ⟨part, ?_, rfl⟩⟩)
    rw [(NodeInfo.mem_cells.mp hx).2.1] at hpart
    exact hparts hpart
  have hphase : ∃ passed, l.next c cfg (.evaluate t task parts)
      (σ.perform c choice (.evaluate t task parts)).1 = { l with passed := passed } ∧
        ∀ x ∈ passed, x ∈ l.passed ∨ x.slot ∈ l.inside ∧
          Granted c (σ.perform c choice (.evaluate t task parts)).2 x := by
    simp only [Phase.next]
    split
    · next hp =>
      refine ⟨_, rfl, fun x hx => ?_⟩
      rcases List.mem_append.mp hx with hx | hx
      · exact .inr ⟨(NodeInfo.mem_cells.mp hx).1 ▸ hslot ▸ hin, hnew hp.1 hp.2 x hx⟩
      · exact .inl hx
    · exact ⟨l.passed, rfl, fun x hx => .inl hx⟩
  obtain ⟨passed, heq, hpassed⟩ := hphase
  rw [heq]
  refine h.moves rfl rfl rfl rfl rfl rfl (h.accounts.step rfl rfl h.accounts.nodup h.accounts.bounded)
    (fun u hu => .inl hu) (fun u hu => .inl hu) (h.tickets.phases l List.mem_cons_self).hand
    (fun _ _ => id) (late_same (fun _ => id) (fun _ => id) rfl rfl fun _ => id) fun hg => ?_
  refine (h.grants hg).still hgrow rfl rfl rfl fun hlg => ⟨hlg.hand, fun x hx => ?_⟩
  rcases hpassed x hx with hx | hx
  · exact hlg.passed x hx
  · exact hx

end Inv

end Tomii
