import Tomii.Runtime.ThreadWords

/-! # Single steps of the resolution threads

One lemma for each kind of step: accesses that move nothing, tasks that change hands, instances that
are published, executed and retired, and the sources of a frame. -/
namespace Tomii
set_option autoImplicit false
set_option maxHeartbeats 250000

variable {c : Compiled} {cfg : Config} {guarded clean : Prop} {σ σ' : Shared} {l l' : Phase}
  {ls ls' others : List Phase}

/-! ## Conditions -/

theorem PhaseGrants.keep (h : PhaseGrants c σ l)
    (hgranted : ∀ x, x.slot ∈ l.inside ∨ (∃ p ∈ l.hand, p.1.slot = x.slot) →
      Granted c σ x → Granted c σ' x) : PhaseGrants c σ' l where
  hand := fun p hp hcond x hx =>
    hgranted x (.inr ⟨p, hp, (Ticket.mem_cells.mp hx).1.symm⟩) (h.hand p hp hcond x hx)
  passed := fun x hx => by
    obtain ⟨hin, hg⟩ := h.passed x hx
    exact ⟨hin, hgranted x (.inl hin) hg⟩

namespace Grants

theorem perm (h : Grants c σ ls) (hp : ls.Perm ls') : Grants c σ ls' :=
  ⟨h.queue, h.batchQueue, fun l hl => h.phases l (hp.mem_iff.mpr hl), h.executed⟩

theorem step (h : Grants c σ (l :: others))
    (hgranted : ∀ x, Busy σ (l :: others) x.slot → Granted c σ x → Granted c σ' x)
    (hqueue : ∀ t ∈ σ'.queue, t ∈ σ.queue ∨
      (c.isCondition t.info.id = true → ∀ x ∈ t.cells, Granted c σ' x))
    (hbatch : ∀ t ∈ σ'.batchQueue, t ∈ σ.batchQueue ∨
      (c.isCondition t.info.id = true → ∀ x ∈ t.cells, Granted c σ' x))
    (hexecuted : ∀ x ∈ σ'.ledger.executed, c.isCondition x.node = true → Granted c σ' x)
    (hl : PhaseGrants c σ' l → PhaseGrants c σ' l') : Grants c σ' (l' :: others) where
  queue := by
    intro t ht hcond x hx
    rcases hqueue t ht with hold | hnew
    · exact hgranted x (.inl ⟨t, hold, (Ticket.mem_cells.mp hx).1.symm⟩) (h.queue t hold hcond x hx)
    · exact hnew hcond x hx
  batchQueue := by
    intro t ht hcond x hx
    rcases hbatch t ht with hold | hnew
    · exact hgranted x (.inr (.inl ⟨t, hold, (Ticket.mem_cells.mp hx).1.symm⟩))
        (h.batchQueue t hold hcond x hx)
    · exact hnew hcond x hx
  phases := by
    have hkeep : ∀ m ∈ l :: others, PhaseGrants c σ' m := fun m hm =>
      (h.phases m hm).keep fun x hx => hgranted x (.inr (.inr ⟨m, hm, hx⟩))
    intro m hm
    rcases List.mem_cons.mp hm with rfl | hm
    · exact hl (hkeep l List.mem_cons_self)
    · exact hkeep m (List.mem_cons_of_mem _ hm)
  executed := hexecuted

/-- Where nothing is newly executed or queued and no grant is lost. -/
theorem still (h : Grants c σ (l :: others))
    (hgranted : ∀ x, Granted c σ x → Granted c σ' x) (hqueue : σ'.queue = σ.queue)
    (hbatch : σ'.batchQueue = σ.batchQueue) (hexecuted : σ'.ledger.executed = σ.ledger.executed)
    (hl : PhaseGrants c σ' l → PhaseGrants c σ' l') : Grants c σ' (l' :: others) := by
  refine h.step (fun x _ => hgranted x) (fun t ht => .inl (hqueue ▸ ht))
    (fun t ht => .inl (hbatch ▸ ht)) (fun x hx hcond => ?_) hl
  rw [hexecuted] at hx
  exact hgranted x (h.executed x hx hcond)

end Grants

/-! ## Steps that move nothing -/

/-- A slot in which nothing has changed that an instance or a claim depends on. -/
structure Slot.Alike (s s' : Slot) : Prop where
  stamp : s'.stamp = s.stamp
  pendingTasks : s'.pendingTasks = s.pendingTasks
  pendingCondTasks : s'.pendingCondTasks = s.pendingCondTasks
  processingCount : s'.processingCount = s.processingCount
  completed : s'.completed = s.completed
  resetting : s'.resetting = s.resetting
  needsCheck : s.needsCheck = true → s'.needsCheck = true

theorem Slot.Alike.refl (s : Slot) : s.Alike s := ⟨rfl, rfl, rfl, rfl, rfl, rfl, id⟩

theorem Shared.alike_setSlot {slot : ℕ} {s : Slot} (h : (σ.slots slot).Alike s) (slot' : ℕ) :
    (σ.slots slot').Alike ((σ.setSlot slot s).slots slot') := by
  by_cases hs : slot' = slot
  · subst hs
    rwa [slots_setSlot_self]
  · rw [slots_setSlot_of_ne σ hs]
    exact .refl _

theorem Shared.Writes.alike {slot : ℕ} {cells : LazySlot} (h : σ.Writes slot cells) (slot' : ℕ) :
    (σ.slots slot').Alike ((σ.setCells slot cells).slots slot') := by
  apply Shared.alike_setSlot
  exact ⟨by simp only [Slot.stamp, Slot.setCells, h.gen], rfl, rfl, rfl, rfl, rfl, id⟩

theorem Counters.still (h : Counters c σ) (hretired : σ'.ledger.retired = σ.ledger.retired)
    (htasks : ∀ s, (σ'.slots s).pendingTasks = (σ.slots s).pendingTasks)
    (hconds : ∀ s, (σ'.slots s).pendingCondTasks = (σ.slots s).pendingCondTasks) :
    Counters c σ' := by
  intro slot cond
  have hload := h slot cond
  rw [retiredOf, hretired]
  cases cond with
  | false => exact (htasks slot).trans hload
  | true => exact (hconds slot).trans hload

theorem Brackets.alike (h : Brackets σ (l :: others)) (hinside : l'.inside = l.inside)
    (hslots : ∀ s, (σ.slots s).Alike (σ'.slots s)) : Brackets σ' (l' :: others) :=
  h.still hinside fun s => (hslots s).processingCount

/-- A step that keeps the thread where it is and the ledger growing. -/
theorem advances_of_grows (hretired : ∀ x ∈ σ.ledger.retired, x ∈ σ'.ledger.retired)
    (hreleased : ∀ x ∈ σ'.ledger.released,
      x ∈ σ.ledger.released ∨ (σ.slots x.slot).resetting = false)
    (hfired : ∀ p ∈ σ'.ledger.fired, p ∈ σ.ledger.fired ∨ (σ.slots p.1).resetting = false)
    (hinside : l'.inside = l.inside)
    (hresetting : ∀ s, (σ'.slots s).resetting = (σ.slots s).resetting) (slot : ℕ) :
    Advances σ σ' (l :: others) (l' :: others) slot where
  retired := fun x _ hx => hretired x hx
  released := by
    rintro x rfl hx
    exact hreleased x hx
  fired := fun n hn => hfired (slot, n) hn
  inside := by
    intro _ hnone m hm
    rcases List.mem_cons.mp hm with rfl | hm
    · rw [hinside]
      exact hnone l List.mem_cons_self
    · exact hnone m (List.mem_cons_of_mem _ hm)
  resetting := fun h => (hresetting slot).trans h

/-- The thread is where it was, up to its stamp. -/
structure Phase.Same (l l' : Phase) : Prop where
  hand : l'.hand = l.hand
  ready : l'.ready = l.ready
  outgoing : l'.outgoing = l.outgoing
  inside : l'.inside = l.inside
  served : l'.served = l.served
  passed : l'.passed = l.passed
  focus : l'.focus = l.focus

theorem Phase.Same.refl (l : Phase) : l.Same l := ⟨rfl, rfl, rfl, rfl, rfl, rfl, rfl⟩

theorem Phase.Same.live (h : l.Same l') : l'.live = l.live := by
  simp only [Phase.live, h.hand, h.ready, h.outgoing]

theorem Phase.Same.ran (h : l.Same l') : l'.ran = l.ran := by
  simp only [Phase.ran, h.hand]

namespace Inv

theorem perm (h : Inv c cfg guarded clean σ ls) (hp : ls.Perm ls') :
    Inv c cfg guarded clean σ ls' where
  accounts := h.accounts.perm hp
  tickets := h.tickets.perm hp
  brackets := h.brackets.perm hp
  counters := h.counters
  words := h.words.perm hp
  claims := h.claims.perm hp
  awake := fun hclean slot hun => (h.awake hclean slot (hun.perm hp.symm)).perm hp
  grants := fun hg => (h.grants hg).perm hp

/-- Only the words may have been written, and the stamp of the thread renewed. -/
theorem alike (h : Inv c cfg guarded clean σ (l :: others)) (hledger : σ'.ledger = σ.ledger)
    (hqueue : σ'.queue = σ.queue) (hbatch : σ'.batchQueue = σ.batchQueue)
    (hslots : ∀ s, (σ.slots s).Alike (σ'.slots s)) (hsame : l.Same l')
    (hstamp : ∀ slot st, l'.stamp = some (slot, st) →
      slot ∈ l.inside ∧ st = (σ.slots slot).stamp)
    (hwords : Words c cfg σ' (l' :: others)) : Inv c cfg guarded clean σ' (l' :: others) where
  accounts := h.accounts.still hsame.live hsame.ran hledger hqueue hbatch
  tickets := by
    refine h.tickets.step (fun s _ => (hslots s).stamp) (fun x _ hx => hledger ▸ hx)
      (fun t ht => .inl (hqueue ▸ ht)) (fun t ht => .inl (hbatch ▸ ht)) fun hl => ?_
    refine ⟨?_, ?_, ?_, ?_, fun slot st hst => ?_⟩
    · rw [hsame.hand]; exact hl.hand
    · rw [hsame.served, hsame.inside]; exact hl.served
    · rw [hsame.inside, hsame.hand, hsame.served]; exact hl.inside
    · rw [hsame.inside]; exact hl.once
    · rw [hsame.inside, (hslots slot).stamp]; exact hstamp slot st hst
  brackets := h.brackets.alike hsame.inside hslots
  counters := h.counters.still (by rw [hledger]) (fun s => (hslots s).pendingTasks)
    fun s => (hslots s).pendingCondTasks
  words := hwords
  claims := by
    refine h.claims.step h.accounts (.inl hsame.focus) (fun s => (hslots s).completed)
      (fun s => (hslots s).resetting) (advances_of_grows ?_ ?_ ?_ hsame.inside
        fun s => (hslots s).resetting)
    · exact fun x hx => hledger ▸ hx
    · exact fun x hx => .inl (hledger ▸ hx)
    · exact fun p hp => .inl (hledger ▸ hp)
  awake := by
    intro hclean slot hun
    refine (h.awake hclean slot (hun.before_step ?_ ?_ (hslots slot).resetting ?_)).keep (.inr hsame.focus)
      (hslots slot).needsCheck
    · exact fun x hx _ => hledger ▸ hx
    · rw [hsame.inside]; exact id
    · rw [hsame.focus]; exact id
  grants := by
    intro hg
    refine (h.grants hg).still (fun x hx => ?_) hqueue hbatch (by rw [hledger]) fun hl => ?_
    · rw [Granted, hledger]; exact hx
    · refine ⟨?_, ?_⟩
      · rw [hsame.hand]; exact hl.hand
      · rw [hsame.passed, hsame.inside]; exact hl.passed

theorem stampOk (h : Inv c cfg guarded clean σ (l :: others)) (slot : ℕ) (st : Stamp)
    (hst : l.stamp = some (slot, st)) : slot ∈ l.inside ∧ st = (σ.slots slot).stamp :=
  (h.tickets.phases l List.mem_cons_self).stamp slot st hst

/-- No word was written either. -/
theorem quiet (h : Inv c cfg guarded clean σ (l :: others)) (hledger : σ'.ledger = σ.ledger)
    (hqueue : σ'.queue = σ.queue) (hbatch : σ'.batchQueue = σ.batchQueue)
    (hslots : ∀ s, (σ.slots s).Alike (σ'.slots s))
    (hcells : ∀ s, (σ'.slots s).cells = (σ.slots s).cells) (hsame : l.Same l')
    (hstamp : ∀ slot st, l'.stamp = some (slot, st) →
      slot ∈ l.inside ∧ st = (σ.slots slot).stamp) : Inv c cfg guarded clean σ' (l' :: others) := by
  refine h.alike hledger hqueue hbatch hslots hsame hstamp (h.words.still ?_
    (fun s => (hslots s).resetting) ?_ ?_ ?_ ?_ ?_ ?_)
  · intro s
    rw [hcells]
    exact h.words.tags s
  · intro slot node _
    simp only [Shared.entryAt, hcells]
  · intro slot node
    simp only [Shared.fanoutAt, hcells]
  · exact fun x hx => .inl (hledger ▸ hx)
  · rw [hledger]
  · rw [hledger]
  · intro x hx
    rw [late, total_cons] at hx
    rwa [late, hqueue, hbatch, hledger, total_cons, hsame.outgoing, hsame.hand]

/-! ## Tasks that change hands -/

/-- Tasks go between the thread and the queues, instances run and conditions are evaluated; slots are
left alone. -/
theorem moves (h : Inv c cfg guarded clean σ (l :: others)) (hslots : σ'.slots = σ.slots)
    (hledger : σ'.ledger = { σ.ledger with
      executed := σ'.ledger.executed, granted := σ'.ledger.granted })
    (hinside : l'.inside = l.inside) (hserved : l'.served = l.served) (hstamp : l'.stamp = l.stamp)
    (hfocus : l'.focus = l.focus) (haccounts : Accounts c σ' (l' :: others))
    (hqueue : ∀ t ∈ σ'.queue, t ∈ σ.queue ∨ t.Current c σ ∧ c.isNetworkNode t.info.id = false)
    (hbatch : ∀ t ∈ σ'.batchQueue,
      t ∈ σ.batchQueue ∨ t.Current c σ ∧ c.isNetworkNode t.info.id = false)
    (hhand : ∀ p ∈ l'.hand, p.1.Current c σ)
    (hopen : ∀ slot ∈ l.inside, (∃ p ∈ l.hand, p.1.slot = slot) → ∃ p ∈ l'.hand, p.1.slot = slot)
    (hlate : ∀ x ∈ late σ (l :: others), x ∈ late σ' (l' :: others))
    (hgrants : guarded → Grants c σ' (l' :: others)) : Inv c cfg guarded clean σ' (l' :: others) := by
  have halike : ∀ s, (σ.slots s).Alike (σ'.slots s) := fun s => hslots ▸ .refl _
  have hcurrent : ∀ t : Ticket, t.Current c σ → t.Current c σ' := fun t ht =>
    ht.keep (halike t.slot).stamp
  refine ⟨haccounts, ?_, h.brackets.alike hinside halike,
    h.counters.still (by rw [hledger]) (fun s => (halike s).pendingTasks)
      fun s => (halike s).pendingCondTasks, ?_, ?_, ?_, hgrants⟩
  · refine h.tickets.step (fun s _ => (halike s).stamp) (fun x _ hx => by rw [hledger]; exact hx)
      (fun t ht => (hqueue t ht).imp_right fun hn => ⟨hcurrent t hn.1, hn.2⟩)
      (fun t ht => (hbatch t ht).imp_right fun hn => ⟨hcurrent t hn.1, hn.2⟩) fun hl => ?_
    refine ⟨fun p hp => hcurrent p.1 (hhand p hp), ?_, fun slot hslot => ?_, ?_, ?_⟩
    · rw [hserved, hinside]; exact hl.served
    · rw [hinside] at hslot
      rw [hserved]
      exact (hl.inside slot hslot).imp_left (hopen slot hslot)
    · rw [hinside]; exact hl.once
    · rw [hstamp, hinside]; exact hl.stamp
  · refine h.words.still ?_ (fun s => (halike s).resetting) ?_ ?_ ?_ ?_ ?_ hlate
    · rw [hslots]; exact h.words.tags
    · intro slot node _
      simp only [Shared.entryAt, hslots]
    · intro slot node
      simp only [Shared.fanoutAt, hslots]
    · intro x hx
      rw [hledger] at hx
      exact .inl hx
    · rw [hledger]
    · rw [hledger]
  · refine h.claims.step h.accounts (.inl hfocus) (fun s => (halike s).completed)
      (fun s => (halike s).resetting) (advances_of_grows ?_ ?_ ?_ hinside
        fun s => (halike s).resetting)
    · intro x hx
      rw [hledger]
      exact hx
    · intro x hx
      rw [hledger] at hx
      exact .inl hx
    · intro p hp
      rw [hledger] at hp
      exact .inl hp
  · intro hclean slot hun
    refine (h.awake hclean slot (hun.before_step ?_ ?_ (halike slot).resetting ?_)).keep (.inr hfocus)
      (halike slot).needsCheck
    · intro x hx _
      rw [hledger] at hx
      exact hx
    · rw [hinside]; exact id
    · rw [hfocus]; exact id

/-- A task that the thread owes goes into the queue. -/
theorem enqueue (h : Inv c cfg guarded clean σ (l :: others)) (t task : Ticket)
    (howes : l.Owes c cfg guarded task) :
    Inv c cfg guarded clean (σ.enqueue (some t) task) (l.spend c cfg task.info :: others) := by
  have hl := h.tickets.phases l List.mem_cons_self
  obtain ⟨-, hst⟩ := hl.stamp _ _ howes.stamp
  have hlive := Phase.live_spend c cfg howes.held
  have hcurrent : task.Current c σ :=
    ⟨howes.nonempty, congrArg Stamp.epoch hst, fun _ => congrArg Stamp.gen hst⟩
  have hran := Phase.ran_spend c cfg (l := l) task.info
  have hspent : ∀ x ∈ l.outgoing,
      x ∈ (l.spend c cfg task.info).outgoing ∨ x ∈ task.info.cells := fun _ hx =>
    Phase.mem_outgoing_spend c cfg hx
  obtain ⟨ready, outgoing, hspend⟩ := Phase.spend_rest c cfg (l := l) task.info
  rw [hspend] at hlive hran hspent ⊢
  refine h.moves rfl rfl rfl rfl rfl rfl ?_ ?_ (fun u hu => .inl hu) hl.hand (fun _ _ => id) ?_ ?_
  · apply h.accounts.step
    · rw [hlive]
      simp only [Shared.enqueue, queuedCells_cons, Ticket.cells]
      ext x
      simp only [Multiset.count_add]
      simp only [Option.isNone_some, Bool.false_eq_true, if_false]
      omega
    · rw [hran]
      rfl
    · exact h.accounts.nodup
    · exact h.accounts.bounded
  · intro u hu
    rcases List.mem_cons.mp hu with rfl | hu
    · exact .inr ⟨hcurrent, howes.compute⟩
    · exact .inl hu
  · intro x hx
    refine late_step hx (fun hown => ?_) (fun hq => ?_) (fun hb => ?_) fun hr => ?_
    · rcases hown with hout | hhand
      · rcases hspent x hout with hout | hmem
        · exact mem_late.mpr (.inl ⟨_, List.mem_cons_self, .inl hout⟩)
        · exact mem_late.mpr (.inr (.inl ⟨task, List.mem_cons_self, hmem⟩))
      · exact mem_late.mpr (.inl ⟨_, List.mem_cons_self, .inr hhand⟩)
    · obtain ⟨u, hu, hxu⟩ := hq
      exact mem_late.mpr (.inr (.inl ⟨u, List.mem_cons_of_mem _ hu, hxu⟩))
    · exact mem_late.mpr (.inr (.inr (.inl hb)))
    · exact mem_late.mpr (.inr (.inr (.inr hr)))
  · intro hg
    have hgr := h.grants hg
    refine hgr.step (fun x _ => id) ?_ (fun u hu => .inl hu) hgr.executed fun hlg => ?_
    · intro u hu
      rcases List.mem_cons.mp hu with rfl | hu
      · refine .inr fun hcond x hx => ?_
        exact ((hgr.phases l List.mem_cons_self).passed x (howes.passed hg hcond x hx)).2
      · exact .inl hu
    · exact ⟨hlg.hand, hlg.passed⟩

/-- A task that the thread owes stays in its hand. -/
theorem reserve (h : Inv c cfg guarded clean σ (l :: others)) (task : Ticket)
    (howes : l.Owes c cfg guarded task) :
    Inv c cfg guarded clean σ
      ({ l.spend c cfg task.info with hand := (task, 0) ::ₘ l.hand } :: others) := by
  have hl := h.tickets.phases l List.mem_cons_self
  obtain ⟨-, hst⟩ := hl.stamp _ _ howes.stamp
  have hlive := Phase.live_spend c cfg howes.held
  have hran := Phase.ran_spend c cfg (l := l) task.info
  have hspent : ∀ x ∈ l.outgoing,
      x ∈ (l.spend c cfg task.info).outgoing ∨ x ∈ task.info.cells := fun _ hx =>
    Phase.mem_outgoing_spend c cfg hx
  obtain ⟨ready, outgoing, hspend⟩ := Phase.spend_rest c cfg (l := l) task.info
  rw [hspend] at hlive hran hspent ⊢
  have hlive' := Phase.live_cons_hand (l := { l with ready := ready, outgoing := outgoing }) (task, 0)
  have hran' := Phase.ran_cons_hand (l := { l with ready := ready, outgoing := outgoing }) (task, 0)
  refine h.moves rfl rfl rfl rfl rfl rfl ?_ (fun u hu => .inl hu) (fun u hu => .inl hu) ?_ ?_ ?_ ?_
  · apply h.accounts.step
    · rw [hlive', hlive]
      rfl
    · rw [hran', hran]
      simp
    · exact h.accounts.nodup
    · exact h.accounts.bounded
  · intro p hp
    rcases Multiset.mem_cons.mp hp with rfl | hp
    · exact ⟨howes.nonempty, congrArg Stamp.epoch hst, fun _ => congrArg Stamp.gen hst⟩
    · exact hl.hand p hp
  · rintro slot - ⟨p, hp, hslot⟩
    exact ⟨p, Multiset.mem_cons_of_mem hp, hslot⟩
  · intro x hx
    refine late_step hx (fun hown => mem_late.mpr (.inl ⟨_, List.mem_cons_self, ?_⟩))
      (fun hq => mem_late.mpr (.inr (.inl hq))) (fun hb => mem_late.mpr (.inr (.inr (.inl hb))))
      fun hr => mem_late.mpr (.inr (.inr (.inr hr)))
    rcases hown with hout | ⟨p, hp, hxp⟩
    · exact (hspent x hout).imp_right fun hmem => ⟨(task, 0), Multiset.mem_cons_self _ _, hmem⟩
    · exact .inr ⟨p, Multiset.mem_cons_of_mem hp, hxp⟩
  · intro hg
    have hgr := h.grants hg
    refine hgr.still (fun x => id) rfl rfl rfl fun hlg => ⟨?_, hlg.passed⟩
    intro p hp hcond x hx
    rcases Multiset.mem_cons.mp hp with rfl | hp
    · exact (hlg.passed x (howes.passed hg hcond x hx)).2
    · exact hlg.hand p hp hcond x hx

/-- The thread takes a task of a queue into its hand, with the instances that have run. -/
theorem take (h : Inv c cfg guarded clean σ (l :: others)) {t : Ticket} {k : ℕ}
    (hslots : σ'.slots = σ.slots) (hledger : σ'.ledger = σ.ledger)
    (hqueue : ∀ u ∈ σ'.queue, u ∈ σ.queue) (hbatch : ∀ u ∈ σ'.batchQueue, u ∈ σ.batchQueue)
    (hcells : queuedCells σ.queue + queuedCells σ.batchQueue =
      (t.cells : Multiset Cell) + (queuedCells σ'.queue + queuedCells σ'.batchQueue))
    (hrun : queuedCells σ.batchQueue =
      (t.cells.take k : Multiset Cell) + queuedCells σ'.batchQueue)
    (hcurrent : t.Current c σ)
    (hgranted : guarded → c.isCondition t.info.id = true → ∀ x ∈ t.cells, Granted c σ x) :
    Inv c cfg guarded clean σ' ({ l with hand := (t, k) ::ₘ l.hand } :: others) := by
  have hl := h.tickets.phases l List.mem_cons_self
  refine h.moves hslots (by rw [hledger]) rfl rfl rfl rfl ?_ (fun u hu => .inl (hqueue u hu))
    (fun u hu => .inl (hbatch u hu)) ?_ ?_ ?_ ?_
  · apply h.accounts.step
    · rw [Phase.live_cons_hand, hledger]
      ext x
      have hcount := congrArg (Multiset.count x) hcells
      simp only [Multiset.count_add] at hcount ⊢
      omega
    · rw [Phase.ran_cons_hand, hledger, hrun]
      ext x
      simp only [Multiset.count_add]
      omega
    · rw [hledger]
      exact h.accounts.nodup
    · rw [hledger]
      exact h.accounts.bounded
  · intro p hp
    rcases Multiset.mem_cons.mp hp with rfl | hp
    · exact hcurrent
    · exact hl.hand p hp
  · rintro slot - ⟨p, hp, hslot⟩
    exact ⟨p, Multiset.mem_cons_of_mem hp, hslot⟩
  · intro x hx
    have hqueued : x ∈ queuedCells σ.queue + queuedCells σ.batchQueue →
        x ∈ late σ' ({ l with hand := (t, k) ::ₘ l.hand } :: others) := by
      intro hq
      rw [hcells, Multiset.mem_add, Multiset.mem_add, mem_queuedCells, mem_queuedCells] at hq
      rcases hq with hq | hq | hq
      · exact mem_late.mpr (.inl ⟨_, List.mem_cons_self,
          .inr ⟨(t, k), Multiset.mem_cons_self _ _, hq⟩⟩)
      · exact mem_late.mpr (.inr (.inl hq))
      · exact mem_late.mpr (.inr (.inr (.inl hq)))
    refine late_step hx (fun hown => mem_late.mpr (.inl ⟨_, List.mem_cons_self, ?_⟩))
      (fun hq => hqueued (Multiset.mem_add.mpr (.inl (mem_queuedCells.mpr hq))))
      (fun hb => hqueued (Multiset.mem_add.mpr (.inr (mem_queuedCells.mpr hb))))
      fun hr => mem_late.mpr (.inr (.inr (.inr (hledger ▸ hr))))
    rcases hown with hout | ⟨p, hp, hxp⟩
    · exact .inl hout
    · exact .inr ⟨p, Multiset.mem_cons_of_mem hp, hxp⟩
  · intro hg
    have hgr := h.grants hg
    refine hgr.step (fun x _ => ?_) (fun u hu => .inl (hqueue u hu)) (fun u hu => .inl (hbatch u hu))
      (fun x hx hcond => ?_) fun hlg => ⟨?_, hlg.passed⟩
    · rw [Granted, Granted, hledger]; exact id
    · rw [hledger] at hx
      rw [Granted, hledger]
      exact hgr.executed x hx hcond
    · intro p hp hcond x hx
      rcases Multiset.mem_cons.mp hp with rfl | hp
      · rw [Granted, hledger]
        exact hgranted hg hcond x hx
      · exact hlg.hand p hp hcond x hx

/-- The thread puts a task of its hand into a queue. -/
theorem put (h : Inv c cfg guarded clean σ (l :: others)) {t : Ticket} {k : ℕ}
    (hslots : σ'.slots = σ.slots) (hledger : σ'.ledger = σ.ledger)
    (hqueue : ∀ u ∈ σ'.queue, u = t ∨ u ∈ σ.queue)
    (hbatch : ∀ u ∈ σ'.batchQueue, u = t ∨ u ∈ σ.batchQueue)
    (hcells : queuedCells σ'.queue + queuedCells σ'.batchQueue =
      (t.cells : Multiset Cell) + (queuedCells σ.queue + queuedCells σ.batchQueue))
    (hrun : queuedCells σ'.batchQueue =
      (t.cells.take k : Multiset Cell) + queuedCells σ.batchQueue)
    (hmem : (t, k) ∈ l.hand) (hnet : c.isNetworkNode t.info.id = false) (hout : t.slot ∉ l.inside) :
    Inv c cfg guarded clean σ' ({ l with hand := l.hand.erase (t, k) } :: others) := by
  have hl := h.tickets.phases l List.mem_cons_self
  have hcurrent := hl.hand _ hmem
  have hlive := Phase.live_erase_hand hmem
  have hran := Phase.ran_erase_hand hmem
  refine h.moves hslots (by rw [hledger]) rfl rfl rfl rfl ?_ (fun u hu => ?_) (fun u hu => ?_) ?_ ?_
    ?_ ?_
  · apply h.accounts.step
    · rw [hlive, hledger]
      ext x
      have hcount := congrArg (Multiset.count x) hcells
      simp only [Multiset.count_add] at hcount ⊢
      omega
    · rw [hran, hledger, hrun]
      ext x
      simp only [Multiset.count_add]
      omega
    · rw [hledger]
      exact h.accounts.nodup
    · rw [hledger]
      exact h.accounts.bounded
  · rcases hqueue u hu with rfl | hu
    · exact .inr ⟨hcurrent, hnet⟩
    · exact .inl hu
  · rcases hbatch u hu with rfl | hu
    · exact .inr ⟨hcurrent, hnet⟩
    · exact .inl hu
  · exact fun p hp => hl.hand p (Multiset.mem_of_mem_erase hp)
  · rintro slot hslot ⟨p, hp, rfl⟩
    refine ⟨p, (Multiset.mem_erase_of_ne ?_).mpr hp, rfl⟩
    rintro rfl
    exact hout hslot
  · intro x hx
    have hqueued : x ∈ (t.cells : Multiset Cell) + (queuedCells σ.queue + queuedCells σ.batchQueue) →
        x ∈ late σ' ({ l with hand := l.hand.erase (t, k) } :: others) := by
      intro hq
      rw [← hcells, Multiset.mem_add, mem_queuedCells, mem_queuedCells] at hq
      rcases hq with hq | hq
      · exact mem_late.mpr (.inr (.inl hq))
      · exact mem_late.mpr (.inr (.inr (.inl hq)))
    refine late_step hx (fun hown => ?_)
      (fun hq => hqueued (Multiset.mem_add.mpr (.inr (Multiset.mem_add.mpr
        (.inl (mem_queuedCells.mpr hq))))))
      (fun hb => hqueued (Multiset.mem_add.mpr (.inr (Multiset.mem_add.mpr
        (.inr (mem_queuedCells.mpr hb))))))
      fun hr => mem_late.mpr (.inr (.inr (.inr (hledger ▸ hr))))
    rcases hown with hout | ⟨p, hp, hxp⟩
    · exact mem_late.mpr (.inl ⟨_, List.mem_cons_self, .inl hout⟩)
    · by_cases hpt : p = (t, k)
      · subst hpt
        exact hqueued (Multiset.mem_add.mpr (.inl hxp))
      · exact mem_late.mpr (.inl ⟨_, List.mem_cons_self,
          .inr ⟨p, (Multiset.mem_erase_of_ne hpt).mpr hp, hxp⟩⟩)
  · intro hg
    have hgr := h.grants hg
    have hsame : ∀ x, Granted c σ x → Granted c σ' x := fun x hx => by
      rw [Granted, hledger]
      exact hx
    have htask : c.isCondition t.info.id = true → ∀ x ∈ t.cells, Granted c σ' x := fun hcond x hx =>
      hsame x ((hgr.phases l List.mem_cons_self).hand _ hmem hcond x hx)
    refine hgr.step (fun x _ => hsame x) (fun u hu => ?_) (fun u hu => ?_) (fun x hx hcond => ?_)
      fun hlg => ⟨fun p hp => hlg.hand p (Multiset.mem_of_mem_erase hp), hlg.passed⟩
    · rcases hqueue u hu with rfl | hu
      · exact .inr htask
      · exact .inl hu
    · rcases hbatch u hu with rfl | hu
      · exact .inr htask
      · exact .inl hu
    · rw [hledger] at hx
      exact hsame x (hgr.executed x hx hcond)

/-- The next instance of a task in hand runs. -/
theorem runKernel (h : Inv c cfg guarded clean σ (l :: others)) {t : Ticket} {k : ℕ}
    (hk : k < t.info.bulkCount) (hmem : (t, k) ∈ l.hand) :
    Inv c cfg guarded clean
      (σ.setLedger { σ.ledger with
        executed := ⟨t.slot, t.info.id, t.info.index + k⟩ :: σ.ledger.executed })
      ({ l with hand := (t, k + 1) ::ₘ l.hand.erase (t, k) } :: others) := by
  have hl := h.tickets.phases l List.mem_cons_self
  have hlive := Phase.live_erase_hand hmem
  have hran := Phase.ran_erase_hand hmem
  have hlive' := Phase.live_cons_hand (l := { l with hand := l.hand.erase (t, k) }) (t, k + 1)
  have hran' := Phase.ran_cons_hand (l := { l with hand := l.hand.erase (t, k) }) (t, k + 1)
  have hback : ∀ p ∈ (t, k + 1) ::ₘ l.hand.erase (t, k), ∃ q ∈ l.hand, q.1 = p.1 := by
    intro p hp
    rcases Multiset.mem_cons.mp hp with rfl | hp
    · exact ⟨(t, k), hmem, rfl⟩
    · exact ⟨p, Multiset.mem_of_mem_erase hp, rfl⟩
  have hforth : ∀ p ∈ l.hand, ∃ q ∈ (t, k + 1) ::ₘ l.hand.erase (t, k), q.1 = p.1 := by
    intro p hp
    by_cases hpt : p = (t, k)
    · exact ⟨(t, k + 1), Multiset.mem_cons_self _ _, by rw [hpt]⟩
    · exact ⟨p, Multiset.mem_cons_of_mem ((Multiset.mem_erase_of_ne hpt).mpr hp), rfl⟩
  refine h.moves rfl rfl rfl rfl rfl rfl ?_ (fun u hu => .inl hu) (fun u hu => .inl hu) ?_ ?_ ?_ ?_
  · apply h.accounts.step
    · rw [hlive', hlive]
      rfl
    · rw [hran', hran]
      simp only [Ticket.take_succ hk, Shared.setLedger, ← Multiset.coe_add, ← Multiset.cons_coe]
      ext x
      simp only [Multiset.count_add, Multiset.count_cons, Multiset.coe_nil, Multiset.count_zero]
      omega
    · exact h.accounts.nodup
    · exact h.accounts.bounded
  · intro p hp
    obtain ⟨q, hq, hqp⟩ := hback p hp
    exact hqp ▸ hl.hand q hq
  · rintro slot - ⟨p, hp, rfl⟩
    obtain ⟨q, hq, hqp⟩ := hforth p hp
    exact ⟨q, hq, by rw [hqp]⟩
  · intro x hx
    refine late_step hx (fun hown => mem_late.mpr (.inl ⟨_, List.mem_cons_self, ?_⟩))
      (fun hq => mem_late.mpr (.inr (.inl hq))) (fun hb => mem_late.mpr (.inr (.inr (.inl hb))))
      fun hr => mem_late.mpr (.inr (.inr (.inr hr)))
    rcases hown with hout | ⟨p, hp, hxp⟩
    · exact .inl hout
    · obtain ⟨q, hq, hqp⟩ := hforth p hp
      exact .inr ⟨q, hq, by rwa [hqp]⟩
  · intro hg
    have hgr := h.grants hg
    have hlg := hgr.phases l List.mem_cons_self
    refine hgr.step (fun x _ => id) (fun u hu => .inl hu) (fun u hu => .inl hu)
      (fun x hx hcond => ?_) fun hlg' => ⟨fun p hp hcond x hx => ?_, hlg'.passed⟩
    · rcases List.mem_cons.mp hx with rfl | hx
      · refine hlg.hand _ hmem hcond _ (Ticket.mem_cells.mpr ⟨rfl, rfl, ?_, ?_⟩)
        · exact Nat.le_add_right _ _
        · exact Nat.add_lt_add_left hk _
      · exact hgr.executed x hx hcond
    · obtain ⟨q, hq, hqp⟩ := hback p hp
      rw [← hqp] at hcond hx
      exact hlg'.hand q hq hcond x hx

end Inv

end Tomii
