import Tomii.Runtime.ThreadBrackets

/-! # Instances are released

A counter call publishes instances whose barrier comes down or whose flag it sets. None of them was
released before: what is released in the current generation is locked. Fanout-bulk turns the ready
instances of a node into arrivals, and the last arrival dispatches the whole node. -/
namespace Tomii
set_option autoImplicit false
set_option maxHeartbeats 250000

variable {c : Compiled} {cfg : Config} {guarded clean : Prop} {σ σ' : Shared} {l l' : Phase}
  {others : List Phase}

/-- Distinct groups have no instance in common. -/
theorem EntryShape.groupRange_unique (sh : EntryShape) {g g' i : ℕ} (h : i ∈ sh.groupRange g)
    (h' : i ∈ sh.groupRange g') : g = g' := by
  rw [EntryShape.groupRange, List.mem_range'_1] at h h'
  have hdiv : ∀ k, k * sh.groupSize ≤ i → i < k * sh.groupSize + sh.groupSize →
      i / sh.groupSize = k := by
    intro k hlo hhi
    exact Nat.div_eq_of_lt_le hlo (by rw [Nat.succ_mul]; exact hhi)
  exact (hdiv g h.1 (by omega)).symm.trans (hdiv g' h'.1 (by omega))

/-! ## Locks -/

section Locks

variable {slot node : ℕ} {gen : UInt32} (hgen : gen = (σ.slots slot).cells.slotGen)

include hgen

/-- Counters only come down, so barriers stay down. -/
theorem Locked.fetchDec {g count : ℕ} {x : Cell} (h : Locked c σ x) :
    Locked c (σ.fetchDec c slot gen node g count).2 x := by
  rw [Locked, Shared.entryAt_fetchDec c hgen node g count]
  rw [Locked] at h
  by_cases heq : x.slot = slot ∧ x.node = node
  · rw [if_pos heq]
    rw [heq.1, heq.2] at h
    rw [heq.2]
    by_cases hbar : (c.entry node).hasBarrier = true
    · rw [if_pos hbar] at h ⊢
      intro g' hg'
      have hdown := h g' hg'
      simp only [EntryState.setRemaining, Function.update_apply]
      split
      · next heq' =>
        subst heq'
        omega
      · exact hdown
    · rw [if_neg hbar] at h ⊢
      exact h
  · rw [if_neg heq]
    exact h

theorem Locked.trySend {idx : ℕ} {x : Cell} (h : Locked c σ x) :
    Locked c (σ.trySend c slot gen node idx).2 x := by
  rw [Locked, Shared.entryAt_trySend c hgen node idx]
  rw [Locked] at h
  by_cases heq : x.slot = slot ∧ x.node = node
  · rw [if_pos heq]
    rw [heq.1, heq.2] at h
    rw [heq.2]
    split
    · next hbar =>
      rw [if_pos hbar] at h
      exact h
    · next hbar =>
      rw [if_neg hbar] at h
      simp only [EntryState.setSent, Function.update_apply]
      split
      · rfl
      · exact h
  · rw [if_neg heq]
    exact h

/-- What a counter call publishes is in the group whose barrier it brought down. -/
theorem mem_publishedBy {g count i : ℕ}
    (hi : i ∈ c.publishedBy node g (σ.fetchDec c slot gen node g count).1) :
    ¬ Locked c σ ⟨slot, node, i⟩ ∧ Locked c (σ.fetchDec c slot gen node g count).2 ⟨slot, node, i⟩ ∧
      i ∈ (c.entry node).groupRange g := by
  rw [Compiled.publishedBy, Shared.fetchDec_reply c hgen node g count] at hi
  split at hi
  · next hp =>
    obtain ⟨hbar, -, hpos, hdown⟩ := hp
    refine ⟨fun hlock => ?_, ?_, hi⟩
    · rw [Locked, if_pos hbar] at hlock
      have hzero : (σ.entryAt c slot node).remaining g = 0 := hlock g hi
      simp only at hpos
      omega
    · rw [Locked, if_pos hbar]
      intro g' hg'
      obtain rfl := (c.entry node).groupRange_unique hi hg'
      rw [Shared.entryAt_fetchDec c hgen node g count, if_pos ⟨rfl, rfl⟩]
      simp only [EntryState.setRemaining, Function.update_self]
      exact hdown
  · cases hi

/-- The call that sets the flag of an instance finds it clear. -/
theorem sent_of_trySend {idx : ℕ} (hbar : (c.entry node).hasBarrier = false)
    (hfired : (σ.trySend c slot gen node idx).1 = true) :
    ¬ Locked c σ ⟨slot, node, idx⟩ ∧ Locked c (σ.trySend c slot gen node idx).2 ⟨slot, node, idx⟩ := by
  refine ⟨fun hlock => ?_, ?_⟩
  · rw [Locked, if_neg (by simp [hbar])] at hlock
    rw [Shared.trySend_reply c hgen node idx] at hfired
    simp only at hlock
    rw [hlock] at hfired
    cases hfired
  · rw [Locked, if_neg (by simp [hbar]), Shared.entryAt_trySend c hgen node idx, if_pos ⟨rfl, rfl⟩]
    simp [EntryState.setSent]

end Locks

namespace Inv

/-- The generation under which a thread walks is that of its slot, and the thread is inside. -/
theorem serves (h : Inv c cfg guarded clean σ (l :: others)) {t : Ticket} {gen : UInt32}
    (hs : l.Serves t gen) : gen = (σ.slots t.slot).cells.slotGen ∧ t.slot ∈ l.inside := by
  obtain ⟨-, epoch, hst⟩ := hs
  obtain ⟨hin, hcur⟩ := h.stampOk _ _ hst
  exact ⟨congrArg Stamp.gen hcur, hin⟩

/-- What is released in the generation of a slot that the thread is inside is locked. -/
theorem locked (h : Inv c cfg guarded clean σ (l :: others)) {x : Cell} (hin : x.slot ∈ l.inside)
    (hx : x ∈ σ.ledger.released) (hcond : c.isCondition x.node = false)
    (hpreds : (c.nodeAt x.node).predIds ≠ []) : Locked c σ x :=
  h.words.locked x hx (h.claims.not_resetting List.mem_cons_self hin) hcond hpreds

/-- A word of a node with a condition is written, or a spawn count. -/
theorem writes (h : Inv c cfg guarded clean σ (l :: others)) {slot : ℕ} {cells : LazySlot}
    (hw : σ.Writes slot cells)
    (hentry : ∀ s n, c.isCondition n = false →
      (σ.setCells slot cells).entryAt c s n = σ.entryAt c s n)
    (hfan : cells.fanoutBulkArrived = (σ.slots slot).cells.fanoutBulkArrived) :
    Inv c cfg guarded clean (σ.setCells slot cells) (l :: others) := by
  refine h.alike rfl rfl rfl hw.alike (.refl l) h.stampOk ?_
  exact h.words.still (hw.inEpoch h.words.tags) (fun s => (hw.alike s).resetting) hentry
    (Shared.fanoutAt_setCells_of_fanout hw.gen hfan) (fun x hx => .inl hx) rfl rfl fun x => id

theorem spawnOne (h : Inv c cfg guarded clean σ (l :: others)) {t : Ticket} {gen : UInt32}
    (hs : l.Serves t gen) (node : ℕ) :
    Inv c cfg guarded clean
      (σ.setCells t.slot ((σ.slots t.slot).cells.spawnOneAt c.layout gen node)) (l :: others) := by
  have hw := Shared.spawnOne_writes c (h.serves hs).1 node
  exact h.writes hw (fun s n _ => Shared.entryAt_setCells_of_deps c hw.gen rfl s n) rfl

theorem incrementDependency (h : Inv c cfg guarded clean σ (l :: others)) {t : Ticket}
    {gen : UInt32} (hs : l.Serves t gen) {node : ℕ} (hcond : c.isCondition node = true) (idx : ℕ) :
    Inv c cfg guarded clean
      (σ.setCells t.slot ((σ.slots t.slot).cells.incrementAt c.layout gen node idx))
      (l :: others) := by
  refine h.writes (Shared.increment_writes c (h.serves hs).1 node idx) (fun s n hn => ?_) rfl
  refine Shared.entryAt_increment_of_ne c t.slot gen node idx fun heq => ?_
  rw [heq.2, hcond] at hn
  cases hn

theorem resetSent (h : Inv c cfg guarded clean σ (l :: others)) {t : Ticket} {gen : UInt32}
    (hs : l.Serves t gen) {node : ℕ} (hcond : c.isCondition node = true) (idx : ℕ) :
    Inv c cfg guarded clean
      (σ.setCells t.slot ((σ.slots t.slot).cells.resetSentAt c.layout gen node idx))
      (l :: others) := by
  refine h.writes (Shared.resetSent_writes c (h.serves hs).1 node idx) (fun s n hn => ?_) rfl
  refine Shared.entryAt_resetSent_of_ne c t.slot gen node idx fun heq => ?_
  rw [heq.2, hcond] at hn
  cases hn

/-! ## Published instances -/

/-- Instances that were not released become ready at the thread. -/
theorem publish (h : Inv c cfg guarded clean σ (l :: others)) {slot node : ℕ} {is : List ℕ}
    {cells : LazySlot} (hw : σ.Writes slot cells) (hin : slot ∈ l.inside)
    (hfresh : ∀ i ∈ is, (⟨slot, node, i⟩ : Cell) ∉ σ.ledger.released) (hnodup : is.Nodup)
    (hnode : node < c.graph.nodes.length) (hidx : ∀ i ∈ is, i < c.factor node)
    (hslots : σ'.slots = (σ.setCells slot cells).slots) (hqueue : σ'.queue = σ.queue)
    (hbatch : σ'.batchQueue = σ.batchQueue)
    (hledger : σ'.ledger = σ.ledger.release (is.map (Cell.mk slot node)))
    (hkeeps : ∀ x, c.isCondition x.node = false → Locked c σ x → Locked c σ' x)
    (hnew : c.isCondition node = false → ∀ i ∈ is, Locked c σ' ⟨slot, node, i⟩)
    (hfan : ∀ s n, σ'.fanoutAt s n = σ.fanoutAt s n) :
    Inv c cfg guarded clean σ' (l.addReady slot node is :: others) := by
  have halike : ∀ s, (σ.slots s).Alike (σ'.slots s) := fun s => hslots ▸ hw.alike s
  have hflag := h.claims.not_resetting List.mem_cons_self hin
  have hreleased : ∀ x ∈ σ'.ledger.released, x ∈ σ.ledger.released ∨ x.slot = slot ∧
      ∃ i ∈ is, x = ⟨slot, node, i⟩ := by
    intro x hx
    rw [hledger] at hx
    rcases List.mem_append.mp hx with hx | hx
    · obtain ⟨i, hi, rfl⟩ := List.mem_map.mp hx
      exact .inr ⟨rfl, i, hi, rfl⟩
    · exact .inl hx
  have hretired : σ'.ledger.retired = σ.ledger.retired := by rw [hledger]; rfl
  have hfired : σ'.ledger.fired = σ.ledger.fired := by rw [hledger]; rfl
  have harrived : σ'.ledger.arrived = σ.ledger.arrived := by rw [hledger]; rfl
  have hexecuted : σ'.ledger.executed = σ.ledger.executed := by rw [hledger]; rfl
  have hgrant : ∀ x, Granted c σ x → Granted c σ' x := fun x hx => by rw [Granted, hledger]; exact hx
  have hlate : ∀ x ∈ late σ (l :: others), x ∈ late σ' (l.addReady slot node is :: others) :=
    late_same (fun _ => id) (fun _ => id) hqueue hbatch fun x hx => hretired ▸ hx
  refine ⟨?_, ?_, h.brackets.alike rfl halike, h.counters.still hretired
    (fun s => (halike s).pendingTasks) (fun s => (halike s).pendingCondTasks), ?_, ?_,
    fun hclean s hun => ?_, fun hg => ?_⟩
  · apply h.accounts.step
    · rw [Phase.live_addReady, hledger, hqueue, hbatch]
      simp only [Ledger.release, ← Multiset.coe_add]
      ext x
      simp only [Multiset.count_add]
      omega
    · rw [hledger, hbatch]
      rfl
    · rw [hledger]
      refine List.Nodup.append (hnodup.map fun _ _ heq => (Cell.mk.inj heq).2.2) h.accounts.nodup ?_
      intro x hx hold
      obtain ⟨i, hi, rfl⟩ := List.mem_map.mp hx
      exact hfresh i hi hold
    · intro x hx
      rcases hreleased x hx with hx | ⟨-, i, hi, rfl⟩
      · exact h.accounts.bounded x hx
      · exact ⟨hnode, hidx i hi⟩
  · exact h.tickets.step (fun s _ => (halike s).stamp) (fun x _ hx => hretired ▸ hx)
      (fun t ht => .inl (hqueue ▸ ht)) (fun t ht => .inl (hbatch ▸ ht))
      fun hl => ⟨hl.hand, hl.served, hl.inside, hl.once, hl.stamp⟩
  · refine h.words.step (fun s => ?_) (fun s => (halike s).resetting) hkeeps (fun x hx => ?_)
      (fun s n hf hnot => ?_) fun s n hf x hx => ?_
    · rw [hslots]
      exact hw.inEpoch h.words.tags s
    · refine (hreleased x hx).imp_right ?_
      rintro ⟨-, i, hi, rfl⟩ hcond -
      exact hnew hcond i hi
    · rw [hfan, arrivedAt, harrived]
      exact h.words.waiting s n hf (hfired ▸ hnot)
    · exact hlate x (h.words.fired s n (hfired ▸ hf) x hx)
  · refine h.claims.step h.accounts (.inl rfl) (fun s => (halike s).completed)
      (fun s => (halike s).resetting) (advances_of_grows (fun x hx => hretired ▸ hx) (fun x hx => ?_)
        (fun p hp => .inl (hfired ▸ hp)) rfl fun s => (halike s).resetting)
    refine (hreleased x hx).imp_right ?_
    rintro ⟨hslot, -⟩
    exact hslot ▸ hflag
  · refine (h.awake hclean s (hun.before_step (fun x hx _ => hretired ▸ hx) id (halike s).resetting
      id)).keep (.inr rfl) (halike s).needsCheck
  · exact (h.grants hg).still hgrant hqueue hbatch hexecuted fun hlg => ⟨hlg.hand, hlg.passed⟩

/-- A counter call lowers a group, and publishes it if the barrier came down. -/
theorem fetchDec (h : Inv c cfg guarded clean σ (l :: others)) (hrun : Runnable c) {t : Ticket}
    {gen : UInt32} {node g count : ℕ} (hs : l.Serves t gen)
    (hnode : node ∈ c.graph.successors t.info.id)
    (hok : ConditionsOnce c σ (.fetchDec t gen node g count)) :
    Inv c cfg guarded clean (σ.fetchDec c t.slot gen node g count).2
      (l.addReady t.slot node (c.publishedBy node g (σ.fetchDec c t.slot gen node g count).1) ::
        others) := by
  obtain ⟨hgen, hin⟩ := h.serves hs
  obtain ⟨hlt, hpreds⟩ := hrun.successors hnode
  refine h.publish (Shared.fetchDec_writes c hgen node g count) hin ?_ ?_ hlt ?_ rfl rfl rfl rfl
    (fun x _ hlock => hlock.fetchDec hgen) ?_
    (Shared.fanoutAt_setCells_of_fanout (Shared.fetchDec_writes c hgen node g count).gen rfl)
  · intro i hi hrel
    cases hcond : c.isCondition node with
    | true => exact hok hcond i hi hrel
    | false => exact (mem_publishedBy hgen hi).1 (h.locked hin hrel hcond hpreds)
  · rw [Compiled.publishedBy]
    split
    · exact (c.entry node).groupRange_nodup g
    · exact List.nodup_nil
  · exact fun i hi => (c.entry node).groupRange_lt_factor (mem_publishedBy hgen hi).2.2
  · exact fun _ i hi => (mem_publishedBy hgen hi).2.1

/-- The flag of an instance is set, by the call that sends it. -/
theorem trySend (h : Inv c cfg guarded clean σ (l :: others)) (hrun : Runnable c) {t : Ticket}
    {gen : UInt32} {node idx : ℕ} (hs : l.Serves t gen)
    (hnode : node ∈ c.graph.successors t.info.id) (hidx : idx < c.factor node)
    (hflags : (c.entry node).hasBarrier = true → (c.entry node).isCondition = true)
    (hok : ConditionsOnce c σ (.trySend t gen node idx)) :
    Inv c cfg guarded clean (σ.trySend c t.slot gen node idx).2
      ((if (σ.trySend c t.slot gen node idx).1 then l.addReady t.slot node [idx] else l) ::
        others) := by
  obtain ⟨hgen, hin⟩ := h.serves hs
  obtain ⟨hlt, hpreds⟩ := hrun.successors hnode
  have hbarrier : c.isCondition node = false → (c.entry node).hasBarrier = false := by
    intro hcond
    by_contra hbar
    have hown := hflags (Bool.eq_true_of_not_eq_false hbar)
    have hnet : c.isNetworkNode node = false := by
      by_contra hnet
      exact hpreds (hrun.network (Bool.eq_true_of_not_eq_false hnet)).2
    rw [hrun.conditions hown hnet] at hcond
    cases hcond
  have hwrites := Shared.trySend_writes c hgen node idx
  have hcase : (σ.trySend c t.slot gen node idx).2.ledger =
      if (σ.trySend c t.slot gen node idx).1 then σ.ledger.release [⟨t.slot, node, idx⟩]
      else σ.ledger := rfl
  cases hfired : (σ.trySend c t.slot gen node idx).1 with
  | true =>
    have hledger : (σ.trySend c t.slot gen node idx).2.ledger =
        σ.ledger.release ([idx].map (Cell.mk t.slot node)) := hcase.trans (if_pos hfired)
    refine h.publish hwrites hin ?_ (List.nodup_singleton idx) hlt ?_ rfl rfl rfl hledger
      (fun x _ hlock => hlock.trySend hgen) ?_ (Shared.fanoutAt_setCells_of_fanout hwrites.gen rfl)
    · intro i hi hrel
      obtain rfl := List.mem_singleton.mp hi
      cases hcond : c.isCondition node with
      | true => exact hok hcond hfired hrel
      | false =>
        exact (sent_of_trySend hgen (hbarrier hcond) hfired).1 (h.locked hin hrel hcond hpreds)
    · intro i hi
      obtain rfl := List.mem_singleton.mp hi
      exact hidx
    · intro hcond i hi
      obtain rfl := List.mem_singleton.mp hi
      exact (sent_of_trySend hgen (hbarrier hcond) hfired).2
  | false =>
    have hledger : (σ.trySend c t.slot gen node idx).2.ledger = σ.ledger := by
      rw [hcase, hfired]
      rfl
    have hlate : ∀ x ∈ late σ (l :: others),
        x ∈ late (σ.trySend c t.slot gen node idx).2 (l :: others) :=
      late_same (fun _ => id) (fun _ => id) rfl rfl fun y hy => by rw [hledger]; exact hy
    refine h.alike hledger rfl rfl hwrites.alike (.refl l) h.stampOk ?_
    refine h.words.step (hwrites.inEpoch h.words.tags) (fun s => (hwrites.alike s).resetting)
      (fun x _ hlock => hlock.trySend hgen) (fun x hx => .inl (hledger ▸ hx)) (fun s n hf hnot => ?_) fun s n hf x hx => ?_
    · rw [arrivedAt, hledger]
      refine le_trans (le_of_eq ?_) (h.words.waiting s n hf (hledger ▸ hnot))
      exact Shared.fanoutAt_setCells_of_fanout hwrites.gen rfl s n
    · rw [hledger] at hf
      exact hlate x (h.words.fired s n hf x hx)

end Inv

end Tomii
