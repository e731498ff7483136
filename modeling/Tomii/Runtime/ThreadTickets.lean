import Tomii.Runtime.ThreadAccounts

/-! # Tasks of the current generation

A task that is queued or in hand carries the generation of its slot, because a generation only ends
when nothing of the slot is left. The brackets of `processing_count`, the pending counters and the
evaluated conditions follow the tasks. -/
namespace Tomii
set_option autoImplicit false
set_option maxHeartbeats 250000

variable {c : Compiled} {σ σ' : Shared} {l l' : Phase} {ls others : List Phase}

/-! ## Tickets -/

/-- A task or a bracket of the slot is under way. -/
def Busy (σ : Shared) (ls : List Phase) (slot : ℕ) : Prop :=
  (∃ t ∈ σ.queue, t.slot = slot) ∨ (∃ t ∈ σ.batchQueue, t.slot = slot) ∨
    ∃ l ∈ ls, slot ∈ l.inside ∨ ∃ p ∈ l.hand, p.1.slot = slot

theorem Ticket.Current.keep {t : Ticket} (h : t.Current c σ)
    (hstamp : (σ'.slots t.slot).stamp = (σ.slots t.slot).stamp) : t.Current c σ' where
  nonempty := h.nonempty
  epoch := h.epoch.trans (congrArg Stamp.epoch hstamp).symm
  gen := fun hnet => (h.gen hnet).trans (congrArg Stamp.gen hstamp).symm

theorem PhaseTickets.keep (h : PhaseTickets c σ l)
    (hstamp : ∀ s, (s ∈ l.inside ∨ ∃ p ∈ l.hand, p.1.slot = s) →
      (σ'.slots s).stamp = (σ.slots s).stamp)
    (hretired : ∀ x, x.slot ∈ l.inside → x ∈ σ.ledger.retired → x ∈ σ'.ledger.retired) :
    PhaseTickets c σ' l where
  hand := fun p hp => (h.hand p hp).keep (hstamp _ (.inr ⟨p, hp, rfl⟩))
  served := by
    intro t ht
    obtain ⟨hin, hepoch, hpos, hcells⟩ := h.served t ht
    refine ⟨hin, hepoch.trans (congrArg Stamp.epoch (hstamp _ (.inl hin))).symm, hpos, ?_⟩
    intro x hx
    exact hretired x ((Ticket.mem_cells.mp hx).1 ▸ hin) (hcells x hx)
  inside := h.inside
  once := h.once
  stamp := by
    intro slot st hst
    obtain ⟨hin, hcur⟩ := h.stamp slot st hst
    exact ⟨hin, hcur.trans (hstamp _ (.inl hin)).symm⟩

namespace Tickets

theorem perm (h : Tickets c σ ls) {ls' : List Phase} (hp : ls.Perm ls') : Tickets c σ ls' :=
  ⟨h.queue, h.batchQueue, fun l hl => h.phases l (hp.mem_iff.mpr hl)⟩

/-- A step keeps the stamps of busy slots, and what it queues is current. -/
theorem step (h : Tickets c σ (l :: others))
    (hstamp : ∀ s, Busy σ (l :: others) s → (σ'.slots s).stamp = (σ.slots s).stamp)
    (hretired : ∀ x, Busy σ (l :: others) x.slot → x ∈ σ.ledger.retired → x ∈ σ'.ledger.retired)
    (hqueue : ∀ t ∈ σ'.queue, t ∈ σ.queue ∨ t.Current c σ' ∧ c.isNetworkNode t.info.id = false)
    (hbatch : ∀ t ∈ σ'.batchQueue,
      t ∈ σ.batchQueue ∨ t.Current c σ' ∧ c.isNetworkNode t.info.id = false)
    (hl : PhaseTickets c σ' l → PhaseTickets c σ' l') : Tickets c σ' (l' :: others) where
  queue := by
    intro t ht
    rcases hqueue t ht with hold | hnew
    · obtain ⟨hcur, hnet⟩ := h.queue t hold
      exact ⟨hcur.keep (hstamp _ (.inl ⟨t, hold, rfl⟩)), hnet⟩
    · exact hnew
  batchQueue := by
    intro t ht
    rcases hbatch t ht with hold | hnew
    · obtain ⟨hcur, hnet⟩ := h.batchQueue t hold
      exact ⟨hcur.keep (hstamp _ (.inr (.inl ⟨t, hold, rfl⟩))), hnet⟩
    · exact hnew
  phases := by
    have hkeep : ∀ m ∈ l :: others, PhaseTickets c σ' m := fun m hm =>
      (h.phases m hm).keep (fun s hs => hstamp s (.inr (.inr ⟨m, hm, hs⟩)))
        fun x hx => hretired x (.inr (.inr ⟨m, hm, .inl hx⟩))
    intro m hm
    rcases List.mem_cons.mp hm with rfl | hm
    · exact hl (hkeep l List.mem_cons_self)
    · exact hkeep m (List.mem_cons_of_mem _ hm)

/-- A slot whose released instances are all retired, and that nobody is inside, is idle. -/
theorem not_busy (h : Tickets c σ ls) (hacc : Accounts c σ ls) {slot : ℕ}
    (hsettled : ∀ x ∈ σ.ledger.released, x.slot = slot → x ∈ σ.ledger.retired)
    (hnone : NoneInside ls slot) : ¬ Busy σ ls slot := by
  have hgone : ∀ t : Ticket, 1 ≤ t.info.bulkCount → t.slot = slot →
      ¬ ∀ x ∈ t.cells, x ∈ outstanding σ ls := by
    intro t hpos hslot hout
    have hhead := hout _ (NodeInfo.head_mem_cells hpos)
    exact hacc.not_retired hhead (hsettled _ (hacc.released_of_outstanding hhead) hslot)
  rintro (⟨t, ht, hslot⟩ | ⟨t, ht, hslot⟩ | ⟨l, hl, hin | ⟨p, hp, hslot⟩⟩)
  · refine hgone t (h.queue t ht).1.nonempty hslot fun x hx => ?_
    exact mem_outstanding.mpr (.inr (.inr (.inl ⟨t, ht, hx⟩)))
  · refine hgone t (h.batchQueue t ht).1.nonempty hslot fun x hx => ?_
    exact mem_outstanding.mpr (.inr (.inr (.inr ⟨t, ht, hx⟩)))
  · exact hnone l hl hin
  · refine hgone p.1 ((h.phases l hl).hand p hp).nonempty hslot fun x hx => ?_
    refine mem_outstanding.mpr (.inl ⟨l, hl, ?_⟩)
    exact Multiset.mem_add.mpr (.inr (Multiset.mem_bind.mpr ⟨p, hp, hx⟩))

end Tickets

theorem mem_live_of_hand {p : Ticket × ℕ} (hp : p ∈ l.hand) {x : Cell} (hx : x ∈ p.1.cells) :
    x ∈ l.live :=
  Multiset.mem_add.mpr (.inr (Multiset.mem_bind.mpr ⟨p, hp, hx⟩))

/-! ## Brackets -/

theorem count_le_one (h : Tickets c σ ls) (slot : ℕ) :
    total (fun l => l.inside.count slot) ls ≤ ls.length := by
  have honce : ∀ l ∈ ls, l.inside.count slot ≤ 1 := fun l hl =>
    Multiset.nodup_iff_count_le_one.mp (h.phases l hl).once slot
  clear h
  induction ls with
  | nil => exact le_rfl
  | cons l ls ih =>
    have hhead := honce l List.mem_cons_self
    have htail := ih fun m hm => honce m (List.mem_cons_of_mem _ hm)
    rw [total_cons, List.length_cons]
    omega

theorem total_inside_eq_zero {slot : ℕ} (h : total (fun l => l.inside.count slot) ls = 0) :
    NoneInside ls slot := by
  induction ls with
  | nil => exact fun _ hl => (nomatch hl)
  | cons l ls ih =>
    rw [total_cons] at h
    intro m hm
    rcases List.mem_cons.mp hm with rfl | hm
    · exact Multiset.count_eq_zero.mp (by omega)
    · exact ih (by omega) m hm

theorem total_inside_of_none {slot : ℕ} (h : NoneInside ls slot) :
    total (fun l => l.inside.count slot) ls = 0 := by
  induction ls with
  | nil => rfl
  | cons l ls ih =>
    rw [total_cons, Multiset.count_eq_zero.mpr (h l List.mem_cons_self),
      ih fun m hm => h m (List.mem_cons_of_mem _ hm)]

namespace Brackets

theorem perm (h : Brackets σ ls) {ls' : List Phase} (hp : ls.Perm ls') : Brackets σ ls' := by
  refine ⟨fun slot => ?_, hp.length_eq ▸ h.threads⟩
  rw [← total_perm _ hp]
  exact h.count slot

theorem still (h : Brackets σ (l :: others)) (hinside : l'.inside = l.inside)
    (hcount : ∀ s, (σ'.slots s).processingCount = (σ.slots s).processingCount) :
    Brackets σ' (l' :: others) := by
  refine ⟨fun slot => ?_, h.threads⟩
  rw [hcount, h.count, total_cons, total_cons, hinside]

/-- `processing_count` is zero only when nobody is inside. -/
theorem none_of_zero (h : Brackets σ ls) (ht : Tickets c σ ls) {slot : ℕ}
    (hzero : (σ.slots slot).processingCount = 0) : NoneInside ls slot := by
  apply total_inside_eq_zero
  have hle := count_le_one ht slot
  have hlt := h.threads
  have hcount := congrArg UInt64.toNat ((h.count slot).symm.trans hzero)
  rw [UInt64.toNat_ofNat', Nat.mod_eq_of_lt (by omega)] at hcount
  exact hcount

theorem zero_of_none (h : Brackets σ ls) {slot : ℕ} (hnone : NoneInside ls slot) :
    (σ.slots slot).processingCount = 0 := by
  rw [h.count, total_inside_of_none hnone]
  rfl

end Brackets

end Tomii
