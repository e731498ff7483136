import Tomii.Runtime.ThreadReleases

/-! # Fanout arrivals and the sources of a frame

Instances that arrive at a fanout-bulk counter wait there until the counter says that all of them
have arrived, and then they are all of the node's. Initial tasks and packets enter a slot once in a
generation; the bump of an activation finds nothing in it. -/
namespace Tomii
set_option autoImplicit false
set_option maxHeartbeats 250000

variable {c : Compiled} {cfg : Config} {guarded clean : Prop} {σ σ' : Shared} {l l' : Phase}
  {ls others : List Phase}

/-! ## Fanout arrivals -/

theorem mem_arrivedAt {slot node : ℕ} {x : Cell} :
    x ∈ arrivedAt σ slot node ↔ x ∈ σ.ledger.arrived ∧ x.slot = slot ∧ x.node = node := by
  simp [arrivedAt]

@[simp] theorem Ledger.arrive_retired (ledger : Ledger) (slot node : ℕ) (ready : List ℕ)
    (fires : Bool) : (ledger.arrive slot node ready fires).retired = ledger.retired := by
  unfold Ledger.arrive
  split <;> rfl

theorem fans_isFanoutBulk {node : ℕ} (h : c.fans cfg node = true) : c.isFanoutBulk node = true := by
  simp only [Compiled.fans, Bool.and_eq_true] at h
  exact h.1.1

/-- Outstanding or retired instances are ready, on record as arrived, or dispatched. -/
theorem outstanding_split : outstanding σ ls + (σ.ledger.retired : Multiset Cell) =
    total (·.ready) ls + (σ.ledger.arrived : Multiset Cell) + late σ ls := by
  have hlive : total Phase.live ls = total (·.ready) ls +
      total (fun l => l.outgoing + l.hand.bind fun p => (p.1.cells : Multiset Cell)) ls := by
    induction ls with
    | nil => rfl
    | cons l ls ih =>
      rw [total_cons, total_cons, total_cons, ih]
      ext x
      simp only [Phase.live, Multiset.count_add]
      omega
  rw [outstanding, late, hlive]
  ext x
  simp only [Multiset.count_add]
  omega

namespace Accounts

variable (h : Accounts c σ ls)

include h

theorem split_nodup :
    (total (·.ready) ls + (σ.ledger.arrived : Multiset Cell) + late σ ls).Nodup := by
  rw [← outstanding_split]
  exact h.placed_nodup

/-- What is ready has not been dispatched. -/
theorem not_late {x : Cell} (hx : ∃ l ∈ ls, x ∈ l.ready) : x ∉ late σ ls := by
  have hdisj := (Multiset.nodup_add.mp h.split_nodup).2.2
  refine Multiset.disjoint_left.mp hdisj (Multiset.mem_add.mpr (.inl ?_))
  exact mem_total.mpr hx

theorem bounded_ready {x : Cell} (hx : ∃ l ∈ ls, x ∈ l.ready) : x.idx < c.factor x.node := by
  refine (h.bounded x (h.released_of_outstanding ?_)).2
  obtain ⟨l, hl, hx⟩ := hx
  exact mem_outstanding.mpr (.inl ⟨l, hl, Multiset.mem_add.mpr (.inl (Multiset.mem_add.mpr (.inl hx)))⟩)

theorem bounded_arrived {x : Cell} (hx : x ∈ σ.ledger.arrived) : x.idx < c.factor x.node :=
  (h.bounded x (h.released_of_outstanding (mem_outstanding.mpr (.inr (.inl hx))))).2

end Accounts

/-- As many ready and arrived instances as the node has are all of them. -/
theorem Accounts.all_arrived (h : Accounts c σ (l :: others)) {slot node : ℕ} {ready : List ℕ}
    (hready : (ready.map (Cell.mk slot node) : Multiset Cell) ≤ l.ready)
    (hcount : c.factor node ≤ (arrivedAt σ slot node).length + ready.length) :
    (c.allCells slot node).Perm (arrivedAt σ slot node ++ ready.map (Cell.mk slot node)) := by
  have hmem : ∀ x ∈ ready.map (Cell.mk slot node), ∃ m ∈ l :: others, x ∈ m.ready := fun x hx =>
    ⟨l, List.mem_cons_self, Multiset.mem_of_le hready hx⟩
  have hnodup : (arrivedAt σ slot node ++ ready.map (Cell.mk slot node)).Nodup := by
    have hparts := (Multiset.nodup_add.mp h.split_nodup).1
    rw [total_cons] at hparts
    have hle : (arrivedAt σ slot node : Multiset Cell) + (ready.map (Cell.mk slot node)) ≤
        l.ready + total (·.ready) others + (σ.ledger.arrived : Multiset Cell) := by
      rw [add_comm]
      refine add_le_add (hready.trans (Multiset.le_add_right _ _)) ?_
      exact Multiset.coe_le.mpr List.filter_sublist.subperm
    exact Multiset.coe_nodup.mp (Multiset.nodup_of_le hle hparts)
  have hsub : ∀ x ∈ arrivedAt σ slot node ++ ready.map (Cell.mk slot node),
      x ∈ c.allCells slot node := by
    intro x hx
    rcases List.mem_append.mp hx with hx | hx
    · obtain ⟨harr, rfl, rfl⟩ := mem_arrivedAt.mp hx
      exact c.mem_allCells.mpr ⟨rfl, rfl, h.bounded_arrived harr⟩
    · have hidx := h.bounded_ready (hmem x hx)
      obtain ⟨i, -, rfl⟩ := List.mem_map.mp hx
      exact c.mem_allCells.mpr ⟨rfl, rfl, hidx⟩
  refine ((hnodup.subperm hsub).perm_of_length_le ?_).symm
  rw [c.allCells_length, List.length_append, List.length_map]
  exact hcount

namespace Inv

/-- Instances of a slot that the thread is inside go from its hands to the record of arrivals, or from
there to it; a fanout-bulk counter is written. -/
theorem arrives (h : Inv c cfg guarded clean σ (l :: others)) {slot : ℕ} {cells : LazySlot}
    {ready outgoing : Multiset Cell} {arrived : List Cell} {fired : List (ℕ × ℕ)}
    (hin : slot ∈ l.inside) (hw : σ.Writes slot cells)
    (hdeps : cells.deps = (σ.slots slot).cells.deps)
    (hmoved : ready + outgoing + (arrived : Multiset Cell) =
      l.ready + l.outgoing + (σ.ledger.arrived : Multiset Cell))
    (hfired : ∀ p ∈ fired, p ∈ σ.ledger.fired ∨ p.1 = slot)
    (hslots : σ'.slots = (σ.setCells slot cells).slots) (hqueue : σ'.queue = σ.queue)
    (hbatch : σ'.batchQueue = σ.batchQueue)
    (hledger : σ'.ledger = { σ.ledger with arrived := arrived, fired := fired })
    (hwaiting : ∀ s n, c.fans cfg n = true → (s, n) ∉ σ'.ledger.fired →
      σ'.fanoutAt s n ≤ (arrivedAt σ' s n).length)
    (hdispatched : ∀ s n, (s, n) ∈ σ'.ledger.fired → ∀ x ∈ c.allCells s n,
      x ∈ late σ' ({ l with ready := ready, outgoing := outgoing } :: others)) :
    Inv c cfg guarded clean σ' ({ l with ready := ready, outgoing := outgoing } :: others) := by
  have halike : ∀ s, (σ.slots s).Alike (σ'.slots s) := fun s => hslots ▸ hw.alike s
  have hflag := h.claims.not_resetting List.mem_cons_self hin
  have hretired : σ'.ledger.retired = σ.ledger.retired := by rw [hledger]
  have hreleased : σ'.ledger.released = σ.ledger.released := by rw [hledger]
  refine ⟨?_, ?_, h.brackets.alike rfl halike, h.counters.still hretired
    (fun s => (halike s).pendingTasks) (fun s => (halike s).pendingCondTasks), ?_, ?_,
    fun hclean s hun => ?_, fun hg => ?_⟩
  · apply h.accounts.step
    · rw [hledger, hqueue, hbatch]
      ext x
      have hcount := congrArg (Multiset.count x) hmoved
      simp only [Phase.live, Multiset.count_add] at hcount ⊢
      omega
    · rw [hledger, hbatch]
      rfl
    · rw [hledger]
      exact h.accounts.nodup
    · rw [hledger]
      exact h.accounts.bounded
  · exact h.tickets.step (fun s _ => (halike s).stamp) (fun x _ hx => hretired ▸ hx)
      (fun t ht => .inl (hqueue ▸ ht)) (fun t ht => .inl (hbatch ▸ ht))
      fun hl => ⟨hl.hand, hl.served, hl.inside, hl.once, hl.stamp⟩
  · refine h.words.step (fun s => ?_) (fun s => (halike s).resetting)
      (fun x _ => Words.locked_congr ?_) (fun x hx => .inl (hreleased ▸ hx)) hwaiting hdispatched
    · rw [hslots]
      exact hw.inEpoch h.words.tags s
    · have hentry := Shared.entryAt_setCells_of_deps c hw.gen hdeps x.slot x.node
      simp only [Shared.entryAt, hslots] at hentry ⊢
      exact hentry
  · refine h.claims.step h.accounts (.inl rfl) (fun s => (halike s).completed)
      (fun s => (halike s).resetting) (advances_of_grows (fun x hx => hretired ▸ hx)
        (fun x hx => .inl (hreleased ▸ hx)) (fun p hp => ?_) rfl fun s => (halike s).resetting)
    rw [hledger] at hp
    refine (hfired p hp).imp_right fun heq => ?_
    rw [heq]
    exact hflag
  · refine (h.awake hclean s (hun.before_step (fun x hx _ => hretired ▸ hx) id (halike s).resetting
      id)).keep (.inr rfl) (halike s).needsCheck
  · refine (h.grants hg).still (fun x hx => ?_) hqueue hbatch (by rw [hledger])
      fun hlg => ⟨hlg.hand, hlg.passed⟩
    rw [Granted, hledger]
    exact hx

/-- Ready instances arrive; the last arrival dispatches the whole node. -/
theorem arriveFanout (h : Inv c cfg guarded clean σ (l :: others)) (hrun : Runnable c) {t : Ticket}
    {gen : UInt32} {node : ℕ} {ready : List ℕ} (hs : l.Serves t gen)
    (hfans : c.fans cfg node = true) (hne : ready ≠ [])
    (hready : (ready.map (Cell.mk t.slot node) : Multiset Cell) ≤ l.ready) :
    Inv c cfg guarded clean (σ.arriveFanout c t.slot gen node ready).2
      ({ l with
        ready := l.ready - (ready.map (Cell.mk t.slot node) : Multiset Cell)
        outgoing :=
          if (asU32 (c.factor node)).toNat ≤ (σ.arriveFanout c t.slot gen node ready).1
          then l.outgoing + (c.allCells t.slot node : Multiset Cell) else l.outgoing } ::
        others) := by
  obtain ⟨hgen, hin⟩ := h.serves hs
  have hw := Shared.fanout_writes (σ := σ) hgen node ready.length
  have hreply := Shared.arriveFanout_reply (σ := σ) hgen c node ready
  have hfanout := Shared.fanoutAt_arriveFanout (σ := σ) hgen c node ready
  have hcase : (σ.arriveFanout c t.slot gen node ready).2.ledger = σ.ledger.arrive t.slot node
      ready ((asU32 (c.factor node)).toNat ≤ (σ.arriveFanout c t.slot gen node ready).1) := rfl
  have hfactor : (asU32 (c.factor node)).toNat = c.factor node := by
    rw [asU32_toNat]
    exact Nat.mod_eq_of_lt (hrun.fanout (fans_isFanoutBulk hfans))
  -- a node that has been dispatched has no ready instance left
  have hwait : (t.slot, node) ∉ σ.ledger.fired := by
    intro hfired
    obtain ⟨i, hi⟩ := List.exists_mem_of_ne_nil ready hne
    have hown : ∃ m ∈ l :: others, (⟨t.slot, node, i⟩ : Cell) ∈ m.ready :=
      ⟨l, List.mem_cons_self, Multiset.mem_of_le hready (List.mem_map_of_mem hi)⟩
    exact h.accounts.not_late hown (h.words.fired _ _ hfired _
      (c.mem_allCells.mpr ⟨rfl, rfl, h.accounts.bounded_ready hown⟩))
  have hlow := h.words.waiting t.slot node hfans hwait
  have hlate : ∀ ready' outgoing', (∀ x ∈ l.outgoing, x ∈ outgoing') → ∀ x ∈ late σ (l :: others),
      x ∈ late (σ.arriveFanout c t.slot gen node ready).2
        ({ l with ready := ready', outgoing := outgoing' } :: others) := fun ready' outgoing' hout => by
    refine late_same hout (fun _ => id) rfl rfl fun x hx => ?_
    rwa [hcase, Ledger.arrive_retired]
  by_cases hfires : (asU32 (c.factor node)).toNat ≤ (σ.arriveFanout c t.slot gen node ready).1
  · have hall := h.accounts.all_arrived hready (by rw [hreply, hfactor] at hfires; omega)
    have hledger : (σ.arriveFanout c t.slot gen node ready).2.ledger = { σ.ledger with
        arrived := σ.ledger.arrived.filter fun x => ¬ (x.slot = t.slot ∧ x.node = node)
        fired := (t.slot, node) :: σ.ledger.fired } := by
      rw [hcase, Ledger.arrive, if_pos (decide_eq_true hfires)]
    rw [if_pos hfires]
    refine h.arrives hin hw rfl ?_ (fun p hp => ?_) rfl rfl rfl hledger (fun s n hf hnot => ?_)
      fun s n hf x hx => ?_
    · have hperm := Multiset.coe_eq_coe.mpr hall
      rw [← Multiset.coe_add] at hperm
      have hparts := List.filter_append_perm (fun x => x.slot = t.slot ∧ x.node = node)
        σ.ledger.arrived
      ext x
      have hcount := congrArg (Multiset.count x) hperm
      have hrest := hparts.count_eq x
      obtain ⟨rest, hle⟩ := Multiset.le_iff_exists_add.mp hready
      rw [hle, add_tsub_cancel_left]
      simp only [Multiset.count_add, Multiset.coe_count, List.count_append, arrivedAt,
        decide_not] at hcount hrest ⊢
      omega
    · rcases List.mem_cons.mp hp with rfl | hp
      · exact .inr rfl
      · exact .inl hp
    · rw [hledger] at hnot
      have hother : ¬ (s = t.slot ∧ n = node) := by
        rintro ⟨rfl, rfl⟩
        exact hnot List.mem_cons_self
      have hle := hfanout s n
      rw [if_neg hother] at hle
      refine hle.trans ((h.words.waiting s n hf fun hm => hnot (List.mem_cons_of_mem _ hm)).trans ?_)
      rw [arrivedAt, arrivedAt, hledger, List.filter_filter]
      refine le_of_eq (congrArg List.length (List.filter_congr fun x _ => ?_))
      by_cases hx : x.slot = s ∧ x.node = n
      · obtain ⟨rfl, rfl⟩ := hx
        simp [hother]
      · simp [hx]
    · rw [hledger] at hf
      rcases List.mem_cons.mp hf with heq | hf
      · obtain ⟨rfl, rfl⟩ := Prod.mk.inj heq
        exact mem_late.mpr (.inl ⟨_, List.mem_cons_self,
          .inl (Multiset.mem_add.mpr (.inr (Multiset.mem_coe.mpr hx)))⟩)
      · exact hlate _ _ (fun y hy => Multiset.mem_add.mpr (.inl hy)) x
          (h.words.fired s n hf x hx)
  · have hledger : (σ.arriveFanout c t.slot gen node ready).2.ledger = { σ.ledger with
        arrived := ready.map (Cell.mk t.slot node) ++ σ.ledger.arrived
        fired := σ.ledger.fired } := by
      rw [hcase, Ledger.arrive, if_neg (by simpa using hfires)]
    rw [if_neg hfires]
    refine h.arrives hin hw rfl ?_ (fun p hp => .inl hp) rfl rfl rfl hledger (fun s n hf hnot => ?_)
      fun s n hf x hx => ?_
    · obtain ⟨rest, hle⟩ := Multiset.le_iff_exists_add.mp hready
      rw [hle, add_tsub_cancel_left]
      ext x
      simp only [← Multiset.coe_add, Multiset.count_add]
      omega
    · rw [hledger] at hnot
      have hle := hfanout s n
      have hold := h.words.waiting s n hf hnot
      have hlength : (arrivedAt (σ.arriveFanout c t.slot gen node ready).2 s n).length =
          (if s = t.slot ∧ n = node then ready.length else 0) + (arrivedAt σ s n).length := by
        rw [arrivedAt, hledger, List.filter_append, List.length_append, arrivedAt]
        congr 1
        split
        · next heq =>
          rw [List.filter_eq_self.mpr, List.length_map]
          intro x hx
          obtain ⟨i, -, rfl⟩ := List.mem_map.mp hx
          simp [heq.1, heq.2]
        · next hother =>
          rw [List.filter_eq_nil_iff.mpr, List.length_nil]
          intro x hx hsel
          obtain ⟨i, -, rfl⟩ := List.mem_map.mp hx
          obtain ⟨rfl, rfl⟩ := of_decide_eq_true hsel
          exact hother ⟨rfl, rfl⟩
      rw [hlength]
      split at hle
      · next heq =>
        rw [if_pos heq]
        obtain ⟨rfl, rfl⟩ := heq
        omega
      · next hother =>
        rw [if_neg hother]
        omega
    · rw [hledger] at hf
      exact hlate _ _ (fun y hy => hy) x (h.words.fired s n hf x hx)

/-! ## Sources -/

/-- Instances without predecessors enter a slot for the first time, in a queue or in hand. -/
theorem source (h : Inv c cfg guarded clean σ (l :: others)) {slot : ℕ} {cells executed : List Cell}
    {hand : Multiset (Ticket × ℕ)} (hflag : (σ.slots slot).resetting = false)
    (hcells : ∀ x ∈ cells, x.slot = slot ∧ x.node < c.graph.nodes.length ∧
      x.idx < c.factor x.node ∧ (c.nodeAt x.node).predIds = [])
    (hnodup : cells.Nodup) (hfresh : ∀ x ∈ cells, x ∉ σ.ledger.released)
    (hslots : σ'.slots = σ.slots)
    (hledger : σ'.ledger = { σ.ledger.release cells with executed := executed })
    (hplaced : ({ l with hand := hand } : Phase).live + queuedCells σ'.queue +
      queuedCells σ'.batchQueue =
        l.live + queuedCells σ.queue + queuedCells σ.batchQueue + (cells : Multiset Cell))
    (hrun : ({ l with hand := hand } : Phase).ran + queuedCells σ'.batchQueue +
      (σ.ledger.executed : Multiset Cell) = l.ran + queuedCells σ.batchQueue + executed)
    (hqueue : ∀ t ∈ σ'.queue, t ∈ σ.queue ∨ t.Current c σ ∧ c.isNetworkNode t.info.id = false)
    (hbatch : ∀ t ∈ σ'.batchQueue,
      t ∈ σ.batchQueue ∨ t.Current c σ ∧ c.isNetworkNode t.info.id = false)
    (hhand : ∀ p ∈ hand, p ∈ l.hand ∨ p.1.Current c σ) (hkept : ∀ p ∈ l.hand, p ∈ hand)
    (hlate : ∀ x ∈ late σ (l :: others), x ∈ late σ' ({ l with hand := hand } :: others))
    (hgrants : guarded → Grants c σ' ({ l with hand := hand } :: others)) :
    Inv c cfg guarded clean σ' ({ l with hand := hand } :: others) := by
  have halike : ∀ s, (σ.slots s).Alike (σ'.slots s) := fun s => hslots ▸ .refl _
  have hcurrent : ∀ t : Ticket, t.Current c σ → t.Current c σ' := fun t ht =>
    ht.keep (halike t.slot).stamp
  have hreleased : ∀ x ∈ σ'.ledger.released, x ∈ σ.ledger.released ∨ x ∈ cells := by
    intro x hx
    rw [hledger] at hx
    exact (List.mem_append.mp hx).symm
  have hretired : σ'.ledger.retired = σ.ledger.retired := by rw [hledger]; rfl
  have hfired : σ'.ledger.fired = σ.ledger.fired := by rw [hledger]; rfl
  refine ⟨?_, ?_, h.brackets.alike rfl halike, h.counters.still hretired
    (fun s => (halike s).pendingTasks) (fun s => (halike s).pendingCondTasks), ?_, ?_,
    fun hclean s hun => ?_, hgrants⟩
  · apply h.accounts.step
    · rw [hledger]
      simp only [Ledger.release, ← Multiset.coe_add]
      ext x
      have hcount := congrArg (Multiset.count x) hplaced
      simp only [Multiset.count_add] at hcount ⊢
      omega
    · rw [hledger]
      simp only [Ledger.release]
      ext x
      have hcount := congrArg (Multiset.count x) hrun
      simp only [Multiset.count_add] at hcount ⊢
      omega
    · rw [hledger]
      exact List.Nodup.append hnodup h.accounts.nodup fun x hx => hfresh x hx
    · intro x hx
      rcases hreleased x hx with hx | hx
      · exact h.accounts.bounded x hx
      · obtain ⟨-, hnode, hidx, -⟩ := hcells x hx
        exact ⟨hnode, hidx⟩
  · refine h.tickets.step (fun s _ => (halike s).stamp) (fun x _ hx => hretired ▸ hx)
      (fun t ht => (hqueue t ht).imp_right fun hn => ⟨hcurrent t hn.1, hn.2⟩)
      (fun t ht => (hbatch t ht).imp_right fun hn => ⟨hcurrent t hn.1, hn.2⟩) fun hl =>
        ⟨fun p hp => ?_, hl.served, fun s hs => ?_, hl.once, hl.stamp⟩
    · rcases hhand p hp with hp | hp
      · exact hl.hand p hp
      · exact hcurrent p.1 hp
    · refine (hl.inside s hs).imp_left ?_
      rintro ⟨p, hp, hslot⟩
      exact ⟨p, hkept p hp, hslot⟩
  · refine h.words.bookkeeping (fun s => by rw [hslots]) (fun s => (halike s).resetting)
      (fun x hx => (hreleased x hx).imp_right fun hx => (hcells x hx).2.2.2)
      (by rw [hledger]; rfl) hfired hlate
  · refine h.claims.step h.accounts (.inl rfl) (fun s => (halike s).completed)
      (fun s => (halike s).resetting) (advances_of_grows (fun x hx => hretired ▸ hx) (fun x hx => ?_)
        (fun p hp => .inl (hfired ▸ hp)) rfl fun s => (halike s).resetting)
    refine (hreleased x hx).imp_right fun hx => ?_
    rw [(hcells x hx).1]
    exact hflag
  · refine (h.awake hclean s (hun.before_step (fun x hx _ => hretired ▸ hx) id (halike s).resetting
      id)).keep (.inr rfl) (halike s).needsCheck

/-- An initial task enters the queue under the current stamp of its slot. -/
theorem enqueueInitial (h : Inv c cfg guarded clean σ (l :: others)) (hrun : Runnable c)
    {task : Ticket} (hinit : task.info.id ∈ c.graph.initialNodes) (hpos : 1 ≤ task.info.bulkCount)
    (hidx : ∀ x ∈ task.cells, x.idx < c.factor x.node) (hok : SourcesOnce c σ (.enqueue none task))
    (hcond : guarded → ConditionsOnBatchPath c (.enqueue none task)) :
    Inv c cfg guarded clean (σ.enqueue none task) (l :: others) := by
  obtain ⟨hnode, hpreds, hnet⟩ := hrun.initial hinit
  obtain ⟨hflag, hstamp, hfresh⟩ := hok
  have hcurrent : task.Current c σ :=
    ⟨hpos, (congrArg Stamp.epoch hstamp).symm, fun _ => (congrArg Stamp.gen hstamp).symm⟩
  have hqueue : (σ.enqueue none task).queue = task :: σ.queue := rfl
  refine h.source hflag (fun x hx => ?_) task.info.cells_nodup hfresh rfl rfl ?_ rfl (fun t ht => ?_)
    (fun t ht => .inl ht) (fun p hp => .inl hp) (fun p hp => hp) (fun x hx => ?_) fun hg => ?_
  · obtain ⟨hslot, hid, -⟩ := Ticket.mem_cells.mp hx
    rw [hid]
    exact ⟨hslot, hnode, hid ▸ hidx x hx, hpreds⟩
  · rw [hqueue, queuedCells_cons]
    show l.live + ((task.cells : Multiset Cell) + queuedCells σ.queue) + queuedCells σ.batchQueue =
      l.live + queuedCells σ.queue + queuedCells σ.batchQueue + (task.cells : Multiset Cell)
    ext x
    simp only [Multiset.count_add]
    omega
  · rcases List.mem_cons.mp ht with rfl | ht
    · exact .inr ⟨hcurrent, hnet⟩
    · exact .inl ht
  · refine late_step hx (fun hown => mem_late.mpr (.inl ⟨_, List.mem_cons_self, hown⟩)) (fun hq => ?_)
      (fun hb => mem_late.mpr (.inr (.inr (.inl hb)))) fun hr => mem_late.mpr (.inr (.inr (.inr hr)))
    obtain ⟨t, ht, hxt⟩ := hq
    exact mem_late.mpr (.inr (.inl ⟨t, List.mem_cons_of_mem _ ht, hxt⟩))
  · have hgr := h.grants hg
    refine hgr.step (fun x _ => id) (fun t ht => ?_) (fun t ht => .inl ht) hgr.executed
      fun hlg => ⟨hlg.hand, hlg.passed⟩
    rcases List.mem_cons.mp ht with rfl | ht
    · refine .inr fun hcond' => ?_
      rw [hcond hg] at hcond'
      cases hcond'
    · exact .inl ht

/-- A packet enters the hand of the thread. -/
theorem deliver (h : Inv c cfg guarded clean σ (l :: others)) (hrun : Runnable c) {ni : NodeInfo}
    (hpos : 1 ≤ ni.bulkCount) (hok : SourcesOnce c σ (.deliver ni)) :
    Inv c cfg guarded clean (σ.deliver ni).2
      ({ l with hand := ((σ.deliver ni).1, (σ.deliver ni).1.info.bulkCount) ::ₘ l.hand } ::
        others) := by
  obtain ⟨hflag, hnet, hfresh⟩ := hok
  obtain ⟨hnode, hpreds⟩ := hrun.network hnet
  have hcond : c.isCondition ni.id = false := by
    rw [Compiled.isCondition]
    rw [Compiled.isNetworkNode] at hnet
    rw [hnet]
    rfl
  have htask : (σ.deliver ni).1 = ⟨ni, (σ.slots ni.slot).epoch⟩ := rfl
  have hcurrent : (σ.deliver ni).1.Current c σ := by
    refine ⟨hpos, rfl, fun hn => ?_⟩
    rw [htask] at hn
    simp only [hnet] at hn
    cases hn
  refine h.source hflag (fun x hx => ?_) ni.cells_nodup (fun x hx => (hfresh x hx).2) rfl rfl ?_ ?_
    (fun t ht => .inl ht) (fun t ht => .inl ht) (fun p hp => ?_)
    (fun p hp => Multiset.mem_cons_of_mem hp)
    (late_same (fun _ => id) (fun p hp => Multiset.mem_cons_of_mem hp) rfl rfl fun _ => id)
    fun hg => ?_
  · obtain ⟨hslot, hid, -⟩ := NodeInfo.mem_cells.mp hx
    rw [hid]
    exact ⟨hslot, hnode, hid ▸ (hfresh x hx).1, hpreds⟩
  · rw [Phase.live_cons_hand]
    simp only [Shared.deliver, Shared.setLedger, Ticket.cells]
    ext x
    simp only [Multiset.count_add]
    omega
  · rw [Phase.ran_cons_hand, Ticket.take_bulkCount]
    simp only [Shared.deliver, Shared.setLedger, Ticket.cells, ← Multiset.coe_add]
    ext x
    simp only [Multiset.count_add]
    omega
  · rcases Multiset.mem_cons.mp hp with rfl | hp
    · exact .inr hcurrent
    · exact .inl hp
  · have hgr := h.grants hg
    have hnone : ∀ x ∈ ni.cells, c.isCondition x.node = true → False := by
      intro x hx hc
      rw [(NodeInfo.mem_cells.mp hx).2.1, hcond] at hc
      cases hc
    refine hgr.step (fun x _ => id) (fun t ht => .inl ht) (fun t ht => .inl ht) (fun x hx hc => ?_)
      fun hlg => ⟨fun p hp hc => ?_, hlg.passed⟩
    · rcases List.mem_append.mp hx with hx | hx
      · exact absurd hc fun hc => hnone x hx hc
      · exact hgr.executed x hx hc
    · rcases Multiset.mem_cons.mp hp with rfl | hp
      · rw [htask] at hc
        simp only [hcond] at hc
        cases hc
      · exact hlg.hand p hp hc

end Inv

end Tomii
