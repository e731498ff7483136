import Tomii.Runtime.FanoutArrivals
import Tomii.Runtime.FrameSafety

/-! # Fanout-bulk against dispatch by instance

Every interleaving of completions in one generation. Where each instance becomes ready on its own,
it goes out on its own; at a fanout-bulk node the arrivals at its counter are counted against the
factor, and the one that completes it sends the whole node out. -/
namespace Tomii
set_option autoImplicit false
set_option maxHeartbeats 250000

/-! ## What a step writes -/

namespace Shared

variable {c : Compiled} {σ : Shared}

theorem slotGen_setCells {slot : ℕ} {cells : LazySlot}
    (h : cells.slotGen = (σ.slots slot).cells.slotGen) (slot' : ℕ) :
    ((σ.setCells slot cells).slots slot').cells.slotGen = (σ.slots slot').cells.slotGen :=
  σ.setSlot_keeps (fun s => s.cells.slotGen) h slot'

theorem readied_release {ledger : Ledger} (s n : ℕ) (is : List ℕ) (slot node : ℕ)
    (h : ledger = σ.ledger.release (is.map (Cell.mk s n))) (σ' : Shared) (hσ : σ'.ledger = ledger) :
    σ'.readied slot node = (if s = slot ∧ n = node then is else []) ++ σ.readied slot node := by
  rw [readied, hσ, h, Ledger.release, List.filter_append, List.map_append, readied]
  congr 1
  by_cases hat : s = slot ∧ n = node
  · rw [if_pos hat, List.filter_eq_self.mpr fun x hx => ?_, List.map_map]
    · exact List.map_id is
    · obtain ⟨i, -, rfl⟩ := List.mem_map.mp hx
      exact decide_eq_true hat
  · rw [if_neg hat, List.filter_eq_nil_iff.mpr fun x hx => ?_]
    · rfl
    · obtain ⟨i, -, rfl⟩ := List.mem_map.mp hx
      simpa using hat

theorem readied_congr {σ' : Shared} (h : σ'.ledger.released = σ.ledger.released) (slot node : ℕ) :
    σ'.readied slot node = σ.readied slot node := by
  rw [readied, h, readied]

theorem dispatched_cons (t : Ticket) (queue : List Ticket) (slot node : ℕ) {σ' : Shared}
    (hqueue : σ'.queue = t :: queue) :
    (σ'.dispatched slot node : Multiset ℕ) = (sentTo slot node [t.info] : Multiset ℕ) +
      (sentTo slot node (queue.map Ticket.info) : Multiset ℕ) := by
  rw [dispatched, hqueue, List.map_cons, sentTo_cons, ← Multiset.coe_add]

theorem fanoutAt_setFanout_of_ne {s n slot node : ℕ} (h : ¬ (s = slot ∧ n = node)) (word : UInt64) :
    (σ.setCells s ((σ.slots s).cells.setFanout n word)).fanoutAt slot node = σ.fanoutAt slot node := by
  by_cases hs : slot = s
  · subst hs
    have hn : node ≠ n := fun heq => h ⟨rfl, heq.symm⟩
    simp only [fanoutAt, setCells, slots_setSlot_self, Slot.setCells, LazySlot.setFanout_slotGen]
    simp only [LazySlot.setFanout, Function.update_of_ne hn]
  · simp only [fanoutAt, setCells, slots_setSlot_of_ne σ hs]

/-- The counter is exact below its 32 bits. -/
theorem fanoutAt_arrives {slot node : ℕ} {gen : UInt32} (hgen : gen = (σ.slots slot).cells.slotGen)
    {ready : List ℕ} (hfits : σ.fanoutAt slot node + ready.length < 2 ^ 32) :
    (σ.arriveFanout c slot gen node ready).2.fanoutAt slot node =
      σ.fanoutAt slot node + ready.length := by
  subst hgen
  show (σ.setCells slot _).fanoutAt slot node = _
  simp only [fanoutAt] at hfits
  simp only [fanoutAt, setCells, slots_setSlot_self, Slot.setCells, LazySlot.setFanout_slotGen]
  simp only [LazySlot.setFanout, Function.update_self, genRead_genPack, saturatingAdd_toNat,
    asU32_toNat]
  rw [Nat.mod_eq_of_lt (a := ready.length) (by omega)]
  omega

/-- A generation in which nothing has happened yet at the node. -/
structure Opens (σ : Shared) (slot node : ℕ) : Prop where
  arrived : σ.fanoutAt slot node = 0
  readied : σ.readied slot node = []
  fired : (slot, node) ∉ σ.ledger.fired
  dispatched : σ.dispatched slot node = []

end Shared

/-! ## The invariant -/

/-- Ready instances are with a thread or have arrived; what has gone out or is due to go out are
whole factors, one for each arrival that found all others there. -/
structure FanoutInv (c : Compiled) (cfg : Config) (slot node : ℕ) (gen : UInt32) (σ : Shared)
    (ls : List Arriving) : Prop where
  gen : (σ.slots slot).cells.slotGen = gen
  locked : ∀ j ∈ σ.readied slot node, Locked c σ ⟨slot, node, j⟩
  nodup : (σ.readied slot node).Nodup
  bounded : ∀ j ∈ σ.readied slot node, j < c.factor node
  sent : (σ.dispatched slot node : Multiset ℕ) + (ls.map Arriving.outgoing).sum =
    if c.fans cfg node then
      σ.ledger.fired.count (slot, node) •
        (List.range (asU32 (c.factor node)).toNat : Multiset ℕ)
    else (σ.readied slot node : Multiset ℕ)
  counted : c.fans cfg node = true → c.factor node < 2 ^ 32 →
    σ.fanoutAt slot node + (ls.map fun l => l.held.length).sum = (σ.readied slot node).length
  fired : c.fans cfg node = true → c.factor node < 2 ^ 32 →
    σ.ledger.fired.count (slot, node) = if c.factor node ≤ σ.fanoutAt slot node then 1 else 0
  quiet : c.fans cfg node = true → σ.readied slot node = [] →
    (∀ l ∈ ls, l.held = []) ∧ σ.ledger.fired.count (slot, node) = 0

namespace FanoutInv

variable {c : Compiled} {cfg : Config} {slot node : ℕ} {gen : UInt32} {σ σ' : Shared}
  {ls pre post : List Arriving} {l l' : Arriving}

theorem readied_le (h : FanoutInv c cfg slot node gen σ ls) :
    (σ.readied slot node).length ≤ c.factor node := by
  have hsub : σ.readied slot node ⊆ List.range (c.factor node) := fun j hj =>
    List.mem_range.mpr (h.bounded j hj)
  have hle := (h.nodup.subperm hsub).length_le
  rwa [List.length_range] at hle

/-- A step that makes no instance ready and lets none arrive. -/
theorem step (h : FanoutInv c cfg slot node gen σ (pre ++ l :: post))
    (hgen : (σ'.slots slot).cells.slotGen = (σ.slots slot).cells.slotGen)
    (hlock : ∀ j, Locked c σ ⟨slot, node, j⟩ → Locked c σ' ⟨slot, node, j⟩)
    (hreadied : σ'.readied slot node = σ.readied slot node)
    (hfanout : σ'.fanoutAt slot node = σ.fanoutAt slot node)
    (hfired : σ'.ledger.fired.count (slot, node) = σ.ledger.fired.count (slot, node))
    (hsent : (σ'.dispatched slot node : Multiset ℕ) + l'.outgoing =
      (σ.dispatched slot node : Multiset ℕ) + l.outgoing)
    (hheld : l'.held = l.held) : FanoutInv c cfg slot node gen σ' (pre ++ l' :: post) where
  gen := hgen.trans h.gen
  locked := fun j hj => hlock j (h.locked j (hreadied ▸ hj))
  nodup := hreadied ▸ h.nodup
  bounded := hreadied ▸ h.bounded
  sent := by
    rw [hfired, hreadied, ← h.sent]
    simp only [List.map_append, List.map_cons, List.sum_append, List.sum_cons]
    ext x
    have hcount := congrArg (Multiset.count x) hsent
    simp only [Multiset.count_add] at hcount ⊢
    omega
  counted := by
    intro hf hfits
    have hold := h.counted hf hfits
    simp only [List.map_append, List.map_cons, List.sum_append, List.sum_cons] at hold ⊢
    rw [hfanout, hreadied, hheld]
    exact hold
  fired := by
    intro hf hfits
    rw [hfired, hfanout]
    exact h.fired hf hfits
  quiet := by
    intro hf hnone
    obtain ⟨hidle, hcount⟩ := h.quiet hf (hreadied ▸ hnone)
    refine ⟨fun m hm => ?_, hfired.trans hcount⟩
    have hl : l.held = [] := hidle l (by simp)
    simp only [List.mem_append, List.mem_cons] at hm
    rcases hm with hm | rfl | hm
    · exact hidle m (by simp [hm])
    · exact hheld.trans hl
    · exact hidle m (by simp [hm])

/-- Instances become ready that were not. -/
theorem gain (h : FanoutInv c cfg slot node gen σ (pre ++ l :: post)) {ready : List ℕ}
    (hgen : (σ'.slots slot).cells.slotGen = (σ.slots slot).cells.slotGen)
    (hlock : ∀ j, Locked c σ ⟨slot, node, j⟩ → Locked c σ' ⟨slot, node, j⟩)
    (hnew : ∀ j ∈ ready, ¬ Locked c σ ⟨slot, node, j⟩ ∧ Locked c σ' ⟨slot, node, j⟩)
    (hnodup : ready.Nodup) (hbounded : ∀ j ∈ ready, j < c.factor node)
    (hreadied : σ'.readied slot node = ready ++ σ.readied slot node)
    (hfanout : σ'.fanoutAt slot node = σ.fanoutAt slot node)
    (hfired : σ'.ledger.fired = σ.ledger.fired) (hqueue : σ'.queue = σ.queue) :
    FanoutInv c cfg slot node gen σ' (pre ++ l.gain c cfg node ready :: post) where
  gen := hgen.trans h.gen
  locked := by
    intro j hj
    rw [hreadied] at hj
    rcases List.mem_append.mp hj with hj | hj
    · exact (hnew j hj).2
    · exact hlock j (h.locked j hj)
  nodup := by
    rw [hreadied]
    exact hnodup.append h.nodup fun j hj hold => (hnew j hj).1 (h.locked j hold)
  bounded := by
    intro j hj
    rw [hreadied] at hj
    rcases List.mem_append.mp hj with hj | hj
    · exact hbounded j hj
    · exact h.bounded j hj
  sent := by
    have hold := h.sent
    rw [hfired, hreadied, Shared.dispatched, hqueue]
    rw [Shared.dispatched] at hold
    simp only [List.map_append, List.map_cons, List.sum_append, List.sum_cons, Arriving.gain]
      at hold ⊢
    split
    · next hf =>
      rw [if_pos hf] at hold
      exact hold
    · next hf =>
      rw [if_neg hf] at hold
      rw [← Multiset.coe_add, ← hold]
      ext x
      simp only [Multiset.count_add]
      omega
  counted := by
    intro hf hfits
    have hold := h.counted hf hfits
    simp only [List.map_append, List.map_cons, List.sum_append, List.sum_cons, Arriving.gain,
      if_pos hf, hfanout, hreadied, List.length_append] at hold ⊢
    omega
  fired := by
    intro hf hfits
    rw [hfired, hfanout]
    exact h.fired hf hfits
  quiet := by
    intro hf hnone
    rw [hreadied, List.append_eq_nil_iff] at hnone
    obtain ⟨rfl, hnone⟩ := hnone
    rw [Arriving.gain_nil, hfired]
    exact h.quiet hf hnone

/-- The ready instances of a thread arrive; whichever arrival reaches the factor is the last. -/
theorem arrive (h : FanoutInv c cfg slot node gen σ (pre ++ l :: post))
    (hf : c.fans cfg node = true) (hne : l.held ≠ []) :
    FanoutInv c cfg slot node gen (σ.arriveFanout c slot gen node l.held).2
      (pre ++ ⟨[], l.outgoing + if (asU32 (c.factor node)).toNat ≤
        (σ.arriveFanout c slot gen node l.held).1
          then (List.range (asU32 (c.factor node)).toNat : Multiset ℕ) else 0⟩ :: post) := by
  have hgen : gen = (σ.slots slot).cells.slotGen := h.gen.symm
  have hreply := Shared.arriveFanout_reply hgen c node l.held
  have hwrites := Shared.fanout_writes hgen node l.held.length
  have hledger : (σ.arriveFanout c slot gen node l.held).2.ledger = σ.ledger.arrive slot node l.held
      ((asU32 (c.factor node)).toNat ≤ (σ.arriveFanout c slot gen node l.held).1) := rfl
  have hentry : (σ.arriveFanout c slot gen node l.held).2.entryAt c slot node =
      σ.entryAt c slot node := Shared.entryAt_setCells_of_deps c hwrites.gen rfl slot node
  have hreadied : (σ.arriveFanout c slot gen node l.held).2.readied slot node =
      σ.readied slot node := by
    refine Shared.readied_congr ?_ slot node
    rw [hledger, Ledger.arrive]
    split <;> rfl
  have hcount : (σ.arriveFanout c slot gen node l.held).2.ledger.fired.count (slot, node) =
      σ.ledger.fired.count (slot, node) + if (asU32 (c.factor node)).toNat ≤
        (σ.arriveFanout c slot gen node l.held).1 then 1 else 0 := by
    rw [hledger, Ledger.arrive]
    by_cases hfires : (asU32 (c.factor node)).toNat ≤ (σ.arriveFanout c slot gen node l.held).1
    · rw [if_pos (decide_eq_true hfires), if_pos hfires]
      exact List.count_cons_self
    · rw [if_neg (by simpa using hfires), if_neg hfires, Nat.add_zero]
  have hroom : c.factor node < 2 ^ 32 →
      σ.fanoutAt slot node + l.held.length ≤ (σ.readied slot node).length := by
    intro hfits
    have hold := h.counted hf hfits
    simp only [List.map_append, List.map_cons, List.sum_append, List.sum_cons] at hold
    omega
  have hexact : c.factor node < 2 ^ 32 →
      (σ.arriveFanout c slot gen node l.held).2.fanoutAt slot node =
        σ.fanoutAt slot node + l.held.length := fun hfits =>
    Shared.fanoutAt_arrives hgen (by have := hroom hfits; have := h.readied_le; omega)
  refine ⟨?_, fun j hj => ?_, hreadied ▸ h.nodup, hreadied ▸ h.bounded, ?_, fun _ hfits => ?_,
    fun _ hfits => ?_, fun _ hnone => ?_⟩
  · exact (Shared.slotGen_setCells hwrites.gen slot).trans h.gen
  · exact Words.locked_congr hentry (h.locked j (hreadied ▸ hj))
  · have hold := h.sent
    have hqueue : (σ.arriveFanout c slot gen node l.held).2.dispatched slot node =
        σ.dispatched slot node := rfl
    rw [if_pos hf] at hold ⊢
    rw [hcount, add_nsmul, ← hold, hqueue]
    simp only [List.map_append, List.map_cons, List.sum_append, List.sum_cons]
    split
    · rw [one_nsmul]
      ext x
      simp only [Multiset.count_add]
      omega
    · rw [zero_nsmul]
      ext x
      simp only [Multiset.count_add]
      omega
  · have hold := h.counted hf hfits
    rw [hexact hfits, hreadied]
    simp only [List.map_append, List.map_cons, List.sum_append, List.sum_cons, List.length_nil]
      at hold ⊢
    omega
  · have hold := h.fired hf hfits
    have hpos : 0 < l.held.length := List.length_pos_iff.mpr hne
    have hle := h.readied_le
    have hroom := hroom hfits
    rw [hcount, hexact hfits, hold, hreply, asU32_toNat, Nat.mod_eq_of_lt hfits]
    rw [if_neg (show ¬ c.factor node ≤ σ.fanoutAt slot node by omega), Nat.zero_add]
  · exact absurd ((h.quiet hf (hreadied ▸ hnone)).1 l (by simp)) hne

/-! ## Every permitted action -/

/-- A step that is not about the node. -/
theorem elsewhere (h : FanoutInv c cfg slot node gen σ (pre ++ l :: post))
    (hgen : (σ'.slots slot).cells.slotGen = (σ.slots slot).cells.slotGen)
    (hentry : σ'.entryAt c slot node = σ.entryAt c slot node)
    (hreadied : σ'.readied slot node = σ.readied slot node)
    (hfanout : σ'.fanoutAt slot node = σ.fanoutAt slot node)
    (hfired : σ'.ledger.fired.count (slot, node) = σ.ledger.fired.count (slot, node))
    (hqueue : σ'.queue = σ.queue) : FanoutInv c cfg slot node gen σ' (pre ++ l :: post) := by
  refine h.step hgen (fun j => Words.locked_congr hentry) hreadied hfanout hfired ?_ rfl
  rw [Shared.dispatched, hqueue, Shared.dispatched]

/-- A step that leaves the words of the slots alone. -/
theorem aside (h : FanoutInv c cfg slot node gen σ (pre ++ l :: post))
    (hcells : ∀ s, (σ'.slots s).cells = (σ.slots s).cells)
    (hreleased : σ'.ledger.released = σ.ledger.released)
    (hfired : σ'.ledger.fired = σ.ledger.fired) (hqueue : σ'.queue = σ.queue) :
    FanoutInv c cfg slot node gen σ' (pre ++ l :: post) := by
  refine h.elsewhere ?_ ?_ (Shared.readied_congr hreleased slot node) ?_ ?_ hqueue
  · rw [hcells]
  · rw [Shared.entryAt, hcells, Shared.entryAt]
  · rw [Shared.fanoutAt, hcells, Shared.fanoutAt]
  · rw [hfired]

/-- The counters of another entry are written. -/
theorem otherDeps (h : FanoutInv c cfg slot node gen σ (pre ++ l :: post)) {s n : ℕ}
    (hne : ¬ (slot = s ∧ node = n)) (cells : EntryCells)
    (hslots : σ'.slots = (σ.setCells s ((σ.slots s).cells.setDeps n cells)).slots)
    (hreadied : σ'.readied slot node = σ.readied slot node)
    (hfired : σ'.ledger.fired = σ.ledger.fired) (hqueue : σ'.queue = σ.queue) :
    FanoutInv c cfg slot node gen σ' (pre ++ l :: post) := by
  have hsame : ((σ.slots s).cells.setDeps n cells).slotGen = (σ.slots s).cells.slotGen := rfl
  refine h.elsewhere ?_ ?_ hreadied ?_ ?_ hqueue
  · rw [hslots]
    exact Shared.slotGen_setCells hsame slot
  · rw [Shared.entryAt, hslots]
    exact (Shared.entryAt_setDeps s n cells slot node).trans (if_neg hne)
  · rw [Shared.fanoutAt, hslots]
    exact Shared.fanoutAt_setCells_of_fanout hsame rfl slot node
  · rw [hfired]

/-- A task leaves its thread for the queue. -/
theorem dispatch (h : FanoutInv c cfg slot node gen σ (pre ++ l :: post)) (task : Ticket)
    (hslots : σ'.slots = σ.slots) (hledger : σ'.ledger = σ.ledger)
    (hqueue : σ'.queue = task :: σ.queue)
    (howed : (sentTo slot node [task.info] : Multiset ℕ) ≤ l.outgoing) :
    FanoutInv c cfg slot node gen σ'
      (pre ++ { l with outgoing := l.outgoing - (sentTo slot node [task.info] : Multiset ℕ) } ::
        post) := by
  refine h.step ?_ (fun j => Words.locked_congr ?_) ?_ ?_ ?_ ?_ rfl
  · rw [hslots]
  · rw [Shared.entryAt, hslots, Shared.entryAt]
  · exact Shared.readied_congr (congrArg Ledger.released hledger) slot node
  · rw [Shared.fanoutAt, hslots, Shared.fanoutAt]
  · rw [hledger]
  · rw [Shared.dispatched_cons task σ.queue slot node hqueue, Shared.dispatched, add_right_comm,
      add_tsub_cancel_of_le howed, add_comm]

theorem fetchDec (h : FanoutInv c cfg slot node gen σ (pre ++ l :: post)) {t : Ticket}
    {g : UInt32} {n group : ℕ} (count : ℕ) (hg : t.slot = slot ∧ n = node → g = gen) :
    FanoutInv c cfg slot node gen (σ.fetchDec c t.slot g n group count).2
      (pre ++ l.gains c cfg slot node t n
        (c.publishedBy n group (σ.fetchDec c t.slot g n group count).1) :: post) := by
  have hreadied := Shared.readied_release (σ := σ) t.slot n
    (c.publishedBy n group (σ.fetchDec c t.slot g n group count).1) slot node rfl
    (σ.fetchDec c t.slot g n group count).2 rfl
  by_cases hat : t.slot = slot ∧ n = node
  · have hcur : g = (σ.slots t.slot).cells.slotGen := by
      rw [hg hat, hat.1, h.gen]
    rw [Arriving.gains, if_pos hat]
    rw [if_pos hat] at hreadied
    obtain ⟨rfl, rfl⟩ := hat
    refine h.gain ?_ (fun j hlock => hlock.fetchDec hcur) (fun j hj => ?_) ?_ (fun j hj => ?_)
      hreadied ?_ rfl rfl
    · exact Shared.slotGen_setCells (Shared.fetchDec_writes c hcur n group count).gen _
    · exact ⟨(mem_publishedBy hcur hj).1, (mem_publishedBy hcur hj).2.1⟩
    · rw [Compiled.publishedBy]
      split
      · exact (c.entry n).groupRange_nodup group
      · exact List.nodup_nil
    · exact (c.entry n).groupRange_lt_factor (mem_publishedBy hcur hj).2.2
    · exact Shared.fanoutAt_setCells_of_fanout
        (Shared.fetchDec_writes c hcur n group count).gen rfl _ _
  · rw [Arriving.gains, if_neg hat]
    rw [if_neg hat, List.nil_append] at hreadied
    exact h.otherDeps (fun heq => hat ⟨heq.1.symm, heq.2.symm⟩) _ rfl hreadied rfl rfl

theorem trySend (h : FanoutInv c cfg slot node gen σ (pre ++ l :: post)) {t : Ticket}
    {g : UInt32} {n idx : ℕ} (hg : t.slot = slot ∧ n = node →
      g = gen ∧ idx < c.factor n ∧ (c.entry n).hasBarrier = false) :
    FanoutInv c cfg slot node gen (σ.trySend c t.slot g n idx).2
      (pre ++ (if (σ.trySend c t.slot g n idx).1 then l.gains c cfg slot node t n [idx] else l) ::
        post) := by
  have hledger : (σ.trySend c t.slot g n idx).2.ledger = if (σ.trySend c t.slot g n idx).1
      then σ.ledger.release ([idx].map (Cell.mk t.slot n)) else σ.ledger := rfl
  by_cases hat : t.slot = slot ∧ n = node
  · obtain ⟨hgen, hidx, hbar⟩ := hg hat
    have hcur : g = (σ.slots t.slot).cells.slotGen := by
      rw [hgen, hat.1, h.gen]
    have hwrites := Shared.trySend_writes c hcur n idx
    obtain ⟨rfl, rfl⟩ := hat
    cases hfired : (σ.trySend c t.slot g n idx).1 with
    | true =>
      rw [hfired, if_pos rfl] at hledger
      have hreadied := Shared.readied_release t.slot n [idx] t.slot n rfl _ hledger
      rw [if_pos ⟨rfl, rfl⟩] at hreadied
      rw [if_pos rfl, Arriving.gains, if_pos ⟨rfl, rfl⟩]
      refine h.gain (Shared.slotGen_setCells hwrites.gen _) (fun j hlock => hlock.trySend hcur)
        (fun j hj => ?_) (List.nodup_singleton idx) (fun j hj => ?_) hreadied ?_ ?_ rfl
      · rw [List.mem_singleton.mp hj]
        exact sent_of_trySend hcur hbar hfired
      · rw [List.mem_singleton.mp hj]
        exact hidx
      · exact Shared.fanoutAt_setCells_of_fanout hwrites.gen rfl _ _
      · rw [hledger]
        rfl
    | false =>
      rw [hfired, if_neg Bool.false_ne_true] at hledger
      rw [if_neg Bool.false_ne_true]
      refine h.step (Shared.slotGen_setCells hwrites.gen _) (fun j hlock => hlock.trySend hcur)
        (Shared.readied_congr (congrArg Ledger.released hledger) _ _) ?_ ?_ rfl rfl
      · exact Shared.fanoutAt_setCells_of_fanout hwrites.gen rfl _ _
      · rw [hledger]
  · have hreadied : (σ.trySend c t.slot g n idx).2.readied slot node = σ.readied slot node := by
      split at hledger
      · have hrel := Shared.readied_release t.slot n [idx] slot node rfl _ hledger
        rwa [if_neg hat] at hrel
      · exact Shared.readied_congr (congrArg Ledger.released hledger) slot node
    have hfired : (σ.trySend c t.slot g n idx).2.ledger.fired = σ.ledger.fired := by
      rw [hledger]
      split <;> rfl
    have hnext : (if (σ.trySend c t.slot g n idx).1 then l.gains c cfg slot node t n [idx] else l) =
        l := by
      rw [Arriving.gains, if_neg hat, ite_self]
    rw [hnext]
    exact h.otherDeps (fun heq => hat ⟨heq.1.symm, heq.2.symm⟩) _ rfl hreadied hfired rfl

theorem arriveFanout (h : FanoutInv c cfg slot node gen σ (pre ++ l :: post)) {t : Ticket}
    {g : UInt32} {n : ℕ} {ready : List ℕ} (hg : t.slot = slot ∧ n = node →
      g = gen ∧ c.fans cfg n = true ∧ ready = l.held ∧ ready ≠ []) :
    FanoutInv c cfg slot node gen (σ.arriveFanout c t.slot g n ready).2
      (pre ++ l.next c cfg slot node (.arriveFanout t g n ready)
        (σ.arriveFanout c t.slot g n ready).1 :: post) := by
  by_cases hat : t.slot = slot ∧ n = node
  · obtain ⟨rfl, hfans, rfl, hne⟩ := hg hat
    rw [Arriving.next, if_pos hat]
    obtain ⟨rfl, rfl⟩ := hat
    exact h.arrive hfans hne
  · rw [Arriving.next, if_neg hat]
    have hne : ¬ (slot = t.slot ∧ node = n) := fun heq => hat ⟨heq.1.symm, heq.2.symm⟩
    have hsame : ((σ.slots t.slot).cells.fanoutBulkIncrementAt g n ready.length).2.slotGen =
        (σ.slots t.slot).cells.slotGen := rfl
    have hledger : (σ.arriveFanout c t.slot g n ready).2.ledger = σ.ledger.arrive t.slot n ready
        ((asU32 (c.factor n)).toNat ≤ (σ.arriveFanout c t.slot g n ready).1) := rfl
    refine h.elsewhere (Shared.slotGen_setCells hsame slot)
      (Shared.entryAt_setCells_of_deps c hsame rfl slot node) (Shared.readied_congr ?_ slot node)
      (Shared.fanoutAt_setFanout_of_ne hat _) ?_ rfl
    · rw [hledger, Ledger.arrive]
      split <;> rfl
    · rw [hledger, Ledger.arrive]
      split
      · exact List.count_cons_of_ne fun heq => hat ⟨congrArg Prod.fst heq, congrArg Prod.snd heq⟩
      · rfl

theorem act (h : FanoutInv c cfg slot node gen σ (pre ++ l :: post)) (choice : ℕ) (a : Act)
    (hpermits : l.permits c cfg slot node gen a) :
    FanoutInv c cfg slot node gen (σ.perform c choice a).2
      (pre ++ l.next c cfg slot node a (σ.perform c choice a).1 :: post) := by
  cases a with
  | loadGeneration s => exact h
  | enter s => exact h.aside (σ.setSlot_keeps (·.cells) rfl) rfl rfl rfl
  | leave s => exact h.aside (σ.setSlot_keeps (·.cells) rfl) rfl rfl rfl
  | retire t byWorker =>
    refine h.aside (σ.setSlot_keeps (·.cells) ?_) rfl rfl rfl
    unfold Slot.lowerPending
    split <;> rfl
  | fetchDec t g n group count => exact h.fetchDec count hpermits
  | trySend t g n idx => exact h.trySend hpermits
  | arriveFanout t g n ready => exact h.arriveFanout hpermits
  | remainingSpawns t g n => exact h
  | evaluate t task parts => exact h.aside (fun _ => rfl) rfl rfl rfl
  | spawnOne t g n =>
    have hsame : ((σ.slots t.slot).cells.spawnOneAt c.layout g n).slotGen =
        (σ.slots t.slot).cells.slotGen := rfl
    exact h.elsewhere (Shared.slotGen_setCells hsame slot)
      (Shared.entryAt_setCells_of_deps c hsame rfl slot node) rfl
      (Shared.fanoutAt_setCells_of_fanout hsame rfl slot node) rfl rfl
  | discharge t task =>
    refine h.aside (σ.setSlot_keeps (·.cells) ?_) rfl rfl rfl
    unfold Slot.lowerPending
    split <;> rfl
  | incrementDependency t g task =>
    exact h.otherDeps (fun heq => hpermits ⟨heq.1.symm, heq.2.symm⟩) _ rfl rfl rfl rfl
  | resetSent t g task =>
    exact h.otherDeps (fun heq => hpermits ⟨heq.1.symm, heq.2.symm⟩) _ rfl rfl rfl rfl
  | enqueue cause task =>
    cases cause with
    | none => exact absurd hpermits id
    | some t => exact h.dispatch task rfl rfl rfl hpermits
  | reserve t task => exact h
  | resume task => exact h.dispatch task rfl rfl rfl hpermits
  | setNeedsCheck s b => exact h.aside (σ.setSlot_keeps (·.cells) rfl) rfl rfl rfl
  | _ => exact absurd hpermits id

/-- Threads without a job at the start of a generation. -/
theorem opens (hopens : σ.Opens slot node) (hgen : (σ.slots slot).cells.slotGen = gen)
    (hfactor : c.fans cfg node = true → 0 < c.factor node) (threads : ℕ) :
    FanoutInv c cfg slot node gen σ (List.replicate threads .idle) := by
  have hcount : σ.ledger.fired.count (slot, node) = 0 := List.count_eq_zero.mpr hopens.fired
  refine ⟨hgen, ?_, ?_, ?_, ?_, fun _ _ => ?_, fun hf _ => ?_, fun _ _ => ⟨fun l hl => ?_, hcount⟩⟩
  · rw [hopens.readied]
    exact fun j hj => (nomatch hj)
  · rw [hopens.readied]
    exact List.nodup_nil
  · rw [hopens.readied]
    exact fun j hj => (nomatch hj)
  · rw [hopens.dispatched, hopens.readied, hcount, zero_nsmul, Multiset.coe_nil, ite_self, zero_add,
      List.map_replicate, List.sum_replicate]
    exact nsmul_zero threads
  · rw [hopens.arrived, hopens.readied, List.map_replicate, List.sum_replicate]
    exact nsmul_zero threads
  · rw [hcount, hopens.arrived, if_neg (Nat.not_le.mpr (hfactor hf))]
  · rw [List.eq_of_mem_replicate hl]
    rfl

/-- Once every thread is done, what is ready has arrived and what is due has gone out. -/
theorem done (h : FanoutInv c cfg slot node gen σ ls) (hidle : ∀ l ∈ ls, l = .idle) :
    (σ.dispatched slot node : Multiset ℕ) =
        (if c.fans cfg node then
          σ.ledger.fired.count (slot, node) •
            (List.range (asU32 (c.factor node)).toNat : Multiset ℕ)
        else (σ.readied slot node : Multiset ℕ)) ∧
      (c.fans cfg node = true → c.factor node < 2 ^ 32 →
        σ.fanoutAt slot node = (σ.readied slot node).length) := by
  have hls : ls = List.replicate ls.length .idle := List.eq_replicate_iff.mpr ⟨rfl, hidle⟩
  rw [hls] at h
  refine ⟨?_, fun hf hfits => ?_⟩
  · have hsent := h.sent
    rw [List.map_replicate, List.sum_replicate] at hsent
    rw [← hsent]
    exact (add_zero _).symm.trans (congrArg _ (nsmul_zero _).symm)
  · have hcounted := h.counted hf hfits
    rw [List.map_replicate, List.sum_replicate] at hcounted
    rw [← hcounted]
    show _ = σ.fanoutAt slot node + ls.length • 0
    rw [nsmul_zero, add_zero]

end FanoutInv

/-! ## Runs -/

section Runs

variable {nodes : List Node} {c : Compiled} {opts : Options} {slot node : ℕ} {gen : UInt32}

theorem completions_maintain (hplain : (c.entry node).isCondition = false)
    (hcond : c.isCondition node = false) :
    Machine.Maintains (completionMachine c opts) (fun _ _ _ => True)
      (arrivalDiscipline c opts.config slot node gen) .idle (· = .idle)
      (FanoutInv c opts.config slot node gen) where
  jobs := completionJob_arrives hplain opts hcond
  forget := by
    rintro σ pre post l rfl h
    exact h
  step := by
    intro σ pre post l choice a h hpermits _
    refine ⟨?_, h.act choice a hpermits⟩
    cases a with
    | loadGeneration s =>
      rintro rfl
      exact h.gen
    | _ => trivial

/-- A node without a condition has none in its entry either. -/
theorem plain_entry (hbuilt : BuiltFrom nodes c) (hcond : c.isCondition node = false)
    (hnet : (c.nodeAt node).isNetwork = false) : (c.entry node).isCondition = false := by
  by_contra hentry
  have hown : (c.nodeAt node).condition = true := Bool.eq_true_of_not_eq_false hentry
  rw [hbuilt.isCondition_of_condition hown hnet] at hcond
  cases hcond

theorem network_of_fans {cfg : Config} (h : c.fans cfg node = true) :
    (c.nodeAt node).isNetwork = false := by
  have hbulk := fans_isFanoutBulk h
  simp only [Compiled.isFanoutBulk, Bool.and_eq_true, Bool.not_eq_true'] at hbulk
  exact hbulk.1.1.2

variable {σ : Shared} {threads : ℕ} {w : World atomics Shared}

theorem completions_reached (hbuilt : BuiltFrom nodes c) (hcond : c.isCondition node = false)
    (hnet : (c.nodeAt node).isNetwork = false) (hopens : σ.Opens slot node)
    (hreach : (completionMachine c opts).Reaches (fun _ _ _ => True)
      ⟨σ, List.replicate threads (.done ())⟩ w) :
    ∃ ls, FanoutInv c opts.config slot node (σ.slots slot).cells.slotGen w.shared ls ∧
      ((∀ thread ∈ w.threads, thread = .done ()) → ∀ l ∈ ls, l = .idle) := by
  have hfactor : c.fans opts.config node = true → 0 < c.factor node := fun hf =>
    Nat.lt_of_succ_lt (Compiled.factor_of_fans hf)
  obtain ⟨ls, hinv, hfol⟩ := (completions_maintain (plain_entry hbuilt hcond hnet) hcond).reached
    hreach (FanoutInv.opens hopens rfl hfactor threads)
    (Machine.follows_idle (· = Arriving.idle) rfl threads)
  refine ⟨ls, hinv, fun hdone l hl => ?_⟩
  obtain ⟨p, hp, hobeys⟩ := hfol.thread hl
  rw [hdone p hp] at hobeys
  exact hobeys

/-- Instance by instance, what has become ready has gone out once every thread is done. -/
theorem percell_dispatches_ready (hbuilt : BuiltFrom nodes c) (hcond : c.isCondition node = false)
    (hnet : (c.nodeAt node).isNetwork = false) (hpercell : c.fans opts.config node = false)
    (hopens : σ.Opens slot node)
    (hreach : (completionMachine c opts).Reaches (fun _ _ _ => True)
      ⟨σ, List.replicate threads (.done ())⟩ w)
    (hdone : ∀ thread ∈ w.threads, thread = .done ()) :
    (w.shared.dispatched slot node).Perm (w.shared.readied slot node) := by
  obtain ⟨ls, hinv, hidle⟩ := completions_reached hbuilt hcond hnet hopens hreach
  have hsent := (hinv.done (hidle hdone)).1
  rw [if_neg (by simp [hpercell])] at hsent
  exact Multiset.coe_eq_coe.mp hsent

end Runs

/-- The instances whose tasks have been retired. -/
def Shared.completed (σ : Shared) (slot node : ℕ) : List ℕ :=
  (σ.ledger.retired.filter fun x => x.slot = slot ∧ x.node = node).map Cell.idx

/-- The whole node goes out at once, by one completion that finds every instance ready, and what has
gone out is what goes out instance by instance. -/
structure Shared.FanoutRefines (c : Compiled) (σ : Shared) (slot node : ℕ) : Prop where
  once : σ.ledger.fired.count (slot, node) ≤ 1
  full : (slot, node) ∈ σ.ledger.fired →
    (σ.readied slot node).Perm (List.range (c.factor node))
  same : (σ.dispatched slot node).Perm (σ.readied slot node)

namespace FanoutInv

variable {c : Compiled} {cfg : Config} {slot node : ℕ} {gen : UInt32} {σ : Shared}
  {ls : List Arriving}

theorem readied_perm (h : FanoutInv c cfg slot node gen σ ls)
    (hall : c.factor node ≤ (σ.readied slot node).length) :
    (σ.readied slot node).Perm (List.range (c.factor node)) := by
  have hsub : σ.readied slot node ⊆ List.range (c.factor node) := fun j hj =>
    List.mem_range.mpr (h.bounded j hj)
  exact (h.nodup.subperm hsub).perm_of_length_le (by rwa [List.length_range])

/-- Below 32 bits the node goes out once, and not before its last instance is ready. -/
theorem fires_full (h : FanoutInv c cfg slot node gen σ ls) (hf : c.fans cfg node = true)
    (hfits : c.factor node < 2 ^ 32) :
    σ.ledger.fired.count (slot, node) ≤ 1 ∧ ((slot, node) ∈ σ.ledger.fired →
      (σ.readied slot node).Perm (List.range (c.factor node))) := by
  have hfired := h.fired hf hfits
  have hcounted := h.counted hf hfits
  by_cases hfull : c.factor node ≤ σ.fanoutAt slot node
  · rw [if_pos hfull] at hfired
    exact ⟨hfired.le, fun _ => h.readied_perm (by omega)⟩
  · rw [if_neg hfull] at hfired
    exact ⟨hfired.le.trans (Nat.zero_le 1), fun hin => absurd hin (List.count_eq_zero.mp hfired)⟩

theorem refines_iff (h : FanoutInv c cfg slot node gen σ ls) (hidle : ∀ l ∈ ls, l = .idle)
    (hf : c.fans cfg node = true) : σ.FanoutRefines c slot node ↔ σ.readied slot node = [] ∨
      c.factor node < 2 ^ 32 ∧ ∀ j < c.factor node, j ∈ σ.readied slot node := by
  obtain ⟨hsent, harrived⟩ := h.done hidle
  rw [if_pos hf] at hsent
  constructor
  · intro hrefines
    by_cases hnone : σ.readied slot node = []
    · exact .inl hnone
    right
    have hpos : 0 < (σ.readied slot node).length := List.length_pos_iff.mpr hnone
    have hone : σ.ledger.fired.count (slot, node) = 1 := by
      refine le_antisymm hrefines.once (Nat.pos_of_ne_zero fun hzero => ?_)
      rw [hzero, zero_nsmul] at hsent
      have hlen := hrefines.same.length_eq
      rw [(Multiset.coe_eq_zero _).mp hsent, List.length_nil] at hlen
      omega
    have hin : (slot, node) ∈ σ.ledger.fired :=
      List.count_pos_iff.mp (by omega)
    have hfull := hrefines.full hin
    rw [hone, one_nsmul] at hsent
    have hlen := ((Multiset.coe_eq_coe.mp hsent).symm.trans (hrefines.same.trans hfull)).length_eq
    rw [List.length_range, List.length_range, asU32_toNat] at hlen
    exact ⟨hlen ▸ Nat.mod_lt _ (Nat.two_pow_pos 32), fun j hj =>
      hfull.mem_iff.mpr (List.mem_range.mpr hj)⟩
  · rintro (hnone | ⟨hfits, hall⟩)
    · have hzero := (h.quiet hf hnone).2
      rw [hzero, zero_nsmul] at hsent
      refine ⟨by omega, fun hin => absurd hin (List.count_eq_zero.mp hzero), ?_⟩
      rw [hnone, (Multiset.coe_eq_zero _).mp hsent]
    · have hsub : List.range (c.factor node) ⊆ σ.readied slot node := fun j hj =>
        hall j (List.mem_range.mp hj)
      have hle : c.factor node ≤ (σ.readied slot node).length := by
        have hlen := (List.nodup_range.subperm hsub).length_le
        rwa [List.length_range] at hlen
      obtain ⟨honce, hfull⟩ := h.fires_full hf hfits
      refine ⟨honce, hfull, ?_⟩
      have hone := h.fired hf hfits
      rw [harrived hf hfits, if_pos hle] at hone
      rw [hone, one_nsmul, asU32_toNat, Nat.mod_eq_of_lt hfits] at hsent
      exact (Multiset.coe_eq_coe.mp hsent).trans (h.readied_perm hle).symm

end FanoutInv

/-- In every interleaving of completions of one generation: the node goes out once and not before
all its instances are ready, if its factor fits 32 bits; and once every thread is done, what
has gone out is what would have gone out instance by instance, if and only if moreover every
instance has become ready, or none has. -/
theorem fanout_refines_iff {nodes : List Node} {c : Compiled} (hbuilt : BuiltFrom nodes c)
    {opts : Options} {slot node : ℕ} (hfans : c.fans opts.config node = true) {σ : Shared}
    (hopens : σ.Opens slot node) {threads : ℕ} {w : World atomics Shared}
    (hreach : (completionMachine c opts).Reaches (fun _ _ _ => True)
      ⟨σ, List.replicate threads (.done ())⟩ w) :
    (c.factor node < 2 ^ 32 → w.shared.ledger.fired.count (slot, node) ≤ 1 ∧
      ((slot, node) ∈ w.shared.ledger.fired →
        (w.shared.readied slot node).Perm (List.range (c.factor node)))) ∧
    ((∀ thread ∈ w.threads, thread = .done ()) →
      (w.shared.FanoutRefines c slot node ↔ w.shared.readied slot node = [] ∨
        c.factor node < 2 ^ 32 ∧ ∀ j < c.factor node, j ∈ w.shared.readied slot node)) := by
  obtain ⟨ls, hinv, hidle⟩ := completions_reached hbuilt (Compiled.not_condition_of_fans hfans)
    (network_of_fans hfans) hopens hreach
  exact ⟨hinv.fires_full hfans, fun hdone => hinv.refines_iff (hidle hdone) hfans⟩

/-! ## Runs on small graphs -/

def turnsOf (thread n : ℕ) : List (Move CompletionJob) := List.replicate n (.step thread 0)

/-- A worker completes `count` instances of `node` from `start` on. -/
def completes (thread node start count : ℕ) : Move CompletionJob :=
  .begin thread (.worker ⟨⟨node, 0, 0, start, count, 0⟩, 0⟩)

/-- A node of two instances on a source of two. -/
def pairedNodes : List Node :=
  [⟨false, 0, [], 2, none, false⟩, ⟨false, 1, [⟨.res, false, some ⟨0, [0], none⟩⟩], 2, none, false⟩]

def pairedFanout : Compiled := .ofNodes pairedNodes

theorem builtFrom_pairedFanout : BuiltFrom pairedNodes pairedFanout :=
  builtFrom_ofNodes (by decide) (by decide)

theorem opens_initial (c : Compiled) (slot node : ℕ) : (Shared.initial c).Opens slot node where
  arrived := congrArg UInt32.toNat (genRead_genPack 0 0 0)
  readied := rfl
  fired := by rintro ⟨⟩
  dispatched := rfl

/-- Both instances are ready before either arrives. -/
def bothInFlight : List (Move CompletionJob) :=
  completes 0 0 0 1 :: completes 1 0 1 1 :: turnsOf 0 6 ++ turnsOf 1 7 ++ turnsOf 0 7 ++ turnsOf 1 2

theorem fanout_refines_iff_pairedFanout : ∃ w,
    (completionMachine pairedFanout twoWorkers).Reaches (fun _ _ _ => True)
        ⟨Shared.initial pairedFanout, List.replicate 2 (.done ())⟩ w ∧
      (∀ thread ∈ w.threads, thread = .done ()) ∧ w.shared.dispatched 0 1 = [1, 0] ∧
      w.shared.FanoutRefines pairedFanout 0 1 := by
  have hrun : ((completionMachine pairedFanout twoWorkers).fireAllowed (fun _ _ _ => True)
      bothInFlight ⟨Shared.initial pairedFanout, List.replicate 2 (.done ())⟩).any
        (fun w => w.threads.all Prog.isDone && (w.shared.dispatched 0 1 = [1, 0] ∧
          ∀ j < 2, j ∈ w.shared.readied 0 1)) = true := by
    decide +kernel
  obtain ⟨w, hw, hstate⟩ := (Option.any_eq_true _ _).mp hrun
  rw [Bool.and_eq_true, List.all_eq_true, decide_eq_true_eq] at hstate
  have hreach := Machine.reaches_of_fireAllowed hw
  have hdone : ∀ thread ∈ w.threads, thread = .done () := fun thread hthread =>
    Prog.eq_done_of_isDone (hstate.1 thread hthread)
  have hiff := (fanout_refines_iff builtFrom_pairedFanout (by decide) (opens_initial _ 0 1)
    hreach).2 hdone
  exact ⟨w, hreach, hdone, hstate.2.1, hiff.mpr (.inr ⟨by decide, hstate.2.2⟩)⟩

/-- Six instances in two groups behind a barrier, and six that read them one to one. -/
def groupedSource : List Node :=
  [⟨false, 0, [], 2, none, false⟩,
    ⟨false, 1, [⟨.barrier, false, some ⟨0, [0, 1], some 1⟩⟩], 6, some 3, false⟩,
    ⟨false, 2, [⟨.res, false, some ⟨1, [0], none⟩⟩], 6, none, false⟩]

def groupedFanout : Compiled := .ofNodes groupedSource

/-- The groups complete in the chunks that two workers make of them, the second group first. -/
def secondGroupFirst : List (Move CompletionJob) :=
  completes 0 1 3 2 :: turnsOf 0 10 ++ completes 0 1 0 2 :: turnsOf 0 12 ++
    completes 0 1 5 1 :: turnsOf 0 9 ++ completes 0 1 2 1 :: turnsOf 0 8

theorem ready_instances_withheld :
    ¬ ∀ (nodes : List Node) (c : Compiled) (opts : Options) (slot node threads : ℕ)
        (w : World atomics Shared), BuiltFrom nodes c → (∀ v ∈ nodes, v.Parsed) →
      c.fans opts.config node = true →
      (completionMachine c opts).Reaches (fun _ _ _ => True)
        ⟨Shared.initial c, List.replicate threads (.done ())⟩ w →
      (∀ thread ∈ w.threads, thread = .done ()) →
      (∀ p ∈ (c.nodeAt node).predIds,
        (w.shared.completed slot p).Perm (List.range (c.factor p))) →
      w.shared.FanoutRefines c slot node := by
  intro h
  have hrun : ((completionMachine groupedFanout twoWorkers).fireAllowed (fun _ _ _ => True)
      secondGroupFirst ⟨Shared.initial groupedFanout, List.replicate 1 (.done ())⟩).any
        (fun w => w.threads.all Prog.isDone && (w.shared.completed 0 1 = [2, 5, 0, 1, 3, 4] ∧
          w.shared.readied 0 2 = [5, 3, 2, 1, 0] ∧ w.shared.dispatched 0 2 = [])) = true := by
    decide +kernel
  obtain ⟨w, hw, hstate⟩ := (Option.any_eq_true _ _).mp hrun
  rw [Bool.and_eq_true, List.all_eq_true, decide_eq_true_eq] at hstate
  obtain ⟨hdone, hcompleted, hready, hnone⟩ := hstate
  have hrefines := h groupedSource groupedFanout twoWorkers 0 2 1 w
    (builtFrom_ofNodes (by decide) (by decide)) (by decide) (by decide)
    (Machine.reaches_of_fireAllowed hw)
    (fun thread hthread => Prog.eq_done_of_isDone (hdone thread hthread)) fun p hp => ?_
  · have hsame := hrefines.same
    rw [hready, hnone] at hsame
    exact absurd hsame.length_eq (by decide)
  · have hone : p = 1 := by
      revert hp
      decide +revert
    rw [hone, hcompleted]
    decide

end Tomii
