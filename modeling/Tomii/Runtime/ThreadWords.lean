import Tomii.Runtime.ThreadClaims
import Tomii.Runtime.LazyRefinement

/-! # Slot words under threads of the current generation

An access under the generation of the slot does to the readings of its words what it does to
plain counters. What it releases was not released before: the barrier of a released instance is
down, or its flag is set. -/
namespace Tomii
set_option autoImplicit false
set_option maxHeartbeats 250000

theorem EntryCells.writesAt_trySend (sh : EntryShape) (slotGen : UInt32) (idx : ℕ)
    (cells : EntryCells) :
    WritesAt slotGen cells ((packedOps sh slotGen).trySend idx cells).2 := by
  simp only [packedOps]
  split
  · exact WritesAt.refl cells
  · exact writesAt_setSent cells idx 1

/-! ## Slots and words replaced -/

namespace Shared

variable (c : Compiled) (σ : Shared)

@[simp] theorem slots_setSlot_self (slot : ℕ) (s : Slot) : (σ.setSlot slot s).slots slot = s :=
  Function.update_self ..

theorem slots_setSlot_of_ne {slot slot' : ℕ} (h : slot' ≠ slot) (s : Slot) :
    (σ.setSlot slot s).slots slot' = σ.slots slot' :=
  Function.update_of_ne h ..

@[simp] theorem slots_setLedger (ledger : Ledger) : (σ.setLedger ledger).slots = σ.slots := rfl

/-- A part of the slots that a replaced slot leaves alone. -/
theorem setSlot_keeps {R : Type} (f : Slot → R) {slot : ℕ} {s : Slot}
    (h : f s = f (σ.slots slot)) (slot' : ℕ) :
    f ((σ.setSlot slot s).slots slot') = f (σ.slots slot') := by
  by_cases hs : slot' = slot
  · subst hs
    rw [slots_setSlot_self, h]
  · rw [slots_setSlot_of_ne σ hs]

/-- Words written under the generation of the slot. -/
structure Writes (slot : ℕ) (cells : LazySlot) : Prop where
  gen : cells.slotGen = (σ.slots slot).cells.slotGen
  tags : (σ.slots slot).cells.InEpoch → cells.InEpoch

variable {c σ}

theorem Writes.stamp {slot : ℕ} {cells : LazySlot} (h : σ.Writes slot cells) (slot' : ℕ) :
    ((σ.setCells slot cells).slots slot').stamp = (σ.slots slot').stamp := by
  apply σ.setSlot_keeps Slot.stamp
  simp only [Slot.stamp, Slot.setCells, h.gen]

theorem Writes.inEpoch {slot : ℕ} {cells : LazySlot} (h : σ.Writes slot cells)
    (htags : ∀ s, (σ.slots s).cells.InEpoch) (slot' : ℕ) :
    ((σ.setCells slot cells).slots slot').cells.InEpoch := by
  by_cases hs : slot' = slot
  · subst hs
    rw [setCells, slots_setSlot_self]
    exact h.tags (htags _)
  · rw [setCells, slots_setSlot_of_ne σ hs]
    exact htags slot'

theorem entryAt_setDeps (slot node : ℕ) (cells : EntryCells) (slot' node' : ℕ) :
    (σ.setCells slot ((σ.slots slot).cells.setDeps node cells)).entryAt c slot' node' =
      if slot' = slot ∧ node' = node
      then cells.view (c.entry node) (σ.slots slot).cells.slotGen
      else σ.entryAt c slot' node' := by
  by_cases hs : slot' = slot
  · subst hs
    simp only [entryAt, setCells, slots_setSlot_self, Slot.setCells, true_and]
    by_cases hn : node' = node
    · subst hn
      simp [LazySlot.setDeps, LazySlot.slotGen]
    · simp [LazySlot.setDeps, hn, LazySlot.slotGen]
  · simp only [entryAt, setCells, slots_setSlot_of_ne σ hs, hs, false_and, if_false]

/-! ## Accesses -/

section Accesses

variable (c) {slot : ℕ} {gen : UInt32} (hgen : gen = (σ.slots slot).cells.slotGen) (node : ℕ)

include hgen

theorem fetchDec_reply (g count : ℕ) : (σ.fetchDec c slot gen node g count).1 =
    ((σ.entryAt c slot node).remaining g, (σ.entryAt c slot node).remaining g - count % 2 ^ 32) := by
  subst hgen
  exact ((EntryCells.viewOps (c.entry node) _).fetchDec g count _).1

theorem fetchDec_writes (g count : ℕ) :
    σ.Writes slot ((σ.slots slot).cells.fetchDecAt c.layout gen node g count).2 := by
  subst hgen
  exact ⟨rfl, fun h => LazySlot.inEpoch_setDeps h (EntryCells.writesAt_setRemaining _ g _)⟩

theorem entryAt_fetchDec (g count slot' node' : ℕ) :
    (σ.fetchDec c slot gen node g count).2.entryAt c slot' node' =
      if slot' = slot ∧ node' = node then
        (σ.entryAt c slot node).setRemaining g
          ((σ.entryAt c slot node).remaining g - count % 2 ^ 32)
      else σ.entryAt c slot' node' := by
  subst hgen
  have hview := ((EntryCells.viewOps (c.entry node) (σ.slots slot).cells.slotGen).fetchDec g count
    ((σ.slots slot).cells.deps node)).2
  have hset := entryAt_setDeps (c := c) (σ := σ) slot node
    ((EntryCells.packedOps (c.entry node) (σ.slots slot).cells.slotGen).fetchDec g count
      ((σ.slots slot).cells.deps node)).2 slot' node'
  rw [hview] at hset
  exact hset

theorem trySend_reply (idx : ℕ) :
    (σ.trySend c slot gen node idx).1 = !(σ.entryAt c slot node).sent idx := by
  subst hgen
  have hsend := ((EntryCells.viewOps (c.entry node) (σ.slots slot).cells.slotGen).trySend idx
    ((σ.slots slot).cells.deps node)).1
  refine hsend.trans ?_
  simp only [EntryState.plainOps, entryAt]
  split
  · next h => rw [h]; rfl
  · next h => rw [Bool.eq_false_of_not_eq_true h]; rfl

theorem trySend_writes (idx : ℕ) :
    σ.Writes slot ((σ.slots slot).cells.trySendAt c.layout gen node idx).2 := by
  subst hgen
  exact ⟨rfl, fun h => LazySlot.inEpoch_setDeps h (EntryCells.writesAt_trySend (c.entry node) _ idx _)⟩

theorem entryAt_trySend (idx slot' node' : ℕ) :
    (σ.trySend c slot gen node idx).2.entryAt c slot' node' =
      if slot' = slot ∧ node' = node then (σ.entryAt c slot node).setSent idx true
      else σ.entryAt c slot' node' := by
  subst hgen
  have hview := ((EntryCells.viewOps (c.entry node) (σ.slots slot).cells.slotGen).trySend idx
    ((σ.slots slot).cells.deps node)).2
  have hset := entryAt_setDeps (c := c) (σ := σ) slot node
    ((EntryCells.packedOps (c.entry node) (σ.slots slot).cells.slotGen).trySend idx
      ((σ.slots slot).cells.deps node)).2 slot' node'
  rw [hview] at hset
  refine hset.trans ?_
  congr 1
  simp only [EntryState.plainOps, entryAt]
  split
  · next h =>
    ext i
    · rfl
    · by_cases hi : i = idx
      · subst hi
        simp [EntryState.setSent, h]
      · simp [EntryState.setSent, hi]
  · rfl

theorem increment_writes (idx : ℕ) :
    σ.Writes slot ((σ.slots slot).cells.incrementAt c.layout gen node idx) := by
  subst hgen
  exact ⟨rfl, fun h => LazySlot.inEpoch_setDeps h (EntryCells.writesAt_setRemaining _ _ _)⟩

theorem resetSent_writes (idx : ℕ) :
    σ.Writes slot ((σ.slots slot).cells.resetSentAt c.layout gen node idx) := by
  subst hgen
  exact ⟨rfl, fun h => LazySlot.inEpoch_setDeps h (EntryCells.writesAt_resetSentFlag _ _ _ _)⟩

theorem spawnOne_writes : σ.Writes slot ((σ.slots slot).cells.spawnOneAt c.layout gen node) := by
  subst hgen
  exact ⟨rfl, fun h => LazySlot.inEpoch_setCond h _ _⟩

omit c in
theorem fanout_writes (count : ℕ) :
    σ.Writes slot ((σ.slots slot).cells.fanoutBulkIncrementAt gen node count).2 := by
  subst hgen
  exact ⟨rfl, fun h => LazySlot.inEpoch_setFanout h _ _⟩

end Accesses

/-- Only the entry of `node` is written. -/
theorem entryAt_increment_of_ne (c : Compiled) (slot : ℕ) (gen : UInt32) (node idx : ℕ)
    {slot' node' : ℕ} (h : ¬ (slot' = slot ∧ node' = node)) :
    (σ.setCells slot ((σ.slots slot).cells.incrementAt c.layout gen node idx)).entryAt c slot' node' =
      σ.entryAt c slot' node' :=
  (entryAt_setDeps slot node _ slot' node').trans (if_neg h)

theorem entryAt_resetSent_of_ne (c : Compiled) (slot : ℕ) (gen : UInt32) (node idx : ℕ)
    {slot' node' : ℕ} (h : ¬ (slot' = slot ∧ node' = node)) :
    (σ.setCells slot ((σ.slots slot).cells.resetSentAt c.layout gen node idx)).entryAt c slot' node' =
      σ.entryAt c slot' node' :=
  (entryAt_setDeps slot node _ slot' node').trans (if_neg h)

theorem entryAt_setCells_of_deps (c : Compiled) {slot : ℕ} {cells : LazySlot}
    (hgen : cells.slotGen = (σ.slots slot).cells.slotGen)
    (hdeps : cells.deps = (σ.slots slot).cells.deps) (slot' node' : ℕ) :
    (σ.setCells slot cells).entryAt c slot' node' = σ.entryAt c slot' node' := by
  apply σ.setSlot_keeps fun s => (s.cells.deps node').view (c.entry node') s.cells.slotGen
  simp only [Slot.setCells, hgen, hdeps]

section Fanout

variable {slot : ℕ} {gen : UInt32} (hgen : gen = (σ.slots slot).cells.slotGen) (c : Compiled)
  (node : ℕ) (ready : List ℕ)

include hgen

theorem arriveFanout_reply : (σ.arriveFanout c slot gen node ready).1 =
    σ.fanoutAt slot node + ready.length := by
  subst hgen
  rfl

theorem fanoutAt_arriveFanout (slot' node' : ℕ) :
    (σ.arriveFanout c slot gen node ready).2.fanoutAt slot' node' ≤
      if slot' = slot ∧ node' = node then σ.fanoutAt slot node + ready.length
      else σ.fanoutAt slot' node' := by
  subst hgen
  show (σ.setCells slot _).fanoutAt slot' node' ≤ _
  by_cases hs : slot' = slot
  · subst hs
    simp only [true_and]
    by_cases hn : node' = node
    · subst hn
      simp only [fanoutAt, setCells, slots_setSlot_self, Slot.setCells,
        LazySlot.setFanout_slotGen, if_true]
      simp only [LazySlot.setFanout, Function.update_self, genRead_genPack, saturatingAdd_toNat,
        asU32_toNat]
      have hmod := Nat.mod_le ready.length (2 ^ 32)
      omega
    · simp only [fanoutAt, setCells, slots_setSlot_self, Slot.setCells,
        LazySlot.setFanout_slotGen, hn, if_false]
      simp [LazySlot.setFanout, hn]
  · simp only [hs, false_and, if_false]
    apply le_of_eq
    simp only [fanoutAt, setCells, slots_setSlot_of_ne σ hs]

end Fanout

theorem fanoutAt_setCells_of_fanout {slot : ℕ} {cells : LazySlot}
    (hgen : cells.slotGen = (σ.slots slot).cells.slotGen)
    (hfan : cells.fanoutBulkArrived = (σ.slots slot).cells.fanoutBulkArrived) (slot' node' : ℕ) :
    (σ.setCells slot cells).fanoutAt slot' node' = σ.fanoutAt slot' node' := by
  apply σ.setSlot_keeps fun s => (genRead s.cells.slotGen 0 (s.cells.fanoutBulkArrived node')).toNat
  simp only [Slot.setCells, hgen, hfan]

/-- After a bump no fanout-bulk arrival counts. -/
theorem fanoutAt_bump {slot : ℕ} (hin : (σ.slots slot).cells.InEpoch) (reset : Bool) (node : ℕ) :
    (σ.bumpSlotGeneration c slot reset).fanoutAt slot node = 0 := by
  have hread := LazySlot.bump_read c.layout hin (.fanout node)
  show (genRead _ 0 _).toNat = 0
  simp only [bumpSlotGeneration, slots_setLedger, slots_setSlot_self, Slot.bump]
  exact congrArg UInt32.toNat hread

end Shared

/-! ## The words over a step -/

variable {c : Compiled} {cfg : Config} {σ σ' : Shared} {l l' : Phase} {ls ls' others : List Phase}

theorem mem_late {x : Cell} : x ∈ late σ ls ↔
    (∃ l ∈ ls, x ∈ l.outgoing ∨ ∃ p ∈ l.hand, x ∈ p.1.cells) ∨ (∃ t ∈ σ.queue, x ∈ t.cells) ∨
      (∃ t ∈ σ.batchQueue, x ∈ t.cells) ∨ x ∈ σ.ledger.retired := by
  simp only [late, Multiset.mem_add, mem_total, Multiset.mem_bind, Multiset.mem_coe,
    mem_queuedCells, or_assoc]

/-- What was dispatched is dispatched after the step, if the thread's own part and the queues are. -/
theorem late_step {x : Cell} (h : x ∈ late σ (l :: others))
    (hown : (x ∈ l.outgoing ∨ ∃ p ∈ l.hand, x ∈ p.1.cells) → x ∈ late σ' (l' :: others))
    (hqueue : (∃ t ∈ σ.queue, x ∈ t.cells) → x ∈ late σ' (l' :: others))
    (hbatch : (∃ t ∈ σ.batchQueue, x ∈ t.cells) → x ∈ late σ' (l' :: others))
    (hretired : x ∈ σ.ledger.retired → x ∈ late σ' (l' :: others)) : x ∈ late σ' (l' :: others) := by
  rcases mem_late.mp h with ⟨m, hm, hx⟩ | hx | hx | hx
  · rcases List.mem_cons.mp hm with rfl | hm
    · exact hown hx
    · exact mem_late.mpr (.inl ⟨m, List.mem_cons_of_mem _ hm, hx⟩)
  · exact hqueue hx
  · exact hbatch hx
  · exact hretired hx

namespace Words

theorem perm (h : Words c cfg σ ls) (hp : ls.Perm ls') : Words c cfg σ ls' := by
  refine ⟨h.tags, h.locked, h.waiting, fun slot node hf x hx => ?_⟩
  rw [late, ← total_perm _ hp]
  exact h.fired slot node hf x hx

/-- What a step has to show. -/
theorem step (h : Words c cfg σ (l :: others)) (htags : ∀ s, (σ'.slots s).cells.InEpoch)
    (hresetting : ∀ s, (σ'.slots s).resetting = (σ.slots s).resetting)
    (hkeeps : ∀ x, c.isCondition x.node = false → Locked c σ x → Locked c σ' x)
    (hreleased : ∀ x ∈ σ'.ledger.released, x ∈ σ.ledger.released ∨
      (c.isCondition x.node = false → (c.nodeAt x.node).predIds ≠ [] → Locked c σ' x))
    (hwaiting : ∀ slot node, c.fans cfg node = true → (slot, node) ∉ σ'.ledger.fired →
      σ'.fanoutAt slot node ≤ (arrivedAt σ' slot node).length)
    (hfired : ∀ slot node, (slot, node) ∈ σ'.ledger.fired → ∀ x ∈ c.allCells slot node,
      x ∈ late σ' (l' :: others)) : Words c cfg σ' (l' :: others) where
  tags := htags
  locked := by
    intro x hx hflag hcond hpreds
    rcases hreleased x hx with hold | hnew
    · exact hkeeps x hcond (h.locked x hold (hresetting x.slot ▸ hflag) hcond hpreds)
    · exact hnew hcond hpreds
  waiting := hwaiting
  fired := hfired

/-- The words are only read through what they mean now. -/
theorem locked_congr {x : Cell}
    (hentry : σ'.entryAt c x.slot x.node = σ.entryAt c x.slot x.node) (h : Locked c σ x) :
    Locked c σ' x := by
  unfold Locked at h ⊢
  rwa [hentry]

/-- A step that writes no word of a node without a condition and lets no instance arrive. -/
theorem still (h : Words c cfg σ (l :: others)) (htags : ∀ s, (σ'.slots s).cells.InEpoch)
    (hresetting : ∀ s, (σ'.slots s).resetting = (σ.slots s).resetting)
    (hentry : ∀ slot node, c.isCondition node = false → σ'.entryAt c slot node = σ.entryAt c slot node)
    (hfanout : ∀ slot node, σ'.fanoutAt slot node = σ.fanoutAt slot node)
    (hreleased : ∀ x ∈ σ'.ledger.released, x ∈ σ.ledger.released ∨ (c.nodeAt x.node).predIds = [])
    (harrived : σ'.ledger.arrived = σ.ledger.arrived) (hfired : σ'.ledger.fired = σ.ledger.fired)
    (hlate : ∀ x ∈ late σ (l :: others), x ∈ late σ' (l' :: others)) :
    Words c cfg σ' (l' :: others) := by
  refine h.step htags hresetting (fun x hcond => locked_congr (hentry x.slot x.node hcond))
    (fun x hx => (hreleased x hx).imp_right fun hpreds _ hne => absurd hpreds hne) ?_ ?_
  · intro slot node hfans hnot
    rw [hfired] at hnot
    rw [hfanout, arrivedAt, harrived]
    exact h.waiting slot node hfans hnot
  · intro slot node hf x hx
    rw [hfired] at hf
    exact hlate x (h.fired slot node hf x hx)

end Words

end Tomii
