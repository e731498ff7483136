import Tomii.Runtime.SlotCells

/-! # Lazy reset refines eager reset

`LazySlot.view` turns a slot into its eager counterpart. Every access commutes with it
outright; a bump does because no word is tagged beyond the low half of the generation
(`InEpoch`), and the sweep restores that bound when the low half wraps. -/
namespace Tomii
set_option autoImplicit false
set_option maxHeartbeats 250000

/-! ## Words of a slot as one family -/

/-- The generational words of a slot. -/
inductive SlotCell where
  | remaining (node group : ℕ)
  | sent (node instanceIdx : ℕ)
  | cond (node : ℕ)
  | fanout (node : ℕ)

namespace LazySlot

def word (s : LazySlot) : SlotCell → UInt64
  | .remaining node group => (s.deps node).remainingDeps group
  | .sent node instanceIdx => (s.deps node).instancesSent instanceIdx
  | .cond node => s.condInstancesToSpawn node
  | .fanout node => s.fanoutBulkArrived node

end LazySlot

/-- The initial value of each word. -/
def SlotLayout.cellInit (L : SlotLayout) : SlotCell → UInt32
  | .remaining node _ => (L.entry node).depsPerGroup
  | .sent _ _ => 0
  | .cond node => L.condInit node
  | .fanout _ => 0

namespace LazySlot

variable (L : SlotLayout)

/-- A slot as the eager model sees it. -/
def view (s : LazySlot) : EagerSlot where
  deps := fun node => (s.deps node).view (L.entry node) s.slotGen
  condInstancesToSpawn := fun node =>
    (genRead s.slotGen (L.condInit node) (s.condInstancesToSpawn node)).toNat
  fanoutBulkArrived := fun node => (genRead s.slotGen 0 (s.fanoutBulkArrived node)).toNat

/-- No word is tagged beyond the current low half. -/
def InEpoch (s : LazySlot) : Prop :=
  Stamped.StampedBy UInt32.toNat s.slotGen fun c => genCell (s.word c)

theorem view_eq_restored {s : LazySlot}
    (h : ∀ c, genRead s.slotGen (L.cellInit c) (s.word c) = L.cellInit c) :
    s.view L = EagerSlot.restored L := by
  ext node i
  · exact congrArg UInt32.toNat (h (.remaining node i))
  · have hsent := h (.sent node i)
    simp only [SlotLayout.cellInit, word] at hsent
    simp [view, EagerSlot.restored, EntryCells.view, EntryState.initial, hsent]
  · exact congrArg UInt32.toNat (h (.cond node))
  · exact congrArg UInt32.toNat (h (.fanout node))

theorem swept_word (generation : UInt64) (newGen : UInt32) (c : SlotCell) :
    (swept L generation newGen).word c = genPack newGen (L.cellInit c) := by
  cases c <;> rfl

theorem swept_inEpoch (generation : UInt64) :
    (swept L generation (lowHalf generation)).InEpoch := by
  intro c
  show (genCell ((swept L generation (lowHalf generation)).word c)).stamp.toNat ≤ _
  rw [swept_word, genCell_genPack]
  exact le_refl _

/-! ## The bump -/

theorem lowHalf_succ {g : UInt64} (h : lowHalf g ≠ UInt32.ofNat (2 ^ 32 - 1)) :
    (lowHalf (g + 1)).toNat = (lowHalf g).toNat + 1 := by
  have hne : (lowHalf g).toNat ≠ 2 ^ 32 - 1 := by
    intro heq
    apply h
    apply UInt32.toNat_inj.mp
    rw [heq]
    rfl
  have hlt := (lowHalf g).toNat_lt
  have hone : (1 : UInt64).toNat = 1 := rfl
  simp only [lowHalf, UInt64.toNat_toUInt32, UInt64.toNat_add, hone] at hne hlt ⊢
  omega

/-- After a bump every word reads as initial. -/
theorem bump_read {s : LazySlot} (h : s.InEpoch) (c : SlotCell) :
    genRead (s.bumpSlotGeneration L).slotGen (L.cellInit c) ((s.bumpSlotGeneration L).word c) =
      L.cellInit c := by
  unfold bumpSlotGeneration
  split
  · rw [swept_word, genRead_eq_read, genCell_genPack, Stamped.read_init]
  · next hwrap =>
    have hlater : UInt32.toNat s.slotGen < UInt32.toNat (lowHalf (s.generation + 1)) := by
      rw [lowHalf_succ hwrap]
      exact Nat.lt_succ_self _
    exact Stamped.StampedBy.read_later h hlater _ c

theorem bump_inEpoch {s : LazySlot} (h : s.InEpoch) : (s.bumpSlotGeneration L).InEpoch := by
  unfold bumpSlotGeneration
  split
  · exact swept_inEpoch L _
  · next hwrap =>
    have hle : UInt32.toNat s.slotGen ≤ UInt32.toNat (lowHalf (s.generation + 1)) := by
      rw [lowHalf_succ hwrap]
      exact Nat.le_succ _
    exact Stamped.StampedBy.later h hle

end LazySlot

/-! ## Every other access -/

namespace EntryCells

variable (sh : EntryShape) (slotGen : UInt32)

/-- `cells'` differs from `cells` in words written by `slotGen` only. -/
def WritesAt (cells cells' : EntryCells) : Prop :=
  (∀ g, cells'.remainingDeps g = cells.remainingDeps g ∨
    genUnpackGen (cells'.remainingDeps g) = slotGen) ∧
  ∀ i, cells'.instancesSent i = cells.instancesSent i ∨
    genUnpackGen (cells'.instancesSent i) = slotGen

variable {slotGen}

theorem WritesAt.refl (cells : EntryCells) : WritesAt slotGen cells cells :=
  ⟨fun _ => .inl rfl, fun _ => .inl rfl⟩

theorem WritesAt.trans {a b c : EntryCells} (hab : WritesAt slotGen a b)
    (hbc : WritesAt slotGen b c) : WritesAt slotGen a c := by
  constructor
  · intro g
    rcases hbc.1 g with h | h
    · rw [h]
      exact hab.1 g
    · exact .inr h
  · intro i
    rcases hbc.2 i with h | h
    · rw [h]
      exact hab.2 i
    · exact .inr h

theorem writesAt_setRemaining (cells : EntryCells) (g : ℕ) (v : UInt32) :
    WritesAt slotGen cells (cells.setRemaining g (genPack slotGen v)) := by
  refine ⟨fun g' => ?_, fun _ => .inl rfl⟩
  by_cases hg : g' = g
  · subst hg
    right
    simp [setRemaining]
  · left
    simp [setRemaining, hg]

theorem writesAt_setSent (cells : EntryCells) (idx : ℕ) (v : UInt32) :
    WritesAt slotGen cells (cells.setSent idx (genPack slotGen v)) := by
  refine ⟨fun _ => .inl rfl, fun i => ?_⟩
  by_cases hi : i = idx
  · subst hi
    right
    simp [setSent]
  · left
    simp [setSent, hi]

end EntryCells

/-- A relation kept by both atomic operations is kept by a whole dispatch. -/
theorem CellOps.decreaseAndGetReadyInto_keeps {S : Type} (ops : CellOps S) {K : S → S → Prop}
    (hrefl : ∀ s, K s s) (htrans : ∀ a b c, K a b → K b c → K a c)
    (hdec : ∀ g count s, K s (ops.fetchDec g count s).2) (hsend : ∀ i s, K s (ops.trySend i s).2)
    (sh : EntryShape) (group : Option ℕ) (count : ℕ) (specific : Option ℕ) (s : S) :
    K s (ops.decreaseAndGetReadyInto sh group count specific s).2 := by
  have heach : ∀ is s, K s (ops.sendEach is s).2 := by
    intro is
    induction is with
    | nil => exact hrefl
    | cons i is ih => exact fun s => htrans _ _ _ (hsend i s) (ih _)
  have hgroup : ∀ g s, K s (ops.decreaseGroup sh g count specific s).2 := by
    intro g s
    have hnext := fun is => htrans _ _ _ (hdec g count s) (heach is (ops.fetchDec g count s).2)
    cases specific <;> simp only [CellOps.decreaseGroup] <;> split_ifs <;>
      first | exact hdec g count s | exact hnext _
  have hgroups : ∀ gs s, K s (ops.decreaseGroups sh count specific gs s).2 := by
    intro gs
    induction gs with
    | nil => exact hrefl
    | cons g gs ih => exact fun s => htrans _ _ _ (hgroup g s) (ih _)
  cases group with
  | none => exact hgroups _ s
  | some g =>
    simp only [CellOps.decreaseAndGetReadyInto]
    split
    · exact hgroups [g] s
    · exact hrefl s

namespace EntryCells

variable (sh : EntryShape) (slotGen : UInt32)

theorem writesAt_decrease (group : Option ℕ) (count : ℕ) (specific : Option ℕ)
    (cells : EntryCells) :
    WritesAt slotGen cells
      (decreaseAndGetReadyInto sh slotGen group count specific cells).2 := by
  apply CellOps.decreaseAndGetReadyInto_keeps (K := WritesAt slotGen)
  · exact WritesAt.refl
  · exact fun _ _ _ => WritesAt.trans
  · exact fun g count cells => writesAt_setRemaining cells g _
  · intro i cells
    simp only [packedOps]
    split
    · exact WritesAt.refl cells
    · exact writesAt_setSent cells i 1

theorem writesAt_resetSentFlag (instanceIdx : ℕ) (cells : EntryCells) :
    WritesAt slotGen cells (resetSentFlag sh slotGen instanceIdx cells) := by
  unfold resetSentFlag
  split
  · exact writesAt_setSent cells instanceIdx 0
  · exact WritesAt.refl cells

end EntryCells

namespace LazySlot

variable (L : SlotLayout)

@[simp] theorem setDeps_slotGen (s : LazySlot) (node : ℕ) (cells : EntryCells) :
    (s.setDeps node cells).slotGen = s.slotGen := rfl

@[simp] theorem setCond_slotGen (s : LazySlot) (node : ℕ) (packed : UInt64) :
    (s.setCond node packed).slotGen = s.slotGen := rfl

@[simp] theorem setFanout_slotGen (s : LazySlot) (node : ℕ) (packed : UInt64) :
    (s.setFanout node packed).slotGen = s.slotGen := rfl

theorem view_setDeps (s : LazySlot) (node : ℕ) (cells : EntryCells) :
    (s.setDeps node cells).view L =
      (s.view L).setDeps node (cells.view (L.entry node) s.slotGen) := by
  ext n i
  · by_cases hn : n = node <;> simp [view, setDeps, EagerSlot.setDeps, hn, slotGen]
  · by_cases hn : n = node <;> simp [view, setDeps, EagerSlot.setDeps, hn, slotGen]
  · rfl
  · rfl

theorem view_setCond (s : LazySlot) (node : ℕ) (v : UInt32) :
    (s.setCond node (genPack s.slotGen v)).view L = (s.view L).setCond node v.toNat := by
  ext n i
  · rfl
  · rfl
  · by_cases hn : n = node
    · subst hn
      simp [view, setCond, EagerSlot.setCond, slotGen]
    · simp [view, setCond, EagerSlot.setCond, hn, slotGen]
  · rfl

theorem view_setFanout (s : LazySlot) (node : ℕ) (v : UInt32) :
    (s.setFanout node (genPack s.slotGen v)).view L = (s.view L).setFanout node v.toNat := by
  ext n i
  · rfl
  · rfl
  · rfl
  · by_cases hn : n = node
    · subst hn
      simp [view, setFanout, EagerSlot.setFanout, slotGen]
    · simp [view, setFanout, EagerSlot.setFanout, hn, slotGen]

/-- Writes in the current generation keep the tag bound. -/
theorem inEpoch_of_writes {s s' : LazySlot} (h : s.InEpoch) (hgen : s'.slotGen = s.slotGen)
    (hw : ∀ c, s'.word c = s.word c ∨ genUnpackGen (s'.word c) = s.slotGen) : s'.InEpoch := by
  rw [InEpoch, hgen]
  refine Stamped.StampedBy.write h fun c => ?_
  rcases hw c with heq | htag
  · left
    simp only [heq]
  · exact .inr htag

theorem inEpoch_setDeps {s : LazySlot} (h : s.InEpoch) {node : ℕ} {cells : EntryCells}
    (hw : EntryCells.WritesAt s.slotGen (s.deps node) cells) : (s.setDeps node cells).InEpoch := by
  refine inEpoch_of_writes h rfl fun c => ?_
  cases c with
  | remaining n g =>
    by_cases hn : n = node
    · subst hn
      rcases hw.1 g with heq | hgen
      · left
        simp [word, setDeps, heq]
      · right
        simpa [word, setDeps] using hgen
    · left
      simp [word, setDeps, hn]
  | sent n i =>
    by_cases hn : n = node
    · subst hn
      rcases hw.2 i with heq | hgen
      · left
        simp [word, setDeps, heq]
      · right
        simpa [word, setDeps] using hgen
    · left
      simp [word, setDeps, hn]
  | cond n => exact .inl rfl
  | fanout n => exact .inl rfl

theorem inEpoch_setCond {s : LazySlot} (h : s.InEpoch) (node : ℕ) (v : UInt32) :
    (s.setCond node (genPack s.slotGen v)).InEpoch := by
  refine inEpoch_of_writes h rfl fun c => ?_
  cases c with
  | cond n => by_cases hn : n = node <;> simp [word, setCond, hn]
  | remaining | sent | fanout => exact .inl rfl

theorem inEpoch_setFanout {s : LazySlot} (h : s.InEpoch) (node : ℕ) (v : UInt32) :
    (s.setFanout node (genPack s.slotGen v)).InEpoch := by
  refine inEpoch_of_writes h rfl fun c => ?_
  cases c with
  | fanout n => by_cases hn : n = node <;> simp [word, setFanout, hn]
  | remaining | sent | cond => exact .inl rfl

theorem view_remainingSpawns (s : LazySlot) {node : ℕ} (hc : L.isCondition node) :
    (s.remainingSpawns L node).toNat = (s.view L).condInstancesToSpawn node := by
  simp [remainingSpawns, view, SlotLayout.condInit, hc]

/-! ## One access, then any number -/

/-- The simulation relation: same meaning, and tags within the epoch. -/
def Simulates (s : LazySlot) (t : EagerSlot) : Prop := s.view L = t ∧ s.InEpoch

theorem decrease_simulates (node : ℕ) (c : DepCall) (s : LazySlot) (h : s.InEpoch) :
    (s.decrease L node c).1 = ((s.view L).decrease L node c).1 ∧
      Simulates L (s.decrease L node c).2 ((s.view L).decrease L node c).2 := by
  simp only [decrease, EagerSlot.decrease]
  split
  · obtain ⟨hready, hview⟩ := EntryCells.view_decreaseAndGetReadyInto (L.entry node) s.slotGen
      c.group c.count c.specific (s.deps node)
    refine ⟨hready, ?_, inEpoch_setDeps h ?_⟩
    · rw [view_setDeps, hview]
      rfl
    · exact EntryCells.writesAt_decrease (L.entry node) s.slotGen c.group c.count c.specific _
  · exact ⟨rfl, rfl, h⟩

theorem increment_simulates (node : ℕ) (instanceIdx : Option ℕ) (s : LazySlot) (h : s.InEpoch) :
    (s.increment L node instanceIdx).1 = ((s.view L).increment L node instanceIdx).1 ∧
      Simulates L (s.increment L node instanceIdx).2
        ((s.view L).increment L node instanceIdx).2 := by
  simp only [increment, EagerSlot.increment]
  split
  · obtain ⟨hvalue, hview⟩ := EntryCells.view_incrementDependency (L.entry node) s.slotGen
      instanceIdx (s.deps node)
    refine ⟨congrArg some hvalue, ?_, inEpoch_setDeps h ?_⟩
    · rw [view_setDeps, hview]
      rfl
    · exact EntryCells.writesAt_setRemaining _ _ _
  · exact ⟨rfl, rfl, h⟩

theorem resetSent_simulates (node instanceIdx : ℕ) (s : LazySlot) (h : s.InEpoch) :
    Simulates L (s.resetSent L node instanceIdx) ((s.view L).resetSent L node instanceIdx) := by
  simp only [resetSent, EagerSlot.resetSent]
  split
  · refine ⟨?_, inEpoch_setDeps h ?_⟩
    · rw [view_setDeps, EntryCells.view_resetSentFlag]
      rfl
    · exact EntryCells.writesAt_resetSentFlag (L.entry node) s.slotGen instanceIdx _
  · exact ⟨rfl, h⟩

theorem step_simulates (op : SlotOp) (s : LazySlot) (t : EagerSlot) (h : Simulates L s t) :
    (step L op s).1 = (EagerSlot.step L op t).1 ∧
      Simulates L (step L op s).2 (EagerSlot.step L op t).2 := by
  obtain ⟨rfl, hin⟩ := h
  cases op with
  | decrease node c =>
    obtain ⟨hready, hsim⟩ := decrease_simulates L node c s hin
    exact ⟨congrArg SlotOut.ready hready, hsim⟩
  | increment node instanceIdx =>
    obtain ⟨hvalue, hsim⟩ := increment_simulates L node instanceIdx s hin
    exact ⟨congrArg (Option.elim · SlotOut.none SlotOut.value) hvalue, hsim⟩
  | resetSent node instanceIdx => exact ⟨rfl, resetSent_simulates L node instanceIdx s hin⟩
  | condRemaining node =>
    simp only [step, EagerSlot.step]
    split
    · next hc => exact ⟨congrArg SlotOut.value (view_remainingSpawns L s hc), rfl, hin⟩
    · exact ⟨rfl, rfl, hin⟩
  | condSpawn node =>
    simp only [step, EagerSlot.step, spawnOne]
    split
    · next hc =>
      have hspawns := view_remainingSpawns L s hc
      refine ⟨congrArg SlotOut.value hspawns, ?_, inEpoch_setCond hin node _⟩
      rw [view_setCond, saturatingSub_toNat, hspawns]
      rfl
    · exact ⟨rfl, rfl, hin⟩
  | fanoutArrive node count =>
    refine ⟨rfl, ?_, inEpoch_setFanout hin node _⟩
    simp only [step, EagerSlot.step, fanoutBulkIncrement, view_setFanout, saturatingAdd_toNat,
      asU32_toNat]
    rfl
  | bump => exact ⟨rfl, view_eq_restored L (bump_read L hin), bump_inEpoch L hin⟩

theorem initial_simulates : Simulates L (initial L) (EagerSlot.restored L) := by
  constructor
  · apply view_eq_restored
    intro c
    rw [initial, swept_word, genRead_eq_read, genCell_genPack, Stamped.read_init]
  · exact swept_inEpoch L 0

/-- A word tagged with the generation that a bump of `s` opens is already initial: no tag of
an earlier frame can be taken for the new one. -/
def NoStaleTag (s : LazySlot) : Prop :=
  ∀ c, genUnpackGen ((s.bumpSlotGeneration L).word c) = (s.bumpSlotGeneration L).slotGen →
    genUnpackVal ((s.bumpSlotGeneration L).word c) = L.cellInit c

theorem noStaleTag_of_inEpoch {s : LazySlot} (h : s.InEpoch) : NoStaleTag L s := by
  intro c hgen
  have hread := bump_read L h c
  rwa [genRead, if_pos hgen] at hread

/-- Any list of accesses and bumps: what the callers see and what the words mean is what the
eagerly restored slot shows, and no stale tag is ever current. -/
theorem lazy_refines_eager (ops : List SlotOp) :
    (runOps (step L) ops (initial L)).1 = (runOps (EagerSlot.step L) ops (EagerSlot.restored L)).1 ∧
      (runOps (step L) ops (initial L)).2.view L =
        (runOps (EagerSlot.step L) ops (EagerSlot.restored L)).2 ∧
      NoStaleTag L (runOps (step L) ops (initial L)).2 := by
  obtain ⟨hout, hview, hin⟩ := runOps_refines (step_simulates L) ops _ _ (initial_simulates L)
  exact ⟨hout, hview, noStaleTag_of_inEpoch L hin⟩

end LazySlot

end Tomii
