import Tomii.Slots.FlowPhases
import Tomii.Slots.SlotMoves

/-! # Who holds a slot

A slot is in the hands of one thread at most: of the thread that started its frame until it has
dispatched the initial nodes, of the one that completes or evicts it until it releases it, and of the
one that will restart it. With that every start of a slot has one dispatch. -/
namespace Tomii.Slots
set_option autoImplicit false
set_option maxHeartbeats 250000

/-! ## What a thread holds -/

namespace Stage

/-- The slot that is released and will restart. -/
def pending : Stage → Option ℕ
  | .promoted _ restart => restart
  | .waiting slot => some slot
  | _ => none

/-- The slot whose counters are reset for the next frame. -/
def cleaned : Stage → Option ℕ
  | .reset slot | .counted slot _ => some slot
  | _ => none

def holds (s : Stage) : List ℕ := s.due ++ s.owner.toList ++ s.pending.toList

def Assigns (s : Stage) : Prop := ∃ slots, s = .assigning slots

def Still (s : Stage) : Prop := s.holds = [] ∧ ¬ s.Assigns

theorem owner_of_cleaned {s : Stage} {slot : ℕ} (h : s.cleaned = some slot) : s.owner = some slot := by
  cases s with
  | reset s => exact h
  | counted s restart => exact h
  | _ => cases h

theorem due_subset (s : Stage) : s.due ⊆ s.holds := fun _ hs =>
  List.mem_append_left _ (List.mem_append_left _ hs)

theorem owner_mem {s : Stage} {slot : ℕ} (h : s.owner = some slot) : slot ∈ s.holds :=
  List.mem_append_left _ (List.mem_append_right _ (Option.mem_toList.mpr h))

theorem pending_mem {s : Stage} {slot : ℕ} (h : s.pending = some slot) : slot ∈ s.holds :=
  List.mem_append_right _ (Option.mem_toList.mpr h)

/-- The slots that a thread holds are in the state that its stage promises. -/
structure Fits (cfg : FlowConfig) (σ : Flow) (s : Stage) : Prop where
  due : ∀ slot ∈ s.due, slot ∈ σ.table.runningFrames.map Prod.snd ∧
    σ.rootsDispatched slot = false ∧ 1 ≤ σ.log.starts slot ∧
      (slot, σ.log.starts slot) ∉ σ.log.spawned ∧
        (cfg.hasNetwork = true → σ.table.states slot = .active)
  owner : ∀ slot, s.owner = some slot → slot ∈ σ.table.runningFrames.map Prod.snd ∧
    (slot ∈ σ.claimed ∨ slot ∈ σ.log.evicting ∧ σ.packetComplete slot = true) ∧
      (cfg.slotPriorityEnabled = true → σ.table.states slot = .active ∨ slot ∈ σ.log.evicting)
  cleaned : ∀ slot, s.cleaned = some slot → σ.rootsDispatched slot = false
  restarts : ∀ slot again, s = .counted slot (some again) → again = slot ∧ cfg.hasNetwork = false
  pending : ∀ slot, s.pending = some slot → slot < cfg.slots ∧
    slot ∉ σ.table.runningFrames.map Prod.snd ∧ cfg.hasNetwork = false

/-- The same slots are in the thread's hands. -/
structure Like (s s' : Stage) : Prop where
  due : s'.due = s.due
  owner : s'.owner = s.owner
  pending : s'.pending = s.pending
  cleaned : s'.cleaned = s.cleaned
  counted : ∀ slot again, s' = .counted slot (some again) → s' = s

theorem Like.refl (s : Stage) : Like s s := ⟨rfl, rfl, rfl, rfl, fun _ _ _ => rfl⟩

/-- No slot is in the thread's hands. -/
def bare : Stage → Bool
  | .ready | .received _ | .cleared _ | .seated _ _ | .routing _ | .unseated _ | .parking _
  | .refused _ | .marked _ | .window _ => true
  | _ => false

theorem bare_views {s : Stage} (h : s.bare = true) : s.due = [] ∧ s.owner = none ∧
    s.pending = none ∧ s.cleaned = none ∧ (∀ slot restart, s ≠ .counted slot restart) ∧
      ¬ s.Assigns := by
  cases s with
  | ready | received | cleared | seated | routing | unseated | parking | refused | marked | window =>
    exact ⟨rfl, rfl, rfl, rfl, fun _ _ heq => (nomatch heq), fun ⟨_, heq⟩ => (nomatch heq)⟩
  | _ => cases h

theorem like_of_bare {s s' : Stage} (h : s.bare = true) (h' : s'.bare = true) :
    Like s s' ∧ ¬ s'.Assigns := by
  obtain ⟨hdue, howner, hpending, hcleaned, -, -⟩ := bare_views h
  obtain ⟨hdue', howner', hpending', hcleaned', hcounted, hassigns⟩ := bare_views h'
  exact ⟨⟨hdue'.trans hdue.symm, howner'.trans howner.symm, hpending'.trans hpending.symm,
    hcleaned'.trans hcleaned.symm, fun slot again heq => absurd heq (hcounted slot _)⟩, hassigns⟩

theorem Like.holds {s s' : Stage} (h : Like s s') : s'.holds = s.holds := by
  unfold Stage.holds
  rw [h.due, h.owner, h.pending]

theorem Like.fits {cfg : FlowConfig} {σ : Flow} {s s' : Stage} (h : Like s s') (hs : s.Fits cfg σ) :
    s'.Fits cfg σ := by
  refine ⟨?_, ?_, ?_, ?_, ?_⟩
  · rw [h.due]
    exact hs.due
  · rw [h.owner]
    exact hs.owner
  · rw [h.cleaned]
    exact hs.cleaned
  · exact fun slot again heq => hs.restarts slot again (h.counted slot again heq ▸ heq)
  · rw [h.pending]
    exact hs.pending

end Stage

/-- Nothing changes for slots that are not among `xs`. -/
structure SameBut (xs : List ℕ) (σ σ' : Flow) : Prop where
  running : ∀ y ∉ xs, y ∈ σ'.table.runningFrames.map Prod.snd ↔
    y ∈ σ.table.runningFrames.map Prod.snd
  states : ∀ y ∉ xs, σ'.table.states y = σ.table.states y
  roots : ∀ y ∉ xs, σ'.rootsDispatched y = σ.rootsDispatched y
  starts : ∀ y ∉ xs, σ'.log.starts y = σ.log.starts y
  spawned : ∀ y ∉ xs, ∀ k, (y, k) ∈ σ'.log.spawned ↔ (y, k) ∈ σ.log.spawned
  claimed : ∀ y ∉ xs, y ∈ σ.claimed → y ∈ σ'.claimed
  evicting : ∀ y ∉ xs, y ∈ σ.log.evicting → y ∈ σ'.log.evicting
  complete : ∀ y ∉ xs, σ.packetComplete y = true → σ'.packetComplete y = true

theorem Stage.Fits.elsewhere {cfg : FlowConfig} {σ σ' : Flow} {s : Stage} {xs : List ℕ}
    (h : s.Fits cfg σ) (hsame : SameBut xs σ σ') (hxs : ∀ y ∈ xs, y ∉ s.holds) : s.Fits cfg σ' := by
  have hout : ∀ {y}, y ∈ s.holds → y ∉ xs := fun hy hin => hxs _ hin hy
  refine ⟨fun y hy => ?_, fun y hy => ?_, fun y hy => ?_, h.restarts, fun y hy => ?_⟩
  · have hy' := hout (s.due_subset hy)
    rw [hsame.running y hy', hsame.roots y hy', hsame.starts y hy', hsame.spawned y hy',
      hsame.states y hy']
    exact h.due y hy
  · have hy' := hout (Stage.owner_mem hy)
    obtain ⟨hrun, hclaim, hqueue⟩ := h.owner y hy
    rw [hsame.running y hy', hsame.states y hy']
    exact ⟨hrun, hclaim.imp (hsame.claimed y hy') fun he =>
        ⟨hsame.evicting y hy' he.1, hsame.complete y hy' he.2⟩,
      fun hpriority => (hqueue hpriority).imp_right (hsame.evicting y hy')⟩
  · rw [hsame.roots y (hout (Stage.owner_mem (Stage.owner_of_cleaned hy)))]
    exact h.cleaned y hy
  · rw [hsame.running y (hout (Stage.pending_mem hy))]
    exact h.pending y hy

/-! ## Slots and their starts -/

/-- Every start of the slot has been followed by a dispatch, or is the last one and its dispatch is
due. -/
structure RootsAt (cfg : FlowConfig) (σ : Flow) (due : List ℕ) (y : ℕ) : Prop where
  dispatched : σ.rootsDispatched y = true → y ∈ σ.table.runningFrames.map Prod.snd ∧
    (y, σ.log.starts y) ∈ σ.log.spawned ∧ (cfg.hasNetwork = true → σ.table.states y = .active)
  started : ∀ k, (y, k) ∈ σ.log.spawned → 1 ≤ k ∧ k ≤ σ.log.starts y
  complete : ∀ k, 1 ≤ k → k ≤ σ.log.starts y →
    (y, k) ∈ σ.log.spawned ∨ k = σ.log.starts y ∧ y ∈ due
  unqueued : cfg.hasNetwork = false → cfg.slotPriorityEnabled = true → y < cfg.slots →
    σ.table.states y ≠ .buffering

/-- Each slot is in the hands of one thread at most. -/
structure Rooted (cfg : FlowConfig) (σ : Flow) (ss : List Stage) : Prop where
  coherent : Coherent cfg.toSlotConfig σ.table
  sound : MapSound cfg.toSlotConfig σ.table.runningFrames σ.table.frameSlotMap
  held : (ss.flatMap Stage.holds).Nodup
  fits : ∀ s ∈ ss, s.Fits cfg σ
  once : σ.log.spawned.Nodup
  slots : ∀ y, RootsAt cfg σ (ss.flatMap Stage.due) y

namespace Rooted

variable {cfg : FlowConfig} {σ σ' : Flow} {s s' : Stage} {ss ss' others : List Stage} {slot : ℕ}

theorem perm (h : Rooted cfg σ ss) (hp : ss.Perm ss') : Rooted cfg σ ss' where
  coherent := h.coherent
  sound := h.sound
  held := (hp.flatMap_right Stage.holds).nodup_iff.mp h.held
  fits s hs := h.fits s (hp.mem_iff.mpr hs)
  once := h.once
  slots y := ⟨(h.slots y).dispatched, (h.slots y).started, fun k hpos hle =>
    ((h.slots y).complete k hpos hle).imp_right fun hlast =>
      ⟨hlast.1, (hp.flatMap_right Stage.due).mem_iff.mp hlast.2⟩, (h.slots y).unqueued⟩

/-- What a step of one thread has to show: its own slots, and the slots that it changes. -/
theorem step {xs : List ℕ} (h : Rooted cfg σ (s :: others)) (hsame : SameBut xs σ σ')
    (hxs : ∀ y ∈ xs, y ∉ others.flatMap Stage.holds)
    (hcoherent : Coherent cfg.toSlotConfig σ'.table)
    (hsound : MapSound cfg.toSlotConfig σ'.table.runningFrames σ'.table.frameSlotMap)
    (hheld : (s'.holds ++ others.flatMap Stage.holds).Nodup) (hfits : s'.Fits cfg σ')
    (honce : σ'.log.spawned.Nodup)
    (hslots : ∀ y ∈ xs, RootsAt cfg σ' ((s' :: others).flatMap Stage.due) y)
    (hdue : ∀ y ∉ xs, y ∈ s.due → y ∈ s'.due) : Rooted cfg σ' (s' :: others) := by
  refine ⟨hcoherent, hsound, hheld, List.forall_mem_cons.mpr ⟨hfits, fun m hm => ?_⟩, honce,
    fun y => ?_⟩
  · refine (h.fits m (List.mem_cons_of_mem _ hm)).elsewhere hsame fun y hy hin => hxs y hy ?_
    exact List.mem_flatMap.mpr ⟨m, hm, hin⟩
  · by_cases hy : y ∈ xs
    · exact hslots y hy
    · have hat := h.slots y
      refine ⟨?_, ?_, fun k hpos hle => ?_, ?_⟩
      · rw [hsame.roots y hy, hsame.running y hy, hsame.starts y hy, hsame.spawned y hy,
          hsame.states y hy]
        exact hat.dispatched
      · intro k
        rw [hsame.spawned y hy, hsame.starts y hy]
        exact hat.started k
      · rw [hsame.starts y hy] at hle
        rw [hsame.spawned y hy, hsame.starts y hy]
        refine (hat.complete k hpos hle).imp_right fun hlast => ⟨hlast.1, ?_⟩
        rw [List.flatMap_cons, List.mem_append] at hlast ⊢
        exact hlast.2.imp_left (hdue y hy)
      · rw [hsame.states y hy]
        exact hat.unqueued

/-- No other thread holds the slot. -/
theorem other_holds (h : Rooted cfg σ (s :: others)) (hs : slot ∈ s.holds) :
    slot ∉ others.flatMap Stage.holds := fun hin =>
  (List.nodup_append.mp h.held).2.2 slot hs slot hin rfl

/-- No slot changes, and the thread's slots are the same. -/
theorem keep (h : Rooted cfg σ (s :: others)) (hlike : s.Like s') (hsame : SameBut [] σ σ')
    (hcoherent : Coherent cfg.toSlotConfig σ'.table)
    (hsound : MapSound cfg.toSlotConfig σ'.table.runningFrames σ'.table.frameSlotMap)
    (hspawned : σ'.log.spawned = σ.log.spawned) : Rooted cfg σ' (s' :: others) := by
  refine h.step hsame (fun y hy => (nomatch hy)) hcoherent hsound ?_ ?_ (hspawned ▸ h.once)
    (fun y hy => (nomatch hy)) fun y _ => ?_
  · rw [hlike.holds]
    exact h.held
  · exact hlike.fits ((h.fits s List.mem_cons_self).elsewhere hsame fun y hy => (nomatch hy))
  · rw [hlike.due]
    exact id

/-- A slot is taken into a thread's hands to be finished. -/
theorem claim (h : Rooted cfg σ (s :: others)) (hempty : s.holds = [])
    (hdue : s'.due = []) (howner : s'.owner = some slot) (hpending : s'.pending = none)
    (hcleaned : s'.cleaned = none) (hrun : slot ∈ σ.table.runningFrames.map Prod.snd)
    (hready : σ.rootsDispatched slot = true ∨
      cfg.hasNetwork = true ∧ σ.table.states slot ≠ .active)
    (hclaimed : slot ∉ σ.claimed)
    (hevicting : slot ∈ σ.log.evicting → σ.packetComplete slot = false)
    (hmine : slot ∈ σ'.claimed ∨ slot ∈ σ'.log.evicting ∧ σ'.packetComplete slot = true)
    (hqueue : cfg.slotPriorityEnabled = true →
      σ'.table.states slot = .active ∨ slot ∈ σ'.log.evicting)
    (hsame : SameBut [] σ σ') (hcoherent : Coherent cfg.toSlotConfig σ'.table)
    (hsound : MapSound cfg.toSlotConfig σ'.table.runningFrames σ'.table.frameSlotMap)
    (hspawned : σ'.log.spawned = σ.log.spawned) : Rooted cfg σ' (s' :: others) := by
  have hfree : slot ∉ others.flatMap Stage.holds := by
    intro hin
    obtain ⟨m, hm, hslot⟩ := List.mem_flatMap.mp hin
    have hfits := h.fits m (List.mem_cons_of_mem _ hm)
    rcases List.mem_append.mp hslot with hslot | hslot
    · rcases List.mem_append.mp hslot with hslot | hslot
      · obtain ⟨-, hundone, -, -, hactive⟩ := hfits.due slot hslot
        rcases hready with hdone | ⟨hnetwork, hinactive⟩
        · rw [hdone] at hundone
          cases hundone
        · exact hinactive (hactive hnetwork)
      · rcases (hfits.owner slot (Option.mem_toList.mp hslot)).2.1 with hin | ⟨hin, hcomplete⟩
        · exact hclaimed hin
        · rw [hevicting hin] at hcomplete
          cases hcomplete
    · exact (hfits.pending slot (Option.mem_toList.mp hslot)).2.1 hrun
  have hholds : s'.holds = [slot] := by
    rw [Stage.holds, hdue, howner, hpending]
    rfl
  refine h.step hsame (fun y hy => (nomatch hy)) hcoherent hsound ?_ ?_ (hspawned ▸ h.once)
    (fun y hy => (nomatch hy)) fun y _ hy => ?_
  · have hheld := h.held
    rw [List.flatMap_cons, hempty, List.nil_append] at hheld
    rw [hholds]
    exact List.nodup_cons.mpr ⟨hfree, hheld⟩
  · refine ⟨fun y hy => ?_, fun y hy => ?_, fun y hy => ?_, fun y again heq => ?_, fun y hy => ?_⟩
    · rw [hdue] at hy
      cases hy
    · obtain rfl := Option.some.inj (howner.symm.trans hy)
      exact ⟨(hsame.running _ List.not_mem_nil).mpr hrun, hmine, hqueue⟩
    · rw [hcleaned] at hy
      cases hy
    · rw [heq] at hcleaned
      cases hcleaned
    · rw [hpending] at hy
      cases hy
  · have hin := s.due_subset hy
    rw [hempty] at hin
    cases hin

/-- The owner of a slot prepares it for its next frame. -/
theorem reset (h : Rooted cfg σ (s :: others)) (howner : s.owner = some slot)
    (hholds : s.holds = [slot]) (hdue : s.due = []) (hholds' : s'.holds = [slot])
    (hdue' : s'.due = []) (howner' : s'.owner = some slot) (hpending : s'.pending = none)
    (hplain : ∀ y again, s' ≠ .counted y (some again)) :
    Rooted cfg (Flow.resetCounters slot σ) (s' :: others) := by
  have hclaims : slot ∈ (Flow.resetCounters slot σ).claimed ∧
      ∀ y ∈ σ.claimed, y ∈ (Flow.resetCounters slot σ).claimed := by
    unfold Flow.resetCounters
    dsimp only
    split
    · next hin => exact ⟨hin, fun _ hy => hy⟩
    · exact ⟨List.mem_cons_self, fun _ hy => List.mem_cons_of_mem _ hy⟩
  have hother : ∀ {y}, y ∉ [slot] → y ≠ slot := fun hy heq => hy (heq ▸ List.mem_cons_self)
  have hsame : SameBut [slot] σ (Flow.resetCounters slot σ) :=
    ⟨fun _ _ => Iff.rfl, fun _ _ => rfl, fun y hy => Function.update_of_ne (hother hy) .., fun _ _ => rfl,
      fun _ _ _ => Iff.rfl, fun y _ hy => hclaims.2 y hy, fun _ _ hy => hy,
      fun y hy hcomplete => (Function.update_of_ne (hother hy) ..).trans hcomplete⟩
  have hundone : (Flow.resetCounters slot σ).rootsDispatched slot = false :=
    Function.update_self ..
  have hc := h.coherent
  refine h.step hsame (fun y hy => ?_) ⟨hc.inRange, hc.lastInRange, hc.inactive_iff, hc.distinct,
    hc.bitmap, hc.frameOf, hc.noFrame⟩ h.sound ?_ ?_ h.once (fun y hy => ?_) fun y _ hy => ?_
  · obtain rfl := List.mem_singleton.mp hy
    exact h.other_holds (Stage.owner_mem howner)
  · rw [hholds', ← hholds]
    exact h.held
  · obtain ⟨hrun, -, hqueue⟩ := (h.fits s List.mem_cons_self).owner slot howner
    refine ⟨fun y hy => ?_, fun y hy => ?_, fun y hy => ?_, fun y again heq => absurd heq (hplain y again),
      fun y hy => ?_⟩
    · rw [hdue'] at hy
      cases hy
    · obtain rfl := Option.some.inj (howner'.symm.trans hy)
      exact ⟨hrun, .inl hclaims.1, hqueue⟩
    · obtain rfl := Option.some.inj (howner'.symm.trans (Stage.owner_of_cleaned hy))
      exact hundone
    · rw [hpending] at hy
      cases hy
  · obtain rfl := List.mem_singleton.mp hy
    refine ⟨fun hdone => ?_, (h.slots y).started, fun k hpos hle => ?_, (h.slots y).unqueued⟩
    · rw [hundone] at hdone
      cases hdone
    · refine ((h.slots y).complete k hpos hle).imp_right fun hlast => ⟨hlast.1, ?_⟩
      rw [List.flatMap_cons, hdue', ← hdue]
      exact hlast.2
  · rw [hdue] at hy
    cases hy

/-- The frame is counted; on a compute-only graph its slot may be going to restart. -/
theorem counted {restart : Option ℕ} (h : Rooted cfg σ (.reset slot :: others))
    (hrestart : ∀ again, restart = some again → again = slot ∧ cfg.hasNetwork = false)
    (hsame : SameBut [] σ σ') (hcoherent : Coherent cfg.toSlotConfig σ'.table)
    (hsound : MapSound cfg.toSlotConfig σ'.table.runningFrames σ'.table.frameSlotMap)
    (hspawned : σ'.log.spawned = σ.log.spawned) :
    Rooted cfg σ' (.counted slot restart :: others) := by
  have hfits := (h.fits _ List.mem_cons_self).elsewhere hsame fun y hy => (nomatch hy)
  refine h.step hsame (fun y hy => (nomatch hy)) hcoherent hsound h.held ?_ (hspawned ▸ h.once)
    (fun y hy => (nomatch hy)) fun y _ hy => hy
  refine ⟨hfits.due, hfits.owner, hfits.cleaned, fun y again heq => ?_, hfits.pending⟩
  obtain ⟨rfl, hagain⟩ := Stage.counted.inj heq
  exact hrestart again hagain

/-- The owner of a slot gives it up. -/
theorem leave {restart : Option ℕ} (h : Rooted cfg σ (.counted slot restart :: others))
    (hslot : slot < cfg.slots) (hsame : SameBut [slot] σ σ')
    (hcoherent : Coherent cfg.toSlotConfig σ'.table)
    (hsound : MapSound cfg.toSlotConfig σ'.table.runningFrames σ'.table.frameSlotMap)
    (hfree : slot ∉ σ'.table.runningFrames.map Prod.snd)
    (hinactive : σ'.table.states slot = .inactive)
    (hroots : σ'.rootsDispatched = σ.rootsDispatched) (hstarts : σ'.log.starts = σ.log.starts)
    (hspawned : σ'.log.spawned = σ.log.spawned) :
    Rooted cfg σ' (.afterRelease restart :: others) := by
  have hfits := h.fits _ List.mem_cons_self
  have hundone : σ.rootsDispatched slot = false := hfits.cleaned slot rfl
  have hafter : (Stage.afterRelease restart).due = [] ∧ (Stage.afterRelease restart).owner = none ∧
      (Stage.afterRelease restart).cleaned = none ∧ (Stage.afterRelease restart).pending = restart ∧
      ∀ y again, Stage.afterRelease restart ≠ .counted y (some again) := by
    cases restart with
    | none => exact ⟨rfl, rfl, rfl, rfl, fun _ _ heq => (nomatch heq)⟩
    | some again => exact ⟨rfl, rfl, rfl, rfl, fun _ _ heq => (nomatch heq)⟩
  obtain ⟨hdue, howner, hcleaned, hpending, hplain⟩ := hafter
  refine h.step hsame (fun y hy => ?_) hcoherent hsound ?_ ?_ (hspawned ▸ h.once) (fun y hy => ?_)
    fun y _ hy => (nomatch hy)
  · obtain rfl := List.mem_singleton.mp hy
    exact h.other_holds List.mem_cons_self
  · have hheld : (slot :: others.flatMap Stage.holds).Nodup := h.held
    rw [Stage.holds, hdue, howner, hpending]
    cases hagain : restart with
    | none => exact (List.nodup_cons.mp hheld).2
    | some again =>
      obtain ⟨rfl, -⟩ := hfits.restarts slot again (by rw [hagain])
      exact hheld
  · refine ⟨fun y hy => ?_, fun y hy => ?_, fun y hy => ?_, fun y again heq => absurd heq (hplain y again),
      fun y hy => ?_⟩
    · rw [hdue] at hy
      cases hy
    · rw [howner] at hy
      cases hy
    · rw [hcleaned] at hy
      cases hy
    · rw [hpending] at hy
      obtain ⟨rfl, hcompute⟩ := hfits.restarts slot y (by rw [hy])
      exact ⟨hslot, hfree, hcompute⟩
  · obtain rfl := List.mem_singleton.mp hy
    refine ⟨fun hdone => ?_, ?_, fun k hpos hle => ?_, fun _ _ _ => ?_⟩
    · rw [hroots, hundone] at hdone
      cases hdone
    · rw [hspawned, hstarts]
      exact (h.slots y).started
    · rw [hstarts] at hle
      rw [hspawned, hstarts, List.flatMap_cons, hdue]
      exact (h.slots y).complete k hpos hle
    · rw [hinactive]
      decide

/-- A slot that nobody holds starts a frame, and the dispatch is due. -/
theorem start (h : Rooted cfg σ (s :: others)) (hfree : slot ∉ (s :: others).flatMap Stage.holds)
    (hdue : s'.due.Perm (slot :: s.due)) (howner : s.owner = none) (howner' : s'.owner = none)
    (hpending : s'.pending = s.pending) (hsame : SameBut [slot] σ σ')
    (hcoherent : Coherent cfg.toSlotConfig σ'.table)
    (hsound : MapSound cfg.toSlotConfig σ'.table.runningFrames σ'.table.frameSlotMap)
    (hrun : slot ∈ σ'.table.runningFrames.map Prod.snd)
    (hactive : cfg.hasNetwork = true → σ'.table.states slot = .active)
    (hunqueued : cfg.hasNetwork = false → cfg.slotPriorityEnabled = true →
      σ'.table.states slot ≠ .buffering)
    (hundone : σ'.rootsDispatched slot = false)
    (hstarts : σ'.log.starts slot = σ.log.starts slot + 1)
    (hspawned : σ'.log.spawned = σ.log.spawned) : Rooted cfg σ' (s' :: others) := by
  have hat := h.slots slot
  have hmine : slot ∉ s.holds := fun hin =>
    hfree (List.mem_append_left _ hin)
  have hnew : (slot, σ.log.starts slot + 1) ∉ σ.log.spawned := fun hin => by
    have := (hat.started _ hin).2
    omega
  have hfits := (h.fits s List.mem_cons_self).elsewhere hsame fun y hy => by
    obtain rfl := List.mem_singleton.mp hy
    exact hmine
  have hholds : s'.holds.Perm (slot :: s.holds) := by
    unfold Stage.holds
    rw [howner, howner', hpending]
    exact (hdue.append_right _).append_right _
  refine h.step hsame (fun y hy => ?_) hcoherent hsound ?_ ?_ (hspawned ▸ h.once) (fun y hy => ?_)
    fun y _ hy => hdue.mem_iff.mpr (List.mem_cons_of_mem _ hy)
  · obtain rfl := List.mem_singleton.mp hy
    exact fun hin => hfree (List.mem_append_right _ hin)
  · exact (hholds.append_right _).nodup_iff.mpr (List.nodup_cons.mpr ⟨hfree, h.held⟩)
  · refine ⟨fun y hy => ?_, fun y hy => ?_, fun y hy => ?_, fun y again heq => ?_, fun y hy => ?_⟩
    · rcases List.mem_cons.mp (hdue.mem_iff.mp hy) with rfl | hy
      · rw [hstarts, hspawned]
        exact ⟨hrun, hundone, Nat.le_add_left 1 _, hnew, hactive⟩
      · exact hfits.due y hy
    · rw [howner'] at hy
      cases hy
    · rw [Stage.owner_of_cleaned hy] at howner'
      cases howner'
    · rw [heq] at howner'
      cases howner'
    · rw [hpending] at hy
      exact hfits.pending y hy
  · obtain rfl := List.mem_singleton.mp hy
    refine ⟨fun hdone => ?_, fun k hin => ?_, fun k hpos hle => ?_, fun hcompute hpriority _ =>
      hunqueued hcompute hpriority⟩
    · rw [hundone] at hdone
      cases hdone
    · rw [hspawned] at hin
      rw [hstarts]
      exact ⟨(hat.started k hin).1, Nat.le_succ_of_le (hat.started k hin).2⟩
    · rw [hstarts] at hle
      rw [hstarts, hspawned]
      rcases Nat.lt_or_eq_of_le hle with hlt | rfl
      · refine .inl ((hat.complete k hpos (Nat.le_of_lt_succ hlt)).resolve_right fun hlast => hfree ?_)
        obtain ⟨m, hm, hin⟩ := List.mem_flatMap.mp hlast.2
        exact List.mem_flatMap.mpr ⟨m, hm, m.due_subset hin⟩
      · exact .inr ⟨rfl, List.mem_append_left _ (hdue.mem_iff.mpr List.mem_cons_self)⟩

/-- A slot that nobody holds waits with its frame. -/
theorem queue (h : Rooted cfg σ (s :: others)) (hlike : s.Like s')
    (hfree : slot ∉ (s :: others).flatMap Stage.holds) (hsame : SameBut [slot] σ σ')
    (hcoherent : Coherent cfg.toSlotConfig σ'.table)
    (hsound : MapSound cfg.toSlotConfig σ'.table.runningFrames σ'.table.frameSlotMap)
    (hnetwork : cfg.hasNetwork = true) (hundone : σ'.rootsDispatched slot = false)
    (hstarts : σ'.log.starts = σ.log.starts) (hspawned : σ'.log.spawned = σ.log.spawned) :
    Rooted cfg σ' (s' :: others) := by
  refine h.step hsame (fun y hy => ?_) hcoherent hsound ?_ ?_ (hspawned ▸ h.once) (fun y hy => ?_)
    fun y _ => ?_
  · obtain rfl := List.mem_singleton.mp hy
    exact fun hin => hfree (List.mem_append_right _ hin)
  · rw [hlike.holds]
    exact h.held
  · refine hlike.fits ((h.fits s List.mem_cons_self).elsewhere hsame fun y hy hin => ?_)
    obtain rfl := List.mem_singleton.mp hy
    exact hfree (List.mem_append_left _ hin)
  · obtain rfl := List.mem_singleton.mp hy
    refine ⟨fun hdone => ?_, ?_, fun k hpos hle => ?_, fun hcompute => ?_⟩
    · rw [hundone] at hdone
      cases hdone
    · rw [hspawned, hstarts]
      exact (h.slots y).started
    · rw [hstarts] at hle
      rw [hspawned, hstarts, List.flatMap_cons, hlike.due]
      exact (h.slots y).complete k hpos hle
    · rw [hnetwork] at hcompute
      cases hcompute
  · rw [hlike.due]
    exact id

/-- The initial nodes of a slot that is due are dispatched. -/
theorem dispatch {slots : List ℕ} (h : Rooted cfg σ (s :: others)) (hdue : s.due = slot :: slots)
    (hdue' : s'.due = slots) (howner : s.owner = none) (howner' : s'.owner = none)
    (hpending : s'.pending = s.pending) :
    Rooted cfg (Flow.perform cfg (.dispatchInitial slot) σ).2 (s' :: others) := by
  obtain ⟨hrun, -, hpos, hnew, hactive⟩ :=
    (h.fits s List.mem_cons_self).due slot (by rw [hdue]; exact List.mem_cons_self)
  have hother : ∀ {y}, y ∉ [slot] → y ≠ slot := fun hy heq => hy (heq ▸ List.mem_cons_self)
  have hspawned : ∀ y ≠ slot, ∀ k, (y, k) ∈ (slot, σ.log.starts slot) :: σ.log.spawned ↔
      (y, k) ∈ σ.log.spawned := fun y hy k =>
    ⟨fun hin => (List.mem_cons.mp hin).resolve_left fun heq => hy (Prod.mk.inj heq).1,
      List.mem_cons_of_mem _⟩
  have hsame : SameBut [slot] σ (Flow.perform cfg (.dispatchInitial slot) σ).2 :=
    ⟨fun _ _ => Iff.rfl, fun _ _ => rfl, fun y hy => Function.update_of_ne (hother hy) .., fun _ _ => rfl,
      fun y hy => hspawned y (hother hy), fun _ _ hy => hy, fun _ _ hy => hy, fun _ _ hy => hy⟩
  have hholds : s.holds = slot :: s'.holds := by
    unfold Stage.holds
    rw [hdue, hdue', howner, howner', hpending]
    rfl
  have hmine : slot ∉ s'.holds := by
    have hheld := h.held
    rw [List.flatMap_cons, hholds] at hheld
    exact fun hin => (List.nodup_cons.mp hheld).1 (List.mem_append_left _ hin)
  refine h.step hsame (fun y hy => ?_) h.coherent h.sound ?_ ?_ (List.nodup_cons.mpr ⟨hnew, h.once⟩)
    (fun y hy => ?_) fun y hy hin => ?_
  · obtain rfl := List.mem_singleton.mp hy
    exact h.other_holds (by rw [hholds]; exact List.mem_cons_self)
  · have hheld := h.held
    rw [List.flatMap_cons, hholds] at hheld
    exact (List.nodup_cons.mp hheld).2
  · refine Stage.Fits.elsewhere ?_ hsame fun y hy => ?_
    · have hfits := h.fits s List.mem_cons_self
      refine ⟨fun y hy => ?_, fun y hy => ?_, fun y hy => ?_, fun y again heq => ?_, fun y hy => ?_⟩
      · exact hfits.due y (by rw [hdue, ← hdue']; exact List.mem_cons_of_mem _ hy)
      · rw [howner'] at hy
        cases hy
      · rw [Stage.owner_of_cleaned hy] at howner'
        cases howner'
      · rw [heq] at howner'
        cases howner'
      · exact hfits.pending y (hpending ▸ hy)
    · obtain rfl := List.mem_singleton.mp hy
      exact hmine
  · obtain rfl := List.mem_singleton.mp hy
    have hat := h.slots y
    refine ⟨fun _ => ⟨hrun, List.mem_cons_self, hactive⟩, fun k hin => ?_, fun k hone hle => ?_,
      hat.unqueued⟩
    · rcases List.mem_cons.mp hin with heq | hin
      · obtain rfl := (Prod.mk.inj heq).2
        exact ⟨hpos, le_rfl⟩
      · exact hat.started k hin
    · refine .inl ?_
      rcases hat.complete k hone hle with hin | ⟨rfl, -⟩
      · exact List.mem_cons_of_mem _ hin
      · exact List.mem_cons_self
  · rw [hdue] at hin
    rw [hdue']
    exact (List.mem_cons.mp hin).resolve_left (hother hy)

/-- A slot without a frame is in nobody's hands, unless it will restart. -/
theorem free_of_vacant (h : Rooted cfg σ ss) (hvacant : slot ∉ σ.table.runningFrames.map Prod.snd)
    (hpending : ∀ s ∈ ss, s.pending ≠ some slot) : slot ∉ ss.flatMap Stage.holds := by
  intro hin
  obtain ⟨s, hs, hslot⟩ := List.mem_flatMap.mp hin
  have hfits := h.fits s hs
  rcases List.mem_append.mp hslot with hslot | hslot
  · rcases List.mem_append.mp hslot with hslot | hslot
    · exact hvacant (hfits.due slot hslot).1
    · exact hvacant (hfits.owner slot (Option.mem_toList.mp hslot)).1
  · exact hpending s hs (Option.mem_toList.mp hslot)

theorem undone_of_vacant (h : Rooted cfg σ ss)
    (hvacant : slot ∉ σ.table.runningFrames.map Prod.snd) : σ.rootsDispatched slot = false :=
  Bool.eq_false_of_not_eq_true fun hdone => hvacant ((h.slots slot).dispatched hdone).1

/-- A slot that is `Buffering` and not evicted is in nobody's hands, where slots are promoted. -/
theorem free_of_buffering (h : Rooted cfg σ ss) (hpriority : cfg.slotPriorityEnabled = true)
    (hrun : slot ∈ σ.table.runningFrames.map Prod.snd)
    (hbuffering : σ.table.states slot = .buffering) (hevicting : slot ∉ σ.log.evicting) :
    slot ∉ ss.flatMap Stage.holds ∧ σ.rootsDispatched slot = false := by
  have hlt : slot < cfg.slots := by
    obtain ⟨e, he, rfl⟩ := List.mem_map.mp hrun
    exact h.coherent.inRange e he
  have hidle : σ.table.states slot ≠ .active := by
    rw [hbuffering]
    decide
  have hactive : (cfg.hasNetwork = true → σ.table.states slot = .active) → False := by
    intro hnetwork
    cases hmode : cfg.hasNetwork with
    | true => exact hidle (hnetwork hmode)
    | false => exact (h.slots slot).unqueued hmode hpriority hlt hbuffering
  refine ⟨fun hin => ?_, Bool.eq_false_of_not_eq_true fun hdone =>
    hactive ((h.slots slot).dispatched hdone).2.2⟩
  obtain ⟨s, hs, hslot⟩ := List.mem_flatMap.mp hin
  have hfits := h.fits s hs
  rcases List.mem_append.mp hslot with hslot | hslot
  · rcases List.mem_append.mp hslot with hslot | hslot
    · exact hactive (hfits.due slot hslot).2.2.2.2
    · exact ((hfits.owner slot (Option.mem_toList.mp hslot)).2.2 hpriority).elim hidle hevicting
  · exact (hfits.pending slot (Option.mem_toList.mp hslot)).2.1 hrun

/-- The thread no longer waits to restart its slot. -/
theorem drop (h : Rooted cfg σ (.waiting slot :: others)) :
    Rooted cfg σ (.ready :: others) ∧ slot ∉ (.ready :: others).flatMap Stage.holds := by
  have hsame : SameBut [] σ σ :=
    ⟨fun _ _ => Iff.rfl, fun _ _ => rfl, fun _ _ => rfl, fun _ _ => rfl, fun _ _ _ => Iff.rfl,
      fun _ _ hy => hy, fun _ _ hy => hy, fun _ _ hy => hy⟩
  have hheld : (slot :: others.flatMap Stage.holds).Nodup := h.held
  obtain ⟨hfree, hrest⟩ := List.nodup_cons.mp hheld
  exact ⟨h.step hsame (fun y hy => (nomatch hy)) h.coherent h.sound hrest
    ⟨fun y hy => (nomatch hy), fun y hy => (nomatch hy), fun y hy => (nomatch hy),
      fun y again heq => (nomatch heq), fun y hy => (nomatch hy)⟩ h.once
    (fun y hy => (nomatch hy)) fun y _ hy => (nomatch hy), hfree⟩

end Rooted

end Tomii.Slots
