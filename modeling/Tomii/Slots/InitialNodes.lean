import Tomii.Slots.FrameCounts
import Tomii.Slots.SlotHolders

/-! # Initial nodes, once for each frame

The initial nodes of a slot are dispatched by whoever starts its frame: the preparation, the packet
that activates the slot, the release that promotes it, or the restart. The preparation does not look
whether a packet was first. -/
namespace Tomii.Slots
set_option autoImplicit false
set_option maxHeartbeats 250000

/-- With a network the preparation comes before the packets: its frames have no slot yet, and get one
that is active. No slot is both completed and evicted, evicted as long as the dispatch of its initial
nodes is due, or promoted during its eviction. -/
def DispatchesApart (cfg : FlowConfig) (σ : Flow) (_ : ℕ) : FlowAct → Prop
  | .lookup frame .preparation =>
    cfg.hasNetwork = true → σ.table.frameSlotLookup cfg.toSlotConfig frame = none
  | .assignUnderLock frame .preparation => cfg.hasNetwork = true →
    frame ∉ σ.table.runningFrames.map Prod.fst ∧
      (σ.table.states σ.table.lastAssigned = .inactive ∨ cfg.slotPriorityEnabled = false)
  | .claimCompletion slot => Flow.Claimable cfg slot σ → slot ∉ σ.log.evicting
  | .claimEviction slot => σ.packetComplete slot = false →
    slot ∈ σ.table.runningFrames.map Prod.snd ∧ slot ∉ σ.claimed ∧
      (σ.table.states slot = .active → σ.rootsDispatched slot = true)
  | .releaseUnderLock slot =>
    ∀ out ∈ (σ.table.releaseUnderLock cfg.toSlotConfig slot).1, out.1 ∉ σ.log.evicting
  | _ => True

instance (cfg : FlowConfig) (σ : Flow) (choice : ℕ) (a : FlowAct) :
    Decidable (DispatchesApart cfg σ choice a) := by
  induction a using FlowAct.casesOn with
  | lookup frame site =>
    induction site using Site.casesOn with
    | packet => exact .isTrue trivial
    | preparation => exact inferInstanceAs (Decidable (_ → _ = none))
  | assignUnderLock frame site =>
    induction site using Site.casesOn with
    | packet => exact .isTrue trivial
    | preparation => exact inferInstanceAs (Decidable (_ → _ ∧ (_ ∨ _)))
  | claimCompletion slot => exact inferInstanceAs (Decidable (_ → slot ∉ σ.log.evicting))
  | claimEviction slot => exact inferInstanceAs (Decidable (_ → _ ∧ _ ∧ (_ → _)))
  | releaseUnderLock slot =>
    exact inferInstanceAs (Decidable (∀ out ∈ (σ.table.releaseUnderLock cfg.toSlotConfig slot).1,
      out.1 ∉ σ.log.evicting))
  | _ => exact .isTrue trivial

/-! ## The preparation of a compute-only run -/

/-- Without a network nothing is started before the preparation has assigned its slots. -/
structure Preparing (σ : Flow) (ss : List Stage) : Prop where
  before : σ.prepDone = false → σ.table.runningFrames = [] ∧ σ.log.spawned = [] ∧
    ∀ s ∈ ss, s.Still
  during : ∀ slots, Stage.assigning slots ∈ ss → σ.prepDone = true ∧ σ.log.spawned = [] ∧
    σ.table.runningFrames.map Prod.fst = List.range slots.length
  apart : ss.Pairwise fun s t => (s.Assigns → t.Still) ∧ (t.Assigns → s.Still)

namespace Preparing

variable {σ σ' : Flow} {s s' : Stage} {ss ss' others : List Stage}

theorem perm (h : Preparing σ ss) (hp : ss.Perm ss') : Preparing σ ss' where
  before hdone := ⟨(h.before hdone).1, (h.before hdone).2.1, fun s hs =>
    (h.before hdone).2.2 s (hp.mem_iff.mpr hs)⟩
  during slots hs := h.during slots (hp.mem_iff.mpr hs)
  apart := hp.pairwise h.apart fun hst => And.symm hst

theorem apart_cons (h : Preparing σ (s :: others)) :
    (∀ t ∈ others, (s.Assigns → t.Still) ∧ (t.Assigns → s.Still)) ∧
      others.Pairwise fun s t => (s.Assigns → t.Still) ∧ (t.Assigns → s.Still) :=
  List.pairwise_cons.mp h.apart

/-- A step that starts nothing and dispatches nothing. -/
theorem keep (h : Preparing σ (s :: others)) (hdone : σ'.prepDone = σ.prepDone)
    (hspawned : σ'.log.spawned = σ.log.spawned)
    (hrunning : σ'.table.runningFrames = σ.table.runningFrames) (hlike : s.Like s')
    (hassigns : s'.Assigns → s' = s) : Preparing σ' (s' :: others) := by
  have hstill : s.Still → s'.Still := fun hs => ⟨hlike.holds.trans hs.1, fun hs' =>
    hs.2 (hassigns hs' ▸ hs')⟩
  refine ⟨fun hfalse => ?_, fun slots hin => ?_, List.pairwise_cons.mpr ⟨fun t ht => ?_, h.apart_cons.2⟩⟩
  · rw [hrunning, hspawned]
    obtain ⟨hempty, hnone, hall⟩ := h.before (hdone ▸ hfalse)
    exact ⟨hempty, hnone, List.forall_mem_cons.mpr
      ⟨hstill (hall s List.mem_cons_self), fun m hm => hall m (List.mem_cons_of_mem _ hm)⟩⟩
  · rw [hrunning, hspawned, hdone]
    refine h.during slots ?_
    rcases List.mem_cons.mp hin with heq | hin
    · rw [heq, hassigns ⟨slots, heq.symm⟩]
      exact List.mem_cons_self
    · exact List.mem_cons_of_mem _ hin
  · obtain ⟨hleft, hright⟩ := h.apart_cons.1 t ht
    exact ⟨fun hs' => hleft (hassigns hs' ▸ hs'), fun hassign => hstill (hright hassign)⟩

/-- Once a thread holds a slot, the assignments are over. -/
theorem past (h : Preparing σ (s :: others)) (hholds : s.holds ≠ []) (hover : ¬ s'.Assigns)
    (hdone : σ'.prepDone = σ.prepDone) : Preparing σ' (s' :: others) := by
  have hnone : ∀ t ∈ others, ¬ t.Assigns := fun t ht hassign =>
    hholds ((h.apart_cons.1 t ht).2 hassign).1
  refine ⟨fun hfalse => ?_, fun slots hin => ?_, List.pairwise_cons.mpr ⟨fun t ht => ?_, h.apart_cons.2⟩⟩
  · exact absurd ((h.before (hdone ▸ hfalse)).2.2 s List.mem_cons_self).1 hholds
  · rcases List.mem_cons.mp hin with heq | hin
    · exact absurd ⟨slots, heq.symm⟩ hover
    · exact absurd ⟨slots, rfl⟩ (hnone _ hin)
  · exact ⟨fun hs' => absurd hs' hover, fun hassign => absurd hassign (hnone t ht)⟩

/-- The assignments of the preparation end with its first dispatch. -/
theorem finish {slots : List ℕ} (h : Preparing σ (.assigning slots :: others))
    (hover : ¬ s'.Assigns) (hdone : σ'.prepDone = σ.prepDone) : Preparing σ' (s' :: others) := by
  have hothers : ∀ t ∈ others, t.Still := fun t ht => (h.apart_cons.1 t ht).1 ⟨slots, rfl⟩
  refine ⟨fun hfalse => ?_, fun more hin => ?_, List.pairwise_cons.mpr ⟨fun t ht => ?_, h.apart_cons.2⟩⟩
  · rw [hdone, (h.during slots List.mem_cons_self).1] at hfalse
    cases hfalse
  · rcases List.mem_cons.mp hin with heq | hin
    · exact absurd ⟨more, heq.symm⟩ hover
    · exact absurd ⟨more, rfl⟩ (hothers _ hin).2
  · exact ⟨fun hs' => absurd hs' hover, fun hassign => absurd hassign (hothers t ht).2⟩

/-- The preparation begins. -/
theorem begin (h : Preparing σ (.ready :: others)) (hfalse : σ.prepDone = false)
    (hdone : σ'.prepDone = true) (hspawned : σ'.log.spawned = σ.log.spawned)
    (hrunning : σ'.table.runningFrames = σ.table.runningFrames) :
    Preparing σ' (.assigning [] :: others) := by
  obtain ⟨hempty, hnone, hall⟩ := h.before hfalse
  have hothers : ∀ t ∈ others, t.Still := fun t ht => hall t (List.mem_cons_of_mem _ ht)
  refine ⟨fun hfalse => ?_, fun slots hin => ?_, List.pairwise_cons.mpr ⟨fun t ht => ?_, h.apart_cons.2⟩⟩
  · rw [hdone] at hfalse
    cases hfalse
  · rcases List.mem_cons.mp hin with heq | hin
    · obtain rfl := Stage.assigning.inj heq
      rw [hspawned, hrunning, hempty]
      exact ⟨hdone, hnone, rfl⟩
    · exact absurd ⟨slots, rfl⟩ (hothers _ hin).2
  · exact ⟨fun _ => hothers t ht, fun hassign => absurd hassign (hothers t ht).2⟩

/-- The preparation has assigned one more frame. -/
theorem assign {slots : List ℕ} {slot : ℕ} (h : Preparing σ (.assigning slots :: others))
    (hdone : σ'.prepDone = σ.prepDone) (hspawned : σ'.log.spawned = σ.log.spawned)
    (hrunning : σ'.table.runningFrames = σ.table.runningFrames ++ [(slots.length, slot)]) :
    Preparing σ' (.assigning (slots ++ [slot]) :: others) := by
  obtain ⟨hprep, hnone, hframes⟩ := h.during slots List.mem_cons_self
  have hothers : ∀ t ∈ others, t.Still := fun t ht => (h.apart_cons.1 t ht).1 ⟨slots, rfl⟩
  refine ⟨fun hfalse => ?_, fun more hin => ?_, List.pairwise_cons.mpr ⟨fun t ht => ?_, h.apart_cons.2⟩⟩
  · rw [hdone, hprep] at hfalse
    cases hfalse
  · rcases List.mem_cons.mp hin with heq | hin
    · obtain rfl := Stage.assigning.inj heq
      refine ⟨hdone.trans hprep, hspawned.trans hnone, ?_⟩
      rw [hrunning, List.map_append, hframes, List.length_append, List.length_singleton,
        List.range_succ]
      rfl
    · exact absurd ⟨more, rfl⟩ (hothers _ hin).2
  · exact ⟨fun _ => hothers t ht, fun hassign => absurd hassign (hothers t ht).2⟩

end Preparing

/-! ## Steps -/

section Steps

variable {cfg : FlowConfig} {σ σ' : Flow} {l l' : FlowPhase} {others : List FlowPhase}

def RootsInv (cfg : FlowConfig) (σ : Flow) (ls : List FlowPhase) : Prop :=
  Rooted cfg σ (ls.map FlowPhase.stage) ∧
    (cfg.hasNetwork = false → Preparing σ (ls.map FlowPhase.stage))

theorem RootsInv.perm {ls ls' : List FlowPhase} (h : RootsInv cfg σ ls) (hp : ls.Perm ls') :
    RootsInv cfg σ ls' :=
  ⟨h.1.perm (hp.map _), fun hcompute => (h.2 hcompute).perm (hp.map _)⟩

/-- Slots, starts and dispatches are as before. -/
structure Unmoved (σ σ' : Flow) : Prop where
  running : σ'.table.runningFrames = σ.table.runningFrames
  map : σ'.table.frameSlotMap = σ.table.frameSlotMap
  states : σ'.table.states = σ.table.states
  roots : σ'.rootsDispatched = σ.rootsDispatched
  starts : σ'.log.starts = σ.log.starts
  spawned : σ'.log.spawned = σ.log.spawned
  prepared : σ'.prepDone = σ.prepDone
  claimed : ∀ y ∈ σ.claimed, y ∈ σ'.claimed
  evicting : ∀ y ∈ σ.log.evicting, y ∈ σ'.log.evicting
  complete : ∀ y, σ.packetComplete y = true → σ'.packetComplete y = true

theorem Unmoved.sameBut (h : Unmoved σ σ') : SameBut [] σ σ' where
  running y _ := by rw [h.running]
  states y _ := congrFun h.states y
  roots y _ := congrFun h.roots y
  starts y _ := congrFun h.starts y
  spawned y _ k := by rw [h.spawned]
  claimed y _ := h.claimed y
  evicting y _ := h.evicting y
  complete y _ := h.complete y

theorem Unmoved.refl (σ : Flow) : Unmoved σ σ :=
  ⟨rfl, rfl, rfl, rfl, rfl, rfl, rfl, fun _ hy => hy, fun _ hy => hy, fun _ hy => hy⟩

theorem Unmoved.buffer (ni : NodeInfo) : Unmoved σ (Flow.buffer ni σ).2 := by
  rw [Flow.buffer_eq]
  exact ⟨rfl, rfl, rfl, rfl, rfl, rfl, rfl, fun _ hy => hy, fun _ hy => hy, fun _ hy => hy⟩

theorem RootsInv.stay (h : RootsInv cfg σ (l :: others)) (hlike : l.stage.Like l'.stage)
    (hassigns : l'.stage.Assigns → l'.stage = l.stage)
    (hcoherent : Coherent cfg.toSlotConfig σ'.table) (hsame : Unmoved σ σ') :
    RootsInv cfg σ' (l' :: others) := by
  refine ⟨h.1.keep hlike hsame.sameBut hcoherent ?_ hsame.spawned, fun hcompute =>
    (h.2 hcompute).keep hsame.prepared hsame.spawned hsame.running hlike hassigns⟩
  rw [hsame.running, hsame.map]
  exact h.1.sound

/-- A thread that has no slot in its hands, before and after. -/
theorem RootsInv.pass (h : RootsInv cfg σ (l :: others)) (hbefore : l.stage.bare = true)
    (hafter : l'.stage.bare = true) (hcoherent : Coherent cfg.toSlotConfig σ'.table)
    (hsame : Unmoved σ σ') : RootsInv cfg σ' (l' :: others) :=
  h.stay (Stage.like_of_bare hbefore hafter).1
    (fun hassigns => absurd hassigns (Stage.like_of_bare hbefore hafter).2) hcoherent hsame

/-- An assignment that seats its frame changes that slot. -/
theorem assignUnderLock_sameBut {frame slot : ℕ} {newly : Bool} {site : Site} {d : SlotData}
    (hd : σ.table.assignUnderLock cfg.toSlotConfig frame = (some (slot, newly), d))
    (hs : Seats cfg.toSlotConfig σ.table frame slot newly d) :
    SameBut [slot] σ (Flow.assignUnderLock cfg frame site σ).2 := by
  have hother : ∀ {y}, y ∉ [slot] → y ≠ slot := fun hy heq => hy (heq ▸ List.mem_cons_self)
  unfold Flow.assignUnderLock
  rw [hd]
  refine ⟨fun y hy => ?_, fun y hy => ?_, fun _ _ => rfl, fun y hy => ?_, fun _ _ _ => Iff.rfl,
    fun _ _ hy => hy, fun _ _ hy => hy, fun _ _ hy => hy⟩
  · dsimp only
    rw [hs.running, List.map_append, List.mem_append]
    exact ⟨fun hin => hin.resolve_right hy, .inl⟩
  · dsimp only
    rw [hs.states, Function.update_of_ne (hother hy)]
  · dsimp only
    split
    · exact Function.update_of_ne (hother hy) ..
    · rfl

/-- The slot starts a frame when it turns active, and on a compute-only graph in any case. -/
theorem assignUnderLock_starts {frame slot : ℕ} {newly : Bool} {site : Site} {d : SlotData}
    (hd : σ.table.assignUnderLock cfg.toSlotConfig frame = (some (slot, newly), d))
    (hs : Seats cfg.toSlotConfig σ.table frame slot newly d) :
    (Flow.assignUnderLock cfg frame site σ).2.log.starts =
      if newly = true ∨ cfg.hasNetwork = false then
        Function.update σ.log.starts slot (σ.log.starts slot + 1)
      else σ.log.starts := by
  unfold Flow.assignUnderLock
  rw [hd]
  simp only [hs.fresh, not_false_eq_true, decide_true, Bool.true_and, Bool.or_eq_true,
    Bool.not_eq_true']

/-- The frame gets a slot that starts it, and the dispatch is due. -/
theorem RootsInv.seat {frame slot : ℕ} {newly : Bool} {site : Site} {d : SlotData} {t : Stage}
    (h : RootsInv cfg σ (l :: others))
    (hd : σ.table.assignUnderLock cfg.toSlotConfig frame = (some (slot, newly), d))
    (hs : Seats cfg.toSlotConfig σ.table frame slot newly d)
    (hstarts : newly = true ∨ cfg.hasNetwork = false)
    (hactive : cfg.hasNetwork = true ∨ cfg.slotPriorityEnabled = true → newly = true)
    (hpending : ∀ m ∈ l :: others, m.stage.pending ≠ some slot)
    (hdue : t.due.Perm (slot :: l.stage.due)) (howner : l.stage.owner = none)
    (howner' : t.owner = none) (hwaits : t.pending = l.stage.pending) :
    Rooted cfg (Flow.assignUnderLock cfg frame site σ).2 (t :: others.map FlowPhase.stage) := by
  have hcoherent := h.1.coherent
  have hvacant := hs.slot_fresh hcoherent
  have hindexed := Indexed.assignUnderLock ⟨h.1.sound, hcoherent.lastInRange⟩ frame
  refine h.1.start (h.1.free_of_vacant hvacant fun s hin => ?_) hdue howner howner'
    hwaits (assignUnderLock_sameBut hd hs) ?_ ?_ ?_ ?_ ?_ ?_ ?_ ?_
  · obtain ⟨m, hm, rfl⟩ := List.mem_map.mp hin
    exact hpending m hm
  · rw [Flow.assignUnderLock_table]
    exact hcoherent.assignUnderLock frame
  · rw [Flow.assignUnderLock_table]
    exact hindexed.sound
  · rw [Flow.assignUnderLock_table, hd, hs.running, List.map_append]
    exact List.mem_append_right _ List.mem_cons_self
  · intro hnetwork
    rw [Flow.assignUnderLock_table, hd, hs.states, Function.update_self, if_pos (hactive (.inl hnetwork))]
  · intro _ hpriority
    rw [Flow.assignUnderLock_table, hd, hs.states, Function.update_self,
      if_pos (hactive (.inr hpriority))]
    decide
  · rw [Flow.assignUnderLock_eq]
    exact h.1.undone_of_vacant hvacant
  · rw [assignUnderLock_starts hd hs, if_pos hstarts, Function.update_self]
  · rw [Flow.assignUnderLock_log]

theorem assignUnderLock_unmoved {frame : ℕ} {site : Site}
    (hd : (σ.table.assignUnderLock cfg.toSlotConfig frame).2 = σ.table)
    (hrun : (σ.table.assignUnderLock cfg.toSlotConfig frame).1 = none ∨
      frame ∈ σ.table.runningFrames.map Prod.fst ∧
        ∃ slot, (σ.table.assignUnderLock cfg.toSlotConfig frame).1 = some (slot, false)) :
    Unmoved σ (Flow.assignUnderLock cfg frame site σ).2 := by
  have hstarts : (Flow.assignUnderLock cfg frame site σ).2.log.starts = σ.log.starts := by
    unfold Flow.assignUnderLock
    rcases hrun with hnone | ⟨hin, slot, hfound⟩
    · rw [show σ.table.assignUnderLock cfg.toSlotConfig frame = (none, _) from Prod.ext hnone rfl]
    · rw [show σ.table.assignUnderLock cfg.toSlotConfig frame = (some (slot, false), _) from
        Prod.ext hfound rfl]
      simp only [hin, not_true_eq_false, decide_false, Bool.false_and, Bool.or_self,
        Bool.false_eq_true, if_false]
  refine ⟨?_, ?_, ?_, ?_, hstarts, ?_, ?_, ?_, ?_, ?_⟩
  · rw [Flow.assignUnderLock_table, hd]
  · rw [Flow.assignUnderLock_table, hd]
  · rw [Flow.assignUnderLock_table, hd]
  · rw [Flow.assignUnderLock_eq]
  · rw [Flow.assignUnderLock_log]
  · rw [Flow.assignUnderLock_eq]
  · rw [Flow.assignUnderLock_eq]
    exact fun _ hy => hy
  · rw [Flow.assignUnderLock_log]
    exact fun _ hy => hy
  · rw [Flow.assignUnderLock_eq]
    exact fun _ hy => hy

theorem RootsInv.assignPacket {p : Packet} {todo : List Packet}
    (h : RootsInv cfg σ (⟨todo, .cleared p⟩ :: others)) (hroots : cfg.hasInitialNodes = true)
    (hnetwork : cfg.hasNetwork = true) :
    RootsInv cfg (Flow.assignUnderLock cfg p.frame .packet σ).2
      ((flowDiscipline cfg).next ⟨todo, .cleared p⟩ (.assignUnderLock p.frame .packet)
        (Flow.assignUnderLock cfg p.frame .packet σ).1 :: others) := by
  have hcoherent : Coherent cfg.toSlotConfig (Flow.assignUnderLock cfg p.frame .packet σ).2.table := by
    rw [Flow.assignUnderLock_table]
    exact h.1.coherent.assignUnderLock p.frame
  have hcompute : cfg.hasNetwork = false → False := fun hcompute => by
    rw [hnetwork] at hcompute
    cases hcompute
  have hpending : ∀ slot, ∀ m ∈ ⟨todo, .cleared p⟩ :: others, m.stage.pending ≠ some slot :=
    fun slot m hm hs => hcompute ((h.1.fits m.stage (List.mem_map_of_mem hm)).pending slot hs).2.2
  rw [Flow.assignUnderLock_reply]
  rcases assignUnderLock_seats h.1.coherent p.frame with hd | ⟨slot, hin, hd⟩ | ⟨slot, newly, d, hd, hs⟩
  · have hsame : Unmoved σ (Flow.assignUnderLock cfg p.frame .packet σ).2 :=
      assignUnderLock_unmoved (by rw [hd]) (.inl (by rw [hd]))
    rw [hd]
    exact h.pass rfl rfl hcoherent hsame
  · have hsame : Unmoved σ (Flow.assignUnderLock cfg p.frame .packet σ).2 :=
      assignUnderLock_unmoved (by rw [hd])
        (.inr ⟨List.mem_map_of_mem hin, slot, by rw [hd]⟩)
    rw [hd]
    exact h.pass rfl rfl hcoherent hsame
  · rw [hd]
    cases newly with
    | true =>
      simp only [flowDiscipline, Stage.assigned, hroots, Bool.and_self, if_true]
      refine ⟨?_, fun hmode => (hcompute hmode).elim⟩
      exact h.seat hd hs (.inl rfl) (fun _ => rfl) (hpending slot) (.refl _) rfl rfl rfl
    | false =>
      refine ⟨?_, fun hmode => (hcompute hmode).elim⟩
      have hvacant := hs.slot_fresh h.1.coherent
      refine Rooted.queue h.1 ⟨rfl, rfl, rfl, rfl, fun _ _ heq => (by cases heq)⟩ (h.1.free_of_vacant hvacant fun s hin => ?_)
        (assignUnderLock_sameBut hd hs) hcoherent ?_ hnetwork ?_ ?_ ?_
      · obtain ⟨m, hm, rfl⟩ := List.mem_map.mp hin
        exact hpending slot m hm
      · rw [Flow.assignUnderLock_table]
        exact (Indexed.assignUnderLock ⟨h.1.sound, h.1.coherent.lastInRange⟩ p.frame).sound
      · rw [Flow.assignUnderLock_eq]
        exact h.1.undone_of_vacant hvacant
      · rw [assignUnderLock_starts hd hs, if_neg]
        rintro (hnewly | hmode)
        · cases hnewly
        · exact hcompute hmode
      · rw [Flow.assignUnderLock_log]

/-- While the preparation of a compute-only run assigns, no slot is going to restart. -/
theorem RootsInv.assignPreparation {slots : List ℕ} {todo : List Packet}
    (h : RootsInv cfg σ (⟨todo, .assigning slots⟩ :: others))
    (hframe : slots.length < (activateFrames cfg.toSlotConfig).length)
    (hok : cfg.hasNetwork = true → slots.length ∉ σ.table.runningFrames.map Prod.fst ∧
      (σ.table.states σ.table.lastAssigned = .inactive ∨ cfg.slotPriorityEnabled = false)) :
    RootsInv cfg (Flow.assignUnderLock cfg slots.length .preparation σ).2
      ((flowDiscipline cfg).next ⟨todo, .assigning slots⟩ (.assignUnderLock slots.length .preparation)
        (Flow.assignUnderLock cfg slots.length .preparation σ).1 :: others) := by
  have hcoherent : Coherent cfg.toSlotConfig
      (Flow.assignUnderLock cfg slots.length .preparation σ).2.table := by
    rw [Flow.assignUnderLock_table]
    exact h.1.coherent.assignUnderLock slots.length
  have hduring := fun hcompute => (h.2 hcompute).during slots List.mem_cons_self
  rw [Flow.assignUnderLock_reply]
  rcases assignUnderLock_seats h.1.coherent slots.length with
    hd | ⟨slot, hin, hd⟩ | ⟨slot, newly, d, hd, hs⟩
  · have hsame : Unmoved σ (Flow.assignUnderLock cfg slots.length .preparation σ).2 :=
      assignUnderLock_unmoved (by rw [hd]) (.inl (by rw [hd]))
    rw [hd]
    exact h.stay (Stage.Like.refl _) (fun _ => rfl) hcoherent hsame
  · have hin : slots.length ∈ σ.table.runningFrames.map Prod.fst := List.mem_map_of_mem hin
    cases hmode : cfg.hasNetwork with
    | true => exact absurd hin (hok hmode).1
    | false =>
      rw [(hduring hmode).2.2] at hin
      exact absurd (List.mem_range.mp hin) (Nat.lt_irrefl _)
  · have hfirst : newly = false → σ.table.states σ.table.lastAssigned ≠ .inactive ∧
        (cfg.slotPriorityEnabled = true ∨ cfg.hasNetwork = false) := hs.queued
    have hnewly : cfg.hasNetwork = true ∨ cfg.slotPriorityEnabled = true → newly = true := by
      intro hmodes
      by_contra hqueued
      obtain ⟨hbusy, hqueue⟩ := hfirst (Bool.eq_false_of_not_eq_true hqueued)
      cases hmode : cfg.hasNetwork with
      | true =>
        rw [hmode] at hqueue
        have hpriority := hqueue.resolve_right (by decide)
        rcases (hok hmode).2 with hfree | hoff
        · exact hbusy hfree
        · rw [hpriority] at hoff
          cases hoff
      | false =>
        rw [hmode] at hmodes
        have hpriority := hmodes.resolve_left (by decide)
        -- the only frame of the preparation, and no slot is in use
        have hnone : slots.length = 0 := by
          rw [activateFrames, if_pos hpriority] at hframe
          exact Nat.lt_one_iff.mp hframe
        have hempty : σ.table.runningFrames = [] := by
          have hframes := (hduring hmode).2.2
          rw [hnone] at hframes
          exact List.map_eq_nil_iff.mp hframes
        refine hbusy ((h.1.coherent.inactive_iff _ h.1.coherent.lastInRange).mpr ?_)
        rw [hempty]
        exact List.not_mem_nil
    have hpending : ∀ m ∈ ⟨todo, .assigning slots⟩ :: others, m.stage.pending ≠ some slot := by
      intro m hm hs
      have hcompute := ((h.1.fits m.stage (List.mem_map_of_mem hm)).pending slot hs).2.2
      rcases List.mem_cons.mp hm with rfl | hm
      · cases hs
      · have hstill := ((h.2 hcompute).apart_cons.1 m.stage (List.mem_map_of_mem hm)).1 ⟨slots, rfl⟩
        have hin := Stage.pending_mem hs
        rw [hstill.1] at hin
        cases hin
    have hstarts : newly = true ∨ cfg.hasNetwork = false := by
      cases hmode : cfg.hasNetwork with
      | true => exact .inl (hnewly (.inl hmode))
      | false => exact .inr rfl
    rw [hd]
    refine ⟨?_, fun hcompute => ?_⟩
    · refine h.seat hd hs hstarts hnewly hpending ?_ rfl rfl rfl
      exact List.perm_append_comm
    · refine (h.2 hcompute).assign ?_ ?_ ?_
      · rw [Flow.assignUnderLock_eq]
      · rw [Flow.assignUnderLock_log]
      · rw [Flow.assignUnderLock_table, hd, hs.running]

/-- On a compute-only graph the preparation finds no cell of the map with a frame of its own. -/
theorem RootsInv.lookupPreparation {slots : List ℕ} {todo : List Packet}
    (h : RootsInv cfg σ (⟨todo, .assigning slots⟩ :: others))
    (hframe : slots.length < (activateFrames cfg.toSlotConfig).length)
    (hok : cfg.hasNetwork = true →
      σ.table.frameSlotLookup cfg.toSlotConfig slots.length = none) :
    σ.table.frameSlotLookup cfg.toSlotConfig slots.length = none := by
  cases hmode : cfg.hasNetwork with
  | true => exact hok hmode
  | false =>
    refine Option.eq_none_iff_forall_ne_some.mpr fun slot hhit => ?_
    obtain ⟨e, he, halias, -⟩ := h.1.sound.lookup hhit
    have hin := List.mem_map_of_mem (f := Prod.fst) he
    rw [((h.2 hmode).during slots List.mem_cons_self).2.2] at hin
    have hlt := List.mem_range.mp hin
    have hbound := (activateFrames_eq cfg.toSlotConfig).2.1
    have hslots := cfg.slots_le
    have hsame := asU32_inj (by omega) (by omega) halias
    omega

theorem RootsInv.claimCompletion {slot : ℕ} (h : RootsInv cfg σ (.idle :: others))
    (hroots : cfg.hasInitialNodes = true) (hclaim : Flow.Claimable cfg slot σ)
    (hok : slot ∉ σ.log.evicting) :
    RootsInv cfg { σ with claimed := slot :: σ.claimed } (⟨[], .claimed slot⟩ :: others) := by
  obtain ⟨hrun, hbit, hdone, hnew⟩ := hclaim
  have hdone := hdone hroots
  have hlt : slot < cfg.slots := by
    obtain ⟨e, he, rfl⟩ := List.mem_map.mp hrun
    exact h.1.coherent.inRange e he
  refine ⟨Rooted.claim h.1 rfl rfl rfl rfl rfl hrun (.inl hdone) hnew
    (fun hin => absurd hin hok) (.inl List.mem_cons_self)
    (fun hpriority => .inl ((h.1.coherent.bitmap slot hlt).mp (hbit hpriority)))
    ⟨fun _ _ => Iff.rfl, fun _ _ => rfl, fun _ _ => rfl, fun _ _ => rfl, fun _ _ _ => Iff.rfl,
      fun _ _ hy => List.mem_cons_of_mem _ hy, fun _ _ hy => hy, fun _ _ hy => hy⟩
    h.1.coherent h.1.sound rfl, fun hcompute => ?_⟩
  -- nothing can be claimed before the first dispatch
  have hspawned : σ.log.spawned ≠ [] :=
    List.ne_nil_of_mem ((h.1.slots slot).dispatched hdone).2.1
  have hprep := h.2 hcompute
  have hothers : ∀ t ∈ others.map FlowPhase.stage, ¬ t.Assigns := by
    rintro t ht ⟨slots, rfl⟩
    exact hspawned (hprep.during slots (List.mem_cons_of_mem _ ht)).2.1
  refine ⟨fun hfalse => absurd (hprep.before hfalse).2.1 hspawned, fun slots hin => ?_,
    List.pairwise_cons.mpr ⟨fun t ht => ?_, hprep.apart_cons.2⟩⟩
  · rcases List.mem_cons.mp hin with heq | hin
    · cases heq
    · exact absurd ⟨slots, rfl⟩ (hothers _ hin)
  · exact ⟨fun ⟨_, heq⟩ => (nomatch heq), fun hassign => absurd hassign (hothers t ht)⟩

theorem RootsInv.claimEviction {slot : ℕ} (h : RootsInv cfg σ (.idle :: others))
    (hnetwork : cfg.hasNetwork = true) (hcomplete : σ.packetComplete slot = false)
    (hok : slot ∈ σ.table.runningFrames.map Prod.snd ∧ slot ∉ σ.claimed ∧
      (σ.table.states slot = .active → σ.rootsDispatched slot = true)) :
    RootsInv cfg
      { σ with
        packetComplete := Function.update σ.packetComplete slot true
        log := { σ.log with evicting := slot :: σ.log.evicting } }
      (⟨[], .evicting slot⟩ :: others) := by
  obtain ⟨hrun, hclaimed, hdone⟩ := hok
  have hcoherent := h.1.coherent
  refine ⟨Rooted.claim h.1 rfl rfl rfl rfl rfl hrun ?_ hclaimed (fun _ => hcomplete)
    (.inr ⟨List.mem_cons_self, Function.update_self ..⟩) (fun _ => .inr List.mem_cons_self)
    ⟨fun _ _ => Iff.rfl, fun _ _ => rfl, fun _ _ => rfl, fun _ _ => rfl, fun _ _ _ => Iff.rfl,
      fun _ _ hy => hy, fun _ _ hy => List.mem_cons_of_mem _ hy, fun y _ hy => ?_⟩
    hcoherent h.1.sound rfl, fun hcompute => ?_⟩
  · by_cases hactive : σ.table.states slot = .active
    · exact .inl (hdone hactive)
    · exact .inr ⟨hnetwork, hactive⟩
  · exact update_true hy
  · rw [hnetwork] at hcompute
    cases hcompute

theorem RootsInv.resetCounters {slot : ℕ} (h : RootsInv cfg σ (l :: others))
    (hstage : l.stage = .claimed slot ∨ l.stage = .spent slot ∨
      ∃ frame, l.stage = .marking slot frame) :
    RootsInv cfg (Flow.resetCounters slot σ) (l.resetDone slot :: others) := by
  obtain ⟨todo, s⟩ := l
  have hpast : ∀ t : Stage, s.holds = [slot] → (¬ t.Assigns) → cfg.hasNetwork = false →
      Preparing (Flow.resetCounters slot σ) (t :: others.map FlowPhase.stage) :=
    fun t hholds hover hcompute => (h.2 hcompute).past
      (by rw [show (FlowPhase.mk todo s).stage.holds = [slot] from hholds]; exact List.cons_ne_nil _ _)
      hover rfl
  rcases hstage with hs | hs | ⟨frame, hs⟩
  · obtain rfl : s = .claimed slot := hs
    exact ⟨Rooted.reset h.1 rfl rfl rfl rfl rfl rfl rfl fun _ _ heq => (nomatch heq),
      hpast _ rfl fun ⟨_, heq⟩ => (nomatch heq)⟩
  · obtain rfl : s = .spent slot := hs
    exact ⟨Rooted.reset h.1 rfl rfl rfl rfl rfl rfl rfl fun _ _ heq => (nomatch heq),
      hpast _ rfl fun ⟨_, heq⟩ => (nomatch heq)⟩
  · obtain rfl : s = .marking slot frame := hs
    exact ⟨Rooted.reset h.1 rfl rfl rfl rfl rfl rfl rfl fun _ _ heq => (nomatch heq),
      hpast _ rfl fun ⟨_, heq⟩ => (nomatch heq)⟩

theorem RootsInv.countCompletion {todo : List Packet} {slot : ℕ}
    (h : RootsInv cfg σ (⟨todo, .reset slot⟩ :: others)) (rivals total : ℕ) :
    RootsInv cfg (Flow.countCompletion cfg slot rivals σ).2
      (⟨todo, .counted slot (restartOf cfg slot total)⟩ :: others) := by
  refine ⟨Rooted.counted h.1 (fun again hagain => ?_)
    ⟨fun _ _ => Iff.rfl, fun _ _ => rfl, fun _ _ => rfl, fun _ _ => rfl, fun _ _ _ => Iff.rfl,
      fun _ _ hy => hy, fun _ _ hy => hy, fun _ _ hy => hy⟩ h.1.coherent h.1.sound rfl,
    fun hcompute => (h.2 hcompute).past (List.cons_ne_nil _ _) (fun ⟨_, heq⟩ => (nomatch heq)) rfl⟩
  unfold restartOf at hagain
  split at hagain
  · next hrestart => exact ⟨(Option.some.inj hagain).symm, hrestart.2⟩
  · cases hagain

/-- The table when the slot is released and nobody is promoted yet. -/
def Flow.vacated (cfg : FlowConfig) (slot : ℕ) (σ : Flow) : Flow :=
  { σ with
    table := σ.table.releaseSlot cfg.toSlotConfig slot
    claimed := σ.claimed.erase slot
    log := { σ.log with
      unreleased := σ.log.unreleased.erase slot
      evicting := σ.log.evicting.erase slot } }

theorem Rooted.vacate {slot : ℕ} {restart : Option ℕ} {stages : List Stage}
    (h : Rooted cfg σ (.counted slot restart :: stages)) :
    Rooted cfg (σ.vacated cfg slot) (.afterRelease restart :: stages) := by
  have hcoherent := h.coherent
  have hrun := ((h.fits _ List.mem_cons_self).owner slot rfl).1
  have hlt : slot < cfg.slots := by
    obtain ⟨e, he, rfl⟩ := List.mem_map.mp hrun
    exact hcoherent.inRange e he
  have hother : ∀ {y}, y ∉ [slot] → y ≠ slot := fun hy heq => hy (heq ▸ List.mem_cons_self)
  obtain ⟨map, heq⟩ := SlotData.releaseSlot_eq cfg.toSlotConfig slot σ.table
  have hrunning : (σ.vacated cfg slot).table.runningFrames =
      σ.table.runningFrames.filter fun e => e.2 ≠ slot := by
    rw [Flow.vacated, heq]
    exact eraseP_slot slot hcoherent.distinct
  have hmem : ∀ y, y ∈ (σ.vacated cfg slot).table.runningFrames.map Prod.snd ↔
      y ∈ σ.table.runningFrames.map Prod.snd ∧ y ≠ slot := by
    intro y
    rw [hrunning]
    constructor
    · intro hy
      obtain ⟨e, he, rfl⟩ := List.mem_map.mp hy
      obtain ⟨he, hne⟩ := List.mem_filter.mp he
      exact ⟨List.mem_map_of_mem he, of_decide_eq_true hne⟩
    · rintro ⟨hy, hne⟩
      obtain ⟨e, he, rfl⟩ := List.mem_map.mp hy
      exact List.mem_map_of_mem (List.mem_filter.mpr ⟨he, decide_eq_true hne⟩)
  have hstates : (σ.vacated cfg slot).table.states =
      Function.update σ.table.states slot .inactive := by
    rw [Flow.vacated, heq]
  refine h.leave hlt ⟨fun y hy => ?_, fun y hy => ?_, fun _ _ => rfl, fun _ _ => rfl,
    fun _ _ _ => Iff.rfl, fun y hy hin => (List.mem_erase_of_ne (hother hy)).mpr hin,
    fun y hy hin => (List.mem_erase_of_ne (hother hy)).mpr hin, fun _ _ hy => hy⟩
    (hcoherent.vacate hlt) (h.sound.releaseSlot slot) ?_ ?_ rfl rfl rfl
  · rw [hmem]
    exact and_iff_left (hother hy)
  · rw [hstates, Function.update_of_ne (hother hy)]
  · rw [hmem]
    exact fun hin => hin.2 rfl
  · rw [hstates, Function.update_self]

/-- A release gives up its slot, and then starts the one it promotes. -/
theorem RootsInv.release {todo : List Packet} {slot : ℕ} {restart : Option ℕ}
    (h : RootsInv cfg σ (⟨todo, .counted slot restart⟩ :: others))
    (hroots : cfg.hasInitialNodes = true)
    (hok : ∀ out ∈ (σ.table.releaseUnderLock cfg.toSlotConfig slot).1, out.1 ∉ σ.log.evicting) :
    RootsInv cfg (Flow.releaseUnderLock cfg slot σ).2
      (FlowPhase.released cfg ⟨todo, .counted slot restart⟩
        ((Flow.releaseUnderLock cfg slot σ).1.map Prod.fst) :: others) := by
  have hvacated := Rooted.vacate h.1
  have hpast : ∀ (σ' : Flow) (t : Stage), (¬ t.Assigns) → σ'.prepDone = σ.prepDone →
      cfg.hasNetwork = false → Preparing σ' (t :: others.map FlowPhase.stage) :=
    fun σ' t hover hdone hcompute => (h.2 hcompute).past (List.cons_ne_nil _ _) hover hdone
  have hover : ¬ (Stage.afterRelease restart).Assigns := by
    rintro ⟨slots, heq⟩
    cases restart with
    | none => cases heq
    | some again => cases heq
  have hplain : (σ.table.releaseUnderLock cfg.toSlotConfig slot) =
      (none, σ.table.releaseSlot cfg.toSlotConfig slot) →
      RootsInv cfg (Flow.releaseUnderLock cfg slot σ).2
        (FlowPhase.released cfg ⟨todo, .counted slot restart⟩
          ((Flow.releaseUnderLock cfg slot σ).1.map Prod.fst) :: others) := by
    intro hd
    unfold Flow.releaseUnderLock
    rw [hd]
    exact ⟨hvacated, hpast _ _ hover rfl⟩
  cases hpriority : cfg.slotPriorityEnabled with
  | false =>
    refine hplain ?_
    unfold SlotData.releaseUnderLock
    simp only [hpriority, Bool.false_eq_true, if_false]
  | true =>
    cases hnext : (σ.table.releaseSlot cfg.toSlotConfig slot).nextBuffering with
    | none =>
      refine hplain ?_
      unfold SlotData.releaseUnderLock
      simp only [hpriority, if_true, hnext]
    | some next =>
      have hd : σ.table.releaseUnderLock cfg.toSlotConfig slot =
          (some (next, (σ.table.releaseSlot cfg.toSlotConfig slot).buffers next),
            { (σ.table.releaseSlot cfg.toSlotConfig slot).activate next with
              lastAssigned := next
              buffers := Function.update (σ.table.releaseSlot cfg.toSlotConfig slot).buffers next
                [] }) := by
        unfold SlotData.releaseUnderLock
        simp only [hpriority, if_true, hnext]
      obtain ⟨hbuffering, hin⟩ := SlotData.nextBuffering_eq_some hnext
      have hevicting : next ∉ (σ.vacated cfg slot).log.evicting := fun hin =>
        hok (next, _) (by rw [hd]; rfl) (List.mem_of_mem_erase hin)
      obtain ⟨hfree, hundone⟩ := hvacated.free_of_buffering hpriority hin hbuffering hevicting
      have hother : ∀ {y}, y ∉ [next] → y ≠ next := fun hy heq => hy (heq ▸ List.mem_cons_self)
      unfold Flow.releaseUnderLock
      rw [hd]
      simp only [Option.map_some, FlowPhase.released, hroots, if_true]
      refine ⟨?_, hpast _ _ (by rintro ⟨_, heq⟩; cases heq) rfl⟩
      refine hvacated.start hfree ?_ ?_ rfl ?_ ⟨fun _ _ => Iff.rfl, fun y hy => ?_,
        fun _ _ => rfl, fun y hy => ?_, fun _ _ _ => Iff.rfl, fun _ _ hy => hy, fun _ _ hy => hy,
        fun _ _ hy => hy⟩ (hvacated.coherent.promote hnext _) hvacated.sound hin ?_ ?_ hundone ?_ rfl
      · cases restart with
        | none => exact .refl _
        | some again => exact .refl _
      · cases restart with
        | none => rfl
        | some again => rfl
      · cases restart with
        | none => rfl
        | some again => rfl
      · exact Function.update_of_ne (hother hy) ..
      · exact Function.update_of_ne (hother hy) ..
      · exact fun _ => Function.update_self ..
      · intro _ _ hqueued
        change Function.update (σ.table.releaseSlot cfg.toSlotConfig slot).states next .active next =
          .buffering at hqueued
        rw [Function.update_self] at hqueued
        cases hqueued
      · exact Function.update_self ..

theorem RootsInv.restart {todo : List Packet} {slot : ℕ}
    (h : RootsInv cfg σ (⟨todo, .waiting slot⟩ :: others)) (hcompute : cfg.hasNetwork = false) :
    RootsInv cfg (Flow.restartUnderLock cfg slot σ) (⟨todo, .restarted slot⟩ :: others) := by
  obtain ⟨hlt, hvacant, -⟩ := (h.1.fits _ List.mem_cons_self).pending slot rfl
  obtain ⟨hready, hfree⟩ := Rooted.drop h.1
  have hcoherent := h.1.coherent
  have hother : ∀ {y}, y ∉ [slot] → y ≠ slot := fun hy heq => hy (heq ▸ List.mem_cons_self)
  have htable : (Flow.restartUnderLock cfg slot σ).table =
      σ.table.restartSlotNonnetwork cfg.toSlotConfig slot σ.frameCompleteCounter := rfl
  have hunfold : ∀ completed, (σ.table.restartSlotNonnetwork cfg.toSlotConfig slot
        completed).runningFrames =
          σ.table.runningFrames ++ [(completed + σ.table.currentlyActive cfg.toSlotConfig, slot)] ∧
      (σ.table.restartSlotNonnetwork cfg.toSlotConfig slot completed).states =
        Function.update σ.table.states slot .active := by
    intro completed
    simp only [SlotData.restartSlotNonnetwork, hcompute, Bool.false_eq_true, if_false]
    exact ⟨rfl, rfl⟩
  obtain ⟨hrunning, hstates⟩ := hunfold σ.frameCompleteCounter
  refine ⟨hready.start hfree (.refl _) rfl rfl rfl ⟨fun y hy => ?_, fun y hy => ?_,
    fun _ _ => rfl, fun y hy => ?_, fun _ _ _ => Iff.rfl, fun _ _ hy => hy, fun _ _ hy => hy,
    fun _ _ hy => hy⟩ ?_ ?_ ?_ ?_ ?_ ?_ ?_ rfl, fun _ =>
      (h.2 hcompute).past (List.cons_ne_nil _ _) (by rintro ⟨_, heq⟩; cases heq) rfl⟩
  · rw [htable, hrunning, List.map_append, List.mem_append]
    exact ⟨fun hin => hin.resolve_right hy, .inl⟩
  · rw [htable, hstates, Function.update_of_ne (hother hy)]
  · exact Function.update_of_ne (hother hy) ..
  · exact hcoherent.restart hlt _ fun _ => (hcoherent.inactive_iff slot hlt).mpr hvacant
  · exact (Indexed.restart ⟨h.1.sound, hcoherent.lastInRange⟩ ⟨slot, hlt⟩ _).sound
  · rw [htable, hrunning, List.map_append]
    exact List.mem_append_right _ List.mem_cons_self
  · intro hnetwork
    rw [hcompute] at hnetwork
    cases hnetwork
  · intro _ _
    rw [htable, hstates, Function.update_self]
    decide
  · exact h.1.undone_of_vacant hvacant
  · exact Function.update_self ..

theorem RootsInv.dispatch {slot : ℕ} {slots : List ℕ} (h : RootsInv cfg σ (l :: others))
    (hdue : l.stage.due = slot :: slots) :
    RootsInv cfg (Flow.perform cfg (.dispatchInitial slot) σ).2
      ({ l with stage := l.stage.dispatched } :: others) := by
  obtain ⟨todo, s⟩ := l
  have hrest : ∀ owed : List ℕ, (Stage.afterDispatch owed).due = owed ∧
      (Stage.afterDispatch owed).owner = none ∧ (Stage.afterDispatch owed).pending = none ∧
        ¬ (Stage.afterDispatch owed).Assigns := by
    intro owed
    cases owed with
    | nil => exact ⟨rfl, rfl, rfl, fun ⟨_, heq⟩ => (nomatch heq)⟩
    | cons s rest => exact ⟨rfl, rfl, rfl, fun ⟨_, heq⟩ => (nomatch heq)⟩
  have hpast : ∀ t : Stage, (¬ t.Assigns) → cfg.hasNetwork = false →
      Preparing (Flow.perform cfg (.dispatchInitial slot) σ).2
        (t :: others.map FlowPhase.stage) := fun t hover hcompute =>
    (h.2 hcompute).past (List.ne_nil_of_mem (Stage.due_subset s (by
      rw [show s.due = slot :: slots from hdue]
      exact List.mem_cons_self))) hover rfl
  cases s with
  | starting p slot' =>
    obtain ⟨rfl, rfl⟩ := List.cons.inj hdue
    exact ⟨Rooted.dispatch h.1 rfl rfl rfl rfl rfl, hpast _ fun ⟨_, heq⟩ => (nomatch heq)⟩
  | promoted next restart =>
    obtain ⟨rfl, rfl⟩ := List.cons.inj hdue
    cases restart with
    | none =>
      exact ⟨Rooted.dispatch h.1 rfl rfl rfl rfl rfl, hpast _ fun ⟨_, heq⟩ => (nomatch heq)⟩
    | some again =>
      exact ⟨Rooted.dispatch h.1 rfl rfl rfl rfl rfl, hpast _ fun ⟨_, heq⟩ => (nomatch heq)⟩
  | restarted slot' =>
    obtain ⟨rfl, rfl⟩ := List.cons.inj hdue
    exact ⟨Rooted.dispatch h.1 rfl rfl rfl rfl rfl, hpast _ fun ⟨_, heq⟩ => (nomatch heq)⟩
  | assigning owed =>
    obtain rfl : owed = slot :: slots := hdue
    obtain ⟨hdue', howner, hpending, hover⟩ := hrest slots
    exact ⟨Rooted.dispatch h.1 rfl hdue' rfl howner hpending, fun hcompute =>
      (h.2 hcompute).finish hover rfl⟩
  | dispatching owed =>
    obtain rfl : owed = slot :: slots := hdue
    obtain ⟨hdue', howner, hpending, hover⟩ := hrest slots
    exact ⟨Rooted.dispatch h.1 rfl hdue' rfl howner hpending, hpast _ hover⟩
  | _ => cases hdue

end Steps

/-! ## Runs -/

section Runs

variable {cfg : FlowConfig}

theorem roots_maintains (hroots : cfg.hasInitialNodes = true) :
    Machine.Maintains (flowMachine cfg) (DispatchesApart cfg) (flowDiscipline cfg) .idle
      (· = .idle) (RootsInv cfg) := by
  refine flow_maintains RootsInv.perm ?_
  intro σ σ' others l l' a choice hturn h hok
  have hcoherent := h.1.coherent
  cases hturn with
  | prepare hfirst =>
    have hsame : SameBut [] σ { σ with prepDone := true } :=
      ⟨fun _ _ => Iff.rfl, fun _ _ => rfl, fun _ _ => rfl, fun _ _ => rfl, fun _ _ _ => Iff.rfl,
        fun _ _ hy => hy, fun _ _ hy => hy, fun _ _ hy => hy⟩
    exact ⟨Rooted.keep h.1 ⟨rfl, rfl, rfl, rfl, fun _ _ heq => (by cases heq)⟩ hsame hcoherent
      h.1.sound rfl, fun hcompute => (h.2 hcompute).begin hfirst rfl rfl rfl⟩
  | prepared hlater =>
    have hdone : σ.prepDone = true := by
      rw [hroots, Bool.and_true] at hlater
      exact (Bool.not_eq_false' _).mp hlater
    exact h.pass rfl rfl hcoherent
      ⟨rfl, rfl, rfl, rfl, rfl, rfl, hdone.symm, fun _ hy => hy, fun _ hy => hy, fun _ hy => hy⟩
  | openWindow | ahead | inWindow | refuse | refuseNow | toPark => exact h.pass rfl rfl hcoherent (.refl σ)
  | receive | discard | discardBeyond | clear | countPacket | batch | countVictim | takePending =>
    exact h.pass rfl rfl hcoherent
      ⟨rfl, rfl, rfl, rfl, rfl, rfl, rfl, fun _ hy => hy, fun _ hy => hy, fun _ hy => hy⟩
  | isActive | incomplete | pass | loadStalled => exact h
  | lookup todo s frame site hasks hframe =>
    cases site with
    | packet =>
      obtain ⟨p, rfl, -⟩ := hasks
      have hsame : Unmoved σ (Flow.lookup cfg frame .packet σ).2 := by
        rw [Flow.lookup_eq]
        exact ⟨rfl, rfl, rfl, rfl, rfl, rfl, rfl, fun _ hy => hy, fun _ hy => hy, fun _ hy => hy⟩
      have hcoherent : Coherent cfg.toSlotConfig (Flow.lookup cfg frame .packet σ).2.table := by
        rw [Flow.lookup_eq]
        exact hcoherent
      cases (Flow.lookup cfg frame .packet σ).1 with
      | none => exact h.stay (Stage.Like.refl _) (fun _ => rfl) hcoherent hsame
      | some slot => exact h.pass rfl rfl hcoherent hsame
    | preparation =>
      obtain ⟨slots, rfl, hlength⟩ := hasks
      have hmiss := h.lookupPreparation (hlength ▸ hframe rfl) fun hnetwork =>
        hlength ▸ hok hnetwork
      rw [hlength] at hmiss
      simp only [Flow.lookup, hmiss]
      exact h
  | assign todo s frame site hasks hnetwork hframe =>
    cases site with
    | packet =>
      obtain ⟨p, rfl, rfl⟩ := hasks
      exact h.assignPacket hroots (hnetwork rfl)
    | preparation =>
      obtain ⟨slots, rfl, rfl⟩ := hasks
      exact h.assignPreparation (hframe rfl) hok
  | bump l slot =>
    exact h.stay (Stage.Like.refl _) (fun _ => rfl) (hcoherent.bump slot)
      ⟨rfl, rfl, rfl, rfl, rfl, rfl, rfl, fun _ hy => hy, fun _ hy => hy, fun _ hy => hy⟩
  | dispatchInitial todo s slot slots _ hdue => exact h.dispatch hdue
  | buffered todo ni =>
    exact h.pass rfl rfl (hcoherent.buffer ni) (Unmoved.buffer ni)
  | promotedBefore todo ni =>
    exact h.stay (Stage.Like.refl _) (fun _ => rfl) (hcoherent.buffer ni) (Unmoved.buffer ni)
  | complete l slot =>
    exact h.stay (Stage.Like.refl _) (fun _ => rfl) hcoherent
      ⟨rfl, rfl, rfl, rfl, rfl, rfl, rfl, fun _ hy => hy, fun _ hy => hy, fun _ => update_true⟩
  | park todo p =>
    have hsame : Unmoved σ (Flow.park cfg p σ).2 := by
      rw [Flow.park_eq]
      exact ⟨rfl, rfl, rfl, rfl, rfl, rfl, rfl, fun _ hy => hy, fun _ hy => hy, fun _ hy => hy⟩
    have hcoherent : Coherent cfg.toSlotConfig (Flow.park cfg p σ).2.table := by
      rw [Flow.park_eq]
      exact hcoherent
    cases (Flow.park cfg p σ).1 with
    | none => exact h.pass rfl rfl hcoherent hsame
    | some victim => exact h.pass rfl rfl hcoherent hsame
  | swapDropped todo slot frame =>
    have hsame : Unmoved σ (Flow.swapDropped frame σ).2 :=
      ⟨rfl, rfl, rfl, rfl, rfl, rfl, rfl, fun _ hy => hy, fun _ hy => hy, fun _ hy => hy⟩
    split
    · exact h.stay ⟨rfl, rfl, rfl, rfl, fun _ _ heq => (by cases heq)⟩
        (by rintro ⟨_, heq⟩; cases heq) hcoherent hsame
    · exact h.stay ⟨rfl, rfl, rfl, rfl, fun _ _ heq => (by cases heq)⟩
        (by rintro ⟨_, heq⟩; cases heq) hcoherent hsame
  | countEvicted todo slot frame =>
    exact h.stay ⟨rfl, rfl, rfl, rfl, fun _ _ heq => (by cases heq)⟩
      (by rintro ⟨_, heq⟩; cases heq) hcoherent
      ⟨rfl, rfl, rfl, rfl, rfl, rfl, rfl, fun _ hy => hy, fun _ hy => hy, fun _ hy => hy⟩
  | claim slot hclaim => exact RootsInv.claimCompletion h hroots hclaim (hok hclaim)
  | resetClaimed todo slot => exact h.resetCounters (.inl rfl)
  | resetSpent todo slot => exact h.resetCounters (.inr (.inl rfl))
  | resetMarking todo slot frame => exact h.resetCounters (.inr (.inr ⟨frame, rfl⟩))
  | countActive l slot =>
    exact h.stay (Stage.Like.refl _) (fun _ => rfl) hcoherent
      ⟨rfl, rfl, rfl, rfl, rfl, rfl, rfl, fun _ hy => hy, fun _ hy => hy, fun _ hy => hy⟩
  | countCompletion todo slot rivals => exact h.countCompletion rivals _
  | release todo slot restart => exact h.release hroots hok
  | restart todo slot hcompute =>
    rw [hroots, if_pos rfl]
    exact h.restart hcompute
  | evict slot _ hnetwork hopen => exact RootsInv.claimEviction h hnetwork hopen (hok hopen)
  | spare slot =>
    exact h.stay (Stage.Like.refl _) (fun _ => rfl) hcoherent
      ⟨rfl, rfl, rfl, rfl, rfl, rfl, rfl, fun _ hy => hy, fun _ hy => hy, fun _ => update_true⟩
  | loadFrameId todo slot =>
    exact h.stay ⟨rfl, rfl, rfl, rfl, fun _ _ heq => (by cases heq)⟩
      (by rintro ⟨_, heq⟩; cases heq) hcoherent (.refl σ)

theorem rootsInv_start (cfg : FlowConfig) (threads : ℕ) :
    RootsInv cfg .initial (List.replicate threads .idle) := by
  have hready : ∀ s ∈ (List.replicate threads FlowPhase.idle).map FlowPhase.stage, s = .ready := by
    intro s hs
    obtain ⟨l, hl, rfl⟩ := List.mem_map.mp hs
    rw [List.eq_of_mem_replicate hl]
    rfl
  have hstill : ∀ s ∈ (List.replicate threads FlowPhase.idle).map FlowPhase.stage, s.Still := by
    intro s hs
    rw [hready s hs]
    exact ⟨rfl, fun ⟨_, heq⟩ => (nomatch heq)⟩
  refine ⟨⟨coherent_initial _, mapSound_initial _, ?_, fun s hs => ?_, .nil, fun y => ?_⟩, fun _ =>
    ⟨fun _ => ⟨rfl, rfl, hstill⟩, fun slots hs => ?_, ?_⟩⟩
  · rw [List.flatMap_eq_nil_iff.mpr fun s hs => (hstill s hs).1]
    exact .nil
  · rw [hready s hs]
    exact ⟨fun y hy => (nomatch hy), fun y hy => (nomatch hy), fun y hy => (nomatch hy),
      fun y again heq => (nomatch heq), fun y hy => (nomatch hy)⟩
  · refine ⟨fun hdone => (nomatch hdone), fun k hk => (nomatch hk), fun k hpos hle => ?_,
      fun _ _ _ hstate => (nomatch hstate)⟩
    exact absurd (hpos.trans hle) (Nat.not_succ_le_zero 0)
  · exact absurd (hready _ hs) fun heq => (nomatch heq)
  · refine List.pairwise_of_forall_mem_list fun s hs t ht => ?_
    exact ⟨fun _ => hstill t ht, fun _ => hstill s hs⟩

/-- Without initial nodes nothing is dispatched. -/
theorem unrooted_maintains (ok : Flow → ℕ → FlowAct → Prop) (hrootless : cfg.hasInitialNodes = false) :
    Machine.Maintains (flowMachine cfg) ok (flowDiscipline cfg) .idle (· = .idle)
      (fun σ _ => σ.log.spawned = []) := by
  refine flow_maintains (fun h _ => h) ?_
  intro σ σ' others l l' a choice hturn h _
  rw [← h]
  cases hturn with
  | dispatchInitial todo s slot slots hroots =>
    rw [hrootless] at hroots
    cases hroots
  | lookup => rw [Flow.lookup_eq]
  | assign => rw [Flow.assignUnderLock_log]
  | buffered | promotedBefore => rw [Flow.buffer_eq]
  | park => rw [Flow.park_eq]
  | release => rw [Flow.releaseUnderLock_log]
  | _ => rfl

/-- Each start of a frame in a slot is followed by one dispatch of its initial nodes. -/
structure DispatchedOnce (cfg : FlowConfig) (w : World flowSteps Flow) : Prop where
  once : w.shared.log.spawned.Nodup
  started : ∀ e ∈ w.shared.log.spawned, 1 ≤ e.2 ∧ e.2 ≤ w.shared.log.starts e.1
  all : cfg.hasInitialNodes = true → (∀ thread ∈ w.threads, thread = .done ()) →
    ∀ slot k, 1 ≤ k → k ≤ w.shared.log.starts slot → (slot, k) ∈ w.shared.log.spawned

/-- When the preparation comes before the packets, and completions, evictions and promotions keep apart,
the initial nodes of every frame that is started are dispatched once, and none are left between the
jobs of the threads. -/
theorem initial_nodes_dispatched_once (cfg : FlowConfig) (threads : ℕ) (w : World flowSteps Flow)
    (hrun : (flowMachine cfg).Reaches (DispatchesApart cfg) (flowWorld threads) w) :
    DispatchedOnce cfg w := by
  have hidle := Machine.follows_idle (D := flowDiscipline cfg) (· = FlowPhase.idle) rfl threads
  cases hroots : cfg.hasInitialNodes with
  | false =>
    obtain ⟨ls, hnone, -⟩ := (unrooted_maintains _ hroots).reached hrun rfl hidle
    refine ⟨by rw [hnone]; exact .nil, fun e he => ?_, fun hsome => ?_⟩
    · rw [hnone] at he
      cases he
    · rw [hroots] at hsome
      cases hsome
  | true =>
    obtain ⟨ls, hinv, hfollows⟩ := (roots_maintains hroots).reached hrun (rootsInv_start cfg threads)
      hidle
    refine ⟨hinv.1.once, fun e he => (hinv.1.slots e.1).started e.2 he,
      fun _ hdone slot k hpos hle => ?_⟩
    refine ((hinv.1.slots slot).complete k hpos hle).resolve_right fun hlast => ?_
    obtain ⟨s, hs, hdue⟩ := List.mem_flatMap.mp hlast.2
    obtain ⟨l, hl, rfl⟩ := List.mem_map.mp hs
    obtain ⟨thread, hthread, hobeys⟩ := hfollows.thread hl
    rw [hdone thread hthread] at hobeys
    rw [show l = .idle from hobeys] at hdue
    cases hdue

end Runs

/-- Two slots for frames with initial nodes, one of them active at a time. -/
def rootedFrames : FlowConfig where
  slots := 2
  slotPriorityEnabled := true
  hasNetwork := true
  maxFrames := 2
  one_le_slots := Nat.zero_lt_two
  slots_le := two_slots_le
  hasInitialNodes := true
  hasIndexFunction := false
  framePackets := 1
  frameTimeoutMs := 0
  slots_le_maxFrames := two_slots_fit

/-- The preparation starts frame 0; frame 1 waits until the release of frame 0 promotes its slot. -/
def preparedFirst : List (Move FlowJob) :=
  .begin 0 .prepare :: turns 0 5 ++ .begin 1 (.poll false [⟨0, 0⟩, ⟨1, 0⟩]) :: turns 1 17 ++
    .begin 0 (.check 0) :: turns 0 8

theorem initial_nodes_dispatched_once_rootedFrames : ∃ w,
    (flowMachine rootedFrames).Reaches (DispatchesApart rootedFrames) (flowWorld 2) w ∧
      w.shared.log.spawned = [(1, 1), (0, 1)] ∧ DispatchedOnce rootedFrames w := by
  have hrun : ((flowMachine rootedFrames).fireAllowed (DispatchesApart rootedFrames) preparedFirst
      (flowWorld 2)).any (fun w => w.shared.log.spawned = [(1, 1), (0, 1)]) = true := by
    decide +kernel
  obtain ⟨w, hw, hstate⟩ := (Option.any_eq_true _ _).mp hrun
  have hreach := Machine.reaches_of_fireAllowed hw
  exact ⟨w, hreach, of_decide_eq_true hstate,
    initial_nodes_dispatched_once rootedFrames 2 w hreach⟩

/-- A packet of frame 0 starts its slot before the preparation, which finds the frame there and
dispatches its initial nodes again. -/
def preparedLast : List (Move FlowJob) :=
  .begin 1 (.poll false [⟨0, 0⟩]) :: turns 1 7 ++ .begin 0 .prepare :: turns 0 3

theorem initial_nodes_dispatched_twice : ¬ ∀ (cfg : FlowConfig) (threads : ℕ)
    (w : World flowSteps Flow),
      (flowMachine cfg).Reaches (fun _ _ _ => True) (flowWorld threads) w →
        DispatchedOnce cfg w := by
  intro h
  have hrun : ((flowMachine rootedFrames).fireAllowed (fun _ _ _ => True) preparedLast
      (flowWorld 2)).any (fun w => w.shared.log.spawned = [(0, 1), (0, 1)]) = true := by
    decide +kernel
  obtain ⟨w, hw, hstate⟩ := (Option.any_eq_true _ _).mp hrun
  have htwice : w.shared.log.spawned = [(0, 1), (0, 1)] := of_decide_eq_true hstate
  have honce := (h rootedFrames 2 w (Machine.reaches_of_fireAllowed hw)).once
  rw [htwice] at honce
  exact absurd honce (by decide)

end Tomii.Slots
