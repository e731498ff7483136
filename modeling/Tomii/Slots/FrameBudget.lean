import Tomii.Slots.FrameFlow
import Tomii.Slots.SlotMoves

/-! # The frame budget of a compute-only run

A completing slot restarts when the completed frames and the slots it saw in use leave room under
`max_frames`. The slots are counted before the completion is, in steps of their own. -/
namespace Tomii.Slots
set_option autoImplicit false
set_option maxHeartbeats 250000

/-! ## Counting slots -/

section Counting

variable {cfg : SlotConfig} {d : SlotData}

/-- Without the slot itself one running frame less is counted. -/
theorem Coherent.currentlyActiveFrames_eq (h : Coherent cfg d) {slot : ℕ}
    (hslot : slot ∈ d.runningFrames.map Prod.snd) :
    d.currentlyActiveFrames cfg slot + 1 = d.runningFrames.length := by
  obtain ⟨e, he, rfl⟩ := List.mem_map.mp hslot
  have hlt := h.inRange e he
  have hbusy : d.states e.2 = .active ∨ d.states e.2 = .buffering := by
    have hne : d.states e.2 ≠ .inactive := fun hinactive =>
      (h.inactive_iff _ hlt).mp hinactive hslot
    cases hmode : d.states e.2 with
    | inactive => exact absurd hmode hne
    | active => exact .inl rfl
    | buffering => exact .inr rfl
  rw [← h.currentlyActive_eq, SlotData.currentlyActive, SlotData.currentlyActiveFrames,
    List.countP_eq_length_filter, List.countP_eq_length_filter]
  have hself : e.2 ∈ (List.range cfg.slots).filter fun s =>
      d.states s = .active ∨ d.states s = .buffering := by
    rw [List.mem_filter]
    exact ⟨List.mem_range.mpr hlt, by simpa using hbusy⟩
  have hnodup : ((List.range cfg.slots).filter fun s =>
      d.states s = .active ∨ d.states s = .buffering).Nodup := List.nodup_range.filter _
  have hothers : (List.range cfg.slots).filter (fun s =>
      s ≠ e.2 ∧ (d.states s = .active ∨ d.states s = .buffering)) =
        ((List.range cfg.slots).filter fun s =>
          d.states s = .active ∨ d.states s = .buffering).erase e.2 := by
    rw [hnodup.erase_eq_filter, List.filter_filter]
    refine List.filter_congr fun s _ => ?_
    by_cases hs : s = e.2 <;> simp [hs]
  rw [hothers, List.length_erase_of_mem hself]
  have hpos := List.length_pos_of_mem hself
  omega

theorem Coherent.running_le (h : Coherent cfg d) : d.runningFrames.length ≤ cfg.slots := by
  have hsub : d.runningFrames.map Prod.snd ⊆ List.range cfg.slots := by
    intro s hs
    obtain ⟨e, he, rfl⟩ := List.mem_map.mp hs
    exact List.mem_range.mpr (h.inRange e he)
  have hle := (List.subperm_of_subset h.distinct hsub).length_le
  rwa [List.length_map, List.length_range] at hle

end Counting

/-! ## Phases -/

/-- Where a thread is with the initial preparation, or with the initial nodes of a restart. -/
inductive PrepStage where
  | none
  | assigning
  | dispatching
deriving DecidableEq

theorem PrepStage.dispatching_ne : PrepStage.dispatching ≠ .none := by decide

theorem PrepStage.assigning_ne : PrepStage.assigning ≠ .none := by decide

structure BudgetPhase where
  prep : PrepStage
  stage : CompletionPhase

namespace CompletionPhase

/-- The slot whose completion the thread has counted and not released yet. -/
def unreleased : CompletionPhase → Option ℕ
  | .counted slot _ => some slot
  | _ => none

/-- The slot that the thread is going to restart. -/
def restarting : CompletionPhase → Option ℕ
  | .counted slot true => some slot
  | .waiting slot => some slot
  | _ => none

/-- After the release the slot is left alone, or restarted. -/
def released : CompletionPhase → CompletionPhase
  | .counted slot true => .waiting slot
  | _ => .idle

theorem owner_of_unreleased {l : CompletionPhase} {slot : ℕ} (h : l.unreleased = some slot) :
    l.owner = some slot ∧ l.holds = some slot := by
  cases l with
  | counted s again => exact ⟨h, h⟩
  | _ => cases h

theorem owner_of_restarting {l : CompletionPhase} {slot : ℕ} (h : l.restarting = some slot) :
    l.owner = some slot ∧ (l.unreleased = some slot ∨ l = .waiting slot) := by
  cases l with
  | counted s again =>
    cases again with
    | true => exact ⟨h, .inl h⟩
    | false => cases h
  | waiting s =>
    obtain rfl := Option.some.inj h
    exact ⟨rfl, .inr rfl⟩
  | _ => cases h

end CompletionPhase

namespace BudgetPhase

def idle : BudgetPhase := ⟨.none, .idle⟩

end BudgetPhase

/-- The order of the steps of a compute-only run. -/
def budgetDiscipline (cfg : FlowConfig) : Discipline flowSteps BudgetPhase where
  fails _ := True
  permits l
    | .claimPreparation => l = .idle
    | .lookup _ site => site = .preparation
    | .assignUnderLock _ site =>
      site = .preparation ∧ l.prep = .assigning ∧ cfg.hasInitialNodes = true
    | .bump _ => True
    | .dispatchInitial _ => l.prep ≠ .none ∧ cfg.hasInitialNodes = true
    | .claimCompletion _ => l = .idle
    | .resetCounters slot => l.stage = .claimed slot
    | .countActive slot => l.stage = .claimed slot
    | .countCompletion slot others => l.stage = .seen slot others
    | .releaseUnderLock slot => ∃ again, l.stage = .counted slot again
    | .restartUnderLock slot => l.stage = .waiting slot
    | _ => False
  knows _ _ _ := True
  next l
    | .claimPreparation, first => { l with prep := if first then .assigning else .none }
    | .dispatchInitial _, _ => { l with prep := .dispatching }
    | .claimCompletion slot, won => { l with stage := if won then .claimed slot else .idle }
    | .countActive slot, others => { l with stage := .seen slot others }
    | .countCompletion slot others, completed =>
      { l with stage := .counted slot (completed + others < cfg.maxFrames) }
    | .releaseUnderLock _, _ => ⟨.dispatching, l.stage.released⟩
    | .restartUnderLock _, _ => ⟨.dispatching, .idle⟩
    | _, _ => l

/-- A job ends when no completion is under way. -/
def BudgetPhase.Rests (l : BudgetPhase) : Prop := l.stage = .idle

section Programs

variable {cfg : FlowConfig} {l : BudgetPhase}

theorem spawnInitial_obeys {slot : ℕ} (hprep : l.prep ≠ .none) :
    (Flow.spawnInitial cfg slot).Obeys (budgetDiscipline cfg)
      (fun _ l' => l'.stage = l.stage ∧ l'.prep ≠ .none) l := by
  unfold Flow.spawnInitial
  split
  · next hroots => exact ⟨⟨hprep, hroots⟩, fun _ _ => ⟨rfl, PrepStage.dispatching_ne⟩⟩
  · exact ⟨rfl, hprep⟩

theorem assignFrames_obeys (hroots : cfg.hasInitialNodes = true) (frames : List ℕ)
    (hprep : l.prep = .assigning) :
    (Flow.assignFrames frames).Obeys (budgetDiscipline cfg) (fun _ l' => l' = l) l := by
  induction frames with
  | nil => exact rfl
  | cons frame frames ih =>
    have hrest : ∀ slot, (do
        let slots ← Flow.assignFrames frames
        pure (slot :: slots)).Obeys (budgetDiscipline cfg) (fun _ l' => l' = l) l :=
      fun slot => ih.bind fun _ _ h => h
    refine ⟨rfl, fun hit _ => ?_⟩
    cases hit with
    | some slot => exact hrest slot
    | none =>
      refine ⟨⟨rfl, hprep, hroots⟩, fun out _ => ?_⟩
      cases out with
      | none => trivial
      | some assigned =>
        obtain ⟨slot, newly⟩ := assigned
        cases newly with
        | true => exact ⟨trivial, fun _ _ => hrest slot⟩
        | false => exact hrest slot

theorem dispatchAll_obeys (hroots : cfg.hasInitialNodes = true) (slots : List ℕ)
    (hprep : l.prep ≠ .none) (hstage : l.stage = .idle) :
    (Flow.dispatchAll slots).Obeys (budgetDiscipline cfg) (fun _ l' => l'.Rests) l := by
  induction slots generalizing l with
  | nil => exact hstage
  | cons slot slots ih =>
    exact ⟨⟨hprep, hroots⟩, fun _ _ => ih PrepStage.dispatching_ne hstage⟩

theorem prepare_obeys :
    (Flow.performInitialPreparation cfg).Obeys (budgetDiscipline cfg) (fun _ l => l.Rests)
      .idle := by
  refine Prog.Obeys.call_bind rfl fun first _ => ?_
  cases first with
  | false => exact rfl
  | true =>
    by_cases hroots : cfg.hasInitialNodes = true
    · simp only [hroots, Bool.and_self, if_true]
      refine (assignFrames_obeys hroots _ rfl).bind fun slots l hl => ?_
      rw [hl]
      exact dispatchAll_obeys hroots slots PrepStage.assigning_ne rfl
    · simp only [hroots, Bool.and_false, Bool.false_eq_true, if_false]
      exact rfl

theorem releaseAndDispatchNext_obeys {slot : ℕ} {again : Bool}
    (hstage : l.stage = .counted slot again) :
    (Flow.releaseAndDispatchNext cfg slot).Obeys (budgetDiscipline cfg)
      (fun _ l' => l'.stage = if again then .waiting slot else .idle) l := by
  have hreleased : l.stage.released = if again then .waiting slot else .idle := by
    rw [hstage]
    cases again with
    | true => rfl
    | false => rfl
  refine Prog.Obeys.call_bind ⟨again, hstage⟩ fun out _ => ?_
  cases out with
  | none => exact hreleased
  | some promoted =>
    refine Prog.Obeys.call_bind trivial fun _ _ => ?_
    exact (spawnInitial_obeys PrepStage.dispatching_ne).mono fun _ _ hl => hl.1.trans hreleased

theorem checkSlot_obeys (hcompute : cfg.hasNetwork = false) (slot : ℕ) :
    (Flow.checkSlot cfg slot).Obeys (budgetDiscipline cfg) (fun _ l => l.Rests) .idle := by
  refine Prog.Obeys.call_bind rfl fun won _ => ?_
  cases won with
  | false => exact rfl
  | true =>
    refine ⟨trivial, fun _ _ => ⟨rfl, fun _ _ => ⟨rfl, fun others _ => ⟨rfl, fun completed _ => ?_⟩⟩⟩⟩
    refine (releaseAndDispatchNext_obeys rfl).bind fun _ l hl => ?_
    by_cases hagain : completed + others < cfg.maxFrames
    · rw [decide_eq_true hagain, if_pos rfl] at hl
      simp only [hagain, if_true, Flow.restartSlotNonnetwork, hcompute, Bool.false_eq_true,
        if_false]
      refine Prog.Obeys.call_bind hl fun _ _ => ?_
      exact (spawnInitial_obeys PrepStage.dispatching_ne).mono fun _ _ h => h.1
    · rw [decide_eq_false hagain] at hl
      simp only [hagain, if_false]
      exact hl

theorem budgetJob_obeys (hcompute : cfg.hasNetwork = false) (job : FlowJob) :
    ((flowMachine cfg).program job).Obeys (budgetDiscipline cfg) (fun _ l => l.Rests) .idle := by
  cases job with
  | prepare => exact prepare_obeys
  | poll hint packets =>
    simp only [flowMachine, hcompute, Bool.false_eq_true, if_false]
    exact rfl
  | check slot => exact checkSlot_obeys hcompute slot
  | evict slot =>
    simp only [flowMachine, hcompute, Bool.false_eq_true, if_false]
    exact rfl

end Programs

/-! ## The invariant -/

theorem filterMap_sublist {α β : Type} {f g : α → Option β}
    (himp : ∀ a b, f a = some b → g a = some b) (l : List α) :
    (l.filterMap f).Sublist (l.filterMap g) := by
  induction l with
  | nil => exact .slnil
  | cons a l ih =>
    cases hf : f a with
    | none =>
      rw [List.filterMap_cons_none hf]
      cases hg : g a with
      | none =>
        rw [List.filterMap_cons_none hg]
        exact ih
      | some b =>
        rw [List.filterMap_cons_some hg]
        exact ih.cons b
    | some b =>
      rw [List.filterMap_cons_some hf, List.filterMap_cons_some (himp a b hf)]
      exact ih.cons_cons b

/-- Leaving out the elements of a list takes away no more than its length. -/
theorem length_le_filter_add {slots : List ℕ} (gone : List ℕ) (hnodup : slots.Nodup) :
    slots.length ≤ (slots.filter fun s => s ∉ gone).length + gone.length := by
  have hle := (List.subperm_of_subset (hnodup.filter fun s => s ∈ gone)
    fun s hs => of_decide_eq_true (List.mem_filter.mp hs).2).length_le
  have hsum := List.length_eq_length_filter_add (l := slots) fun s => s ∈ gone
  have hrest : (slots.filter fun s => !decide (s ∈ gone)) = slots.filter fun s => s ∉ gone :=
    List.filter_congr fun s _ => by simp
  rw [hrest] at hsum
  omega

/-- One thread at most assigns the initial frames, before any initial node is dispatched; completions
come after that. -/
structure PrepOk (cfg : FlowConfig) (σ : Flow) (ls : List BudgetPhase) : Prop where
  once : ls.countP (·.prep = .assigning) ≤ 1
  early : (σ.prepDone = false ∨ ∃ l ∈ ls, l.prep = .assigning) → σ.log.spawned = []
  undone : σ.prepDone = false → ∀ l ∈ ls, l.prep = .none
  later : ∀ l ∈ ls, l.prep = .dispatching → ∀ m ∈ ls, m.prep ≠ .assigning
  fresh : σ.log.spawned = [] → σ.frameCompleteCounter = 0 ∧ (∀ s, σ.rootsDispatched s = false) ∧
    ∀ l ∈ ls, l.stage = .idle
  rootless : cfg.hasInitialNodes = false → σ.table.runningFrames = [] ∧ σ.log.spawned = []

/-- Frames started are frames completed or running, once the completions that are counted and not
released are taken off; slots that are going to restart are within the budget. -/
structure Budgeted (cfg : FlowConfig) (σ : Flow) (stages : List CompletionPhase) : Prop where
  coherent : Coherent cfg.toSlotConfig σ.table
  started : σ.frameCompleteCounter + σ.table.runningFrames.length =
    σ.log.occupied.length + σ.log.unreleased.length
  unreleased : σ.log.unreleased.Perm (stages.filterMap CompletionPhase.unreleased)
  restarting : σ.log.restarting.Perm (stages.filterMap CompletionPhase.restarting)
  owners : (stages.filterMap CompletionPhase.owner).Nodup
  held : ∀ l ∈ stages, ∀ slot, l.holds = some slot →
    slot ∈ σ.table.runningFrames.map Prod.snd ∧ slot ∈ σ.claimed
  waiting : ∀ l ∈ stages, ∀ slot, l = .waiting slot →
    slot < cfg.slots ∧ slot ∉ σ.table.runningFrames.map Prod.snd
  budget : σ.log.occupied.length + σ.log.restarting.length ≤ cfg.maxFrames
  seen : ∀ l ∈ stages, ∀ slot n, l = .seen slot n → n < cfg.slots
  exact : ∀ l ∈ stages, ∀ slot n, l = .seen slot n → slot ∈ σ.log.snapshots →
    n + 1 = σ.table.runningFrames.length ∧ σ.log.unreleased = [] ∧ σ.log.restarting = []

section Preparation

variable {cfg : FlowConfig} {σ σ' : Flow} {l l' : BudgetPhase} {ls ls' others : List BudgetPhase}

theorem PrepOk.perm (h : PrepOk cfg σ ls) (hp : ls.Perm ls') : PrepOk cfg σ ls' where
  once := hp.countP_eq _ ▸ h.once
  early := by
    rintro (hdone | ⟨l, hl, hprep⟩)
    · exact h.early (.inl hdone)
    · exact h.early (.inr ⟨l, hp.mem_iff.mpr hl, hprep⟩)
  undone := fun hdone l hl => h.undone hdone l (hp.mem_iff.mpr hl)
  later := fun l hl hprep m hm =>
    h.later l (hp.mem_iff.mpr hl) hprep m (hp.mem_iff.mpr hm)
  fresh := fun hnone => ⟨(h.fresh hnone).1, (h.fresh hnone).2.1, fun l hl =>
    (h.fresh hnone).2.2 l (hp.mem_iff.mpr hl)⟩
  rootless := h.rootless

/-- Once an initial node has been dispatched, the preparation is past its assignments. -/
theorem PrepOk.past (h : PrepOk cfg σ ls) (hspawned : σ.log.spawned ≠ []) :
    σ.prepDone = true ∧ (∀ l ∈ ls, l.prep ≠ .assigning) ∧ cfg.hasInitialNodes = true := by
  refine ⟨?_, fun l hl hprep => hspawned (h.early (.inr ⟨l, hl, hprep⟩)), ?_⟩
  · by_contra hdone
    exact hspawned (h.early (.inl (Bool.eq_false_of_not_eq_true hdone)))
  · by_contra hroots
    exact hspawned (h.rootless (Bool.eq_false_of_not_eq_true hroots)).2

theorem prepOk_past (hspawned : σ.log.spawned ≠ []) (hdone : σ.prepDone = true)
    (hnone : ∀ l ∈ ls, l.prep ≠ .assigning) (hroots : cfg.hasInitialNodes = true) :
    PrepOk cfg σ ls where
  once := by
    have hzero : ls.countP (·.prep = .assigning) = 0 :=
      List.countP_eq_zero.mpr fun l hl => by simpa using hnone l hl
    omega
  early := by
    rintro (h | ⟨l, hl, hprep⟩)
    · rw [hdone] at h
      cases h
    · exact absurd hprep (hnone l hl)
  undone := fun h => by rw [hdone] at h; cases h
  later := fun _ _ _ => hnone
  fresh := fun h => absurd h hspawned
  rootless := fun h => by rw [hroots] at h; cases h

/-- A thread in the middle of a completion goes on. -/
theorem PrepOk.move (h : PrepOk cfg σ (l :: others)) (hspawned : σ.log.spawned ≠ [])
    (hlog : σ'.log.spawned = σ.log.spawned) (hdone : σ'.prepDone = σ.prepDone)
    (hprep : l'.prep = l.prep ∨ l'.prep = .dispatching) : PrepOk cfg σ' (l' :: others) := by
  obtain ⟨hdone', hnone, hroots⟩ := h.past hspawned
  refine prepOk_past (hlog ▸ hspawned) (hdone.trans hdone') (fun m hm => ?_) hroots
  rcases List.mem_cons.mp hm with rfl | hm
  · rcases hprep with hsame | hdisp
    · rw [hsame]
      exact hnone l List.mem_cons_self
    · rw [hdisp]
      decide
  · exact hnone m (List.mem_cons_of_mem _ hm)

end Preparation

namespace Budgeted

variable {cfg : FlowConfig} {σ σ' : Flow} {l l' : CompletionPhase}
  {stages stages' others : List CompletionPhase}

theorem perm (h : Budgeted cfg σ stages) (hp : stages.Perm stages') :
    Budgeted cfg σ stages' where
  coherent := h.coherent
  started := h.started
  unreleased := h.unreleased.trans (hp.filterMap _)
  restarting := h.restarting.trans (hp.filterMap _)
  owners := (hp.filterMap _).nodup_iff.mp h.owners
  held := fun l hl => h.held l (hp.mem_iff.mpr hl)
  waiting := fun l hl => h.waiting l (hp.mem_iff.mpr hl)
  budget := h.budget
  seen := fun l hl => h.seen l (hp.mem_iff.mpr hl)
  exact := fun l hl => h.exact l (hp.mem_iff.mpr hl)

theorem other_owner (h : Budgeted cfg σ (l :: others)) {slot : ℕ} (hl : l.owner = some slot)
    {m : CompletionPhase} (hm : m ∈ others) : m.owner ≠ some slot := by
  intro hsame
  have hnodup := h.owners
  rw [List.filterMap_cons_some hl, List.nodup_cons] at hnodup
  exact hnodup.1 (List.mem_filterMap.mpr ⟨m, hm, hsame⟩)

theorem owners_tail (h : Budgeted cfg σ (l :: others)) :
    (others.filterMap CompletionPhase.owner).Nodup :=
  h.owners.sublist ((List.sublist_cons_self l others).filterMap _)

/-- A thread goes on with the slot it works on. -/
theorem owners_same (h : Budgeted cfg σ (l :: others)) {slot : ℕ} (hl : l.owner = some slot)
    (hl' : l'.owner = some slot) : ((l' :: others).filterMap CompletionPhase.owner).Nodup :=
  owners_cons hl' h.owners_tail fun _ hm => h.other_owner hl hm

/-- The slots that are not counted yet and those about to restart are different slots. -/
theorem room (h : Budgeted cfg σ stages) :
    σ.log.occupied.length + σ.log.restarting.length ≤ σ.frameCompleteCounter + cfg.slots := by
  have hunreleased : ∀ s, s ∈ σ.log.unreleased ↔ ∃ l ∈ stages, l.unreleased = some s := fun s => by
    rw [h.unreleased.mem_iff, List.mem_filterMap]
  have hrestarting : ∀ s, s ∈ σ.log.restarting ↔ ∃ l ∈ stages, l.restarting = some s := fun s => by
    rw [h.restarting.mem_iff, List.mem_filterMap]
  let busy := (σ.table.runningFrames.map Prod.snd).filter fun s => s ∉ σ.log.unreleased
  have hnodup : (busy ++ σ.log.restarting).Nodup := by
    refine List.nodup_append.mpr ⟨h.coherent.distinct.filter _, ?_, ?_⟩
    · exact h.restarting.nodup_iff.mpr
        (h.owners.sublist (filterMap_sublist (fun _ _ hs =>
          (CompletionPhase.owner_of_restarting hs).1) stages))
    · rintro s hs s' hs' rfl
      obtain ⟨l, hl, hphase⟩ := (hrestarting s).mp hs'
      obtain ⟨hin, hout⟩ := List.mem_filter.mp hs
      rcases (CompletionPhase.owner_of_restarting hphase).2 with hcounted | hwaits
      · exact of_decide_eq_true hout ((hunreleased s).mpr ⟨l, hl, hcounted⟩)
      · exact (h.waiting l hl s hwaits).2 hin
  have hsub : busy ++ σ.log.restarting ⊆ List.range cfg.slots := by
    intro s hs
    have hrunning : s ∈ σ.table.runningFrames.map Prod.snd → s ∈ List.range cfg.slots := by
      intro hin
      obtain ⟨e, he, rfl⟩ := List.mem_map.mp hin
      exact List.mem_range.mpr (h.coherent.inRange e he)
    rcases List.mem_append.mp hs with hs | hs
    · exact hrunning (List.mem_filter.mp hs).1
    · obtain ⟨l, hl, hphase⟩ := (hrestarting s).mp hs
      rcases (CompletionPhase.owner_of_restarting hphase).2 with hcounted | hwaits
      · exact hrunning (h.held l hl s (CompletionPhase.owner_of_unreleased hcounted).2).1
      · exact List.mem_range.mpr (h.waiting l hl s hwaits).1
  have hle := (List.subperm_of_subset hnodup hsub).length_le
  rw [List.length_append, List.length_range] at hle
  have hsplit := length_le_filter_add σ.log.unreleased h.coherent.distinct
  rw [List.length_map] at hsplit
  have hstarted := h.started
  have hbusy : busy.length = ((σ.table.runningFrames.map Prod.snd).filter fun s =>
      s ∉ σ.log.unreleased).length := rfl
  omega

/-! ## Steps -/

/-- A step that neither counts, releases nor starts a frame. -/
theorem keep (h : Budgeted cfg σ stages) (hcoherent : Coherent cfg.toSlotConfig σ'.table)
    (hrunning : σ'.table.runningFrames = σ.table.runningFrames)
    (hcounter : σ'.frameCompleteCounter = σ.frameCompleteCounter)
    (hoccupied : σ'.log.occupied = σ.log.occupied)
    (hunreleased : σ'.log.unreleased = σ.log.unreleased)
    (hrestarting : σ'.log.restarting = σ.log.restarting)
    (hsnapshots : σ'.log.snapshots = σ.log.snapshots) (hclaimed : σ'.claimed = σ.claimed) :
    Budgeted cfg σ' stages := by
  refine ⟨hcoherent, ?_, ?_, ?_, h.owners, ?_, ?_, ?_, h.seen, ?_⟩
  · rw [hcounter, hrunning, hoccupied, hunreleased]
    exact h.started
  · exact hunreleased ▸ h.unreleased
  · exact hrestarting ▸ h.restarting
  · rw [hrunning, hclaimed]
    exact h.held
  · rw [hrunning]
    exact h.waiting
  · rw [hoccupied, hrestarting]
    exact h.budget
  · rw [hrunning, hunreleased, hrestarting, hsnapshots]
    exact h.exact

theorem claim (h : Budgeted cfg σ (.idle :: others)) {slot : ℕ}
    (hrunning : slot ∈ σ.table.runningFrames.map Prod.snd) (hfree : slot ∉ σ.claimed) :
    Budgeted cfg { σ with claimed := slot :: σ.claimed } (.claimed slot :: others) where
  coherent := h.coherent
  started := h.started
  unreleased := h.unreleased
  restarting := h.restarting
  owners := by
    refine owners_cons rfl h.owners_tail fun m hm howner => ?_
    cases hholds : m.holds with
    | some s =>
      obtain rfl : s = slot := by
        have hsame := CompletionPhase.owner_of_holds hholds
        rw [howner] at hsame
        exact (Option.some.inj hsame).symm
      exact hfree (h.held m (List.mem_cons_of_mem _ hm) s hholds).2
    | none =>
      cases m with
      | waiting s =>
        obtain rfl := Option.some.inj howner
        exact (h.waiting _ (List.mem_cons_of_mem _ hm) s rfl).2 hrunning
      | idle => cases howner
      | _ => cases hholds
  held := by
    intro m hm s hs
    rcases List.mem_cons.mp hm with rfl | hm
    · obtain rfl := Option.some.inj hs
      exact ⟨hrunning, List.mem_cons_self⟩
    · obtain ⟨hin, hclaimed⟩ := h.held m (List.mem_cons_of_mem _ hm) s hs
      exact ⟨hin, List.mem_cons_of_mem _ hclaimed⟩
  waiting := by
    intro m hm s hs
    rcases List.mem_cons.mp hm with rfl | hm
    · cases hs
    · exact h.waiting m (List.mem_cons_of_mem _ hm) s hs
  budget := h.budget
  seen := by
    intro m hm s n hs
    rcases List.mem_cons.mp hm with rfl | hm
    · cases hs
    · exact h.seen m (List.mem_cons_of_mem _ hm) s n hs
  exact := by
    intro m hm s n hs hin
    rcases List.mem_cons.mp hm with rfl | hm
    · cases hs
    · exact h.exact m (List.mem_cons_of_mem _ hm) s n hs hin

theorem countActive {slot : ℕ} (h : Budgeted cfg σ (.claimed slot :: others)) :
    Budgeted cfg (Flow.countActive cfg slot σ).2
      (.seen slot (Flow.countActive cfg slot σ).1 :: others) where
  coherent := h.coherent
  started := h.started
  unreleased := h.unreleased
  restarting := h.restarting
  owners := h.owners_same rfl rfl
  held := by
    intro m hm s hs
    rcases List.mem_cons.mp hm with rfl | hm
    · obtain rfl := Option.some.inj hs
      exact h.held _ List.mem_cons_self slot rfl
    · exact h.held m (List.mem_cons_of_mem _ hm) s hs
  waiting := by
    intro m hm s hs
    rcases List.mem_cons.mp hm with rfl | hm
    · cases hs
    · exact h.waiting m (List.mem_cons_of_mem _ hm) s hs
  budget := h.budget
  seen := by
    intro m hm s n hs
    rcases List.mem_cons.mp hm with rfl | hm
    · obtain ⟨rfl, rfl⟩ := CompletionPhase.seen.inj hs
      have hcount : (Flow.countActive cfg slot σ).1 =
          σ.table.currentlyActiveFrames cfg.toSlotConfig slot := rfl
      have htotal := h.coherent.currentlyActiveFrames_eq (h.held _ List.mem_cons_self slot rfl).1
      have hle := h.coherent.running_le
      omega
    · exact h.seen m (List.mem_cons_of_mem _ hm) s n hs
  exact := by
    intro m hm s n hs hin
    simp only [Flow.countActive] at hin
    rcases List.mem_cons.mp hm with rfl | hm
    · obtain ⟨rfl, rfl⟩ := CompletionPhase.seen.inj hs
      have hslot := (h.held _ List.mem_cons_self slot rfl).1
      refine ⟨h.coherent.currentlyActiveFrames_eq hslot, ?_⟩
      by_contra hbusy
      have hbefore : ¬ (σ.log.unreleased = [] ∧ σ.log.restarting = []) := hbusy
      rw [if_neg hbefore] at hin
      simp at hin
    · have hne : s ≠ slot := fun hsame =>
        h.other_owner rfl hm (by rw [hs, hsame]; rfl)
      refine h.exact m (List.mem_cons_of_mem _ hm) s n hs ?_
      split at hin
      · exact (List.mem_cons.mp hin).resolve_left hne
      · exact List.mem_of_mem_filter hin

end Budgeted

/-- A thread counts its completion far from the budget, or against the slots as they are. -/
def OnBudget (cfg : FlowConfig) (σ : Flow) (slot : ℕ) : Prop :=
  σ.frameCompleteCounter + cfg.slots < cfg.maxFrames ∨ slot ∈ σ.log.snapshots

namespace Budgeted

variable {cfg : FlowConfig} {σ σ' : Flow} {l l' : CompletionPhase}
  {stages stages' others : List CompletionPhase}

/-- With the slots as they are, the frames started are what the thread compares with the budget. -/
theorem exact_total {slot n : ℕ} (h : Budgeted cfg σ (.seen slot n :: others))
    (hin : slot ∈ σ.log.snapshots) :
    σ.frameCompleteCounter + 1 + n = σ.log.occupied.length ∧ σ.log.restarting = [] := by
  obtain ⟨hn, hunreleased, hrestarting⟩ := h.exact _ List.mem_cons_self slot n rfl hin
  have hstarted := h.started
  rw [hunreleased, List.length_nil] at hstarted
  exact ⟨by omega, hrestarting⟩

theorem countCompletion {slot n : ℕ} (h : Budgeted cfg σ (.seen slot n :: others))
    (hok : OnBudget cfg σ slot) :
    Budgeted cfg (Flow.countCompletion cfg slot n σ).2
      (.counted slot (Flow.canRestart cfg n σ) :: others) where
  coherent := h.coherent
  started := by
    have hstarted := h.started
    simp only [Flow.countCompletion, List.length_cons]
    omega
  unreleased := h.unreleased.cons slot
  restarting := by
    simp only [Flow.countCompletion]
    cases Flow.canRestart cfg n σ with
    | true => exact h.restarting.cons slot
    | false => exact h.restarting
  owners := h.owners_same rfl rfl
  held := by
    intro m hm s hs
    rcases List.mem_cons.mp hm with rfl | hm
    · obtain rfl := Option.some.inj hs
      exact h.held _ List.mem_cons_self slot rfl
    · exact h.held m (List.mem_cons_of_mem _ hm) s hs
  waiting := by
    intro m hm s hs
    rcases List.mem_cons.mp hm with rfl | hm
    · cases hs
    · exact h.waiting m (List.mem_cons_of_mem _ hm) s hs
  budget := by
    have hbudget := h.budget
    simp only [Flow.countCompletion]
    split
    · next hagain =>
      have hless := of_decide_eq_true hagain
      rw [List.length_cons]
      rcases hok with hfar | hin
      · have hroom := h.room
        omega
      · obtain ⟨htotal, hnone⟩ := h.exact_total hin
        rw [hnone, List.length_nil]
        omega
    · exact hbudget
  seen := by
    intro m hm s k hs
    rcases List.mem_cons.mp hm with rfl | hm
    · cases hs
    · exact h.seen m (List.mem_cons_of_mem _ hm) s k hs
  exact := fun _ _ _ _ _ hin => (nomatch hin)

theorem mem_release (h : Budgeted cfg σ stages) (slot s : ℕ) :
    s ∈ (Flow.releaseUnderLock cfg slot σ).2.table.runningFrames.map Prod.snd ↔
      s ∈ σ.table.runningFrames.map Prod.snd ∧ s ≠ slot := by
  rw [Flow.releaseUnderLock_table, runningFrames_releaseUnderLock h.coherent slot]
  simp only [List.mem_map, List.mem_filter, decide_eq_true_eq]
  constructor
  · rintro ⟨e, ⟨he, hne⟩, rfl⟩
    exact ⟨⟨e, he, rfl⟩, hne⟩
  · rintro ⟨⟨e, he, rfl⟩, hne⟩
    exact ⟨e, ⟨he, hne⟩, rfl⟩

theorem release {slot : ℕ} {again : Bool} (h : Budgeted cfg σ (.counted slot again :: others)) :
    Budgeted cfg (Flow.releaseUnderLock cfg slot σ).2
      (CompletionPhase.released (.counted slot again) :: others) := by
  obtain ⟨hrunning, -⟩ := h.held _ List.mem_cons_self slot rfl
  obtain ⟨e, he, heslot⟩ := List.mem_map.mp hrunning
  have hslot : slot < cfg.slots := heslot ▸ h.coherent.inRange e he
  have hcounted : slot ∈ σ.log.unreleased :=
    h.unreleased.mem_iff.mpr (List.mem_filterMap.mpr ⟨_, List.mem_cons_self, rfl⟩)
  have hother : ∀ m ∈ others, ∀ s, m.owner = some s → s ≠ slot := by
    intro m hm s hs hsame
    exact h.other_owner rfl hm (hsame ▸ hs)
  have hlength : (Flow.releaseUnderLock cfg slot σ).2.table.runningFrames.length + 1 =
      σ.table.runningFrames.length := by
    rw [Flow.releaseUnderLock_table, runningFrames_releaseUnderLock h.coherent slot,
      ← eraseP_slot slot h.coherent.distinct, List.length_eraseP_of_mem he (by simpa using heslot)]
    have hpos := List.length_pos_of_mem he
    omega
  have hcoherent : Coherent cfg.toSlotConfig (Flow.releaseUnderLock cfg slot σ).2.table := by
    rw [Flow.releaseUnderLock_table]
    exact h.coherent.releaseUnderLock hslot
  have hmem := h.mem_release slot
  have hcounter : (Flow.releaseUnderLock cfg slot σ).2.frameCompleteCounter =
      σ.frameCompleteCounter := by rw [Flow.releaseUnderLock_eq]
  have hclaimed : (Flow.releaseUnderLock cfg slot σ).2.claimed = σ.claimed.erase slot := by
    rw [Flow.releaseUnderLock_eq]
  have hoccupied : (Flow.releaseUnderLock cfg slot σ).2.log.occupied = σ.log.occupied := by
    rw [Flow.releaseUnderLock_log]
  have hunreleased : (Flow.releaseUnderLock cfg slot σ).2.log.unreleased =
      σ.log.unreleased.erase slot := by rw [Flow.releaseUnderLock_log]
  have hrestarting : (Flow.releaseUnderLock cfg slot σ).2.log.restarting = σ.log.restarting := by
    rw [Flow.releaseUnderLock_log]
  have hsnapshots : (Flow.releaseUnderLock cfg slot σ).2.log.snapshots = σ.log.snapshots := by
    rw [Flow.releaseUnderLock_log]
  generalize Flow.releaseUnderLock cfg slot σ = out at *
  have hthread : ∀ m ∈ CompletionPhase.released (.counted slot again) :: others, ∀ s,
      (m.holds = some s → s ∈ out.2.table.runningFrames.map Prod.snd ∧ s ∈ out.2.claimed) ∧
      (m = .waiting s → s < cfg.slots ∧ s ∉ out.2.table.runningFrames.map Prod.snd) := by
    intro m hm s
    rcases List.mem_cons.mp hm with rfl | hm
    · cases again with
      | false => exact ⟨fun hs => (nomatch hs), fun hs => (nomatch hs)⟩
      | true =>
        refine ⟨fun hs => (nomatch hs), fun hs => ?_⟩
        obtain rfl := CompletionPhase.waiting.inj hs
        exact ⟨hslot, fun hin => ((hmem _).mp hin).2 rfl⟩
    · have hm' := List.mem_cons_of_mem (.counted slot again) hm
      refine ⟨fun hs => ?_, fun hs => ?_⟩
      · obtain ⟨hin, hinClaimed⟩ := h.held m hm' s hs
        have hne := hother m hm s (CompletionPhase.owner_of_holds hs)
        rw [hclaimed]
        exact ⟨(hmem s).mpr ⟨hin, hne⟩, (List.mem_erase_of_ne hne).mpr hinClaimed⟩
      · obtain ⟨hlt, hout⟩ := h.waiting m hm' s hs
        exact ⟨hlt, fun hin => hout ((hmem s).mp hin).1⟩
  have hseen : ∀ m ∈ CompletionPhase.released (.counted slot again) :: others, ∀ s n,
      m = .seen s n → m ∈ others := by
    intro m hm s n hs
    rcases List.mem_cons.mp hm with rfl | hm
    · cases again <;> cases hs
    · exact hm
  refine ⟨hcoherent, ?_, ?_, ?_, ?_, fun m hm s => (hthread m hm s).1,
    fun m hm s => (hthread m hm s).2, ?_, fun m hm s n hs =>
      h.seen m (List.mem_cons_of_mem _ (hseen m hm s n hs)) s n hs, ?_⟩
  · have hstarted := h.started
    have hpos := List.length_pos_of_mem hcounted
    have herase := List.length_erase_of_mem hcounted
    rw [hcounter, hoccupied, hunreleased]
    omega
  · have hphase : CompletionPhase.unreleased (.counted slot again) = some slot := rfl
    have hperm := h.unreleased.erase slot
    rw [List.filterMap_cons_some hphase, List.erase_cons_head] at hperm
    rw [hunreleased]
    cases again <;> exact hperm
  · rw [hrestarting]
    cases again <;> exact h.restarting
  · cases again with
    | true => exact h.owners_same rfl rfl
    | false => exact h.owners_tail
  · rw [hoccupied, hrestarting]
    exact h.budget
  · intro m hm s n hs hin
    have hnone := (h.exact m (List.mem_cons_of_mem _ (hseen m hm s n hs)) s n hs
      (hsnapshots ▸ hin)).2.1
    rw [hnone] at hcounted
    cases hcounted

theorem restart {slot : ℕ} (h : Budgeted cfg σ (.waiting slot :: others))
    (hcompute : cfg.hasNetwork = false) :
    Budgeted cfg (Flow.restartUnderLock cfg slot σ) (.idle :: others) := by
  obtain ⟨hslot, hout⟩ := h.waiting _ List.mem_cons_self slot rfl
  have hwaits : slot ∈ σ.log.restarting :=
    h.restarting.mem_iff.mpr (List.mem_filterMap.mpr ⟨_, List.mem_cons_self, rfl⟩)
  have hcoherent := h.coherent.restart hslot σ.frameCompleteCounter fun _ =>
    (h.coherent.inactive_iff slot hslot).mpr hout
  have hframes : (Flow.restartUnderLock cfg slot σ).table.runningFrames = σ.table.runningFrames ++
      [(σ.frameCompleteCounter + σ.table.currentlyActive cfg.toSlotConfig, slot)] := by
    simp only [Flow.restartUnderLock, SlotData.restartSlotNonnetwork, hcompute]
    rfl
  have hmem : ∀ s, s ∈ (Flow.restartUnderLock cfg slot σ).table.runningFrames.map Prod.snd ↔
      s ∈ σ.table.runningFrames.map Prod.snd ∨ s = slot := by
    intro s
    rw [hframes, List.map_append, List.mem_append, List.map_singleton, List.mem_singleton]
  have hpos := List.length_pos_of_mem hwaits
  have herase := List.length_erase_of_mem hwaits
  refine ⟨hcoherent, ?_, h.unreleased, ?_, h.owners_tail, ?_, ?_, ?_, ?_, ?_⟩
  · have hstarted := h.started
    rw [hframes, List.length_append, List.length_singleton]
    simp only [Flow.restartUnderLock, List.length_cons]
    omega
  · have hphase : CompletionPhase.restarting (.waiting slot) = some slot := rfl
    have hperm := h.restarting.erase slot
    rw [List.filterMap_cons_some hphase, List.erase_cons_head] at hperm
    exact hperm
  · intro m hm s hs
    rcases List.mem_cons.mp hm with rfl | hm
    · cases hs
    · obtain ⟨hin, hclaimed⟩ := h.held m (List.mem_cons_of_mem _ hm) s hs
      exact ⟨(hmem s).mpr (.inl hin), hclaimed⟩
  · intro m hm s hs
    rcases List.mem_cons.mp hm with rfl | hm
    · cases hs
    · obtain ⟨hlt, hout'⟩ := h.waiting m (List.mem_cons_of_mem _ hm) s hs
      refine ⟨hlt, fun hin => ?_⟩
      rcases (hmem s).mp hin with hin | rfl
      · exact hout' hin
      · exact h.other_owner rfl hm (by rw [hs]; rfl)
  · have hbudget := h.budget
    simp only [Flow.restartUnderLock, List.length_cons]
    omega
  · intro m hm s n hs
    rcases List.mem_cons.mp hm with rfl | hm
    · cases hs
    · exact h.seen m (List.mem_cons_of_mem _ hm) s n hs
  · intro m hm s n hs hin
    rcases List.mem_cons.mp hm with rfl | hm
    · cases hs
    · have hnone := (h.exact m (List.mem_cons_of_mem _ hm) s n hs hin).2.2
      rw [hnone] at hwaits
      cases hwaits

/-- The initial frames take slots before anything else happens. -/
theorem assign (h : Budgeted cfg σ stages) (hidle : ∀ l ∈ stages, l = .idle)
    (hcounter : σ.frameCompleteCounter = 0) (frame : ℕ) :
    Budgeted cfg (Flow.assignUnderLock cfg frame .preparation σ).2 stages := by
  have hnone : ∀ {f : CompletionPhase → Option ℕ}, f .idle = none → stages.filterMap f = [] :=
    fun hf => List.filterMap_eq_nil_iff.mpr fun l hl => by rw [hidle l hl, hf]
  have hunreleased : σ.log.unreleased = [] :=
    List.perm_nil.mp (hnone (f := CompletionPhase.unreleased) rfl ▸ h.unreleased)
  have hrestarting : σ.log.restarting = [] :=
    List.perm_nil.mp (hnone (f := CompletionPhase.restarting) rfl ▸ h.restarting)
  have hcoherent := h.coherent.assignUnderLock frame
  have hstarted := h.started
  have hlength : (Flow.assignUnderLock cfg frame .preparation σ).2.table.runningFrames.length =
      (Flow.assignUnderLock cfg frame .preparation σ).2.log.occupied.length := by
    rw [hcounter, hunreleased, List.length_nil] at hstarted
    rcases assignUnderLock_seats h.coherent frame with
      hfull | ⟨slot, hin, hfound⟩ | ⟨slot, newly, d', heq, hseats⟩
    · simp only [Flow.assignUnderLock, hfull]
      omega
    · have hold : frame ∈ σ.table.runningFrames.map Prod.fst :=
        List.mem_map.mpr ⟨_, hin, rfl⟩
      simp only [Flow.assignUnderLock, hfound, hold, not_true, decide_false, Bool.false_eq_true,
        if_false]
      omega
    · simp only [Flow.assignUnderLock, heq, hseats.fresh, not_false_eq_true, decide_true, if_true,
        hseats.running, List.length_append, List.length_cons, List.length_nil]
      omega
  have hbound := hcoherent.running_le
  rw [← Flow.assignUnderLock_table cfg frame .preparation σ] at hcoherent hbound
  have hmax := cfg.slots_le_maxFrames
  refine ⟨hcoherent, ?_, ?_, ?_, h.owners, ?_, ?_, ?_, h.seen, ?_⟩
  · rw [hlength, Flow.assignUnderLock_eq, Flow.assignUnderLock_log]
    simp only [hcounter, hunreleased, List.length_nil]
    omega
  · rw [Flow.assignUnderLock_log]
    exact h.unreleased
  · rw [Flow.assignUnderLock_log]
    exact h.restarting
  · intro l hl slot hs
    rw [hidle l hl] at hs
    cases hs
  · intro l hl slot hs
    rw [hidle l hl] at hs
    cases hs
  · have hrest : (Flow.assignUnderLock cfg frame .preparation σ).2.log.restarting = [] := by
      rw [Flow.assignUnderLock_log, hrestarting]
    rw [hrest, List.length_nil]
    omega
  · intro l hl slot n hs
    rw [hidle l hl] at hs
    cases hs

/-- The slots left are all counted in the total that the thread compares. -/
theorem full_of_refused {slot n : ℕ} (h : Budgeted cfg σ (.seen slot n :: others))
    (hok : OnBudget cfg σ slot) (hrefused : Flow.canRestart cfg n σ = false) :
    cfg.maxFrames ≤ σ.log.occupied.length := by
  have htotal := of_decide_eq_false hrefused
  rcases hok with hfar | hin
  · have hn := h.seen _ List.mem_cons_self slot n rfl
    omega
  · have hexact := (h.exact_total hin).1
    omega

end Budgeted

end Tomii.Slots
