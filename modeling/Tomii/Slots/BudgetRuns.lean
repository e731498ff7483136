import Tomii.Slots.FrameBudget

/-! # Compute-only runs within the frame budget

The initial frames take their slots before any initial node is dispatched, so completions find the
preparation past its assignments. -/
namespace Tomii.Slots
set_option autoImplicit false
set_option maxHeartbeats 250000

/-! ## Runs -/

def BudgetInv (cfg : FlowConfig) (σ : Flow) (ls : List BudgetPhase) : Prop :=
  PrepOk cfg σ ls ∧ Budgeted cfg σ (ls.map BudgetPhase.stage)

/-- Every completion is counted on budget. -/
def CountsOnBudget (cfg : FlowConfig) (σ : Flow) (_ : ℕ) : FlowAct → Prop
  | .countCompletion slot _ => OnBudget cfg σ slot
  | _ => True

instance (cfg : FlowConfig) (σ : Flow) (slot : ℕ) : Decidable (OnBudget cfg σ slot) :=
  inferInstanceAs (Decidable (_ ∨ _))

instance (cfg : FlowConfig) (σ : Flow) (choice : ℕ) (a : FlowAct) :
    Decidable (CountsOnBudget cfg σ choice a) := by
  cases a with
  | countCompletion slot others => exact inferInstanceAs (Decidable (OnBudget cfg σ slot))
  | _ => exact .isTrue trivial

section Runs

variable {cfg : FlowConfig} {σ : Flow} {l : BudgetPhase} {others : List BudgetPhase}

theorem BudgetInv.perm {ls ls' : List BudgetPhase} (h : BudgetInv cfg σ ls) (hp : ls.Perm ls') :
    BudgetInv cfg σ ls' :=
  ⟨h.1.perm hp, h.2.perm (hp.map _)⟩

theorem BudgetInv.claimPreparation (h : BudgetInv cfg σ (.idle :: others)) :
    BudgetInv cfg { σ with prepDone := true }
      (⟨if !σ.prepDone then .assigning else .none, .idle⟩ :: others) := by
  obtain ⟨hprep, hbudget⟩ := h
  refine ⟨?_, hbudget.keep hbudget.coherent rfl rfl rfl rfl rfl rfl rfl⟩
  cases hdone : σ.prepDone with
  | true =>
    simp only [Bool.not_true, Bool.false_eq_true, if_false]
    refine ⟨hprep.once, ?_, fun h => (nomatch h), hprep.later, hprep.fresh, hprep.rootless⟩
    rintro (h | h)
    · cases h
    · exact hprep.early (.inr h)
  | false =>
    have hundone := hprep.undone hdone
    have hnone : others.countP (·.prep = .assigning) = 0 :=
      List.countP_eq_zero.mpr fun m hm => by
        simp [hundone m (List.mem_cons_of_mem _ hm)]
    simp only [Bool.not_false, if_true]
    refine ⟨?_, fun _ => hprep.early (.inl hdone), fun h => (nomatch h), ?_, ?_, hprep.rootless⟩
    · rw [List.countP_cons, hnone]
      simp
    · intro m hm hdisp
      rcases List.mem_cons.mp hm with rfl | hm
      · cases hdisp
      · rw [hundone m (List.mem_cons_of_mem _ hm)] at hdisp
        cases hdisp
    · intro hfresh
      obtain ⟨hcounter, hroots, hidle⟩ := hprep.fresh hfresh
      refine ⟨hcounter, hroots, fun m hm => ?_⟩
      rcases List.mem_cons.mp hm with rfl | hm
      · rfl
      · exact hidle m (List.mem_cons_of_mem _ hm)

theorem BudgetInv.dispatchInitial (h : BudgetInv cfg σ (l :: others)) (hprep : l.prep ≠ .none)
    (hroots : cfg.hasInitialNodes = true) (slot : ℕ) :
    BudgetInv cfg
      { σ with
        rootsDispatched := Function.update σ.rootsDispatched slot true
        log := { σ.log with spawned := (slot, σ.log.starts slot) :: σ.log.spawned } }
      (⟨.dispatching, l.stage⟩ :: others) := by
  obtain ⟨hp, hbudget⟩ := h
  refine ⟨?_, hbudget.keep hbudget.coherent rfl rfl rfl rfl rfl rfl rfl⟩
  have hnone : ∀ m ∈ others, m.prep ≠ .assigning := by
    intro m hm
    cases hl : l.prep with
    | none => exact absurd hl hprep
    | dispatching => exact hp.later l List.mem_cons_self hl m (List.mem_cons_of_mem _ hm)
    | assigning =>
      intro hassign
      have honce := hp.once
      have hpos : 0 < others.countP (·.prep = .assigning) :=
        List.countP_pos_iff.mpr ⟨m, hm, by simpa using hassign⟩
      rw [List.countP_cons_of_pos (by simpa using hl)] at honce
      omega
  have hdone : σ.prepDone = true := by
    by_contra hundone
    exact hprep (hp.undone (Bool.eq_false_of_not_eq_true hundone) l List.mem_cons_self)
  refine prepOk_past (by simp) hdone (fun m hm => ?_) hroots
  rcases List.mem_cons.mp hm with rfl | hm
  · exact fun hassign => (nomatch hassign)
  · exact hnone m hm

/-- The claim of a completion: its slot runs, so initial nodes were dispatched. -/
theorem BudgetInv.claim (h : BudgetInv cfg σ (.idle :: others)) {slot : ℕ}
    (hclaim : Flow.Claimable cfg slot σ) :
    BudgetInv cfg { σ with claimed := slot :: σ.claimed }
      (⟨.none, .claimed slot⟩ :: others) := by
  obtain ⟨hrunning, -, hdispatched, hfree⟩ := hclaim
  have hspawned : σ.log.spawned ≠ [] := by
    intro hnone
    cases hroots : cfg.hasInitialNodes with
    | true =>
      have hoff := (h.1.fresh hnone).2.1 slot
      rw [hdispatched hroots] at hoff
      cases hoff
    | false =>
      rw [(h.1.rootless hroots).1] at hrunning
      cases hrunning
  exact ⟨h.1.move hspawned rfl rfl (.inl rfl), h.2.claim hrunning hfree⟩

/-- A thread that completes a frame goes on. -/
theorem BudgetInv.advance {σ' : Flow} {l' : BudgetPhase} (h : BudgetInv cfg σ (l :: others))
    (hstage : l.stage ≠ .idle) (hlog : σ'.log.spawned = σ.log.spawned)
    (hdone : σ'.prepDone = σ.prepDone) (hprep : l'.prep = l.prep ∨ l'.prep = .dispatching)
    (hbudget : Budgeted cfg σ' (l'.stage :: others.map BudgetPhase.stage)) :
    BudgetInv cfg σ' (l' :: others) := by
  refine ⟨h.1.move (fun hnone => ?_) hlog hdone hprep, hbudget⟩
  exact hstage ((h.1.fresh hnone).2.2 l List.mem_cons_self)

theorem BudgetInv.assign (h : BudgetInv cfg σ (l :: others)) (hprep : l.prep = .assigning)
    (hroots : cfg.hasInitialNodes = true) (frame : ℕ) :
    BudgetInv cfg (Flow.assignUnderLock cfg frame .preparation σ).2 (l :: others) := by
  have hnone := h.1.early (.inr ⟨l, List.mem_cons_self, hprep⟩)
  obtain ⟨hcounter, hoff, hidle⟩ := h.1.fresh hnone
  have hspawned : (Flow.assignUnderLock cfg frame .preparation σ).2.log.spawned = [] := by
    rw [Flow.assignUnderLock_log, hnone]
  refine ⟨⟨h.1.once, fun _ => hspawned, ?_, h.1.later, fun _ => ?_, ?_⟩,
    h.2.assign (fun m hm => ?_) hcounter frame⟩
  · rw [Flow.assignUnderLock_eq]
    exact h.1.undone
  · rw [Flow.assignUnderLock_eq]
    exact ⟨hcounter, hoff, hidle⟩
  · intro hrootless
    rw [hroots] at hrootless
    cases hrootless
  · obtain ⟨p, hp, rfl⟩ := List.mem_map.mp hm
    exact hidle p hp

/-- A bump changes nothing that counts here. -/
theorem BudgetInv.bump (h : BudgetInv cfg σ (l :: others)) (slot : ℕ) :
    BudgetInv cfg { σ with table := σ.table.bumpSlotGeneration slot } (l :: others) :=
  ⟨⟨h.1.once, h.1.early, h.1.undone, h.1.later, h.1.fresh, h.1.rootless⟩,
    h.2.keep (h.2.coherent.bump slot) rfl rfl rfl rfl rfl rfl rfl⟩

theorem BudgetInv.resetCounters (h : BudgetInv cfg σ (l :: others)) {slot : ℕ}
    (hstage : l.stage = .claimed slot) :
    BudgetInv cfg (Flow.resetCounters slot σ) (l :: others) := by
  have hclaimed : slot ∈ σ.claimed := by
    refine (h.2.held l.stage List.mem_cons_self slot ?_).2
    rw [hstage]
    rfl
  have hcoherent : Coherent cfg.toSlotConfig (Flow.resetCounters slot σ).table :=
    ⟨h.2.coherent.inRange, h.2.coherent.lastInRange, h.2.coherent.inactive_iff,
      h.2.coherent.distinct, h.2.coherent.bitmap, h.2.coherent.frameOf, h.2.coherent.noFrame⟩
  refine h.advance ?_ rfl rfl (.inl rfl)
    (h.2.keep hcoherent rfl rfl rfl rfl rfl rfl (if_pos hclaimed))
  rw [hstage]
  exact fun hidle => (nomatch hidle)

theorem budget_maintains (hcompute : cfg.hasNetwork = false) :
    Machine.Maintains (flowMachine cfg) (CountsOnBudget cfg) (budgetDiscipline cfg) .idle
      BudgetPhase.Rests (BudgetInv cfg) where
  jobs := budgetJob_obeys hcompute
  forget := by
    intro σ pre post l hrest h
    have hfront := h.perm List.perm_middle
    refine BudgetInv.perm ?_ List.perm_middle.symm
    have hstages : (BudgetPhase.idle :: (pre ++ post)).map BudgetPhase.stage =
        (l :: (pre ++ post)).map BudgetPhase.stage := by
      rw [List.map_cons, List.map_cons, show l.stage = .idle from hrest]
      rfl
    refine ⟨⟨?_, ?_, ?_, ?_, ?_, hfront.1.rootless⟩, hstages ▸ hfront.2⟩
    · have honce := hfront.1.once
      rw [List.countP_cons] at honce
      rw [List.countP_cons_of_neg (by decide)]
      omega
    · rintro (hdone | ⟨m, hm, hprep⟩)
      · exact hfront.1.early (.inl hdone)
      · rcases List.mem_cons.mp hm with rfl | hm
        · cases hprep
        · exact hfront.1.early (.inr ⟨m, List.mem_cons_of_mem _ hm, hprep⟩)
    · intro hdone m hm
      rcases List.mem_cons.mp hm with rfl | hm
      · rfl
      · exact hfront.1.undone hdone m (List.mem_cons_of_mem _ hm)
    · intro m hm hdisp k hk
      rcases List.mem_cons.mp hm with rfl | hm
      · cases hdisp
      · rcases List.mem_cons.mp hk with rfl | hk
        · exact fun hassign => (by cases hassign)
        · exact hfront.1.later m (List.mem_cons_of_mem _ hm) hdisp k (List.mem_cons_of_mem _ hk)
    · intro hfresh
      obtain ⟨hcounter, hoff, hidle⟩ := hfront.1.fresh hfresh
      refine ⟨hcounter, hoff, fun m hm => ?_⟩
      rcases List.mem_cons.mp hm with rfl | hm
      · rfl
      · exact hidle m (List.mem_cons_of_mem _ hm)
  step := by
    intro σ pre post l choice a h hpermits hok
    refine ⟨trivial, ?_⟩
    have hfront := h.perm List.perm_middle
    refine BudgetInv.perm ?_ List.perm_middle.symm
    generalize pre ++ post = others at hfront
    cases a with
    | claimPreparation =>
      obtain rfl : l = .idle := hpermits
      exact hfront.claimPreparation
    | lookup frame site =>
      obtain rfl : site = .preparation := hpermits
      have hsame : (Flow.lookup cfg frame .preparation σ).2 = σ := by
        unfold Flow.lookup
        split <;> rfl
      show BudgetInv cfg (Flow.lookup cfg frame .preparation σ).2 (l :: others)
      rw [hsame]
      exact hfront
    | assignUnderLock frame site =>
      obtain ⟨rfl, hprep, hroots⟩ := hpermits
      exact hfront.assign hprep hroots frame
    | bump slot => exact hfront.bump slot
    | dispatchInitial slot => exact hfront.dispatchInitial hpermits.1 hpermits.2 slot
    | claimCompletion slot =>
      obtain rfl : l = .idle := hpermits
      by_cases hclaim : Flow.Claimable cfg slot σ
      · simp only [flowMachine, Flow.perform, if_pos hclaim]
        exact hfront.claim hclaim
      · simp only [flowMachine, Flow.perform, if_neg hclaim]
        exact hfront
    | resetCounters slot => exact hfront.resetCounters hpermits
    | countActive slot =>
      have hstage : l.stage = .claimed slot := hpermits
      have hbudget := hfront.2
      rw [List.map_cons, hstage] at hbudget
      refine hfront.advance ?_ rfl rfl (.inl rfl) hbudget.countActive
      rw [hstage]
      exact fun hidle => (by cases hidle)
    | countCompletion slot others =>
      have hstage : l.stage = .seen slot others := hpermits
      have hbudget := hfront.2
      rw [List.map_cons, hstage] at hbudget
      refine hfront.advance ?_ rfl rfl (.inl rfl) (hbudget.countCompletion hok)
      rw [hstage]
      exact fun hidle => (by cases hidle)
    | releaseUnderLock slot =>
      obtain ⟨again, hstage⟩ := hpermits
      have hbudget := hfront.2
      rw [List.map_cons, hstage] at hbudget
      refine hfront.advance ?_ ?_ ?_ (.inr rfl) ?_
      · rw [hstage]
        exact fun hidle => (by cases hidle)
      · simp only [flowMachine, Flow.perform]
        rw [Flow.releaseUnderLock_log]
      · simp only [flowMachine, Flow.perform]
        rw [Flow.releaseUnderLock_eq]
      · simp only [budgetDiscipline, hstage]
        exact hbudget.release
    | restartUnderLock slot =>
      have hstage : l.stage = .waiting slot := hpermits
      have hbudget := hfront.2
      rw [List.map_cons, hstage] at hbudget
      refine hfront.advance ?_ rfl rfl (.inr rfl) (hbudget.restart hcompute)
      rw [hstage]
      exact fun hidle => (by cases hidle)
    | _ => exact absurd hpermits id

theorem budgetInv_start (cfg : FlowConfig) (threads : ℕ) :
    BudgetInv cfg .initial (List.replicate threads .idle) := by
  have hidle : ∀ l ∈ List.replicate threads BudgetPhase.idle, l = .idle := fun l hl =>
    List.eq_of_mem_replicate hl
  have hstage : ∀ l ∈ (List.replicate threads BudgetPhase.idle).map BudgetPhase.stage,
      l = .idle := by
    intro l hl
    obtain ⟨p, hp, rfl⟩ := List.mem_map.mp hl
    rw [hidle p hp]
    rfl
  have hnone : ∀ {f : CompletionPhase → Option ℕ}, f .idle = none →
      ((List.replicate threads BudgetPhase.idle).map BudgetPhase.stage).filterMap f = [] :=
    fun hf => List.filterMap_eq_nil_iff.mpr fun l hl => by rw [hstage l hl, hf]
  refine ⟨⟨?_, fun _ => rfl, fun _ l hl => ?_, fun l hl hdisp => ?_, fun _ => ⟨rfl, fun _ => rfl,
    fun l hl => ?_⟩, fun _ => ⟨rfl, rfl⟩⟩, ⟨coherent_initial _, rfl, ?_, ?_, ?_, ?_, ?_, ?_, ?_, ?_⟩⟩
  · have hzero : (List.replicate threads BudgetPhase.idle).countP (·.prep = .assigning) = 0 :=
      List.countP_eq_zero.mpr fun l hl => by rw [hidle l hl]; decide
    omega
  · rw [hidle l hl]
    rfl
  · rw [hidle l hl] at hdisp
    cases hdisp
  · rw [hidle l hl]
    rfl
  · rw [hnone rfl]
    exact .nil
  · rw [hnone rfl]
    exact .nil
  · rw [hnone rfl]
    exact .nil
  · intro l hl slot hs
    rw [hstage l hl] at hs
    cases hs
  · intro l hl slot hs
    rw [hstage l hl] at hs
    cases hs
  · exact Nat.zero_le _
  · intro l hl slot n hs
    rw [hstage l hl] at hs
    cases hs
  · intro l hl slot n hs
    rw [hstage l hl] at hs
    cases hs

theorem budget_reached (hcompute : cfg.hasNetwork = false) {threads : ℕ} {w : World flowSteps Flow}
    (hrun : (flowMachine cfg).Reaches (CountsOnBudget cfg) (flowWorld threads) w) :
    ∃ ls, BudgetInv cfg w.shared ls ∧
      Machine.Follows (budgetDiscipline cfg) BudgetPhase.Rests w.threads ls :=
  (budget_maintains hcompute).reached hrun (budgetInv_start cfg threads)
    (Machine.follows_idle BudgetPhase.Rests (show BudgetPhase.Rests .idle from rfl) threads)

/-- The thread is about to count a completion that no restart will follow. -/
def Refuses (cfg : FlowConfig) (w : World flowSteps Flow) (i slot : ℕ) : Prop :=
  ∃ others, w.nextAct i = some (.countCompletion slot others) ∧
    Flow.canRestart cfg others w.shared = false

/-- When completions are counted on budget, a compute-only run starts no frame beyond `max_frames`
and refuses a restart only when it has started that many. -/
theorem frame_budget (cfg : FlowConfig) (hcompute : cfg.hasNetwork = false) (threads : ℕ)
    (w : World flowSteps Flow)
    (hrun : (flowMachine cfg).Reaches (CountsOnBudget cfg) (flowWorld threads) w) :
    w.shared.log.occupied.length ≤ cfg.maxFrames ∧
      ∀ i slot, Refuses cfg w i slot → OnBudget cfg w.shared slot →
        cfg.maxFrames ≤ w.shared.log.occupied.length := by
  obtain ⟨ls, hinv, hfollows⟩ := budget_reached hcompute hrun
  refine ⟨(Nat.le_add_right _ _).trans hinv.2.budget, ?_⟩
  rintro i slot ⟨others, hnext, hrefused⟩ hok
  obtain ⟨pre, l, post, rfl, hpermits⟩ := hfollows.permits hnext
  have hstage : l.stage = .seen slot others := hpermits
  have hfront := (hinv.perm List.perm_middle).2
  rw [List.map_cons, hstage] at hfront
  exact hfront.full_of_refused hok hrefused

end Runs

/-- Two slots and three frames, on a compute-only graph. -/
def threeFrames : FlowConfig where
  slots := 2
  slotPriorityEnabled := false
  hasNetwork := false
  maxFrames := 3
  one_le_slots := Nat.zero_lt_two
  slots_le := two_slots_le
  hasInitialNodes := true
  hasIndexFunction := false
  framePackets := 0
  frameTimeoutMs := 0
  slots_le_maxFrames := by decide

def preparation : List (Move FlowJob) := .begin 0 .prepare :: turns 0 8

/-- Slot 1 completes and restarts; then slot 0 is about to count its completion. -/
def oneAtATime : List (Move FlowJob) :=
  preparation ++ .begin 1 (.check 1) :: turns 1 8 ++ .begin 0 (.check 0) :: turns 0 4

theorem frame_budget_oneAtATime : ∃ w,
    (flowMachine threeFrames).Reaches (CountsOnBudget threeFrames) (flowWorld 2) w ∧
      Refuses threeFrames w 0 0 ∧ w.shared.log.occupied.length = 3 := by
  have hrun : ((flowMachine threeFrames).fireAllowed (CountsOnBudget threeFrames) oneAtATime
      (flowWorld 2)).any (fun w => w.nextAct 0 = some (.countCompletion 0 1) ∧
        Flow.canRestart threeFrames 1 w.shared = false ∧ OnBudget threeFrames w.shared 0) =
          true := by
    decide +kernel
  obtain ⟨w, hw, hstate⟩ := (Option.any_eq_true _ _).mp hrun
  obtain ⟨hnext, hrefused, hok⟩ := of_decide_eq_true hstate
  have hreach := Machine.reaches_of_fireAllowed hw
  have hrefuses : Refuses threeFrames w 0 0 := ⟨1, hnext, hrefused⟩
  obtain ⟨hle, hfull⟩ := frame_budget threeFrames rfl 2 w hreach
  exact ⟨w, hreach, hrefuses, Nat.le_antisymm hle (hfull 0 0 hrefuses hok)⟩

/-- Slot 0 counts the slots while slot 1 is released and not restarted. -/
def countedBetween : List (Move FlowJob) :=
  preparation ++ .begin 1 (.check 1) :: turns 1 6 ++ .begin 0 (.check 0) :: turns 0 4 ++ turns 1 2 ++
    turns 0 4

/-- Both slots are counted before either completion is. -/
def countedBoth : List (Move FlowJob) :=
  preparation ++ .begin 1 (.check 1) :: turns 1 4 ++ .begin 0 (.check 0) :: turns 0 4 ++ turns 1 1

/-- Four of three frames are started, and a restart is refused when two are. -/
theorem budget_missed :
    (¬ ∀ cfg : FlowConfig, cfg.hasNetwork = false → ∀ (threads : ℕ) (w : World flowSteps Flow),
      (flowMachine cfg).Reaches (fun _ _ _ => True) (flowWorld threads) w →
        w.shared.log.occupied.length ≤ cfg.maxFrames) ∧
    ¬ ∀ cfg : FlowConfig, cfg.hasNetwork = false → ∀ (threads : ℕ) (w : World flowSteps Flow),
      (flowMachine cfg).Reaches (fun _ _ _ => True) (flowWorld threads) w →
        ∀ i slot, Refuses cfg w i slot → cfg.maxFrames ≤ w.shared.log.occupied.length := by
  constructor
  · intro h
    have hrun : ((flowMachine threeFrames).fireAllowed (fun _ _ _ => True) countedBetween
        (flowWorld 2)).any (fun w => w.shared.log.occupied.length = 4) = true := by
      decide +kernel
    obtain ⟨w, hw, hstate⟩ := (Option.any_eq_true _ _).mp hrun
    have hfour : w.shared.log.occupied.length = 4 := of_decide_eq_true hstate
    have hle := h threeFrames rfl 2 w (Machine.reaches_of_fireAllowed hw)
    rw [hfour] at hle
    exact absurd hle (by decide)
  · intro h
    have hrun : ((flowMachine threeFrames).fireAllowed (fun _ _ _ => True) countedBoth
        (flowWorld 2)).any (fun w => w.nextAct 0 = some (.countCompletion 0 1) ∧
          Flow.canRestart threeFrames 1 w.shared = false ∧ w.shared.log.occupied.length = 2) =
            true := by
      decide +kernel
    obtain ⟨w, hw, hstate⟩ := (Option.any_eq_true _ _).mp hrun
    obtain ⟨hnext, hrefused, htwo⟩ := of_decide_eq_true hstate
    have hfull := h threeFrames rfl 2 w (Machine.reaches_of_fireAllowed hw) 0 0
      ⟨1, hnext, hrefused⟩
    rw [htwo] at hfull
    exact absurd hfull (by decide)

end Tomii.Slots
