import Tomii.Slots.BudgetRuns

/-! # The two tests that end a run

A resolution thread leaves its loop once `frame_complete_counter >= max_frames`; `run_impl` waits for
`frame_complete_counter == max_frames`. The counter is the number of frames counted, so the tests
agree as long as it never passes `max_frames`. -/
namespace Tomii.Slots
set_option autoImplicit false
set_option maxHeartbeats 250000

/-- The exit test of `resolution`. -/
def resolutionExits (cfg : FlowConfig) (σ : Flow) : Bool :=
  decide (cfg.maxFrames ≤ σ.frameCompleteCounter)

/-- `completed`, in the wait loop of `run_impl`. -/
def allFramesCompleted (cfg : FlowConfig) (σ : Flow) : Bool :=
  decide (σ.frameCompleteCounter = cfg.maxFrames)

/-! ## Runs that count within `max_frames` -/

/-- With a network every frame counted is below `max_frames` and not counted yet; without one the
completions are counted on budget. -/
def CountsWithin (cfg : FlowConfig) (σ : Flow) (choice : ℕ) (a : FlowAct) : Prop :=
  if cfg.hasNetwork = true then
    ∀ frame ∈ a.counts σ, frame < cfg.maxFrames ∧ frame ∉ σ.log.counted
  else CountsOnBudget cfg σ choice a

instance (cfg : FlowConfig) (σ : Flow) (choice : ℕ) (a : FlowAct) :
    Decidable (CountsWithin cfg σ choice a) := by
  unfold CountsWithin
  exact inferInstance

section Runs

variable {cfg : FlowConfig} {threads : ℕ} {w : World flowSteps Flow}

/-- The frames counted are different ones below `max_frames`, as many as the counter says. -/
structure CountedOnce (cfg : FlowConfig) (σ : Flow) : Prop where
  counter : σ.frameCompleteCounter = σ.log.counted.length
  once : σ.log.counted.Nodup
  within : ∀ frame ∈ σ.log.counted, frame < cfg.maxFrames

theorem CountedOnce.perform {σ : Flow} (h : CountedOnce cfg σ) {a : FlowAct}
    (hok : ∀ frame ∈ a.counts σ, frame < cfg.maxFrames ∧ frame ∉ σ.log.counted) :
    CountedOnce cfg (Flow.perform cfg a σ).2 := by
  obtain ⟨hcounter, hcounted⟩ := Flow.perform_counts cfg a σ
  cases hframe : a.counts σ with
  | none =>
    rw [hframe] at hcounter hcounted
    exact ⟨by rw [hcounter, hcounted]; exact h.counter, by rw [hcounted]; exact h.once,
      by rw [hcounted]; exact h.within⟩
  | some frame =>
    obtain ⟨hlt, hnew⟩ := hok frame hframe
    rw [hframe] at hcounter hcounted
    refine ⟨?_, ?_, ?_⟩
    · rw [hcounter, hcounted, h.counter]
      rfl
    · rw [hcounted]
      exact List.nodup_cons.mpr ⟨hnew, h.once⟩
    · rw [hcounted]
      intro g hg
      rcases List.mem_cons.mp hg with rfl | hg
      · exact hlt
      · exact h.within g hg

theorem CountedOnce.counter_le {σ : Flow} (h : CountedOnce cfg σ) :
    σ.frameCompleteCounter ≤ cfg.maxFrames := by
  have hsub : σ.log.counted ⊆ List.range cfg.maxFrames := fun g hg =>
    List.mem_range.mpr (h.within g hg)
  have hle := (List.subperm_of_subset h.once hsub).length_le
  rwa [List.length_range, ← h.counter] at hle

/-- A slot whose frame is counted and that is not released is still occupied. -/
theorem Budgeted.counter_le {σ : Flow} {stages : List CompletionPhase}
    (h : Budgeted cfg σ stages) : σ.frameCompleteCounter ≤ cfg.maxFrames := by
  have honce : σ.log.unreleased.Nodup :=
    h.unreleased.nodup_iff.mpr (h.owners.sublist (filterMap_sublist (fun _ _ hs =>
      (CompletionPhase.owner_of_unreleased hs).1) stages))
  have hsub : σ.log.unreleased ⊆ σ.table.runningFrames.map Prod.snd := by
    intro s hs
    obtain ⟨l, hl, hphase⟩ := List.mem_filterMap.mp (h.unreleased.mem_iff.mp hs)
    exact (h.held l hl s (CompletionPhase.owner_of_unreleased hphase).2).1
  have hle := (List.subperm_of_subset honce hsub).length_le
  rw [List.length_map] at hle
  have hstarted := h.started
  have hbudget := h.budget
  omega

theorem counter_le_maxFrames
    (hrun : (flowMachine cfg).Reaches (CountsWithin cfg) (flowWorld threads) w) :
    w.shared.frameCompleteCounter ≤ cfg.maxFrames := by
  cases hnetwork : cfg.hasNetwork with
  | true =>
    have hcounted : CountedOnce cfg w.shared :=
      hrun.shared ⟨rfl, .nil, fun _ h => absurd h List.not_mem_nil⟩ fun σ choice a hok h =>
        h.perform (by rwa [CountsWithin, if_pos hnetwork] at hok)
    exact hcounted.counter_le
  | false =>
    have honBudget : (flowMachine cfg).Reaches (CountsOnBudget cfg) (flowWorld threads) w :=
      hrun.mono fun σ choice a hok => by
        rwa [CountsWithin, if_neg (by simp [hnetwork])] at hok
    obtain ⟨ls, hinv, -⟩ := budget_reached hnetwork honBudget
    exact hinv.2.counter_le

/-- When a resolution thread can leave its loop, the wait of `run_impl` is over. -/
theorem completion_tests_agree (cfg : FlowConfig) (threads : ℕ) (w : World flowSteps Flow)
    (hrun : (flowMachine cfg).Reaches (CountsWithin cfg) (flowWorld threads) w)
    (hexit : resolutionExits cfg w.shared = true) : allFramesCompleted cfg w.shared = true := by
  have hge : cfg.maxFrames ≤ w.shared.frameCompleteCounter := of_decide_eq_true hexit
  exact decide_eq_true (Nat.le_antisymm (counter_le_maxFrames hrun) hge)

end Runs

/-- One slot, and one frame of one packet. -/
def onePacketFrame : FlowConfig where
  slots := 1
  slotPriorityEnabled := true
  hasNetwork := true
  maxFrames := 1
  one_le_slots := Nat.zero_lt_one
  slots_le := one_slot_le
  hasInitialNodes := false
  hasIndexFunction := false
  framePackets := 1
  frameTimeoutMs := 0
  slots_le_maxFrames := Nat.zero_lt_one

/-- The packet of the frame is admitted and the frame completes. -/
def admittedAndCompleted : List (Move FlowJob) :=
  .begin 1 (.poll false [⟨0, 0⟩]) :: turns 1 9 ++ .begin 0 (.check 0) :: turns 0 5

theorem completion_tests_agree_onePacketFrame : ∃ w,
    (flowMachine onePacketFrame).Reaches (CountsWithin onePacketFrame) (flowWorld 2) w ∧
      resolutionExits onePacketFrame w.shared = true ∧
        allFramesCompleted onePacketFrame w.shared = true := by
  have hrun : ((flowMachine onePacketFrame).fireAllowed (CountsWithin onePacketFrame)
      admittedAndCompleted (flowWorld 2)).any
        (fun w => resolutionExits onePacketFrame w.shared) = true := by
    decide +kernel
  obtain ⟨w, hw, hexit⟩ := (Option.any_eq_true _ _).mp hrun
  have hreach := Machine.reaches_of_fireAllowed hw
  exact ⟨w, hreach, hexit, completion_tests_agree onePacketFrame 2 w hreach hexit⟩

/-- Thread 1 admits the packet of frame 0, then two packets of frame 1 overflow the parked ones while
thread 0 completes frame 0. -/
def droppedAndCompleted : List (Move FlowJob) :=
  .begin 1 (.poll false [⟨0, 0⟩, ⟨1, 0⟩, ⟨1, 1⟩]) :: turns 1 9 ++ .begin 0 (.check 0) :: turns 1 10 ++
    turns 0 5

/-- The resolution threads leave, and the wait of `run_impl` goes on. -/
theorem completion_tests_differ : ¬ ∀ (cfg : FlowConfig) (threads : ℕ) (w : World flowSteps Flow),
    (flowMachine cfg).Reaches (fun _ _ _ => True) (flowWorld threads) w →
      resolutionExits cfg w.shared = true → allFramesCompleted cfg w.shared = true := by
  intro h
  have hrun : ((flowMachine onePacketFrame).fireAllowed (fun _ _ _ => True) droppedAndCompleted
      (flowWorld 2)).any (fun w => resolutionExits onePacketFrame w.shared &&
        !allFramesCompleted onePacketFrame w.shared) = true := by
    decide +kernel
  obtain ⟨w, hw, hstate⟩ := (Option.any_eq_true _ _).mp hrun
  rw [Bool.and_eq_true] at hstate
  have hends := h onePacketFrame 2 w (Machine.reaches_of_fireAllowed hw) hstate.1
  rw [hends] at hstate
  exact absurd hstate.2 (by decide)

end Tomii.Slots
