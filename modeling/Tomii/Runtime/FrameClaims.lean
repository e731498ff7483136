import Tomii.Runtime.FrameSafety

/-! # Each frame is claimed once

The thread that is about to reset a slot has claimed the frame in it. All instances of that frame
are settled then, and no other thread claims it. -/
namespace Tomii
set_option autoImplicit false
set_option maxHeartbeats 250000

variable {nodes : List Node} {c : Compiled} {opts : Options} {threads : UInt64}
  {w w' : World atomics Shared}

/-! ## Claims -/

namespace World

variable (w : World atomics Shared) (slot : ℕ)

/-- The thread has found the slot complete, and resets it next. -/
def ClaimedBy (thread : ℕ) : Prop := w.nextAct thread = some (.bumpSlotGeneration slot true)

/-- A frame is in the slot, outside of a reset, and some instance of it has been released. -/
def Runs : Prop :=
  (w.shared.slots slot).resetting = false ∧ ∃ x ∈ w.shared.ledger.released, x.slot = slot

variable (c : Compiled)

/-- Nothing is left of the frame in the slot. -/
structure Finished : Prop where
  settled : ∀ cond, ∀ x ∈ c.frameCells slot cond, x ∈ w.shared.ledger.retired ∧
    (x ∈ w.shared.ledger.executed ∨ x ∈ w.shared.ledger.discharged)
  queue : ∀ t ∈ w.shared.queue, t.slot ≠ slot
  batchQueue : ∀ t ∈ w.shared.batchQueue, t.slot ≠ slot
  brackets : (w.shared.slots slot).processingCount = 0
  resolved : ∀ thread a t, w.nextAct thread = some a → a.cause = some t → t.slot ≠ slot

end World

theorem Accounts.ran_of_retired {σ : Shared} {ls : List Phase} (h : Accounts c σ ls) {x : Cell}
    (hx : x ∈ σ.ledger.retired) : x ∈ σ.ledger.executed ∨ x ∈ σ.ledger.discharged := by
  have hmem : x ∈ (σ.ledger.executed : Multiset Cell) + σ.ledger.discharged := by
    rw [← h.run]
    exact Multiset.mem_add.mpr (.inr hx)
  simpa using hmem

/-- What a slot has come to when all loads of a claim were zero. -/
theorem Inv.finished {cfg : Config} {guarded clean : Prop} {ls : List Phase} {slot : ℕ}
    (h : Inv c cfg guarded clean w.shared ls)
    (hfol : Machine.Follows (resolutionDiscipline c cfg guarded) (· = .idle) w.threads ls)
    (hquiet : LookOk c w.shared ls slot .quiet) : w.Finished slot c := by
  obtain ⟨htasks, hconds, hnone⟩ := hquiet
  have hsettled := h.accounts.settled_of_allRetired htasks hconds
  have hidle := h.tickets.not_busy h.accounts hsettled hnone
  refine ⟨fun cond x hx => ?_, fun t ht hslot => ?_, fun t ht hslot => ?_,
    h.brackets.zero_of_none hnone, fun thread a t hnext hcause hslot => ?_⟩
  · obtain ⟨hslot, hnode, hcond, hidx⟩ := c.mem_frameCells.mp hx
    have hret : ⟨slot, x.node, x.idx⟩ ∈ w.shared.ledger.retired := by
      cases cond with
      | false => exact htasks x.node hnode hcond x.idx hidx
      | true => exact hconds x.node hnode hcond x.idx hidx
    rw [← hslot] at hret
    exact ⟨hret, h.accounts.ran_of_retired hret⟩
  · exact hidle (.inl ⟨t, ht, hslot⟩)
  · exact hidle (.inr (.inl ⟨t, ht, hslot⟩))
  · obtain ⟨l, hl, hpermits⟩ := hfol.phase hnext
    have hmem := List.mem_of_getElem? hl
    rcases (Phase.works_of_cause hpermits hcause).task hcause with hserved | ⟨p, hp, rfl⟩
    · exact hnone l hmem (hslot ▸ ((h.tickets.phases l hmem).served t hserved).1)
    · exact hidle (.inr (.inr ⟨l, hmem, .inr ⟨p, hp, hslot⟩⟩))

/-- A thread whose next action is the bump of a reset has looked at all counters. -/
theorem Phase.focus_of_reset_bump {cfg : Config} {guarded : Prop} {l : Phase} {slot : ℕ}
    (h : l.permits c cfg guarded (.bumpSlotGeneration slot true)) :
    l.focus = .claim slot .quiet := by
  unfold permits at h
  split at h
  · cases h
  · cases h
  · next look _ => cases look <;> cases h
  · next s look hf =>
    cases look with
    | quiet =>
      obtain ⟨rfl, -⟩ := Act.bumpSlotGeneration.inj h
      exact hf
    | _ => cases h
  · rcases h with h | ⟨counter, h⟩ <;> cases h
  all_goals cases h

/-- The counters are stored by a thread inside its reset. -/
theorem Phase.focus_of_store {cfg : Config} {guarded : Prop} {l : Phase} {a : Act} {slot : ℕ}
    (ha : a = .storePendingTasks slot ∨ a = .storePendingCondTasks slot)
    (h : l.permits c cfg guarded a) : ∃ stage, l.focus = .reset slot stage := by
  unfold permits at h
  split at h
  · rcases ha with rfl | rfl <;> exact absurd h id
  · rcases ha with rfl | rfl <;> cases h
  · next look _ => rcases ha with rfl | rfl <;> cases look <;> cases h
  · next look _ => rcases ha with rfl | rfl <;> cases look <;> cases h
  · rcases ha with rfl | rfl <;> rcases h with h | ⟨counter, h⟩ <;> cases h
  · next s hf =>
    rcases ha with rfl | rfl
    · obtain rfl := Act.storePendingTasks.inj h
      exact ⟨_, hf⟩
    · cases h
  · next s hf =>
    rcases ha with rfl | rfl
    · cases h
    · obtain rfl := Act.storePendingCondTasks.inj h
      exact ⟨_, hf⟩
  all_goals rcases ha with rfl | rfl <;> cases h

/-! ## One thread for each frame -/

theorem Claims.unique {clean : Prop} {σ : Shared} {ls : List Phase} (h : Claims c clean σ ls)
    {slot i j : ℕ} {l m : Phase} (hi : ls[i]? = some l) (hj : ls[j]? = some m)
    (hl : l.focus.marked = some slot) (hm : m.focus.marked = some slot) : i = j := by
  obtain ⟨hilt, rfl⟩ := List.getElem?_eq_some_iff.mp hi
  by_contra hne
  have hperm := List.getElem_cons_eraseIdx_perm hilt
  refine ((h.perm hperm.symm).alone hl).2 m ?_ hm
  exact List.mem_eraseIdx_iff_getElem?.mpr ⟨j, Ne.symm hne, hj⟩

namespace Shared

variable (choice : ℕ) (a : Act) (σ : Shared) (slot : ℕ)

/-- Only a bump begins a frame, and only a bump begins a reset. -/
theorem frame_perform (h : ∀ reset, a ≠ .bumpSlotGeneration slot reset) :
    ((σ.perform c choice a).2.slots slot).epoch = (σ.slots slot).epoch ∧
      ((σ.slots slot).resetting = false →
        ((σ.perform c choice a).2.slots slot).resetting = false) := by
  have hkeep : ∀ s (v : Slot), v.epoch = (σ.slots s).epoch → v.resetting = (σ.slots s).resetting →
      ((σ.setSlot s v).slots slot).epoch = (σ.slots slot).epoch ∧
        ((σ.slots slot).resetting = false → ((σ.setSlot s v).slots slot).resetting = false) :=
    fun s v hepoch hflag => ⟨σ.setSlot_keeps Slot.epoch hepoch slot, fun hfalse =>
      (σ.setSlot_keeps Slot.resetting hflag slot).trans hfalse⟩
  have hlower : ∀ s cond n, ((σ.slots s).lowerPending cond n).epoch = (σ.slots s).epoch ∧
      ((σ.slots s).lowerPending cond n).resetting = (σ.slots s).resetting := by
    intro s cond n
    cases cond <;> exact ⟨rfl, rfl⟩
  cases a with
  | enter s => exact hkeep s _ rfl rfl
  | leave s => exact hkeep s _ rfl rfl
  | retire t byWorker => exact hkeep _ _ (hlower _ _ _).1 (hlower _ _ _).2
  | discharge t task => exact hkeep _ _ (hlower _ _ _).1 (hlower _ _ _).2
  | fetchDec t gen node g count => exact hkeep _ _ rfl rfl
  | trySend t gen node idx => exact hkeep _ _ rfl rfl
  | arriveFanout t gen node ready => exact hkeep _ _ rfl rfl
  | spawnOne t gen node => exact hkeep _ _ rfl rfl
  | incrementDependency t gen task => exact hkeep _ _ rfl rfl
  | resetSent t gen task => exact hkeep _ _ rfl rfl
  | setNeedsCheck s b => exact hkeep _ _ rfl rfl
  | swapNeedsCheck s => exact hkeep _ _ rfl rfl
  | tryCompleteSlot s => exact hkeep _ _ rfl rfl
  | storePendingTasks s => exact hkeep _ _ rfl rfl
  | storePendingCondTasks s => exact hkeep _ _ rfl rfl
  | activate s => exact hkeep _ _ rfl rfl
  | release s => exact hkeep _ _ rfl rfl
  | unmarkSlotCompleted s =>
    refine ⟨σ.setSlot_keeps Slot.epoch (s := { σ.slots s with completed := false, resetting := false })
      rfl slot, fun hfalse => ?_⟩
    by_cases hs : slot = s
    · subst hs
      exact congrArg Slot.resetting (σ.slots_setSlot_self slot _)
    · exact (congrArg Slot.resetting (σ.slots_setSlot_of_ne hs _)).trans hfalse
  | bumpSlotGeneration s reset =>
    have hs : slot ≠ s := by
      rintro rfl
      exact h reset rfl
    have hslot := σ.slots_setSlot_of_ne hs ((σ.slots s).bump c.layout reset)
    exact ⟨congrArg Slot.epoch hslot, fun hfalse => (congrArg Slot.resetting hslot).trans hfalse⟩
  | _ => exact ⟨rfl, id⟩

theorem epoch_bump (reset : Bool) :
    ((σ.bumpSlotGeneration c slot reset).slots slot).epoch = (σ.slots slot).epoch + 1 :=
  congrArg Slot.epoch (σ.slots_setSlot_self slot _)

/-- No step lowers the epoch of a slot. -/
theorem epoch_le_perform : (σ.slots slot).epoch ≤ ((σ.perform c choice a).2.slots slot).epoch := by
  by_cases h : ∃ reset, a = .bumpSlotGeneration slot reset
  · obtain ⟨reset, rfl⟩ := h
    exact (Nat.le_succ _).trans_eq (σ.epoch_bump slot reset).symm
  · exact (frame_perform choice a σ slot fun reset ha => h ⟨reset, ha⟩).1.ge

/-- Released instances stay on record until the counters of their slot are stored. -/
theorem released_perform (hstore : a ≠ .storePendingTasks slot ∧ a ≠ .storePendingCondTasks slot)
    {x : Cell} (hx : x ∈ σ.ledger.released) (hslot : x.slot = slot) :
    x ∈ (σ.perform c choice a).2.ledger.released := by
  have hclear : ∀ s cond, s ≠ slot → x ∈ (σ.storePending c s cond).ledger.released := by
    intro s cond hne
    refine List.mem_filter.mpr ⟨hx, ?_⟩
    simp [hslot, Ne.symm hne]
  cases a with
  | storePendingTasks s => exact hclear s false fun hs => hstore.1 (hs ▸ rfl)
  | storePendingCondTasks s => exact hclear s true fun hs => hstore.2 (hs ▸ rfl)
  | fetchDec t gen node g count => exact List.mem_append_right _ hx
  | trySend t gen node idx =>
    simp only [perform, trySend]
    split
    · exact List.mem_append_right _ hx
    · exact hx
  | deliver ni => exact List.mem_append_right _ hx
  | enqueue cause task =>
    simp only [perform, enqueue]
    split
    · exact List.mem_append_right _ hx
    · exact hx
  | arriveFanout t gen node ready =>
    simp only [perform, arriveFanout, Ledger.arrive, setLedger]
    split <;> exact hx
  | _ => exact hx

end Shared

/-! ## Runs -/

section Runs

variable {ok : Shared → ℕ → Act → Prop} {slot thread : ℕ}

theorem epoch_le_of_fire {mv : Move Job} (hfire : (runtimeMachine c opts).fire w mv = some w')
    (slot : ℕ) : (w.shared.slots slot).epoch ≤ (w'.shared.slots slot).epoch := by
  rcases Machine.shared_fire hfire with hsame | ⟨i, choice, a, -, -, hstep⟩
  · rw [hsame]
  · rw [hstep]
    exact Shared.epoch_le_perform choice a _ slot

theorem epoch_le_of_reaches (hrun : (runtimeMachine c opts).Reaches ok w w') (slot : ℕ) :
    (w.shared.slots slot).epoch ≤ (w'.shared.slots slot).epoch := by
  induction hrun with
  | refl => exact le_refl _
  | turn mv _ _ hfire ih => exact ih.trans (epoch_le_of_fire hfire slot)

/-- A thread that has claimed a frame has still claimed it, or has ended it. -/
theorem ClaimedBy.persists (hclaim : w.ClaimedBy slot thread)
    (hrun : (runtimeMachine c opts).Reaches ok w w') : w'.ClaimedBy slot thread ∨
      (w.shared.slots slot).epoch < (w'.shared.slots slot).epoch := by
  induction hrun with
  | refl => exact .inl hclaim
  | @turn w1 w2 mv hrun _ hfire ih =>
    rcases ih with hclaim | hlt
    · rcases Machine.nextAct_fire hfire hclaim with hnext | ⟨choice, -, hstep⟩
      · exact .inl hnext
      · right
        rw [hstep]
        exact Nat.lt_of_le_of_lt (epoch_le_of_reaches hrun slot)
          (Nat.lt_succ_self _ |>.trans_eq (Shared.epoch_bump _ slot true).symm)
    · exact .inr (hlt.trans_le (epoch_le_of_fire hfire slot))

end Runs

section Orderly

variable {slot thread : ℕ}

/-- What an orderly step does to a frame that runs: the frame goes on, or its claim was the step. -/
theorem Runs.step (hrunnable : Runnable c)
    (hreach : (runtimeMachine c opts).Reaches (Orderly c False False) (World.initial c threads) w)
    {mv : Move Job} (hok : Machine.Allowed (Orderly c False False) w mv)
    (hfire : (runtimeMachine c opts).fire w mv = some w') (hruns : w.Runs slot) :
    w'.Runs slot ∧ (w'.shared.slots slot).epoch = (w.shared.slots slot).epoch ∨
      ∃ thread, w.ClaimedBy slot thread := by
  rcases Machine.shared_fire hfire with hsame | ⟨i, choice, a, rfl, hnext, hstep⟩
  · rw [World.Runs, hsame]
    exact .inl ⟨hruns, rfl⟩
  obtain ⟨hflag, x, hx, hslot⟩ := hruns
  obtain ⟨ls, hinv, hfol⟩ := runtime_reached hrunnable hreach
  obtain ⟨l, hl, hpermits⟩ := hfol.phase hnext
  have hclaims := hinv.claims.phases l (List.mem_of_getElem? hl)
  have hnot : ∀ stage, l.focus ≠ .reset slot stage := by
    intro stage hf
    rw [(hclaims.reset slot stage hf).flag] at hflag
    cases hflag
  by_cases hbump : ∃ reset, a = .bumpSlotGeneration slot reset
  · obtain ⟨reset, rfl⟩ := hbump
    cases reset with
    | true => exact .inr ⟨i, hnext⟩
    | false => exact absurd hslot ((hok _ hnext).1 x hx)
  · left
    obtain ⟨hepoch, hkeep⟩ := Shared.frame_perform (c := c) choice a w.shared slot
      fun reset ha => hbump ⟨reset, ha⟩
    rw [World.Runs, hstep]
    have hstore : a ≠ .storePendingTasks slot ∧ a ≠ .storePendingCondTasks slot := by
      refine ⟨fun ha => ?_, fun ha => ?_⟩
      · obtain ⟨stage, hf⟩ := Phase.focus_of_store (.inl ha) hpermits
        exact hnot stage hf
      · obtain ⟨stage, hf⟩ := Phase.focus_of_store (.inr ha) hpermits
        exact hnot stage hf
    exact ⟨⟨hkeep hflag, x, Shared.released_perform choice a w.shared slot hstore hx hslot, hslot⟩,
      hepoch⟩

/-- A frame that runs gives way to the next one only by a claim. -/
theorem claimed_before_next (hrunnable : Runnable c)
    (hreach : (runtimeMachine c opts).Reaches (Orderly c False False) (World.initial c threads) w)
    (hrun : (runtimeMachine c opts).Reaches (Orderly c False False) w w') (hruns : w.Runs slot) :
    w'.Runs slot ∧ (w'.shared.slots slot).epoch = (w.shared.slots slot).epoch ∨
      ∃ w1 thread, (runtimeMachine c opts).Reaches (Orderly c False False) w w1 ∧
        (runtimeMachine c opts).Reaches (Orderly c False False) w1 w' ∧
          w1.ClaimedBy slot thread ∧
            (w1.shared.slots slot).epoch = (w.shared.slots slot).epoch := by
  induction hrun with
  | refl => exact .inl ⟨hruns, rfl⟩
  | @turn w1 w2 mv hrun hok hfire ih =>
    rcases ih with ⟨hruns1, hepoch⟩ | ⟨w0, thread, hbefore, hafter, hclaim⟩
    · rcases Runs.step hrunnable (hreach.trans hrun) hok hfire hruns1 with
        ⟨hruns2, hsame⟩ | ⟨thread, hclaim⟩
      · exact .inl ⟨hruns2, hsame.trans hepoch⟩
      · exact .inr ⟨w1, thread, hrun, .turn mv .refl hok hfire, hclaim, hepoch⟩
    · exact .inr ⟨w0, thread, hbefore, .turn mv hafter hok hfire, hclaim⟩

end Orderly

/-- While sources enter once in a generation and no failed condition releases an instance again, a
frame is claimed only when nothing of it is left, by one thread, and it is claimed before the slot
goes on to the next frame. -/
theorem frames_claimed_once (hfits : Fits nodes c)
    (hreach : (runtimeMachine c opts).Reaches (Orderly c False False) (World.initial c threads) w)
    (slot : ℕ) :
    (∀ thread, w.ClaimedBy slot thread → w.Finished slot c) ∧
      ∀ w', (runtimeMachine c opts).Reaches (Orderly c False False) w w' →
        (∀ thread thread', w.ClaimedBy slot thread → w'.ClaimedBy slot thread' →
          (w'.shared.slots slot).epoch = (w.shared.slots slot).epoch → thread' = thread) ∧
        (w.Runs slot → (w.shared.slots slot).epoch < (w'.shared.slots slot).epoch →
          ∃ w1 thread, (runtimeMachine c opts).Reaches (Orderly c False False) w w1 ∧
            (runtimeMachine c opts).Reaches (Orderly c False False) w1 w' ∧
              w1.ClaimedBy slot thread ∧
                (w1.shared.slots slot).epoch = (w.shared.slots slot).epoch) := by
  refine ⟨fun thread hclaim => ?_, fun w' hrun => ⟨fun i j hi hj hepoch => ?_, fun hruns hlt => ?_⟩⟩
  · obtain ⟨ls, hinv, hfol⟩ := runtime_reached hfits.runnable hreach
    obtain ⟨l, hl, hpermits⟩ := hfol.phase hclaim
    have hclaims := hinv.claims.phases l (List.mem_of_getElem? hl)
    exact hinv.finished hfol (hclaims.look slot .quiet (Phase.focus_of_reset_bump hpermits))
  · have hi' : w'.ClaimedBy slot i := by
      rcases ClaimedBy.persists hi hrun with hi' | hlt
      · exact hi'
      · omega
    obtain ⟨ls, hinv, hfol⟩ := runtime_reached hfits.runnable (hreach.trans hrun)
    obtain ⟨l, hl, hpl⟩ := hfol.phase hi'
    obtain ⟨m, hm, hpm⟩ := hfol.phase hj
    exact hinv.claims.unique hm hl (congrArg Focus.marked (Phase.focus_of_reset_bump hpm))
      (congrArg Focus.marked (Phase.focus_of_reset_bump hpl))
  · rcases claimed_before_next hfits.runnable hreach hrun hruns with ⟨-, hsame⟩ | hclaimed
    · omega
    · exact hclaimed

/-- Both conditions of `passedBoth` hold, its two instances run, and the frame is claimed. -/
def claimedInTime : List (Move Job) :=
  passedBoth ++ (List.replicate 2 (.begin 1 .work :: stepsOf 1 10)).flatten ++
    .begin 0 (.check [0]) :: stepsOf 0 8

theorem frames_claimed_once_claimedInTime : ∃ w : World atomics Shared,
    (runtimeMachine pairedGraph twoWorkers).fireAllowed (Orderly pairedGraph False False)
        claimedInTime (World.initial pairedGraph 2) = some w ∧
      w.ClaimedBy 0 0 ∧ w.Finished 0 pairedGraph := by
  have hrun : ((runtimeMachine pairedGraph twoWorkers).fireAllowed (Orderly pairedGraph False False)
      claimedInTime (World.initial pairedGraph 2)).any
        (fun w => w.nextAct 0 = some (.bumpSlotGeneration 0 true)) = true := by
    decide +kernel
  obtain ⟨w, hw, hnext⟩ := (Option.any_eq_true _ _).mp hrun
  have hclaim : w.nextAct 0 = some (.bumpSlotGeneration 0 true) := of_decide_eq_true hnext
  exact ⟨w, hw, hclaim, (frames_claimed_once fits_pairedSources
    (Machine.reaches_of_fireAllowed hw) 0).1 0 hclaim⟩

theorem unfinished_frame_claimed :
    ¬ ∀ (nodes : List Node) (c : Compiled) (opts : Options) (threads : UInt64)
        (w : World atomics Shared) (slot thread : ℕ), Fits nodes c →
      0 < c.totalOf false + c.totalOf true →
      (runtimeMachine c opts).Reaches (fun σ _ a => SourcesOnce c σ a) (World.initial c threads) w →
        w.ClaimedBy slot thread → w.Finished slot c := by
  intro h
  have hrun : ((runtimeMachine pairedGraph twoWorkers).fireAllowed
      (fun σ _ a => SourcesOnce pairedGraph σ a) claimedEarly (World.initial pairedGraph 2)).any
        (fun w => w.nextAct 0 = some (.bumpSlotGeneration 0 true) ∧
          ∃ t ∈ w.shared.queue, t.slot = 0) = true := by
    decide +kernel
  obtain ⟨w, hw, hearly⟩ := (Option.any_eq_true _ _).mp hrun
  obtain ⟨hclaim, t, ht, hslot⟩ := of_decide_eq_true hearly
  have hfinished := h _ _ twoWorkers 2 w 0 0 fits_pairedSources (by decide +kernel)
    (Machine.reaches_of_fireAllowed hw) hclaim
  exact hfinished.queue t ht hslot

end Tomii
