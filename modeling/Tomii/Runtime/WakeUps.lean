import Tomii.Runtime.FrameClaims

/-! # A finished frame is noticed

Once all counters of a slot are at zero, somebody raises `needs_check`, or has taken it and goes on
to claim the frame. A claim that sets the completion bit of a frame still running can make
another thread give up. -/
namespace Tomii
set_option autoImplicit false
set_option maxHeartbeats 250000

variable {nodes : List Node} {c : Compiled} {opts : Options} {threads : UInt64} {cfg : Config}
  {guarded clean : Prop} {w w' : World atomics Shared} {slot thread : ℕ}

namespace World

variable (w : World atomics Shared) (slot : ℕ)

/-- All counters of the slot are at zero, and nobody has claimed its frame. -/
structure Unnoticed : Prop where
  zero : ∀ counter, (w.shared.slots slot).load counter = 0
  before : (w.shared.slots slot).resetting = false
  unclaimed : ∀ thread, ¬ w.ClaimedBy slot thread

/-- The flag is up, or goes up by the next step of a thread, or a thread that took it claims the frame
by its own steps. -/
def WakesUp (c : Compiled) (opts : Options) : Prop :=
  (w.shared.slots slot).needsCheck = true ∨
    (∃ thread, w.nextAct thread = some (.setNeedsCheck slot true)) ∨
      ∃ thread w', (runtimeMachine c opts).RunsAlone thread w w' ∧ w'.ClaimedBy slot thread

end World

/-! ## A claim that goes on alone -/

/-- The thread follows the discipline from a phase with this focus. -/
def StandsAt (c : Compiled) (cfg : Config) (guarded : Prop) (w : World atomics Shared) (thread : ℕ)
    (focus : Focus) : Prop :=
  ∃ p l, w.threads[thread]? = some p ∧ l.focus = focus ∧
    p.Obeys (resolutionDiscipline c cfg guarded) (fun _ l' => l' = .idle) l

theorem standsAt_of_follows {ls : List Phase} {l : Phase}
    (hfol : Machine.Follows (resolutionDiscipline c cfg guarded) (· = .idle) w.threads ls)
    (hl : l ∈ ls) : ∃ thread, StandsAt c cfg guarded w thread l.focus := by
  obtain ⟨i, hi, rfl⟩ := List.getElem_of_mem hl
  have hlen : i < w.threads.length := hfol.length_eq ▸ hi
  exact ⟨i, w.threads[i], ls[i], List.getElem?_eq_getElem hlen, rfl, hfol.get hlen hi⟩

namespace StandsAt

variable {focus : Focus} (h : StandsAt c opts.config guarded w thread focus)

include h

/-- With its next action settled, the thread has a turn with that action. -/
theorem step {a : Act} (hfree : focus ≠ .free)
    (honly : ∀ (l : Phase) (b : Act), l.focus = focus → l.permits c opts.config guarded b → b = a)
    (hknows : ∀ l r, Phase.knows c guarded l a r) : w.nextAct thread = some a ∧
      ∃ (w' : World atomics Shared) (l : Phase),
        (runtimeMachine c opts).fire w (.step thread 0) = some w' ∧
        w'.shared = (w.shared.perform c 0 a).2 ∧ l.focus = focus ∧
          StandsAt c opts.config guarded w' thread
            (l.next c opts.config a (w.shared.perform c 0 a).1).focus := by
  obtain ⟨p, l, hp, hl, hobeys⟩ := h
  have hrest : l ≠ .idle := by
    rintro rfl
    exact hfree hl.symm
  have hfails : l.focus ≠ .free := hl ▸ hfree
  obtain ⟨hnext, w', p', hfire, hshared, hp', hobeys'⟩ :=
    Machine.step_alone (M := runtimeMachine c opts) 0 hp hobeys hrest hfails
      (fun b hb => honly l b hl hb) (hknows l _)
  exact ⟨hnext, w', l, hfire, hshared, hl, p', _, hp', rfl, hobeys'⟩

end StandsAt

/-- A thread that reads zeros goes on to the next load. -/
theorem StandsAt.load {f : Look → Focus} (hf : f = .check slot ∨ f = .claim slot) {look : Look}
    {counter : Counter} (h : StandsAt c opts.config guarded w thread (f look))
    (hnext : look.counter = some counter) (hzero : (w.shared.slots slot).load counter = 0) :
    ∃ w', (runtimeMachine c opts).fire w (.step thread 0) = some w' ∧ w'.shared = w.shared ∧
      StandsAt c opts.config guarded w' thread (f look.after) := by
  have hfree : f look ≠ .free := by
    rcases hf with rfl | rfl <;> exact fun hfree => (nomatch hfree)
  have honly : ∀ (l : Phase) (b : Act), l.focus = f look →
      l.permits c opts.config guarded b → b = .load counter slot := by
    intro l b hl hb
    rcases hf with rfl | rfl
    all_goals
      simp only [Phase.permits, hl, hnext] at hb
      exact hb
  obtain ⟨-, w', l, hfire, hshared, hl, hstands⟩ := h.step hfree honly fun _ _ => trivial
  refine ⟨w', hfire, hshared, ?_⟩
  have hafter : (l.next c opts.config (.load counter slot)
      ((w.shared.slots slot).load counter)).focus = f look.after := by
    simp only [Phase.next, hzero, decide_true, hl]
    rcases hf with rfl | rfl <;> rfl
  rwa [← hafter]

/-- All loads that are left read zeros. -/
theorem StandsAt.loads {f : Look → Focus} (hf : f = .check slot ∨ f = .claim slot) {look : Look}
    (h : StandsAt c opts.config guarded w thread (f look))
    (hzero : ∀ counter, (w.shared.slots slot).load counter = 0) :
    ∃ w', (runtimeMachine c opts).RunsAlone thread w w' ∧ w'.shared = w.shared ∧
      StandsAt c opts.config guarded w' thread (f .quiet) := by
  have hone : ∀ {look : Look} {counter : Counter} {w0 : World atomics Shared},
      look.counter = some counter → w0.shared = w.shared →
      StandsAt c opts.config guarded w0 thread (f look) →
        ∃ w1, (runtimeMachine c opts).RunsAlone thread w0 w1 ∧ w1.shared = w.shared ∧
          StandsAt c opts.config guarded w1 thread (f look.after) := by
    intro look counter w0 hnext hw0 h0
    obtain ⟨w1, hfire, hshared, h1⟩ := h0.load hf hnext (by rw [hw0]; exact hzero counter)
    exact ⟨w1, .step 0 hfire (.refl w1), hshared.trans hw0, h1⟩
  cases look with
  | quiet => exact ⟨w, .refl w, rfl, h⟩
  | drained => exact hone rfl rfl h
  | empty =>
    obtain ⟨w1, hrun1, hw1, h1⟩ := hone rfl rfl h
    obtain ⟨w2, hrun2, hw2, h2⟩ := hone rfl hw1 h1
    exact ⟨w2, hrun1.trans hrun2, hw2, h2⟩
  | fresh =>
    obtain ⟨w1, hrun1, hw1, h1⟩ := hone rfl rfl h
    obtain ⟨w2, hrun2, hw2, h2⟩ := hone rfl hw1 h1
    obtain ⟨w3, hrun3, hw3, h3⟩ := hone rfl hw2 h2
    exact ⟨w3, hrun1.trans (hrun2.trans hrun3), hw3, h3⟩

theorem StandsAt.claimedBy (h : StandsAt c opts.config guarded w thread (.claim slot .quiet)) :
    w.ClaimedBy slot thread := by
  refine (h.step (a := .bumpSlotGeneration slot true) (fun hfree => (nomatch hfree)) ?_
    fun _ _ => trivial).1
  intro l b hl hb
  simp only [Phase.permits, hl] at hb
  exact hb

theorem StandsAt.raises (h : StandsAt c opts.config guarded w thread (.due slot)) :
    w.nextAct thread = some (.setNeedsCheck slot true) := by
  refine (h.step (a := .setNeedsCheck slot true) (fun hfree => (nomatch hfree)) ?_
    fun _ _ => trivial).1
  intro l b hl hb
  simp only [Phase.permits, hl] at hb
  exact hb

/-- A thread that has marked the slot claims it. -/
theorem StandsAt.claims {look : Look} (h : StandsAt c opts.config guarded w thread (.claim slot look))
    (hzero : ∀ counter, (w.shared.slots slot).load counter = 0) :
    ∃ w', (runtimeMachine c opts).RunsAlone thread w w' ∧ w'.ClaimedBy slot thread := by
  obtain ⟨w', hrun, -, h'⟩ := h.loads (.inr rfl) hzero
  exact ⟨w', hrun, h'.claimedBy⟩

/-- A thread that has not marked the slot yet wins the bit if it is free. -/
theorem StandsAt.marks {look : Look} (h : StandsAt c opts.config guarded w thread (.check slot look))
    (hzero : ∀ counter, (w.shared.slots slot).load counter = 0)
    (hbit : (w.shared.slots slot).completed = false) :
    ∃ w', (runtimeMachine c opts).RunsAlone thread w w' ∧ w'.ClaimedBy slot thread := by
  obtain ⟨w1, hrun1, hw1, h1⟩ := h.loads (.inl rfl) hzero
  obtain ⟨-, w2, l, hfire, hw2, hl, h2⟩ :=
    h1.step (a := .tryCompleteSlot slot) (fun hfree => (nomatch hfree))
      (fun l b hl hb => by
        simp only [Phase.permits, hl] at hb
        exact hb)
      fun _ _ => trivial
  have hwon : (l.next c opts.config (.tryCompleteSlot slot)
      (w1.shared.perform c 0 (.tryCompleteSlot slot)).1).focus = .claim slot .fresh := by
    simp only [Phase.next, Shared.perform, hw1, hbit]
    rfl
  rw [hwon] at h2
  obtain ⟨w3, hrun3, hclaim⟩ := h2.claims fun counter => by
    have hload : (w2.shared.slots slot).load counter = (w1.shared.slots slot).load counter := by
      rw [hw2]
      exact w1.shared.setSlot_keeps (Slot.load · counter) (by cases counter <;> rfl) slot
    rw [hload, hw1]
    exact hzero counter
  exact ⟨w3, hrun1.trans (.step 0 hfire hrun3), hclaim⟩

/-! ## Wake-ups -/

/-- A marked slot that is not being reset was marked by a thread on its way to claim it. -/
theorem Claims.marker {σ : Shared} {ls : List Phase} (h : Claims c True σ ls)
    (hbit : (σ.slots slot).completed = true) (hflag : (σ.slots slot).resetting = false) :
    ∃ l ∈ ls, ∃ look, l.focus = .claim slot look := by
  have hmarks := h.bit slot
  rw [hbit, if_pos rfl] at hmarks
  have hsome : ∃ l ∈ ls, l.focus.marked = some slot := by
    by_contra hnone
    have hzero := Claims.marks_zero_iff.mpr fun l hl hm => hnone ⟨l, hl, hm⟩
    omega
  obtain ⟨l, hl, hm⟩ := hsome
  have hclaims := h.phases l hl
  refine ⟨l, hl, ?_⟩
  cases hf : l.focus with
  | claim s look =>
    rw [hf] at hm
    obtain rfl := Option.some.inj hm
    exact ⟨look, rfl⟩
  | stale s => exact absurd hf (hclaims.fresh trivial s)
  | reset s stage =>
    rw [hf] at hm
    obtain rfl := Option.some.inj hm
    rw [(hclaims.reset s stage hf).flag] at hflag
    cases hflag
  | _ =>
    rw [hf] at hm
    cases hm

/-- While slots are marked complete only with their counters at zero, a finished frame is noticed. -/
theorem finished_frame_wakes (hfits : Fits nodes c) (htotal : 0 < c.totalOf false + c.totalOf true)
    (hreach : (runtimeMachine c opts).Reaches (Orderly c False True) (World.initial c threads) w)
    (hfinished : w.Unnoticed slot) : w.WakesUp slot c opts := by
  obtain ⟨ls, hinv, hfol⟩ := runtime_reached hfits.runnable hreach
  have hretired : ∀ cond, AllRetired c w.shared slot cond := fun cond =>
    (hinv.counters.zero_iff hinv.accounts hfits.totals slot cond).mp (hfinished.zero _)
  have hstands : ∀ {m : Phase} {focus : Focus}, m ∈ ls → m.focus = focus →
      ∃ thread, StandsAt c opts.config False w thread focus := by
    rintro m focus hm rfl
    exact standsAt_of_follows hfol hm
  have hclaims : ∀ {m : Phase} {look : Look}, m ∈ ls → m.focus = .claim slot look →
      w.WakesUp slot c opts := by
    intro m look hm hf
    obtain ⟨thread, h⟩ := hstands hm hf
    obtain ⟨w', hrun, hclaim⟩ := h.claims hfinished.zero
    exact .inr (.inr ⟨thread, w', hrun, hclaim⟩)
  have hran : ∃ x ∈ w.shared.ledger.retired, x.slot = slot := by
    have hcell : ∃ cond, 0 < (c.frameCells slot cond).length := by
      by_contra hnone
      have htasks : ¬ 0 < c.totalOf false := fun h => hnone ⟨false, by simpa using h⟩
      have hconds : ¬ 0 < c.totalOf true := fun h => hnone ⟨true, by simpa using h⟩
      omega
    obtain ⟨cond, hpos⟩ := hcell
    obtain ⟨x, hx⟩ := List.exists_mem_of_length_pos hpos
    obtain ⟨hslot, hnode, hcond, hidx⟩ := c.mem_frameCells.mp hx
    exact ⟨_, hretired cond x.node hnode hcond x.idx hidx, rfl⟩
  have hunclaimed : Unclaimed c w.shared ls slot := by
    refine ⟨hretired false, hretired true, ?_, hran, hfinished.before, fun m hm hf => ?_⟩
    · exact hinv.brackets.none_of_zero hinv.tickets (hfinished.zero .processingCount)
    · obtain ⟨thread, h⟩ := hstands hm hf
      exact hfinished.unclaimed thread h.claimedBy
  rcases hinv.awake trivial slot hunclaimed with hflag | ⟨m, hm, hf | ⟨look, hf⟩ | ⟨look, hf⟩⟩
  · exact .inl hflag
  · obtain ⟨thread, h⟩ := hstands hm hf
    exact .inr (.inl ⟨thread, h.raises⟩)
  · cases hbit : (w.shared.slots slot).completed with
    | false =>
      obtain ⟨thread, h⟩ := hstands hm hf
      obtain ⟨w', hrun, hclaim⟩ := h.marks hfinished.zero hbit
      exact .inr (.inr ⟨thread, w', hrun, hclaim⟩)
    | true =>
      obtain ⟨l, hl, look, hl'⟩ := hinv.claims.marker hbit hfinished.before
      exact hclaims hl hl'
  · exact hclaims hm hf

/-! ## A frame that nobody notices -/

/-- One source of two instances. -/
def oneSource : List Node := [⟨false, 0, [], 2, none, false⟩]

def oneSourceGraph : Compiled := .ofNodes oneSource

theorem fits_oneSource : Fits oneSource oneSourceGraph where
  built := builtFrom_ofNodes (by decide) (by decide)
  network := by decide
  fanout := by decide +kernel
  totals := by decide +kernel

/-- A worker runs both instances; its last store of the flag is left out. -/
def bothRun : List (Move Job) :=
  .begin 0 (.restart 0) :: stepsOf 0 1 ++ .begin 0 (.spawnInitial [0]) :: stepsOf 0 4 ++
    .begin 1 .work :: stepsOf 1 10 ++ .begin 1 .work :: stepsOf 1 9

/-- Thread 2 reads zeros and waits before it marks the slot. Thread 0 claims and resets the frame.
The next frame is still running when thread 2 marks the slot; it has finished when thread 0 gives up
because of that mark, and thread 2 takes the mark back. -/
def markedTooLate : List (Move Job) :=
  bothRun ++ .begin 2 (.check [0]) :: stepsOf 2 4 ++ stepsOf 1 1 ++
    .begin 0 (.check [0]) :: stepsOf 0 14 ++
      .begin 0 (.restart 0) :: stepsOf 0 1 ++ .begin 0 (.spawnInitial [0]) :: stepsOf 0 4 ++
        .begin 1 .work :: stepsOf 1 10 ++ stepsOf 2 4 ++ .begin 1 .work :: stepsOf 1 10 ++
          .begin 0 (.check [0]) :: stepsOf 0 5 ++ stepsOf 2 1

theorem World.nextAct_ne (w : World atomics Shared) {a : Act}
    (h : (w.threads.all fun p => p.nextAct ≠ some a) = true) (thread : ℕ) :
    w.nextAct thread ≠ some a := by
  intro hnext
  obtain ⟨p, hp, hpa⟩ := Option.bind_eq_some_iff.mp hnext
  have hne := List.all_eq_true.mp h p (List.mem_of_getElem? hp)
  exact of_decide_eq_true hne hpa

/-- A world where every thread is idle stays as it is. -/
theorem alone_of_idle (hidle : ∀ thread, w.nextAct thread = none)
    (hrun : (runtimeMachine c opts).RunsAlone thread w w') : w' = w := by
  cases hrun with
  | refl => rfl
  | step choice hfire _ =>
    simp only [Machine.fire] at hfire
    split at hfire
    · next a next hp =>
      have hnext := hidle thread
      simp [World.nextAct, hp, Prog.nextAct] at hnext
    · cases hfire

/-- The flag is taken while the last worker has still to raise it. -/
theorem finished_frame_wakes_bothRun : ∃ w : World atomics Shared,
    (runtimeMachine oneSourceGraph twoWorkers).fireAllowed (Orderly oneSourceGraph False True)
        (bothRun ++ .begin 2 (.check [0]) :: stepsOf 2 4) (World.initial oneSourceGraph 3) = some w ∧
      w.Unnoticed 0 ∧ w.WakesUp 0 oneSourceGraph twoWorkers := by
  have hrun : ((runtimeMachine oneSourceGraph twoWorkers).fireAllowed
      (Orderly oneSourceGraph False True) (bothRun ++ .begin 2 (.check [0]) :: stepsOf 2 4)
        (World.initial oneSourceGraph 3)).any (fun w =>
          ((w.shared.slots 0).pendingTasks = 0 ∧ (w.shared.slots 0).pendingCondTasks = 0 ∧
            (w.shared.slots 0).processingCount = 0 ∧ (w.shared.slots 0).resetting = false) ∧
              (w.threads.all fun p => p.nextAct ≠ some (.bumpSlotGeneration 0 true)) = true) =
                true := by
    decide +kernel
  obtain ⟨w, hw, hstate⟩ := (Option.any_eq_true _ _).mp hrun
  obtain ⟨⟨htasks, hconds, hprocessing, hbefore⟩, hnone⟩ := of_decide_eq_true hstate
  have hfinished : w.Unnoticed 0 := by
    refine ⟨fun counter => ?_, hbefore, w.nextAct_ne hnone⟩
    cases counter with
    | pendingTasks => exact htasks
    | pendingCondTasks => exact hconds
    | processingCount => exact hprocessing
  exact ⟨w, hw, hfinished, finished_frame_wakes fits_oneSource (by decide +kernel)
    (Machine.reaches_of_fireAllowed hw) hfinished⟩

theorem finished_frame_unnoticed :
    ¬ ∀ (nodes : List Node) (c : Compiled) (opts : Options) (threads : UInt64)
        (w : World atomics Shared) (slot : ℕ), Fits nodes c →
      0 < c.totalOf false + c.totalOf true →
      (runtimeMachine c opts).Reaches (fun σ _ a => SourcesOnce c σ a) (World.initial c threads) w →
        w.Unnoticed slot → w.WakesUp slot c opts := by
  intro h
  have hrun : ((runtimeMachine oneSourceGraph twoWorkers).fireAllowed
      (fun σ _ a => SourcesOnce oneSourceGraph σ a) markedTooLate
        (World.initial oneSourceGraph 3)).any (fun w =>
          ((w.shared.slots 0).pendingTasks = 0 ∧ (w.shared.slots 0).pendingCondTasks = 0 ∧
            (w.shared.slots 0).processingCount = 0 ∧ (w.shared.slots 0).resetting = false) ∧
              (w.shared.slots 0).needsCheck = false ∧
                (w.threads.all fun p => p.nextAct.isNone) = true) = true := by
    decide +kernel
  obtain ⟨w, hw, hstate⟩ := (Option.any_eq_true _ _).mp hrun
  obtain ⟨⟨htasks, hconds, hprocessing, hbefore⟩, hflag, hnone⟩ := of_decide_eq_true hstate
  have hidle : ∀ thread, w.nextAct thread = none := by
    intro thread
    cases hp : w.threads[thread]? with
    | none => simp [World.nextAct, hp]
    | some p =>
      have hdone := List.all_eq_true.mp hnone p (List.mem_of_getElem? hp)
      simpa [World.nextAct, hp] using hdone
  have hfinished : w.Unnoticed 0 := by
    refine ⟨fun counter => ?_, hbefore, fun thread hclaim => ?_⟩
    · cases counter with
      | pendingTasks => exact htasks
      | pendingCondTasks => exact hconds
      | processingCount => exact hprocessing
    · exact absurd ((hidle thread).symm.trans hclaim) (by simp)
  rcases h _ _ twoWorkers 3 w 0 fits_oneSource (by decide +kernel)
    (Machine.reaches_of_fireAllowed hw) hfinished with hset | ⟨i, hi⟩ | ⟨i, w', halone, hclaim⟩
  · rw [hflag] at hset
    cases hset
  · exact absurd ((hidle i).symm.trans hi) (by simp)
  · obtain rfl := alone_of_idle hidle halone
    exact absurd ((hidle i).symm.trans hclaim) (by simp)

end Tomii
