import Tomii.Timing.TimedPrograms
import Tomii.Runtime.FrameSafety

/-! # Errands of timed threads

Besides its phase in resolution a thread may have a frame to finish, or a slot that it evicts. The
programs with telemetry keep to the discipline of resolution, with the errands added to it. -/
namespace Tomii.Timing
set_option autoImplicit false
set_option maxHeartbeats 250000

/-! ## Orderly steps -/

namespace Timed

variable (c : Compiled) (cfg : TimedOptions) (s : Timed)

/-- The frames that had the slot before have left it, with an end or evicted. -/
def Ready (slot : ℕ) : Prop := ∀ f < s.frameOn slot, Over s.log slot f

instance (slot : ℕ) : Decidable (s.Ready slot) := inferInstanceAs (Decidable (∀ f < _, _))

/-- A start of the slot was sent after its last end. -/
def Started (slot : ℕ) : Prop :=
  ((TimeBuffer.serve (requests s.log) (.new cfg.slots cfg.baseTime)).any
    fun tb => (tb.slotStartTimes slot).isSome) = true

instance (slot : ℕ) : Decidable (s.Started cfg slot) := inferInstanceAs (Decidable (_ = true))

/-- Initial tasks and packets enter a slot only after the end of the frame before. -/
def SourcesInTime : Act → Prop
  | .enqueue none task => task.slot < cfg.slots ∧ s.Ready task.slot
  | .deliver ni => ni.slot < cfg.slots ∧ s.Ready ni.slot
  | _ => True

/-- An eviction takes a frame that has no timing and of which nothing is under way; what waits for
more packets at a fanout-bulk counter may. Meanwhile nobody marks the slot complete. -/
def EvictsUntimed : Act → Prop
  | .bumpSlotGeneration slot true => s.evicting slot = true →
      s.Ready slot ∧ s.frameOn slot ∉ timed s.log slot ∧ (s.shared.slots slot).processingCount = 0 ∧
        ∀ x ∈ s.shared.ledger.released, x.slot = slot →
          x ∈ s.shared.ledger.retired ∨ x ∈ s.shared.ledger.arrived
  | .tryCompleteSlot slot => s.evicting slot = true → (s.shared.slots slot).completed = true
  | _ => True

/-- A frame is started before it is finished, and an eviction begins while the slot is not marked. -/
def NotesInTime : TimingAct → Prop
  | .startSlotProcessing slot => slot < cfg.slots
  | .finishSlotProcessing slot _ => s.Started cfg slot
  | .swapPacketComplete slot true => s.packetComplete slot = false →
      (s.shared.slots slot).completed = false ∧ s.evicting slot = false
  | _ => True

instance : (a : Act) → Decidable (s.SourcesInTime cfg a) := by
  intro a
  induction a using Act.casesOn with
  | enqueue cause task =>
    induction cause using Option.casesOn with
    | none => exact inferInstanceAs (Decidable (_ ∧ _))
    | some t => exact .isTrue trivial
  | deliver ni => exact inferInstanceAs (Decidable (_ ∧ _))
  | _ => exact .isTrue trivial

instance : (a : Act) → Decidable (s.EvictsUntimed a) := by
  intro a
  induction a using Act.casesOn with
  | bumpSlotGeneration slot reset =>
    induction reset using Bool.casesOn with
    | false => exact .isTrue trivial
    | true => exact inferInstanceAs (Decidable (_ → _ ∧ _ ∧ _ ∧ ∀ x ∈ _, _ → _))
  | tryCompleteSlot slot => exact inferInstanceAs (Decidable (_ → _))
  | _ => exact .isTrue trivial

instance : (b : TimingAct) → Decidable (s.NotesInTime cfg b) := by
  intro b
  cases b with
  | startSlotProcessing slot => exact inferInstanceAs (Decidable (_ < _))
  | finishSlotProcessing slot frame => exact inferInstanceAs (Decidable (s.Started cfg slot))
  | swapPacketComplete slot evict =>
    cases evict with
    | false => exact .isTrue trivial
    | true => exact inferInstanceAs (Decidable (_ → _ ∧ _))
  | _ => exact .isTrue trivial

end Timed

def TimedOrderly (c : Compiled) (cfg : TimedOptions) (s : Timed) (choice : ℕ) :
    timedAtomics.Act → Prop
  | .inl a => Orderly c False False s.shared choice a ∧ s.SourcesInTime cfg a ∧ s.EvictsUntimed a
  | .inr b => s.NotesInTime cfg b

instance (c : Compiled) (cfg : TimedOptions) (s : Timed) (choice : ℕ) :
    (a : timedAtomics.Act) → Decidable (TimedOrderly c cfg s choice a)
  | .inl a => inferInstanceAs (Decidable (Orderly c False False s.shared choice a ∧ _ ∧ _))
  | .inr b => inferInstanceAs (Decidable (s.NotesInTime cfg b))

/-! ## Errands -/

inductive Errand where
  | free
  /-- A frame whose completion the thread has claimed. -/
  | closing (slot frame : ℕ)
  /-- A frame that is reset, or about to be, and whose end is still to be sent. -/
  | finish (slot frame : ℕ)
  | evict (slot : ℕ)
deriving DecidableEq

abbrev TimedPhase : Type := Phase × Errand

namespace Errand

def after (e : Errand) : Act → Errand
  | .bumpSlotGeneration _ true =>
    match e with
    | .closing slot frame => .finish slot frame
    | e => e
  | .unmarkSlotCompleted _ =>
    match e with
    | .evict _ => .free
    | e => e
  | _ => e

theorem after_free (a : Act) : Errand.free.after a = .free := by
  cases a with
  | bumpSlotGeneration slot reset => cases reset <;> rfl
  | _ => rfl

end Errand

namespace TimedPhase

variable (c : Compiled) (cfg : TimedOptions) (l : TimedPhase)

def permits : timedAtomics.Act → Prop
  | .inl a =>
    match l.2 with
    | .free => l.1.permits c cfg.options.config False a
    | .closing slot _ => a = .bumpSlotGeneration slot true
    | .finish slot _ => (∃ stage, l.1.focus = .reset slot stage) ∧
        l.1.permits c cfg.options.config False a
    | .evict slot => l.1.focus = .claim slot .fresh ∧ a = .bumpSlotGeneration slot true ∨
        (∃ stage, l.1.focus = .reset slot stage) ∧ l.1.permits c cfg.options.config False a
  | .inr (.recordTiming t _) => l.2 = .free ∧ ∃ k, (t, k) ∈ l.1.hand
  | .inr (.finishSlotProcessing slot frame) => l = (.idle, .finish slot frame)
  | .inr (.frameId slot) => l.2 = .free ∧ l.1.focus = .claim slot .quiet
  | .inr (.swapPacketComplete _ evict) => evict = true → l = (.idle, .free)
  | .inr _ => True

def next : (a : timedAtomics.Act) → timedAtomics.Reply a → TimedPhase
  | .inl a, r => (l.1.next c cfg.options.config a r, l.2.after a)
  | .inr (.frameId slot), frame => (l.1, .closing slot frame)
  | .inr (.finishSlotProcessing _ _), _ => (l.1, .free)
  | .inr (.swapPacketComplete slot evict), already =>
    if evict && !already then ({ l.1 with focus := .claim slot .fresh }, .evict slot) else l
  | .inr _, _ => l

def knows : (a : timedAtomics.Act) → timedAtomics.Reply a → Prop
  | .inl a, r => l.1.knows c False a r
  | .inr _, _ => True

end TimedPhase

def timedDiscipline (c : Compiled) (cfg : TimedOptions) : Discipline timedAtomics TimedPhase where
  fails := fun l => l.1.focus = .free
  permits := TimedPhase.permits c cfg
  knows := TimedPhase.knows c
  next := TimedPhase.next c cfg

/-! ## Programs -/

section Programs

variable {c : Compiled} {cfg : TimedOptions} {α β : Type} {p : Phase}

/-- Code without telemetry, by a thread without an errand. -/
theorem obeys_left {q : Thread α} {post : α → Phase → Prop}
    (h : q.Obeys (resolutionDiscipline c cfg.options.config False) post p) :
    q.left.Obeys (timedDiscipline c cfg) (fun a l => ∃ p', l = (p', Errand.free) ∧ post a p')
      (p, .free) := by
  have hnext : ∀ (p' : Phase) (a : Act) (r : a.Reply),
      (timedDiscipline c cfg).next (p', Errand.free) (.inl a) r =
        (p'.next c cfg.options.config a r, Errand.free) := fun p' a r =>
    congrArg (Prod.mk _) (Errand.after_free a)
  exact h.left (fun p' => (p', Errand.free)) (fun _ hf => hf) (fun _ _ hp => hp)
    (fun _ _ _ hk => hk) hnext

theorem obeys_run {a : Act} {f : a.Reply → TimedThread β} {post : β → TimedPhase → Prop}
    (hpermits : p.permits c cfg.options.config False a)
    (hrest : ∀ r, p.knows c False a r →
      (f r).Obeys (timedDiscipline c cfg) post (p.next c cfg.options.config a r, .free)) :
    (run a >>= f).Obeys (timedDiscipline c cfg) post (p, .free) := by
  refine ⟨hpermits, fun r hr => ?_⟩
  have hnext := hrest r hr
  rwa [← Errand.after_free a] at hnext

/-- The thread stays without an errand. -/
theorem obeys_note {b : TimingAct} {f : b.Reply → TimedThread β} {post : β → TimedPhase → Prop}
    {l : TimedPhase} (hpermits : l.permits c cfg (.inr b))
    (hrest : ∀ r, (f r).Obeys (timedDiscipline c cfg) post (l.next c cfg (.inr b) r)) :
    (note b >>= f).Obeys (timedDiscipline c cfg) post l :=
  ⟨hpermits, fun r _ => hrest r⟩

/-- What a worker has after a task: nothing, or the continuation. -/
def TimedContinues (c : Compiled) (inline : Option Ticket) (l : TimedPhase) : Prop :=
  ∃ p, l = (p, Errand.free) ∧ Continues c inline p

theorem next_runKernel {t : Ticket} {k : ℕ} :
    (Phase.holding {(t, k)}).next c cfg.options.config (.runKernel t (t.info.index + k)) () =
      .holding {(t, k + 1)} := by
  simp only [Phase.next, Phase.holding, Nat.add_sub_cancel_left, Multiset.erase_singleton]
  rfl

theorem permits_runKernel {t : Ticket} {k : ℕ} (hk : k < t.info.bulkCount) :
    (Phase.holding {(t, k)}).permits c cfg.options.config False (.runKernel t (t.info.index + k)) := by
  refine Phase.permits_of_works rfl ⟨by omega, by omega, ?_⟩
  rw [Nat.add_sub_cancel_left]
  exact Multiset.mem_singleton_self _

/-- Each instance runs and is recorded, and none finds its slot recycled. -/
theorem obeys_runCells {workerId : ℕ} {t : Ticket} (hnet : c.isNetworkNode t.info.id = false)
    {k n : ℕ} (hsize : k + n = t.info.bulkCount) :
    (runCells workerId t (List.range' (t.info.index + k) n)).Obeys (timedDiscipline c cfg)
      (fun stale l => stale = false ∧ l = (.holding {(t, t.info.bulkCount)}, .free))
      (.holding {(t, k)}, .free) := by
  induction n generalizing k with
  | zero =>
    obtain rfl : k = t.info.bulkCount := hsize
    exact ⟨rfl, rfl⟩
  | succ n ih =>
    rw [List.range'_succ]
    refine obeys_run (Phase.permits_of_works rfl trivial) fun stale hstale => ?_
    obtain rfl : stale = false := hstale ⟨k, Multiset.mem_singleton_self _⟩ hnet
    refine obeys_run (permits_runKernel (by omega)) fun _ _ => ?_
    show Prog.Obeys _ _ _ ((Phase.holding {(t, k)}).next c cfg.options.config
      (.runKernel t (t.info.index + k)) (), Errand.free)
    rw [next_runKernel]
    refine obeys_note ⟨rfl, k + 1, Multiset.mem_singleton_self _⟩ fun _ => ?_
    rw [Nat.add_assoc]
    exact ih (by omega)

theorem obeys_runBulkKernel {t : Ticket} {k n : ℕ} (hsize : k + n = t.info.bulkCount) :
    (runBulkKernel t (List.range' (t.info.index + k) n)).Obeys (timedDiscipline c cfg)
      (fun _ l => l = (.holding {(t, t.info.bulkCount)}, .free)) (.holding {(t, k)}, .free) := by
  induction n generalizing k with
  | zero =>
    obtain rfl : k = t.info.bulkCount := hsize
    exact rfl
  | succ n ih =>
    rw [List.range'_succ]
    refine obeys_run (permits_runKernel (by omega)) fun _ _ => ?_
    rw [next_runKernel, Nat.add_assoc]
    exact ih (by omega)

theorem obeys_executeTask (hrun : Runnable c) {workerId : ℕ} {t : Ticket}
    (hpos : 1 ≤ t.info.bulkCount) (hnet : c.isNetworkNode t.info.id = false) :
    (executeTask c cfg workerId t).Obeys (timedDiscipline c cfg) (TimedContinues c)
      (.holding {(t, 0)}, .free) := by
  have hheld : (t, 0) ∈ ({(t, 0)} : Multiset (Ticket × ℕ)) := Multiset.mem_singleton_self _
  have hresolve : (Threads.workerResolveSuccessors c cfg.options.config t).left.Obeys
      (timedDiscipline c cfg) (TimedContinues c) (.holding {(t, t.info.bulkCount)}, .free) :=
    obeys_left (obeys_workerResolveSuccessors hrun hnet)
  refine obeys_run (Phase.permits_of_works rfl trivial) fun current hcurrent => ?_
  have hgen : current.gen = t.info.gen := hcurrent _ hheld rfl hnet
  have hsame : (Phase.holding {(t, 0)}).next c cfg.options.config (.loadGeneration t.slot) current =
      .holding {(t, 0)} := by
    simp only [Phase.next]
    exact if_neg (Multiset.notMem_zero _)
  rw [if_neg (not_not.mpr hgen), hsame]
  split
  · unfold executeBulkTask
    split
    · refine (obeys_runBulkKernel (k := 0) (Nat.zero_add _)).bind ?_
      rintro _ l rfl
      exact hresolve
    · refine (obeys_runCells (k := 0) hnet (Nat.zero_add _)).bind ?_
      rintro stale l ⟨rfl, rfl⟩
      exact hresolve
  · next hone =>
    have hsize : t.info.bulkCount = 1 := by omega
    refine obeys_run (Phase.permits_of_works rfl trivial) fun stale hstale => ?_
    obtain rfl : stale = false := hstale ⟨0, hheld⟩ hnet
    refine obeys_run (permits_runKernel (k := 0) hpos) fun _ _ => ?_
    have hnext : (Phase.holding {(t, 0)}).next c cfg.options.config (.runKernel t t.info.index) () =
        .holding {(t, t.info.bulkCount)} := by
      rw [hsize]
      exact next_runKernel (k := 0)
    show Prog.Obeys _ _ _ ((Phase.holding {(t, 0)}).next c cfg.options.config
      (.runKernel t t.info.index) (), Errand.free)
    rw [hnext]
    refine obeys_note ⟨rfl, _, Multiset.mem_singleton_self _⟩ fun _ => ?_
    split
    · exact hresolve
    · refine obeys_run (Phase.permits_of_works rfl
        ⟨Multiset.mem_singleton_self _, Multiset.notMem_zero _, hnet⟩) fun _ _ => ?_
      refine ⟨.idle, congrArg (Prod.mk · _) ?_, rfl⟩
      exact congrArg Phase.holding (Multiset.erase_singleton _)

theorem obeys_work (hrun : Runnable c) (workerId : ℕ) :
    (Timing.work c cfg workerId).Obeys (timedDiscipline c cfg) (fun _ l => l = (.idle, .free))
      (.idle, .free) := by
  refine obeys_run (Phase.permits_of_works rfl trivial) fun taken htaken => ?_
  cases taken with
  | none => exact rfl
  | some t =>
    obtain ⟨hpos, hnet⟩ := htaken t rfl
    refine (obeys_executeTask hrun hpos hnet).bind fun inline l hl => ?_
    obtain ⟨p, rfl, hp⟩ := hl
    cases inline with
    | none =>
      obtain rfl : p = .idle := hp
      exact rfl
    | some next =>
      obtain ⟨rfl, hnet'⟩ := hp
      refine obeys_run (f := fun _ => pure ()) (Phase.permits_of_works rfl
        ⟨Multiset.mem_singleton_self _, Multiset.notMem_zero _, hnet'⟩) fun _ _ => ?_
      refine congrArg (Prod.mk · _) ?_
      exact congrArg Phase.holding (Multiset.erase_singleton _)

/-! ## Ends of frames -/

theorem permits_reset {slot : ℕ} {e : Errand} (he : e = .evict slot ∨ ∃ f, e = .finish slot f)
    {stage : Stage} {a : Act}
    (h : (Phase.at (.reset slot stage)).permits c cfg.options.config False a) :
    TimedPhase.permits c cfg (.at (.reset slot stage), e) (.inl a) := by
  rcases he with rfl | ⟨f, rfl⟩
  · exact .inr ⟨⟨stage, rfl⟩, h⟩
  · exact ⟨⟨stage, rfl⟩, h⟩

/-- A reset, by a thread that will send the end or by one that evicts. -/
theorem obeys_reset {slot : ℕ} {l : TimedPhase} {e : Errand}
    (he : e = .evict slot ∨ ∃ f, e = .finish slot f)
    (hpermits : l.permits c cfg (.inl (.bumpSlotGeneration slot true)))
    (hnext : l.next c cfg (.inl (.bumpSlotGeneration slot true)) () = (.at (.reset slot .bumped), e)) :
    (resetSlotState slot).Obeys (timedDiscipline c cfg)
      (fun _ l' => l' = (.idle, e.after (.unmarkSlotCompleted slot))) l := by
  refine ⟨hpermits, fun _ _ => ?_⟩
  show Prog.Obeys _ _ _ (l.next c cfg (.inl (.bumpSlotGeneration slot true)) ())
  rw [hnext]
  refine obeys_note trivial fun _ => obeys_note trivial fun _ => ?_
  exact ⟨permits_reset he rfl, fun _ _ => ⟨permits_reset he rfl, fun _ _ =>
    ⟨permits_reset he rfl, fun _ _ => ⟨permits_reset he rfl, fun _ _ => rfl⟩⟩⟩⟩

theorem obeys_checkSlot (slot : ℕ) :
    (checkSlot slot).Obeys (timedDiscipline c cfg) (fun _ l => l = (.idle, .free))
      (.idle, .free) := by
  refine obeys_run (Phase.permits_of_works rfl trivial) fun dirty _ => ?_
  cases dirty with
  | false => exact rfl
  | true =>
    refine (obeys_left (obeys_detect slot)).bind ?_
    rintro claimed l ⟨p, rfl, rfl⟩
    cases claimed with
    | false => exact rfl
    | true =>
      refine obeys_note ⟨rfl, rfl⟩ fun frame => ?_
      have hreset : (resetSlotState slot).Obeys (timedDiscipline c cfg)
          (fun _ l => l = (.idle, .finish slot frame))
          (.at (.claim slot .quiet), .closing slot frame) := obeys_reset (.inr ⟨frame, rfl⟩) rfl rfl
      refine hreset.bind ?_
      rintro _ l rfl
      refine obeys_note rfl fun _ => ?_
      exact obeys_run (Phase.permits_of_works rfl trivial) fun _ _ => rfl

theorem obeys_checkEach (slots : List ℕ) :
    (checkEach slots).Obeys (timedDiscipline c cfg) (fun _ l => l = (.idle, .free))
      (.idle, .free) := by
  induction slots with
  | nil => exact rfl
  | cons slot slots ih =>
    refine (obeys_checkSlot slot).bind ?_
    rintro _ l rfl
    exact ih

theorem obeys_evictSlot (slot : ℕ) :
    (evictSlot cfg slot).Obeys (timedDiscipline c cfg) (fun _ l => l = (.idle, .free))
      (.idle, .free) := by
  refine obeys_note trivial fun received => ?_
  split
  · exact rfl
  refine obeys_note trivial fun idle => ?_
  split
  · exact rfl
  refine obeys_run (Phase.permits_of_works rfl trivial) fun processing _ => ?_
  split
  · exact rfl
  refine obeys_note (fun _ => rfl) fun already => ?_
  cases already with
  | true => exact rfl
  | false =>
    have hreset : (resetSlotState slot).Obeys (timedDiscipline c cfg) (fun _ l => l = (.idle, .free))
        (.at (.claim slot .fresh), .evict slot) := obeys_reset (.inl rfl) (.inl ⟨rfl, rfl⟩) rfl
    refine hreset.bind ?_
    rintro _ l rfl
    exact obeys_run (Phase.permits_of_works rfl trivial) fun _ _ => rfl

theorem obeys_checkSlots (slots : List ℕ) :
    (checkSlots cfg slots).Obeys (timedDiscipline c cfg) (fun _ l => l = (.idle, .free))
      (.idle, .free) := by
  have hevict : (tryEvictStalledSlots cfg slots).Obeys (timedDiscipline c cfg)
      (fun _ l => l = (.idle, .free)) (.idle, .free) := by
    induction slots with
    | nil => exact rfl
    | cons slot slots ih =>
      refine (obeys_evictSlot slot).bind ?_
      rintro _ l rfl
      exact ih
  unfold checkSlots
  split
  · exact obeys_checkEach slots
  · refine hevict.bind ?_
    rintro _ l rfl
    exact obeys_checkEach slots

/-! ## Starts of frames, and packets -/

theorem obeys_activateSlot (slot : ℕ) :
    (activateSlot slot).Obeys (timedDiscipline c cfg) (fun _ l => l = (.idle, .free))
      (.idle, .free) := by
  refine obeys_run (Phase.permits_of_works rfl trivial) fun newly _ => ?_
  cases newly with
  | false => exact rfl
  | true =>
    refine obeys_run (Phase.permits_of_works rfl rfl) fun _ _ => ?_
    refine obeys_run (Phase.permits_of_works rfl rfl) fun _ _ => ?_
    exact ⟨trivial, fun _ _ => rfl⟩

theorem obeys_restartSlot (slot : ℕ) :
    (restartSlot c cfg slot).Obeys (timedDiscipline c cfg) (fun _ l => l = (.idle, .free))
      (.idle, .free) := by
  have hactive : (Threads.restartSlot slot).Obeys (resolutionDiscipline c cfg.options.config False)
      (fun _ p => p = .idle) .idle :=
    obeys_act (Phase.permits_of_works rfl trivial) fun _ _ => rfl
  refine (obeys_left hactive).bind ?_
  rintro _ l ⟨p, rfl, rfl⟩
  refine obeys_note trivial fun _ => ?_
  refine (obeys_left (obeys_spawnInitial cfg.options [slot])).mono ?_
  rintro _ l ⟨p, rfl, rfl⟩
  rfl

theorem obeys_checkFrameCompletion (slot : ℕ) :
    (checkFrameCompletion cfg slot).Obeys (timedDiscipline c cfg) (fun _ l => l = (.idle, .free))
      (.idle, .free) := by
  refine obeys_note trivial fun packetCount => ?_
  split
  · exact rfl
  · refine obeys_note (fun h => (nomatch h)) fun already => ?_
    cases already <;> exact rfl

theorem obeys_admitPackets (packets : List (ℕ × ℕ)) :
    (admitPackets cfg packets).Obeys (timedDiscipline c cfg)
      (fun batch l => l = (.idle, .free) ∧ ∀ ni ∈ batch, ni = NodeInfo.new 0 ni.slot ni.index 0)
      (.idle, .free) := by
  induction packets with
  | nil => exact ⟨rfl, fun _ hni => (nomatch hni)⟩
  | cons packet packets ih =>
    obtain ⟨slot, index⟩ := packet
    refine obeys_note trivial fun _ => ?_
    refine obeys_run (Phase.permits_of_works rfl trivial) fun active _ => ?_
    refine (obeys_checkFrameCompletion slot).bind ?_
    rintro _ l rfl
    refine Prog.Obeys.bind ih ?_
    rintro batch l ⟨rfl, hbatch⟩
    refine ⟨rfl, fun ni hni => ?_⟩
    cases active with
    | false => exact hbatch ni hni
    | true =>
      rcases List.mem_cons.mp hni with rfl | hni
      · rfl
      · exact hbatch ni hni

/-- Every job keeps to the discipline. -/
theorem obeys_timedJob (hrun : Runnable c) (job : TimedJob) :
    (job.program c cfg).Obeys (timedDiscipline c cfg) (fun _ l => l = (.idle, .free))
      (.idle, .free) := by
  have hplain : ∀ {q : Thread Unit}, q.Obeys (resolutionDiscipline c cfg.options.config False)
      (fun _ p => p = .idle) .idle →
        q.left.Obeys (timedDiscipline c cfg) (fun _ l => l = (.idle, .free)) (.idle, .free) := by
    intro q hq
    refine (obeys_left hq).mono ?_
    rintro _ l ⟨p, rfl, rfl⟩
    rfl
  cases job with
  | work workerId => exact obeys_work hrun workerId
  | drain => exact hplain (obeys_drain hrun cfg.options)
  | check slots => exact obeys_checkSlots slots
  | activate slot => exact obeys_activateSlot slot
  | buffer slot => exact ⟨trivial, fun _ _ => rfl⟩
  | restart slot => exact obeys_restartSlot slot
  | spawnInitial slots => exact hplain (obeys_spawnInitial cfg.options slots)
  | packets ps =>
    refine (obeys_admitPackets ps).bind ?_
    rintro batch l ⟨rfl, hbatch⟩
    exact hplain (obeys_deliverBatch hrun cfg.options fun ni hni => mem_coalescedEntries hbatch hni)
  | buffered ps =>
    refine hplain (obeys_deliverBatch hrun cfg.options fun ni hni => ?_)
    obtain ⟨p, -, rfl⟩ := List.mem_map.mp hni
    exact le_refl 1

end Programs

end Tomii.Timing
