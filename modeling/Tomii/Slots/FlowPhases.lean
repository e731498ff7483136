import Tomii.Slots.FrameFlow

/-! # Where resolution threads are

One discipline for all jobs: what a thread holds between two steps (the packets it has still to
admit, a slot whose completion or eviction it has claimed, a frame it is about to count, slots whose
initial nodes it owes), and which step may follow. -/
namespace Tomii.Slots
set_option autoImplicit false
set_option maxHeartbeats 250000

/-- The stages of polls, completions, evictions, releases with restart, and the preparation. -/
inductive Stage where
  | ready
  | received (p : Packet)
  | cleared (p : Packet)
  | starting (p : Packet) (slot : ℕ)
  | seated (p : Packet) (slot : ℕ)
  | routing (ni : NodeInfo)
  | unseated (p : Packet)
  | parking (p : Packet)
  | refused (p : Packet)
  | marked (frame : ℕ)
  | window (windowEnd : ℕ)
  | claimed (slot : ℕ)
  | reset (slot : ℕ)
  | evicting (slot : ℕ)
  | marking (slot frame : ℕ)
  | evicted (slot frame : ℕ)
  | spent (slot : ℕ)
  | counted (slot : ℕ) (restart : Option ℕ)
  | promoted (next : ℕ) (restart : Option ℕ)
  | waiting (slot : ℕ)
  | restarted (slot : ℕ)
  | assigning (slots : List ℕ)
  | dispatching (slots : List ℕ)

namespace Stage

/-- The slots whose initial nodes the thread has to dispatch. -/
def due : Stage → List ℕ
  | .starting _ slot => [slot]
  | .promoted next _ => [next]
  | .restarted slot => [slot]
  | .assigning slots => slots
  | .dispatching slots => slots
  | _ => []

/-- The slot whose completion or eviction the thread has claimed, until it releases the slot. -/
def owner : Stage → Option ℕ
  | .claimed slot | .reset slot | .evicting slot | .marking slot _ | .evicted slot _ | .spent slot
  | .counted slot _ => some slot
  | _ => none

def afterRelease : Option ℕ → Stage
  | some slot => .waiting slot
  | none => .ready

def afterDispatch : List ℕ → Stage
  | [] => .ready
  | slot :: slots => .dispatching (slot :: slots)

/-- After the dispatch for the first slot that is due. -/
def dispatched : Stage → Stage
  | .starting p slot => .seated p slot
  | .promoted _ restart => afterRelease restart
  | .restarted _ => .ready
  | .assigning slots => afterDispatch slots.tail
  | .dispatching slots => afterDispatch slots.tail
  | s => s

/-- The frame has `slot`; `start` says whether its initial nodes are due now. -/
def assigned (start : Bool) (slot : ℕ) : Stage → Stage
  | .cleared p => if start then .starting p slot else .seated p slot
  | .assigning slots => .assigning (slots ++ [slot])
  | s => s

def unassigned : Stage → Stage
  | .cleared p => .unseated p
  | s => s

/-- Who asks for a slot for the frame. -/
def Asks (frame : ℕ) : Site → Stage → Prop
  | .packet, s => ∃ p, s = .cleared p ∧ p.frame = frame
  | .preparation, s => ∃ slots, s = .assigning slots ∧ slots.length = frame

end Stage

/-- The packets that are still to be admitted, and the stage of the current step. -/
structure FlowPhase where
  todo : List Packet
  stage : Stage

def FlowPhase.idle : FlowPhase := ⟨[], .ready⟩

def FlowPhase.owner (l : FlowPhase) : Option ℕ := l.stage.owner

namespace FlowPhase

variable (cfg : FlowConfig) (l : FlowPhase)

/-- The frame counter is read against the window of a fresh packet, or to re-inject parked ones. -/
def loaded (completed : ℕ) : FlowPhase :=
  match l.stage with
  | .received p =>
    if completed + cfg.slots ≤ p.frame then { l with stage := .unseated p } else ⟨[p], .ready⟩
  | _ => { l with stage := .window (completed + cfg.slots) }

def admits (dropped : Bool) : FlowPhase :=
  match l.todo with
  | p :: todo => ⟨todo, if dropped then .refused p else .cleared p⟩
  | [] => l

def rechecked (dropped : Bool) : FlowPhase :=
  match l.stage with
  | .unseated p => { l with stage := if dropped then .refused p else .parking p }
  | _ => l

/-- The eviction goes on, with its frame to count if the mark is new. -/
def swapped (frame : ℕ) (alreadyMarked : Bool) : FlowPhase :=
  match l.stage with
  | .marking slot _ =>
    { l with stage := if alreadyMarked then .spent slot else .evicted slot frame }
  | _ => l

def countedDropped : FlowPhase :=
  match l.stage with
  | .evicted slot _ => { l with stage := .spent slot }
  | _ => { l with stage := .ready }

def resetDone (slot : ℕ) : FlowPhase :=
  match l.stage with
  | .claimed _ => { l with stage := .reset slot }
  | _ => { l with stage := .counted slot none }

def released (promoted : Option ℕ) : FlowPhase :=
  match l.stage, promoted with
  | .counted _ restart, some next =>
    { l with stage :=
        if cfg.hasInitialNodes then .promoted next restart else .afterRelease restart }
  | .counted _ restart, none => { l with stage := .afterRelease restart }
  | _, _ => l

/-- A release is followed by the dispatch for the slot it promoted, or by the restart, if any. -/
theorem released_stage (todo : List Packet) (slot : ℕ) (restart promoted : Option ℕ) :
    ∃ s, released cfg ⟨todo, .counted slot restart⟩ promoted = ⟨todo, s⟩ ∧
      (s = .ready ∨ (∃ again, restart = some again ∧ s = .waiting again) ∨
        ∃ next, promoted = some next ∧ cfg.hasInitialNodes = true ∧ s = .promoted next restart) := by
  have hafter : Stage.afterRelease restart = .ready ∨
      ∃ again, restart = some again ∧ Stage.afterRelease restart = .waiting again := by
    cases restart with
    | none => exact .inl rfl
    | some again => exact .inr ⟨again, rfl, rfl⟩
  cases promoted with
  | none => exact ⟨_, rfl, hafter.imp_right .inl⟩
  | some next =>
    by_cases hroots : cfg.hasInitialNodes = true
    · exact ⟨.promoted next restart, by simp only [released, hroots, if_true],
        .inr (.inr ⟨next, rfl, hroots, rfl⟩)⟩
    · exact ⟨.afterRelease restart, by simp only [released, hroots, Bool.false_eq_true, if_false],
        hafter.imp_right .inl⟩

end FlowPhase

/-- The slot, if it will restart. -/
def restartOf (cfg : FlowConfig) (slot total : ℕ) : Option ℕ :=
  if total < cfg.maxFrames ∧ cfg.hasNetwork = false then some slot else none

/-- The order of the steps of all jobs. -/
def flowDiscipline (cfg : FlowConfig) : Discipline flowSteps FlowPhase where
  fails _ := True
  permits l
    | .claimPreparation => l = .idle
    | .loadCompleted => l = .idle ∨ ∃ p, l = ⟨[], .received p⟩
    | .receive _ => l = .idle ∧ cfg.hasNetwork = true
    | .discard p => l.stage = .refused p ∨ l.stage = .unseated p ∧ cfg.trackable ≤ p.frame
    | .loadDropped frame => l.stage = .ready ∧ ∃ p todo, l.todo = p :: todo ∧ p.frame = frame
    | .recheckDropped frame => frame < cfg.trackable ∧ ∃ p, l.stage = .unseated p ∧ p.frame = frame
    | .lookup frame site =>
      l.stage.Asks frame site ∧
        (site = .preparation → frame < (activateFrames cfg.toSlotConfig).length)
    | .assignUnderLock frame site =>
      l.stage.Asks frame site ∧ (site = .packet → cfg.hasNetwork = true) ∧
        (site = .preparation → frame < (activateFrames cfg.toSlotConfig).length)
    | .dispatchInitial slot =>
      cfg.hasInitialNodes = true ∧ ∃ slots, l.stage.due = slot :: slots
    | .countPacket slot p => l.stage = .seated p slot ∧ cfg.hasNetwork = true
    | .buffer ni => l.stage = .routing ni ∧ cfg.hasNetwork = true
    | .batch ni => l.stage = .routing ni ∧ cfg.hasNetwork = true
    | .park p => l.stage = .parking p ∧ cfg.hasNetwork = true
    | .swapDropped frame =>
      cfg.frameTimeoutMs ≠ 0 ∧ cfg.hasNetwork = true ∧ frame < cfg.trackable ∧
        ∃ slot, l.stage = .marking slot frame
    | .countDropped frame => l.stage = .marked frame ∨ ∃ slot, l.stage = .evicted slot frame
    | .takePending windowEnd => l = ⟨[], .window windowEnd⟩
    | .claimCompletion _ => l = .idle
    | .resetCounters slot =>
      l.stage = .claimed slot ∨ l.stage = .spent slot ∨ ∃ frame, l.stage = .marking slot frame
    | .countCompletion slot _ => l.stage = .reset slot
    | .releaseUnderLock slot => ∃ restart, l.stage = .counted slot restart
    | .restartUnderLock slot => l.stage = .waiting slot ∧ cfg.hasNetwork = false
    | .claimEviction _ => l = .idle ∧ cfg.frameTimeoutMs ≠ 0 ∧ cfg.hasNetwork = true
    | .loadFrameId slot => l.stage = .evicting slot
    | .bump _ | .isActive _ | .checkFrameCompletion _ | .countActive _ | .loadStalled _ => True
  knows _ _ _ := True
  next l
    | .claimPreparation, first =>
      if first && cfg.hasInitialNodes then { l with stage := .assigning [] } else l
    | .loadCompleted, completed => l.loaded cfg completed
    | .receive p, _ => { l with stage := .received p }
    | .discard _, _ => { l with stage := .ready }
    | .loadDropped _, dropped => l.admits dropped
    | .recheckDropped _, dropped => l.rechecked dropped
    | .lookup _ _, some slot => { l with stage := l.stage.assigned false slot }
    | .assignUnderLock _ _, some (slot, newly) =>
      { l with stage := l.stage.assigned (newly && cfg.hasInitialNodes) slot }
    | .assignUnderLock _ _, none => { l with stage := l.stage.unassigned }
    | .dispatchInitial _, _ => { l with stage := l.stage.dispatched }
    | .countPacket _ _, ni => { l with stage := .routing ni }
    | .buffer ni, buffered => { l with stage := if buffered then .ready else .routing ni }
    | .batch _, _ => { l with stage := .ready }
    | .park _, some victim => { l with stage := .marked victim }
    | .park _, none => { l with stage := .ready }
    | .swapDropped frame, alreadyMarked => l.swapped frame alreadyMarked
    | .countDropped _, _ => l.countedDropped
    | .takePending _, packets => ⟨packets, .ready⟩
    | .claimCompletion slot, won => if won then { l with stage := .claimed slot } else l
    | .resetCounters slot, _ => l.resetDone slot
    | .countCompletion slot others, completed =>
      { l with stage := .counted slot (restartOf cfg slot (completed + others)) }
    | .releaseUnderLock _, out => l.released cfg (out.map Prod.fst)
    | .restartUnderLock slot, _ =>
      { l with stage := if cfg.hasInitialNodes then .restarted slot else .ready }
    | .claimEviction slot, won => if won then { l with stage := .evicting slot } else l
    | .loadFrameId slot, frame => { l with stage := .marking slot frame }
    | _, _ => l

/-! ## The programs follow the discipline -/

section Programs

variable {cfg : FlowConfig} {todo : List Packet} {p : Packet}

theorem spawnInitial_follows {l : FlowPhase} {slot : ℕ} {slots : List ℕ}
    (hdue : cfg.hasInitialNodes = true → l.stage.due = slot :: slots) :
    (Flow.spawnInitial cfg slot).Obeys (flowDiscipline cfg)
      (fun _ l' => l' = if cfg.hasInitialNodes then { l with stage := l.stage.dispatched } else l)
      l := by
  unfold Flow.spawnInitial
  split
  · next hroots => exact ⟨⟨hroots, slots, hdue hroots⟩, fun _ _ => rfl⟩
  · exact rfl

/-- The phase that a last dispatch leaves, which is the one before it where no node is initial. -/
theorem spawnInitial_leaves {l l' : FlowPhase} {slot : ℕ}
    (hdue : cfg.hasInitialNodes = true → l.stage.due = [slot])
    (hnext : cfg.hasInitialNodes = true → { l with stage := l.stage.dispatched } = l')
    (hsame : cfg.hasInitialNodes = false → l = l') :
    (Flow.spawnInitial cfg slot).Obeys (flowDiscipline cfg) (fun _ m => m = l') l := by
  refine (spawnInitial_follows hdue).mono fun _ m hm => ?_
  rw [hm]
  cases hroots : cfg.hasInitialNodes with
  | true => exact hnext hroots
  | false => exact hsame hroots

theorem parkPendingPacket_follows (hnetwork : cfg.hasNetwork = true) :
    (Flow.parkPendingPacket cfg p).Obeys (flowDiscipline cfg) (fun _ l => l = ⟨todo, .ready⟩)
      ⟨todo, .unseated p⟩ := by
  unfold Flow.parkPendingPacket
  split
  · next hbeyond => exact ⟨.inr ⟨rfl, hbeyond⟩, fun _ _ => rfl⟩
  · next hwithin =>
    refine Prog.Obeys.call_bind ⟨Nat.lt_of_not_le hwithin, p, rfl, rfl⟩ fun dropped _ => ?_
    cases dropped with
    | true => exact ⟨.inl rfl, fun _ _ => rfl⟩
    | false =>
      refine Prog.Obeys.call_bind ⟨rfl, hnetwork⟩ fun victim _ => ?_
      cases victim with
      | none => exact rfl
      | some frame => exact ⟨.inl rfl, fun _ _ => rfl⟩

theorem routePacket_follows (hnetwork : cfg.hasNetwork = true) {ni : NodeInfo} :
    (Flow.routePacket ni).Obeys (flowDiscipline cfg) (fun _ l => l = ⟨todo, .ready⟩)
      ⟨todo, .routing ni⟩ := by
  refine Prog.Obeys.call_bind trivial fun active _ => ?_
  cases active with
  | true => exact ⟨⟨rfl, hnetwork⟩, fun _ _ => rfl⟩
  | false =>
    refine Prog.Obeys.call_bind ⟨rfl, hnetwork⟩ fun buffered _ => ?_
    cases buffered with
    | true => exact rfl
    | false => exact ⟨⟨rfl, hnetwork⟩, fun _ _ => rfl⟩

/-- What becomes of a packet. -/
def FlowPhase.After (todo : List Packet) (p : Packet) : Flow.SlotAssignment → FlowPhase → Prop
  | .assigned ni, l => l = ⟨todo, .routing ni⟩
  | .noSlotYet, l => l = ⟨todo, .unseated p⟩
  | .dropped, l => l = ⟨todo, .refused p⟩

theorem countPacket_follows (hnetwork : cfg.hasNetwork = true) {slot : ℕ} :
    (do
      let ni ← (FlowAct.countPacket slot p).perform
      pure (Flow.SlotAssignment.assigned ni)).Obeys (flowDiscipline cfg) (FlowPhase.After todo p)
        ⟨todo, .seated p slot⟩ :=
  ⟨⟨rfl, hnetwork⟩, fun _ _ => rfl⟩

/-- The slot starts the packet's frame first. -/
theorem startPacket_follows (hnetwork : cfg.hasNetwork = true) {slot : ℕ} {l : FlowPhase}
    (hstage : l = ⟨todo, if cfg.hasInitialNodes then .starting p slot else .seated p slot⟩) :
    (do
      Flow.spawnInitial cfg slot
      let ni ← (FlowAct.countPacket slot p).perform
      pure (Flow.SlotAssignment.assigned ni)).Obeys (flowDiscipline cfg) (FlowPhase.After todo p)
        l := by
  have hspawned : (Flow.spawnInitial cfg slot).Obeys (flowDiscipline cfg)
      (fun _ m => m = ⟨todo, .seated p slot⟩) l := by
    refine spawnInitial_leaves (fun hroots => ?_) (fun hroots => ?_) fun hroots => ?_
    · rw [hstage, if_pos hroots]
      rfl
    · rw [hstage, if_pos hroots]
      rfl
    · rw [hstage, hroots, if_neg Bool.false_ne_true]
  refine hspawned.bind fun _ l' hl' => ?_
  rw [hl']
  exact countPacket_follows hnetwork

theorem assignPacketToSlot_follows (hnetwork : cfg.hasNetwork = true) :
    (Flow.assignPacketToSlot cfg p).Obeys (flowDiscipline cfg) (FlowPhase.After todo p)
      ⟨p :: todo, .ready⟩ := by
  refine Prog.Obeys.call_bind ⟨rfl, p, todo, rfl, rfl⟩ fun dropped _ => ?_
  cases dropped with
  | true => exact rfl
  | false =>
    refine Prog.obeys_bind.mpr (Prog.Obeys.call_bind ⟨⟨p, rfl, rfl⟩, fun h => (nomatch h)⟩
      fun hit _ => ?_)
    cases hit with
    | some slot => exact countPacket_follows hnetwork
    | none =>
      refine Prog.Obeys.call_bind ⟨⟨p, rfl, rfl⟩, fun _ => hnetwork, fun h => (nomatch h)⟩
        fun out _ => ?_
      cases out with
      | none => exact rfl
      | some seat =>
        obtain ⟨slot, newly⟩ := seat
        cases newly with
        | false => exact countPacket_follows hnetwork
        | true => exact ⟨trivial, fun _ _ => startPacket_follows hnetwork rfl⟩

theorem admitPacket_follows (hnetwork : cfg.hasNetwork = true) :
    (Flow.admitPacket cfg p).Obeys (flowDiscipline cfg) (fun _ l => l = ⟨todo, .ready⟩)
      ⟨p :: todo, .ready⟩ := by
  refine (assignPacketToSlot_follows hnetwork).bind fun out l hl => ?_
  cases out with
  | assigned ni =>
    obtain rfl : l = ⟨todo, .routing ni⟩ := hl
    refine (routePacket_follows hnetwork).bind fun _ l hl => ?_
    exact ⟨trivial, fun _ _ => hl⟩
  | noSlotYet =>
    obtain rfl : l = ⟨todo, .unseated p⟩ := hl
    exact parkPendingPacket_follows hnetwork
  | dropped =>
    obtain rfl : l = ⟨todo, .refused p⟩ := hl
    exact ⟨.inl rfl, fun _ _ => rfl⟩

theorem admitPackets_follows (hnetwork : cfg.hasNetwork = true) (packets : List Packet) :
    (Flow.admitPackets cfg packets).Obeys (flowDiscipline cfg) (fun _ l => l = .idle)
      ⟨packets, .ready⟩ := by
  induction packets with
  | nil => exact rfl
  | cons p packets ih =>
    refine (admitPacket_follows hnetwork).bind fun _ l hl => ?_
    rw [hl]
    exact ih

theorem reinjectPendingFrames_follows (hnetwork : cfg.hasNetwork = true) :
    (Flow.reinjectPendingFrames cfg).Obeys (flowDiscipline cfg) (fun _ l => l = .idle) .idle :=
  Prog.Obeys.call_bind (.inl rfl) fun _ _ =>
    Prog.Obeys.call_bind rfl fun packets _ => admitPackets_follows hnetwork packets

theorem processPackets_follows (hnetwork : cfg.hasNetwork = true) (packets : List Packet) :
    (Flow.processPackets cfg packets).Obeys (flowDiscipline cfg) (fun _ l => l = .idle) .idle := by
  induction packets with
  | nil => exact rfl
  | cons p packets ih =>
    refine Prog.Obeys.call_bind ⟨rfl, hnetwork⟩ fun _ _ => ?_
    refine Prog.Obeys.call_bind (.inr ⟨p, rfl⟩) fun completed _ => ?_
    show Prog.Obeys _ _ _ (FlowPhase.loaded cfg ⟨[], .received p⟩ completed)
    by_cases hahead : completed + cfg.slots ≤ p.frame
    · rw [if_pos hahead, show FlowPhase.loaded cfg ⟨[], .received p⟩ completed =
        ⟨[], .unseated p⟩ from if_pos hahead]
      refine (parkPendingPacket_follows hnetwork).bind fun _ l hl => ?_
      rw [hl]
      exact ih
    · rw [if_neg hahead, show FlowPhase.loaded cfg ⟨[], .received p⟩ completed =
        ⟨[p], .ready⟩ from if_neg hahead]
      refine (admitPacket_follows hnetwork).bind fun _ l hl => ?_
      rw [hl]
      exact ih

theorem poll_follows (hnetwork : cfg.hasNetwork = true) (hint : Bool) (packets : List Packet) :
    (Flow.pollAndProcessNetworkPackets cfg hint packets).Obeys (flowDiscipline cfg)
      (fun _ l => l = .idle) .idle := by
  cases hint with
  | true =>
    refine (reinjectPendingFrames_follows hnetwork).bind fun _ l hl => ?_
    rw [hl]
    exact processPackets_follows hnetwork packets
  | false => exact processPackets_follows hnetwork packets

theorem releaseAndDispatchNext_follows {slot : ℕ} {restart : Option ℕ} :
    (Flow.releaseAndDispatchNext cfg slot).Obeys (flowDiscipline cfg)
      (fun _ l => l = ⟨[], .afterRelease restart⟩) ⟨[], .counted slot restart⟩ := by
  refine Prog.Obeys.call_bind ⟨restart, rfl⟩ fun out _ => ?_
  cases out with
  | none => exact rfl
  | some promoted =>
    obtain ⟨next, buffered⟩ := promoted
    refine Prog.Obeys.call_bind trivial fun _ _ => ?_
    refine spawnInitial_leaves (fun hroots => ?_) (fun hroots => ?_) fun hroots => ?_
    · simp only [flowDiscipline, FlowPhase.released, Option.map_some, hroots, if_true]
      rfl
    · simp only [flowDiscipline, FlowPhase.released, Option.map_some, hroots, if_true]
      rfl
    · simp only [flowDiscipline, FlowPhase.released, Option.map_some, hroots, Bool.false_eq_true,
        if_false]

theorem restartSlotNonnetwork_follows {slot : ℕ} (hcompute : cfg.hasNetwork = false) :
    (Flow.restartSlotNonnetwork cfg slot).Obeys (flowDiscipline cfg) (fun _ l => l = .idle)
      ⟨[], .waiting slot⟩ := by
  simp only [Flow.restartSlotNonnetwork, hcompute, Bool.false_eq_true, if_false]
  refine Prog.Obeys.call_bind ⟨rfl, hcompute⟩ fun _ _ => ?_
  refine spawnInitial_leaves (fun hroots => ?_) (fun hroots => ?_) fun hroots => ?_
  · simp only [flowDiscipline, hroots, if_true]
    rfl
  · simp only [flowDiscipline, hroots, if_true]
    rfl
  · simp only [flowDiscipline, hroots, Bool.false_eq_true, if_false]
    rfl

theorem checkSlot_follows (slot : ℕ) :
    (Flow.checkSlot cfg slot).Obeys (flowDiscipline cfg) (fun _ l => l = .idle) .idle := by
  refine Prog.Obeys.call_bind rfl fun won _ => ?_
  cases won with
  | false => exact rfl
  | true =>
    refine ⟨trivial, fun _ _ => ⟨.inl rfl, fun _ _ => ⟨trivial, fun others _ => ⟨rfl,
      fun completed _ => ?_⟩⟩⟩⟩
    refine releaseAndDispatchNext_follows.bind fun _ l hl => ?_
    rw [hl]
    by_cases hagain : completed + others < cfg.maxFrames
    · rw [if_pos hagain]
      cases hnetwork : cfg.hasNetwork with
      | true =>
        rw [restartOf, if_neg (by simp [hnetwork])]
        simp only [Flow.restartSlotNonnetwork, hnetwork, if_true]
        exact rfl
      | false =>
        rw [restartOf, if_pos ⟨hagain, hnetwork⟩]
        exact restartSlotNonnetwork_follows hnetwork
    · rw [if_neg hagain, restartOf, if_neg fun h => hagain h.1]
      exact rfl

theorem markFrameDropped_follows (htimeout : cfg.frameTimeoutMs ≠ 0)
    (hnetwork : cfg.hasNetwork = true) {slot frame : ℕ} :
    (Flow.markFrameDropped cfg frame).Obeys (flowDiscipline cfg)
      (fun _ l => l = ⟨[], .marking slot frame⟩ ∨ l = ⟨[], .spent slot⟩)
      ⟨[], .marking slot frame⟩ := by
  unfold Flow.markFrameDropped
  split
  · exact .inl rfl
  · next hwithin =>
    refine Prog.Obeys.call_bind ⟨htimeout, hnetwork, Nat.lt_of_not_le hwithin, slot, rfl⟩
      fun alreadyMarked _ => ?_
    cases alreadyMarked with
    | true => exact .inr rfl
    | false => exact ⟨.inr ⟨slot, rfl⟩, fun _ _ => .inr rfl⟩

theorem evictSlot_follows (hnetwork : cfg.hasNetwork = true) (slot : ℕ) :
    (Flow.evictSlot cfg slot).Obeys (flowDiscipline cfg) (fun _ l => l = .idle) .idle := by
  unfold Flow.evictSlot
  split
  · exact rfl
  · next htimeout =>
    refine Prog.Obeys.call_bind trivial fun stalled _ => ?_
    cases stalled with
    | false => exact rfl
    | true =>
      refine Prog.Obeys.call_bind ⟨rfl, htimeout, hnetwork⟩ fun won _ => ?_
      cases won with
      | false => exact rfl
      | true =>
        refine Prog.Obeys.call_bind rfl fun frame _ => ?_
        refine (markFrameDropped_follows htimeout hnetwork).bind fun _ l hl => ?_
        rcases hl with rfl | rfl
        · exact ⟨trivial, fun _ _ => ⟨.inr (.inr ⟨frame, rfl⟩), fun _ _ =>
            releaseAndDispatchNext_follows⟩⟩
        · exact ⟨trivial, fun _ _ => ⟨.inr (.inl rfl), fun _ _ => releaseAndDispatchNext_follows⟩⟩

/-- The frames that the preparation activates are numbered from 0. -/
theorem activateFrames_eq (cfg : SlotConfig) :
    activateFrames cfg = List.range (activateFrames cfg).length ∧
      (activateFrames cfg).length ≤ cfg.slots ∧ activateFrames cfg ≠ [] := by
  have hpos := cfg.one_le_slots
  unfold activateFrames
  split
  · exact ⟨rfl, hpos, List.cons_ne_nil _ _⟩
  · rw [List.length_range]
    exact ⟨rfl, le_rfl, fun hnil => by rw [List.range_eq_nil] at hnil; omega⟩

theorem assignFrames_follows (n : ℕ) (slots : List ℕ)
    (hn : slots.length + n = (activateFrames cfg.toSlotConfig).length) :
    (Flow.assignFrames (List.range' slots.length n)).Obeys (flowDiscipline cfg)
      (fun more l => l = (⟨[], .assigning (slots ++ more)⟩ : FlowPhase) ∧ more.length = n)
      ⟨[], .assigning slots⟩ := by
  induction n generalizing slots with
  | zero => exact ⟨by rw [List.append_nil], rfl⟩
  | succ n ih =>
    have hframe : slots.length < (activateFrames cfg.toSlotConfig).length := by omega
    have hrest : ∀ slot, (do
        let more ← Flow.assignFrames (List.range' (slots.length + 1) n)
        pure (slot :: more)).Obeys (flowDiscipline cfg)
          (fun more l => l = (⟨[], .assigning (slots ++ more)⟩ : FlowPhase) ∧
            more.length = n + 1) ⟨[], .assigning (slots ++ [slot])⟩ := by
      intro slot
      have hlength : (slots ++ [slot]).length = slots.length + 1 := List.length_append
      have hmore := ih (slots ++ [slot]) (by rw [hlength]; omega)
      rw [hlength] at hmore
      refine hmore.bind fun more l hl => ?_
      rw [List.append_assoc] at hl
      exact ⟨hl.1, congrArg (· + 1) hl.2⟩
    refine Prog.obeys_bind.mpr (Prog.Obeys.call_bind ⟨⟨slots, rfl, rfl⟩, fun _ => hframe⟩
      fun hit _ => ?_)
    cases hit with
    | some slot => exact hrest slot
    | none =>
      refine Prog.Obeys.call_bind ⟨⟨slots, rfl, rfl⟩, fun h => (nomatch h), fun _ => hframe⟩
        fun out _ => ?_
      cases out with
      | none => trivial
      | some seat =>
        obtain ⟨slot, newly⟩ := seat
        cases newly with
        | true => exact ⟨trivial, fun _ _ => hrest slot⟩
        | false => exact hrest slot

theorem dispatchAll_follows (hroots : cfg.hasInitialNodes = true) (slots : List ℕ) :
    (Flow.dispatchAll slots).Obeys (flowDiscipline cfg) (fun _ l => l = .idle)
      ⟨[], .afterDispatch slots⟩ := by
  induction slots with
  | nil => exact rfl
  | cons slot slots ih => exact ⟨⟨hroots, slots, rfl⟩, fun _ _ => ih⟩

theorem performInitialPreparation_follows :
    (Flow.performInitialPreparation cfg).Obeys (flowDiscipline cfg) (fun _ l => l = .idle)
      .idle := by
  refine Prog.Obeys.call_bind rfl fun first _ => ?_
  split
  · next hfirst =>
    have hroots : cfg.hasInitialNodes = true := (Bool.and_eq_true_iff.mp hfirst).2
    obtain ⟨hframes, -, hsome⟩ := activateFrames_eq cfg.toSlotConfig
    have hassign : (Flow.assignFrames (activateFrames cfg.toSlotConfig)).Obeys (flowDiscipline cfg)
        (fun more l => l = (⟨[], .assigning ([] ++ more)⟩ : FlowPhase) ∧
          more.length = (activateFrames cfg.toSlotConfig).length) ⟨[], .assigning []⟩ := by
      have hfollows := assignFrames_follows (activateFrames cfg.toSlotConfig).length []
        (Nat.zero_add _)
      rwa [List.length_nil, ← List.range_eq_range', ← hframes] at hfollows
    rw [show (flowDiscipline cfg).next .idle .claimPreparation first = ⟨[], .assigning []⟩ from
      if_pos hfirst]
    refine hassign.bind fun slots l hl => ?_
    rw [List.nil_append] at hl
    obtain ⟨rfl, hlength⟩ := hl
    cases slots with
    | nil => exact absurd (List.length_eq_zero_iff.mp hlength.symm) hsome
    | cons slot slots =>
      exact ⟨⟨hroots, slots, rfl⟩, fun _ _ => dispatchAll_follows hroots slots⟩
  · next hfirst =>
    exact if_neg hfirst

theorem flowJob_follows (cfg : FlowConfig) (job : FlowJob) :
    ((flowMachine cfg).program job).Obeys (flowDiscipline cfg) (fun _ l => l = .idle) .idle := by
  cases job with
  | prepare => exact performInitialPreparation_follows
  | poll hint packets =>
    simp only [flowMachine]
    split
    · next hnetwork => exact poll_follows hnetwork hint packets
    · exact rfl
  | check slot => exact checkSlot_follows slot
  | evict slot =>
    simp only [flowMachine]
    split
    · next hnetwork => exact evictSlot_follows hnetwork slot
    · exact rfl

end Programs

end Tomii.Slots
