import Tomii.Slots.FlowPhases

/-! # One turn of a resolution thread

Every step that a phase permits, with the state and the phase that it leads to. An invariant of
these runs is one that every turn keeps. -/
namespace Tomii.Slots
set_option autoImplicit false
set_option maxHeartbeats 250000

/-! ## Turns -/

/-- A thread in phase `l` proceeds from `σ` by an action. -/
inductive FlowTurn (cfg : FlowConfig) (σ : Flow) : FlowAct → FlowPhase → Flow → FlowPhase → Prop where
  | prepare (hfirst : σ.prepDone = false) (hroots : cfg.hasInitialNodes = true) :
    FlowTurn cfg σ .claimPreparation .idle { σ with prepDone := true } ⟨[], .assigning []⟩
  | prepared (hlater : (!σ.prepDone && cfg.hasInitialNodes) = false) :
    FlowTurn cfg σ .claimPreparation .idle { σ with prepDone := true } .idle
  | openWindow :
    FlowTurn cfg σ .loadCompleted .idle σ ⟨[], .window (σ.frameCompleteCounter + cfg.slots)⟩
  | ahead (p : Packet) (hahead : σ.frameCompleteCounter + cfg.slots ≤ p.frame) :
    FlowTurn cfg σ .loadCompleted ⟨[], .received p⟩ σ ⟨[], .unseated p⟩
  | inWindow (p : Packet) (hinside : p.frame < σ.frameCompleteCounter + cfg.slots) :
    FlowTurn cfg σ .loadCompleted ⟨[], .received p⟩ σ ⟨[p], .ready⟩
  | receive (p : Packet) (hnetwork : cfg.hasNetwork = true) :
    FlowTurn cfg σ (.receive p) .idle
      { σ with log := { σ.log with received := p :: σ.log.received } } ⟨[], .received p⟩
  | discard (todo : List Packet) (p : Packet) :
    FlowTurn cfg σ (.discard p) ⟨todo, .refused p⟩
      { σ with log := { σ.log with lost := p :: σ.log.lost } } ⟨todo, .ready⟩
  | discardBeyond (todo : List Packet) (p : Packet) (hbeyond : cfg.trackable ≤ p.frame) :
    FlowTurn cfg σ (.discard p) ⟨todo, .unseated p⟩
      { σ with log := { σ.log with lost := p :: σ.log.lost } } ⟨todo, .ready⟩
  | refuse (p : Packet) (todo : List Packet) (hdropped : Flow.isDropped cfg p.frame σ = true) :
    FlowTurn cfg σ (.loadDropped p.frame) ⟨p :: todo, .ready⟩ σ ⟨todo, .refused p⟩
  | clear (p : Packet) (todo : List Packet) (hkept : Flow.isDropped cfg p.frame σ = false) :
    FlowTurn cfg σ (.loadDropped p.frame) ⟨p :: todo, .ready⟩
      { σ with log := { σ.log with cleared := p.frame :: σ.log.cleared } } ⟨todo, .cleared p⟩
  | refuseNow (p : Packet) (todo : List Packet) (hdropped : Flow.isDropped cfg p.frame σ = true) :
    FlowTurn cfg σ (.recheckDropped p.frame) ⟨todo, .unseated p⟩ σ ⟨todo, .refused p⟩
  | toPark (p : Packet) (todo : List Packet) (hlt : p.frame < cfg.trackable)
      (hkept : Flow.isDropped cfg p.frame σ = false) :
    FlowTurn cfg σ (.recheckDropped p.frame) ⟨todo, .unseated p⟩ σ ⟨todo, .parking p⟩
  | lookup (todo : List Packet) (s : Stage) (frame : ℕ) (site : Site) (hasks : s.Asks frame site)
      (hframe : site = .preparation → frame < (activateFrames cfg.toSlotConfig).length) :
    FlowTurn cfg σ (.lookup frame site) ⟨todo, s⟩ (Flow.lookup cfg frame site σ).2
      ((flowDiscipline cfg).next ⟨todo, s⟩ (.lookup frame site) (Flow.lookup cfg frame site σ).1)
  | assign (todo : List Packet) (s : Stage) (frame : ℕ) (site : Site) (hasks : s.Asks frame site)
      (hnetwork : site = .packet → cfg.hasNetwork = true)
      (hframe : site = .preparation → frame < (activateFrames cfg.toSlotConfig).length) :
    FlowTurn cfg σ (.assignUnderLock frame site) ⟨todo, s⟩ (Flow.assignUnderLock cfg frame site σ).2
      ((flowDiscipline cfg).next ⟨todo, s⟩ (.assignUnderLock frame site)
        (Flow.assignUnderLock cfg frame site σ).1)
  | bump (l : FlowPhase) (slot : ℕ) :
    FlowTurn cfg σ (.bump slot) l { σ with table := σ.table.bumpSlotGeneration slot } l
  | dispatchInitial (todo : List Packet) (s : Stage) (slot : ℕ) (slots : List ℕ)
      (hroots : cfg.hasInitialNodes = true) (hdue : s.due = slot :: slots) :
    FlowTurn cfg σ (.dispatchInitial slot) ⟨todo, s⟩
      { σ with
        rootsDispatched := Function.update σ.rootsDispatched slot true
        log := { σ.log with spawned := (slot, σ.log.starts slot) :: σ.log.spawned } }
      ⟨todo, s.dispatched⟩
  | countPacket (todo : List Packet) (slot : ℕ) (p : Packet) (hnetwork : cfg.hasNetwork = true) :
    FlowTurn cfg σ (.countPacket slot p) ⟨todo, .seated p slot⟩ (Flow.countPacket cfg slot p σ).2
      ⟨todo, .routing (Flow.countPacket cfg slot p σ).1⟩
  | isActive (l : FlowPhase) (slot : ℕ) : FlowTurn cfg σ (.isActive slot) l σ l
  | buffered (todo : List Packet) (ni : NodeInfo) (hnetwork : cfg.hasNetwork = true)
      (hbuffered : (Flow.buffer ni σ).1 = true) :
    FlowTurn cfg σ (.buffer ni) ⟨todo, .routing ni⟩ (Flow.buffer ni σ).2 ⟨todo, .ready⟩
  | promotedBefore (todo : List Packet) (ni : NodeInfo) (hnetwork : cfg.hasNetwork = true)
      (hactive : (Flow.buffer ni σ).1 = false) :
    FlowTurn cfg σ (.buffer ni) ⟨todo, .routing ni⟩ (Flow.buffer ni σ).2 ⟨todo, .routing ni⟩
  | batch (todo : List Packet) (ni : NodeInfo) (hnetwork : cfg.hasNetwork = true) :
    FlowTurn cfg σ (.batch ni) ⟨todo, .routing ni⟩
      { σ with log := { σ.log with
        batched := ni :: σ.log.batched, carried := σ.log.carried.erase ni.slot } }
      ⟨todo, .ready⟩
  | complete (l : FlowPhase) (slot : ℕ) (hfull : σ.packetCounters slot = cfg.framePackets) :
    FlowTurn cfg σ (.checkFrameCompletion slot) l
      { σ with packetComplete := Function.update σ.packetComplete slot true } l
  | incomplete (l : FlowPhase) (slot : ℕ) (hopen : σ.packetCounters slot ≠ cfg.framePackets) :
    FlowTurn cfg σ (.checkFrameCompletion slot) l σ l
  | park (todo : List Packet) (p : Packet) (hnetwork : cfg.hasNetwork = true) :
    FlowTurn cfg σ (.park p) ⟨todo, .parking p⟩ (Flow.park cfg p σ).2
      ((flowDiscipline cfg).next ⟨todo, .parking p⟩ (.park p) (Flow.park cfg p σ).1)
  | swapDropped (todo : List Packet) (slot frame : ℕ) (hexpires : cfg.frameTimeoutMs ≠ 0)
      (hnetwork : cfg.hasNetwork = true) (hlt : frame < cfg.trackable) :
    FlowTurn cfg σ (.swapDropped frame) ⟨todo, .marking slot frame⟩ (Flow.swapDropped frame σ).2
      ⟨todo, if σ.frameDropped frame then .spent slot else .evicted slot frame⟩
  | countVictim (todo : List Packet) (frame : ℕ) :
    FlowTurn cfg σ (.countDropped frame) ⟨todo, .marked frame⟩
      { σ with
        frameCompleteCounter := σ.frameCompleteCounter + 1
        log := { σ.log with counted := frame :: σ.log.counted } }
      ⟨todo, .ready⟩
  | countEvicted (todo : List Packet) (slot frame : ℕ) :
    FlowTurn cfg σ (.countDropped frame) ⟨todo, .evicted slot frame⟩
      { σ with
        frameCompleteCounter := σ.frameCompleteCounter + 1
        log := { σ.log with counted := frame :: σ.log.counted } }
      ⟨todo, .spent slot⟩
  | takePending (windowEnd : ℕ) :
    FlowTurn cfg σ (.takePending windowEnd) ⟨[], .window windowEnd⟩ (Flow.takePending windowEnd σ).2
      ⟨(Flow.takePending windowEnd σ).1, .ready⟩
  | claim (slot : ℕ) (hclaim : Flow.Claimable cfg slot σ) :
    FlowTurn cfg σ (.claimCompletion slot) .idle { σ with claimed := slot :: σ.claimed }
      ⟨[], .claimed slot⟩
  | pass (slot : ℕ) (hclaim : ¬ Flow.Claimable cfg slot σ) :
    FlowTurn cfg σ (.claimCompletion slot) .idle σ .idle
  | resetClaimed (todo : List Packet) (slot : ℕ) :
    FlowTurn cfg σ (.resetCounters slot) ⟨todo, .claimed slot⟩ (Flow.resetCounters slot σ)
      ⟨todo, .reset slot⟩
  | resetSpent (todo : List Packet) (slot : ℕ) :
    FlowTurn cfg σ (.resetCounters slot) ⟨todo, .spent slot⟩ (Flow.resetCounters slot σ)
      ⟨todo, .counted slot none⟩
  | resetMarking (todo : List Packet) (slot frame : ℕ) :
    FlowTurn cfg σ (.resetCounters slot) ⟨todo, .marking slot frame⟩ (Flow.resetCounters slot σ)
      ⟨todo, .counted slot none⟩
  | countActive (l : FlowPhase) (slot : ℕ) :
    FlowTurn cfg σ (.countActive slot) l (Flow.countActive cfg slot σ).2 l
  | countCompletion (todo : List Packet) (slot rivals : ℕ) :
    FlowTurn cfg σ (.countCompletion slot rivals) ⟨todo, .reset slot⟩
      (Flow.countCompletion cfg slot rivals σ).2
      ⟨todo, .counted slot (restartOf cfg slot (σ.frameCompleteCounter + 1 + rivals))⟩
  | release (todo : List Packet) (slot : ℕ) (restart : Option ℕ) :
    FlowTurn cfg σ (.releaseUnderLock slot) ⟨todo, .counted slot restart⟩
      (Flow.releaseUnderLock cfg slot σ).2
      (FlowPhase.released cfg ⟨todo, .counted slot restart⟩
        ((Flow.releaseUnderLock cfg slot σ).1.map Prod.fst))
  | restart (todo : List Packet) (slot : ℕ) (hcompute : cfg.hasNetwork = false) :
    FlowTurn cfg σ (.restartUnderLock slot) ⟨todo, .waiting slot⟩ (Flow.restartUnderLock cfg slot σ)
      ⟨todo, if cfg.hasInitialNodes then .restarted slot else .ready⟩
  | loadStalled (l : FlowPhase) (slot : ℕ) : FlowTurn cfg σ (.loadStalled slot) l σ l
  | evict (slot : ℕ) (hexpires : cfg.frameTimeoutMs ≠ 0) (hnetwork : cfg.hasNetwork = true)
      (hopen : σ.packetComplete slot = false) :
    FlowTurn cfg σ (.claimEviction slot) .idle
      { σ with
        packetComplete := Function.update σ.packetComplete slot true
        log := { σ.log with evicting := slot :: σ.log.evicting } }
      ⟨[], .evicting slot⟩
  | spare (slot : ℕ) (hexpires : cfg.frameTimeoutMs ≠ 0) (hnetwork : cfg.hasNetwork = true)
      (hcomplete : σ.packetComplete slot = true) :
    FlowTurn cfg σ (.claimEviction slot) .idle
      { σ with packetComplete := Function.update σ.packetComplete slot true } .idle
  | loadFrameId (todo : List Packet) (slot : ℕ) :
    FlowTurn cfg σ (.loadFrameId slot) ⟨todo, .evicting slot⟩ σ
      ⟨todo, .marking slot (σ.table.frameId slot)⟩

/-- Every step that a phase permits is one of these turns. -/
theorem flow_turn {cfg : FlowConfig} {σ : Flow} {l : FlowPhase} (choice : ℕ) (a : FlowAct)
    (hpermits : (flowDiscipline cfg).permits l a) :
    FlowTurn cfg σ a l ((flowMachine cfg).perform choice a σ).2
      ((flowDiscipline cfg).next l a ((flowMachine cfg).perform choice a σ).1) := by
  obtain ⟨todo, s⟩ := l
  cases a with
  | claimPreparation =>
    obtain ⟨rfl, rfl⟩ := FlowPhase.mk.inj hpermits
    cases hfirst : (!σ.prepDone && cfg.hasInitialNodes) with
    | true =>
      obtain ⟨hnot, hroots⟩ := Bool.and_eq_true_iff.mp hfirst
      simp only [flowMachine, Flow.perform, flowDiscipline, hfirst, if_true]
      exact .prepare ((Bool.not_eq_true' _).mp hnot) hroots
    | false =>
      simp only [flowMachine, Flow.perform, flowDiscipline, hfirst, Bool.false_eq_true, if_false]
      exact .prepared hfirst
  | loadCompleted =>
    rcases hpermits with hidle | ⟨p, hreceived⟩
    · obtain ⟨rfl, rfl⟩ := FlowPhase.mk.inj hidle
      exact .openWindow
    · obtain ⟨rfl, rfl⟩ := FlowPhase.mk.inj hreceived
      simp only [flowMachine, Flow.perform, flowDiscipline, FlowPhase.loaded]
      split
      · next hahead => exact .ahead p hahead
      · next hinside => exact .inWindow p (Nat.lt_of_not_le hinside)
  | receive p =>
    obtain ⟨hidle, hnetwork⟩ := hpermits
    obtain ⟨rfl, rfl⟩ := FlowPhase.mk.inj hidle
    exact .receive p hnetwork
  | discard p =>
    rcases hpermits with hs | ⟨hs, hbeyond⟩
    · obtain rfl : s = .refused p := hs
      exact .discard todo p
    · obtain rfl : s = .unseated p := hs
      exact .discardBeyond todo p hbeyond
  | loadDropped frame =>
    obtain ⟨hs, p, rest, htodo, rfl⟩ := hpermits
    obtain rfl : s = .ready := hs
    obtain rfl : todo = p :: rest := htodo
    cases hdropped : Flow.isDropped cfg p.frame σ with
    | true =>
      simp only [flowMachine, Flow.perform, hdropped, if_true]
      exact .refuse p rest hdropped
    | false =>
      simp only [flowMachine, Flow.perform, hdropped, Bool.false_eq_true, if_false]
      exact .clear p rest hdropped
  | recheckDropped frame =>
    obtain ⟨hlt, p, hs, rfl⟩ := hpermits
    obtain rfl : s = .unseated p := hs
    cases hdropped : Flow.isDropped cfg p.frame σ with
    | true =>
      simp only [flowMachine, Flow.perform, hdropped]
      exact .refuseNow p todo hdropped
    | false =>
      simp only [flowMachine, Flow.perform, hdropped]
      exact .toPark p todo hlt hdropped
  | lookup frame site => exact .lookup todo s frame site hpermits.1 hpermits.2
  | assignUnderLock frame site =>
    exact .assign todo s frame site hpermits.1 hpermits.2.1 hpermits.2.2
  | bump slot => exact .bump _ slot
  | dispatchInitial slot =>
    obtain ⟨hroots, slots, hdue⟩ := hpermits
    exact .dispatchInitial todo s slot slots hroots hdue
  | countPacket slot p =>
    obtain ⟨hs, hnetwork⟩ := hpermits
    obtain rfl : s = .seated p slot := hs
    exact .countPacket todo slot p hnetwork
  | isActive slot => exact .isActive _ slot
  | buffer ni =>
    obtain ⟨hs, hnetwork⟩ := hpermits
    obtain rfl : s = .routing ni := hs
    simp only [flowMachine, Flow.perform, flowDiscipline]
    cases hbuffered : (Flow.buffer ni σ).1 with
    | true => exact .buffered todo ni hnetwork hbuffered
    | false => exact .promotedBefore todo ni hnetwork hbuffered
  | batch ni =>
    obtain ⟨hs, hnetwork⟩ := hpermits
    obtain rfl : s = .routing ni := hs
    exact .batch todo ni hnetwork
  | checkFrameCompletion slot =>
    simp only [flowMachine, Flow.perform]
    split
    · next hfull => exact .complete _ slot hfull
    · next hopen => exact .incomplete _ slot hopen
  | park p =>
    obtain ⟨hs, hnetwork⟩ := hpermits
    obtain rfl : s = .parking p := hs
    exact .park todo p hnetwork
  | swapDropped frame =>
    obtain ⟨hexpires, hnetwork, hlt, slot, hs⟩ := hpermits
    obtain rfl : s = .marking slot frame := hs
    exact .swapDropped todo slot frame hexpires hnetwork hlt
  | countDropped frame =>
    rcases hpermits with hs | ⟨slot, hs⟩
    · obtain rfl : s = .marked frame := hs
      exact .countVictim todo frame
    · obtain rfl : s = .evicted slot frame := hs
      exact .countEvicted todo slot frame
  | takePending windowEnd =>
    obtain ⟨rfl, rfl⟩ := FlowPhase.mk.inj hpermits
    exact .takePending windowEnd
  | claimCompletion slot =>
    obtain ⟨rfl, rfl⟩ := FlowPhase.mk.inj hpermits
    by_cases hclaim : Flow.Claimable cfg slot σ
    · simp only [flowMachine, Flow.perform, if_pos hclaim]
      exact .claim slot hclaim
    · simp only [flowMachine, Flow.perform, if_neg hclaim]
      exact .pass slot hclaim
  | resetCounters slot =>
    rcases hpermits with hs | hs | ⟨frame, hs⟩
    · obtain rfl : s = .claimed slot := hs
      exact .resetClaimed todo slot
    · obtain rfl : s = .spent slot := hs
      exact .resetSpent todo slot
    · obtain rfl : s = .marking slot frame := hs
      exact .resetMarking todo slot frame
  | countActive slot => exact .countActive _ slot
  | countCompletion slot rivals =>
    obtain rfl : s = .reset slot := hpermits
    exact .countCompletion todo slot rivals
  | releaseUnderLock slot =>
    obtain ⟨restart, hs⟩ := hpermits
    obtain rfl : s = .counted slot restart := hs
    exact .release todo slot restart
  | restartUnderLock slot =>
    obtain ⟨hs, hcompute⟩ := hpermits
    obtain rfl : s = .waiting slot := hs
    exact .restart todo slot hcompute
  | loadStalled slot => exact .loadStalled _ slot
  | claimEviction slot =>
    obtain ⟨hidle, hexpires, hnetwork⟩ := hpermits
    obtain ⟨rfl, rfl⟩ := FlowPhase.mk.inj hidle
    cases hcomplete : σ.packetComplete slot with
    | true =>
      simp only [flowMachine, Flow.perform, flowDiscipline, hcomplete, if_true]
      exact .spare slot hexpires hnetwork hcomplete
    | false =>
      simp only [flowMachine, Flow.perform, flowDiscipline, hcomplete, Bool.false_eq_true, if_false]
      exact .evict slot hexpires hnetwork hcomplete
  | loadFrameId slot =>
    obtain rfl : s = .evicting slot := hpermits
    exact .loadFrameId todo slot

theorem Coherent.buffer {cfg : FlowConfig} {σ : Flow} (h : Coherent cfg.toSlotConfig σ.table)
    (ni : NodeInfo) : Coherent cfg.toSlotConfig (Flow.buffer ni σ).2.table := by
  rw [Flow.buffer_eq]
  exact ⟨h.inRange, h.lastInRange, h.inactive_iff, h.distinct, h.bitmap, h.frameOf, h.noFrame⟩

theorem update_true {f : ℕ → Bool} {s slot : ℕ} (hs : f s = true) :
    Function.update f slot true s = true := by
  by_cases hsame : s = slot
  · rw [hsame]
    exact Function.update_self ..
  · exact (Function.update_of_ne hsame ..).trans hs

/-! ## Invariants -/

/-- What does not depend on the order of the threads, and every turn keeps, holds of all runs. -/
theorem flow_maintains {cfg : FlowConfig} {ok : Flow → ℕ → FlowAct → Prop}
    {Inv : Flow → List FlowPhase → Prop}
    (hperm : ∀ {σ ls ls'}, Inv σ ls → ls.Perm ls' → Inv σ ls')
    (hturn : ∀ {σ σ' others l l' a} (choice : ℕ), FlowTurn cfg σ a l σ' l' →
      Inv σ (l :: others) → ok σ choice a → Inv σ' (l' :: others)) :
    Machine.Maintains (flowMachine cfg) ok (flowDiscipline cfg) .idle (· = .idle) Inv := by
  refine .of_front (flowJob_follows cfg) hperm ?_ ?_
  · rintro σ others l rfl h
    exact h
  · intro σ others l choice a h hpermits hok
    exact ⟨trivial, hturn choice (flow_turn choice a hpermits) h hok⟩

end Tomii.Slots
