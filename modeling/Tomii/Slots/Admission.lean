import Tomii.Foundations.Interleaving
import Tomii.Buffers.GenPacked
import Tomii.Slots.SlotMoves

/-! # Admission against the generation bump

An assignment publishes the frame and bumps the generation of the slot in a later step; a release
flips the promoted slot to `Active` and bumps it in a later step. Other threads admit packets
in between, without a lock. -/
namespace Tomii.Slots
set_option autoImplicit false
set_option maxHeartbeats 250000

/-- A packet for a slot, and the epoch of the slot in which it was given that slot. -/
structure Passage where
  slot : ℕ
  epoch : ℕ
deriving DecidableEq

/-- A decrement of a dependency counter, tagged with the generation that was read for it. -/
structure Decrement extends Passage where
  gen : UInt32

/-- The word of a dependency counter of the slot, which starts at `deps`, after these decrements, the
newest first (`decrease_and_get_ready_into`). -/
def counterWord (deps : UInt32) (slot : ℕ) : List Decrement → UInt64
  | [] => genPack 0 deps
  | d :: applied =>
    if d.slot = slot then
      genPack d.gen (saturatingSub (genRead d.gen deps (counterWord deps slot applied)) 1)
    else counterWord deps slot applied

/-- The table. To speak about runs: the slots published or promoted and not yet bumped, the epoch
of each slot, which ends when the frame is reset and when it is released, and the decrements. -/
structure Arrivals where
  table : SlotData
  window : List ℕ
  epoch : ℕ → ℕ
  applied : List Decrement

/-- The steps of admission and release. Epochs are carried along and decide nothing. -/
inductive AdmissionAct (cfg : SlotConfig) where
  | lookup (frame : ℕ)
  | assignUnderLock (frame : ℕ)
  | bump (slot : ℕ)
  | isActive (slot : ℕ)
  | buffer (slot index : ℕ)
  | loadGeneration (p : Passage)
  | decrement (d : Decrement)
  | reset (slot : Fin cfg.slots)
  | releaseUnderLock (slot : Fin cfg.slots)

variable {cfg : SlotConfig}

@[reducible] def AdmissionAct.Reply : AdmissionAct cfg → Type
  | .lookup _ => Option Passage
  | .assignUnderLock _ => Option (Passage × Bool)
  | .isActive _ => Bool
  | .buffer _ _ => Bool
  | .loadGeneration _ => UInt32
  | .releaseUnderLock _ => Option (Passage × List NodeInfo)
  | _ => Unit

variable (cfg) in
abbrev admissionSteps : Interface := ⟨AdmissionAct cfg, AdmissionAct.Reply⟩

abbrev AdmissionAct.perform (a : AdmissionAct cfg) : Prog (admissionSteps cfg) a.Reply := .act a .done

namespace Arrivals

def passage (slot : ℕ) (σ : Arrivals) : Passage := ⟨slot, σ.epoch slot⟩

def bump (slot : ℕ) (σ : Arrivals) : Arrivals :=
  { σ with table := σ.table.bumpSlotGeneration slot, window := σ.window.erase slot }

def endEpoch (slot : ℕ) (σ : Arrivals) : Arrivals :=
  { σ with epoch := Function.update σ.epoch slot (σ.epoch slot + 1) }

/-- The bump of `reset_slot_state`. -/
def reset (slot : ℕ) (σ : Arrivals) : Arrivals :=
  { σ.endEpoch slot with table := σ.table.bumpSlotGeneration slot }

/-- `assign_frame_to_available_slot` from the write lock to the bump. -/
def assignUnderLock (cfg : SlotConfig) (frame : ℕ) (σ : Arrivals) :
    Option (Passage × Bool) × Arrivals :=
  match σ.table.assignUnderLock cfg frame with
  | (none, d) => (none, { σ with table := d })
  | (some (slot, newly), d) =>
    (some (σ.passage slot, newly),
      { σ with table := d, window := if newly then slot :: σ.window else σ.window })

/-- `release_and_activate_next` up to the bump. -/
def releaseUnderLock (cfg : SlotConfig) (slot : ℕ) (σ : Arrivals) :
    Option (Passage × List NodeInfo) × Arrivals :=
  match σ.table.releaseUnderLock cfg slot with
  | (none, d) => (none, { σ.endEpoch slot with table := d })
  | (some (next, buffered), d) =>
    (some ((σ.endEpoch slot).passage next, buffered),
      { σ.endEpoch slot with table := d, window := next :: σ.window })

/-- The buffering branch of `admit_packet`, under `states.read()`. -/
def buffer (slot index : ℕ) (σ : Arrivals) : Bool × Arrivals :=
  if wordHas σ.table.activeBitmap slot then (false, σ)
  else
    (true, { σ with
      table :=
        { σ.table with
          buffers :=
            Function.update σ.table.buffers slot
              (σ.table.buffers slot ++ [NodeInfo.new 0 slot index 0]) } })

def perform : (a : AdmissionAct cfg) → Arrivals → a.Reply × Arrivals
  | .lookup frame, σ => ((σ.table.frameSlotLookup cfg frame).map σ.passage, σ)
  | .assignUnderLock frame, σ => σ.assignUnderLock cfg frame
  | .bump slot, σ => ((), σ.bump slot)
  | .isActive slot, σ => (wordHas σ.table.activeBitmap slot, σ)
  | .buffer slot index, σ => σ.buffer slot index
  | .loadGeneration p, σ => ((σ.table.generation p.slot).toUInt32, σ)
  | .decrement d, σ => ((), { σ with applied := d :: σ.applied })
  | .reset slot, σ => ((), σ.reset slot)
  | .releaseUnderLock slot, σ => σ.releaseUnderLock cfg slot

end Arrivals

/-! ## Programs -/

section Programs

/-- The packet's part of `process_batch_inner`: one read of the generation, then a decrement. -/
def resolvePacket (p : Passage) : Prog (admissionSteps cfg) Unit := do
  let gen ← (AdmissionAct.loadGeneration p).perform
  (AdmissionAct.decrement ⟨p, gen⟩).perform

def resolveBatch : List Passage → Prog (admissionSteps cfg) Unit
  | [] => pure ()
  | p :: batch => do
    resolvePacket p
    resolveBatch batch

/-- The routing of `admit_packet`: the packet joins the active batch or the buffer of its slot. -/
def routePacket (p : Passage) (index : ℕ) : Prog (admissionSteps cfg) (List Passage) := do
  let active ← (AdmissionAct.isActive p.slot).perform
  if active then pure [p]
  else
    let pushed ← (AdmissionAct.buffer p.slot index).perform
    pure (if pushed then [] else [p])

/-- `assign_frame_to_available_slot` -/
def assignFrame (frame : ℕ) : Prog (admissionSteps cfg) (Option Passage) := do
  match ← (AdmissionAct.lookup frame).perform with
  | some p => pure (some p)
  | none =>
    match ← (AdmissionAct.assignUnderLock frame).perform with
    | none => pure none
    | some (p, true) => do
      (AdmissionAct.bump p.slot).perform
      pure (some p)
    | some (p, false) => pure (some p)

def admitPacket (frame index : ℕ) : Prog (admissionSteps cfg) (List Passage) := do
  match ← assignFrame frame with
  | none => pure []
  | some p => routePacket p index

/-- Packets are admitted one after the other, then the active batch is resolved. -/
def admitPackets (batch : List Passage) : List (ℕ × ℕ) → Prog (admissionSteps cfg) Unit
  | [] => resolveBatch batch
  | (frame, index) :: packets => do
    let admitted ← admitPacket frame index
    admitPackets (batch ++ admitted) packets

/-- The assignments of the initial preparation. -/
def prepareFrames : List ℕ → Prog (admissionSteps cfg) Unit
  | [] => pure ()
  | frame :: frames => do
    let _ ← assignFrame frame
    prepareFrames frames

/-- A frame leaves its slot, on completion or eviction, and the promoted slot takes over. -/
def releaseSlot (slot : Fin cfg.slots) : Prog (admissionSteps cfg) Unit := do
  (AdmissionAct.reset slot).perform
  match ← (AdmissionAct.releaseUnderLock slot).perform with
  | none => pure ()
  | some (p, buffered) => do
    (AdmissionAct.bump p.slot).perform
    resolveBatch (buffered.map fun _ => p)

end Programs

variable (cfg) in
/-- What a resolution thread is given to do. -/
inductive AdmissionJob where
  | prepare (frames : List ℕ)
  | packets (packets : List (ℕ × ℕ))
  | release (slot : Fin cfg.slots)

variable (cfg) in
def admissionMachine : Machine (admissionSteps cfg) Arrivals (AdmissionJob cfg) where
  perform := fun _ a σ => σ.perform a
  program
    | .prepare frames => prepareFrames frames
    | .packets packets => admitPackets [] packets
    | .release slot => releaseSlot slot

def Arrivals.initial : Arrivals := ⟨.initial, [], fun _ => 0, []⟩

variable (cfg) in
def admissionWorld (threads : ℕ) : World (admissionSteps cfg) Arrivals :=
  ⟨.initial, List.replicate threads (.done ())⟩

/-! ## The phases of a thread -/

/-- The packets of the active batch, the packet being routed, the decrement about to be applied,
and the slot whose bump is due. -/
structure AdmissionPhase where
  batch : List Passage
  routing : Option Passage
  stamp : Option Decrement
  opening : Option ℕ

namespace AdmissionPhase

def idle : AdmissionPhase := ⟨[], none, none, none⟩

/-- Where a job may end: a slot returned by an assignment may be left unused. -/
def Rests (l : AdmissionPhase) : Prop := ∃ routing, l = ⟨[], routing, none, none⟩

/-- The packet being routed joins the active batch. -/
def join (l : AdmissionPhase) : AdmissionPhase :=
  { l with batch := l.batch ++ l.routing.toList, routing := none }

end AdmissionPhase

variable (cfg) in
def admissionDiscipline : Discipline (admissionSteps cfg) AdmissionPhase where
  fails := fun _ => True
  permits := fun l a =>
    match a with
    | .bump slot => l.opening = some slot
    | .isActive slot => ∃ p, l.routing = some p ∧ p.slot = slot
    | .buffer slot _ => ∃ p, l.routing = some p ∧ p.slot = slot
    | .loadGeneration p => p ∈ l.batch
    | .decrement d => l.stamp = some d
    | _ => True
  knows := fun _ _ _ => True
  next := fun l a =>
    match a with
    | .lookup _ => fun hit => { l with routing := hit }
    | .assignUnderLock _ => fun out =>
      { l with
        routing := out.map Prod.fst
        opening := out.bind fun assigned => if assigned.2 then some assigned.1.slot else none }
    | .bump _ => fun _ => { l with opening := none }
    | .isActive _ => fun active => if active then l.join else l
    | .buffer _ _ => fun pushed => if pushed then { l with routing := none } else l.join
    | .loadGeneration p => fun gen =>
      { l with batch := l.batch.erase p, stamp := some ⟨p, gen⟩ }
    | .decrement _ => fun _ => { l with stamp := none }
    | .reset _ => fun _ => l
    | .releaseUnderLock _ => fun out =>
      match out with
      | none => l
      | some (p, buffered) =>
        { l with batch := l.batch ++ buffered.map fun _ => p, opening := some p.slot }

section Obeys

theorem resolvePacket_obeys (p : Passage) (batch : List Passage) :
    (resolvePacket p).Obeys (admissionDiscipline cfg)
      (fun _ l => l = ⟨batch, none, none, none⟩) ⟨p :: batch, none, none, none⟩ := by
  refine ⟨List.mem_cons_self, fun gen _ => ⟨rfl, fun _ _ => ?_⟩⟩
  exact congrArg (AdmissionPhase.mk · none none none) (List.erase_cons_head ..)

theorem resolveBatch_obeys (batch : List Passage) :
    (resolveBatch batch).Obeys (admissionDiscipline cfg) (fun _ l => l.Rests)
      ⟨batch, none, none, none⟩ := by
  induction batch with
  | nil => exact ⟨none, rfl⟩
  | cons p batch ih =>
    refine (resolvePacket_obeys p batch).bind fun _ l hl => ?_
    subst hl
    exact ih

theorem routePacket_obeys (p : Passage) (index : ℕ) (batch : List Passage) :
    (routePacket p index).Obeys (admissionDiscipline cfg)
      (fun admitted l => l = ⟨batch ++ admitted, none, none, none⟩)
      ⟨batch, some p, none, none⟩ := by
  refine ⟨⟨p, rfl, rfl⟩, fun active _ => ?_⟩
  cases active with
  | true => exact rfl
  | false =>
    refine ⟨⟨p, rfl, rfl⟩, fun pushed _ => ?_⟩
    cases pushed with
    | true => exact congrArg (AdmissionPhase.mk · none none none) (List.append_nil batch).symm
    | false => exact rfl

theorem assignFrame_obeys (frame : ℕ) (batch : List Passage) (routing : Option Passage) :
    (assignFrame frame).Obeys (admissionDiscipline cfg)
      (fun out l => l = ⟨batch, out, none, none⟩) ⟨batch, routing, none, none⟩ := by
  refine ⟨trivial, fun hit _ => ?_⟩
  cases hit with
  | some p => exact rfl
  | none =>
    refine ⟨trivial, fun out _ => ?_⟩
    match out with
    | none => exact rfl
    | some (p, true) => exact ⟨rfl, fun _ _ => rfl⟩
    | some (p, false) => exact rfl

theorem admitPacket_obeys (frame index : ℕ) (batch : List Passage) :
    (admitPacket frame index).Obeys (admissionDiscipline cfg)
      (fun admitted l => l = ⟨batch ++ admitted, none, none, none⟩)
      ⟨batch, none, none, none⟩ := by
  refine (assignFrame_obeys frame batch none).bind fun out l hl => ?_
  subst hl
  cases out with
  | none => exact congrArg (AdmissionPhase.mk · none none none) (List.append_nil batch).symm
  | some p => exact routePacket_obeys p index batch

theorem admitPackets_obeys (packets : List (ℕ × ℕ)) (batch : List Passage) :
    (admitPackets batch packets).Obeys (admissionDiscipline cfg) (fun _ l => l.Rests)
      ⟨batch, none, none, none⟩ := by
  induction packets generalizing batch with
  | nil => exact resolveBatch_obeys batch
  | cons packet packets ih =>
    refine (admitPacket_obeys packet.1 packet.2 batch).bind fun admitted l hl => ?_
    subst hl
    exact ih (batch ++ admitted)

theorem prepareFrames_obeys (frames : List ℕ) (routing : Option Passage) :
    (prepareFrames frames).Obeys (admissionDiscipline cfg) (fun _ l => l.Rests)
      ⟨[], routing, none, none⟩ := by
  induction frames generalizing routing with
  | nil => exact ⟨routing, rfl⟩
  | cons frame frames ih =>
    refine (assignFrame_obeys frame [] routing).bind fun out l hl => ?_
    subst hl
    exact ih out

theorem releaseSlot_obeys (slot : Fin cfg.slots) :
    (releaseSlot slot).Obeys (admissionDiscipline cfg) (fun _ l => l.Rests) .idle := by
  refine ⟨trivial, fun _ _ => ⟨trivial, fun out _ => ?_⟩⟩
  match out with
  | none => exact ⟨none, rfl⟩
  | some (p, buffered) => exact ⟨rfl, fun _ _ => resolveBatch_obeys _⟩

end Obeys

/-! ## The invariant -/

variable (cfg) in
/-- A passage of the current epoch is for an occupied slot. -/
structure Holds (σ : Arrivals) (p : Passage) : Prop where
  inRange : p.slot < cfg.slots
  past : p.epoch ≤ σ.epoch p.slot
  occupied : p.epoch = σ.epoch p.slot → σ.table.states p.slot ≠ .inactive

/-- One that was routed to the active batch is for an active slot. -/
structure Joined (σ : Arrivals) (p : Passage) : Prop where
  past : p.epoch ≤ σ.epoch p.slot
  active : p.epoch = σ.epoch p.slot → σ.table.states p.slot = .active

/-- A decrement of the current epoch carries the generation of the slot, whose bump is behind. -/
structure Tagged (σ : Arrivals) (d : Decrement) : Prop where
  joined : Joined σ d.toPassage
  bumped : d.epoch = σ.epoch d.slot → d.slot ∉ σ.window
  gen : d.epoch = σ.epoch d.slot → d.gen = (σ.table.generation d.slot).toUInt32

variable (cfg) in
/-- What one thread holds. -/
structure PhaseHolds (σ : Arrivals) (l : AdmissionPhase) : Prop where
  routing : ∀ p, l.routing = some p → Holds cfg σ p
  batch : ∀ p ∈ l.batch, Joined σ p
  stamp : ∀ d, l.stamp = some d → Tagged σ d

/-- Bumps that are due, one entry for each thread. -/
def due (ls : List AdmissionPhase) : List ℕ := ls.filterMap AdmissionPhase.opening

variable (cfg) in
structure ArrivalInv (σ : Arrivals) (ls : List AdmissionPhase) : Prop where
  coherent : Coherent cfg σ.table
  indexed : Indexed cfg σ.table
  phases : ∀ l ∈ ls, PhaseHolds cfg σ l
  applied : ∀ d ∈ σ.applied, Tagged σ d
  inOrder : σ.applied.Pairwise fun d d' => d'.slot = d.slot → d'.epoch ≤ d.epoch
  opened : ∀ s, (due ls).count s ≤ σ.window.count s

/-- What a step leaves to the threads within an epoch: an occupied slot stays occupied and an active
one active, and no generation moves but in a window, which does not open on an active slot. -/
structure Leaves (σ σ' : Arrivals) : Prop where
  epoch : ∀ s, σ.epoch s ≤ σ'.epoch s
  occupied : ∀ s, σ'.epoch s = σ.epoch s → σ.table.states s ≠ .inactive →
    σ'.table.states s ≠ .inactive
  active : ∀ s, σ'.epoch s = σ.epoch s → σ.table.states s = .active →
    σ'.table.states s = .active
  window : ∀ s, σ'.epoch s = σ.epoch s → σ.table.states s = .active → s ∉ σ.window →
    s ∉ σ'.window
  generation : ∀ s, σ'.epoch s = σ.epoch s → s ∉ σ.window →
    σ'.table.generation s = σ.table.generation s

namespace Leaves

variable {σ σ' : Arrivals}

theorem holds (h : Leaves σ σ') {p : Passage} (hp : Holds cfg σ p) : Holds cfg σ' p where
  inRange := hp.inRange
  past := hp.past.trans (h.epoch p.slot)
  occupied := fun heq => by
    have hsame : σ'.epoch p.slot = σ.epoch p.slot := by
      have hpast := hp.past
      have hgrow := h.epoch p.slot
      omega
    exact h.occupied p.slot hsame (hp.occupied (heq.trans hsame))

theorem joined (h : Leaves σ σ') {p : Passage} (hp : Joined σ p) : Joined σ' p where
  past := hp.past.trans (h.epoch p.slot)
  active := fun heq => by
    have hsame : σ'.epoch p.slot = σ.epoch p.slot := by
      have hpast := hp.past
      have hgrow := h.epoch p.slot
      omega
    exact h.active p.slot hsame (hp.active (heq.trans hsame))

theorem tagged (h : Leaves σ σ') {d : Decrement} (hd : Tagged σ d) : Tagged σ' d := by
  have hsame : d.epoch = σ'.epoch d.slot → σ'.epoch d.slot = σ.epoch d.slot := by
    intro heq
    have hpast := hd.joined.past
    have hgrow := h.epoch d.slot
    omega
  refine ⟨h.joined hd.joined, fun heq => ?_, fun heq => ?_⟩
  · have hbefore := heq.trans (hsame heq)
    exact h.window d.slot (hsame heq) (hd.joined.active hbefore) (hd.bumped hbefore)
  · have hbefore := heq.trans (hsame heq)
    rw [h.generation d.slot (hsame heq) (hd.bumped hbefore)]
    exact hd.gen hbefore

theorem phaseHolds (h : Leaves σ σ') {l : AdmissionPhase} (hl : PhaseHolds cfg σ l) :
    PhaseHolds cfg σ' l where
  routing := fun p hp => h.holds (hl.routing p hp)
  batch := fun p hp => h.joined (hl.batch p hp)
  stamp := fun d hd => h.tagged (hl.stamp d hd)

theorem refl (σ : Arrivals) : Leaves σ σ where
  epoch := fun _ => le_rfl
  occupied := fun _ _ h => h
  active := fun _ _ h => h
  window := fun _ _ _ h => h
  generation := fun _ _ _ => rfl

end Leaves

section Steps

variable {σ σ' : Arrivals} {l l' : AdmissionPhase} {others : List AdmissionPhase}

theorem due_cons (l : AdmissionPhase) (others : List AdmissionPhase) (s : ℕ) :
    (due (l :: others)).count s = l.opening.toList.count s + (due others).count s := by
  cases hopening : l.opening with
  | none => simp [due, hopening]
  | some slot => simp [due, hopening, List.count_cons, Nat.add_comm]

theorem ArrivalInv.perm {ls ls' : List AdmissionPhase} (h : ArrivalInv cfg σ ls)
    (hp : ls.Perm ls') : ArrivalInv cfg σ ls' where
  coherent := h.coherent
  indexed := h.indexed
  phases := fun l hl => h.phases l (hp.mem_iff.mpr hl)
  applied := h.applied
  inOrder := h.inOrder
  opened := fun s => (hp.filterMap _).count_eq s ▸ h.opened s

/-- A step of one thread. -/
theorem ArrivalInv.step (h : ArrivalInv cfg σ (l :: others)) (hleaves : Leaves σ σ')
    (hcoherent : Coherent cfg σ'.table) (hindexed : Indexed cfg σ'.table)
    (hl' : PhaseHolds cfg σ' l') (happlied : σ'.applied = σ.applied)
    (hopened : ∀ s, l'.opening.toList.count s + σ.window.count s ≤
      l.opening.toList.count s + σ'.window.count s) : ArrivalInv cfg σ' (l' :: others) where
  coherent := hcoherent
  indexed := hindexed
  phases := by
    intro m hm
    rcases List.mem_cons.mp hm with rfl | hm
    · exact hl'
    · exact hleaves.phaseHolds (h.phases m (List.mem_cons_of_mem _ hm))
  applied := by
    rw [happlied]
    exact fun d hd => hleaves.tagged (h.applied d hd)
  inOrder := happlied ▸ h.inOrder
  opened := by
    intro s
    have hbefore := h.opened s
    have hstep := hopened s
    rw [due_cons] at hbefore ⊢
    omega

/-- A step that leaves the shared state alone. -/
theorem ArrivalInv.still (h : ArrivalInv cfg σ (l :: others)) (hl' : PhaseHolds cfg σ l')
    (hopening : l'.opening = l.opening) : ArrivalInv cfg σ (l' :: others) :=
  h.step (.refl σ) h.coherent h.indexed hl' rfl (fun s => by rw [hopening])

theorem PhaseHolds.join (hl : PhaseHolds cfg σ l) {p : Passage} (hrouting : l.routing = some p)
    (hactive : p.epoch = σ.epoch p.slot → σ.table.states p.slot = .active) :
    PhaseHolds cfg σ l.join where
  routing := fun _ h => (nomatch h)
  batch := by
    intro q hq
    simp only [AdmissionPhase.join, hrouting, Option.toList_some] at hq
    rcases List.mem_append.mp hq with hq | hq
    · exact hl.batch q hq
    · obtain rfl := List.mem_singleton.mp hq
      exact ⟨(hl.routing q hrouting).past, hactive⟩
  stamp := hl.stamp

theorem leaves_assign (hindexed : Indexed cfg σ.table) (frame : ℕ) :
    Leaves σ (σ.assignUnderLock cfg frame).2 := by
  unfold Arrivals.assignUnderLock
  rcases assignUnderLock_cases hindexed frame with
    heq | ⟨slot, hslot, heq⟩ | ⟨slot, mode, newly, d', heq, hocc, hgen⟩
  · rw [heq]
    exact .refl σ
  · rw [heq]
    exact .refl σ
  · rw [heq]
    have hother : ∀ s, σ.table.states s ≠ .inactive → s ≠ slot := fun s hs hss =>
      hs (hss ▸ hocc.free)
    have hsame : ∀ s, σ.table.states s ≠ .inactive → d'.states s = σ.table.states s :=
      fun s hs => by rw [hocc.states, Function.update_of_ne (hother s hs)]
    refine ⟨fun _ => le_rfl, fun s _ hs => ?_, fun s _ hs => ?_, fun s _ hs hout => ?_,
      fun s _ _ => by simp only [hgen]⟩
    · simp only [hsame s hs]
      exact hs
    · have hbusy : σ.table.states s ≠ .inactive := by rw [hs]; decide
      simp only [hsame s hbusy]
      exact hs
    · have hbusy : σ.table.states s ≠ .inactive := by rw [hs]; decide
      simp only
      split
      · exact fun hin => (List.mem_cons.mp hin).elim (hother s hbusy) hout
      · exact hout

theorem leaves_release (hcoherent : Coherent cfg σ.table) (slot : Fin cfg.slots) :
    Leaves σ (σ.releaseUnderLock cfg slot).2 := by
  obtain ⟨hgen, hcases⟩ := releaseUnderLock_cases hcoherent slot.isLt
  have hepoch : ∀ s, Function.update σ.epoch slot (σ.epoch slot + 1) s = σ.epoch s → s ≠ slot := by
    intro s hs hss
    rw [hss, Function.update_self] at hs
    omega
  have hgrow : ∀ s, σ.epoch s ≤ Function.update σ.epoch slot (σ.epoch slot + 1) s := by
    intro s
    by_cases hss : s = slot
    · rw [hss, Function.update_self]
      omega
    · rw [Function.update_of_ne hss]
  unfold Arrivals.releaseUnderLock
  rcases hcases with ⟨d', heq, hvac⟩ | ⟨next, d', heq, hprom⟩
  · rw [heq] at hgen ⊢
    have hsame : ∀ s : ℕ, s ≠ slot → d'.states s = σ.table.states s := fun s hs => by
      rw [hvac.states, Function.update_of_ne hs]
    exact ⟨hgrow, fun s he hs => hsame s (hepoch s he) ▸ hs,
      fun s he hs => (hsame s (hepoch s he)).trans hs, fun s _ _ hout => hout,
      fun s _ _ => congrFun hgen s⟩
  · rw [heq] at hgen ⊢
    refine ⟨hgrow, fun s he hs => ?_, fun s he hs => ?_, fun s _ hs hout hin => ?_,
      fun s _ _ => congrFun hgen s⟩
    · simp only [hprom.states]
      by_cases hsn : s = next
      · rw [hsn, Function.update_self]
        decide
      · rw [Function.update_of_ne hsn, Function.update_of_ne (hepoch s he)]
        exact hs
    · simp only [hprom.states]
      by_cases hsn : s = next
      · rw [hsn, Function.update_self]
      · rw [Function.update_of_ne hsn, Function.update_of_ne (hepoch s he)]
        exact hs
    · rcases List.mem_cons.mp hin with hsn | hin
      · rw [hsn, hprom.waiting] at hs
        cases hs
      · exact hout hin

/-- Generations move for slots in a window and for slots whose epoch ends. -/
theorem leaves_bump {slot : ℕ} (hopen : slot ∈ σ.window) : Leaves σ (σ.bump slot) where
  epoch := fun _ => le_rfl
  occupied := fun _ _ h => h
  active := fun _ _ h => h
  window := fun s _ _ hout hin => hout (List.mem_of_mem_erase hin)
  generation := by
    intro s _ hout
    have hne : s ≠ slot := fun hs => hout (hs ▸ hopen)
    simp [Arrivals.bump, SlotData.bumpSlotGeneration, Function.update_of_ne hne]

theorem leaves_reset (slot : ℕ) : Leaves σ (σ.reset slot) := by
  have hepoch : ∀ s, (σ.reset slot).epoch s = σ.epoch s → s ≠ slot := by
    intro s hs hss
    rw [hss] at hs
    simp [Arrivals.reset, Arrivals.endEpoch] at hs
  refine ⟨fun s => ?_, fun _ _ h => h, fun _ _ h => h, fun _ _ _ h => h, fun s hs _ => ?_⟩
  · by_cases hss : s = slot
    · simp [Arrivals.reset, Arrivals.endEpoch, hss]
    · simp [Arrivals.reset, Arrivals.endEpoch, Function.update_of_ne hss]
  · simp [Arrivals.reset, SlotData.bumpSlotGeneration, Function.update_of_ne (hepoch s hs)]

theorem ArrivalInv.lookup (h : ArrivalInv cfg σ (l :: others)) (frame : ℕ) :
    ArrivalInv cfg σ
      ({ l with routing := (σ.table.frameSlotLookup cfg frame).map σ.passage } :: others) := by
  have hl := h.phases l List.mem_cons_self
  refine h.still ⟨fun p hp => ?_, hl.batch, hl.stamp⟩ rfl
  obtain ⟨slot, hhit, rfl⟩ := Option.map_eq_some_iff.mp hp
  obtain ⟨e, he, -, rfl⟩ := h.indexed.sound.lookup hhit
  have hlt := h.coherent.inRange e he
  exact ⟨hlt, le_rfl, fun _ hfree =>
    (h.coherent.inactive_iff e.2 hlt).mp hfree (List.mem_map_of_mem he)⟩

/-- The critical section of an assignment, with its bump still due when a slot was activated. -/
theorem ArrivalInv.assign (h : ArrivalInv cfg σ (l :: others)) (frame : ℕ) :
    ArrivalInv cfg (σ.assignUnderLock cfg frame).2
      ((admissionDiscipline cfg).next l (.assignUnderLock frame)
        (σ.assignUnderLock cfg frame).1 :: others) := by
  have hl := h.phases l List.mem_cons_self
  have hleaves := leaves_assign h.indexed frame
  have hcoherent := h.coherent.assignUnderLock frame
  have hindexed := h.indexed.assignUnderLock frame
  have hkept := hleaves.phaseHolds hl
  unfold Arrivals.assignUnderLock at hleaves hkept ⊢
  rcases assignUnderLock_cases h.indexed frame with
    heq | ⟨slot, hslot, heq⟩ | ⟨slot, mode, newly, d', heq, hocc, -⟩
  · rw [heq] at hleaves hkept hcoherent hindexed ⊢
    refine h.step hleaves hcoherent hindexed ⟨fun _ hp => (nomatch hp), hkept.batch, hkept.stamp⟩
      rfl fun s => ?_
    simp [admissionDiscipline]
  · rw [heq] at hleaves hkept hcoherent hindexed ⊢
    obtain ⟨e, he, rfl⟩ := List.mem_map.mp hslot
    have hlt := h.coherent.inRange e he
    refine h.step hleaves hcoherent hindexed ⟨fun p hp => ?_, hkept.batch, hkept.stamp⟩
      rfl fun s => ?_
    · obtain rfl := Option.some.inj hp
      exact ⟨hlt, le_rfl, fun _ hfree => (h.coherent.inactive_iff e.2 hlt).mp hfree hslot⟩
    · simp [admissionDiscipline]
  · rw [heq] at hleaves hkept hcoherent hindexed ⊢
    refine h.step hleaves hcoherent hindexed ⟨fun p hp => ?_, hkept.batch, hkept.stamp⟩
      rfl fun s => ?_
    · obtain rfl := Option.some.inj hp
      refine ⟨hocc.inRange, le_rfl, fun _ => ?_⟩
      simp only [Arrivals.passage, hocc.states, Function.update_self]
      exact hocc.mode_ne
    · cases newly with
      | true => simp [admissionDiscipline, Arrivals.passage, List.count_cons]; omega
      | false => simp [admissionDiscipline]

/-- The critical section of a release; the packets that it takes are for the promoted slot. -/
theorem ArrivalInv.release (h : ArrivalInv cfg σ (l :: others)) (slot : Fin cfg.slots) :
    ArrivalInv cfg (σ.releaseUnderLock cfg slot).2
      ((admissionDiscipline cfg).next l (.releaseUnderLock slot)
        (σ.releaseUnderLock cfg slot).1 :: others) := by
  have hl := h.phases l List.mem_cons_self
  have hleaves := leaves_release h.coherent slot
  have hcoherent := h.coherent.releaseUnderLock slot.isLt
  have hindexed := h.indexed.releaseUnderLock slot
  have hkept := hleaves.phaseHolds hl
  unfold Arrivals.releaseUnderLock at hleaves hkept ⊢
  rcases (releaseUnderLock_cases h.coherent slot.isLt).2 with
    ⟨d', heq, hvac⟩ | ⟨next, d', heq, hprom⟩
  · rw [heq] at hleaves hkept hcoherent hindexed ⊢
    exact h.step hleaves hcoherent hindexed hkept rfl fun _ => le_rfl
  · rw [heq] at hleaves hkept hcoherent hindexed ⊢
    refine h.step hleaves hcoherent hindexed ⟨hkept.routing, fun p hp => ?_, hkept.stamp⟩
      rfl fun s => ?_
    · rcases List.mem_append.mp hp with hp | hp
      · exact hkept.batch p hp
      · obtain ⟨-, -, rfl⟩ := List.mem_map.mp hp
        refine ⟨le_rfl, fun _ => ?_⟩
        simp [Arrivals.passage, hprom.states]
    · simp [admissionDiscipline, Arrivals.passage, List.count_cons]
      omega

/-- A decrement for a frame that still holds its slot. -/
theorem ArrivalInv.decrement (h : ArrivalInv cfg σ (l :: others)) {d : Decrement}
    (hstamp : l.stamp = some d) (hepoch : d.epoch = σ.epoch d.slot) :
    ArrivalInv cfg { σ with applied := d :: σ.applied } ({ l with stamp := none } :: others) := by
  have hleaves : Leaves σ { σ with applied := d :: σ.applied } :=
    ⟨fun _ => le_rfl, fun _ _ h => h, fun _ _ h => h, fun _ _ _ h => h, fun _ _ _ => rfl⟩
  have hl := hleaves.phaseHolds (h.phases l List.mem_cons_self)
  refine ⟨h.coherent, h.indexed, ?_, ?_, List.pairwise_cons.mpr ⟨?_, h.inOrder⟩, fun s => ?_⟩
  · intro m hm
    rcases List.mem_cons.mp hm with rfl | hm
    · exact ⟨hl.routing, hl.batch, fun _ hd => (nomatch hd)⟩
    · exact hleaves.phaseHolds (h.phases m (List.mem_cons_of_mem _ hm))
  · intro d' hd'
    rcases List.mem_cons.mp hd' with rfl | hd'
    · exact hl.stamp d' hstamp
    · exact hleaves.tagged (h.applied d' hd')
  · intro d' hd' hslot
    have hpast := (h.applied d' hd').joined.past
    rwa [hslot, ← hepoch] at hpast
  · have hopened := h.opened s
    rw [due_cons] at hopened ⊢
    exact hopened

theorem ArrivalInv.opening_mem (h : ArrivalInv cfg σ (l :: others)) {slot : ℕ}
    (hopening : l.opening = some slot) : slot ∈ σ.window := by
  have hdue := h.opened slot
  rw [due_cons, hopening] at hdue
  apply List.count_pos_iff.mp
  simp at hdue
  omega

/-- What any permitted step leaves. -/
theorem ArrivalInv.leaves (h : ArrivalInv cfg σ (l :: others)) {a : AdmissionAct cfg}
    (hpermits : (admissionDiscipline cfg).permits l a) : Leaves σ (σ.perform a).2 := by
  cases a with
  | assignUnderLock frame => exact leaves_assign h.indexed frame
  | bump slot => exact leaves_bump (h.opening_mem hpermits)
  | buffer slot index =>
    simp only [Arrivals.perform, Arrivals.buffer]
    split
    · exact .refl σ
    · exact ⟨fun _ => le_rfl, fun _ _ h => h, fun _ _ h => h, fun _ _ _ h => h, fun _ _ _ => rfl⟩
  | decrement d =>
    exact ⟨fun _ => le_rfl, fun _ _ h => h, fun _ _ h => h, fun _ _ _ h => h, fun _ _ _ => rfl⟩
  | reset slot => exact leaves_reset slot
  | releaseUnderLock slot => exact leaves_release h.coherent slot
  | lookup frame => exact .refl σ
  | isActive slot => exact .refl σ
  | loadGeneration p => exact .refl σ

end Steps

/-! ## The counter of a slot -/

section Counter

variable {deps : UInt32} {slot epoch : ℕ} {gen : UInt32}

/-- The decrements for the frame that has the slot in this epoch. -/
def countedIn (slot epoch : ℕ) (applied : List Decrement) : ℕ :=
  applied.countP fun d => d.slot = slot ∧ d.epoch = epoch

theorem counterWord_le_deps (applied : List Decrement) (gen : UInt32) :
    (genRead gen deps (counterWord deps slot applied)).toNat ≤ deps.toNat := by
  induction applied generalizing gen with
  | nil =>
    simp only [counterWord, genRead, genUnpackVal_genPack]
    split <;> exact le_rfl
  | cons d applied ih =>
    simp only [counterWord]
    split
    · by_cases hgen : d.gen = gen
      · subst hgen
        rw [genRead_genPack, saturatingSub_toNat]
        exact (Nat.sub_le _ _).trans (ih d.gen)
      · simp [genRead, hgen]
    · exact ih gen

/-- Decrements in the order of their epochs, those of the present epoch under one generation, are all
in the word that is read at this generation. -/
theorem counterWord_le {applied : List Decrement}
    (hgen : ∀ d ∈ applied, d.slot = slot → d.epoch = epoch → d.gen = gen)
    (hpast : ∀ d ∈ applied, d.slot = slot → d.epoch ≤ epoch)
    (horder : applied.Pairwise fun d d' => d'.slot = d.slot → d'.epoch ≤ d.epoch) :
    (genRead gen deps (counterWord deps slot applied)).toNat ≤
      deps.toNat - countedIn slot epoch applied := by
  induction applied with
  | nil => exact counterWord_le_deps [] gen
  | cons d applied ih =>
    obtain ⟨hbefore, horder⟩ := List.pairwise_cons.mp horder
    have htail := ih (fun d' hd' => hgen d' (List.mem_cons_of_mem _ hd'))
      (fun d' hd' => hpast d' (List.mem_cons_of_mem _ hd')) horder
    by_cases hslot : d.slot = slot
    · by_cases hepoch : d.epoch = epoch
      · obtain rfl := hgen d List.mem_cons_self hslot hepoch
        have hcount : countedIn slot epoch (d :: applied) = countedIn slot epoch applied + 1 :=
          List.countP_cons_of_pos (by simp [hslot, hepoch])
        simp only [counterWord, if_pos hslot, genRead_genPack, saturatingSub_toNat, hcount]
        have hone : (1 : UInt32).toNat = 1 := rfl
        omega
      · -- the newest decrement is of an earlier frame, so none of the present one was applied
        have hnone : countedIn slot epoch (d :: applied) = 0 := by
          rw [countedIn, List.countP_eq_zero]
          intro d' hd' hcounted
          obtain ⟨hslot', hepoch'⟩ : d'.slot = slot ∧ d'.epoch = epoch := by simpa using hcounted
          have hle := hpast d List.mem_cons_self hslot
          rcases List.mem_cons.mp hd' with rfl | hd'
          · exact hepoch hepoch'
          · have hlater := hbefore d' hd' (hslot'.trans hslot.symm)
            omega
        rw [hnone]
        exact counterWord_le_deps (d :: applied) gen
    · have hcount : countedIn slot epoch (d :: applied) = countedIn slot epoch applied :=
        List.countP_cons_of_neg (by simp [hslot])
      rw [hcount, counterWord, if_neg hslot]
      exact htail

end Counter

/-! ## Runs -/

/-- No packet reads the generation of a slot that is published or promoted and not yet bumped, and
none is counted for a frame that has lost its slot since. -/
def Steady (σ : Arrivals) (_ : ℕ) : AdmissionAct cfg → Prop
  | .loadGeneration p => p.slot ∉ σ.window
  | .decrement d => d.epoch = σ.epoch d.slot
  | _ => True

/-- Whatever the counter of a slot starts at, its reading counts every decrement that was applied for
the frame in the slot. -/
def NothingDiscarded (σ : Arrivals) : Prop :=
  ∀ (deps : UInt32) (slot : ℕ),
    (genRead (σ.table.generation slot).toUInt32 deps (counterWord deps slot σ.applied)).toNat ≤
      deps.toNat - countedIn slot (σ.epoch slot) σ.applied

/-- An active slot with its bump behind it keeps its generation as long as its epoch lasts. -/
def GenerationStable (σ σ' : Arrivals) : Prop :=
  ∀ s, σ.table.states s = .active → s ∉ σ.window → σ'.epoch s = σ.epoch s →
    σ'.table.generation s = σ.table.generation s

theorem ArrivalInv.nothingDiscarded {σ : Arrivals} {ls : List AdmissionPhase}
    (h : ArrivalInv cfg σ ls) : NothingDiscarded σ := by
  intro deps slot
  refine counterWord_le (fun d hd hslot hepoch => ?_) (fun d hd hslot => ?_) h.inOrder
  · subst hslot
    exact (h.applied d hd).gen hepoch
  · subst hslot
    exact (h.applied d hd).joined.past

/-- What holds of a state since an earlier one, in the form that a step keeps. -/
structure Since (σ σ' : Arrivals) : Prop where
  epoch : ∀ s, σ.epoch s ≤ σ'.epoch s
  settled : ∀ s, σ.table.states s = .active → s ∉ σ.window → σ'.epoch s = σ.epoch s →
    σ'.table.states s = .active ∧ s ∉ σ'.window
  stable : GenerationStable σ σ'

theorem Since.refl (σ : Arrivals) : Since σ σ :=
  ⟨fun _ => le_rfl, fun _ hactive hout _ => ⟨hactive, hout⟩, fun _ _ _ _ => rfl⟩

theorem Since.step {σ σ' σ'' : Arrivals} (h : Since σ σ') (hleaves : Leaves σ' σ'') :
    Since σ σ'' := by
  have hsame : ∀ s, σ''.epoch s = σ.epoch s →
      σ'.epoch s = σ.epoch s ∧ σ''.epoch s = σ'.epoch s := by
    intro s hs
    have hfirst := h.epoch s
    have hsecond := hleaves.epoch s
    omega
  refine ⟨fun s => (h.epoch s).trans (hleaves.epoch s), fun s hactive hout hs => ?_,
    fun s hactive hout hs => ?_⟩
  · obtain ⟨hactive', hout'⟩ := h.settled s hactive hout (hsame s hs).1
    exact ⟨hleaves.active s (hsame s hs).2 hactive',
      hleaves.window s (hsame s hs).2 hactive' hout'⟩
  · obtain ⟨-, hout'⟩ := h.settled s hactive hout (hsame s hs).1
    rw [hleaves.generation s (hsame s hs).2 hout']
    exact h.stable s hactive hout (hsame s hs).1

theorem arrivalInv_initial (cfg : SlotConfig) (threads : ℕ) :
    ArrivalInv cfg .initial (List.replicate threads .idle) where
  coherent := coherent_initial cfg
  indexed := indexed_initial cfg
  phases := by
    intro l hl
    rw [List.eq_of_mem_replicate hl]
    exact ⟨fun _ h => (nomatch h), fun _ h => (nomatch h), fun _ h => (nomatch h)⟩
  applied := fun _ h => (nomatch h)
  inOrder := .nil
  opened := by
    intro s
    have hnone : due (List.replicate threads AdmissionPhase.idle) = [] := by
      rw [due, List.filterMap_eq_nil_iff]
      intro l hl
      rw [List.eq_of_mem_replicate hl]
      rfl
    simp [hnone]

theorem admission_maintains (cfg : SlotConfig) :
    Machine.Maintains (admissionMachine cfg) Steady (admissionDiscipline cfg) .idle
      AdmissionPhase.Rests (ArrivalInv cfg) where
  jobs
    | .prepare frames => prepareFrames_obeys frames none
    | .packets packets => admitPackets_obeys packets []
    | .release slot => releaseSlot_obeys slot
  forget := by
    intro σ pre post l hl h
    obtain ⟨routing, rfl⟩ := hl
    refine ArrivalInv.perm ?_ List.perm_middle.symm
    have hfront := h.perm List.perm_middle
    exact hfront.still ⟨fun _ hp => (nomatch hp), fun _ hp => (nomatch hp), fun _ hd => (nomatch hd)⟩
      rfl
  step := by
    intro σ pre post l choice a h hpermits hok
    refine ⟨trivial, ?_⟩
    have hfront := h.perm List.perm_middle
    have hl := hfront.phases l List.mem_cons_self
    refine ArrivalInv.perm ?_ List.perm_middle.symm
    cases a with
    | lookup frame => exact hfront.lookup frame
    | assignUnderLock frame => exact hfront.assign frame
    | bump slot =>
      have hopening : l.opening = some slot := hpermits
      have hin := hfront.opening_mem hopening
      have hleaves := leaves_bump hin
      have hkept := hleaves.phaseHolds hl
      refine hfront.step hleaves (hfront.coherent.bump slot)
        ⟨hfront.indexed.sound, hfront.indexed.lastInRange⟩
        ⟨hkept.routing, hkept.batch, hkept.stamp⟩ rfl fun s => ?_
      have herase : (σ.window.erase slot).count s =
          σ.window.count s - if slot == s then 1 else 0 := List.count_erase
      simp only [admissionMachine, Arrivals.perform, Arrivals.bump, admissionDiscipline, hopening,
        Option.toList_none, List.count_nil, Option.toList_some, List.count_singleton, herase]
      omega
    | isActive slot =>
      obtain ⟨p, hrouting, rfl⟩ := hpermits
      have hp := hl.routing p hrouting
      simp only [admissionMachine, Arrivals.perform, admissionDiscipline]
      split
      · next hbit =>
        exact hfront.still (hl.join hrouting fun _ =>
          (hfront.coherent.bitmap p.slot hp.inRange).mp hbit) rfl
      · exact hfront.still hl rfl
    | buffer slot index =>
      obtain ⟨p, hrouting, rfl⟩ := hpermits
      have hp := hl.routing p hrouting
      simp only [admissionMachine, Arrivals.perform, Arrivals.buffer, admissionDiscipline]
      by_cases hbit : wordHas σ.table.activeBitmap p.slot = true
      · simp only [hbit, if_true, Bool.false_eq_true, if_false]
        exact hfront.still (hl.join hrouting fun _ =>
          (hfront.coherent.bitmap p.slot hp.inRange).mp hbit) rfl
      · simp only [hbit, Bool.false_eq_true, if_false, if_true]
        refine hfront.step ⟨fun _ => le_rfl, fun _ _ h => h, fun _ _ h => h, fun _ _ _ h => h,
          fun _ _ _ => rfl⟩ ⟨hfront.coherent.inRange, hfront.coherent.lastInRange,
          hfront.coherent.inactive_iff, hfront.coherent.distinct, hfront.coherent.bitmap,
          hfront.coherent.frameOf, hfront.coherent.noFrame⟩
          ⟨hfront.indexed.sound, hfront.indexed.lastInRange⟩ ?_ rfl
          fun _ => le_rfl
        exact ⟨fun _ h => (nomatch h), fun q hq => ⟨(hl.batch q hq).past, (hl.batch q hq).active⟩,
          fun d hd => ⟨⟨(hl.stamp d hd).joined.past, (hl.stamp d hd).joined.active⟩,
            (hl.stamp d hd).bumped, (hl.stamp d hd).gen⟩⟩
    | loadGeneration p =>
      have hp := hl.batch p hpermits
      refine hfront.still ⟨hl.routing, fun q hq => hl.batch q (List.mem_of_mem_erase hq),
        fun d hd => ?_⟩ rfl
      obtain rfl := Option.some.inj hd
      exact ⟨hp, fun _ => hok, fun _ => rfl⟩
    | decrement d => exact hfront.decrement hpermits hok
    | reset slot =>
      have hleaves := leaves_reset (σ := σ) slot
      exact hfront.step hleaves (hfront.coherent.bump slot)
        ⟨hfront.indexed.sound, hfront.indexed.lastInRange⟩ (hleaves.phaseHolds hl)
        rfl fun _ => le_rfl
    | releaseUnderLock slot => exact hfront.release slot

/-- When no packet reads the generation between publication or promotion and the bump, and none is
counted for a frame that lost its slot, no decrement is discarded, and the generation of a slot
moves no more until its frame is completed or released. -/
theorem generation_stable_outside_windows (cfg : SlotConfig) (threads : ℕ)
    (w w' : World (admissionSteps cfg) Arrivals)
    (hrun : (admissionMachine cfg).Reaches Steady (admissionWorld cfg threads) w)
    (hrun' : (admissionMachine cfg).Reaches Steady w w') :
    NothingDiscarded w'.shared ∧ GenerationStable w.shared w'.shared := by
  have hfollows : Machine.Follows (admissionDiscipline cfg) AdmissionPhase.Rests
      (List.replicate threads (.done ())) (List.replicate threads .idle) :=
    Machine.follows_idle AdmissionPhase.Rests ⟨none, rfl⟩ threads
  obtain ⟨ls, h, hls⟩ := (admission_maintains cfg).reached hrun (arrivalInv_initial cfg threads)
    hfollows
  have hsince := (admission_maintains cfg).and (Since w.shared)
    fun choice a h hpermits _ hs => hs.step ((h.perm List.perm_middle).leaves hpermits)
  obtain ⟨ls', ⟨h', hs⟩, -⟩ := hsince.reached hrun' ⟨h, .refl w.shared⟩ hls
  exact ⟨h'.nothingDiscarded, hs.stable⟩

instance (σ : Arrivals) (choice : ℕ) : (a : AdmissionAct cfg) → Decidable (Steady σ choice a)
  | .loadGeneration p => inferInstanceAs (Decidable (p.slot ∉ σ.window))
  | .decrement d => inferInstanceAs (Decidable (d.epoch = σ.epoch d.slot))
  | .lookup _ => .isTrue trivial
  | .assignUnderLock _ => .isTrue trivial
  | .bump _ => .isTrue trivial
  | .isActive _ => .isTrue trivial
  | .buffer _ _ => .isTrue trivial
  | .reset _ => .isTrue trivial
  | .releaseUnderLock _ => .isTrue trivial

/-- One slot of a network graph. -/
def oneSlot : SlotConfig := ⟨1, false, true, 10, by decide, by decide⟩

/-- Two packets of frame 0, one by the thread that assigns the frame and one after its bump. -/
def bumpFirst : List (Move (AdmissionJob oneSlot)) :=
  [.begin 0 (.packets [(0, 0)]), .step 0 0, .step 0 0, .step 0 0, .begin 1 (.packets [(0, 1)]),
    .step 1 0, .step 1 0, .step 1 0, .step 1 0, .step 0 0, .step 0 0, .step 0 0]

/-- Thread 1 finds the frame in the map and resolves its packet before thread 0 bumps the slot. -/
def bumpLast : List (Move (AdmissionJob oneSlot)) :=
  [.begin 0 (.packets [(0, 0)]), .step 0 0, .step 0 0, .begin 1 (.packets [(0, 1)]),
    .step 1 0, .step 1 0, .step 1 0, .step 1 0, .step 0 0]

theorem generation_stable_after_bump :
    ∃ w w', (admissionMachine oneSlot).fireAllowed Steady (bumpFirst.take 4)
        (admissionWorld oneSlot 2) = some w ∧
      (admissionMachine oneSlot).fireAllowed Steady (bumpFirst.drop 4) w = some w' ∧
      NothingDiscarded w'.shared ∧ GenerationStable w.shared w'.shared := by
  have hruns : (((admissionMachine oneSlot).fireAllowed Steady (bumpFirst.take 4)
      (admissionWorld oneSlot 2)).bind
        ((admissionMachine oneSlot).fireAllowed Steady (bumpFirst.drop 4))).isSome = true := by
    decide +kernel
  obtain ⟨w', hw'⟩ := Option.isSome_iff_exists.mp hruns
  obtain ⟨w, hw, hrest⟩ := Option.bind_eq_some_iff.mp hw'
  exact ⟨w, w', hw, hrest, generation_stable_outside_windows oneSlot 2 w w'
    (Machine.reaches_of_fireAllowed hw) (Machine.reaches_of_fireAllowed hrest)⟩

theorem late_bump_discards_packet :
    ¬ ∀ (cfg : SlotConfig) (threads : ℕ) (w : World (admissionSteps cfg) Arrivals),
      (admissionMachine cfg).Reaches (fun _ _ _ => True) (admissionWorld cfg threads) w →
        NothingDiscarded w.shared := by
  intro h
  have hruns : ((admissionMachine oneSlot).fireAllowed (fun _ _ _ => True) bumpLast
      (admissionWorld oneSlot 2)).any (fun w =>
        2 - countedIn 0 (w.shared.epoch 0) w.shared.applied <
          (genRead (w.shared.table.generation 0).toUInt32 2
            (counterWord 2 0 w.shared.applied)).toNat) = true := by
    decide +kernel
  cases hw : (admissionMachine oneSlot).fireAllowed (fun _ _ _ => True) bumpLast
      (admissionWorld oneSlot 2) with
  | none =>
    rw [hw] at hruns
    cases hruns
  | some w =>
    rw [hw] at hruns
    have hlost := h oneSlot 2 w (Machine.reaches_of_fireAllowed hw) 2 0
    have hcounted := of_decide_eq_true hruns
    exact absurd hlost (not_le_of_gt hcounted)

end Tomii.Slots
