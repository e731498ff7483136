import Mathlib.Data.List.Perm.Subperm
import Tomii.Foundations.Interleaving
import Tomii.Slots.SlotRuns

/-! # Frame numbers of a compute-only run

Resolution threads complete frames and restart their slots. A completion is counted in one
step and the slot released in a later one; a restart numbers the next frame by the count and by
the slots in use. -/
namespace Tomii.Slots
set_option autoImplicit false
set_option maxHeartbeats 250000

/-! ## The initial frames -/

section Preparation

variable {cfg : SlotConfig} {d : SlotData}

theorem mem_roundRobin_of_ne {last s : ℕ} (hlast : last < cfg.slots) (hs : s < cfg.slots)
    (hne : s ≠ last) : s ∈ SlotData.roundRobin cfg last := by
  rw [SlotData.roundRobin, List.mem_map]
  by_cases hlt : last < s
  · refine ⟨s - last, by rw [List.mem_range'_1]; omega, ?_⟩
    rw [Nat.add_sub_cancel' hlt.le, Nat.mod_eq_of_lt hs]
  · refine ⟨s + cfg.slots - last, by rw [List.mem_range'_1]; omega, ?_⟩
    rw [show last + (s + cfg.slots - last) = s + cfg.slots by omega, Nat.add_mod_right,
      Nat.mod_eq_of_lt hs]

/-- With fewer frames than slots a slot is inactive. -/
theorem Coherent.exists_inactive (h : Coherent cfg d)
    (hroom : d.runningFrames.length < cfg.slots) :
    ∃ s < cfg.slots, d.states s = .inactive := by
  by_contra hnone
  have hall : List.range cfg.slots ⊆ d.runningFrames.map Prod.snd := by
    intro s hs
    have hlt := List.mem_range.mp hs
    by_contra hout
    exact hnone ⟨s, hlt, (h.inactive_iff s hlt).mpr hout⟩
  have hle := (List.subperm_of_subset List.nodup_range hall).length_le
  rw [List.length_range, List.length_map] at hle
  omega

/-- A new frame finds a slot while there is room. -/
theorem assign_pushes (h : Coherent cfg d) (hidx : Indexed cfg d)
    (hnum : Numbered d.runningFrames) (frame : ℕ) (hframe : frame < 2 ^ 32)
    (hnew : frame ∉ d.runningFrames.map Prod.fst)
    (hroom : d.runningFrames.length < cfg.slots) :
    ∃ slot, (d.assignFrameToAvailableSlot cfg frame).2.runningFrames =
      d.runningFrames ++ [(frame, slot)] := by
  obtain ⟨free, hfree, hinactive⟩ := h.exists_inactive hroom
  have hscan : d.runningFrames.find? (fun e => e.1 = frame) = none := by
    rw [List.find?_eq_none]
    intro e he heq
    exact hnew (List.mem_map.mpr ⟨e, he, by simpa using heq⟩)
  have hmiss : d.frameSlotLookup cfg frame = none := by
    cases hhit : d.frameSlotLookup cfg frame with
    | none => rfl
    | some slot =>
      have := hidx.sound.lookup_scans hnum hframe hhit
      rw [hscan] at this
      cases this
  unfold SlotData.assignFrameToAvailableSlot SlotData.assignScanning SlotData.assignUnderLock
  rw [hmiss, hscan]
  simp only
  by_cases hlast : d.states d.lastAssigned = .inactive
  · rw [if_pos hlast]
    exact ⟨_, rfl⟩
  · rw [if_neg hlast]
    have hin : free ∈ SlotData.roundRobin cfg d.lastAssigned :=
      mem_roundRobin_of_ne h.lastInRange hfree fun heq => hlast (heq ▸ hinactive)
    obtain ⟨slot, hslot⟩ : ∃ slot, (SlotData.roundRobin cfg d.lastAssigned).find?
        (fun s => d.states s = .inactive) = some slot := by
      rw [← Option.isSome_iff_exists, List.find?_isSome]
      exact ⟨free, hin, by simpa using hinactive⟩
    rw [hslot]
    by_cases hmode : (!cfg.slotPriorityEnabled && cfg.hasNetwork) = true
    · simp only [hmode, if_true]
      exact ⟨slot, rfl⟩
    · simp only [hmode, Bool.false_eq_true, if_false]
      exact ⟨slot, rfl⟩

variable (cfg) in
/-- The frames that `perform_initial_preparation` assigns when the graph has initial nodes. -/
def activateFrames : List ℕ := if cfg.slotPriorityEnabled then [0] else List.range cfg.slots

variable (cfg) in
/-- The table after an assignment of each frame. -/
def prepared (frames : List ℕ) : SlotData :=
  frames.foldl (fun d frame => (d.assignFrameToAvailableSlot cfg frame).2) .initial

/-- The first frames take one slot each. -/
theorem prepared_range {n : ℕ} (hn : n ≤ cfg.slots) :
    Coherent cfg (prepared cfg (List.range n)) ∧ Indexed cfg (prepared cfg (List.range n)) ∧
      (prepared cfg (List.range n)).runningFrames.map Prod.fst = List.range n := by
  induction n with
  | zero => exact ⟨coherent_initial cfg, indexed_initial cfg, rfl⟩
  | succ n ih =>
    obtain ⟨hcoherent, hindexed, hframes⟩ := ih (by omega)
    have hstep : prepared cfg (List.range (n + 1)) =
        ((prepared cfg (List.range n)).assignFrameToAvailableSlot cfg n).2 := by
      rw [prepared, List.range_succ, List.foldl_append]
      rfl
    have hle := cfg.slots_le
    have hlength := congrArg List.length hframes
    rw [List.length_map, List.length_range] at hlength
    have hnum : Numbered (prepared cfg (List.range n)).runningFrames := by
      refine ⟨fun e he => ?_, by rw [hframes]; exact List.nodup_range⟩
      have hin : e.1 ∈ List.range n := hframes ▸ List.mem_map_of_mem he
      have hlt := List.mem_range.mp hin
      omega
    obtain ⟨slot, hpush⟩ := assign_pushes hcoherent hindexed hnum n (by omega)
      (by rw [hframes]; exact List.not_mem_range_self) (by omega)
    rw [hstep]
    refine ⟨hcoherent.assign n, hindexed.assign n, ?_⟩
    rw [hpush, List.map_append, hframes, List.range_succ]
    rfl

end Preparation

/-! ## Threads that complete frames -/

/-- The shared state of completion: the table and `frame_complete_counter`; the slots claimed by a
completing thread; and, to speak about runs, the slots counted complete and not yet released,
and the frame numbers handed out, in order. -/
structure FrameCount where
  table : SlotData
  completed : ℕ
  claimed : List ℕ
  counted : List ℕ
  issued : List ℕ

/-- The steps of a completion: the claim that `check_slots` wins, the count of other slots, the
`fetch_add`, the release and the restart, which are critical sections. -/
inductive CompletionAct where
  | claim (slot : ℕ)
  | countActive (slot : ℕ)
  | countCompletion (slot : ℕ)
  | release (slot : ℕ)
  | restart (slot : ℕ)

@[reducible] def CompletionAct.Reply : CompletionAct → Type
  | .claim _ => Bool
  | .countActive _ => ℕ
  | .countCompletion _ => ℕ
  | .release _ => Unit
  | .restart _ => Unit

abbrev completionSteps : Interface := ⟨CompletionAct, CompletionAct.Reply⟩

def CompletionAct.perform (a : CompletionAct) : Prog completionSteps a.Reply := .act a .done

variable (cfg : SlotConfig)

/-- A running slot can be claimed by one thread at a time, until it is released. -/
def FrameCount.perform : (a : CompletionAct) → FrameCount → a.Reply × FrameCount
  | .claim slot, σ =>
    if slot ∈ σ.table.runningFrames.map Prod.snd ∧ slot ∉ σ.claimed then
      (true, { σ with claimed := slot :: σ.claimed })
    else (false, σ)
  | .countActive slot, σ => (σ.table.currentlyActiveFrames cfg slot, σ)
  | .countCompletion slot, σ =>
    (σ.completed + 1, { σ with completed := σ.completed + 1, counted := slot :: σ.counted })
  | .release slot, σ =>
    ((), { σ with
      table := (σ.table.releaseAndActivateNext cfg slot).2
      claimed := σ.claimed.erase slot
      counted := σ.counted.erase slot })
  | .restart slot, σ =>
    ((), { σ with
      table := σ.table.restartSlotNonnetwork cfg slot σ.completed
      issued := σ.issued ++ [σ.completed + σ.table.currentlyActive cfg] })

/-- `process_slot_completion` and what follows it in `check_slots`, on a claimed slot. -/
def completeSlot (slot : ℕ) : Prog completionSteps Unit := do
  let won ← (CompletionAct.claim slot).perform
  if won then
    let others ← (CompletionAct.countActive slot).perform
    let completed ← (CompletionAct.countCompletion slot).perform
    (CompletionAct.release slot).perform
    if completed + others < cfg.maxFrames then (CompletionAct.restart slot).perform

def completionMachine : Machine completionSteps FrameCount ℕ where
  perform := fun _ a σ => FrameCount.perform cfg a σ
  program := completeSlot cfg

/-- The state after the initial preparation. -/
def FrameCount.start : FrameCount where
  table := prepared cfg (activateFrames cfg)
  completed := 0
  claimed := []
  counted := []
  issued := activateFrames cfg

/-- Threads with nothing to do yet. -/
def completionWorld (threads : ℕ) : World completionSteps FrameCount :=
  ⟨.start cfg, List.replicate threads (.done ())⟩

/-! ## The phases of a completing thread -/

inductive CompletionPhase where
  | idle
  | claimed (slot : ℕ)
  | seen (slot others : ℕ)
  | counted (slot : ℕ) (again : Bool)
  | waiting (slot : ℕ)

namespace CompletionPhase

/-- The slot a thread works on. -/
def owner : CompletionPhase → Option ℕ
  | .idle => none
  | .claimed slot => some slot
  | .seen slot _ => some slot
  | .counted slot _ => some slot
  | .waiting slot => some slot

/-- The slot a thread works on before it is released. -/
def holds : CompletionPhase → Option ℕ
  | .claimed slot => some slot
  | .seen slot _ => some slot
  | .counted slot _ => some slot
  | _ => none

theorem owner_of_holds {l : CompletionPhase} {slot : ℕ} (h : l.holds = some slot) :
    l.owner = some slot := by
  cases l with
  | idle => cases h
  | claimed s => exact h
  | seen s others => exact h
  | counted s again => exact h
  | waiting s => cases h

end CompletionPhase

/-- The order of the steps, where `can_restart` is settled by the count. -/
def completionDiscipline : Discipline completionSteps CompletionPhase where
  fails := fun _ => True
  permits
    | .idle, .claim _ => True
    | .claimed slot, .countActive slot' => slot' = slot
    | .seen slot _, .countCompletion slot' => slot' = slot
    | .counted slot _, .release slot' => slot' = slot
    | .waiting slot, .restart slot' => slot' = slot
    | _, _ => False
  knows := fun _ _ _ => True
  next := fun l a =>
    match a with
    | .claim slot => fun won => if won then .claimed slot else .idle
    | .countActive slot => fun others => .seen slot others
    | .countCompletion _ => fun completed =>
      match l with
      | .seen slot others => .counted slot (completed + others < cfg.maxFrames)
      | _ => .idle
    | .release _ => fun _ =>
      match l with
      | .counted slot again => if again then .waiting slot else .idle
      | _ => .idle
    | .restart _ => fun _ => .idle

theorem completeSlot_obeys (slot : ℕ) :
    (completeSlot cfg slot).Obeys (completionDiscipline cfg) (fun _ l => l = .idle) .idle := by
  refine ⟨trivial, fun won _ => ?_⟩
  cases won with
  | false => exact rfl
  | true =>
    refine ⟨rfl, fun others _ => ⟨rfl, fun completed _ => ⟨rfl, fun _ _ => ?_⟩⟩⟩
    by_cases hagain : completed + others < cfg.maxFrames
    · simp only [hagain, if_true]
      exact ⟨by simp [completionDiscipline, hagain], fun _ _ => rfl⟩
    · simp only [hagain, if_false]
      apply Prog.obeys_pure.mpr
      simp [completionDiscipline, hagain]

/-! ## The invariant -/

/-- With no slot counted but not released, the next number is how many frames have started. -/
structure Numbering (σ : FrameCount) (ls : List CompletionPhase) : Prop where
  coherent : Coherent cfg σ.table
  started : σ.completed + σ.table.runningFrames.length = σ.issued.length + σ.counted.length
  issued : σ.issued = List.range σ.issued.length
  running : ∀ e ∈ σ.table.runningFrames, e.1 ∈ σ.issued
  once : (σ.table.runningFrames.map Prod.fst).Nodup
  owners : (ls.filterMap CompletionPhase.owner).Nodup
  held : ∀ l ∈ ls, ∀ slot, l.holds = some slot →
    slot ∈ σ.table.runningFrames.map Prod.snd ∧ slot ∈ σ.claimed
  counted : ∀ l ∈ ls, ∀ slot again, l = .counted slot again → slot ∈ σ.counted
  waiting : ∀ l ∈ ls, ∀ slot, l = .waiting slot →
    slot < cfg.slots ∧ slot ∉ σ.table.runningFrames.map Prod.snd

variable {cfg} {σ : FrameCount} {l : CompletionPhase} {ls others : List CompletionPhase}

theorem Numbering.perm (h : Numbering cfg σ ls) {ls' : List CompletionPhase} (hp : ls.Perm ls') :
    Numbering cfg σ ls' where
  coherent := h.coherent
  started := h.started
  issued := h.issued
  running := h.running
  once := h.once
  owners := (hp.filterMap _).nodup_iff.mp h.owners
  held := fun l hl => h.held l (hp.mem_iff.mpr hl)
  counted := fun l hl => h.counted l (hp.mem_iff.mpr hl)
  waiting := fun l hl => h.waiting l (hp.mem_iff.mpr hl)

/-- No other thread works on the slot of this one. -/
theorem Numbering.other_owner (h : Numbering cfg σ (l :: others)) {slot : ℕ}
    (hl : l.owner = some slot) {l' : CompletionPhase} (hl' : l' ∈ others) :
    l'.owner ≠ some slot := by
  intro hsame
  have hnodup := h.owners
  rw [List.filterMap_cons_some hl, List.nodup_cons] at hnodup
  exact hnodup.1 (List.mem_filterMap.mpr ⟨l', hl', hsame⟩)

theorem Numbering.owners_tail (h : Numbering cfg σ (l :: others)) :
    (others.filterMap CompletionPhase.owner).Nodup :=
  h.owners.sublist ((List.sublist_cons_self l others).filterMap _)

theorem owners_cons {slot : ℕ} (hl : l.owner = some slot)
    (hothers : (others.filterMap CompletionPhase.owner).Nodup)
    (hne : ∀ l' ∈ others, l'.owner ≠ some slot) :
    ((l :: others).filterMap CompletionPhase.owner).Nodup := by
  rw [List.filterMap_cons_some hl, List.nodup_cons]
  refine ⟨fun hin => ?_, hothers⟩
  obtain ⟨l', hl', hsame⟩ := List.mem_filterMap.mp hin
  exact hne l' hl' hsame

/-- The occupied slots of a coherent table are those of the running frames. -/
theorem Coherent.currentlyActive_eq {d : SlotData} (h : Coherent cfg d) :
    d.currentlyActive cfg = d.runningFrames.length := by
  have hperm : ((List.range cfg.slots).filter
      fun s => d.states s = .active ∨ d.states s = .buffering).Perm
        (d.runningFrames.map Prod.snd) := by
    rw [List.perm_ext_iff_of_nodup (List.nodup_range.filter _) h.distinct]
    intro s
    rw [List.mem_filter, List.mem_range]
    constructor
    · intro ⟨hs, hmode⟩
      by_contra hout
      rw [(h.inactive_iff s hs).mpr hout] at hmode
      simp at hmode
    · intro hin
      obtain ⟨e, he, rfl⟩ := List.mem_map.mp hin
      have hlt := h.inRange e he
      refine ⟨hlt, ?_⟩
      have hbusy : d.states e.2 ≠ .inactive := fun hinactive =>
        (h.inactive_iff _ hlt).mp hinactive hin
      cases hmode : d.states e.2 with
      | inactive => exact absurd hmode hbusy
      | active => simp
      | buffering => simp
  rw [SlotData.currentlyActive, List.countP_eq_length_filter, hperm.length_eq, List.length_map]

/-! ## Steps -/

namespace Numbering

theorem claim (h : Numbering cfg σ (.idle :: others)) {slot : ℕ}
    (hrunning : slot ∈ σ.table.runningFrames.map Prod.snd) (hfree : slot ∉ σ.claimed) :
    Numbering cfg { σ with claimed := slot :: σ.claimed } (.claimed slot :: others) where
  coherent := h.coherent
  started := h.started
  issued := h.issued
  running := h.running
  once := h.once
  owners := by
    refine owners_cons rfl h.owners_tail fun l' hl' hsame => ?_
    -- the slot of another thread is claimed, or waits for its restart
    cases l' with
    | idle => cases hsame
    | waiting s =>
      obtain rfl := Option.some.inj hsame
      exact (h.waiting _ (List.mem_cons_of_mem _ hl') s rfl).2 hrunning
    | claimed s => exact hfree (h.held _ (List.mem_cons_of_mem _ hl') slot hsame).2
    | seen s n => exact hfree (h.held _ (List.mem_cons_of_mem _ hl') slot hsame).2
    | counted s again => exact hfree (h.held _ (List.mem_cons_of_mem _ hl') slot hsame).2
  held := by
    intro l hl s hs
    rcases List.mem_cons.mp hl with rfl | hl
    · obtain rfl := Option.some.inj hs
      exact ⟨hrunning, List.mem_cons_self⟩
    · have hbefore := h.held l (List.mem_cons_of_mem _ hl) s hs
      exact ⟨hbefore.1, List.mem_cons_of_mem _ hbefore.2⟩
  counted := by
    intro l hl s again hs
    rcases List.mem_cons.mp hl with rfl | hl
    · cases hs
    · exact h.counted l (List.mem_cons_of_mem _ hl) s again hs
  waiting := by
    intro l hl s hs
    rcases List.mem_cons.mp hl with rfl | hl
    · cases hs
    · exact h.waiting l (List.mem_cons_of_mem _ hl) s hs

/-- A thread moves on with its slot, without having counted it. -/
theorem move {slot : ℕ} (h : Numbering cfg σ (l :: others)) {l' : CompletionPhase}
    (howner : l.owner = some slot) (hholds : l.holds = some slot) (howner' : l'.owner = some slot)
    (hcounted : ∀ s again, l' = .counted s again → s ∈ σ.counted)
    (hwaiting : ∀ s, l' ≠ .waiting s) : Numbering cfg σ (l' :: others) where
  coherent := h.coherent
  started := h.started
  issued := h.issued
  running := h.running
  once := h.once
  owners := owners_cons howner' h.owners_tail fun _ hl' => h.other_owner howner hl'
  held := by
    intro m hm s hs
    rcases List.mem_cons.mp hm with rfl | hm
    · have hslot : s = slot := by
        have := CompletionPhase.owner_of_holds hs
        rw [howner', Option.some.injEq] at this
        exact this.symm
      rw [hslot]
      exact h.held l List.mem_cons_self slot hholds
    · exact h.held m (List.mem_cons_of_mem _ hm) s hs
  counted := by
    intro m hm s again hs
    rcases List.mem_cons.mp hm with rfl | hm
    · exact hcounted s again hs
    · exact h.counted m (List.mem_cons_of_mem _ hm) s again hs
  waiting := by
    intro m hm s hs
    rcases List.mem_cons.mp hm with rfl | hm
    · exact absurd hs (hwaiting s)
    · exact h.waiting m (List.mem_cons_of_mem _ hm) s hs

theorem countCompletion {slot n : ℕ} (h : Numbering cfg σ (.seen slot n :: others))
    (again : Bool) :
    Numbering cfg { σ with completed := σ.completed + 1, counted := slot :: σ.counted }
      (.counted slot again :: others) := by
  have hgrown : Numbering cfg
      { σ with completed := σ.completed + 1, counted := slot :: σ.counted }
      (.seen slot n :: others) := by
    refine ⟨h.coherent, ?_, h.issued, h.running, h.once, h.owners, h.held,
      fun l hl s b hs => List.mem_cons_of_mem _ (h.counted l hl s b hs), h.waiting⟩
    have hstarted := h.started
    simp only [List.length_cons]
    omega
  refine hgrown.move rfl rfl rfl ?_ ?_
  · intro s b hs
    obtain ⟨rfl, -⟩ := CompletionPhase.counted.inj hs
    exact List.mem_cons_self
  · intro s hs
    cases hs

theorem release {slot : ℕ} {again : Bool} (h : Numbering cfg σ (.counted slot again :: others)) :
    Numbering cfg
      { σ with
        table := (σ.table.releaseAndActivateNext cfg slot).2
        claimed := σ.claimed.erase slot
        counted := σ.counted.erase slot }
      ((if again then .waiting slot else .idle) :: others) := by
  have hrunning := (h.held _ List.mem_cons_self slot rfl).1
  have hcounted := h.counted _ List.mem_cons_self slot again rfl
  obtain ⟨e, he, heslot⟩ := List.mem_map.mp hrunning
  have hslot : slot < cfg.slots := heslot ▸ h.coherent.inRange e he
  have hframes : (σ.table.releaseAndActivateNext cfg slot).2.runningFrames =
      σ.table.runningFrames.filter fun e => e.2 ≠ slot := by
    rw [runningFrames_release, eraseP_slot slot h.coherent.distinct]
  have hkept : ∀ s, s ∈ (σ.table.releaseAndActivateNext cfg slot).2.runningFrames.map Prod.snd ↔
      s ∈ σ.table.runningFrames.map Prod.snd ∧ s ≠ slot := by
    intro s
    rw [hframes]
    constructor
    · intro hin
      obtain ⟨e', he', rfl⟩ := List.mem_map.mp hin
      obtain ⟨hin', hne⟩ := List.mem_filter.mp he'
      exact ⟨List.mem_map_of_mem hin', by simpa using hne⟩
    · intro ⟨hin, hne⟩
      obtain ⟨e', he', rfl⟩ := List.mem_map.mp hin
      exact List.mem_map_of_mem (List.mem_filter.mpr ⟨he', by simpa using hne⟩)
  have hlength : (σ.table.releaseAndActivateNext cfg slot).2.runningFrames.length + 1 =
      σ.table.runningFrames.length := by
    rw [runningFrames_release, List.length_eraseP_of_mem he (by simpa using heslot)]
    have hpos := List.length_pos_of_mem he
    omega
  have hother : ∀ l' ∈ others, ∀ s, l'.owner = some s → s ≠ slot := by
    intro l' hl' s hs hsame
    exact h.other_owner rfl hl' (hsame ▸ hs)
  have howners : (((if again then .waiting slot else .idle) :: others).filterMap
      CompletionPhase.owner).Nodup := by
    cases again with
    | true => exact owners_cons rfl h.owners_tail fun l' hl' => h.other_owner rfl hl'
    | false => exact h.owners_tail
  refine ⟨h.coherent.releaseAndActivateNext hslot, ?_, h.issued, ?_, ?_, howners, ?_, ?_, ?_⟩
  · have hstarted := h.started
    have hpos := List.length_pos_of_mem hcounted
    have herase := List.length_erase_of_mem hcounted
    simp only
    omega
  · intro e' he'
    simp only at he'
    rw [hframes] at he'
    exact h.running e' (List.mem_of_mem_filter he')
  · simp only
    rw [hframes]
    exact h.once.sublist (List.filter_sublist.map _)
  · intro m hm s hs
    rcases List.mem_cons.mp hm with rfl | hm
    · cases again <;> cases hs
    · have hbefore := h.held m (List.mem_cons_of_mem _ hm) s hs
      have hne := hother m hm s (CompletionPhase.owner_of_holds hs)
      exact ⟨(hkept s).mpr ⟨hbefore.1, hne⟩, (List.mem_erase_of_ne hne).mpr hbefore.2⟩
  · intro m hm s b hs
    rcases List.mem_cons.mp hm with rfl | hm
    · cases again <;> cases hs
    · have hne := hother m hm s (by rw [hs]; rfl)
      exact (List.mem_erase_of_ne hne).mpr (h.counted m (List.mem_cons_of_mem _ hm) s b hs)
  · intro m hm s hs
    rcases List.mem_cons.mp hm with rfl | hm
    · have hs' : s = slot := by
        cases again with
        | true => exact (CompletionPhase.waiting.inj hs).symm
        | false => cases hs
      rw [hs']
      exact ⟨hslot, fun hin => ((hkept slot).mp hin).2 rfl⟩
    · obtain ⟨hlt, hout⟩ := h.waiting m (List.mem_cons_of_mem _ hm) s hs
      exact ⟨hlt, fun hin => hout ((hkept s).mp hin).1⟩

/-- With nothing counted but unreleased, a restart hands out the number of frames started. -/
theorem restart {slot : ℕ} (h : Numbering cfg σ (.waiting slot :: others))
    (hcompute : cfg.hasNetwork = false) (hcounted : σ.counted = []) :
    Numbering cfg
      { σ with
        table := σ.table.restartSlotNonnetwork cfg slot σ.completed
        issued := σ.issued ++ [σ.completed + σ.table.currentlyActive cfg] }
      (.idle :: others) := by
  obtain ⟨hslot, hout⟩ := h.waiting _ List.mem_cons_self slot rfl
  have hstarted := h.started
  have hnumber : σ.completed + σ.table.currentlyActive cfg = σ.issued.length := by
    rw [h.coherent.currentlyActive_eq]
    rw [hcounted, List.length_nil] at hstarted
    omega
  have hfresh : σ.issued.length ∉ σ.issued := by
    rw [h.issued]
    simp
  have hframes : (σ.table.restartSlotNonnetwork cfg slot σ.completed).runningFrames =
      σ.table.runningFrames ++ [(σ.issued.length, slot)] := by
    simp [SlotData.restartSlotNonnetwork, hcompute, hnumber]
  have hcoherent := h.coherent.restart hslot σ.completed fun _ =>
    (h.coherent.inactive_iff slot hslot).mpr hout
  refine ⟨hcoherent, ?_, ?_, ?_, ?_, h.owners_tail, ?_, ?_, ?_⟩
  · simp only [hframes, List.length_append, List.length_singleton]
    omega
  · rw [hnumber, List.length_append, List.length_singleton, List.range_succ, ← h.issued]
  · intro e he
    simp only [hframes, hnumber] at he ⊢
    rcases List.mem_append.mp he with he | he
    · exact List.mem_append_left _ (h.running e he)
    · obtain rfl := List.mem_singleton.mp he
      exact List.mem_append_right _ List.mem_cons_self
  · simp only [hframes, List.map_append, List.nodup_append]
    refine ⟨h.once, by simp, ?_⟩
    intro a ha b hb
    obtain rfl : b = σ.issued.length := by simpa using hb
    obtain ⟨e, he, rfl⟩ := List.mem_map.mp ha
    intro heq
    exact hfresh (heq ▸ h.running e he)
  · intro m hm s hs
    rcases List.mem_cons.mp hm with rfl | hm
    · cases hs
    · obtain ⟨hin, hclaimed⟩ := h.held m (List.mem_cons_of_mem _ hm) s hs
      refine ⟨?_, hclaimed⟩
      simp only [hframes, List.map_append]
      exact List.mem_append_left _ hin
  · intro m hm s b hs
    rcases List.mem_cons.mp hm with rfl | hm
    · cases hs
    · exact h.counted m (List.mem_cons_of_mem _ hm) s b hs
  · intro m hm s hs
    rcases List.mem_cons.mp hm with rfl | hm
    · cases hs
    · obtain ⟨hlt, hout'⟩ := h.waiting m (List.mem_cons_of_mem _ hm) s hs
      have hne : s ≠ slot := fun hsame =>
        h.other_owner rfl hm (by rw [hs, hsame]; rfl)
      refine ⟨hlt, ?_⟩
      simp only [hframes, List.map_append, List.mem_append, not_or]
      exact ⟨hout', by simpa using hne⟩

end Numbering

/-! ## Runs -/

/-- A restart finds no slot whose completion is counted and that is not released yet. -/
def Settling (σ : FrameCount) (_ : ℕ) : CompletionAct → Prop
  | .restart _ => σ.counted = []
  | _ => True

/-- Frame numbers differ, among the running frames and over the run. -/
def DistinctNumbers (σ : FrameCount) : Prop :=
  (σ.table.runningFrames.map Prod.fst).Nodup ∧ σ.issued.Nodup

theorem numbering_start (cfg : SlotConfig) (threads : ℕ) :
    Numbering cfg (.start cfg) (List.replicate threads .idle) := by
  have hframes : ∃ n ≤ cfg.slots, activateFrames cfg = List.range n := by
    unfold activateFrames
    split
    · exact ⟨1, cfg.one_le_slots, rfl⟩
    · exact ⟨cfg.slots, le_rfl, rfl⟩
  obtain ⟨n, hn, hframes⟩ := hframes
  obtain ⟨hcoherent, -, hnumbers⟩ := prepared_range hn
  rw [← hframes] at hcoherent hnumbers
  have hidle : ∀ l ∈ List.replicate threads CompletionPhase.idle, l = .idle := fun l hl =>
    List.eq_of_mem_replicate hl
  have hlength := congrArg List.length hnumbers
  rw [List.length_map] at hlength
  refine ⟨hcoherent, ?_, ?_, ?_, ?_, ?_, ?_, ?_, ?_⟩
  · simp only [FrameCount.start, hlength, List.length_nil]
    omega
  · simp [FrameCount.start, hframes]
  · intro e he
    have hin : e.1 ∈ (prepared cfg (activateFrames cfg)).runningFrames.map Prod.fst :=
      List.mem_map_of_mem he
    rwa [hnumbers] at hin
  · have hrange : (FrameCount.start cfg).table.runningFrames.map Prod.fst = List.range n :=
      hnumbers.trans hframes
    rw [hrange]
    exact List.nodup_range
  · have hnone : (List.replicate threads CompletionPhase.idle).filterMap CompletionPhase.owner = [] := by
      rw [List.filterMap_eq_nil_iff]
      intro l hl
      rw [hidle l hl]
      rfl
    rw [hnone]
    exact .nil
  · intro l hl s hs
    rw [hidle l hl] at hs
    cases hs
  · intro l hl s b hs
    rw [hidle l hl] at hs
    cases hs
  · intro l hl s hs
    rw [hidle l hl] at hs
    cases hs

theorem completion_maintains (hcompute : cfg.hasNetwork = false) :
    Machine.Maintains (completionMachine cfg) Settling (completionDiscipline cfg) .idle
      (fun l => l = .idle) (Numbering cfg) where
  jobs := completeSlot_obeys cfg
  forget := by
    intro σ pre post l hl h
    rwa [hl] at h
  step := by
    intro σ pre post l choice a h hpermits hok
    refine ⟨trivial, ?_⟩
    have hfront := h.perm List.perm_middle
    refine Numbering.perm ?_ List.perm_middle.symm
    cases a with
    | claim slot =>
      cases l with
      | idle =>
        by_cases hwon : slot ∈ σ.table.runningFrames.map Prod.snd ∧ slot ∉ σ.claimed
        · have hclaimed := hfront.claim hwon.1 hwon.2
          simpa [completionMachine, FrameCount.perform, if_pos hwon, completionDiscipline]
            using hclaimed
        · simpa [completionMachine, FrameCount.perform, if_neg hwon, completionDiscipline]
            using hfront
      | _ => exact absurd hpermits id
    | countActive slot =>
      cases l with
      | claimed s =>
        obtain rfl : slot = s := hpermits
        exact hfront.move rfl rfl rfl (by intro s b hs; cases hs) (by intro s hs; cases hs)
      | _ => exact absurd hpermits id
    | countCompletion slot =>
      cases l with
      | seen s n =>
        obtain rfl : slot = s := hpermits
        exact hfront.countCompletion _
      | _ => exact absurd hpermits id
    | release slot =>
      cases l with
      | counted s again =>
        obtain rfl : slot = s := hpermits
        exact hfront.release
      | _ => exact absurd hpermits id
    | restart slot =>
      cases l with
      | waiting s =>
        obtain rfl : slot = s := hpermits
        exact hfront.restart hcompute hok
      | _ => exact absurd hpermits id

/-- On a compute-only graph frame numbers differ in every run in which restarts find every counted
completion released. -/
theorem frame_numbers_distinct (cfg : SlotConfig) (hcompute : cfg.hasNetwork = false)
    (threads : ℕ) (w : World completionSteps FrameCount)
    (hrun : (completionMachine cfg).Reaches Settling (completionWorld cfg threads) w) :
    DistinctNumbers w.shared := by
  have hfollows : Machine.Follows (completionDiscipline cfg) (fun l => l = .idle)
      (List.replicate threads (.done ())) (List.replicate threads .idle) :=
    Machine.follows_idle (fun l => l = CompletionPhase.idle) rfl threads
  obtain ⟨ls, h, -⟩ := (completion_maintains hcompute).reached hrun (numbering_start cfg threads)
    hfollows
  refine ⟨h.once, ?_⟩
  rw [h.issued]
  exact List.nodup_range

instance (σ : FrameCount) (choice : ℕ) : (a : CompletionAct) → Decidable (Settling σ choice a)
  | .restart _ => inferInstanceAs (Decidable (σ.counted = []))
  | .claim _ => .isTrue trivial
  | .countActive _ => .isTrue trivial
  | .countCompletion _ => .isTrue trivial
  | .release _ => .isTrue trivial

instance (σ : FrameCount) : Decidable (DistinctNumbers σ) :=
  inferInstanceAs (Decidable (_ ∧ _))

/-- Two threads complete the frames of two slots, one after the other. -/
def oneByOne : List (Move ℕ) :=
  [.begin 0 0, .step 0 0, .step 0 0, .step 0 0, .step 0 0, .step 0 0,
    .begin 1 1, .step 1 0, .step 1 0, .step 1 0, .step 1 0, .step 1 0]

theorem frame_numbers_distinct_one_by_one :
    ∃ w, (completionMachine twoSlots).fireAllowed Settling oneByOne
      (completionWorld twoSlots 2) = some w ∧ DistinctNumbers w.shared := by
  have hruns : ((completionMachine twoSlots).fireAllowed Settling oneByOne
      (completionWorld twoSlots 2)).isSome = true := by
    decide +kernel
  obtain ⟨w, hw⟩ := Option.isSome_iff_exists.mp hruns
  exact ⟨w, hw, frame_numbers_distinct twoSlots rfl 2 w (Machine.reaches_of_fireAllowed hw)⟩

/-- Both completions are counted before thread 0 restarts slot 0 with number 2 + 1; slot 1 is
released and restarted with number 2 + 1 again. -/
def overlapping : List (Move ℕ) :=
  [.begin 0 0, .step 0 0, .step 0 0, .step 0 0, .begin 1 1, .step 1 0, .step 1 0, .step 1 0,
    .step 0 0, .step 0 0, .step 1 0, .step 1 0]

theorem overlapping_completions_repeat_number :
    ¬ ∀ (cfg : SlotConfig), cfg.hasNetwork = false → ∀ (threads : ℕ)
      (w : World completionSteps FrameCount),
      (completionMachine cfg).Reaches (fun _ _ _ => True) (completionWorld cfg threads) w →
        DistinctNumbers w.shared := by
  intro h
  have hruns : ((completionMachine twoSlots).fireAllowed (fun _ _ _ => True) overlapping
      (completionWorld twoSlots 2)).any (fun w => ¬ DistinctNumbers w.shared) = true := by
    decide +kernel
  cases hw : (completionMachine twoSlots).fireAllowed (fun _ _ _ => True) overlapping
      (completionWorld twoSlots 2) with
  | none =>
    rw [hw] at hruns
    cases hruns
  | some w =>
    rw [hw] at hruns
    have hrepeated : ¬ DistinctNumbers w.shared := by simpa using hruns
    exact hrepeated (h twoSlots rfl 2 w (Machine.reaches_of_fireAllowed hw))

end Tomii.Slots
