import Tomii.Slots.PacketHands
import Tomii.Slots.SlotMoves

/-! # Frames dropped whole

An overflow of the parked packets marks a frame as dropped. No packet of it may have a slot then, and
none may be on its way to one: between the look at its drop bit and the assignment. A frame ahead of
the admission window is safe, since the window only moves forward. -/
namespace Tomii.Slots
set_option autoImplicit false
set_option maxHeartbeats 250000

/-- An overflow newly marks a frame ahead of the window, or one that never had a slot and that no
thread is about to give one; the preparation leaves dropped frames alone; of frames beyond the drop
bitmap none has packets both thrown away and admitted. -/
def DropsApart (cfg : FlowConfig) (σ : Flow) (_ : ℕ) : FlowAct → Prop
  | .park p => ∀ victim ∈ (Flow.park cfg p σ).1,
      σ.frameCompleteCounter + cfg.slots ≤ victim ∨
        victim ∉ σ.log.occupied ∧ victim ∉ σ.log.cleared
  | .assignUnderLock frame .preparation =>
    frame ∈ σ.table.runningFrames.map Prod.fst ∨
      (σ.table.assignUnderLock cfg.toSlotConfig frame).1 = none ∨ σ.frameDropped frame = false
  | .assignUnderLock frame .packet => frame < cfg.trackable ∨ ∀ q ∈ σ.log.lost, q.frame ≠ frame
  | .lookup frame .packet => frame < cfg.trackable ∨ ∀ q ∈ σ.log.lost, q.frame ≠ frame
  | .discard p => p.frame < cfg.trackable ∨ p.frame ∉ σ.log.occupied
  | _ => True

instance (cfg : FlowConfig) (σ : Flow) (choice : ℕ) (a : FlowAct) :
    Decidable (DropsApart cfg σ choice a) := by
  induction a using FlowAct.casesOn with
  | park p => exact inferInstanceAs (Decidable (∀ victim ∈ (Flow.park cfg p σ).1, _ ∨ _))
  | assignUnderLock frame site =>
    induction site using Site.casesOn with
    | packet => exact inferInstanceAs (Decidable (_ ∨ ∀ q ∈ σ.log.lost, _))
    | preparation => exact inferInstanceAs (Decidable (_ ∨ _ ∨ _))
  | lookup frame site =>
    induction site using Site.casesOn with
    | packet => exact inferInstanceAs (Decidable (_ ∨ ∀ q ∈ σ.log.lost, _))
    | preparation => exact .isTrue trivial
  | discard p => exact inferInstanceAs (Decidable (_ ∨ _))
  | _ => exact .isTrue trivial

/-! ## Frames and the window -/

/-- What a thread knows of the packet in its step. -/
def Stage.Knows (cfg : FlowConfig) (σ : Flow) : Stage → Prop
  | .cleared p => p.frame < σ.frameCompleteCounter + cfg.slots
  | .window windowEnd => windowEnd ≤ σ.frameCompleteCounter + cfg.slots
  | .starting p _ | .seated p _ => p.frame ∈ σ.log.occupied
  | .refused p => σ.frameDropped p.frame = true
  | .parking p => p.frame < cfg.trackable
  | _ => True

/-- Packets still to be admitted are inside the window. -/
def FlowPhase.Knows (cfg : FlowConfig) (σ : Flow) (l : FlowPhase) : Prop :=
  (∀ p ∈ l.todo, p.frame < σ.frameCompleteCounter + cfg.slots) ∧ l.stage.Knows cfg σ

/-- No packet of a dropped frame has a slot, or is on its way to one; no packet of a frame that has had
a slot is thrown away. -/
structure Undivided (cfg : FlowConfig) (σ : Flow) : Prop where
  dropped : ∀ frame, σ.frameDropped frame = true → cfg.hasNetwork = true ∧
    frame < cfg.trackable ∧ frame ∉ σ.log.occupied ∧ frame ∉ σ.log.cleared
  window : cfg.hasNetwork = true → ∀ frame ∈ σ.log.occupied,
    frame < σ.frameCompleteCounter + cfg.slots
  admitted : ∀ q ∈ σ.log.admitted, q.1.frame ∈ σ.log.occupied
  lost : ∀ q ∈ σ.log.lost, q.frame ∉ σ.log.occupied ∧
    (σ.frameDropped q.frame = true ∨ cfg.trackable ≤ q.frame)
  parked : ∀ p ∈ σ.pending, p.frame < cfg.trackable
  running : ∀ e ∈ σ.table.runningFrames, e.1 ∈ σ.log.occupied

section Frames

variable {cfg : FlowConfig} {σ σ' : Flow} {l : FlowPhase}

theorem FlowPhase.Knows.mono (h : l.Knows cfg σ)
    (hcounter : σ.frameCompleteCounter ≤ σ'.frameCompleteCounter)
    (hoccupied : σ.log.occupied ⊆ σ'.log.occupied)
    (hdropped : ∀ frame, σ.frameDropped frame = true → σ'.frameDropped frame = true) :
    l.Knows cfg σ' := by
  obtain ⟨todo, stage⟩ := l
  have hgrow : ∀ {n}, n < σ.frameCompleteCounter + cfg.slots →
      n < σ'.frameCompleteCounter + cfg.slots :=
    fun hn => hn.trans_le (Nat.add_le_add_right hcounter _)
  refine ⟨fun p hp => hgrow (h.1 p hp), ?_⟩
  have hstage : stage.Knows cfg σ := h.2
  show stage.Knows cfg σ'
  cases stage with
  | cleared p => exact hgrow hstage
  | window windowEnd => exact hstage.trans (Nat.add_le_add_right hcounter _)
  | starting p slot => exact hoccupied hstage
  | seated p slot => exact hoccupied hstage
  | refused p => exact hdropped p.frame hstage
  | parking p => exact hstage
  | _ => trivial

/-- A step that marks no frame, gives no slot and throws no packet away. -/
theorem Undivided.keep (h : Undivided cfg σ)
    (hcounter : σ.frameCompleteCounter ≤ σ'.frameCompleteCounter)
    (hdropped : σ'.frameDropped = σ.frameDropped) (hoccupied : σ'.log.occupied = σ.log.occupied)
    (hcleared : σ'.log.cleared ⊆ σ.log.cleared) (hadmitted : σ'.log.admitted = σ.log.admitted)
    (hlost : σ'.log.lost = σ.log.lost) (hpending : σ'.pending ⊆ σ.pending)
    (hrunning : ∀ e ∈ σ'.table.runningFrames, e ∈ σ.table.runningFrames) :
    Undivided cfg σ' where
  dropped frame hf := by
    rw [hdropped] at hf
    rw [hoccupied]
    obtain ⟨hnetwork, htrackable, hout, hclear⟩ := h.dropped frame hf
    exact ⟨hnetwork, htrackable, hout, fun hin => hclear (hcleared hin)⟩
  window hnetwork frame hf := by
    rw [hoccupied] at hf
    exact (h.window hnetwork frame hf).trans_le (Nat.add_le_add_right hcounter _)
  admitted := by
    rw [hadmitted, hoccupied]
    exact h.admitted
  lost := by
    rw [hlost, hoccupied, hdropped]
    exact h.lost
  parked p hp := h.parked p (hpending hp)
  running e he := by
    rw [hoccupied]
    exact h.running e (hrunning e he)

/-- A frame inside the window that is not dropped, and of which no packet is lost, takes a slot. -/
theorem Undivided.seat (h : Undivided cfg σ) {frame : ℕ} (hundropped : σ.frameDropped frame = false)
    (hinside : cfg.hasNetwork = true → frame < σ.frameCompleteCounter + cfg.slots)
    (hkept : ∀ q ∈ σ.log.lost, q.frame ≠ frame)
    (hcounter : σ'.frameCompleteCounter = σ.frameCompleteCounter)
    (hdropped : σ'.frameDropped = σ.frameDropped)
    (hgrows : σ.log.occupied ⊆ σ'.log.occupied)
    (hoccupied : ∀ f ∈ σ'.log.occupied, f = frame ∨ f ∈ σ.log.occupied)
    (hcleared : σ'.log.cleared ⊆ σ.log.cleared) (hadmitted : σ'.log.admitted = σ.log.admitted)
    (hlost : σ'.log.lost = σ.log.lost) (hpending : σ'.pending = σ.pending)
    (hrunning : ∀ e ∈ σ'.table.runningFrames,
      e ∈ σ.table.runningFrames ∨ e.1 ∈ σ'.log.occupied) : Undivided cfg σ' where
  dropped f hf := by
    rw [hdropped] at hf
    obtain ⟨hnetwork, htrackable, hout, hclear⟩ := h.dropped f hf
    refine ⟨hnetwork, htrackable, fun hin => ?_, fun hin => hclear (hcleared hin)⟩
    rcases hoccupied f hin with rfl | hin
    · rw [hundropped] at hf
      cases hf
    · exact hout hin
  window hnetwork f hf := by
    rw [hcounter]
    rcases hoccupied f hf with rfl | hf
    · exact hinside hnetwork
    · exact h.window hnetwork f hf
  admitted := by
    rw [hadmitted]
    exact fun q hq => hgrows (h.admitted q hq)
  lost := by
    rw [hlost, hdropped]
    refine fun q hq => ⟨fun hin => ?_, (h.lost q hq).2⟩
    rcases hoccupied q.frame hin with hsame | hin
    · exact hkept q hq hsame
    · exact (h.lost q hq).1 hin
  parked := by
    rw [hpending]
    exact h.parked
  running e he := by
    rcases hrunning e he with he | he
    · exact hgrows (h.running e he)
    · exact he

/-- Of a frame that is tracked and not dropped no packet is lost. -/
theorem Undivided.unlost (h : Undivided cfg σ) {frame : ℕ} (hundropped : σ.frameDropped frame = false)
    (hok : frame < cfg.trackable ∨ ∀ q ∈ σ.log.lost, q.frame ≠ frame) :
    ∀ q ∈ σ.log.lost, q.frame ≠ frame := by
  rcases hok with hlt | hnone
  · rintro q hq rfl
    rcases (h.lost q hq).2 with hdropped | hge
    · rw [hundropped] at hdropped
      cases hdropped
    · omega
  · exact hnone

/-- A frame that is cleared for a packet is not dropped. -/
theorem Undivided.clear (h : Undivided cfg σ) {frame : ℕ} (hin : frame ∈ σ.log.cleared) :
    σ.frameDropped frame = false :=
  Bool.eq_false_of_not_eq_true fun hdropped => (h.dropped frame hdropped).2.2.2 hin

/-- A packet is thrown away: its frame is dropped, or beyond the drop bitmap. -/
theorem Undivided.lose (h : Undivided cfg σ) {p : Packet} (hout : p.frame ∉ σ.log.occupied)
    (hwhy : σ.frameDropped p.frame = true ∨ cfg.trackable ≤ p.frame) :
    Undivided cfg { σ with log := { σ.log with lost := p :: σ.log.lost } } where
  dropped := h.dropped
  window := h.window
  admitted := h.admitted
  lost := List.forall_mem_cons.mpr ⟨⟨hout, hwhy⟩, h.lost⟩
  parked := h.parked
  running := h.running

end Frames

/-! ## Runs -/

structure WholeInv (cfg : FlowConfig) (σ : Flow) (ls : List FlowPhase) : Prop where
  hands : InHands cfg σ ls
  undivided : Undivided cfg σ
  knows : ∀ l ∈ ls, l.Knows cfg σ

section Runs

variable {cfg : FlowConfig} {σ σ' : Flow} {l l' : FlowPhase} {others : List FlowPhase}

namespace WholeInv

theorem perm {ls ls' : List FlowPhase} (h : WholeInv cfg σ ls) (hp : ls.Perm ls') :
    WholeInv cfg σ ls' where
  hands := h.hands.perm hp
  undivided := h.undivided
  knows l hl := h.knows l (hp.mem_iff.mpr hl)

/-- A step that marks no frame, gives no slot and throws no packet away. -/
theorem stay (h : WholeInv cfg σ (l :: others)) (hhands : InHands cfg σ' (l' :: others))
    (hcounter : σ.frameCompleteCounter ≤ σ'.frameCompleteCounter)
    (hdropped : σ'.frameDropped = σ.frameDropped) (hpending : σ'.pending ⊆ σ.pending)
    (hlost : σ'.log.lost = σ.log.lost) (hadmitted : σ'.log.admitted = σ.log.admitted)
    (hcleared : σ'.log.cleared = σ.log.cleared) (hoccupied : σ'.log.occupied = σ.log.occupied)
    (hrunning : ∀ e ∈ σ'.table.runningFrames, e ∈ σ.table.runningFrames)
    (hknows : l.Knows cfg σ' → l'.Knows cfg σ') : WholeInv cfg σ' (l' :: others) where
  hands := hhands
  undivided := h.undivided.keep hcounter hdropped hoccupied (by rw [hcleared]; exact fun _ hf => hf)
    hadmitted hlost hpending hrunning
  knows := by
    have hmono : ∀ m ∈ l :: others, m.Knows cfg σ' := fun m hm =>
      (h.knows m hm).mono hcounter (by rw [hoccupied]; exact fun _ hf => hf)
        (by rw [hdropped]; exact fun _ hf => hf)
    exact List.forall_mem_cons.mpr ⟨hknows (hmono l List.mem_cons_self), fun m hm =>
      hmono m (List.mem_cons_of_mem _ hm)⟩

/-- The drop bit is clear for the packet, and the frame inside the window. -/
theorem clear {p : Packet} {todo : List Packet} (h : WholeInv cfg σ (⟨p :: todo, .ready⟩ :: others))
    (hclear : Flow.isDropped cfg p.frame σ = false) :
    WholeInv cfg { σ with log := { σ.log with cleared := p.frame :: σ.log.cleared } }
      (⟨todo, .cleared p⟩ :: others) := by
  have hknown := (h.knows _ List.mem_cons_self).1
  have hundropped : σ.frameDropped p.frame = false := by
    by_contra hdropped
    have hdropped := Bool.eq_true_of_not_eq_false hdropped
    have hlt := (h.undivided.dropped _ hdropped).2.1
    simp [Flow.isDropped, hlt, hdropped] at hclear
  refine ⟨h.hands.clear, ⟨fun f hf => ?_, h.undivided.window, h.undivided.admitted,
    h.undivided.lost, h.undivided.parked, h.undivided.running⟩, ?_⟩
  · obtain ⟨hnetwork, htrackable, hout, hcleared⟩ := h.undivided.dropped f hf
    refine ⟨hnetwork, htrackable, hout, fun hin => ?_⟩
    rcases List.mem_cons.mp hin with rfl | hin
    · rw [hundropped] at hf
      cases hf
    · exact hcleared hin
  · refine List.forall_mem_cons.mpr ⟨⟨fun q hq => hknown q (List.mem_cons_of_mem _ hq),
      hknown p List.mem_cons_self⟩, fun m hm =>
        (h.knows m (List.mem_cons_of_mem _ hm)).mono le_rfl (fun _ hf => hf) fun _ hf => hf⟩

/-- The packet loses its claim to a slot, or is given one. -/
theorem settle {p : Packet} {todo : List Packet} (h : WholeInv cfg σ (⟨todo, .cleared p⟩ :: others))
    (hhands : InHands cfg σ' (l' :: others)) (hundivided : Undivided cfg σ')
    (hcounter : σ'.frameCompleteCounter = σ.frameCompleteCounter)
    (hdropped : σ'.frameDropped = σ.frameDropped)
    (hgrows : σ.log.occupied ⊆ σ'.log.occupied) (htodo : l'.todo = todo)
    (hknows : l'.stage.Knows cfg σ') : WholeInv cfg σ' (l' :: others) where
  hands := hhands
  undivided := hundivided
  knows := by
    have hmono : ∀ m ∈ ⟨todo, .cleared p⟩ :: others, FlowPhase.Knows cfg σ' m := fun m hm =>
      (h.knows m hm).mono hcounter.ge hgrows (by rw [hdropped]; exact fun _ hf => hf)
    refine List.forall_mem_cons.mpr ⟨⟨?_, hknows⟩, fun m hm => hmono m (List.mem_cons_of_mem _ hm)⟩
    rw [htodo]
    exact (hmono _ List.mem_cons_self).1

theorem lookup {p : Packet} {todo : List Packet} (h : WholeInv cfg σ (⟨todo, .cleared p⟩ :: others))
    (hok : p.frame < cfg.trackable ∨ ∀ q ∈ σ.log.lost, q.frame ≠ p.frame) :
    WholeInv cfg (Flow.lookup cfg p.frame .packet σ).2
      ((flowDiscipline cfg).next ⟨todo, .cleared p⟩ (.lookup p.frame .packet)
        (Flow.lookup cfg p.frame .packet σ).1 :: others) := by
  have hasks : (Stage.cleared p).Asks p.frame .packet := ⟨p, rfl, rfl⟩
  have hhands := h.hands.lookup hasks
  have hundropped := h.undivided.clear h.hands.mem_cleared
  have hknown : (Stage.cleared p).Knows cfg σ := (h.knows _ List.mem_cons_self).2
  unfold Flow.lookup at hhands ⊢
  split at hhands
  · exact h
  · have hoccupied : ∀ f, f ∈ (if p.frame ∈ σ.log.occupied then σ.log.occupied
        else p.frame :: σ.log.occupied) ↔ f = p.frame ∨ f ∈ σ.log.occupied := by
      intro f
      split
      · next hin => exact ⟨.inr, fun hf => hf.elim (fun hsame => hsame ▸ hin) id⟩
      · exact List.mem_cons
    refine h.settle hhands ?_ rfl rfl (fun f hf => (hoccupied f).mpr (.inr hf)) rfl
      ((hoccupied p.frame).mpr (.inl rfl))
    exact h.undivided.seat hundropped (fun _ => hknown) (h.undivided.unlost hundropped hok) rfl rfl
      (fun f hf => (hoccupied f).mpr (.inr hf)) (fun f hf => (hoccupied f).mp hf)
      (fun _ hf => List.mem_of_mem_erase hf) rfl rfl rfl fun _ he => .inl he

/-- Under the lock a frame that may have a slot gets one, keeps the one it has, or finds none. -/
theorem seated_or_not {frame : ℕ} {site : Site} (h : Undivided cfg σ)
    (hundropped : σ.frameDropped frame = false)
    (hinside : cfg.hasNetwork = true → frame < σ.frameCompleteCounter + cfg.slots)
    (hkept : ∀ q ∈ σ.log.lost, q.frame ≠ frame) :
    Undivided cfg (Flow.assignUnderLock cfg frame site σ).2 ∧
      σ.log.occupied ⊆ (Flow.assignUnderLock cfg frame site σ).2.log.occupied ∧
      ((Flow.assignUnderLock cfg frame site σ).1 ≠ none →
        frame ∈ (Flow.assignUnderLock cfg frame site σ).2.log.occupied) := by
  have hgrows : σ.log.occupied ⊆ (Flow.assignUnderLock cfg frame site σ).2.log.occupied := by
    rw [Flow.assignUnderLock_occupied]
    split
    · exact List.subset_cons_self ..
    · exact List.Subset.refl _
  have htaken : (Flow.assignUnderLock cfg frame site σ).1 ≠ none →
      frame ∈ (Flow.assignUnderLock cfg frame site σ).2.log.occupied := by
    intro hsome
    rw [Flow.assignUnderLock_occupied]
    by_cases hin : frame ∈ σ.table.runningFrames.map Prod.fst
    · obtain ⟨e, he, rfl⟩ := List.mem_map.mp hin
      rw [if_neg fun hnew => hnew.2 hin]
      exact h.running e he
    · rw [if_pos ⟨hsome, hin⟩]
      exact List.mem_cons_self
  refine ⟨?_, hgrows, htaken⟩
  refine h.seat hundropped hinside hkept ?_ ?_ hgrows ?_ ?_ ?_ ?_ ?_ ?_
  · rw [Flow.assignUnderLock_eq]
  · rw [Flow.assignUnderLock_eq]
  · intro f hf
    rw [Flow.assignUnderLock_occupied] at hf
    split at hf
    · exact List.mem_cons.mp hf
    · exact .inr hf
  · rw [Flow.assignUnderLock_cleared]
    split
    · exact fun _ hf => List.mem_of_mem_erase hf
    · exact fun _ hf => hf
  · rw [Flow.assignUnderLock_log]
  · rw [Flow.assignUnderLock_log]
  · rw [Flow.assignUnderLock_eq]
  · intro e he
    rw [Flow.assignUnderLock_table] at he
    refine (mem_assignUnderLock he).imp_right fun hnew => ?_
    rw [hnew.1]
    exact htaken (by rw [Flow.assignUnderLock_reply]; exact hnew.2.2)

theorem assignPacket {p : Packet} {todo : List Packet}
    (h : WholeInv cfg σ (⟨todo, .cleared p⟩ :: others))
    (hok : p.frame < cfg.trackable ∨ ∀ q ∈ σ.log.lost, q.frame ≠ p.frame) :
    WholeInv cfg (Flow.assignUnderLock cfg p.frame .packet σ).2
      ((flowDiscipline cfg).next ⟨todo, .cleared p⟩ (.assignUnderLock p.frame .packet)
        (Flow.assignUnderLock cfg p.frame .packet σ).1 :: others) := by
  have hasks : (Stage.cleared p).Asks p.frame .packet := ⟨p, rfl, rfl⟩
  have hhands := h.hands.assign hasks
  have hundropped := h.undivided.clear h.hands.mem_cleared
  have hknown : (Stage.cleared p).Knows cfg σ := (h.knows _ List.mem_cons_self).2
  obtain ⟨hundivided, hgrows, htaken⟩ := seated_or_not h.undivided hundropped
    (fun _ => hknown) (h.undivided.unlost hundropped hok)
  have hsettle : ∀ l' : FlowPhase,
      InHands cfg (Flow.assignUnderLock cfg p.frame .packet σ).2 (l' :: others) → l'.todo = todo →
      l'.stage.Knows cfg (Flow.assignUnderLock cfg p.frame .packet σ).2 →
      WholeInv cfg (Flow.assignUnderLock cfg p.frame .packet σ).2 (l' :: others) := by
    intro l' hhands htodo hknows
    refine h.settle hhands hundivided ?_ ?_ hgrows htodo hknows
    · rw [Flow.assignUnderLock_eq]
    · rw [Flow.assignUnderLock_eq]
  cases hreply : (Flow.assignUnderLock cfg p.frame .packet σ).1 with
  | none =>
    rw [hreply] at hhands
    exact hsettle _ hhands rfl trivial
  | some seat =>
    have hin := htaken (by rw [hreply]; exact Option.some_ne_none _)
    rw [hreply] at hhands
    obtain ⟨slot, newly⟩ := seat
    by_cases hstart : (newly && cfg.hasInitialNodes) = true
    · simp only [flowDiscipline, Stage.assigned, hstart, if_true] at hhands ⊢
      exact hsettle _ hhands rfl hin
    · simp only [flowDiscipline, Stage.assigned, hstart] at hhands ⊢
      exact hsettle _ hhands rfl hin

theorem assignPreparation {slots : List ℕ} {todo : List Packet} {frame : ℕ}
    (h : WholeInv cfg σ (⟨todo, .assigning slots⟩ :: others))
    (hasks : (Stage.assigning slots).Asks frame .preparation) (hframe : frame < cfg.slots)
    (hok : frame ∈ σ.table.runningFrames.map Prod.fst ∨
      (σ.table.assignUnderLock cfg.toSlotConfig frame).1 = none ∨ σ.frameDropped frame = false) :
    WholeInv cfg (Flow.assignUnderLock cfg frame .preparation σ).2
      ((flowDiscipline cfg).next ⟨todo, .assigning slots⟩ (.assignUnderLock frame .preparation)
        (Flow.assignUnderLock cfg frame .preparation σ).1 :: others) := by
  have hsame : frame ∈ σ.table.runningFrames.map Prod.fst ∨
      (σ.table.assignUnderLock cfg.toSlotConfig frame).1 = none →
      (Flow.assignUnderLock cfg frame .preparation σ).2.log.occupied = σ.log.occupied ∧
        ∀ e ∈ (Flow.assignUnderLock cfg frame .preparation σ).2.table.runningFrames,
          e ∈ σ.table.runningFrames := by
    intro hold
    rw [Flow.assignUnderLock_occupied, Flow.assignUnderLock_reply, Flow.assignUnderLock_table]
    refine ⟨if_neg fun hnew => ?_, fun e he => ?_⟩
    · exact hold.elim hnew.2 hnew.1
    · exact (mem_assignUnderLock he).resolve_right fun hnew => hold.elim hnew.2.1 hnew.2.2
  have hkeep : (Flow.assignUnderLock cfg frame .preparation σ).2.log.occupied = σ.log.occupied →
      (∀ e ∈ (Flow.assignUnderLock cfg frame .preparation σ).2.table.runningFrames,
        e ∈ σ.table.runningFrames) →
      Undivided cfg (Flow.assignUnderLock cfg frame .preparation σ).2 ∧
        σ.log.occupied ⊆ (Flow.assignUnderLock cfg frame .preparation σ).2.log.occupied := by
    intro hoccupied hrunning
    refine ⟨h.undivided.keep ?_ ?_ hoccupied ?_ ?_ ?_ ?_ hrunning, by rw [hoccupied]; exact fun _ hf => hf⟩
    · rw [Flow.assignUnderLock_eq]
    · rw [Flow.assignUnderLock_eq]
    · rw [Flow.assignUnderLock_cleared, if_neg (by decide)]
      exact fun _ hf => hf
    · rw [Flow.assignUnderLock_log]
    · rw [Flow.assignUnderLock_log]
    · rw [Flow.assignUnderLock_eq]
      exact fun _ hp => hp
  have hundivided : Undivided cfg (Flow.assignUnderLock cfg frame .preparation σ).2 ∧
      σ.log.occupied ⊆ (Flow.assignUnderLock cfg frame .preparation σ).2.log.occupied := by
    rcases hok with hin | hnone | hundropped
    · exact hkeep (hsame (.inl hin)).1 (hsame (.inl hin)).2
    · exact hkeep (hsame (.inr hnone)).1 (hsame (.inr hnone)).2
    · have hseat := @seated_or_not cfg σ frame .preparation h.undivided hundropped
        (fun _ => hframe.trans_le (Nat.le_add_left _ _))
        (h.undivided.unlost hundropped (.inl (hframe.trans_le (Nat.le_add_left _ _))))
      exact ⟨hseat.1, hseat.2.1⟩
  have hmono : ∀ m ∈ ⟨todo, .assigning slots⟩ :: others,
      FlowPhase.Knows cfg (Flow.assignUnderLock cfg frame .preparation σ).2 m := fun m hm =>
    (h.knows m hm).mono (by rw [Flow.assignUnderLock_eq]) hundivided.2
      (by rw [Flow.assignUnderLock_eq]; exact fun _ hf => hf)
  refine ⟨h.hands.assign hasks, hundivided.1, List.forall_mem_cons.mpr ⟨?_, fun m hm =>
    hmono m (List.mem_cons_of_mem _ hm)⟩⟩
  have hnext : ∀ more, FlowPhase.Knows cfg (Flow.assignUnderLock cfg frame .preparation σ).2
      ⟨todo, .assigning more⟩ := fun _ => ⟨(hmono _ List.mem_cons_self).1, trivial⟩
  cases (Flow.assignUnderLock cfg frame .preparation σ).1 with
  | none => exact hnext slots
  | some seat => exact hnext (slots ++ [seat.1])

theorem countPacket {p : Packet} {slot : ℕ} {todo : List Packet} {ni : NodeInfo} {counters : ℕ → ℕ}
    (h : WholeInv cfg σ (⟨todo, .seated p slot⟩ :: others))
    (hhands : InHands cfg
      { σ with
        packetCounters := counters
        log := { σ.log with admitted := (p, ni) :: σ.log.admitted } }
      (⟨todo, .routing ni⟩ :: others)) :
    WholeInv cfg
      { σ with
        packetCounters := counters
        log := { σ.log with admitted := (p, ni) :: σ.log.admitted } }
      (⟨todo, .routing ni⟩ :: others) where
  hands := hhands
  undivided :=
    ⟨h.undivided.dropped, h.undivided.window,
      List.forall_mem_cons.mpr ⟨(h.knows _ List.mem_cons_self).2, h.undivided.admitted⟩,
      h.undivided.lost, h.undivided.parked, h.undivided.running⟩
  knows := List.forall_mem_cons.mpr ⟨⟨(h.knows _ List.mem_cons_self).1, trivial⟩, fun m hm =>
    h.knows m (List.mem_cons_of_mem _ hm)⟩

theorem discard {p : Packet} {todo : List Packet} {s : Stage}
    (h : WholeInv cfg σ (⟨todo, s⟩ :: others))
    (hhands : InHands cfg { σ with log := { σ.log with lost := p :: σ.log.lost } }
      (⟨todo, .ready⟩ :: others))
    (hstage : s = .refused p ∨ s = .unseated p ∧ cfg.trackable ≤ p.frame)
    (hok : p.frame < cfg.trackable ∨ p.frame ∉ σ.log.occupied) :
    WholeInv cfg { σ with log := { σ.log with lost := p :: σ.log.lost } }
      (⟨todo, .ready⟩ :: others) := by
  have hknown := h.knows _ List.mem_cons_self
  have hwhy : p.frame ∉ σ.log.occupied ∧
      (σ.frameDropped p.frame = true ∨ cfg.trackable ≤ p.frame) := by
    rcases hstage with rfl | ⟨-, hbeyond⟩
    · exact ⟨(h.undivided.dropped _ hknown.2).2.2.1, .inl hknown.2⟩
    · exact ⟨hok.resolve_left (by omega), .inr hbeyond⟩
  refine ⟨hhands, h.undivided.lose hwhy.1 hwhy.2, ?_⟩
  exact List.forall_mem_cons.mpr ⟨⟨hknown.1, trivial⟩, fun m hm =>
    h.knows m (List.mem_cons_of_mem _ hm)⟩

theorem takePending {windowEnd : ℕ} (h : WholeInv cfg σ (⟨[], .window windowEnd⟩ :: others)) :
    WholeInv cfg (Flow.takePending windowEnd σ).2
      (⟨(Flow.takePending windowEnd σ).1, .ready⟩ :: others) := by
  have hend : windowEnd ≤ σ.frameCompleteCounter + cfg.slots := (h.knows _ List.mem_cons_self).2
  have hready : (Flow.takePending windowEnd σ).1.Perm
      (σ.pending.filter fun p => p.frame < windowEnd) := List.mergeSort_perm _ _
  refine h.stay h.hands.takePending le_rfl rfl (List.filter_sublist.subset) rfl rfl rfl rfl
    (fun _ he => he) fun _ => ⟨fun p hp => ?_, trivial⟩
  have hin := of_decide_eq_true (List.mem_filter.mp (hready.mem_iff.mp hp)).2
  exact hin.trans_le hend

theorem victimOf_lt {pending : List Packet} {frame n : ℕ} (hpending : ∀ q ∈ pending, q.frame < n)
    (hframe : frame < n) : Flow.victimOf pending frame < n := by
  induction pending with
  | nil => exact hframe
  | cons q pending ih =>
    exact max_lt (hpending q List.mem_cons_self)
      (ih fun r hr => hpending r (List.mem_cons_of_mem _ hr))

/-- The victim of an overflow has no slot and no packet on its way to one. -/
theorem victim_apart {p : Packet} {todo : List Packet}
    (h : WholeInv cfg σ (⟨todo, .parking p⟩ :: others)) (hnetwork : cfg.hasNetwork = true)
    (hfull : cfg.framePackets * cfg.slots ≤ σ.pending.length)
    (hok : ∀ victim ∈ (Flow.park cfg p σ).1, σ.frameCompleteCounter + cfg.slots ≤ victim ∨
      victim ∉ σ.log.occupied ∧ victim ∉ σ.log.cleared) :
    Flow.victimOf σ.pending p.frame < cfg.trackable ∧
      Flow.victimOf σ.pending p.frame ∉ σ.log.occupied ∧
      Flow.victimOf σ.pending p.frame ∉ σ.log.cleared := by
  have hlt : Flow.victimOf σ.pending p.frame < cfg.trackable :=
    victimOf_lt h.undivided.parked (h.knows _ List.mem_cons_self).2
  refine ⟨hlt, ?_⟩
  cases hmarked : σ.frameDropped (Flow.victimOf σ.pending p.frame) with
  | true => exact (h.undivided.dropped _ hmarked).2.2
  | false =>
    have hreply : (Flow.park cfg p σ).1 = some (Flow.victimOf σ.pending p.frame) := by
      simp only [Flow.park, if_pos hfull, if_pos (And.intro hlt hmarked)]
    rcases hok _ hreply with hahead | hapart
    · refine ⟨fun hin => ?_, fun hin => ?_⟩
      · exact absurd (h.undivided.window hnetwork _ hin) (by omega)
      · obtain ⟨l, hl, hclear⟩ := List.mem_filterMap.mp (h.hands.cleared.mem_iff.mp hin)
        have hknown := (h.knows l hl).2
        obtain ⟨rest, s⟩ := l
        cases s with
        | cleared q =>
          have hsame : q.frame = Flow.victimOf σ.pending p.frame := Option.some.inj hclear
          have hinside : q.frame < σ.frameCompleteCounter + cfg.slots := hknown
          omega
        | _ => cases hclear
    · exact hapart

theorem park {p : Packet} {todo : List Packet}
    (h : WholeInv cfg σ (⟨todo, .parking p⟩ :: others)) (hnetwork : cfg.hasNetwork = true)
    (hok : ∀ victim ∈ (Flow.park cfg p σ).1, σ.frameCompleteCounter + cfg.slots ≤ victim ∨
      victim ∉ σ.log.occupied ∧ victim ∉ σ.log.cleared) :
    WholeInv cfg (Flow.park cfg p σ).2
      ((flowDiscipline cfg).next ⟨todo, .parking p⟩ (.park p) (Flow.park cfg p σ).1 :: others) := by
  have hknown := h.knows _ List.mem_cons_self
  have hnext : Undivided cfg (Flow.park cfg p σ).2 →
      (∀ f, σ.frameDropped f = true → (Flow.park cfg p σ).2.frameDropped f = true) →
      WholeInv cfg (Flow.park cfg p σ).2
        ((flowDiscipline cfg).next ⟨todo, .parking p⟩ (.park p) (Flow.park cfg p σ).1 :: others) := by
    intro hundivided hdropped
    have hmono : ∀ m ∈ ⟨todo, .parking p⟩ :: others, FlowPhase.Knows cfg (Flow.park cfg p σ).2 m :=
      fun m hm => (h.knows m hm).mono (by rw [Flow.park_eq]) (by rw [Flow.park_eq]; exact fun _ hf => hf)
        hdropped
    refine ⟨h.hands.park, hundivided, List.forall_mem_cons.mpr ⟨?_, fun m hm =>
      hmono m (List.mem_cons_of_mem _ hm)⟩⟩
    have htodo := (hmono _ List.mem_cons_self).1
    cases (Flow.park cfg p σ).1 with
    | none => exact ⟨htodo, trivial⟩
    | some victim => exact ⟨htodo, trivial⟩
  by_cases hfull : cfg.framePackets * cfg.slots ≤ σ.pending.length
  · obtain ⟨htrackable, hout, hcleared⟩ := h.victim_apart hnetwork hfull hok
    have hlost : ∀ q ∈ (Flow.park cfg p σ).2.log.lost,
        q.frame = Flow.victimOf σ.pending p.frame ∨ q ∈ σ.log.lost := by
      simp only [Flow.park, if_pos hfull]
      intro q hq
      rcases List.mem_append.mp hq with hq | hq
      · rcases List.mem_append.mp hq with hq | hq
        · split at hq
          · next hsame =>
            obtain rfl := List.mem_singleton.mp hq
            exact .inl hsame.symm
          · cases hq
        · exact .inl (of_decide_eq_true (List.mem_filter.mp hq).2)
      · exact .inr hq
    have hpending : ∀ q ∈ (Flow.park cfg p σ).2.pending, q ∈ σ.pending ∨ q = p := by
      simp only [Flow.park, if_pos hfull]
      intro q hq
      split at hq
      · exact .inl (List.mem_filter.mp hq).1
      · exact (List.mem_append.mp hq).imp (fun hq => (List.mem_filter.mp hq).1)
          List.mem_singleton.mp
    have hmarks : (Flow.park cfg p σ).2.frameDropped =
        Function.update σ.frameDropped (Flow.victimOf σ.pending p.frame) true := by
      simp only [Flow.park, if_pos hfull, if_pos htrackable]
    have hdropped : ∀ f, (Flow.park cfg p σ).2.frameDropped f = true ↔
        f = Flow.victimOf σ.pending p.frame ∨ σ.frameDropped f = true := by
      intro f
      rw [hmarks]
      by_cases hsame : f = Flow.victimOf σ.pending p.frame
      · rw [hsame, Function.update_self]
        simp
      · rw [Function.update_of_ne hsame]
        exact ⟨.inr, fun hf => hf.resolve_left hsame⟩
    have hundivided : Undivided cfg (Flow.park cfg p σ).2 := by
      refine ⟨fun f hf => ?_, ?_, ?_, fun q hq => ?_, fun q hq => ?_, ?_⟩
      · rw [Flow.park_eq]
        rcases (hdropped f).mp hf with rfl | hf
        · exact ⟨hnetwork, htrackable, hout, hcleared⟩
        · exact h.undivided.dropped f hf
      · rw [Flow.park_eq]
        exact h.undivided.window
      · rw [Flow.park_eq]
        exact h.undivided.admitted
      · rw [hdropped]
        rw [show (Flow.park cfg p σ).2.log.occupied = σ.log.occupied by rw [Flow.park_eq]]
        rcases hlost q hq with hsame | hq
        · exact ⟨hsame ▸ hout, .inl (.inl hsame)⟩
        · exact ⟨(h.undivided.lost q hq).1, (h.undivided.lost q hq).2.imp_left .inr⟩
      · rcases hpending q hq with hq | rfl
        · exact h.undivided.parked q hq
        · exact hknown.2
      · rw [Flow.park_eq]
        exact h.undivided.running
    exact hnext hundivided fun f hf => (hdropped f).mpr (.inr hf)
  · have hparked : Flow.park cfg p σ = (none, { σ with pending := σ.pending ++ [p] }) :=
      if_neg hfull
    refine hnext ?_ ?_
    · rw [hparked]
      refine ⟨h.undivided.dropped, h.undivided.window, h.undivided.admitted, h.undivided.lost, ?_,
        h.undivided.running⟩
      intro q hq
      rcases List.mem_append.mp hq with hq | hq
      · exact h.undivided.parked q hq
      · obtain rfl := List.mem_singleton.mp hq
        exact hknown.2
    · rw [hparked]
      exact fun _ hf => hf

theorem restart {slot : ℕ} {todo : List Packet} (h : WholeInv cfg σ (⟨todo, .waiting slot⟩ :: others))
    (hcompute : cfg.hasNetwork = false) (s : Stage)
    (hhands : InHands cfg (Flow.restartUnderLock cfg slot σ) (⟨todo, s⟩ :: others))
    (hknows : ∀ σ' : Flow, s.Knows cfg σ') :
    WholeInv cfg (Flow.restartUnderLock cfg slot σ) (⟨todo, s⟩ :: others) := by
  have hrunning : (Flow.restartUnderLock cfg slot σ).table.runningFrames =
      σ.table.runningFrames ++
        [(σ.frameCompleteCounter + σ.table.currentlyActive cfg.toSlotConfig, slot)] := by
    simp only [Flow.restartUnderLock, SlotData.restartSlotNonnetwork, hcompute, Bool.false_eq_true,
      if_false]
    rfl
  have hgrows : σ.log.occupied ⊆ (Flow.restartUnderLock cfg slot σ).log.occupied :=
    List.subset_cons_self ..
  refine ⟨hhands, ⟨fun f hf => ?_, fun hnetwork => ?_,
    fun q hq => hgrows (h.undivided.admitted q hq), fun q hq => ?_, h.undivided.parked,
    fun e he => ?_⟩, ?_⟩
  · have hnetwork := (h.undivided.dropped f hf).1
    rw [hcompute] at hnetwork
    cases hnetwork
  · rw [hcompute] at hnetwork
    cases hnetwork
  · have hlost : q ∈ σ.log.lost := hq
    rw [h.hands.lost_eq_nil hcompute] at hlost
    cases hlost
  · rw [hrunning] at he
    rcases List.mem_append.mp he with he | he
    · exact hgrows (h.undivided.running e he)
    · obtain rfl := List.mem_singleton.mp he
      exact List.mem_cons_self
  · have hmono : ∀ m ∈ ⟨todo, .waiting slot⟩ :: others,
        FlowPhase.Knows cfg (Flow.restartUnderLock cfg slot σ) m := fun m hm =>
      (h.knows m hm).mono le_rfl hgrows fun _ hf => hf
    exact List.forall_mem_cons.mpr ⟨⟨(hmono _ List.mem_cons_self).1, hknows _⟩, fun m hm =>
      hmono m (List.mem_cons_of_mem _ hm)⟩

end WholeInv

/-- What is known at a stage does not depend on a dispatch. -/
theorem dispatched_knows {s : Stage} {slot : ℕ} {slots : List ℕ} (hdue : s.due = slot :: slots)
    (h : s.Knows cfg σ) : s.dispatched.Knows cfg σ := by
  have hrest : ∀ rest : List ℕ, (Stage.afterDispatch rest).Knows cfg σ := by
    intro rest
    cases rest with
    | nil => trivial
    | cons s rest => trivial
  cases s with
  | starting p s => exact h
  | restarted s => exact h
  | promoted next restart =>
    cases restart with
    | none => exact h
    | some again => exact h
  | assigning owed => exact hrest _
  | dispatching owed => exact hrest _
  | _ => cases hdue

theorem whole_maintains (hlasting : cfg.frameTimeoutMs = 0) :
    Machine.Maintains (flowMachine cfg) (DropsApart cfg) (flowDiscipline cfg) .idle
      (· = .idle) (WholeInv cfg) := by
  refine flow_maintains WholeInv.perm ?_
  intro σ σ' others l l' a choice hturn h hok
  have hhands := h.hands.turn hturn
  cases hturn with
  | prepare | ahead | batch | claim | resetClaimed | resetSpent | resetMarking | loadFrameId =>
    exact h.stay hhands le_rfl rfl (fun _ hp => hp) rfl rfl rfl rfl (fun _ he => he)
      fun hk => ⟨hk.1, trivial⟩
  | prepared | bump | complete | countActive | spare =>
    exact h.stay hhands le_rfl rfl (fun _ hp => hp) rfl rfl rfl rfl (fun _ he => he) id
  | countVictim | countEvicted | countCompletion =>
    exact h.stay hhands (Nat.le_succ _) rfl (fun _ hp => hp) rfl rfl rfl rfl (fun _ he => he)
      fun hk => ⟨hk.1, trivial⟩
  | isActive | incomplete | pass | loadStalled => exact h
  | openWindow =>
    exact h.stay hhands le_rfl rfl (fun _ hp => hp) rfl rfl rfl rfl (fun _ he => he)
      fun hk => ⟨hk.1, le_rfl⟩
  | inWindow p hinside =>
    refine h.stay hhands le_rfl rfl (fun _ hp => hp) rfl rfl rfl rfl (fun _ he => he)
      fun hk => ⟨fun q hq => ?_, trivial⟩
    obtain rfl := List.mem_singleton.mp hq
    exact hinside
  | receive p hnetwork =>
    exact h.stay hhands le_rfl rfl (fun _ hp => hp) rfl rfl rfl rfl (fun _ he => he)
      fun hk => ⟨hk.1, trivial⟩
  | discard todo p => exact h.discard hhands (.inl rfl) hok
  | discardBeyond todo p hbeyond => exact h.discard hhands (.inr ⟨rfl, hbeyond⟩) hok
  | refuse p todo hdropped =>
    exact h.stay hhands le_rfl rfl (fun _ hp => hp) rfl rfl rfl rfl (fun _ he => he)
      fun hk => ⟨fun q hq => hk.1 q (List.mem_cons_of_mem _ hq),
        (Bool.and_eq_true_iff.mp hdropped).2⟩
  | clear p todo hkept => exact h.clear hkept
  | refuseNow p todo hdropped =>
    exact h.stay hhands le_rfl rfl (fun _ hp => hp) rfl rfl rfl rfl (fun _ he => he)
      fun hk => ⟨hk.1, (Bool.and_eq_true_iff.mp hdropped).2⟩
  | toPark p todo hlt =>
    exact h.stay hhands le_rfl rfl (fun _ hp => hp) rfl rfl rfl rfl (fun _ he => he)
      fun hk => ⟨hk.1, hlt⟩
  | lookup todo s frame site hasks =>
    cases site with
    | packet =>
      obtain ⟨p, rfl, rfl⟩ := hasks
      exact h.lookup hok
    | preparation =>
      obtain ⟨slots, rfl, -⟩ := hasks
      unfold Flow.lookup at hhands ⊢
      split at hhands
      · exact h
      · exact h.stay hhands le_rfl rfl (fun _ hp => hp) rfl rfl rfl rfl (fun _ he => he)
          fun hk => ⟨hk.1, trivial⟩
  | assign todo s frame site hasks _ hframe =>
    cases site with
    | packet =>
      obtain ⟨p, rfl, rfl⟩ := hasks
      exact h.assignPacket hok
    | preparation =>
      have hlt := (hframe rfl).trans_le (activateFrames_eq cfg.toSlotConfig).2.1
      obtain ⟨slots, rfl, hlength⟩ := hasks
      exact h.assignPreparation ⟨slots, rfl, hlength⟩ hlt hok
  | dispatchInitial todo s slot slots hroots hdue =>
    exact h.stay hhands le_rfl rfl (fun _ hp => hp) rfl rfl rfl rfl (fun _ he => he)
      fun hk => ⟨hk.1, dispatched_knows hdue hk.2⟩
  | countPacket => exact h.countPacket hhands
  | buffered todo ni | promotedBefore todo ni =>
    rw [Flow.buffer_eq] at hhands ⊢
    exact h.stay hhands le_rfl rfl (fun _ hp => hp) rfl rfl rfl rfl (fun _ he => he)
      fun hk => ⟨hk.1, trivial⟩
  | park todo p hnetwork => exact h.park hnetwork hok
  | takePending => exact h.takePending
  | release todo slot restart =>
    obtain ⟨s, hreleased, hs⟩ := FlowPhase.released_stage cfg todo slot restart
      ((Flow.releaseUnderLock cfg slot σ).1.map Prod.fst)
    have hquiet : ∀ σ' : Flow, s.Knows cfg σ' := by
      rcases hs with rfl | ⟨again, -, rfl⟩ | ⟨next, -, -, rfl⟩
      · exact fun _ => trivial
      · exact fun _ => trivial
      · exact fun _ => trivial
    rw [hreleased] at hhands ⊢
    refine h.stay hhands ?_ ?_ ?_ ?_ ?_ ?_ ?_ ?_ fun hk => ⟨hk.1, hquiet _⟩
    · rw [Flow.releaseUnderLock_eq]
    · rw [Flow.releaseUnderLock_eq]
    · rw [Flow.releaseUnderLock_eq]
      exact fun _ hp => hp
    · rw [Flow.releaseUnderLock_log]
    · rw [Flow.releaseUnderLock_log]
    · rw [Flow.releaseUnderLock_log]
    · rw [Flow.releaseUnderLock_log]
    · rw [Flow.releaseUnderLock_table]
      exact fun e he => mem_releaseUnderLock he
  | restart todo slot hcompute =>
    split at hhands
    · next hroots =>
      rw [if_pos hroots]
      exact h.restart hcompute _ hhands fun _ => trivial
    · next hroots =>
      rw [if_neg hroots]
      exact h.restart hcompute _ hhands fun _ => trivial
  | swapDropped todo slot frame hexpires => exact absurd hlasting hexpires
  | evict slot hexpires => exact absurd hlasting hexpires

theorem wholeInv_start (cfg : FlowConfig) (threads : ℕ) :
    WholeInv cfg .initial (List.replicate threads .idle) where
  hands := inHands_start cfg threads
  undivided :=
    ⟨fun _ hf => (nomatch hf), fun _ _ hf => (nomatch hf), fun _ hq => (nomatch hq),
      fun _ hq => (nomatch hq), fun _ hp => (nomatch hp), fun _ he => (nomatch he)⟩
  knows l hl := by
    rw [List.eq_of_mem_replicate hl]
    exact ⟨fun _ hp => (nomatch hp), trivial⟩

/-- With eviction off and drops apart from the frames that have a slot, no packet of a dropped frame
has ever been given a slot, no packet of a frame that has had a slot is lost, and between the jobs of
the threads every packet received is admitted, parked or lost. -/
theorem frames_dropped_whole (cfg : FlowConfig) (hlasting : cfg.frameTimeoutMs = 0) (threads : ℕ)
    (w : World flowSteps Flow)
    (hrun : (flowMachine cfg).Reaches (DropsApart cfg) (flowWorld threads) w) :
    (∀ frame, w.shared.frameDropped frame = true → frame ∉ w.shared.log.occupied ∧
        ∀ q ∈ w.shared.log.admitted, q.1.frame ≠ frame) ∧
      (∀ p ∈ w.shared.log.lost, p.frame ∉ w.shared.log.occupied) ∧
      ((∀ thread ∈ w.threads, thread = .done ()) → w.shared.log.received.Perm
        (w.shared.log.admitted.map Prod.fst ++ w.shared.pending ++ w.shared.log.lost)) := by
  obtain ⟨ls, hinv, hfollows⟩ := (whole_maintains hlasting).reached hrun
    (wholeInv_start cfg threads) (Machine.follows_idle (· = FlowPhase.idle) rfl threads)
  have hundivided := hinv.undivided
  refine ⟨fun frame hdropped => ?_, fun p hp => (hundivided.lost p hp).1, fun hdone => ?_⟩
  · have hout := (hundivided.dropped frame hdropped).2.2.1
    exact ⟨hout, fun q hq hsame => hout (hsame ▸ hundivided.admitted q hq)⟩
  · have hempty : ls.flatMap FlowPhase.hand = [] := by
      refine List.flatMap_eq_nil_iff.mpr fun l hl => ?_
      obtain ⟨thread, hthread, hobeys⟩ := hfollows.thread hl
      rw [hdone thread hthread] at hobeys
      rw [show l = .idle from hobeys]
      rfl
    refine List.perm_iff_count.mpr fun p => ?_
    rw [hinv.hands.conserved p, hempty, List.count_append, List.count_append]
    rfl

end Runs

/-- One slot, two packets a frame, and room for two parked packets. -/
def twoPacketFrames : FlowConfig where
  slots := 1
  slotPriorityEnabled := true
  hasNetwork := true
  maxFrames := 8
  one_le_slots := Nat.zero_lt_one
  slots_le := one_slot_le
  hasInitialNodes := false
  hasIndexFunction := false
  framePackets := 2
  frameTimeoutMs := 0
  slots_le_maxFrames := by decide

/-- Frame 0 takes the slot; of frames 7, 6 and 5, all ahead of the window, frame 7 overflows. -/
def farAhead : List (Move FlowJob) :=
  .begin 1 (.poll false [⟨0, 0⟩, ⟨0, 1⟩, ⟨7, 0⟩, ⟨6, 0⟩, ⟨5, 0⟩]) :: turns 1 31

theorem frames_dropped_whole_farAhead : ∃ w,
    (flowMachine twoPacketFrames).Reaches (DropsApart twoPacketFrames) (flowWorld 2) w ∧
      w.shared.frameDropped 7 = true ∧ 7 ∉ w.shared.log.occupied := by
  have hrun : ((flowMachine twoPacketFrames).fireAllowed (DropsApart twoPacketFrames) farAhead
      (flowWorld 2)).any (fun w => w.shared.frameDropped 7) = true := by
    decide +kernel
  obtain ⟨w, hw, hdropped⟩ := (Option.any_eq_true _ _).mp hrun
  have hreach := Machine.reaches_of_fireAllowed hw
  exact ⟨w, hreach, hdropped,
    ((frames_dropped_whole twoPacketFrames rfl 2 w hreach).1 7 hdropped).1⟩

/-- The frames dropped ahead of the window move it on: frames 1 and 2 are inside it with frame 0. When
frame 0 completes in between, frame 2 takes the slot with its second packet, and overflows. -/
def partlyParked : List (Move FlowJob) :=
  .begin 1 (.poll false [⟨0, 0⟩, ⟨0, 1⟩, ⟨7, 0⟩, ⟨6, 0⟩, ⟨5, 0⟩, ⟨4, 0⟩, ⟨1, 0⟩, ⟨2, 0⟩, ⟨2, 1⟩,
    ⟨1, 1⟩]) :: turns 1 52 ++ .begin 0 (.check 0) :: turns 0 6 ++ turns 1 17

theorem frame_dropped_in_part : ¬ ∀ cfg : FlowConfig, cfg.frameTimeoutMs = 0 →
    ∀ (threads : ℕ) (w : World flowSteps Flow),
      (flowMachine cfg).Reaches (fun _ _ _ => True) (flowWorld threads) w →
        ∀ frame, w.shared.frameDropped frame = true →
          ∀ q ∈ w.shared.log.admitted, q.1.frame ≠ frame := by
  intro h
  have hrun : ((flowMachine twoPacketFrames).fireAllowed (fun _ _ _ => True) partlyParked
      (flowWorld 2)).any (fun w => w.shared.frameDropped 2 = true ∧
        ∃ q ∈ w.shared.log.admitted, q.1.frame = 2) = true := by
    decide +kernel
  obtain ⟨w, hw, hstate⟩ := (Option.any_eq_true _ _).mp hrun
  obtain ⟨hdropped, q, hq, hframe⟩ := of_decide_eq_true hstate
  exact h twoPacketFrames rfl 2 w (Machine.reaches_of_fireAllowed hw) 2 hdropped q hq hframe

end Tomii.Slots
