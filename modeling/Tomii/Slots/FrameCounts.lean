import Tomii.Slots.FrameTally
import Tomii.Slots.PacketHands

/-! # No frame is counted twice

A dropped or evicted frame leaves its drop bit behind, and no packet that comes later gets it a slot.
A completed frame leaves no mark: none of its packets may be on the way when its slot is released, and
none may come afterwards. -/
namespace Tomii.Slots
set_option autoImplicit false
set_option maxHeartbeats 250000

/-- Every received packet of the frame is admitted or thrown away. -/
def AllPlaced (σ : Flow) (frame : ℕ) : Prop :=
  ∀ p ∈ σ.log.received, p.frame = frame →
    σ.log.received.count p = (σ.log.admitted.map Prod.fst).count p + σ.log.lost.count p

instance (σ : Flow) (frame : ℕ) : Decidable (AllPlaced σ frame) :=
  inferInstanceAs (Decidable (∀ p ∈ σ.log.received, _))

/-- No packet comes of a frame that was counted without a mark and has given up its slot; when a slot
is released, no packet of its frame is on the way, or none past the look at the drop bit if the frame
is marked; a frame that overflows has no slot, and no packet past that look. The preparation and
restarts give slots to frames that had none; no slot is both completed and evicted. -/
def CountsEachOnce (cfg : FlowConfig) (σ : Flow) (_ : ℕ) : FlowAct → Prop
  | .receive p => p.frame ∈ σ.log.counted →
      σ.frameDropped p.frame = true ∨ p.frame ∈ σ.table.runningFrames.map Prod.fst
  | .releaseUnderLock slot =>
    if σ.frameDropped (σ.table.frameId slot) then σ.table.frameId slot ∉ σ.log.cleared
    else AllPlaced σ (σ.table.frameId slot)
  | .park p => ∀ victim ∈ (Flow.park cfg p σ).1,
      victim ∉ σ.table.runningFrames.map Prod.fst ∧ victim ∉ σ.log.cleared
  | .assignUnderLock frame .preparation =>
    frame ∈ σ.table.runningFrames.map Prod.fst ∨
      frame ∉ σ.log.occupied ∧ σ.frameDropped frame = false
  | .restartUnderLock slot =>
    slot ∉ σ.table.runningFrames.map Prod.snd ∧ σ.nextFrameId cfg ∉ σ.log.occupied
  | .claimCompletion slot => slot ∉ σ.log.evicting
  | .claimEviction slot => σ.packetComplete slot = false →
      slot ∈ σ.table.runningFrames.map Prod.snd ∧ slot ∉ σ.claimed
  | _ => True

instance (cfg : FlowConfig) (σ : Flow) (choice : ℕ) (a : FlowAct) :
    Decidable (CountsEachOnce cfg σ choice a) := by
  induction a using FlowAct.casesOn with
  | receive p => exact inferInstanceAs (Decidable (_ → _ ∨ _))
  | releaseUnderLock slot =>
    exact inferInstanceAs (Decidable
      (if σ.frameDropped (σ.table.frameId slot) then _ else AllPlaced σ (σ.table.frameId slot)))
  | park p => exact inferInstanceAs (Decidable (∀ victim ∈ (Flow.park cfg p σ).1, _ ∧ _))
  | assignUnderLock frame site =>
    induction site using Site.casesOn with
    | packet => exact .isTrue trivial
    | preparation => exact inferInstanceAs (Decidable (_ ∨ _ ∧ _))
  | restartUnderLock slot => exact inferInstanceAs (Decidable (_ ∧ _))
  | claimCompletion slot => exact inferInstanceAs (Decidable (slot ∉ σ.log.evicting))
  | claimEviction slot => exact inferInstanceAs (Decidable (_ → _ ∧ _))
  | _ => exact .isTrue trivial

/-! ## Marks and slots -/

/-- A marked frame is past the look at the drop bit only as long as it has its slot; of a frame that
is counted without a mark no packet is on the way once it has given up its slot. -/
structure Closed (cfg : FlowConfig) (σ : Flow) : Prop where
  marked : ∀ frame, σ.frameDropped frame = true → cfg.hasNetwork = true ∧ frame < cfg.trackable ∧
    (frame ∈ σ.log.cleared → frame ∈ σ.table.runningFrames.map Prod.fst)
  gone : ∀ frame ∈ σ.log.counted, σ.frameDropped frame = false →
    frame ∉ σ.table.runningFrames.map Prod.fst → AllPlaced σ frame
  counted : ∀ frame ∈ σ.log.counted, σ.frameDropped frame = true ∨ frame ∈ σ.log.occupied
  running : ∀ e ∈ σ.table.runningFrames, e.1 ∈ σ.log.occupied

section Closing

variable {cfg : FlowConfig} {σ σ' : Flow} {l l' : FlowPhase} {ls others : List FlowPhase}

/-- A packet that is parked or in a hand shows that not all are placed. -/
theorem AllPlaced.none_left {p : Packet} (h : AllPlaced σ p.frame) (hands : InHands cfg σ ls)
    (hin : p ∈ σ.pending ∨ ∃ l ∈ ls, p ∈ l.hand) : False := by
  have hlt := hands.conserved.unsettled hin
  have hreceived : p ∈ σ.log.received := List.count_pos_iff.mp (by omega)
  have heq := h p hreceived rfl
  omega

/-- No packet of such a frame is left that a step could admit or throw away. -/
theorem AllPlaced.keep {frame : ℕ} (h : AllPlaced σ frame) (hands : InHands cfg σ' ls)
    (hreceived : σ'.log.received = σ.log.received)
    (hadmitted : ∀ p, (σ.log.admitted.map Prod.fst).count p ≤
      (σ'.log.admitted.map Prod.fst).count p)
    (hlost : ∀ p, σ.log.lost.count p ≤ σ'.log.lost.count p) : AllPlaced σ' frame := by
  intro p hp hframe
  have hcount := hands.conserved p
  rw [hreceived] at hp hcount ⊢
  have heq := h p hp hframe
  have hless := hadmitted p
  have hfewer := hlost p
  omega

namespace Closed

/-- A step that counts and marks no frame. Frames may be given slots. -/
theorem keep (h : Closed cfg σ) (hdropped : σ'.frameDropped = σ.frameDropped)
    (hcleared : σ'.log.cleared ⊆ σ.log.cleared) (hcounted : σ'.log.counted = σ.log.counted)
    (hplaced : ∀ frame, AllPlaced σ frame → AllPlaced σ' frame)
    (hoccupied : σ.log.occupied ⊆ σ'.log.occupied)
    (hruns : σ.table.runningFrames ⊆ σ'.table.runningFrames)
    (hnew : ∀ e ∈ σ'.table.runningFrames, e ∈ σ.table.runningFrames ∨ e.1 ∈ σ'.log.occupied) :
    Closed cfg σ' where
  marked frame hf := by
    rw [hdropped] at hf
    obtain ⟨hnetwork, hlt, hruns'⟩ := h.marked frame hf
    exact ⟨hnetwork, hlt, fun hin => List.map_subset _ hruns (hruns' (hcleared hin))⟩
  gone frame hf hundropped hout := by
    rw [hcounted] at hf
    rw [hdropped] at hundropped
    exact hplaced frame (h.gone frame hf hundropped fun hin => hout (List.map_subset _ hruns hin))
  counted frame hf := by
    rw [hcounted] at hf
    rw [hdropped]
    exact (h.counted frame hf).imp_right fun hin => hoccupied hin
  running e he := by
    cases hnew e he with
    | inl hold => exact hoccupied (h.running e hold)
    | inr hin => exact hin

/-- A step that leaves marks, counts, packets and slots alone. -/
theorem stay (h : Closed cfg σ) (hdropped : σ'.frameDropped = σ.frameDropped)
    (hcleared : σ'.log.cleared = σ.log.cleared) (hcounted : σ'.log.counted = σ.log.counted)
    (hreceived : σ'.log.received = σ.log.received) (hadmitted : σ'.log.admitted = σ.log.admitted)
    (hlost : σ'.log.lost = σ.log.lost) (hoccupied : σ'.log.occupied = σ.log.occupied)
    (hrunning : σ'.table.runningFrames = σ.table.runningFrames) : Closed cfg σ' := by
  refine h.keep hdropped (by rw [hcleared]; exact fun _ hf => hf) hcounted (fun frame hs => ?_)
    (by rw [hoccupied]; exact fun _ hf => hf) (by rw [hrunning]; exact fun _ he => he) fun e he => ?_
  · unfold AllPlaced
    rw [hreceived, hadmitted, hlost]
    exact hs
  · rw [hrunning] at he
    exact .inl he

/-- A thread that asks for a slot asks for a frame that has one, or is not finished. -/
theorem unfinished {p : Packet} {todo : List Packet} (h : Closed cfg σ)
    (hands : InHands cfg σ (⟨todo, .cleared p⟩ :: others)) :
    p.frame ∈ σ.table.runningFrames.map Prod.fst ∨ ¬ Finished σ p.frame := by
  by_cases hrunning : p.frame ∈ σ.table.runningFrames.map Prod.fst
  · exact .inl hrunning
  refine .inr fun hfinished => ?_
  have hundropped : σ.frameDropped p.frame = false :=
    Bool.eq_false_of_not_eq_true fun hdropped =>
      hrunning ((h.marked _ hdropped).2.2 hands.mem_cleared)
  cases hfinished with
  | inl hcounted =>
    refine (h.gone _ hcounted hundropped hrunning).none_left hands (.inr ⟨_, List.mem_cons_self, ?_⟩)
    exact List.mem_append_right _ (List.mem_singleton_self p)
  | inr hdropped =>
    rw [hundropped] at hdropped
    cases hdropped

/-- The victim of an overflow is a frame of a packet parked, or of the one to be parked. -/
theorem victimOf_frame (pending : List Packet) (p : Packet) :
    ∃ q, (q ∈ pending ∨ q = p) ∧ q.frame = Flow.victimOf pending p.frame := by
  induction pending with
  | nil => exact ⟨p, .inr rfl, rfl⟩
  | cons r pending ih =>
    obtain ⟨q, hq, hframe⟩ := ih
    have hmax : Flow.victimOf (r :: pending) p.frame =
        max r.frame (Flow.victimOf pending p.frame) := rfl
    by_cases hle : r.frame ≤ Flow.victimOf pending p.frame
    · exact ⟨q, hq.imp_left (List.mem_cons_of_mem _), by rw [hmax, max_eq_right hle, hframe]⟩
    · refine ⟨r, .inl List.mem_cons_self, ?_⟩
      rw [hmax, max_eq_left (Nat.le_of_not_le hle)]

/-- A frame that overflows for the first time is not counted. -/
theorem victim_uncounted {p : Packet} {todo : List Packet} (h : Closed cfg σ)
    (hands : InHands cfg σ (⟨todo, .parking p⟩ :: others)) {victim : ℕ}
    (hvictim : victim ∈ (Flow.park cfg p σ).1)
    (hout : victim ∉ σ.table.runningFrames.map Prod.fst) : victim ∉ σ.log.counted := by
  intro hcounted
  unfold Flow.park at hvictim
  split at hvictim
  · dsimp only at hvictim
    split at hvictim
    · next hnew =>
      obtain rfl := Option.some.inj hvictim
      have hplaced := h.gone _ hcounted hnew.2 hout
      obtain ⟨q, hq, hframe⟩ := victimOf_frame σ.pending p
      rw [← hframe] at hplaced
      refine hplaced.none_left hands (hq.imp_right fun hsame => ⟨_, List.mem_cons_self, ?_⟩)
      rw [hsame]
      exact List.mem_append_right _ (List.mem_singleton_self p)
    · cases hvictim
  · cases hvictim

/-! ## Steps -/

theorem receive (h : Closed cfg σ) {p : Packet}
    (hok : p.frame ∈ σ.log.counted →
      σ.frameDropped p.frame = true ∨ p.frame ∈ σ.table.runningFrames.map Prod.fst) :
    Closed cfg { σ with log := { σ.log with received := p :: σ.log.received } } := by
  refine ⟨h.marked, fun frame hf hundropped hout q hq hframe => ?_, h.counted, h.running⟩
  have hne : p ≠ q := by
    rintro rfl
    subst hframe
    cases hok hf with
    | inl hdropped =>
      rw [hundropped] at hdropped
      cases hdropped
    | inr hrunning => exact hout hrunning
  have hq' : q ∈ σ.log.received := (List.mem_cons.mp hq).resolve_left hne.symm
  rw [List.count_cons_of_ne hne]
  exact h.gone frame hf hundropped hout q hq' hframe

theorem clear (h : Closed cfg σ) {frame : ℕ} (hclear : Flow.isDropped cfg frame σ = false) :
    Closed cfg { σ with log := { σ.log with cleared := frame :: σ.log.cleared } } := by
  refine ⟨fun f hf => ?_, h.gone, h.counted, h.running⟩
  obtain ⟨hnetwork, hlt, hruns⟩ := h.marked f hf
  refine ⟨hnetwork, hlt, fun hin => ?_⟩
  cases List.mem_cons.mp hin with
  | inl hsame =>
    have hmarked : σ.frameDropped frame = true := hsame ▸ hf
    rw [hsame] at hlt
    simp [Flow.isDropped, hlt, hmarked] at hclear
  | inr hin => exact hruns hin

/-- The frame is counted: it is marked, or has a slot. -/
theorem count (h : Closed cfg σ) {frame : ℕ} (hcounted : σ'.log.counted = frame :: σ.log.counted)
    (hwhy : σ.frameDropped frame = true ∨ frame ∈ σ.table.runningFrames.map Prod.fst)
    (hdropped : σ'.frameDropped = σ.frameDropped) (hcleared : σ'.log.cleared = σ.log.cleared)
    (hreceived : σ'.log.received = σ.log.received) (hadmitted : σ'.log.admitted = σ.log.admitted)
    (hlost : σ'.log.lost = σ.log.lost) (hoccupied : σ'.log.occupied = σ.log.occupied)
    (hrunning : σ'.table.runningFrames = σ.table.runningFrames) : Closed cfg σ' := by
  refine ⟨?_, ?_, ?_, ?_⟩
  · rw [hdropped, hcleared, hrunning]
    exact h.marked
  · rw [hcounted, hdropped, hrunning]
    refine List.forall_mem_cons.mpr ⟨fun hundropped hout => ?_, fun f hf hundropped hout => ?_⟩
    · cases hwhy with
      | inl hmarked =>
        rw [hundropped] at hmarked
        cases hmarked
      | inr hin => exact absurd hin hout
    · unfold AllPlaced
      rw [hreceived, hadmitted, hlost]
      exact h.gone f hf hundropped hout
  · rw [hcounted, hdropped, hoccupied]
    refine List.forall_mem_cons.mpr ⟨hwhy.imp_right fun hin => ?_, h.counted⟩
    obtain ⟨e, he, rfl⟩ := List.mem_map.mp hin
    exact h.running e he
  · rw [hrunning, hoccupied]
    exact h.running

/-- The frame is marked: it has a slot, or no packet past the look at the drop bit. -/
theorem mark (h : Closed cfg σ) {frame : ℕ} (hnetwork : cfg.hasNetwork = true)
    (hlt : frame < cfg.trackable)
    (hwhy : frame ∈ σ.log.cleared → frame ∈ σ.table.runningFrames.map Prod.fst)
    (hdropped : σ'.frameDropped = Function.update σ.frameDropped frame true)
    (hcleared : σ'.log.cleared = σ.log.cleared) (hcounted : σ'.log.counted = σ.log.counted)
    (hplaced : ∀ f, AllPlaced σ f → AllPlaced σ' f) (hoccupied : σ'.log.occupied = σ.log.occupied)
    (hrunning : σ'.table.runningFrames = σ.table.runningFrames) : Closed cfg σ' := by
  have hmarks : ∀ f, σ'.frameDropped f = true ↔ f = frame ∨ σ.frameDropped f = true := by
    intro f
    rw [hdropped]
    by_cases hsame : f = frame
    · rw [hsame, Function.update_self]
      exact iff_of_true rfl (.inl rfl)
    · rw [Function.update_of_ne hsame]
      exact ⟨.inr, fun hf => hf.resolve_left hsame⟩
  refine ⟨fun f hf => ?_, fun f hf hundropped hout => ?_, fun f hf => ?_, fun e he => ?_⟩
  · rw [hcleared, hrunning]
    cases (hmarks f).mp hf with
    | inl hsame => exact hsame ▸ ⟨hnetwork, hlt, hwhy⟩
    | inr hf => exact h.marked f hf
  · rw [hcounted] at hf
    rw [hrunning] at hout
    refine hplaced f (h.gone f hf (Bool.eq_false_of_not_eq_true fun hmarked => ?_) hout)
    rw [(hmarks f).mpr (.inr hmarked)] at hundropped
    cases hundropped
  · rw [hcounted] at hf
    rw [hoccupied, hmarks]
    exact (h.counted f hf).imp_left .inr
  · rw [hrunning] at he
    rw [hoccupied]
    exact h.running e he

theorem lookup (h : Closed cfg σ) (frame : ℕ) (site : Site) :
    Closed cfg (Flow.lookup cfg frame site σ).2 := by
  unfold Flow.lookup
  split
  · exact h
  · dsimp only
    split
    · refine h.keep rfl (fun _ hf => List.mem_of_mem_erase hf) rfl (fun _ hs => hs) (fun f hf => ?_)
        (fun _ he => he) fun _ he => .inl he
      dsimp only
      split
      · exact hf
      · exact List.mem_cons_of_mem _ hf
    · exact h

theorem assign (h : Closed cfg σ) (hcoherent : Coherent cfg.toSlotConfig σ.table) (frame : ℕ)
    (site : Site) : Closed cfg (Flow.assignUnderLock cfg frame site σ).2 := by
  refine h.keep ?_ ?_ ?_ (fun f hs => ?_) ?_ ?_ fun e he => ?_
  · rw [Flow.assignUnderLock_eq]
  · rw [Flow.assignUnderLock_cleared]
    split
    · exact fun _ hf => List.mem_of_mem_erase hf
    · exact fun _ hf => hf
  · rw [Flow.assignUnderLock_log]
  · unfold AllPlaced
    rw [Flow.assignUnderLock_log]
    exact hs
  · rw [Flow.assignUnderLock_occupied]
    split
    · exact List.subset_cons_self ..
    · exact List.Subset.refl _
  · rw [Flow.assignUnderLock_table]
    rcases assignUnderLock_seats hcoherent frame with hnone | ⟨slot, -, hfound⟩ | ⟨slot, newly, d, hseat, hs⟩
    · rw [hnone]
      exact fun _ he => he
    · rw [hfound]
      exact fun _ he => he
    · rw [hseat]
      show σ.table.runningFrames ⊆ d.runningFrames
      rw [hs.running]
      exact List.subset_append_left ..
  · rw [Flow.assignUnderLock_table] at he
    refine (mem_assignUnderLock he).imp_right fun hnew => ?_
    rw [Flow.assignUnderLock_occupied, Flow.assignUnderLock_reply, if_pos ⟨hnew.2.2, hnew.2.1⟩, hnew.1]
    exact List.mem_cons_self

theorem park {p : Packet} (h : Closed cfg σ) (hands : InHands cfg (Flow.park cfg p σ).2 ls)
    (hnetwork : cfg.hasNetwork = true)
    (hok : ∀ victim ∈ (Flow.park cfg p σ).1,
      victim ∉ σ.table.runningFrames.map Prod.fst ∧ victim ∉ σ.log.cleared) :
    Closed cfg (Flow.park cfg p σ).2 := by
  have hplaced : ∀ f, AllPlaced σ f → AllPlaced (Flow.park cfg p σ).2 f := by
    intro f hs
    refine hs.keep hands (by rw [Flow.park_eq]) (fun q => by rw [Flow.park_eq]) fun q => ?_
    unfold Flow.park
    split
    · simp only [List.count_append]
      omega
    · exact le_rfl
  unfold Flow.park at hok hplaced ⊢
  by_cases hfull : cfg.framePackets * cfg.slots ≤ σ.pending.length
  · simp only [if_pos hfull] at hok hplaced ⊢
    by_cases hvictim : Flow.victimOf σ.pending p.frame < cfg.trackable
    · simp only [hvictim, true_and] at hok hplaced ⊢
      cases hmarked : σ.frameDropped (Flow.victimOf σ.pending p.frame) with
      | false =>
        rw [if_pos hmarked] at hok
        obtain ⟨-, hclear⟩ := hok _ rfl
        exact h.mark hnetwork hvictim (fun hin => absurd hin hclear) rfl rfl rfl hplaced rfl rfl
      | true =>
        refine h.keep ?_ (fun _ hf => hf) rfl hplaced (fun _ hf => hf) (fun _ he => he)
          fun _ he => .inl he
        exact Function.update_eq_self_iff.mpr hmarked.symm
    · simp only [if_neg hvictim] at hplaced ⊢
      exact h.keep rfl (fun _ hf => hf) rfl hplaced (fun _ hf => hf) (fun _ he => he)
        fun _ he => .inl he
  · simp only [if_neg hfull] at hplaced ⊢
    exact h.keep rfl (fun _ hf => hf) rfl hplaced (fun _ hf => hf) (fun _ he => he)
      fun _ he => .inl he

/-- The slot is free again. -/
theorem release (h : Closed cfg σ) (hcoherent : Coherent cfg.toSlotConfig σ.table) {slot : ℕ}
    (hok : if σ.frameDropped (σ.table.frameId slot) then σ.table.frameId slot ∉ σ.log.cleared
      else AllPlaced σ (σ.table.frameId slot))
    (hdropped : σ'.frameDropped = σ.frameDropped) (hcleared : σ'.log.cleared = σ.log.cleared)
    (hcounted : σ'.log.counted = σ.log.counted) (hreceived : σ'.log.received = σ.log.received)
    (hadmitted : σ'.log.admitted = σ.log.admitted) (hlost : σ'.log.lost = σ.log.lost)
    (hoccupied : σ'.log.occupied = σ.log.occupied)
    (hrunning : σ'.table.runningFrames = σ.table.runningFrames.filter fun e => e.2 ≠ slot) :
    Closed cfg σ' := by
  -- a frame that has lost its slot is that of the slot
  have hleft : ∀ {frame}, frame ∈ σ.table.runningFrames.map Prod.fst →
      frame ∈ σ'.table.runningFrames.map Prod.fst ∨ frame = σ.table.frameId slot := by
    intro frame hin
    obtain ⟨e, he, rfl⟩ := List.mem_map.mp hin
    by_cases hslot : e.2 = slot
    · exact .inr (hslot ▸ (hcoherent.frameOf e he).symm)
    · rw [hrunning]
      exact .inl (List.mem_map_of_mem (List.mem_filter.mpr ⟨he, decide_eq_true hslot⟩))
  refine ⟨fun f hf => ?_, fun f hf hundropped hout => ?_, ?_, fun e he => ?_⟩
  · rw [hdropped] at hf
    obtain ⟨hnetwork, hlt, hruns⟩ := h.marked f hf
    refine ⟨hnetwork, hlt, fun hin => ?_⟩
    rw [hcleared] at hin
    refine (hleft (hruns hin)).resolve_right fun hsame => ?_
    rw [← hsame, if_pos hf] at hok
    exact hok hin
  · rw [hcounted] at hf
    rw [hdropped] at hundropped
    unfold AllPlaced
    rw [hreceived, hadmitted, hlost]
    by_cases hin : f ∈ σ.table.runningFrames.map Prod.fst
    · have hsame := (hleft hin).resolve_left hout
      rw [← hsame, if_neg (by rw [hundropped]; exact Bool.false_ne_true)] at hok
      exact hok
    · exact h.gone f hf hundropped hin
  · rw [hcounted, hdropped, hoccupied]
    exact h.counted
  · rw [hrunning] at he
    rw [hoccupied]
    exact h.running e (List.mem_filter.mp he).1

theorem restart (h : Closed cfg σ) (hcompute : cfg.hasNetwork = false) (slot : ℕ) :
    Closed cfg (Flow.restartUnderLock cfg slot σ) := by
  have hrunning : (Flow.restartUnderLock cfg slot σ).table.runningFrames =
      σ.table.runningFrames ++ [(σ.nextFrameId cfg, slot)] := by
    simp only [Flow.restartUnderLock, SlotData.restartSlotNonnetwork, hcompute, Bool.false_eq_true,
      if_false]
    rfl
  refine h.keep rfl (fun _ hf => hf) rfl (fun _ hs => hs) (List.subset_cons_self ..) ?_ fun e he => ?_
  · rw [hrunning]
    exact List.subset_append_left ..
  · rw [hrunning] at he
    refine (List.mem_append.mp he).imp_right fun he => ?_
    obtain rfl := List.mem_singleton.mp he
    exact List.mem_cons_self

/-- A number that no frame had is that of a frame that is not finished. -/
theorem new_unfinished (h : Closed cfg σ) (hcompute : cfg.hasNetwork = false) {frame : ℕ}
    (hnew : frame ∉ σ.log.occupied) :
    frame ∉ σ.table.runningFrames.map Prod.fst ∧ ¬ Finished σ frame := by
  have hundropped : ¬ σ.frameDropped frame = true := by
    intro hdropped
    have hnetwork := (h.marked frame hdropped).1
    rw [hcompute] at hnetwork
    cases hnetwork
  refine ⟨fun hin => ?_, fun hfinished => ?_⟩
  · obtain ⟨e, he, rfl⟩ := List.mem_map.mp hin
    exact hnew (h.running e he)
  · cases hfinished with
    | inl hcounted => exact (h.counted frame hcounted).elim hundropped hnew
    | inr hdropped => exact hundropped hdropped

theorem turn {a : FlowAct} (h : Closed cfg σ) (hturn : FlowTurn cfg σ a l σ' l')
    (tally : TallyInv cfg σ (l :: others)) (hands : InHands cfg σ' (l' :: others)) {choice : ℕ}
    (hok : CountsEachOnce cfg σ choice a) : Closed cfg σ' := by
  have hcoherent := Tallied.coherent tally
  have htoken : ∀ {frame}, l.tally.token = some frame → σ.frameDropped frame = true :=
    fun htoken => Tallied.marked tally _ List.mem_cons_self _ htoken
  cases hturn with
  | prepare | prepared | bump | dispatchInitial | batch | complete | takePending | claim
  | resetClaimed | resetSpent | resetMarking | countActive | evict | spare =>
    exact h.stay rfl rfl rfl rfl rfl rfl rfl rfl
  | openWindow | ahead | inWindow | refuse | refuseNow | toPark | isActive | incomplete | pass
  | loadStalled | loadFrameId => exact h
  | receive p => exact h.receive hok
  | discard todo p | discardBeyond todo p =>
    refine h.keep rfl (fun _ hf => hf) rfl (fun f hs => ?_) (fun _ hf => hf) (fun _ he => he)
      fun _ he => .inl he
    exact hs.keep hands rfl (fun _ => le_rfl) fun _ => List.count_le_count_cons
  | clear p todo hkept => exact h.clear hkept
  | lookup todo s frame site => exact h.lookup frame site
  | assign todo s frame site => exact h.assign hcoherent frame site
  | countPacket todo slot p =>
    refine h.keep rfl (fun _ hf => hf) rfl (fun f hs => ?_) (fun _ hf => hf) (fun _ he => he)
      fun _ he => .inl he
    exact hs.keep hands rfl (fun _ => List.count_le_count_cons) fun _ => le_rfl
  | buffered todo ni | promotedBefore todo ni =>
    rw [Flow.buffer_eq]
    exact h.stay rfl rfl rfl rfl rfl rfl rfl rfl
  | park todo p hnetwork => exact h.park hands hnetwork hok
  | swapDropped todo slot frame hexpires hnetwork hlt =>
    have hin := Tallied.named tally _ List.mem_cons_self slot frame rfl rfl
    exact h.mark hnetwork hlt (fun _ => List.mem_map_of_mem hin) rfl rfl rfl (fun _ hs => hs) rfl rfl
  | countVictim todo frame =>
    exact h.count rfl (.inl (htoken rfl)) rfl rfl rfl rfl rfl rfl rfl
  | countEvicted todo slot frame =>
    exact h.count rfl (.inl (htoken rfl)) rfl rfl rfl rfl rfl rfl rfl
  | countCompletion todo slot rivals =>
    have hin := (Tallied.held tally _ List.mem_cons_self slot rfl).1
    obtain ⟨e, he, rfl⟩ := List.mem_map.mp hin
    refine h.count rfl (.inr ?_) rfl rfl rfl rfl rfl rfl rfl
    rw [hcoherent.frameOf e he]
    exact List.mem_map_of_mem he
  | release todo slot restart =>
    refine h.release hcoherent hok ?_ ?_ ?_ ?_ ?_ ?_ ?_ ?_
    · rw [Flow.releaseUnderLock_eq]
    · rw [Flow.releaseUnderLock_log]
    · rw [Flow.releaseUnderLock_log]
    · rw [Flow.releaseUnderLock_log]
    · rw [Flow.releaseUnderLock_log]
    · rw [Flow.releaseUnderLock_log]
    · rw [Flow.releaseUnderLock_log]
    · rw [Flow.releaseUnderLock_table]
      exact runningFrames_releaseUnderLock hcoherent slot
  | restart todo slot hcompute => exact h.restart hcompute slot

end Closed

end Closing

/-! ## Runs -/

structure CountInv (cfg : FlowConfig) (σ : Flow) (ls : List FlowPhase) : Prop where
  tally : TallyInv cfg σ ls
  hands : InHands cfg σ ls
  closed : Closed cfg σ

theorem TallyInv.turn {cfg : FlowConfig} {σ σ' : Flow} {l l' : FlowPhase} {others : List FlowPhase}
    {a : FlowAct} (h : TallyInv cfg σ (l :: others)) (hturn : FlowTurn cfg σ a l σ' l')
    (hands : InHands cfg σ (l :: others)) (closed : Closed cfg σ) {choice : ℕ}
    (hok : CountsEachOnce cfg σ choice a) : TallyInv cfg σ' (l' :: others) := by
  have hcoherent := Tallied.coherent h
  cases hturn with
  | prepare | prepared | openWindow | ahead | inWindow | receive | discard | discardBeyond | refuse
  | clear | refuseNow | toPark | countPacket | batch | takePending | countActive =>
    exact h.stay rfl hcoherent rfl rfl rfl rfl rfl fun _ hs => hs
  | isActive | incomplete | pass | loadStalled => exact h
  | lookup todo s frame site hasks =>
    have htally : ∀ r, ((flowDiscipline cfg).next ⟨todo, s⟩ (.lookup frame site) r).tally =
        FlowPhase.tally ⟨todo, s⟩ := by
      intro r
      cases r with
      | none => rfl
      | some slot => exact tally_assigned hasks _ _
    refine h.stay (htally _) ?_ ?_ ?_ ?_ ?_ ?_ ?_
    all_goals rw [Flow.lookup_eq]
    · exact hcoherent
    · exact fun _ hs => hs
  | assign todo s frame site hasks =>
    refine h.assign hasks ?_
    cases site with
    | packet =>
      obtain ⟨p, rfl, rfl⟩ := hasks
      exact closed.unfinished hands
    | preparation =>
      have hpart : frame ∈ σ.table.runningFrames.map Prod.fst ∨
        frame ∉ σ.log.occupied ∧ σ.frameDropped frame = false := hok
      refine hpart.imp_right fun hnew hfinished => ?_
      have hundropped : ¬ σ.frameDropped frame = true := by
        rw [hnew.2]
        exact Bool.false_ne_true
      cases hfinished with
      | inl hcounted => exact (closed.counted frame hcounted).elim hundropped hnew.1
      | inr hdropped => exact hundropped hdropped
  | bump l slot => exact h.stay rfl (hcoherent.bump slot) rfl rfl rfl rfl rfl fun _ hs => hs
  | dispatchInitial todo s slot slots hroots hdue =>
    exact h.stay (tally_dispatched s hdue) hcoherent rfl rfl rfl rfl rfl fun _ hs => hs
  | buffered todo ni | promotedBefore todo ni =>
    refine h.stay rfl (hcoherent.buffer ni) ?_ ?_ ?_ ?_ ?_ ?_
    all_goals rw [Flow.buffer_eq]
    exact fun _ hs => hs
  | complete l slot => exact h.stay rfl hcoherent rfl rfl rfl rfl rfl fun _ => update_true
  | park todo p =>
    refine h.park rfl fun victim hvictim => ⟨(hok victim hvictim).1, ?_⟩
    exact closed.victim_uncounted hands hvictim (hok victim hvictim).1
  | swapDropped todo slot frame => exact h.swapDropped rfl
  | countVictim todo frame => exact h.countDropped (.inl rfl)
  | countEvicted todo slot frame => exact h.countDropped (.inr ⟨slot, rfl⟩)
  | claim slot hclaim => exact h.claimCompletion hclaim hok
  | resetClaimed todo slot => exact h.resetCounters (.inl rfl)
  | resetSpent todo slot => exact h.resetCounters (.inr (.inl rfl))
  | resetMarking todo slot frame => exact h.resetCounters (.inr (.inr ⟨frame, rfl⟩))
  | countCompletion todo slot rivals => exact h.countCompletion rfl rivals _
  | release todo slot restart => exact h.release rfl _
  | restart todo slot hcompute =>
    obtain ⟨hslot, hnew⟩ := hok
    obtain ⟨hframe, hunfinished⟩ := closed.new_unfinished hcompute hnew
    exact h.restart rfl hcompute hslot hframe hunfinished
  | evict slot hexpires hnetwork hopen => exact h.claimEviction hopen (hok hopen)
  | spare slot => exact h.stay rfl hcoherent rfl rfl rfl rfl rfl fun _ => update_true
  | loadFrameId todo slot => exact h.loadFrameId rfl

theorem count_maintains (cfg : FlowConfig) :
    Machine.Maintains (flowMachine cfg) (CountsEachOnce cfg) (flowDiscipline cfg) .idle
      (· = .idle) (CountInv cfg) := by
  refine flow_maintains (fun h hp => ⟨h.tally.perm hp, h.hands.perm hp, h.closed⟩) ?_
  intro σ σ' others l l' a choice hturn h hok
  have hhands := h.hands.turn hturn
  exact ⟨h.tally.turn hturn h.hands h.closed hok, hhands, h.closed.turn hturn h.tally hhands hok⟩

theorem countInv_start (cfg : FlowConfig) (threads : ℕ) :
    CountInv cfg .initial (List.replicate threads .idle) where
  tally := tallyInv_start cfg threads
  hands := inHands_start cfg threads
  closed :=
    ⟨fun _ hf => (by cases hf), fun _ hf => (by cases hf), fun _ hf => (by cases hf),
      fun _ he => (by cases he)⟩

/-- The counter has been advanced once for each frame counted, and a counted frame has a slot only as
long as the thread that finished it has not released it, when: no packet comes of a frame that has
completed and given up its slot; at the release of a slot no packet of its frame is on the way, or, if
the frame is marked as dropped, none that has passed the look at the drop bit; a frame that overflows
has no slot and no such packet; the preparation and restarts start new frames; and no slot is both
completed and evicted. -/
theorem frames_counted_once (cfg : FlowConfig) (threads : ℕ) (w : World flowSteps Flow)
    (hrun : (flowMachine cfg).Reaches (CountsEachOnce cfg) (flowWorld threads) w) :
    w.shared.frameCompleteCounter = w.shared.log.counted.length ∧ w.shared.log.counted.Nodup ∧
      ∀ e ∈ w.shared.table.runningFrames, e.1 ∈ w.shared.log.counted →
        e.2 ∈ w.shared.claimed ∨ e.2 ∈ w.shared.log.evicting := by
  have hcounter : w.shared.frameCompleteCounter = w.shared.log.counted.length :=
    hrun.shared (P := fun σ => σ.frameCompleteCounter = σ.log.counted.length) rfl
      fun σ choice a _ hσ => by
        obtain ⟨hcounter, hcounted⟩ := Flow.perform_counts cfg a σ
        simp only [flowMachine]
        rw [hcounter, hcounted, List.length_append, hσ, Nat.add_comm]
  obtain ⟨ls, hinv, -⟩ := (count_maintains cfg).reached hrun (countInv_start cfg threads)
    (Machine.follows_idle (· = FlowPhase.idle) rfl threads)
  have htally := hinv.tally
  refine ⟨hcounter, (List.nodup_append.mp htally.settled).1, fun e he hcounted => ?_⟩
  by_contra hfree
  refine htally.unsettled e he (fun t ht hspent => hfree ?_) (List.mem_append_left _ hcounted)
  exact (htally.held t ht e.2 (htally.spender t ht e.2 hspent)).2.imp_right And.left

/-- One slot, and two frames of one packet each. -/
def onePacketFrames : FlowConfig where
  slots := 1
  slotPriorityEnabled := true
  hasNetwork := true
  maxFrames := 2
  one_le_slots := Nat.zero_lt_one
  slots_le := one_slot_le
  hasInitialNodes := false
  hasIndexFunction := false
  framePackets := 1
  frameTimeoutMs := 0
  slots_le_maxFrames := Nat.zero_lt_two

/-- A packet of frame 0 is admitted, and the frame completes up to the release of its slot. -/
def receivedAndCompleted : List (Move FlowJob) :=
  .begin 1 (.poll false [⟨0, 0⟩]) :: turns 1 10 ++ .begin 0 (.check 0) :: turns 0 5

theorem frames_counted_once_onePacketFrames : ∃ w,
    (flowMachine onePacketFrames).Reaches (CountsEachOnce onePacketFrames) (flowWorld 2) w ∧
      w.shared.log.counted = [0] ∧ w.shared.log.counted.Nodup := by
  have hrun : ((flowMachine onePacketFrames).fireAllowed (CountsEachOnce onePacketFrames)
      receivedAndCompleted (flowWorld 2)).any (fun w => w.shared.log.counted = [0]) = true := by
    decide +kernel
  obtain ⟨w, hw, hstate⟩ := (Option.any_eq_true _ _).mp hrun
  have hreach := Machine.reaches_of_fireAllowed hw
  exact ⟨w, hreach, of_decide_eq_true hstate,
    (frames_counted_once onePacketFrames 2 w hreach).2.1⟩

/-- After the release a second packet of frame 0 comes: the frame is given the slot again, and
completes again. -/
theorem frame_counted_twice : ¬ ∀ (cfg : FlowConfig) (threads : ℕ) (w : World flowSteps Flow),
    (flowMachine cfg).Reaches (fun _ _ _ => True) (flowWorld threads) w →
      w.shared.log.counted.Nodup := by
  intro h
  have hrun : ((flowMachine onePacketFrames).fireAllowed (fun _ _ _ => True)
      (receivedAndCompleted ++ turns 0 1 ++ receivedAndCompleted) (flowWorld 2)).any
        (fun w => w.shared.log.counted = [0, 0]) = true := by
    decide +kernel
  obtain ⟨w, hw, hstate⟩ := (Option.any_eq_true _ _).mp hrun
  have htwice : w.shared.log.counted = [0, 0] := of_decide_eq_true hstate
  have honce := h onePacketFrames 2 w (Machine.reaches_of_fireAllowed hw)
  rw [htwice] at honce
  exact absurd honce (by decide)

end Tomii.Slots
