import Tomii.Slots.FlowTurns

/-! # Packets in the hands of threads

Between the channel and a slot a packet is parked, or in the hands of the thread that took it. Every
step keeps the balance, and the log of frames whose drop bit was found clear lists the threads that
are about to ask for a slot. -/
namespace Tomii.Slots
set_option autoImplicit false
set_option maxHeartbeats 250000

namespace Stage

/-- The packet that the step is about, until it is admitted, parked or thrown away. -/
def packet : Stage → Option Packet
  | .received p | .cleared p | .starting p _ | .seated p _ | .unseated p | .parking p
  | .refused p => some p
  | _ => none

/-- The frame whose drop bit was found clear and that has no slot yet. -/
def clearedFor : Stage → Option ℕ
  | .cleared p => some p.frame
  | _ => none

end Stage

def FlowPhase.hand (l : FlowPhase) : List Packet := l.todo ++ l.stage.packet.toList

def FlowPhase.clearedFor (l : FlowPhase) : Option ℕ := l.stage.clearedFor

/-- Every packet received is admitted, parked, thrown away, or in the hands of a thread. -/
def Conserved (σ : Flow) (ls : List FlowPhase) : Prop :=
  ∀ p, σ.log.received.count p = (σ.log.admitted.map Prod.fst).count p + σ.pending.count p +
    σ.log.lost.count p + (ls.flatMap FlowPhase.hand).count p

namespace Conserved

variable {σ σ' : Flow} {l l' : FlowPhase} {ls ls' others : List FlowPhase}

theorem perm (h : Conserved σ ls) (hp : ls.Perm ls') : Conserved σ ls' := by
  intro p
  rw [h p, (hp.flatMap_right FlowPhase.hand).count_eq]

/-- What a step takes from one place it puts in another. -/
theorem move (h : Conserved σ (l :: others))
    (hbalance : ∀ p, σ'.log.received.count p + ((σ.log.admitted.map Prod.fst).count p +
        σ.pending.count p + σ.log.lost.count p + l.hand.count p) =
      σ.log.received.count p + ((σ'.log.admitted.map Prod.fst).count p + σ'.pending.count p +
        σ'.log.lost.count p + l'.hand.count p)) : Conserved σ' (l' :: others) := by
  intro p
  have hbefore := h p
  have hstep := hbalance p
  rw [List.flatMap_cons, List.count_append] at hbefore ⊢
  omega

/-- A packet that is parked or in a hand is neither admitted nor lost. -/
theorem unsettled (h : Conserved σ ls) {p : Packet}
    (hin : p ∈ σ.pending ∨ ∃ l ∈ ls, p ∈ l.hand) :
    (σ.log.admitted.map Prod.fst).count p + σ.log.lost.count p < σ.log.received.count p := by
  have hcount := h p
  cases hin with
  | inl hpending =>
    have hpos := List.count_pos_iff.mpr hpending
    omega
  | inr hhand =>
    obtain ⟨l, hl, hp⟩ := hhand
    have hpos := List.count_pos_iff.mpr (List.mem_flatMap.mpr ⟨l, hl, hp⟩)
    omega

end Conserved

/-! ## Turns -/

structure InHands (cfg : FlowConfig) (σ : Flow) (ls : List FlowPhase) : Prop where
  conserved : Conserved σ ls
  compute : cfg.hasNetwork = false → σ.log.received = []
  cleared : σ.log.cleared.Perm (ls.filterMap FlowPhase.clearedFor)

section Hands

variable {cfg : FlowConfig} {σ σ' : Flow} {l l' : FlowPhase} {others : List FlowPhase}

namespace InHands

theorem perm {ls ls' : List FlowPhase} (h : InHands cfg σ ls) (hp : ls.Perm ls') :
    InHands cfg σ ls' where
  conserved := h.conserved.perm hp
  compute := h.compute
  cleared := h.cleared.trans (hp.filterMap _)

/-- On a compute-only graph no packet is anywhere. -/
theorem lost_eq_nil {ls : List FlowPhase} (h : InHands cfg σ ls)
    (hcompute : cfg.hasNetwork = false) : σ.log.lost = [] := by
  refine List.eq_nil_iff_forall_not_mem.mpr fun p hp => ?_
  have hpos := List.count_pos_iff.mpr hp
  have hcount := h.conserved p
  rw [h.compute hcompute, List.count_nil] at hcount
  omega

/-- A step that receives no packet and moves none but from one hand to another place. -/
theorem pass (h : InHands cfg σ (l :: others)) (hreceived : σ'.log.received = σ.log.received)
    (hbalance : ∀ p, (σ.log.admitted.map Prod.fst).count p + σ.pending.count p +
        σ.log.lost.count p + l.hand.count p =
      (σ'.log.admitted.map Prod.fst).count p + σ'.pending.count p + σ'.log.lost.count p +
        l'.hand.count p)
    (hcleared : σ'.log.cleared = σ.log.cleared) (hclear : l'.clearedFor = l.clearedFor) :
    InHands cfg σ' (l' :: others) where
  conserved := h.conserved.move fun p => by
    rw [hreceived, hbalance]
  compute hcompute := hreceived.trans (h.compute hcompute)
  cleared := by
    rw [hcleared, List.filterMap_cons, hclear]
    exact h.cleared

/-- A step that moves no packet. -/
theorem stay (h : InHands cfg σ (l :: others)) (hpending : σ'.pending = σ.pending)
    (hreceived : σ'.log.received = σ.log.received) (hlost : σ'.log.lost = σ.log.lost)
    (hadmitted : σ'.log.admitted = σ.log.admitted) (hcleared : σ'.log.cleared = σ.log.cleared)
    (hhand : ∀ p, l'.hand.count p = l.hand.count p) (hclear : l'.clearedFor = l.clearedFor) :
    InHands cfg σ' (l' :: others) :=
  h.pass hreceived (fun p => by rw [hadmitted, hpending, hlost, hhand]) hcleared hclear

theorem receive (h : InHands cfg σ (.idle :: others)) (hnetwork : cfg.hasNetwork = true)
    (p : Packet) :
    InHands cfg { σ with log := { σ.log with received := p :: σ.log.received } }
      (⟨[], .received p⟩ :: others) where
  conserved := h.conserved.move fun q => by
    simp only [FlowPhase.hand, FlowPhase.idle, Stage.packet, Option.toList, List.nil_append,
      List.count_cons, List.count_nil]
    omega
  compute hcompute := by
    rw [hnetwork] at hcompute
    cases hcompute
  cleared := h.cleared

/-- The drop bit is clear for the packet. -/
theorem clear {p : Packet} {todo : List Packet} (h : InHands cfg σ (⟨p :: todo, .ready⟩ :: others)) :
    InHands cfg { σ with log := { σ.log with cleared := p.frame :: σ.log.cleared } }
      (⟨todo, .cleared p⟩ :: others) where
  conserved := h.conserved.move fun q => by
    simp only [FlowPhase.hand, Stage.packet, Option.toList, List.count_append, List.count_cons,
      List.count_nil]
    omega
  compute := h.compute
  cleared := h.cleared.cons p.frame

/-- The packet loses its claim to a slot, or is given one. -/
theorem settle {p : Packet} {todo : List Packet} (h : InHands cfg σ (⟨todo, .cleared p⟩ :: others))
    (hpending : σ'.pending = σ.pending) (hreceived : σ'.log.received = σ.log.received)
    (hlost : σ'.log.lost = σ.log.lost) (hadmitted : σ'.log.admitted = σ.log.admitted)
    (hcleared : σ'.log.cleared = σ.log.cleared.erase p.frame) (htodo : l'.todo = todo)
    (hpacket : l'.stage.packet = some p) (hclear : l'.clearedFor = none) :
    InHands cfg σ' (l' :: others) where
  conserved := h.conserved.move fun q => by
    rw [hreceived, hadmitted, hpending, hlost]
    rw [show l'.hand = todo ++ [p] by rw [FlowPhase.hand, htodo, hpacket]; rfl]
    rfl
  compute hcompute := hreceived.trans (h.compute hcompute)
  cleared := by
    rw [hcleared, List.filterMap_cons_none hclear]
    have hbefore := h.cleared
    rw [List.filterMap_cons_some (show FlowPhase.clearedFor ⟨todo, .cleared p⟩ = some p.frame from
      rfl)] at hbefore
    exact (hbefore.erase p.frame).trans (by rw [List.erase_cons_head])

theorem mem_cleared {p : Packet} {todo : List Packet}
    (h : InHands cfg σ (⟨todo, .cleared p⟩ :: others)) : p.frame ∈ σ.log.cleared :=
  h.cleared.mem_iff.mpr (List.mem_filterMap.mpr ⟨_, List.mem_cons_self, rfl⟩)

theorem lookup {todo : List Packet} {s : Stage} {frame : ℕ} {site : Site}
    (h : InHands cfg σ (⟨todo, s⟩ :: others)) (hasks : s.Asks frame site) :
    InHands cfg (Flow.lookup cfg frame site σ).2
      ((flowDiscipline cfg).next ⟨todo, s⟩ (.lookup frame site)
        (Flow.lookup cfg frame site σ).1 :: others) := by
  cases site with
  | packet =>
    obtain ⟨p, rfl, rfl⟩ := hasks
    unfold Flow.lookup
    split
    · exact h
    · exact h.settle rfl rfl rfl rfl rfl rfl rfl rfl
  | preparation =>
    obtain ⟨slots, rfl, -⟩ := hasks
    unfold Flow.lookup
    split
    · exact h
    · exact h.stay rfl rfl rfl rfl rfl (fun _ => rfl) rfl

theorem assign {todo : List Packet} {s : Stage} {frame : ℕ} {site : Site}
    (h : InHands cfg σ (⟨todo, s⟩ :: others)) (hasks : s.Asks frame site) :
    InHands cfg (Flow.assignUnderLock cfg frame site σ).2
      ((flowDiscipline cfg).next ⟨todo, s⟩ (.assignUnderLock frame site)
        (Flow.assignUnderLock cfg frame site σ).1 :: others) := by
  have hpending : (Flow.assignUnderLock cfg frame site σ).2.pending = σ.pending := by
    rw [Flow.assignUnderLock_eq]
  have hreceived : (Flow.assignUnderLock cfg frame site σ).2.log.received = σ.log.received := by
    rw [Flow.assignUnderLock_log]
  have hlost : (Flow.assignUnderLock cfg frame site σ).2.log.lost = σ.log.lost := by
    rw [Flow.assignUnderLock_log]
  have hadmitted : (Flow.assignUnderLock cfg frame site σ).2.log.admitted = σ.log.admitted := by
    rw [Flow.assignUnderLock_log]
  have hcleared := Flow.assignUnderLock_cleared cfg frame site σ
  cases site with
  | packet =>
    obtain ⟨p, rfl, rfl⟩ := hasks
    rw [if_pos rfl] at hcleared
    cases (Flow.assignUnderLock cfg p.frame .packet σ).1 with
    | none => exact h.settle hpending hreceived hlost hadmitted hcleared rfl rfl rfl
    | some seat =>
      obtain ⟨slot, newly⟩ := seat
      cases hstart : (newly && cfg.hasInitialNodes) with
      | true =>
        simp only [flowDiscipline, Stage.assigned, hstart, if_true]
        exact h.settle hpending hreceived hlost hadmitted hcleared rfl rfl rfl
      | false =>
        simp only [flowDiscipline, Stage.assigned, hstart]
        exact h.settle hpending hreceived hlost hadmitted hcleared rfl rfl rfl
  | preparation =>
    obtain ⟨slots, rfl, -⟩ := hasks
    rw [if_neg (by decide)] at hcleared
    cases (Flow.assignUnderLock cfg frame .preparation σ).1 with
    | none => exact h.stay hpending hreceived hlost hadmitted hcleared (fun _ => rfl) rfl
    | some seat => exact h.stay hpending hreceived hlost hadmitted hcleared (fun _ => rfl) rfl

theorem takePending {windowEnd : ℕ} (h : InHands cfg σ (⟨[], .window windowEnd⟩ :: others)) :
    InHands cfg (Flow.takePending windowEnd σ).2
      (⟨(Flow.takePending windowEnd σ).1, .ready⟩ :: others) := by
  have hready : (Flow.takePending windowEnd σ).1.Perm
      (σ.pending.filter fun p => p.frame < windowEnd) := List.mergeSort_perm _ _
  refine h.pass rfl (fun q => ?_) rfl rfl
  have hsplit : σ.pending.count q = (σ.pending.filter fun p => p.frame < windowEnd).count q +
      (σ.pending.filter fun p => ¬ p.frame < windowEnd).count q := by
    have hperm := List.filter_append_perm (fun p : Packet => decide (p.frame < windowEnd)) σ.pending
    rw [← List.count_append, ← hperm.count_eq q]
    simp only [decide_not]
  simp only [FlowPhase.hand, Stage.packet, Option.toList, List.append_nil, List.count_nil,
    hready.count_eq q, hsplit]
  simp only [Flow.takePending]
  omega

theorem park {p : Packet} {todo : List Packet} (h : InHands cfg σ (⟨todo, .parking p⟩ :: others)) :
    InHands cfg (Flow.park cfg p σ).2
      ((flowDiscipline cfg).next ⟨todo, .parking p⟩ (.park p) (Flow.park cfg p σ).1 :: others) := by
  have hbalance : ∀ q, (Flow.park cfg p σ).2.pending.count q +
      (Flow.park cfg p σ).2.log.lost.count q =
        σ.pending.count q + σ.log.lost.count q + [p].count q := by
    intro q
    by_cases hfull : cfg.framePackets * cfg.slots ≤ σ.pending.length
    · have hsplit := (List.filter_append_perm
        (fun r : Packet => decide (r.frame = Flow.victimOf σ.pending p.frame)) σ.pending).count_eq q
      simp only [List.count_append, ← decide_not] at hsplit
      simp only [Flow.park, if_pos hfull, ne_eq]
      split
      · simp only [List.count_append]
        omega
      · simp only [List.count_append, List.count_nil]
        omega
    · simp only [Flow.park, if_neg hfull, List.count_append]
      omega
  have hnext : ∀ l' : FlowPhase, l'.hand = todo → l'.clearedFor = none →
      InHands cfg (Flow.park cfg p σ).2 (l' :: others) := by
    intro l' hhand hclear
    refine h.pass ?_ (fun q => ?_) ?_ hclear
    · rw [Flow.park_eq]
    · have hpart := hbalance q
      have hadmitted : (Flow.park cfg p σ).2.log.admitted = σ.log.admitted := by rw [Flow.park_eq]
      rw [hadmitted, hhand, show FlowPhase.hand ⟨todo, .parking p⟩ = todo ++ [p] from rfl,
        List.count_append]
      omega
    · rw [Flow.park_eq]
  cases (Flow.park cfg p σ).1 with
  | none => exact hnext _ (List.append_nil _) rfl
  | some victim => exact hnext _ (List.append_nil _) rfl

theorem discard {p : Packet} {todo : List Packet} {s : Stage}
    (h : InHands cfg σ (⟨todo, s⟩ :: others)) (hpacket : s.packet = some p)
    (hclear : s.clearedFor = none) :
    InHands cfg { σ with log := { σ.log with lost := p :: σ.log.lost } }
      (⟨todo, .ready⟩ :: others) := by
  refine h.pass rfl (fun q => ?_) rfl hclear.symm
  rw [show FlowPhase.hand ⟨todo, s⟩ = todo ++ [p] by rw [FlowPhase.hand, hpacket]; rfl,
    show FlowPhase.hand ⟨todo, .ready⟩ = todo from List.append_nil _]
  simp only [List.count_append, List.count_cons, List.count_nil]
  omega

end InHands

/-- A dispatch leaves the packet where it is. -/
theorem dispatched_hand {s : Stage} {slot : ℕ} {slots : List ℕ} (hdue : s.due = slot :: slots) :
    s.dispatched.packet = s.packet ∧ s.dispatched.clearedFor = s.clearedFor := by
  have hrest : ∀ rest : List ℕ, (Stage.afterDispatch rest).packet = none ∧
      (Stage.afterDispatch rest).clearedFor = none := by
    intro rest
    cases rest with
    | nil => exact ⟨rfl, rfl⟩
    | cons s rest => exact ⟨rfl, rfl⟩
  cases s with
  | starting p s => exact ⟨rfl, rfl⟩
  | restarted s => exact ⟨rfl, rfl⟩
  | promoted next restart =>
    cases restart with
    | none => exact ⟨rfl, rfl⟩
    | some again => exact ⟨rfl, rfl⟩
  | assigning owed => exact hrest _
  | dispatching owed => exact hrest _
  | _ => cases hdue

theorem InHands.turn {a : FlowAct} (h : InHands cfg σ (l :: others))
    (hturn : FlowTurn cfg σ a l σ' l') : InHands cfg σ' (l' :: others) := by
  cases hturn with
  | prepare | prepared | openWindow | ahead | inWindow | refuseNow | toPark | bump | isActive
  | batch | complete | incomplete | countVictim | countEvicted | claim | pass
  | resetClaimed | resetSpent | resetMarking | countActive | countCompletion | loadStalled | evict
  | spare | loadFrameId =>
    exact h.stay rfl rfl rfl rfl rfl (fun _ => rfl) rfl
  | receive p hnetwork => exact h.receive hnetwork p
  | discard todo p => exact h.discard rfl rfl
  | discardBeyond todo p => exact h.discard rfl rfl
  | refuse p todo =>
    refine h.stay rfl rfl rfl rfl rfl (fun q => ?_) rfl
    show (todo ++ [p]).count q = ((p :: todo) ++ []).count q
    rw [List.append_nil]
    exact (List.perm_append_singleton p todo).count_eq q
  | clear p todo => exact h.clear
  | lookup todo s frame site hasks => exact h.lookup hasks
  | assign todo s frame site hasks => exact h.assign hasks
  | dispatchInitial todo s slot slots hroots hdue =>
    obtain ⟨hpacket, hclear⟩ := dispatched_hand hdue
    refine h.stay rfl rfl rfl rfl rfl (fun q => ?_) hclear
    show (todo ++ s.dispatched.packet.toList).count q = (todo ++ s.packet.toList).count q
    rw [hpacket]
  | countPacket todo slot p =>
    refine h.pass rfl (fun q => ?_) rfl rfl
    simp only [Flow.countPacket, FlowPhase.hand, Stage.packet, Option.toList, List.count_append,
      List.map_cons, List.count_cons, List.count_nil]
    omega
  | buffered todo ni | promotedBefore todo ni =>
    rw [Flow.buffer_eq]
    exact h.stay rfl rfl rfl rfl rfl (fun _ => rfl) rfl
  | park todo p => exact h.park
  | swapDropped todo slot frame =>
    cases σ.frameDropped frame with
    | true => exact h.stay rfl rfl rfl rfl rfl (fun _ => rfl) rfl
    | false => exact h.stay rfl rfl rfl rfl rfl (fun _ => rfl) rfl
  | takePending => exact h.takePending
  | release todo slot restart =>
    obtain ⟨s, hreleased, hs⟩ := FlowPhase.released_stage cfg todo slot restart
      ((Flow.releaseUnderLock cfg slot σ).1.map Prod.fst)
    have hquiet : s.packet = none ∧ s.clearedFor = none := by
      rcases hs with rfl | ⟨again, -, rfl⟩ | ⟨next, -, -, rfl⟩
      · exact ⟨rfl, rfl⟩
      · exact ⟨rfl, rfl⟩
      · exact ⟨rfl, rfl⟩
    rw [hreleased]
    refine h.stay ?_ ?_ ?_ ?_ ?_ (fun q => ?_) hquiet.2
    · rw [Flow.releaseUnderLock_eq]
    · rw [Flow.releaseUnderLock_log]
    · rw [Flow.releaseUnderLock_log]
    · rw [Flow.releaseUnderLock_log]
    · rw [Flow.releaseUnderLock_log]
    · rw [FlowPhase.hand, hquiet.1]
      rfl
  | restart todo slot =>
    cases cfg.hasInitialNodes with
    | true => exact h.stay rfl rfl rfl rfl rfl (fun _ => rfl) rfl
    | false => exact h.stay rfl rfl rfl rfl rfl (fun _ => rfl) rfl

theorem inHands_start (cfg : FlowConfig) (threads : ℕ) :
    InHands cfg .initial (List.replicate threads .idle) where
  conserved := by
    intro p
    have hempty : (List.replicate threads FlowPhase.idle).flatMap FlowPhase.hand = [] :=
      List.flatMap_eq_nil_iff.mpr fun l hl => by rw [List.eq_of_mem_replicate hl]; rfl
    rw [hempty]
    rfl
  compute _ := rfl
  cleared := by
    have hempty : (List.replicate threads FlowPhase.idle).filterMap FlowPhase.clearedFor = [] :=
      List.filterMap_eq_nil_iff.mpr fun l hl => by rw [List.eq_of_mem_replicate hl]; rfl
    rw [hempty]
    exact .nil

end Hands

end Tomii.Slots
