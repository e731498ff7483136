import Tomii.Foundations.Relay
import Tomii.Handover.Generations

/-! # One generation reads at a time

Whatever turns the generations take, the sockets pass from one to the next as a relay: a generation
that has them is the only one that reads, and its successor goes on where it stopped. -/
namespace Tomii.Handover
set_option autoImplicit false
set_option maxHeartbeats 250000

variable {D : Type} {cfg : ℕ → GenConfig} {fits : D → Bool} {g : Gen D} {n : Net D} {r : Receiver}
  {i k : ℕ}

/-! ## Receivers -/

/-- It has acknowledged, or will not any more. -/
def ReceiverAt.Settled : ReceiverAt → Prop
  | .frozen => True
  | .stopped => True
  | _ => False

instance : DecidablePred ReceiverAt.Settled := fun pc => by
  induction pc using ReceiverAt.casesOn with
  | frozen => exact .isTrue trivial
  | stopped => exact .isTrue trivial
  | _ => exact .isFalse not_false

theorem ReceiverAt.Settled.quiet {pc : ReceiverAt} (h : pc.Settled) : pc.Quiet := by
  cases pc with
  | frozen | stopped => trivial
  | _ => exact absurd h not_false

/-- An element of a list, and the list with another one in its place. -/
theorem exists_set_eq {α : Type} {l : List α} {x : α} (h : l[i]? = some x) :
    ∃ before after, l = before ++ x :: after ∧ ∀ y, l.set i y = before ++ y :: after := by
  induction l generalizing i with
  | nil => cases h
  | cons z l ih =>
    cases i with
    | zero =>
      obtain rfl := Option.some.inj h
      exact ⟨[], l, rfl, fun _ => rfl⟩
    | succ i =>
      obtain ⟨before, after, hl, hset⟩ := ih h
      exact ⟨z :: before, after, congrArg (z :: ·) hl, fun y => congrArg (z :: ·) (hset y)⟩

/-- The counter of acknowledgements, between the threads that are frozen and those that have ended
as well. -/
structure Counted (receivers : List Receiver) (frozen : ℕ) : Prop where
  le_frozen : receivers.countP (fun r => r.pc = .frozen) ≤ frozen
  frozen_le : frozen ≤ receivers.countP fun r => decide r.pc.Settled

theorem Counted.setReceiver (h : Counted g.receivers g.frozen) (hr : g.receivers[i]? = some r) {pc : ReceiverAt}
    (hfrozen : pc = .frozen → r.pc = .frozen) (hsettled : r.pc.Settled → pc.Settled) :
    Counted (g.setReceiver i r pc).receivers g.frozen := by
  obtain ⟨before, after, hl, hset⟩ := exists_set_eq hr
  have hle := h.le_frozen
  have hge := h.frozen_le
  refine ⟨?_, ?_⟩
  · simp only [Gen.setReceiver, hset]
    simp only [hl, List.countP_append, List.countP_cons, decide_eq_true_eq] at hle ⊢
    by_cases hpc : pc = .frozen
    · rw [if_pos hpc]
      rw [if_pos (hfrozen hpc)] at hle
      exact hle
    · rw [if_neg hpc]
      omega
  · simp only [Gen.setReceiver, hset]
    simp only [hl, List.countP_append, List.countP_cons, decide_eq_true_eq] at hge ⊢
    by_cases hpc : r.pc.Settled
    · rw [if_pos (hsettled hpc)]
      rw [if_pos hpc] at hge
      exact hge
    · rw [if_neg hpc] at hge
      omega

theorem Counted.acknowledge (h : Counted g.receivers g.frozen) (hr : g.receivers[i]? = some r)
    (hpc : r.pc = .acknowledging) :
    Counted (g.setReceiver i r .frozen).receivers (g.frozen + 1) := by
  obtain ⟨before, after, hl, hset⟩ := exists_set_eq hr
  have hle := h.le_frozen
  have hge := h.frozen_le
  have hnot : ¬ r.pc.Settled := by
    rw [hpc]
    exact not_false
  refine ⟨?_, ?_⟩
  · simp only [Gen.setReceiver, hset]
    simp only [hl, List.countP_append, List.countP_cons, decide_eq_true_eq, if_true] at hle ⊢
    omega
  · simp only [Gen.setReceiver, hset]
    simp only [hl, List.countP_append, List.countP_cons, decide_eq_true_eq, if_neg hnot] at hge ⊢
    rw [if_pos (show ReceiverAt.Settled .frozen from trivial)]
    omega

/-- With an acknowledgement for each thread, none of them reads. -/
theorem Counted.quiet (h : Counted g.receivers g.frozen) (hall : g.receivers.length ≤ g.frozen) : g.Quiet := by
  intro r hr
  have hcount := Nat.le_antisymm List.countP_le_length (hall.trans h.frozen_le)
  exact (of_decide_eq_true (List.countP_eq_length.mp hcount r hr)).quiet

theorem Gen.Quiet.setReceiver (h : g.Quiet) {pc : ReceiverAt} (hpc : pc.Quiet) :
    (g.setReceiver i r pc).Quiet := by
  intro r' hr'
  rcases List.mem_or_eq_of_mem_set hr' with hmem | rfl
  · exact h r' hmem
  · exact hpc

/-! ## The sockets of a process, and what it sends of them -/

/-- The wait for acknowledgements is over. -/
def ListenerAt.Sends : ListenerAt → Prop
  | .sending _ => True
  | .marking => True
  | .finished => True
  | .failed => True
  | _ => False

structure GenOk (sockets : List ℕ) (g : Gen D) : Prop where
  cell : g.cell = none ∨ (g.cell = some sockets ∧ g.main = .through)
  counted : Counted g.receivers g.frozen
  listening : g.listener ≠ .unbound → g.cell = some sockets
  quiet : g.listener.Sends → g.Quiet

/-- The messages that a listener has still to send. -/
def ListenerAt.Left (sockets : List ℕ) : ListenerAt → List (Message ℕ) → Prop
  | .sending left, after => after = left
  | .marking, _ => True
  | .finished, _ => True
  | .failed, _ => True
  | _, after => after = sendFds sockets

/-- What the successor has got so far, where its main thread is. -/
def Link (sockets : List ℕ) (listener : ListenerAt) (stream : List (Message ℕ)) (connected : Bool) :
    MainAt → Prop
  | .connecting => stream = [] ∧ connected = false ∧ (listener = .unbound ∨ listener = .accepting)
  | .receiving out => ∃ before after, sendFds sockets = before ++ stream ++ after ∧
      out = before.flatMap Message.fds ∧ listener.Left sockets after
  | .took fds => fds = sockets ∧ listener.Sends
  | .through => listener.Sends
  | .panicked => True

/-- What holds in all states reached. -/
structure Inv (cfg : ℕ → GenConfig) (n : Net D) : Prop where
  gens : ∀ k, GenOk (boundSockets cfg) (n.gens k)
  links : ∀ k, Link (boundSockets cfg) (n.gens k).listener (n.gens k).stream (n.gens k).connected
    (n.gens (k + 1)).main

variable {sockets : List ℕ} {main : MainAt}

theorem GenOk.setReceiver (h : GenOk sockets g) (hr : g.receivers[i]? = some r) {pc : ReceiverAt}
    (hfrozen : pc = .frozen → r.pc = .frozen) (hsettled : r.pc.Settled → pc.Settled)
    (hquiet : r.pc.Quiet → pc.Quiet) : GenOk sockets (g.setReceiver i r pc) where
  cell := h.cell
  counted := h.counted.setReceiver hr hfrozen hsettled
  listening := h.listening
  quiet := fun hsends =>
    (h.quiet hsends).setReceiver (hquiet (h.quiet hsends r (List.mem_of_getElem? hr)))

/-- A receiver that reads may go anywhere but to the frozen ones. -/
theorem GenOk.setReading (h : GenOk sockets g) (hr : g.receivers[i]? = some r) {pc : ReceiverAt}
    (hreads : ¬ r.pc.Quiet) (hpc : pc ≠ .frozen) : GenOk sockets (g.setReceiver i r pc) :=
  h.setReceiver hr (fun hfrozen => absurd hfrozen hpc) (fun hsettled => absurd hsettled.quiet hreads)
    fun hquiet => absurd hquiet hreads

theorem GenOk.receiverTurn (h : GenOk sockets g) (hr : g.receivers[i]? = some r) :
    GenOk sockets (g.receiverTurn i r) := by
  unfold Gen.receiverTurn
  cases hpc : r.pc with
  | atCell =>
    refine h.setReading hr (by rw [hpc]; exact not_false) ?_
    split <;> exact ReceiverAt.noConfusion
  | atCellShutdown =>
    refine h.setReading hr (by rw [hpc]; exact not_false) ?_
    split <;> exact ReceiverAt.noConfusion
  | atShutdown =>
    refine h.setReading hr (by rw [hpc]; exact not_false) ?_
    split <;> exact ReceiverAt.noConfusion
  | atFreeze =>
    refine h.setReading hr (by rw [hpc]; exact not_false) ?_
    split <;> exact ReceiverAt.noConfusion
  | polling left =>
    exact h.setReading hr (by rw [hpc]; exact not_false) ReceiverAt.noConfusion
  | acknowledging =>
    exact ⟨h.cell, h.counted.acknowledge hr hpc, h.listening,
      fun hsends => (h.quiet hsends).setReceiver trivial⟩
  | frozen =>
    simp only
    split
    · exact h.setReceiver hr ReceiverAt.noConfusion (fun _ => trivial) fun _ => trivial
    · exact h.setReceiver hr (fun _ => hpc) (fun _ => trivial) fun _ => trivial
  | stopped => exact h

theorem cell_getD (h : g.cell = some sockets) : g.cell.getD [] = sockets := by
  rw [h]
  rfl

theorem GenOk.listenerTurn (h : GenOk sockets g) (sent : Bool) : GenOk sockets (g.listenerTurn sent) := by
  unfold Gen.listenerTurn
  cases hl : g.listener with
  | unbound =>
    simp only
    split
    · next hcell =>
      refine ⟨h.cell, h.counted, fun _ => ?_, fun hsends => absurd hsends not_false⟩
      rcases h.cell with hnone | hsome
      · rw [hnone] at hcell
        cases hcell
      · exact hsome.1
    · exact h
  | accepting =>
    simp only
    split
    · exact ⟨h.cell, h.counted, fun _ => h.listening (by rw [hl]; exact ListenerAt.noConfusion),
        fun hsends => absurd hsends not_false⟩
    · exact h
  | freezing =>
    simp only
    exact ⟨h.cell, h.counted, fun _ => h.listening (by rw [hl]; exact ListenerAt.noConfusion),
      fun hsends => absurd hsends not_false⟩
  | waiting =>
    simp only
    split
    · next hall =>
      exact ⟨h.cell, h.counted, fun _ => h.listening (by rw [hl]; exact ListenerAt.noConfusion),
        fun _ => h.counted.quiet hall⟩
    · exact h
  | sending left =>
    have hquiet := h.quiet (by rw [hl]; trivial)
    have hcell := h.listening (by rw [hl]; exact ListenerAt.noConfusion)
    cases left with
    | nil => exact ⟨h.cell, h.counted, fun _ => hcell, fun _ => hquiet⟩
    | cons m ms =>
      simp only
      split <;> exact ⟨h.cell, h.counted, fun _ => hcell, fun _ => hquiet⟩
  | marking =>
    exact ⟨h.cell, h.counted, fun _ => h.listening (by rw [hl]; exact ListenerAt.noConfusion),
      fun _ => h.quiet (by rw [hl]; trivial)⟩
  | finished => exact h
  | failed => exact h

theorem sends_listenerTurn (h : g.listener.Sends) (sent : Bool) : (g.listenerTurn sent).listener.Sends := by
  unfold Gen.listenerTurn
  cases hl : g.listener with
  | unbound | accepting | freezing | waiting =>
    rw [hl] at h
    exact absurd h not_false
  | sending left =>
    cases left with
    | nil => trivial
    | cons m ms =>
      simp only
      split <;> trivial
  | marking => trivial
  | finished | failed =>
    simp only [hl]
    trivial

theorem Link.listenerTurn (hok : GenOk sockets g)
    (h : Link sockets g.listener g.stream g.connected main) (sent : Bool) :
    Link sockets (g.listenerTurn sent).listener (g.listenerTurn sent).stream
      (g.listenerTurn sent).connected main := by
  cases main with
  | connecting =>
    obtain ⟨hstream, hconnected, hl | hl⟩ := h
    · unfold Gen.listenerTurn
      rw [hl]
      simp only
      split
      · exact ⟨hstream, hconnected, .inr rfl⟩
      · exact ⟨hstream, hconnected, .inl hl⟩
    · unfold Gen.listenerTurn
      rw [hl]
      simp only
      rw [if_neg (by rw [hconnected]; exact Bool.false_ne_true)]
      exact ⟨hstream, hconnected, .inr hl⟩
  | receiving out =>
    obtain ⟨before, after, hall, hout, hleft⟩ := h
    unfold Gen.listenerTurn
    cases hl : g.listener with
    | unbound =>
      rw [hl] at hleft
      simp only
      split
      · exact ⟨before, after, hall, hout, hleft⟩
      · exact ⟨before, after, hall, hout, hl.symm ▸ hleft⟩
    | accepting =>
      rw [hl] at hleft
      simp only
      split
      · exact ⟨before, after, hall, hout, hleft⟩
      · exact ⟨before, after, hall, hout, hl.symm ▸ hleft⟩
    | freezing =>
      rw [hl] at hleft
      exact ⟨before, after, hall, hout, hleft⟩
    | waiting =>
      rw [hl] at hleft
      simp only
      split
      · rw [cell_getD (hok.listening (by rw [hl]; exact ListenerAt.noConfusion))]
        exact ⟨before, after, hall, hout, hleft⟩
      · exact ⟨before, after, hall, hout, hl.symm ▸ hleft⟩
    | sending left =>
      rw [hl] at hleft
      cases left with
      | nil => exact ⟨before, after, hall, hout, trivial⟩
      | cons m ms =>
        simp only
        split
        · obtain rfl : after = m :: ms := hleft
          exact ⟨before, ms, by rw [hall, List.append_cons (before ++ g.stream), List.append_assoc before],
            hout, rfl⟩
        · exact ⟨before, after, hall, hout, trivial⟩
    | marking => exact ⟨before, after, hall, hout, trivial⟩
    | finished | failed => exact ⟨before, after, hall, hout, hl.symm ▸ hleft⟩
  | took fds => exact ⟨h.1, sends_listenerTurn h.2 sent⟩
  | through => exact sends_listenerTurn h sent
  | panicked => trivial

theorem GenOk.giveUp (h : GenOk sockets g) (hquiet : g.Quiet) : GenOk sockets g.giveUp := by
  unfold Gen.giveUp
  split
  · next hl =>
    exact ⟨h.cell, h.counted, fun _ => h.listening (by rw [hl]; exact ListenerAt.noConfusion),
      fun _ => hquiet⟩
  · exact h

theorem Link.giveUp (hok : GenOk sockets g)
    (h : Link sockets g.listener g.stream g.connected main) :
    Link sockets g.giveUp.listener g.giveUp.stream g.giveUp.connected main := by
  unfold Gen.giveUp
  split
  · next hl =>
    have hcell := hok.listening (by rw [hl]; exact ListenerAt.noConfusion)
    rw [hl] at h
    cases main with
    | connecting =>
      obtain ⟨-, -, hl' | hl'⟩ := h
      · cases hl'
      · cases hl'
    | receiving out =>
      obtain ⟨before, after, hall, hout, hleft⟩ := h
      exact ⟨before, after, hall, hout, by rw [cell_getD hcell]; exact hleft⟩
    | took fds => exact ⟨h.1, trivial⟩
    | through => trivial
    | panicked => trivial
  · exact h

/-- A message that has arrived was sent. -/
theorem Link.receive (hcount : sockets.length < 2 ^ 32) {listener : ListenerAt} {m : Message ℕ}
    {ms : List (Message ℕ)} {connected : Bool} {out : List ℕ}
    (h : Link sockets listener (m :: ms) connected (.receiving out)) :
    Link sockets listener ms connected (match recvMsg out m with
      | .error _ => .panicked
      | .ok (out, complete) => if complete = true then .took out else .receiving out) := by
  obtain ⟨before, after, hall, rfl, hleft⟩ := h
  have hnext : sendFds sockets = before ++ m :: (ms ++ after) := by
    rw [hall, List.append_assoc, List.cons_append]
  rw [recvMsg_next hcount hnext]
  simp only
  split
  · next hcomplete =>
    have hnil := List.isEmpty_iff.mp hcomplete
    have hafter := (List.append_eq_nil_iff.mp hnil).2
    refine ⟨?_, ?_⟩
    · rw [hnil] at hnext
      rw [← hnext, flatMap_sendFds]
    · cases listener with
      | sending left => trivial
      | marking | finished | failed => trivial
      | unbound | accepting | freezing | waiting =>
        exact absurd (hleft.symm.trans hafter) (sendFds_ne_nil sockets)
  · exact ⟨before ++ [m], after, by rw [hall, List.append_cons before m ms], rfl, hleft⟩

theorem Inv.setGen (h : Inv cfg n) {g : Gen D} (hg : GenOk (boundSockets cfg) g)
    (hbefore : ∀ j, k = j + 1 → Link (boundSockets cfg) (n.gens j).listener (n.gens j).stream
      (n.gens j).connected g.main)
    (hafter : Link (boundSockets cfg) g.listener g.stream g.connected (n.gens (k + 1)).main) :
    Inv cfg (n.setGen k g) := by
  refine ⟨fun j => ?_, fun j => ?_⟩
  · by_cases hj : j = k
    · subst hj
      simp only [Net.setGen, Function.update_self]
      exact hg
    · simp only [Net.setGen, Function.update_of_ne hj]
      exact h.gens j
  · by_cases hj : j = k
    · subst hj
      simp only [Net.setGen, Function.update_self, Function.update_of_ne (Nat.succ_ne_self j)]
      exact hafter
    · by_cases hk : j + 1 = k
      · subst hk
        simp only [Net.setGen, Function.update_self, Function.update_of_ne (Nat.succ_ne_self j).symm]
        exact hbefore j rfl
      · simp only [Net.setGen, Function.update_of_ne hj, Function.update_of_ne hk]
        exact h.links j

/-- A change that shows neither to the next generation nor to the one before. -/
theorem Inv.setInside (h : Inv cfg n) {g : Gen D} (hg : GenOk (boundSockets cfg) g)
    (hmain : g.main = (n.gens k).main) (hlistener : g.listener = (n.gens k).listener)
    (hstream : g.stream = (n.gens k).stream) (hconnected : g.connected = (n.gens k).connected) :
    Inv cfg (n.setGen k g) := by
  refine h.setGen hg (fun j hj => ?_) ?_
  · subst hj
    rw [hmain]
    exact h.links j
  · rw [hlistener, hstream, hconnected]
    exact h.links k

/-! ## The relay -/

/-- The relay is with the last generation that has the sockets. -/
structure Follows (cfg : ℕ → GenConfig) (n : Net D) (r : Relay ℕ D) : Prop where
  inv : Inv cfg n
  arrived : r.arrived = n.arrived
  pending : r.pending = n.queue
  reads : r.reads = n.reads
  holder : ∀ k, (n.gens k).cell ≠ none ↔ k ≤ r.holder

variable {r' : Relay ℕ D}

/-- A generation that reads has the sockets last. -/
theorem Follows.holder_eq (h : Follows cfg n r') (hcell : (n.gens k).cell ≠ none)
    (hreads : ¬ (n.gens k).Quiet) : r'.holder = k := by
  refine Nat.le_antisymm ?_ ((h.holder k).mp hcell)
  by_contra hlt
  have hnext := (h.holder (k + 1)).mpr (Nat.lt_of_not_le hlt)
  rcases (h.inv.gens (k + 1)).cell with hnone | ⟨-, hmain⟩
  · exact hnext hnone
  · have hlink := h.inv.links k
    rw [hmain] at hlink
    exact hreads ((h.inv.gens k).quiet hlink)

theorem Follows.setGen (h : Follows cfg n r') {g : Gen D} (hinv : Inv cfg (n.setGen k g))
    (hcell : g.cell = (n.gens k).cell) : Follows cfg (n.setGen k g) r' := by
  refine ⟨hinv, h.arrived, h.pending, h.reads, fun j => ?_⟩
  rw [← h.holder j]
  by_cases hj : j = k
  · subst hj
    simp only [Net.setGen, Function.update_self, hcell]
  · simp only [Net.setGen, Function.update_of_ne hj]

theorem Follows.arrive (h : Follows cfg n r') (socket : ℕ) (d : D) :
    Follows cfg (n.turn fits (.arrive socket d)) (r'.arrive socket d) := by
  refine ⟨⟨h.inv.gens, h.inv.links⟩, ?_, ?_, h.reads, h.holder⟩
  · simp only [Relay.arrive, Net.turn, h.arrived]
  · simp only [Relay.arrive, Net.turn, h.pending]

theorem Follows.readBy (h : Follows cfg n r') (hholder : r'.holder = k) (socket : ℕ) (d : D)
    (rest : List D) : Follows cfg (n.readBy k socket d rest) (r'.read socket d rest) := by
  refine ⟨⟨h.inv.gens, h.inv.links⟩, h.arrived, ?_, ?_, h.holder⟩
  · simp only [Relay.read, Net.readBy, h.pending]
  · simp only [Relay.read, Net.readBy, h.reads, hholder]

theorem forward_eq (g : Gen D) (fits : D → Bool) (id : ℕ) (d : D) (room : Bool) :
    ∃ forwarded dropCounters, g.forward fits id d room =
      { g with forwarded := forwarded, dropCounters := dropCounters } := by
  unfold Gen.forward
  split
  · split
    · exact ⟨_, _, rfl⟩
    · exact ⟨_, _, rfl⟩
  · exact ⟨_, _, rfl⟩

/-- A receiver that reads goes anywhere but to the frozen ones. -/
theorem Follows.setReading (h : Follows cfg n r') {r : Receiver}
    (hr : (n.gens k).receivers[i]? = some r) {pc : ReceiverAt} (hreads : ¬ r.pc.Quiet)
    (hpc : pc ≠ .frozen) (forwarded : List (ℕ × D)) (dropCounters : ℕ → ℕ) :
    Follows cfg (n.setGen k ({ n.gens k with
      forwarded := forwarded, dropCounters := dropCounters }.setReceiver i r pc)) r' := by
  have hok := (h.inv.gens k).setReading hr hreads hpc
  exact h.setGen (h.inv.setInside ⟨hok.cell, hok.counted, hok.listening, hok.quiet⟩ rfl rfl rfl rfl) rfl

theorem Follows.pollSocket (h : Follows cfg n r') {r : Receiver} {id : ℕ} {left : List ℕ}
    (hr : (n.gens k).receivers[i]? = some r) (hpc : r.pc = .polling (id :: left)) (poll : Poll) :
    ∃ r'', Relation.ReflTransGen Relay.Step r' r'' ∧
      Follows cfg (n.pollSocket fits k i r id left poll) r'' := by
  have hreads : ¬ r.pc.Quiet := by
    rw [hpc]
    exact not_false
  have hstay : ∀ pc : ReceiverAt, pc ≠ .frozen →
      Follows cfg (n.setGen k ((n.gens k).setReceiver i r pc)) r' :=
    fun pc hne => h.setReading hr hreads hne _ _
  unfold Net.pollSocket
  simp only
  split
  · exact ⟨r', .refl, hstay _ ReceiverAt.noConfusion⟩
  · exact ⟨r', .refl, hstay _ ReceiverAt.noConfusion⟩
  · exact ⟨r', .refl, hstay _ ReceiverAt.noConfusion⟩
  · next socket room hsocket =>
    split
    · exact ⟨r', .refl, hstay _ ReceiverAt.noConfusion⟩
    · next d rest hqueue =>
      have hcell : (n.gens k).cell ≠ none := by
        intro hnone
        rw [hnone] at hsocket
        cases hsocket
      have hholder := h.holder_eq hcell fun hquiet =>
        hreads (hquiet r (List.mem_of_getElem? hr))
      obtain ⟨forwarded, dropCounters, heq⟩ := forward_eq (n.gens k) fits id d room
      refine ⟨r'.read socket d rest, .single (.read r' socket (h.pending ▸ hqueue)), ?_⟩
      rw [heq]
      exact (h.readBy hholder socket d rest).setReading hr hreads ReceiverAt.noConfusion _ _

theorem receiverTurn_eq (g : Gen D) (i : ℕ) (r : Receiver) : ∃ receivers frozen,
    g.receiverTurn i r = { g with receivers := receivers, frozen := frozen } := by
  unfold Gen.receiverTurn
  split <;> exact ⟨_, _, rfl⟩

theorem Follows.receiverTurn (h : Follows cfg n r') (poll : Poll) :
    ∃ r'', Relation.ReflTransGen Relay.Step r' r'' ∧
      Follows cfg (n.receiverTurn fits k i poll) r'' := by
  unfold Net.receiverTurn
  split
  · exact ⟨r', .refl, h⟩
  · next r hr =>
    split
    · next id left hpc => exact h.pollSocket hr hpc poll
    · have hok := (h.inv.gens k).receiverTurn hr
      obtain ⟨receivers, frozen, heq⟩ := receiverTurn_eq (n.gens k) i r
      rw [heq] at hok ⊢
      exact ⟨r', .refl, h.setGen (h.inv.setInside hok rfl rfl rfl rfl) rfl⟩

/-- What the listener leaves alone. -/
theorem listenerTurn_eq (g : Gen D) (sent : Bool) : ∃ freeze handedOver listener stream closed,
    g.listenerTurn sent = { g with freeze := freeze, handedOver := handedOver, listener := listener,
                                   stream := stream, closed := closed } := by
  unfold Gen.listenerTurn
  repeat' split
  all_goals exact ⟨_, _, _, _, _, rfl⟩

theorem giveUp_eq (g : Gen D) : ∃ listener, g.giveUp = { g with listener := listener } := by
  unfold Gen.giveUp
  split <;> exact ⟨_, rfl⟩

theorem setGen_self (n : Net D) (k : ℕ) : n.setGen k (n.gens k) = n := by
  show { n with gens := Function.update n.gens k (n.gens k) } = n
  rw [Function.update_eq_self]

/-- A main thread changes its own place and sockets, and the link to the generation before. -/
theorem mainTurn_eq (n : Net D) (j : ℕ) (late : Bool) : ∃ stream connected main cell,
    ((n.gens (j + 1)).cell ≠ none → cell ≠ none) ∧ n.mainTurn j late =
      (n.setGen j { n.gens j with stream := stream, connected := connected }).setGen (j + 1)
        { n.gens (j + 1) with main := main, cell := cell } := by
  have hsame : (n.gens (j + 1)).cell ≠ none → (n.gens (j + 1)).cell ≠ none := id
  have hown : ∀ main cell, n.setGen (j + 1) { n.gens (j + 1) with main := main, cell := cell } =
      (n.setGen j (n.gens j)).setGen (j + 1) { n.gens (j + 1) with main := main, cell := cell } :=
    fun main cell => by rw [setGen_self]
  have hnone : n = (n.setGen j (n.gens j)).setGen (j + 1) (n.gens (j + 1)) := by
    rw [setGen_self, setGen_self]
  unfold Net.mainTurn
  cases hmain : (n.gens (j + 1)).main with
  | connecting =>
    simp only [hmain]
    split
    · exact ⟨_, _, _, _, hsame, rfl⟩
    · split
      · exact ⟨_, _, _, _, hsame, hown _ _⟩
      · exact ⟨_, _, _, _, hsame, hnone⟩
  | receiving out =>
    simp only [hmain]
    split
    · split
      · exact ⟨_, _, _, _, hsame, hown _ _⟩
      · exact ⟨_, _, _, _, hsame, hnone⟩
    · exact ⟨_, _, _, _, hsame, rfl⟩
  | took fds =>
    simp only [hmain]
    unfold Gen.publish
    split
    · exact ⟨_, _, _, _, fun _ => Option.some_ne_none _, hown _ _⟩
    · exact ⟨_, _, _, _, hsame, hown _ _⟩
  | through | panicked =>
    simp only [hmain]
    exact ⟨_, _, _, _, hsame, hnone⟩

/-! ## The main thread of a successor -/

theorem GenOk.cell_none (h : GenOk sockets g) (hmain : g.main ≠ .through) : g.cell = none := by
  rcases h.cell with hnone | ⟨-, hthrough⟩
  · exact hnone
  · exact absurd hthrough hmain

theorem GenOk.setMain (h : GenOk sockets g) (hmain : g.main ≠ .through) (main : MainAt) :
    GenOk sockets { g with main := main } :=
  ⟨.inl (h.cell_none hmain), h.counted, h.listening, h.quiet⟩

/-- The link between two generations changes. -/
theorem Follows.setLink {j : ℕ} (h : Follows cfg n r') (hmain : (n.gens (j + 1)).main ≠ .through)
    {stream : List (Message ℕ)} {connected : Bool} {main : MainAt}
    (hlink : Link (boundSockets cfg) (n.gens j).listener stream connected main) :
    Follows cfg ((n.setGen j { n.gens j with stream := stream, connected := connected }).setGen (j + 1)
      { n.gens (j + 1) with main := main }) r' := by
  have hne : j ≠ j + 1 := (Nat.succ_ne_self j).symm
  have hok := h.inv.gens j
  refine ⟨⟨fun i => ?_, fun i => ?_⟩, h.arrived, h.pending, h.reads, fun i => ?_⟩
  · by_cases hi : i = j + 1
    · subst hi
      simp only [Net.setGen, Function.update_self]
      exact (h.inv.gens _).setMain hmain main
    · by_cases hj : i = j
      · subst hj
        simp only [Net.setGen, Function.update_of_ne hne, Function.update_self]
        exact ⟨hok.cell, hok.counted, hok.listening, hok.quiet⟩
      · simp only [Net.setGen, Function.update_of_ne hi, Function.update_of_ne hj]
        exact h.inv.gens i
  · by_cases hj : i = j
    · subst hj
      simp only [Net.setGen, Function.update_of_ne hne, Function.update_self]
      exact hlink
    · have hi' : i + 1 ≠ j + 1 := fun heq => hj (Nat.succ.inj heq)
      have hprev := h.inv.links i
      by_cases hi : i = j + 1
      · subst hi
        simp only [Net.setGen, Function.update_self, Function.update_of_ne hi', Function.update_of_ne
          (show j + 1 + 1 ≠ j by omega)]
        exact hprev
      · by_cases hi1 : i + 1 = j
        · subst hi1
          simp only [Net.setGen, Function.update_of_ne hi, Function.update_of_ne hi',
            Function.update_of_ne hj, Function.update_self]
          exact hprev
        · simp only [Net.setGen, Function.update_of_ne hi, Function.update_of_ne hi',
            Function.update_of_ne hj, Function.update_of_ne hi1]
          exact hprev
  · rw [← h.holder i]
    by_cases hi : i = j + 1
    · subst hi
      simp only [Net.setGen, Function.update_self]
    · by_cases hj : i = j
      · subst hj
        simp only [Net.setGen, Function.update_of_ne hne, Function.update_self]
      · simp only [Net.setGen, Function.update_of_ne hi, Function.update_of_ne hj]

theorem Follows.setMain {j : ℕ} (h : Follows cfg n r') (hmain : (n.gens (j + 1)).main ≠ .through)
    {main : MainAt} (hlink : Link (boundSockets cfg) (n.gens j).listener (n.gens j).stream
      (n.gens j).connected main) :
    Follows cfg (n.setGen (j + 1) { n.gens (j + 1) with main := main }) r' := by
  refine h.setGen (h.inv.setGen ((h.inv.gens _).setMain hmain main) (fun i hi => ?_)
    (h.inv.links (j + 1))) rfl
  obtain rfl := Nat.succ.inj hi
  exact hlink

/-- The relay passes on as soon as the sockets are set. -/
theorem Follows.publish {j : ℕ} (h : Follows cfg n r') {fds : List ℕ}
    (hmain : (n.gens (j + 1)).main = .took fds) :
    ∃ r'', Relation.ReflTransGen Relay.Step r' r'' ∧
      Follows cfg (n.setGen (j + 1) ((n.gens (j + 1)).publish fds)) r'' := by
  have hlink := h.inv.links j
  have hok := h.inv.gens (j + 1)
  have hne : (n.gens (j + 1)).main ≠ .through := by
    rw [hmain]
    exact MainAt.noConfusion
  have hnone := hok.cell_none hne
  rw [hmain] at hlink
  obtain ⟨rfl, hsends⟩ := hlink
  unfold Gen.publish
  split
  · have hlistens : (n.gens j).listener ≠ .unbound := by
      intro hl
      rw [hl] at hsends
      exact hsends
    have hheld : (n.gens j).cell ≠ none := by
      rw [(h.inv.gens j).listening hlistens]
      exact Option.some_ne_none _
    have hholder : r'.holder = j := by
      refine Nat.le_antisymm ?_ ((h.holder j).mp hheld)
      by_contra hlt
      exact (h.holder (j + 1)).mpr (Nat.lt_of_not_le hlt) hnone
    refine ⟨r'.pass, .single (.pass r'), ?_⟩
    refine ⟨h.inv.setGen ⟨.inr ⟨rfl, rfl⟩, hok.counted, fun _ => rfl, hok.quiet⟩ (fun i hi => ?_)
      (h.inv.links (j + 1)), h.arrived, h.pending, h.reads, fun i => ?_⟩
    · obtain rfl := Nat.succ.inj hi
      exact hsends
    · show _ ↔ i ≤ r'.holder + 1
      have hi := h.holder i
      by_cases hij : i = j + 1
      · subst hij
        simp only [Net.setGen, Function.update_self]
        exact iff_of_true (Option.some_ne_none _) (by omega)
      · simp only [Net.setGen, Function.update_of_ne hij]
        rw [hi]
        omega
  · exact ⟨r', .refl, h.setMain hne trivial⟩

theorem Follows.mainTurn (hcount : (cfg 0).numSockets < 2 ^ 32) {j : ℕ} (h : Follows cfg n r')
    (late : Bool) : ∃ r'', Relation.ReflTransGen Relay.Step r' r'' ∧
      Follows cfg (n.mainTurn j late) r'' := by
  have hlink := h.inv.links j
  have hlen : (boundSockets cfg).length < 2 ^ 32 := by
    rw [boundSockets, List.length_range]
    exact hcount
  unfold Net.mainTurn
  cases hmain : (n.gens (j + 1)).main with
  | connecting =>
    have hne : (n.gens (j + 1)).main ≠ .through := by
      rw [hmain]
      exact MainAt.noConfusion
    rw [hmain] at hlink
    simp only [hmain]
    split
    · next hl =>
      have hnew : Link (boundSockets cfg) (n.gens j).listener (n.gens j).stream true
          (.receiving []) := by
        refine ⟨[], sendFds (boundSockets cfg), ?_, rfl, ?_⟩
        · rw [hlink.1]
          rfl
        · rw [hl]
          exact rfl
      exact ⟨r', .refl, h.setLink hne hnew⟩
    · split
      · exact ⟨r', .refl, @Follows.setMain D cfg n r' j h hne .panicked trivial⟩
      · exact ⟨r', .refl, h⟩
  | receiving out =>
    have hne : (n.gens (j + 1)).main ≠ .through := by
      rw [hmain]
      exact MainAt.noConfusion
    rw [hmain] at hlink
    simp only [hmain]
    split
    · split
      · exact ⟨r', .refl, @Follows.setMain D cfg n r' j h hne .panicked trivial⟩
      · exact ⟨r', .refl, h⟩
    · next m ms hstream =>
      rw [hstream] at hlink
      exact ⟨r', .refl, h.setLink hne (hlink.receive hlen)⟩
  | took fds =>
    simp only [hmain]
    exact h.publish hmain
  | through | panicked =>
    simp only [hmain]
    exact ⟨r', .refl, h⟩

/-! ## Runs -/

theorem Follows.turn (hcount : (cfg 0).numSockets < 2 ^ 32) (h : Follows cfg n r') {t : Turn D}
    (hin : t.InTime n) : ∃ r'', Relation.ReflTransGen Relay.Step r' r'' ∧
      Follows cfg (n.turn fits t) r'' := by
  cases t with
  | arrive socket d => exact ⟨_, .single (.arrive r' socket d), h.arrive socket d⟩
  | receiver k i poll => exact h.receiverTurn poll
  | listener k sent =>
    have hok := (h.inv.gens k).listenerTurn sent
    have hlink := (h.inv.links k).listenerTurn (h.inv.gens k) sent
    obtain ⟨freeze, handedOver, listener, stream, closed, heq⟩ := listenerTurn_eq (n.gens k) sent
    rw [heq] at hok hlink
    rw [Net.turn, heq]
    refine ⟨r', .refl, h.setGen (h.inv.setGen hok (fun j hj => ?_) hlink) rfl⟩
    subst hj
    exact h.inv.links j
  | giveUp k =>
    have hok := (h.inv.gens k).giveUp hin
    have hlink := (h.inv.links k).giveUp (h.inv.gens k)
    obtain ⟨listener, heq⟩ := giveUp_eq (n.gens k)
    rw [heq] at hok hlink
    rw [Net.turn, heq]
    refine ⟨r', .refl, h.setGen (h.inv.setGen hok (fun j hj => ?_) hlink) rfl⟩
    subst hj
    exact h.inv.links j
  | main k late =>
    cases k with
    | zero => exact ⟨r', .refl, h⟩
    | succ j => exact h.mainTurn hcount late
  | shutdown k =>
    have hok := h.inv.gens k
    exact ⟨r', .refl, h.setGen (h.inv.setInside
      ⟨hok.cell, hok.counted, hok.listening, hok.quiet⟩ rfl rfl rfl rfl) rfl⟩

theorem spawnReceiver_pc (socketRange : Span) :
    (spawnReceiver socketRange).pc = .atCell ∨ (spawnReceiver socketRange).pc = .stopped := by
  unfold spawnReceiver
  split
  · exact .inl rfl
  · exact .inr rfl

theorem counted_start (cfg : GenConfig) (main : MainAt) (cell : Option (List ℕ)) :
    Counted (Gen.start cfg main cell : Gen D).receivers 0 := by
  refine ⟨Nat.le_of_eq (List.countP_eq_zero.mpr fun r hr => ?_), Nat.zero_le _⟩
  obtain ⟨socketRange, -, rfl⟩ := List.mem_map.mp hr
  rcases spawnReceiver_pc socketRange with hpc | hpc <;> rw [hpc] <;> decide

theorem genOk_start (cfg : GenConfig) {main : MainAt} {cell : Option (List ℕ)}
    (hcell : cell = none ∨ (cell = some sockets ∧ main = .through)) :
    GenOk sockets (Gen.start cfg main cell : Gen D) :=
  ⟨hcell, counted_start cfg main cell, fun hl => absurd rfl hl, fun hsends => absurd hsends not_false⟩

theorem follows_start (cfg : ℕ → GenConfig) : Follows cfg (Net.start cfg : Net D) Relay.fresh := by
  refine ⟨⟨fun k => ?_, fun k => ?_⟩, rfl, rfl, rfl, fun k => ?_⟩
  · cases k with
    | zero => exact genOk_start (cfg 0) (.inr ⟨rfl, rfl⟩)
    | succ k => exact genOk_start (cfg (k + 1)) (.inl rfl)
  · cases k with
    | zero => exact ⟨rfl, rfl, .inl rfl⟩
    | succ k => exact ⟨rfl, rfl, .inl rfl⟩
  · cases k with
    | zero => exact iff_of_true (Option.some_ne_none _) (Nat.le_refl 0)
    | succ k => exact iff_of_false (fun hne => hne rfl) (Nat.not_succ_le_zero k)

/-- The handovers refine the relay. -/
theorem Reached.follows (hcount : (cfg 0).numSockets < 2 ^ 32) (h : Reached cfg fits n) :
    ∃ r', Relation.ReflTransGen Relay.Step Relay.fresh r' ∧ Follows cfg n r' := by
  refine simulates_run (fun hrel hstep => ?_) (follows_start cfg) h
  obtain ⟨t, hin, rfl⟩ := hstep
  exact hrel.turn hcount hin

end Tomii.Handover
