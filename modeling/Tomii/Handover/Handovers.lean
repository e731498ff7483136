import Tomii.Handover.Freeze

/-! # What a handover promises

No datagram is lost or read twice, whatever generation it falls to, and those that were read are in a
channel or counted as dropped. -/
namespace Tomii.Handover
set_option autoImplicit false
set_option maxHeartbeats 250000

variable {D : Type} {cfg : ℕ → GenConfig} {fits : D → Bool} {g : Gen D} {n : Net D} {r : Receiver}
  {i j k : ℕ}

/-! ## What becomes of a datagram -/

/-- What a process has sent on, and what it has dropped. -/
def Gen.ledger (g : Gen D) : List (ℕ × D) × (ℕ → ℕ) := (g.forwarded, g.dropCounters)

def Net.ledgers (n : Net D) (k : ℕ) : List (ℕ × D) × (ℕ → ℕ) := (n.gens k).ledger

theorem ledgers_setGen (k : ℕ) (g : Gen D) :
    (n.setGen k g).ledgers = Function.update n.ledgers k g.ledger := by
  funext j
  by_cases hj : j = k
  · subst hj
    simp only [Net.ledgers, Net.setGen, Function.update_self]
  · simp only [Net.ledgers, Net.setGen, Function.update_of_ne hj]

theorem ledgers_setGen_same (h : g.ledger = (n.gens k).ledger) : (n.setGen k g).ledgers = n.ledgers := by
  rw [ledgers_setGen, h]
  exact Function.update_eq_self k n.ledgers

theorem ledger_receiverTurn (g : Gen D) (i : ℕ) (r : Receiver) :
    (g.receiverTurn i r).ledger = g.ledger := by
  obtain ⟨receivers, frozen, heq⟩ := receiverTurn_eq g i r
  rw [heq]
  rfl

theorem ledgers_mainTurn (n : Net D) (j : ℕ) (late : Bool) :
    (n.mainTurn j late).reads = n.reads ∧ (n.mainTurn j late).ledgers = n.ledgers := by
  obtain ⟨stream, connected, main, cell, -, heq⟩ := mainTurn_eq n j late
  rw [heq, ledgers_setGen, ledgers_setGen]
  exact ⟨rfl, (congrArg (fun f => Function.update f (j + 1) (n.ledgers (j + 1)))
    (Function.update_eq_self j n.ledgers)).trans (Function.update_eq_self (j + 1) n.ledgers)⟩

/-- A turn either leaves reads and ledgers alone, or one process reads one datagram and enters it. -/
theorem turn_ledgers (fits : D → Bool) (n : Net D) (t : Turn D) :
    ((n.turn fits t).reads = n.reads ∧ (n.turn fits t).ledgers = n.ledgers) ∨
      ∃ k id socket d room, ((n.gens k).cell.getD [])[id]? = some socket ∧
        (n.turn fits t).reads = Function.update n.reads socket (n.reads socket ++ [(k, d)]) ∧
        (n.turn fits t).ledgers =
          Function.update n.ledgers k ((n.gens k).forward fits id d room).ledger := by
  cases t with
  | arrive socket d => exact .inl ⟨rfl, rfl⟩
  | receiver k i poll =>
    simp only [Net.turn, Net.receiverTurn]
    split
    · exact .inl ⟨rfl, rfl⟩
    · next r hr =>
      split
      · next id left hpc =>
        unfold Net.pollSocket
        simp only
        split
        · exact .inl ⟨rfl, ledgers_setGen_same rfl⟩
        · exact .inl ⟨rfl, ledgers_setGen_same rfl⟩
        · exact .inl ⟨rfl, ledgers_setGen_same rfl⟩
        · next socket room hsocket =>
          split
          · exact .inl ⟨rfl, ledgers_setGen_same rfl⟩
          · next d rest hqueue =>
            exact .inr ⟨k, id, socket, d, room, hsocket, rfl, ledgers_setGen _ _⟩
      · exact .inl ⟨rfl, ledgers_setGen_same (ledger_receiverTurn _ i r)⟩
  | listener k sent =>
    obtain ⟨freeze, handedOver, listener, stream, closed, heq⟩ := listenerTurn_eq (n.gens k) sent
    rw [Net.turn, heq]
    exact .inl ⟨rfl, ledgers_setGen_same rfl⟩
  | giveUp k =>
    obtain ⟨listener, heq⟩ := giveUp_eq (n.gens k)
    rw [Net.turn, heq]
    exact .inl ⟨rfl, ledgers_setGen_same rfl⟩
  | main k late =>
    cases k with
    | zero => exact .inl ⟨rfl, rfl⟩
    | succ j => exact .inl (ledgers_mainTurn n j late)
  | shutdown k => exact .inl ⟨rfl, ledgers_setGen_same rfl⟩

/-- The datagrams of the length of a packet that a generation has read from a socket. -/
def Net.packetsOf (n : Net D) (fits : D → Bool) (k socket : ℕ) : List (ℕ × D) :=
  (n.reads socket).filter fun p => p.1 = k ∧ fits p.2 = true

/-- What a generation has sent on from a socket is what it read there, in order, less what it counts as
dropped. -/
structure Entered (packets : List (ℕ × D)) (socket : ℕ) (ledger : List (ℕ × D) × (ℕ → ℕ)) : Prop where
  in_order : ((ledger.1.filter fun p => p.1 = socket).map Prod.snd).Sublist (packets.map Prod.snd)
  counted : packets.length = (ledger.1.filter fun p => p.1 = socket).length + ledger.2 socket

def Accounted (fits : D → Bool) (n : Net D) : Prop :=
  ∀ k socket, Entered (n.packetsOf fits k socket) socket (n.ledgers k)

theorem Entered.other {packets : List (ℕ × D)} {socket s : ℕ} {d : D} {room : Bool}
    (h : Entered packets s g.ledger) (hne : s ≠ socket) :
    Entered packets s (g.forward fits socket d room).ledger := by
  have hin := h.in_order
  have hcount := h.counted
  unfold Gen.forward
  split
  · split
    · have hsame : (g.forwarded ++ [(socket, d)]).filter (fun p => p.1 = s) =
          g.forwarded.filter fun p => p.1 = s := by
        rw [List.filter_append, List.filter_singleton, decide_eq_false hne.symm]
        exact List.append_nil _
      exact ⟨hsame ▸ hin, hsame ▸ hcount⟩
    · refine ⟨hin, ?_⟩
      show _ = _ + Function.update g.dropCounters socket _ s
      rw [Function.update_of_ne hne]
      exact hcount
  · exact h

/-- A packet is entered, and anything else is not. -/
theorem Entered.read {packets : List (ℕ × D)} {socket : ℕ} {d : D} {room : Bool}
    (h : Entered packets socket g.ledger) :
    Entered (packets ++ if fits d = true then [(k, d)] else []) socket
      (g.forward fits socket d room).ledger := by
  have hin := h.in_order
  have hcount := h.counted
  unfold Gen.forward
  split
  · split
    · have hsame : (g.forwarded ++ [(socket, d)]).filter (fun p => p.1 = socket) =
          (g.forwarded.filter fun p => p.1 = socket) ++ [(socket, d)] := by
        rw [List.filter_append, List.filter_singleton, decide_eq_true rfl]
        rfl
      refine ⟨?_, ?_⟩
      · show (((g.forwarded ++ [(socket, d)]).filter fun p => p.1 = socket).map Prod.snd).Sublist _
        rw [hsame, List.map_append, List.map_append]
        exact hin.append (List.Sublist.refl _)
      · show _ = ((g.forwarded ++ [(socket, d)]).filter fun p => p.1 = socket).length + _
        rw [hsame, List.length_append, List.length_append, hcount]
        exact Nat.add_right_comm _ _ 1
    · refine ⟨?_, ?_⟩
      · rw [List.map_append]
        exact hin.trans (List.sublist_append_left _ _)
      · show _ = _ + Function.update g.dropCounters socket _ socket
        rw [Function.update_self, List.length_append, hcount]
        rfl
  · rw [List.append_nil]
    exact h

theorem packetsOf_turn {n' : Net D} {socket : ℕ} {d : D}
    (hreads : n'.reads = Function.update n.reads socket (n.reads socket ++ [(k, d)])) (k' s : ℕ) :
    n'.packetsOf fits k' s = n.packetsOf fits k' s ++
      if s = socket ∧ k' = k ∧ fits d = true then [(k, d)] else [] := by
  unfold Net.packetsOf
  rw [hreads]
  by_cases hs : s = socket
  · subst hs
    rw [Function.update_self, List.filter_append]
    refine congrArg (List.filter _ (n.reads s) ++ ·) ?_
    by_cases hmine : k = k' ∧ fits d = true
    · rw [List.filter_singleton, decide_eq_true hmine, if_pos ⟨rfl, hmine.1.symm, hmine.2⟩]
      rfl
    · rw [List.filter_singleton, decide_eq_false hmine, if_neg fun h => hmine ⟨h.2.1.symm, h.2.2⟩]
      rfl
  · rw [Function.update_of_ne hs, if_neg (fun h => hs h.1), List.append_nil]

theorem Accounted.turn (hcells : ∀ k, (n.gens k).cell = none ∨ (n.gens k).cell = some (boundSockets cfg))
    (h : Accounted fits n) (t : Turn D) : Accounted fits (n.turn fits t) := by
  intro k' s
  rcases turn_ledgers fits n t with ⟨hreads, hledgers⟩ | ⟨k, id, socket, d, room, hid, hreads, hledgers⟩
  · unfold Net.packetsOf
    rw [hreads, hledgers]
    exact h k' s
  · have hsame : socket = id := by
      rcases hcells k with hnone | hsome
      · rw [hnone] at hid
        cases hid
      · rw [hsome] at hid
        obtain ⟨hlt, heq⟩ := List.getElem?_eq_some_iff.mp hid
        exact heq.symm.trans (List.getElem_range _)
    subst hsame
    rw [packetsOf_turn hreads, hledgers]
    by_cases hk : k' = k
    · subst hk
      rw [Function.update_self]
      by_cases hs : s = socket
      · subst hs
        simp only [true_and]
        exact (h k' s).read
      · rw [if_neg (fun hall => hs hall.1), List.append_nil]
        exact (h k' s).other hs
    · rw [Function.update_of_ne hk, if_neg (fun hall => hk hall.2.1), List.append_nil]
      exact h k' s

/-! ## Safety -/

/-- What holds however the generations take turns. -/
structure HandedOn (cfg : ℕ → GenConfig) (n : Net D) : Prop where
  /-- Every datagram is read once, in the order of arrival at its socket, or is in its buffer. -/
  once : ∀ s, n.arrived s = (n.reads s).map Prod.snd ++ n.queue s
  /-- A generation goes on where the one before it stopped. -/
  succession : ∀ s, (n.reads s).Pairwise fun p q => p.1 ≤ q.1
  /-- With the sockets in the hands of a later generation, no receiver of an earlier one reads. -/
  alone : ∀ j k, j < k → (n.gens k).cell ≠ none → (n.gens j).Quiet
  /-- All generations know the same sockets by the same ids. -/
  same : ∀ k, (n.gens k).cell = none ∨ (n.gens k).cell = some (boundSockets cfg)

theorem Follows.cells {r' : Relay ℕ D} (h : Follows cfg n r') (k : ℕ) :
    (n.gens k).cell = none ∨ (n.gens k).cell = some (boundSockets cfg) :=
  (h.inv.gens k).cell.imp_right And.left

theorem Follows.alone {r' : Relay ℕ D} (h : Follows cfg n r') (hlt : j < k)
    (hcell : (n.gens k).cell ≠ none) : (n.gens j).Quiet := by
  have hnext := (h.holder (j + 1)).mpr (hlt.trans_le ((h.holder k).mp hcell))
  rcases (h.inv.gens (j + 1)).cell with hnone | ⟨-, hmain⟩
  · exact absurd hnone hnext
  · have hlink := h.inv.links j
    rw [hmain] at hlink
    exact (h.inv.gens j).quiet hlink

/-- Over any number of generations no datagram is lost or read twice, and their order is kept. -/
theorem sockets_handed_on (hcount : (cfg 0).numSockets < 2 ^ 32) (h : Reached cfg fits n) :
    HandedOn cfg n := by
  obtain ⟨r', hrelay, hfollows⟩ := h.follows hcount
  have hcont := Relay.continued_reached hrelay
  refine ⟨fun s => ?_, fun s => ?_, fun j k hlt hcell => hfollows.alone hlt hcell, hfollows.cells⟩
  · rw [← hfollows.arrived, ← hfollows.reads, ← hfollows.pending]
    exact hcont.once s
  · rw [← hfollows.reads]
    exact hcont.succession s

/-- A generation sends on the packets that it reads, in their order, but for those that it counts as
dropped because a channel is full. -/
theorem datagrams_accounted (hcount : (cfg 0).numSockets < 2 ^ 32) (h : Reached cfg fits n) :
    Accounted fits n := by
  induction h with
  | refl =>
    intro k socket
    have hledger : (Net.start cfg : Net D).ledgers k = ([], fun _ => 0) := by
      cases k with
      | zero => rfl
      | succ k => rfl
    rw [hledger]
    exact ⟨List.Sublist.refl _, rfl⟩
  | tail hbefore hstep ih =>
    obtain ⟨t, -, rfl⟩ := hstep
    obtain ⟨r', -, hfollows⟩ := Reached.follows hcount hbefore
    exact ih.turn hfollows.cells t

/-! ## Two processes -/

/-- A second datagram comes in during the handover, and the second process reads it. -/
def handover : List (Turn ℕ) :=
  .arrive 0 11 :: sixTurns ++ List.replicate 4 (.listener 0 true) ++
    [.main 1 false, .main 1 false] ++ List.replicate 4 (.receiver 1 0 (.recv true))

theorem exists_handover : ∃ n, Reached oneSocket (fun _ : ℕ => true) n ∧
    n.reads 0 = [(0, 10), (1, 11)] ∧ (n.gens 1).forwarded = [(0, 11)] := by
  refine ⟨_, @Reached.run ℕ oneSocket _ _ reached_frozenMidSweep handover ?_, ?_⟩
  · exact ⟨trivial, trivial, trivial, trivial, trivial, trivial, trivial, trivial, trivial, trivial,
      trivial, trivial, trivial, trivial, trivial, trivial, trivial, trivial⟩
  · decide +kernel

theorem sockets_handed_on_oneSocket : ∃ n : Net ℕ, n.reads 0 = [(0, 10), (1, 11)] ∧
    HandedOn oneSocket n := by
  obtain ⟨n, hreached, hreads, -⟩ := exists_handover
  exact ⟨n, hreads, sockets_handed_on (by decide) hreached⟩

theorem datagrams_accounted_oneSocket : ∃ n : Net ℕ, (n.gens 1).forwarded = [(0, 11)] ∧
    Accounted (fun _ => true) n := by
  obtain ⟨n, hreached, -, hforwarded⟩ := exists_handover
  exact ⟨n, hforwarded, datagrams_accounted (by decide) hreached⟩

end Tomii.Handover
