import Tomii.Handover.Descriptors
import Tomii.Runtime.ThreadLayout
import Mathlib.Logic.Function.Basic
import Mathlib.Logic.Relation

/-! # Processes that hand their sockets on (`handover.rs`, `network.rs`, `runtime/mod.rs`)

Generation 0 binds the sockets. Each generation may listen for the next one, which takes the sockets
over; all of them take turns in any order, one atomic action a turn. Beside the fields of the source
the state records what arrived at the sockets and who read it. Buffer pools, time stamps, decoding
and log output are left out, and listeners have paths of their own. -/
namespace Tomii.Handover
set_option autoImplicit false
set_option maxHeartbeats 250000

/-! ## State -/

/-- Where a thread is in `multi_socket_receiver_loop`. -/
inductive ReceiverAt where
  /-- At `sockets.get()`, before the loop. -/
  | atCell
  | atCellShutdown
  /-- At the head of the loop. -/
  | atShutdown
  | atFreeze
  | polling (left : List ℕ)
  | acknowledging
  | frozen
  | stopped
deriving DecidableEq

structure Receiver where
  socketRange : Span
  pc : ReceiverAt
deriving DecidableEq

/-- Where the thread of `spawn_listener` is. -/
inductive ListenerAt where
  | unbound
  | accepting
  | freezing
  | waiting
  | sending (left : List (Message ℕ))
  | marking
  | finished
  | failed

/-- Where the main thread is, up to its sockets. -/
inductive MainAt where
  | connecting
  | receiving (out : List ℕ)
  | took (fds : List ℕ)
  | through
  | panicked

/-- A process. A socket is the same in all of them, whatever number its descriptor has. -/
structure Gen (D : Type) where
  numSockets : ℕ
  main : MainAt
  /-- `SocketCell` -/
  cell : Option (List ℕ)
  receivers : List Receiver
  shutdown : Bool
  freeze : Bool
  frozen : ℕ
  handedOver : Bool
  listener : ListenerAt
  /-- The next generation has connected. -/
  connected : Bool
  stream : List (Message ℕ)
  closed : Bool
  /-- Sent to the resolution threads, with the socket id. -/
  forwarded : List (ℕ × D)
  dropCounters : ℕ → ℕ

structure Net (D : Type) where
  gens : ℕ → Gen D
  /-- The receive buffers of the sockets. -/
  queue : ℕ → List D
  arrived : ℕ → List D
  reads : ℕ → List (ℕ × D)

/-- What start-up fixes for a generation; `check_receiver_threads` rejects zero threads. -/
structure GenConfig where
  numSockets : ℕ
  receiverThreads : ℕ

/-- A thread whose range underflows panics before its first turn. -/
def spawnReceiver (socketRange : Span) : Receiver :=
  ⟨socketRange, if (rangeLen socketRange).isSome = true then .atCell else .stopped⟩

variable {D : Type}

def Gen.start (cfg : GenConfig) (main : MainAt) (cell : Option (List ℕ)) : Gen D where
  numSockets := cfg.numSockets
  main := main
  cell := cell
  receivers := ((socketRanges cfg.numSockets cfg.receiverThreads).getD []).map spawnReceiver
  shutdown := false
  freeze := false
  frozen := 0
  handedOver := false
  listener := .unbound
  connected := false
  stream := []
  closed := false
  forwarded := []
  dropCounters := fun _ => 0

/-- The sockets that generation 0 binds, in the order of their ports. -/
def boundSockets (cfg : ℕ → GenConfig) : List ℕ := List.range (cfg 0).numSockets

def Net.start (cfg : ℕ → GenConfig) : Net D where
  gens := fun k =>
    if k = 0 then .start (cfg 0) .through (some (boundSockets cfg)) else .start (cfg k) .connecting none
  queue := fun _ => []
  arrived := fun _ => []
  reads := fun _ => []

/-! ## Turns -/

/-- What a read of a socket may come to besides what is in its buffer. -/
inductive Poll where
  /-- `room` says whether the channel to the resolution threads takes one more. -/
  | recv (room : Bool)
  | wouldBlock
  | error

inductive Turn (D : Type) where
  | arrive (socket : ℕ) (d : D)
  | receiver (k i : ℕ) (poll : Poll)
  /-- `sent` says whether the system sends the message, if it comes to that. -/
  | listener (k : ℕ) (sent : Bool)
  /-- The 500 ms are over. -/
  | giveUp (k : ℕ)
  /-- `late` says whether the time to connect is over. -/
  | main (k : ℕ) (late : Bool)
  | shutdown (k : ℕ)

namespace Gen

variable (g : Gen D)

def setReceiver (i : ℕ) (r : Receiver) (pc : ReceiverAt) : Gen D :=
  { g with receivers := g.receivers.set i { r with pc := pc } }

/-- `tx.try_send`, for a datagram of the length of a packet. -/
def forward (fits : D → Bool) (id : ℕ) (d : D) (room : Bool) : Gen D :=
  if fits d = true then
    if room = true then { g with forwarded := g.forwarded ++ [(id, d)] }
    else { g with dropCounters := Function.update g.dropCounters id (g.dropCounters id + 1) }
  else g

/-- The sockets that a receiver polls in a sweep. -/
def sweep (r : Receiver) : List ℕ :=
  List.range' r.socketRange.start (r.socketRange.stop - r.socketRange.start)

/-- An action of a receiver on the state of its process. -/
def receiverTurn (i : ℕ) (r : Receiver) : Gen D :=
  match r.pc with
  | .atCell => g.setReceiver i r (if g.cell.isSome = true then .atShutdown else .atCellShutdown)
  | .atCellShutdown => g.setReceiver i r (if g.shutdown = true then .stopped else .atCell)
  | .atShutdown => g.setReceiver i r (if g.shutdown = true then .stopped else .atFreeze)
  | .atFreeze => g.setReceiver i r (if g.freeze = true then .acknowledging else .polling (sweep r))
  | .polling _ => g.setReceiver i r .atShutdown
  | .acknowledging => { g.setReceiver i r .frozen with frozen := g.frozen + 1 }
  | .frozen => g.setReceiver i r (if g.shutdown = true then .stopped else .frozen)
  | .stopped => g

/-- The listener. Its descriptors are those of `sockets()`. -/
def listenerTurn (sent : Bool) : Gen D :=
  match g.listener with
  | .unbound => if g.cell.isSome = true then { g with listener := .accepting } else g
  | .accepting => if g.connected = true then { g with listener := .freezing } else g
  | .freezing => { g with freeze := true, listener := .waiting }
  | .waiting =>
    if g.receivers.length ≤ g.frozen then { g with listener := .sending (sendFds (g.cell.getD [])) }
    else g
  | .sending [] => { g with listener := .marking }
  | .sending (m :: ms) =>
    if sent = true then { g with stream := g.stream ++ [m], listener := .sending ms }
    else { g with closed := true, listener := .failed }
  | .marking => { g with handedOver := true, closed := true, listener := .finished }
  | .finished => g
  | .failed => g

def giveUp : Gen D :=
  match g.listener with
  | .waiting => { g with listener := .sending (sendFds (g.cell.getD [])) }
  | _ => g

/-- `assert_eq!(fds.len(), num_sockets)`, then the sockets are set. -/
def publish (fds : List ℕ) : Gen D :=
  if fds.length = g.numSockets then { g with cell := some fds, main := .through }
  else { g with main := .panicked }

end Gen

namespace Net

variable (n : Net D)

def setGen (k : ℕ) (g : Gen D) : Net D := { n with gens := Function.update n.gens k g }

/-- A datagram leaves the buffer of its socket. -/
def readBy (k socket : ℕ) (d : D) (rest : List D) : Net D :=
  { n with
    queue := Function.update n.queue socket rest
    reads := Function.update n.reads socket (n.reads socket ++ [(k, d)]) }

/-- Receiver `i` polls a socket. An id beyond the sockets is a panic, and an error ends the thread. -/
def pollSocket (fits : D → Bool) (k i : ℕ) (r : Receiver) (id : ℕ) (left : List ℕ) (poll : Poll) :
    Net D :=
  let g := n.gens k
  match (g.cell.getD [])[id]?, poll with
  | none, _ => n.setGen k (g.setReceiver i r .stopped)
  | some _, .error => n.setGen k (g.setReceiver i r .stopped)
  | some _, .wouldBlock => n.setGen k (g.setReceiver i r (.polling left))
  | some socket, .recv room =>
    match n.queue socket with
    | [] => n.setGen k (g.setReceiver i r (.polling left))
    | d :: rest =>
      (n.readBy k socket d rest).setGen k ((g.forward fits id d room).setReceiver i r (.polling left))

def receiverTurn (fits : D → Bool) (k i : ℕ) (poll : Poll) : Net D :=
  match (n.gens k).receivers[i]? with
  | none => n
  | some r =>
    match r.pc with
    | .polling (id :: left) => n.pollSocket fits k i r id left poll
    | _ => n.setGen k ((n.gens k).receiverTurn i r)

/-- The main thread of a generation, with the one before it. -/
def mainTurn (j : ℕ) (late : Bool) : Net D :=
  let g := n.gens (j + 1)
  match g.main with
  | .connecting =>
    match (n.gens j).listener with
    | .accepting =>
      (n.setGen j { n.gens j with connected := true }).setGen (j + 1) { g with main := .receiving [] }
    | _ => if late = true then n.setGen (j + 1) { g with main := .panicked } else n
  | .receiving out =>
    match (n.gens j).stream with
    | [] => if (n.gens j).closed = true then n.setGen (j + 1) { g with main := .panicked } else n
    | m :: ms =>
      (n.setGen j { n.gens j with stream := ms }).setGen (j + 1)
        { g with main :=
            match recvMsg out m with
            | .error _ => .panicked
            | .ok (out, complete) => if complete = true then .took out else .receiving out }
  | .took fds => n.setGen (j + 1) (g.publish fds)
  | .through => n
  | .panicked => n

def turn (fits : D → Bool) : Turn D → Net D
  | .arrive socket d =>
    { n with
      queue := Function.update n.queue socket (n.queue socket ++ [d])
      arrived := Function.update n.arrived socket (n.arrived socket ++ [d]) }
  | .receiver k i poll => n.receiverTurn fits k i poll
  | .listener k sent => n.setGen k ((n.gens k).listenerTurn sent)
  | .giveUp k => n.setGen k (n.gens k).giveUp
  | .main 0 _ => n
  | .main (j + 1) late => n.mainTurn j late
  | .shutdown k => n.setGen k { n.gens k with shutdown := true }

end Net

/-! ## Runs -/

/-- No longer reading. -/
def ReceiverAt.Quiet : ReceiverAt → Prop
  | .acknowledging => True
  | .frozen => True
  | .stopped => True
  | _ => False

def Gen.Quiet (g : Gen D) : Prop := ∀ r ∈ g.receivers, r.pc.Quiet

/-- A listener whose time is over had nothing more to wait for: its receivers stopped reading in time,
and some of them ended without an acknowledgement. -/
def Turn.InTime (n : Net D) : Turn D → Prop
  | .giveUp k => (n.gens k).Quiet
  | _ => True

/-- The states that turns in time lead to. -/
def Reached (cfg : ℕ → GenConfig) (fits : D → Bool) : Net D → Prop :=
  Relation.ReflTransGen (fun n n' => ∃ t : Turn D, t.InTime n ∧ n' = n.turn fits t) (.start cfg)

/-- Turns one after the other. -/
def Net.run (fits : D → Bool) : List (Turn D) → Net D → Net D
  | [], n => n
  | t :: ts, n => Net.run fits ts (n.turn fits t)

def Net.InTime (fits : D → Bool) : List (Turn D) → Net D → Prop
  | [], _ => True
  | t :: ts, n => t.InTime n ∧ Net.InTime fits ts (n.turn fits t)

theorem Reached.run {cfg : ℕ → GenConfig} {fits : D → Bool} {n : Net D} (h : Reached cfg fits n)
    {ts : List (Turn D)} (hin : n.InTime fits ts) : Reached cfg fits (n.run fits ts) := by
  induction ts generalizing n with
  | nil => exact h
  | cons t ts ih => exact ih (h.tail ⟨t, hin.1, rfl⟩) hin.2

end Tomii.Handover
