import Tomii.Foundations.MachineWord
import Mathlib.Data.List.Basic

/-! # Descriptors over a Unix socket (`handover.rs`)

`send_fds` and `recv_fds`, for descriptors of any type. A read of the stream gets the eight bytes of one
message at most, and the descriptors that came with them. Errors of the system are left out. -/
namespace Tomii.Handover
set_option autoImplicit false
set_option maxHeartbeats 250000

/-! ## Chunks -/

/-- `slice::chunks`, for a size that is not zero. -/
def chunks {α : Type} (size : ℕ) : List α → List (List α)
  | [] => []
  | x :: xs => (x :: xs.take (size - 1)) :: chunks size (xs.drop (size - 1))
termination_by xs => xs.length
decreasing_by
  rw [List.length_drop, List.length_cons]
  omega

theorem flatten_chunks {α : Type} (size : ℕ) (xs : List α) : (chunks size xs).flatten = xs := by
  induction xs using chunks.induct size with
  | case1 => rw [chunks, List.flatten_nil]
  | case2 x xs ih => rw [chunks, List.flatten_cons, ih, List.cons_append, List.take_append_drop]

theorem length_of_mem_chunks {α : Type} {size : ℕ} (hsize : 0 < size) {xs c : List α}
    (h : c ∈ chunks size xs) : 0 < c.length ∧ c.length ≤ size := by
  induction xs using chunks.induct size with
  | case1 =>
    rw [chunks] at h
    exact absurd h List.not_mem_nil
  | case2 x xs ih =>
    rw [chunks] at h
    rcases List.mem_cons.mp h with rfl | h
    · have hle := List.length_take_le (size - 1) xs
      rw [List.length_cons]
      omega
    · exact ih h

/-! ## Messages -/

/-- The payload, and the descriptors beside it. -/
structure Message (Fd : Type) where
  payload : List UInt8
  fds : List Fd

def fdsPerMsg : ℕ := 200

variable {Fd : Type} {fds out : List Fd} {m : Message Fd} {ms rest : List (Message Fd)}

/-- `send_chunk` -/
def sendChunk (total : ℕ) (fds : List Fd) : Message Fd :=
  ⟨toLeBytes 4 fds.length ++ toLeBytes 4 total, fds⟩

/-- The messages of `send_fds`. Without descriptors there is one all the same. -/
def sendFds (fds : List Fd) : List (Message Fd) :=
  if fds.isEmpty = true then [sendChunk fds.length []]
  else (chunks fdsPerMsg fds).map (sendChunk fds.length)

/-- How `recv_fds` may fail: `UnexpectedEof`. -/
inductive RecvError where
  | shortHeader
deriving DecidableEq

/-- A turn of the loop of `recv_fds`: the descriptors so far, and whether that is all of them. What
does not fit beside the payload is cut off. -/
def recvMsg (out : List Fd) (m : Message Fd) : Except RecvError (List Fd × Bool) :=
  if m.payload.length = 8 then
    let count := fromLeBytes (m.payload.take 4)
    let total := fromLeBytes (m.payload.drop 4)
    let out := if 0 < count then out ++ m.fds.take fdsPerMsg else out
    .ok (out, decide (total ≤ out.length))
  else .error .shortHeader

/-- `recv_fds` on what the other side sends before it closes the stream, with what is left of that. -/
def recvFds (out : List Fd) : List (Message Fd) → Except RecvError (List Fd × List (Message Fd))
  | [] => .error .shortHeader
  | m :: ms => do
    let (out, complete) ← recvMsg out m
    if complete = true then pure (out, ms) else recvFds out ms

/-! ## Round trip -/

theorem recvMsg_sendChunk {total : ℕ} (htotal : total < 2 ^ 32) (hfits : fds.length ≤ fdsPerMsg) :
    recvMsg out (sendChunk total fds) = .ok (out ++ fds, decide (total ≤ (out ++ fds).length)) := by
  have hlen : fds.length < 2 ^ 32 := hfits.trans_lt (by decide)
  have hcount : fromLeBytes ((sendChunk total fds).payload.take 4) = fds.length := by
    rw [sendChunk, List.take_left' (length_toLeBytes 4 _), fromLeBytes_toLeBytes,
      Nat.mod_eq_of_lt hlen]
  have htot : fromLeBytes ((sendChunk total fds).payload.drop 4) = total := by
    rw [sendChunk, List.drop_left' (length_toLeBytes 4 _), fromLeBytes_toLeBytes,
      Nat.mod_eq_of_lt htotal]
  have hout : (if 0 < fds.length then out ++ (sendChunk total fds).fds.take fdsPerMsg else out) =
      out ++ fds := by
    cases hempty : fds with
    | nil => rw [List.append_nil]; rfl
    | cons fd rest =>
      rw [← hempty, if_pos (by rw [hempty]; exact Nat.succ_pos _)]
      exact congrArg (out ++ ·) (List.take_of_length_le hfits)
  have height : (sendChunk total fds).payload.length = 8 := by
    rw [sendChunk, List.length_append, length_toLeBytes, length_toLeBytes]
  unfold recvMsg
  rw [if_pos height]
  simp only [hcount, htot, hout]

theorem sendFds_of_ne_nil (h : fds ≠ []) :
    sendFds fds = (chunks fdsPerMsg fds).map (sendChunk fds.length) :=
  if_neg fun hempty => h (List.isEmpty_iff.mp hempty)

/-- Every message holds a chunk that fits beside its payload. -/
theorem of_mem_sendFds (h : m ∈ sendFds fds) :
    m = sendChunk fds.length m.fds ∧ m.fds.length ≤ fdsPerMsg ∧ (fds ≠ [] → 0 < m.fds.length) := by
  by_cases hnil : fds = []
  · subst hnil
    obtain rfl := List.mem_singleton.mp h
    exact ⟨rfl, Nat.zero_le _, fun hne => absurd rfl hne⟩
  · rw [sendFds_of_ne_nil hnil] at h
    obtain ⟨chunk, hchunk, rfl⟩ := List.mem_map.mp h
    obtain ⟨hpos, hfits⟩ := length_of_mem_chunks (by decide) hchunk
    exact ⟨rfl, hfits, fun _ => hpos⟩

theorem flatMap_sendFds (fds : List Fd) : (sendFds fds).flatMap Message.fds = fds := by
  by_cases hnil : fds = []
  · subst hnil
    rfl
  · rw [sendFds_of_ne_nil hnil, List.flatMap_map]
    show (chunks fdsPerMsg fds).flatMap (fun chunk => chunk) = fds
    rw [List.flatMap_id', flatten_chunks]

theorem sendFds_ne_nil (fds : List Fd) : sendFds fds ≠ [] := by
  intro h
  have hnil := (flatMap_sendFds fds).symm.trans (congrArg (List.flatMap Message.fds) h)
  subst hnil
  exact absurd h (List.cons_ne_nil _ _)

/-- The announced total has arrived with the last message, and not before. -/
theorem arrived_iff {before after : List (Message Fd)} (h : sendFds fds = before ++ m :: after) :
    fds.length ≤ ((before ++ [m]).flatMap Message.fds).length ↔ after = [] := by
  have hfds : (before ++ [m]).flatMap Message.fds ++ after.flatMap Message.fds = fds := by
    rw [← List.flatMap_append, List.append_assoc]
    exact (congrArg (List.flatMap Message.fds) h).symm.trans (flatMap_sendFds fds)
  have hlen := congrArg List.length hfds
  rw [List.length_append] at hlen
  constructor
  · intro hle
    cases after with
    | nil => rfl
    | cons m' after =>
      have hne : fds ≠ [] := by
        rintro rfl
        have hone := congrArg List.length h
        simp only [List.length_append, List.length_cons] at hone
        have : (sendFds ([] : List Fd)).length = 1 := rfl
        omega
      have hmem : m' ∈ sendFds fds := by
        rw [h]
        exact List.mem_append_right _ (List.mem_cons_of_mem _ List.mem_cons_self)
      have hpos := (of_mem_sendFds hmem).2.2 hne
      rw [List.flatMap_cons, List.length_append] at hlen
      omega
  · rintro rfl
    rw [← hlen]
    exact Nat.le_refl _

/-- What the receiver makes of the next message, once it has read the messages before it. -/
theorem recvMsg_next {before after : List (Message Fd)} (hcount : fds.length < 2 ^ 32)
    (h : sendFds fds = before ++ m :: after) :
    recvMsg (before.flatMap Message.fds) m =
      .ok ((before ++ [m]).flatMap Message.fds, after.isEmpty) := by
  have hmem : m ∈ sendFds fds := by
    rw [h]
    exact List.mem_append_right _ List.mem_cons_self
  obtain ⟨hchunk, hfits, -⟩ := of_mem_sendFds hmem
  have hout : before.flatMap Message.fds ++ m.fds = (before ++ [m]).flatMap Message.fds := by
    rw [List.flatMap_append, List.flatMap_singleton]
  rw [hchunk, recvMsg_sendChunk hcount hfits, ← hchunk, hout]
  refine congrArg (fun b => Except.ok (_, b)) ?_
  rw [Bool.eq_iff_iff, decide_eq_true_iff, arrived_iff h, List.isEmpty_iff]

theorem recvFds_next {before after : List (Message Fd)} (hcount : fds.length < 2 ^ 32)
    (h : sendFds fds = before ++ after) (hafter : after ≠ []) :
    recvFds (before.flatMap Message.fds) (after ++ rest) = .ok (fds, rest) := by
  induction after generalizing before with
  | nil => exact absurd rfl hafter
  | cons m after ih =>
    rw [List.cons_append, recvFds, recvMsg_next hcount h]
    cases after with
    | nil =>
      have hall := (congrArg (List.flatMap Message.fds) h).symm.trans (flatMap_sendFds fds)
      rw [hall]
      rfl
    | cons m' after =>
      exact ih (h.trans (List.append_cons before m (m' :: after))) (List.cons_ne_nil _ _)

/-- A stream that ends too early. -/
theorem recvFds_cut {before between after : List (Message Fd)} (hcount : fds.length < 2 ^ 32)
    (h : sendFds fds = before ++ between ++ after) (hafter : after ≠ []) :
    recvFds (before.flatMap Message.fds) between = .error .shortHeader := by
  induction between generalizing before with
  | nil => rfl
  | cons m between ih =>
    rw [List.append_assoc, List.cons_append] at h
    rw [recvFds, recvMsg_next hcount h]
    have hmore : (between ++ after).isEmpty = false := by
      cases between with
      | nil => exact List.isEmpty_eq_false_iff.mpr hafter
      | cons m' between => rfl
    rw [hmore]
    refine ih ?_
    rw [h, List.append_cons before m (between ++ after), List.append_assoc (before ++ [m])]

/-- Descriptors arrive as they were sent, in order, whatever their number and whatever follows in the
stream; the other side never takes a part of them for all, and no message holds more than the system
takes. A process has fewer than 2^31 descriptors. -/
theorem descriptors_roundTrip (hcount : fds.length < 2 ^ 32) :
    (∀ rest, recvFds [] (sendFds fds ++ rest) = .ok (fds, rest)) ∧
      (∀ sent after, sendFds fds = sent ++ after → after ≠ [] →
        recvFds [] sent = .error .shortHeader) ∧
      ∀ m ∈ sendFds fds, m.payload.length = 8 ∧ m.fds.length ≤ 253 := by
  refine ⟨fun rest => ?_, fun sent after h hafter => ?_, fun m hm => ?_⟩
  · exact @recvFds_next Fd fds rest [] (sendFds fds) hcount rfl (sendFds_ne_nil fds)
  · exact @recvFds_cut Fd fds [] sent after hcount h hafter
  · obtain ⟨hchunk, hfits, -⟩ := of_mem_sendFds hm
    refine ⟨?_, hfits.trans (by decide)⟩
    rw [hchunk, sendChunk, List.length_append, length_toLeBytes, length_toLeBytes]

theorem descriptors_roundTrip_three :
    (∀ rest, recvFds [] (sendFds [3, 4, 5] ++ rest) = .ok ([3, 4, 5], rest)) ∧
      (∀ sent after, sendFds [3, 4, 5] = sent ++ after → after ≠ [] →
        recvFds [] sent = .error .shortHeader) ∧
      ∀ m ∈ sendFds [3, 4, 5], m.payload.length = 8 ∧ m.fds.length ≤ 253 :=
  @descriptors_roundTrip ℕ [3, 4, 5] (by decide)

end Tomii.Handover
