import Tomii.Foundations.OrderedMap
import Mathlib.Order.MinMax

/-! # The account of parked packets (`packet_processing.rs`)

`pending_frames` and `pending_count` change only under the lock of `pending_frames`. The steps here
are its critical sections, with the drop bit of a packet's frame read before. -/
namespace Tomii.Slots
set_option autoImplicit false
set_option maxHeartbeats 250000

/-! ## State -/

structure ParkConfig where
  framePackets : UInt64
  slots : UInt64

/-- One extra window's worth of packets. -/
def ParkConfig.cap (cfg : ParkConfig) : UInt64 := cfg.framePackets * cfg.slots

structure PendingPacket (α : Type) where
  packet : α
  timestamp : ℕ
  receiverCoreId : ℕ
deriving DecidableEq

structure Parking (α : Type) where
  pendingFrames : OrderedMap ℕ (List (PendingPacket α))
  pendingCount : UInt64
  frameDropped : List Bool
  frameCompleteCounter : UInt64
  droppedFrames : UInt64

namespace Parking

variable {α : Type} (σ : Parking α)

def initial (tracked : ℕ) : Parking α := ⟨∅, 0, List.replicate tracked false, 0, 0⟩

/-- The packets parked for a frame. -/
def packets (frame : ℕ) : List (PendingPacket α) := (σ.pendingFrames.get? frame).getD []

def total : ℕ := σ.pendingFrames.total List.length

/-- `pending.entry(frame).or_default().push` -/
def push (frame : ℕ) (p : PendingPacket α) : Parking α :=
  { σ with
    pendingFrames := σ.pendingFrames.alter frame fun ps => ps.getD [] ++ [p]
    pendingCount := σ.pendingCount + 1 }

/-- `pending.remove` of a frame that holds `ps`. -/
def remove (frame : ℕ) (ps : List (PendingPacket α)) : Parking α :=
  { σ with
    pendingFrames := σ.pendingFrames.erase frame
    pendingCount := σ.pendingCount - UInt64.ofNat ps.length }

end Parking

/-! ## Parking and re-injection -/

section Programs

variable {α : Type} (cfg : ParkConfig)

def markFrameDropped (frame : ℕ) (σ : Parking α) : Parking α :=
  match σ.frameDropped[frame]? with
  | none => σ
  | some true => σ
  | some false =>
    { σ with
      frameDropped := σ.frameDropped.set frame true
      frameCompleteCounter := σ.frameCompleteCounter + 1
      droppedFrames := σ.droppedFrames + 1 }

/-- The frame furthest from admission, the incoming packet's frame included. -/
def victimOf (frame : ℕ) (σ : Parking α) : ℕ :=
  σ.pendingFrames.lastKey?.elim frame fun maxParked => max maxParked frame

/-- The overflow branch: `victim` is dropped whole. -/
def dropVictim (victim : ℕ) (σ : Parking α) : Parking α :=
  markFrameDropped victim
    (match σ.pendingFrames.get? victim with
    | some evicted => σ.remove victim evicted
    | none => σ)

def parkPendingPacket (frame : ℕ) (p : PendingPacket α) (σ : Parking α) : Parking α :=
  match σ.frameDropped[frame]? with
  | none => σ
  | some true => σ
  | some false =>
    if cfg.cap ≤ σ.pendingCount then
      let victim := victimOf frame σ
      if victim = frame then dropVictim victim σ else (dropVictim victim σ).push frame p
    else σ.push frame p

/-- `unwrap` fails on a frame that is not parked. -/
def takeFrames : List ℕ → Parking α → Option (List (ℕ × List (PendingPacket α)) × Parking α)
  | [], σ => some ([], σ)
  | frame :: frames, σ => do
    let packets ← σ.pendingFrames.get? frame
    let (ready, σ') ← takeFrames frames (σ.remove frame packets)
    pure ((frame, packets) :: ready, σ')

/-- `window_end` -/
def windowEnd (σ : Parking α) : ℕ := (σ.frameCompleteCounter + cfg.slots).toNat

/-- The extraction of `reinject_pending_frames` under the lock. -/
def takeReady (σ : Parking α) : Option (List (ℕ × List (PendingPacket α)) × Parking α) :=
  takeFrames (σ.pendingFrames.keysBelow (windowEnd cfg σ)) σ

/-- The packets of `admit_packet`'s calls, each with its place among those of its frame. -/
def placed (ready : List (ℕ × List (PendingPacket α))) : List (ℕ × PendingPacket α × ℕ) :=
  ready.flatMap fun fp => fp.2.zipIdx.map fun q => (fp.1, q)

/-- Every packet that finds no slot is parked again. -/
def readmit (noSlotYet : ℕ → ℕ → Bool) (ready : List (ℕ × List (PendingPacket α)))
    (σ : Parking α) : Parking α :=
  (placed ready).foldl
    (fun σ q => if noSlotYet q.1 q.2.2 then parkPendingPacket cfg q.1 q.2.1 σ else σ) σ

/-- `noSlotYet` says for which packets of a frame `admit_packet` finds no slot. -/
def reinjectPendingFrames (noSlotYet : ℕ → ℕ → Bool) (σ : Parking α) : Option (Parking α) :=
  (takeReady cfg σ).map fun (ready, σ') => readmit cfg noSlotYet ready σ'

/-- The states between critical sections, in any order of the threads. Elsewhere frames complete and
are dropped. -/
inductive Parked (tracked : ℕ) : Parking α → Prop where
  | start : Parked tracked (.initial tracked)
  | park {σ : Parking α} (frame : ℕ) (p : PendingPacket α) (h : Parked tracked σ) :
      Parked tracked (parkPendingPacket cfg frame p σ)
  | take {σ σ' : Parking α} {ready : List (ℕ × List (PendingPacket α))} (h : Parked tracked σ)
      (htake : takeReady cfg σ = some (ready, σ')) : Parked tracked σ'
  | elsewhere {σ : Parking α} (frameDropped : List Bool) (frameCompleteCounter droppedFrames : UInt64)
      (hlen : frameDropped.length = σ.frameDropped.length) (h : Parked tracked σ) :
      Parked tracked { σ with frameDropped, frameCompleteCounter, droppedFrames }

end Programs

/-! ## The account -/

variable {α : Type} {cfg : ParkConfig} {σ σ' : Parking α}

/-- `pending_count` counts the parked packets, up to one window's worth, and no frame is parked
without a packet. -/
structure Accounted (cfg : ParkConfig) (σ : Parking α) : Prop where
  nonempty : ∀ {frame ps}, σ.pendingFrames.get? frame = some ps → ps ≠ []
  count : σ.pendingCount.toNat = σ.total
  bound : σ.pendingCount ≤ cfg.cap

theorem Accounted.of_pending (h : Accounted cfg σ) (hframes : σ'.pendingFrames = σ.pendingFrames)
    (hcount : σ'.pendingCount = σ.pendingCount) : Accounted cfg σ' where
  nonempty := by
    rw [hframes]
    exact h.nonempty
  count := by
    rw [hcount, Parking.total, hframes]
    exact h.count
  bound := hcount ▸ h.bound

theorem markFrameDropped_pending (frame : ℕ) (σ : Parking α) :
    (markFrameDropped frame σ).pendingFrames = σ.pendingFrames ∧
      (markFrameDropped frame σ).pendingCount = σ.pendingCount := by
  unfold markFrameDropped
  split <;> exact ⟨rfl, rfl⟩

theorem markFrameDropped_dropped (frame : ℕ) (σ : Parking α) :
    (markFrameDropped frame σ).frameDropped[frame]? ≠ some false := by
  unfold markFrameDropped
  split
  · next h => simp [h]
  · next h => simp [h]
  · next h => simp [List.getElem?_set]

theorem packets_push {frame f : ℕ} {p : PendingPacket α} :
    (σ.push frame p).packets f = σ.packets f ++ if f = frame then [p] else [] := by
  rw [Parking.packets, Parking.packets, Parking.push, OrderedMap.get?_alter]
  by_cases hf : f = frame
  · rw [if_pos hf, if_pos hf, hf]
    rfl
  · rw [if_neg hf, if_neg hf, List.append_nil]

theorem total_push {frame : ℕ} {p : PendingPacket α} : (σ.push frame p).total = σ.total + 1 := by
  have h : (σ.push frame p).total + (σ.pendingFrames.get? frame).elim 0 List.length =
      σ.total + ((σ.pendingFrames.get? frame).getD [] ++ [p]).length :=
    σ.pendingFrames.total_alter List.length frame fun ps => ps.getD [] ++ [p]
  cases hps : σ.pendingFrames.get? frame with
  | none =>
    rw [hps] at h
    exact h
  | some ps =>
    rw [hps] at h
    simp only [Option.elim_some, Option.getD_some, List.length_append, List.length_singleton] at h
    omega

theorem Accounted.push (h : Accounted cfg σ) {frame : ℕ} {p : PendingPacket α}
    (hlt : σ.pendingCount < cfg.cap) : Accounted cfg (σ.push frame p) where
  nonempty := by
    intro f ps hps
    rw [Parking.push, OrderedMap.get?_alter] at hps
    split at hps
    · obtain rfl := Option.some.inj hps
      exact List.append_ne_nil_of_right_ne_nil _ (List.cons_ne_nil p [])
    · exact h.nonempty hps
  count := by
    have hmax := cfg.cap.toNat_lt
    have hnat : σ.pendingCount.toNat < cfg.cap.toNat := hlt
    rw [total_push, ← h.count, Parking.push, UInt64.toNat_add, UInt64.toNat_one,
      Nat.mod_eq_of_lt (by omega)]
  bound := by
    have hmax := cfg.cap.toNat_lt
    have hnat : σ.pendingCount.toNat < cfg.cap.toNat := hlt
    show (σ.pendingCount + 1).toNat ≤ cfg.cap.toNat
    rw [UInt64.toNat_add, UInt64.toNat_one, Nat.mod_eq_of_lt (by omega)]
    exact hnat

theorem total_remove {frame : ℕ} {ps : List (PendingPacket α)}
    (hps : σ.pendingFrames.get? frame = some ps) :
    (σ.remove frame ps).total + ps.length = σ.total := by
  have herase := σ.pendingFrames.total_erase List.length frame
  rw [hps] at herase
  exact herase

/-- A frame that is removed gives up all its packets, at least one. -/
theorem Accounted.remove (h : Accounted cfg σ) {frame : ℕ} {ps : List (PendingPacket α)}
    (hps : σ.pendingFrames.get? frame = some ps) :
    Accounted cfg (σ.remove frame ps) ∧ (σ.remove frame ps).pendingCount < σ.pendingCount := by
  have htotal := total_remove hps
  have hpos : 0 < ps.length := List.length_pos_of_ne_nil (h.nonempty hps)
  have hmax := σ.pendingCount.toNat_lt
  have hcongr := h.count
  have hofNat : (UInt64.ofNat ps.length).toNat = ps.length :=
    UInt64.toNat_ofNat_of_lt' (Nat.lt_of_le_of_lt (by omega) hmax)
  have hcount : (σ.remove frame ps).pendingCount.toNat = (σ.remove frame ps).total := by
    have hle : UInt64.ofNat ps.length ≤ σ.pendingCount := by
      rw [UInt64.le_iff_toNat_le, hofNat]
      omega
    have hsub : (σ.pendingCount - UInt64.ofNat ps.length).toNat = _ :=
      UInt64.toNat_sub_of_le _ _ hle
    rw [hofNat] at hsub
    exact hsub.trans (by omega)
  have hlt : (σ.remove frame ps).pendingCount < σ.pendingCount := by
    rw [UInt64.lt_iff_toNat_lt, hcount]
    omega
  refine ⟨⟨fun {f qs} hqs => ?_, hcount, ?_⟩, hlt⟩
  · rw [Parking.remove, OrderedMap.get?_erase] at hqs
    split at hqs
    · cases hqs
    · exact h.nonempty hqs
  · exact UInt64.le_trans (UInt64.le_of_lt hlt) h.bound

/-! ## The victim of an overflow -/

/-- The highest among the parked frames and the incoming one. -/
structure Furthest (σ : Parking α) (frame victim : ℕ) : Prop where
  among : victim = frame ∨ (σ.pendingFrames.get? victim).isSome
  frame_le : frame ≤ victim
  parked_le : ∀ f, (σ.pendingFrames.get? f).isSome → f ≤ victim

theorem victimOf_furthest (frame : ℕ) (σ : Parking α) : Furthest σ frame (victimOf frame σ) := by
  unfold victimOf
  cases hlast : σ.pendingFrames.lastKey? with
  | none =>
    refine ⟨.inl rfl, le_rfl, fun f hf => ?_⟩
    rw [OrderedMap.lastKey?_eq_none hlast] at hf
    cases hf
  | some maxParked =>
    obtain ⟨hparked, hle⟩ := OrderedMap.lastKey?_eq_some hlast
    refine ⟨?_, le_max_right _ _, fun f hf => (hle f hf).trans (le_max_left _ _)⟩
    rcases max_choice maxParked frame with hmax | hmax
    · exact .inr (by rw [Option.elim_some, hmax]; exact hparked)
    · exact .inl (by rw [Option.elim_some, hmax])

theorem dropVictim_frames {victim f : ℕ} (hne : f ≠ victim) :
    (dropVictim victim σ).packets f = σ.packets f := by
  rw [Parking.packets, dropVictim, (markFrameDropped_pending _ _).1]
  split
  · rw [Parking.remove, OrderedMap.get?_erase, if_neg hne]
    rfl
  · rfl

theorem dropVictim_victim (victim : ℕ) (σ : Parking α) :
    (dropVictim victim σ).pendingFrames.get? victim = none := by
  rw [dropVictim, (markFrameDropped_pending _ _).1]
  split
  · rw [Parking.remove, OrderedMap.get?_erase, if_pos rfl]
  · next hnone => exact hnone

theorem Accounted.dropVictim (h : Accounted cfg σ) (victim : ℕ) :
    Accounted cfg (dropVictim victim σ) := by
  obtain ⟨hframes, hcount⟩ := markFrameDropped_pending victim
    (match σ.pendingFrames.get? victim with
    | some evicted => σ.remove victim evicted
    | none => σ)
  refine Accounted.of_pending ?_ hframes hcount
  split
  · next hps => exact (h.remove hps).1
  · exact h

/-- A victim that is parked leaves room for the incoming packet. -/
theorem Accounted.room (h : Accounted cfg σ) {victim : ℕ}
    (hparked : (σ.pendingFrames.get? victim).isSome) :
    (Slots.dropVictim victim σ).pendingCount < cfg.cap := by
  obtain ⟨ps, hps⟩ := Option.isSome_iff_exists.mp hparked
  rw [Slots.dropVictim, (markFrameDropped_pending _ _).2, hps]
  exact UInt64.lt_of_lt_of_le (h.remove hps).2 h.bound

theorem Accounted.park (h : Accounted cfg σ) (frame : ℕ) (p : PendingPacket α) :
    Accounted cfg (parkPendingPacket cfg frame p σ) := by
  unfold parkPendingPacket
  split
  · exact h
  · exact h
  · split
    · dsimp only
      split
      · exact h.dropVictim _
      · next hne =>
        have hparked := (victimOf_furthest frame σ).among.resolve_left hne
        exact (h.dropVictim _).push (h.room hparked)
    · next hroom => exact h.push (UInt64.not_le.mp hroom)

/-! ## Re-injection -/

/-- What is taken out for a frame. -/
def takenOf (ready : List (ℕ × List (PendingPacket α))) (frame : ℕ) : List (PendingPacket α) :=
  (ready.filter fun fp => fp.1 = frame).flatMap Prod.snd

/-- `taken` are the parked packets of `frames`, in order, and the others stay where they are. -/
structure Takes (σ σ' : Parking α) (frames : List ℕ) (ready : List (ℕ × List (PendingPacket α))) :
    Prop where
  ready_eq : ready = frames.map fun f => (f, σ.packets f)
  left : ∀ f, σ'.packets f = if f ∈ frames then [] else σ.packets f
  frameDropped : σ'.frameDropped = σ.frameDropped
  total : σ'.total + (placed ready).length = σ.total

theorem packets_remove {frame f : ℕ} {ps : List (PendingPacket α)} :
    (σ.remove frame ps).packets f = if f = frame then [] else σ.packets f := by
  rw [Parking.packets, Parking.remove, OrderedMap.get?_erase]
  split
  · rfl
  · rfl

theorem placed_cons (frame : ℕ) (ps : List (PendingPacket α))
    (ready : List (ℕ × List (PendingPacket α))) :
    placed ((frame, ps) :: ready) = (ps.zipIdx.map fun q => (frame, q)) ++ placed ready := rfl

theorem takeFrames_eq_some (frames : List ℕ) (hnodup : frames.Nodup) (h : Accounted cfg σ)
    (hparked : ∀ f ∈ frames, (σ.pendingFrames.get? f).isSome) :
    ∃ ready σ', takeFrames frames σ = some (ready, σ') ∧ Accounted cfg σ' ∧
      Takes σ σ' frames ready := by
  induction frames generalizing σ with
  | nil => exact ⟨[], σ, rfl, h, rfl, fun f => rfl, rfl, rfl⟩
  | cons frame frames ih =>
    obtain ⟨hnotin, hnodup⟩ := List.nodup_cons.mp hnodup
    obtain ⟨ps, hps⟩ := Option.isSome_iff_exists.mp (hparked frame List.mem_cons_self)
    have hne : ∀ f ∈ frames, f ≠ frame := by
      rintro f hf rfl
      exact hnotin hf
    have hrest : ∀ f ∈ frames, ((σ.remove frame ps).pendingFrames.get? f).isSome := by
      intro f hf
      rw [Parking.remove, OrderedMap.get?_erase, if_neg (hne f hf)]
      exact hparked f (List.mem_cons_of_mem _ hf)
    obtain ⟨ready, σ', htake, haccounted, htakes⟩ := ih hnodup (h.remove hps).1 hrest
    refine ⟨(frame, ps) :: ready, σ', ?_, haccounted, ?_, fun f => ?_, htakes.frameDropped, ?_⟩
    · rw [takeFrames, hps, Option.bind_eq_bind, Option.bind_some, htake]
      rfl
    · have hself : σ.packets frame = ps := by
        rw [Parking.packets, hps]
        rfl
      rw [List.map_cons, hself, htakes.ready_eq]
      refine congrArg _ (List.map_congr_left fun f hf => ?_)
      rw [packets_remove, if_neg (hne f hf)]
    · rw [htakes.left f, packets_remove]
      by_cases hf : f = frame
      · rw [if_pos hf, if_pos (List.mem_cons.mpr (.inl hf))]
        split
        · rfl
        · rfl
      · simp only [List.mem_cons, hf, false_or, if_false]
    · have hleft := htakes.total
      have hremoved := total_remove hps
      rw [placed_cons, List.length_append, List.length_map, List.length_zipIdx]
      omega

theorem takeReady_eq_some (h : Accounted cfg σ) :
    ∃ ready σ', takeReady cfg σ = some (ready, σ') ∧ Accounted cfg σ' ∧
      Takes σ σ' (σ.pendingFrames.keysBelow (windowEnd cfg σ)) ready :=
  takeFrames_eq_some _ (OrderedMap.keysBelow_nodup _ _) h
    fun _ hf => (OrderedMap.mem_keysBelow.mp hf).2

/-- A frame below the bound that is not among the keys has no packet. -/
theorem packets_of_not_mem_keysBelow {bound f : ℕ} (hlt : f < bound)
    (hnot : f ∉ σ.pendingFrames.keysBelow bound) : σ.packets f = [] := by
  cases hps : σ.pendingFrames.get? f with
  | none =>
    rw [Parking.packets, hps]
    rfl
  | some ps =>
    refine absurd (OrderedMap.mem_keysBelow.mpr ⟨hlt, ?_⟩) hnot
    rw [hps]
    rfl

/-- Taking out the frames below a bound leaves nothing of them, and all of the others. -/
theorem Takes.left_below {bound : ℕ} {ready : List (ℕ × List (PendingPacket α))}
    (h : Takes σ σ' (σ.pendingFrames.keysBelow bound) ready) (f : ℕ) :
    σ'.packets f = if f < bound then [] else σ.packets f := by
  rw [h.left f]
  by_cases hlt : f < bound
  · rw [if_pos hlt]
    split
    · rfl
    · next hnot => exact packets_of_not_mem_keysBelow hlt hnot
  · rw [if_neg hlt, if_neg fun hin => hlt (OrderedMap.mem_keysBelow.mp hin).1]

theorem takenOf_map {frames : List ℕ} (hnodup : frames.Nodup) (f : ℕ) :
    takenOf (frames.map fun g => (g, σ.packets g)) f = if f ∈ frames then σ.packets f else [] := by
  induction frames with
  | nil => rfl
  | cons frame frames ih =>
    obtain ⟨hnotin, hnodup⟩ := List.nodup_cons.mp hnodup
    have htail := ih hnodup
    simp only [takenOf, List.map_cons, List.filter_cons] at htail ⊢
    by_cases hf : f = frame
    · subst hf
      rw [if_neg hnotin] at htail
      simp [htail]
    · have hne : ¬ frame = f := fun heq => hf heq.symm
      simp [hne, hf, htail]

theorem Takes.takenOf_below {bound : ℕ} {ready : List (ℕ × List (PendingPacket α))}
    (h : Takes σ σ' (σ.pendingFrames.keysBelow bound) ready) (f : ℕ) :
    takenOf ready f = if f < bound then σ.packets f else [] := by
  rw [h.ready_eq, takenOf_map (OrderedMap.keysBelow_nodup _ _)]
  by_cases hlt : f < bound
  · rw [if_pos hlt]
    split
    · rfl
    · next hnot => exact (packets_of_not_mem_keysBelow hlt hnot).symm
  · rw [if_neg hlt, if_neg fun hin => hlt (OrderedMap.mem_keysBelow.mp hin).1]

theorem Parked.readmitted {tracked : ℕ} (noSlotYet : ℕ → ℕ → Bool)
    (ready : List (ℕ × List (PendingPacket α))) (h : Parked cfg tracked σ) :
    Parked cfg tracked ( readmit cfg noSlotYet ready σ) := by
  unfold readmit
  generalize placed ready = todo
  induction todo generalizing σ with
  | nil => exact h
  | cons q todo ih =>
    rw [List.foldl_cons]
    split
    · exact ih (.park q.1 q.2.1 h)
    · exact ih h

theorem Parked.accounted {tracked : ℕ} (h : Parked cfg tracked σ) : Accounted cfg σ := by
  induction h with
  | start =>
    refine ⟨fun hps => ?_, rfl, UInt64.zero_le⟩
    cases hps
  | park frame p _ ih => exact ih.park frame p
  | take _ htake ih =>
    obtain ⟨ready, σ', htake', haccounted, -⟩ := takeReady_eq_some ih
    obtain ⟨-, rfl⟩ := Prod.ext_iff.mp (Option.some.inj (htake'.symm.trans htake))
    exact haccounted
  | elsewhere frameDropped completed dropped _ _ ih => exact ih.of_pending rfl rfl

/-! ## Overflow and loss -/

/-- The packet reaches the buffer: its frame can be tracked and is not dropped. -/
def Parks (σ : Parking α) (frame : ℕ) : Prop := σ.frameDropped[frame]? = some false

instance (σ : Parking α) (frame : ℕ) : Decidable (Parks σ frame) :=
  inferInstanceAs (Decidable (σ.frameDropped[frame]? = some false))

/-- `victim` loses all its packets and is marked, and every other packet is there, the incoming one
included unless it is of that frame. -/
structure DropsOnly (σ σ' : Parking α) (frame : ℕ) (p : PendingPacket α) (victim : ℕ) : Prop where
  gone : σ'.packets victim = []
  marked : σ'.frameDropped[victim]? ≠ some false
  kept : ∀ f, f ≠ victim → σ'.packets f = σ.packets f ++ if f = frame then [p] else []

theorem park_overflow {frame : ℕ} (hparks : Parks σ frame) (hfull : cfg.cap ≤ σ.pendingCount)
    (p : PendingPacket α) :
    DropsOnly σ (parkPendingPacket cfg frame p σ) frame p (victimOf frame σ) := by
  simp only [parkPendingPacket, show σ.frameDropped[frame]? = some false from hparks, if_pos hfull]
  have hgone : (dropVictim (victimOf frame σ) σ).packets (victimOf frame σ) = [] := by
    rw [Parking.packets, dropVictim_victim]
    rfl
  have hmarked := markFrameDropped_dropped (victimOf frame σ)
    (match σ.pendingFrames.get? (victimOf frame σ) with
    | some evicted => σ.remove (victimOf frame σ) evicted
    | none => σ)
  split
  · next heq =>
    refine ⟨hgone, hmarked, fun f hf => ?_⟩
    rw [dropVictim_frames hf, if_neg fun hff => hf (hff.trans heq.symm), List.append_nil]
  · next hne =>
    refine ⟨?_, hmarked, fun f hf => ?_⟩
    · rw [packets_push, hgone, if_neg hne]
      rfl
    · rw [packets_push, dropVictim_frames hf]

theorem park_room {frame : ℕ} (hparks : Parks σ frame) (hroom : σ.pendingCount < cfg.cap)
    (p : PendingPacket α) (f : ℕ) :
    (parkPendingPacket cfg frame p σ).packets f =
      σ.packets f ++ if f = frame then [p] else [] := by
  simp only [parkPendingPacket, show σ.frameDropped[frame]? = some false from hparks,
    if_neg (UInt64.not_le.mpr hroom)]
  exact packets_push

theorem park_discarded {frame : ℕ} (hparks : ¬ Parks σ frame) (p : PendingPacket α) :
    parkPendingPacket cfg frame p σ = σ := by
  unfold parkPendingPacket
  split
  · rfl
  · rfl
  · next hopen => exact absurd hopen hparks

/-! ## What a re-injection leaves -/

/-- The packets of a frame for which no slot was found. -/
def unadmitted (noSlotYet : ℕ → ℕ → Bool) (frame : ℕ) (ps : List (PendingPacket α)) :
    List (PendingPacket α) :=
  (ps.zipIdx.filter fun q => noSlotYet frame q.2).map Prod.fst

/-- With room for as many packets as come back nothing overflows. -/
theorem readmit_room (noSlotYet : ℕ → ℕ → Bool) (todo : List (ℕ × PendingPacket α × ℕ))
    (h : Accounted cfg σ) (hroom : σ.total + todo.length ≤ cfg.cap.toNat) :
    let σ' := todo.foldl
      (fun σ q => if noSlotYet q.1 q.2.2 then parkPendingPacket cfg q.1 q.2.1 σ else σ) σ
    σ'.frameDropped = σ.frameDropped ∧ ∀ f, σ'.packets f = σ.packets f ++
      if Parks σ f then (todo.filter fun q => q.1 = f && noSlotYet q.1 q.2.2).map fun q => q.2.1
      else [] := by
  induction todo generalizing σ with
  | nil => exact ⟨rfl, fun f => by simp⟩
  | cons q todo ih =>
    obtain ⟨frame, p, i⟩ := q
    rw [List.length_cons] at hroom
    simp only [List.foldl_cons, List.filter_cons]
    by_cases hback : noSlotYet frame i = true
    · by_cases hparks : Parks σ frame
      · have hlt : σ.pendingCount < cfg.cap := by
          rw [UInt64.lt_iff_toNat_lt, h.count]
          omega
        have hpush : parkPendingPacket cfg frame p σ = σ.push frame p := by
          simp only [parkPendingPacket, show σ.frameDropped[frame]? = some false from hparks,
            if_neg (UInt64.not_le.mpr hlt)]
        have hpushed : Accounted cfg (σ.push frame p) := h.push hlt
        obtain ⟨hdropped, hpackets⟩ := ih hpushed (by rw [total_push]; omega)
        rw [if_pos hback, hpush]
        refine ⟨hdropped, fun f => ?_⟩
        rw [hpackets f, packets_push, List.append_assoc]
        refine congrArg _ ?_
        have hsame : Parks (σ.push frame p) f ↔ Parks σ f := Iff.rfl
        simp only [hsame]
        by_cases hf : f = frame
        · subst hf
          simp [hparks, hback]
        · have hne : ¬ frame = f := fun heq => hf heq.symm
          simp [hf, hne]
      · obtain ⟨hdropped, hpackets⟩ := ih h (by omega)
        rw [if_pos hback, park_discarded hparks]
        refine ⟨hdropped, fun f => ?_⟩
        rw [hpackets f]
        refine congrArg _ ?_
        by_cases hf : frame = f
        · subst hf
          rw [if_neg hparks, if_neg hparks]
        · simp [hf]
    · obtain ⟨hdropped, hpackets⟩ := ih h (by omega)
      rw [if_neg hback]
      refine ⟨hdropped, fun f => ?_⟩
      rw [hpackets f]
      simp [hback]

/-- Of the frames that were taken out each has its own packets back. -/
theorem returned_of_map (noSlotYet : ℕ → ℕ → Bool) {frames : List ℕ} (hnodup : frames.Nodup)
    (f : ℕ) :
    ((placed (frames.map fun g => (g, σ.packets g))).filter fun q =>
        q.1 = f && noSlotYet q.1 q.2.2).map (fun q => q.2.1) =
      if f ∈ frames then unadmitted noSlotYet f (σ.packets f) else [] := by
  induction frames with
  | nil => rfl
  | cons frame frames ih =>
    obtain ⟨hnotin, hnodup⟩ := List.nodup_cons.mp hnodup
    rw [List.map_cons, placed_cons, List.filter_append, List.map_append, ih hnodup,
      List.filter_map, List.map_map]
    by_cases hf : f = frame
    · subst hf
      rw [if_neg hnotin, if_pos List.mem_cons_self, List.append_nil, unadmitted]
      simp [Function.comp_def]
    · have hne : ¬ frame = f := fun heq => hf heq.symm
      simp [Function.comp_def, hf, hne]

/-- After a re-injection the frames ahead of the window have the packets they had, and those within it
the packets that found no slot. No frame is dropped. -/
theorem reinjectPendingFrames_spec (h : Accounted cfg σ) (noSlotYet : ℕ → ℕ → Bool) :
    ∃ σ', reinjectPendingFrames cfg noSlotYet σ = some σ' ∧ σ'.frameDropped = σ.frameDropped ∧
      ∀ f, σ'.packets f =
        if f < windowEnd cfg σ then
          if Parks σ f then unadmitted noSlotYet f (σ.packets f) else []
        else σ.packets f := by
  obtain ⟨ready, σ', htake, haccounted, htakes⟩ := takeReady_eq_some h
  have hroom : σ'.total + (placed ready).length ≤ cfg.cap.toNat := by
    rw [htakes.total, ← h.count]
    exact UInt64.le_iff_toNat_le.mp h.bound
  obtain ⟨hdropped, hpackets⟩ := readmit_room noSlotYet (placed ready) haccounted hroom
  refine ⟨ readmit cfg noSlotYet ready σ', ?_, hdropped.trans htakes.frameDropped, fun f => ?_⟩
  · rw [reinjectPendingFrames, htake]
    rfl
  · have hparks : Parks σ' f ↔ Parks σ f := by rw [Parks, Parks, htakes.frameDropped]
    have hback := returned_of_map (σ := σ) noSlotYet
      (OrderedMap.keysBelow_nodup σ.pendingFrames (windowEnd cfg σ)) f
    rw [← htakes.ready_eq] at hback
    rw [ readmit, hpackets f, htakes.left_below f, hback]
    simp only [hparks]
    by_cases hlt : f < windowEnd cfg σ
    · rw [if_pos hlt, if_pos hlt, List.nil_append]
      by_cases hin : f ∈ σ.pendingFrames.keysBelow (windowEnd cfg σ)
      · rw [if_pos hin]
      · rw [if_neg hin, packets_of_not_mem_keysBelow hlt hin]
        rfl
    · rw [if_neg hlt, if_neg hlt, if_neg fun hin => hlt (OrderedMap.mem_keysBelow.mp hin).1,
        ite_self, List.append_nil]

/-- In every state between critical sections `pending_count` is the number of parked packets, at most
`frame_packets * slots`. A packet that overflows the buffer drops the furthest frame alone; a packet
that does not is added, unless its frame is dropped already. A re-injection takes out the frames within
the window and no others, and parks again the packets that found no slot; nothing else is lost by it. -/
theorem parked_packets_accounted {tracked : ℕ} (h : Parked cfg tracked σ) :
    (σ.pendingCount.toNat = σ.total ∧ σ.total ≤ cfg.framePackets.toNat * cfg.slots.toNat) ∧
      (∀ frame p, Parks σ frame → cfg.cap ≤ σ.pendingCount → ∃ victim, Furthest σ frame victim ∧
        DropsOnly σ (parkPendingPacket cfg frame p σ) frame p victim) ∧
      (∀ frame p, Parks σ frame → σ.pendingCount < cfg.cap → ∀ f,
        (parkPendingPacket cfg frame p σ).packets f =
          σ.packets f ++ if f = frame then [p] else []) ∧
      (∀ frame p, ¬ Parks σ frame → parkPendingPacket cfg frame p σ = σ) ∧
      (∃ ready σ', takeReady cfg σ = some (ready, σ') ∧ ∀ f,
        takenOf ready f = (if f < windowEnd cfg σ then σ.packets f else []) ∧
          σ'.packets f = if f < windowEnd cfg σ then [] else σ.packets f) ∧
      ∀ noSlotYet, ∃ σ', reinjectPendingFrames cfg noSlotYet σ = some σ' ∧
        Parked cfg tracked σ' ∧ σ'.frameDropped = σ.frameDropped ∧ ∀ f, σ'.packets f =
          if f < windowEnd cfg σ then
            if Parks σ f then unadmitted noSlotYet f (σ.packets f) else []
          else σ.packets f := by
  have haccounted := h.accounted
  refine ⟨⟨haccounted.count, ?_⟩, fun frame p hparks hfull => ?_, fun frame p hparks hroom f => ?_,
    fun frame p hparks => park_discarded hparks p, ?_, fun noSlotYet => ?_⟩
  · rw [← haccounted.count]
    refine (UInt64.le_iff_toNat_le.mp haccounted.bound).trans ?_
    rw [ParkConfig.cap, UInt64.toNat_mul]
    exact Nat.mod_le _ _
  · exact ⟨_, victimOf_furthest frame σ, park_overflow hparks hfull p⟩
  · exact park_room hparks hroom p f
  · obtain ⟨ready, σ', htake, -, htakes⟩ := takeReady_eq_some haccounted
    exact ⟨ready, σ', htake, fun f => ⟨htakes.takenOf_below f, htakes.left_below f⟩⟩
  · obtain ⟨σ', hreinject, hdropped, hpackets⟩ := reinjectPendingFrames_spec haccounted noSlotYet
    refine ⟨σ', hreinject, ?_, hdropped, hpackets⟩
    obtain ⟨ready, taken, htake, -⟩ := takeReady_eq_some haccounted
    have heq : readmit cfg noSlotYet ready taken = σ' := by
      rw [reinjectPendingFrames, htake] at hreinject
      exact Option.some.inj hreinject
    exact heq ▸ Parked.readmitted noSlotYet ready (Parked.take h htake)

/-- With room for one packet, that of frame 2 gives way to that of frame 1. -/
theorem parked_packets_accounted_second :
    (parkPendingPacket ⟨1, 1⟩ 2 (⟨7, 0, 0⟩ : PendingPacket ℕ) (.initial 3)).total = 1 ∧
      ∃ victim, DropsOnly (parkPendingPacket ⟨1, 1⟩ 2 ⟨7, 0, 0⟩ (.initial 3))
        (parkPendingPacket ⟨1, 1⟩ 1 ⟨8, 0, 0⟩
          (parkPendingPacket ⟨1, 1⟩ 2 (⟨7, 0, 0⟩ : PendingPacket ℕ) (.initial 3))) 1 ⟨8, 0, 0⟩
        victim := by
  have h : Parked ⟨1, 1⟩ 3
      (parkPendingPacket ⟨1, 1⟩ 2 (⟨7, 0, 0⟩ : PendingPacket ℕ) (.initial 3)) :=
    .park 2 _ .start
  obtain ⟨⟨hcount, -⟩, hoverflow, -⟩ := parked_packets_accounted h
  refine ⟨?_, ?_⟩
  · rw [← hcount]
    decide +kernel
  · obtain ⟨victim, -, hdrops⟩ := hoverflow 1 ⟨8, 0, 0⟩ rfl (by decide +kernel)
    exact ⟨victim, hdrops⟩

end Tomii.Slots
