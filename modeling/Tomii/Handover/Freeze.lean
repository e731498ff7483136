import Tomii.Handover.Succession

/-! # The freeze of the receivers

Receivers do not look at `freeze` while they poll their sockets. They stop within a sweep of it all the
same, so that the listener need not wait for its time to be over. -/
namespace Tomii.Handover
set_option autoImplicit false
set_option maxHeartbeats 250000

variable {D : Type} {cfg : ℕ → GenConfig} {fits : D → Bool} {g : Gen D} {n : Net D} {r : Receiver}
  {i j k : ℕ} {t : Turn D} {ts : List (Turn D)}

/-- How many turns a receiver has before it stops reading, once its process is frozen. -/
def ReceiverAt.turnsLeft : ReceiverAt → ℕ
  | .atCellShutdown => 5
  | .atCell => 4
  | .polling left => left.length + 4
  | .atShutdown => 3
  | .atFreeze => 2
  | .acknowledging => 1
  | .frozen => 0
  | .stopped => 0

def Turn.isReceiver (k i : ℕ) : Turn D → Bool
  | .receiver k' i' _ => decide (k' = k ∧ i' = i)
  | _ => false

/-- For a thread that there is not, it is none. -/
def Net.turnsLeft (n : Net D) (k i : ℕ) : ℕ :=
  (((n.gens k).receivers[i]?).map fun r => r.pc.turnsLeft).getD 0

/-- The process has sockets, and its receivers are to stop reading them. -/
structure Gen.Freezes (g : Gen D) : Prop where
  freeze : g.freeze = true
  cell : g.cell ≠ none

/-- Where a turn may take a receiver: nearer to the end if its process is frozen, and never beyond its
own sockets. -/
structure Advances (g : Gen D) (r : Receiver) (pc : ReceiverAt) : Prop where
  nearer : g.Freezes → pc.turnsLeft ≤ r.pc.turnsLeft - 1
  within : ∀ left, pc = .polling left →
    left = Gen.sweep r ∨ ∃ id, r.pc = .polling (id :: left)

theorem Advances.stopped (g : Gen D) (r : Receiver) : Advances g r .stopped :=
  ⟨fun _ => Nat.zero_le _, fun _ h => by cases h⟩

theorem receiverTurn_advances (hr : g.receivers[i]? = some r) :
    ∃ pc, Advances g r pc ∧
      (g.receiverTurn i r).receivers = g.receivers.set i { r with pc := pc } := by
  obtain ⟨socketRange, pc⟩ := r
  unfold Gen.receiverTurn
  cases pc with
  | atCell =>
    refine ⟨_, ⟨fun hf => ?_, fun left h => ?_⟩, rfl⟩
    · have hsome : g.cell.isSome = true := Option.isSome_iff_ne_none.mpr hf.cell
      simp only [if_pos hsome]
      exact Nat.le_refl 3
    · split at h <;> cases h
  | atCellShutdown =>
    refine ⟨_, ⟨fun hf => ?_, fun left h => ?_⟩, rfl⟩
    · simp only
      split
      · exact Nat.zero_le _
      · exact Nat.le_refl 4
    · split at h <;> cases h
  | atShutdown =>
    refine ⟨_, ⟨fun hf => ?_, fun left h => ?_⟩, rfl⟩
    · simp only
      split
      · exact Nat.zero_le _
      · exact Nat.le_refl 2
    · split at h <;> cases h
  | atFreeze =>
    refine ⟨_, ⟨fun hf => ?_, fun left h => ?_⟩, rfl⟩
    · simp only [if_pos hf.freeze]
      exact Nat.le_refl 1
    · split at h
      · cases h
      · obtain rfl := ReceiverAt.polling.inj h
        exact .inl rfl
  | polling left =>
    refine ⟨.atShutdown, ⟨fun hf => ?_, fun left h => by cases h⟩, rfl⟩
    show 3 ≤ left.length + 4 - 1
    omega
  | acknowledging => exact ⟨.frozen, ⟨fun hf => Nat.zero_le _, fun left h => by cases h⟩, rfl⟩
  | frozen =>
    refine ⟨_, ⟨fun hf => ?_, fun left h => ?_⟩, rfl⟩
    · simp only
      split <;> exact Nat.zero_le _
    · split at h <;> cases h
  | stopped =>
    refine ⟨.stopped, .stopped g _, ?_⟩
    obtain ⟨before, after, hl, hset⟩ := exists_set_eq hr
    exact hl.trans (hset _).symm

theorem receivers_setGen (k : ℕ) (g : Gen D) (j : ℕ) : ((n.setGen k g).gens j).receivers =
    if j = k then g.receivers else (n.gens j).receivers := by
  by_cases hj : j = k
  · subst hj
    simp only [Net.setGen, Function.update_self, if_true]
  · simp only [Net.setGen, Function.update_of_ne hj, if_neg hj]

theorem receivers_setGen_same (h : g.receivers = (n.gens k).receivers) (j : ℕ) :
    ((n.setGen k g).gens j).receivers = (n.gens j).receivers := by
  rw [receivers_setGen]
  split
  · next hj => rw [h, hj]
  · rfl

theorem receivers_mainTurn (n : Net D) (j : ℕ) (late : Bool) (i : ℕ) :
    ((n.mainTurn j late).gens i).receivers = (n.gens i).receivers := by
  obtain ⟨stream, connected, main, cell, -, heq⟩ := mainTurn_eq n j late
  rw [heq, receivers_setGen]
  split
  · next hi => rw [hi]
  · exact receivers_setGen_same (by rfl) i

/-- A turn either leaves all receivers where they are, or takes the one whose turn it is further. -/
theorem turn_receivers (fits : D → Bool) (n : Net D) (t : Turn D) :
    ((∀ j, ((n.turn fits t).gens j).receivers = (n.gens j).receivers) ∧
        ∀ k i, t.isReceiver k i = true → n.turnsLeft k i = 0) ∨
      ∃ k i poll r pc, t = .receiver k i poll ∧ (n.gens k).receivers[i]? = some r ∧
        Advances (n.gens k) r pc ∧ ∀ j, ((n.turn fits t).gens j).receivers =
          if j = k then (n.gens k).receivers.set i { r with pc := pc } else (n.gens j).receivers := by
  cases t with
  | arrive socket d => exact .inl ⟨fun _ => rfl, fun _ _ h => by cases h⟩
  | receiver k i poll =>
    simp only [Net.turn, Net.receiverTurn]
    have hleft : ∀ {m}, ((n.gens k).receivers[i]?.map fun r => r.pc.turnsLeft).getD 0 = m →
        ∀ k' i', (Turn.receiver k i poll : Turn D).isReceiver k' i' = true → n.turnsLeft k' i' = m := by
      intro m hm k' i' hmine
      obtain ⟨rfl, rfl⟩ := of_decide_eq_true hmine
      exact hm
    split
    · next hnone => exact .inl ⟨fun _ => rfl, hleft (by rw [hnone]; rfl)⟩
    · next r hr =>
      refine .inr ⟨k, i, poll, r, ?_⟩
      split
      · next id left hpc =>
        have hpoll : Advances (n.gens k) r (.polling left) := by
          refine ⟨fun _ => ?_, fun left' h => ?_⟩
          · rw [hpc]
            exact Nat.le_refl _
          · obtain rfl := ReceiverAt.polling.inj h
            exact .inr ⟨id, hpc⟩
        unfold Net.pollSocket
        dsimp only
        split
        · exact ⟨.stopped, rfl, hr, .stopped _ r, receivers_setGen k _⟩
        · exact ⟨.stopped, rfl, hr, .stopped _ r, receivers_setGen k _⟩
        · exact ⟨.polling left, rfl, hr, hpoll, receivers_setGen k _⟩
        · next socket room hsocket =>
          split
          · exact ⟨.polling left, rfl, hr, hpoll, receivers_setGen k _⟩
          · next d rest hqueue =>
            obtain ⟨forwarded, dropCounters, heq⟩ := forward_eq (n.gens k) fits id d room
            rw [heq]
            exact ⟨.polling left, rfl, hr, hpoll, receivers_setGen k _⟩
      · obtain ⟨pc, hadvances, hset⟩ := receiverTurn_advances hr
        refine ⟨pc, rfl, hr, hadvances, fun j => ?_⟩
        rw [receivers_setGen, hset]
  | listener k sent =>
    obtain ⟨freeze, handedOver, listener, stream, closed, heq⟩ := listenerTurn_eq (n.gens k) sent
    rw [Net.turn, heq]
    exact .inl ⟨receivers_setGen_same (by rfl), fun _ _ h => by cases h⟩
  | giveUp k =>
    obtain ⟨listener, heq⟩ := giveUp_eq (n.gens k)
    rw [Net.turn, heq]
    exact .inl ⟨receivers_setGen_same (by rfl), fun _ _ h => by cases h⟩
  | main k late =>
    refine .inl ⟨?_, fun _ _ h => by cases h⟩
    cases k with
    | zero => exact fun _ => rfl
    | succ j => exact receivers_mainTurn n j late
  | shutdown k => exact .inl ⟨receivers_setGen_same (by rfl), fun _ _ h => by cases h⟩

/-! ## Sockets and freeze stay -/

theorem Gen.Freezes.listenerTurn (h : g.Freezes) (sent : Bool) : (g.listenerTurn sent).Freezes := by
  unfold Gen.listenerTurn
  repeat' split
  all_goals first | exact h | exact ⟨h.freeze, h.cell⟩ | exact ⟨rfl, h.cell⟩

theorem Gen.Freezes.setGen (h : (n.gens j).Freezes) (hg : j = k → g.Freezes) :
    ((n.setGen k g).gens j).Freezes := by
  by_cases hj : j = k
  · subst hj
    simp only [Net.setGen, Function.update_self]
    exact hg rfl
  · simp only [Net.setGen, Function.update_of_ne hj]
    exact h

theorem Gen.Freezes.mainTurn (h : (n.gens k).Freezes) (j : ℕ) (late : Bool) :
    ((n.mainTurn j late).gens k).Freezes := by
  obtain ⟨stream, connected, main, cell, hcell, heq⟩ := mainTurn_eq n j late
  rw [heq]
  refine Gen.Freezes.setGen (h.setGen fun hk => ?_) fun hk => ?_
  · exact ⟨hk ▸ h.freeze, hk ▸ h.cell⟩
  · exact ⟨hk ▸ h.freeze, hcell (hk ▸ h.cell)⟩

theorem Gen.Freezes.turn (h : (n.gens k).Freezes) (fits : D → Bool) (t : Turn D) :
    ((n.turn fits t).gens k).Freezes := by
  cases t with
  | arrive socket d => exact h
  | receiver k' i poll =>
    simp only [Net.turn, Net.receiverTurn]
    split
    · exact h
    · next r hr =>
      split
      · next id left hpc =>
        unfold Net.pollSocket
        dsimp only
        split
        · exact h.setGen fun hk => ⟨hk ▸ h.freeze, hk ▸ h.cell⟩
        · exact h.setGen fun hk => ⟨hk ▸ h.freeze, hk ▸ h.cell⟩
        · exact h.setGen fun hk => ⟨hk ▸ h.freeze, hk ▸ h.cell⟩
        · next socket room hsocket =>
          split
          · exact h.setGen fun hk => ⟨hk ▸ h.freeze, hk ▸ h.cell⟩
          · next d rest hqueue =>
            obtain ⟨forwarded, dropCounters, heq⟩ := forward_eq (n.gens k') fits id d room
            rw [heq]
            exact Gen.Freezes.setGen h fun hk => ⟨hk ▸ h.freeze, hk ▸ h.cell⟩
      · obtain ⟨receivers, frozen, heq⟩ := receiverTurn_eq (n.gens k') i r
        rw [heq]
        exact h.setGen fun hk => ⟨hk ▸ h.freeze, hk ▸ h.cell⟩
  | listener k' sent => exact h.setGen fun hk => Gen.Freezes.listenerTurn (hk ▸ h) sent
  | giveUp k' =>
    obtain ⟨listener, heq⟩ := giveUp_eq (n.gens k')
    rw [Net.turn, heq]
    exact h.setGen fun hk => ⟨hk ▸ h.freeze, hk ▸ h.cell⟩
  | main k' late =>
    cases k' with
    | zero => exact h
    | succ j => exact h.mainTurn j late
  | shutdown k' => exact h.setGen fun hk => ⟨hk ▸ h.freeze, hk ▸ h.cell⟩

/-! ## Runs -/

theorem turnsLeft_set {receivers : List Receiver} (hr : receivers[i]? = some r) (pc : ReceiverAt)
    (i' : ℕ) : (((receivers.set i { r with pc := pc })[i']?).map fun r => r.pc.turnsLeft).getD 0 =
      if i' = i then pc.turnsLeft else ((receivers[i']?).map fun r => r.pc.turnsLeft).getD 0 := by
  by_cases hi : i' = i
  · subst hi
    obtain ⟨hlt, -⟩ := List.getElem?_eq_some_iff.mp hr
    rw [List.getElem?_set_self hlt, if_pos rfl]
    rfl
  · rw [List.getElem?_set_ne (Ne.symm hi), if_neg hi]

theorem turnsLeft_of_getElem? (hr : (n.gens k).receivers[i]? = some r) :
    n.turnsLeft k i = r.pc.turnsLeft := by
  rw [Net.turnsLeft, hr]
  rfl

/-- A turn of its own brings a receiver nearer to the end, and others do not take it away. -/
theorem turnsLeft_turn (h : (n.gens k).Freezes) (fits : D → Bool) (t : Turn D) (i : ℕ) :
    (n.turn fits t).turnsLeft k i ≤
      n.turnsLeft k i - if t.isReceiver k i = true then 1 else 0 := by
  rcases turn_receivers fits n t with ⟨hsame, hnone⟩ | ⟨k', i', poll, r, pc, rfl, hr, hadv, hset⟩
  · have heq : (n.turn fits t).turnsLeft k i = n.turnsLeft k i := by
      unfold Net.turnsLeft
      rw [hsame]
    rw [heq]
    split
    · next hmine =>
      rw [hnone k i hmine]
    · exact Nat.le_refl _
  · by_cases hmine : k = k' ∧ i = i'
    · obtain ⟨rfl, rfl⟩ := hmine
      have hmine : (Turn.receiver k i poll : Turn D).isReceiver k i = true := decide_eq_true ⟨rfl, rfl⟩
      rw [if_pos hmine, turnsLeft_of_getElem? hr, Net.turnsLeft, hset, if_pos rfl, turnsLeft_set hr,
        if_pos rfl]
      exact hadv.nearer h
    · have hother : ¬ (Turn.receiver k' i' poll : Turn D).isReceiver k i = true := fun heq =>
        hmine ⟨(of_decide_eq_true heq).1.symm, (of_decide_eq_true heq).2.symm⟩
      rw [if_neg hother, Net.turnsLeft, hset]
      by_cases hk : k = k'
      · subst hk
        rw [if_pos rfl, turnsLeft_set hr, if_neg fun hi => hmine ⟨rfl, hi⟩]
        exact Nat.le_refl _
      · rw [if_neg hk]
        exact Nat.le_refl _

theorem turnsLeft_run (h : (n.gens k).Freezes) (ts : List (Turn D)) (i : ℕ) :
    (n.run fits ts).turnsLeft k i ≤ n.turnsLeft k i - ts.countP (Turn.isReceiver k i) := by
  induction ts generalizing n with
  | nil => exact Nat.le_refl _
  | cons t ts ih =>
    have hrest := ih (h.turn fits t)
    have hturn := turnsLeft_turn h fits t i
    rw [List.countP_cons]
    refine hrest.trans ?_
    omega

/-- No receiver has more sockets before it than a sweep. -/
def SweepsWithin (n : Net D) : Prop :=
  ∀ k, ∀ r ∈ (n.gens k).receivers, ∀ left, r.pc = .polling left → left.length ≤ (Gen.sweep r).length

theorem SweepsWithin.turn (h : SweepsWithin n) (fits : D → Bool) (t : Turn D) :
    SweepsWithin (n.turn fits t) := by
  intro k r hr left hpc
  rcases turn_receivers fits n t with ⟨hsame, -⟩ | ⟨k', i, poll, r0, pc, rfl, hr0, hadv, hset⟩
  · exact h k r (hsame k ▸ hr) left hpc
  · rw [hset] at hr
    split at hr
    · rcases List.mem_or_eq_of_mem_set hr with hmem | rfl
      · exact h k' r hmem left hpc
      · rcases hadv.within left hpc with rfl | ⟨id, hbefore⟩
        · exact Nat.le_refl _
        · exact (Nat.le_succ _).trans (h k' r0 (List.mem_of_getElem? hr0) _ hbefore)
    · exact h k r hr left hpc

theorem sweepsWithin_start (cfg : ℕ → GenConfig) : SweepsWithin (Net.start cfg : Net D) := by
  intro k r hr left hpc
  have hspawned : ∃ socketRange, spawnReceiver socketRange = r := by
    cases k with
    | zero =>
      obtain ⟨socketRange, -, heq⟩ := List.mem_map.mp hr
      exact ⟨socketRange, heq⟩
    | succ k =>
      obtain ⟨socketRange, -, heq⟩ := List.mem_map.mp hr
      exact ⟨socketRange, heq⟩
  obtain ⟨socketRange, rfl⟩ := hspawned
  rcases spawnReceiver_pc socketRange with hpc' | hpc'
  · rw [hpc'] at hpc
    cases hpc
  · rw [hpc'] at hpc
    cases hpc

theorem Reached.sweepsWithin (h : Reached cfg fits n) : SweepsWithin n := by
  induction h with
  | refl => exact sweepsWithin_start cfg
  | tail _ hstep ih =>
    obtain ⟨t, -, rfl⟩ := hstep
    exact ih.turn fits t

theorem turnsLeft_le (h : ∀ left, r.pc = .polling left → left.length ≤ (Gen.sweep r).length) :
    r.pc.turnsLeft ≤ (Gen.sweep r).length + 5 := by
  cases hpc : r.pc with
  | polling left =>
    have hle := h left hpc
    simp only [ReceiverAt.turnsLeft]
    omega
  | _ =>
    simp only [ReceiverAt.turnsLeft]
    omega

theorem settled_of_turnsLeft {pc : ReceiverAt} (h : pc.turnsLeft = 0) : pc.Settled := by
  cases pc with
  | frozen | stopped => trivial
  | _ => cases h

theorem receivers_run_length (fits : D → Bool) (ts : List (Turn D)) (n : Net D) (k : ℕ) :
    ((n.run fits ts).gens k).receivers.length = (n.gens k).receivers.length := by
  induction ts generalizing n with
  | nil => rfl
  | cons t ts ih =>
    refine (ih (n.turn fits t)).trans ?_
    rcases turn_receivers fits n t with ⟨hsame, -⟩ | ⟨k', i, poll, r, pc, -, -, -, hset⟩
    · rw [hsame]
    · rw [hset]
      split
      · next hk => rw [List.length_set, hk]
      · rfl

/-- Once a process that has sockets is frozen, each of its receivers stops within a sweep and five
turns, whatever all others do; and if none of them has ended, the listener's wait is over then. -/
theorem receivers_stop_in_time (hcount : (cfg 0).numSockets < 2 ^ 32) (h : Reached cfg fits n)
    (hfreeze : (n.gens k).freeze = true) (hcell : (n.gens k).cell ≠ none) (hin : n.InTime fits ts)
    (hturns : ∀ i r, (n.gens k).receivers[i]? = some r →
      (Gen.sweep r).length + 5 ≤ ts.countP (Turn.isReceiver k i)) :
    ((n.run fits ts).gens k).Quiet ∧
      ((∀ r ∈ ((n.run fits ts).gens k).receivers, r.pc ≠ .stopped) →
        ((n.run fits ts).gens k).receivers.length ≤ ((n.run fits ts).gens k).frozen) := by
  have hsettled : ∀ r ∈ ((n.run fits ts).gens k).receivers, r.pc.Settled := by
    intro r hr
    obtain ⟨i, hi, hget⟩ := List.mem_iff_getElem.mp hr
    have hi0 : i < (n.gens k).receivers.length := receivers_run_length fits ts n k ▸ hi
    have hr0 : (n.gens k).receivers[i]? = some ((n.gens k).receivers[i]) :=
      List.getElem?_eq_getElem hi0
    have hbound := turnsLeft_le (h.sweepsWithin k _ (List.getElem_mem hi0))
    have hrun : (n.run fits ts).turnsLeft k i ≤ _ := turnsLeft_run ⟨hfreeze, hcell⟩ ts i
    rw [turnsLeft_of_getElem? hr0,
      turnsLeft_of_getElem? (List.getElem?_eq_some_iff.mpr ⟨hi, hget⟩)] at hrun
    have henough := hturns i _ hr0
    exact settled_of_turnsLeft (by omega)
  refine ⟨fun r hr => (hsettled r hr).quiet, fun hgoing => ?_⟩
  obtain ⟨r', -, hfollows⟩ := (h.run hin).follows hcount
  refine Nat.le_trans (Nat.le_of_eq ?_) (hfollows.inv.gens k).counted.le_frozen
  refine (List.countP_eq_length.mpr fun r hr => decide_eq_true ?_).symm
  have hmine := hsettled r hr
  cases hpc : r.pc with
  | frozen => rfl
  | stopped => exact absurd hpc (hgoing r hr)
  | _ =>
    rw [hpc] at hmine
    exact absurd hmine not_false

/-! ## A handover -/

/-- One socket and one receiver each. -/
def oneSocket (_ : ℕ) : GenConfig := ⟨1, 1⟩

/-- A datagram is read, then the second process connects, and the first one is frozen. -/
def upToFreeze : List (Turn ℕ) :=
  .arrive 0 10 :: List.replicate 4 (.receiver 0 0 (.recv true)) ++
    [.listener 0 true, .main 1 false, .listener 0 true, .listener 0 true]

def sixTurns : List (Turn ℕ) := List.replicate 6 (.receiver 0 0 (.recv true))

/-- The first process, frozen with a poll behind it. -/
def frozenMidSweep : Net ℕ := (Net.start oneSocket).run (fun _ => true) upToFreeze

theorem reached_frozenMidSweep : Reached oneSocket (fun _ => true) frozenMidSweep :=
  Reached.run .refl ⟨trivial, trivial, trivial, trivial, trivial, trivial, trivial, trivial, trivial,
    trivial⟩

theorem receivers_stop_in_time_oneSocket :
    ((frozenMidSweep.run (fun _ => true) sixTurns).gens 0).Quiet := by
  have hone : (frozenMidSweep.gens 0).receivers = [⟨⟨0, 1⟩, .polling []⟩] := rfl
  refine (@receivers_stop_in_time ℕ oneSocket (fun _ => true) frozenMidSweep 0 sixTurns (by decide)
    reached_frozenMidSweep rfl (Option.some_ne_none [0])
    ⟨trivial, trivial, trivial, trivial, trivial, trivial, trivial⟩ fun i r hr => ?_).1
  rw [hone] at hr
  cases i with
  | zero =>
    obtain rfl := Option.some.inj hr
    decide
  | succ i => cases hr

end Tomii.Handover
