import Tomii.Scheduler.JobRuns
import Tomii.Foundations.SoloRuns
import Mathlib.Data.List.Range

/-! # Which job a worker takes, and which shard gets one

What one thread does while no other interferes. A worker takes the head of the most urgent channel
that it sees, in an order of its own; a node task goes to a shard with the least to do. -/
namespace Tomii.Scheduler
set_option autoImplicit false
set_option maxHeartbeats 250000

variable {groups : ℕ} {α : Type} {cfg : Config groups} {run : ℕ → Job α → Outcome α} {choice : ℕ}
  {s s' : Shared groups α} {c : Channel groups} {g own : Fin groups} {cs : List (Channel groups)}

/-! ## The channels that a worker sees -/

/-- Those of its own group, the global ones if it may steal from them, and those of all shards. -/
def Config.Sees (cfg : Config groups) (g : Fin groups) (c : Channel groups) : Prop :=
  c.1 = some g ∨ (c.1 = none ∧ cfg.allowGlobalSteal g = true) ∨
    (cfg.sharded = true ∧ ∃ h, c.1 = some h)

def Priority.urgency : Priority → ℕ
  | .high => 0
  | .normal => 1
  | .low => 2

/-- How many shards a thief looks at before this one. -/
def stealDistance (own g : Fin groups) : ℕ := (g + groups - (own + 1)) % groups

/-- The place of a channel in the order of a worker. Low global jobs come after the worker's own, and
other shards after both. -/
def rank (own : Fin groups) : Channel groups → ℕ
  | (none, .high) => 2
  | (none, .normal) => 3
  | (none, .low) => 5
  | (some g, p) =>
    if g = own then
      match p with
      | .high => 0
      | .normal => 1
      | .low => 4
    else 6 + 3 * stealDistance own g + p.urgency

theorem rank_own (p : Priority) : rank own (some own, p) < 6 := by
  cases p <;> simp [rank]

theorem rank_other (hne : g ≠ own) (p : Priority) :
    rank own (some g, p) = 6 + 3 * stealDistance own g + p.urgency := if_neg hne

/-- The channels in the order of the scan. -/
def scanOrder (cfg : Config groups) (g : Fin groups) : List (Channel groups) :=
  recvOrder cfg g ++ if cfg.sharded = true then stealOrder g else []

theorem mod_of_shift {n a k : ℕ} (ha : a < n) (hk : k < n) :
    ((a + 1 + k) % n + n - (a + 1)) % n = k := by
  by_cases hlt : a + 1 + k < n
  · rw [Nat.mod_eq_of_lt hlt, show a + 1 + k + n - (a + 1) = k + n by omega, Nat.add_mod_right,
      Nat.mod_eq_of_lt hk]
  · rw [Nat.mod_eq_sub_mod (Nat.le_of_not_lt hlt), Nat.mod_eq_of_lt (by omega : a + 1 + k - n < n),
      show a + 1 + k - n + n - (a + 1) = k by omega, Nat.mod_eq_of_lt hk]

theorem stealDistance_shardAt {k : ℕ} (hk : k < groups) :
    stealDistance own (shardAt own.pos (own + 1 + k)) = k := mod_of_shift own.isLt hk

theorem shardAt_stealDistance (own g : Fin groups) :
    shardAt own.pos (own + 1 + stealDistance own g) = g := by
  apply Fin.ext
  show (own + 1 + (g + groups - (own + 1)) % groups) % groups = g
  rw [Nat.add_mod_mod, show (own : ℕ) + 1 + (g + groups - (own + 1)) = g + groups by omega,
    Nat.add_mod_right, Nat.mod_eq_of_lt g.isLt]

theorem mem_stealOrder : c ∈ stealOrder own ↔ ∃ g, g ≠ own ∧ c.1 = some g := by
  obtain ⟨cg, p⟩ := c
  simp only [stealOrder, List.mem_flatMap, List.mem_filter, List.mem_map, List.mem_range,
    decide_eq_true_eq]
  constructor
  · rintro ⟨g, ⟨-, hne⟩, hmem⟩
    refine ⟨g, hne, ?_⟩
    simp only [channelsOf, List.mem_cons, List.not_mem_nil, or_false, Prod.mk.injEq] at hmem
    rcases hmem with ⟨rfl, -⟩ | ⟨rfl, -⟩ | ⟨rfl, -⟩ <;> rfl
  · rintro ⟨g, hne, rfl⟩
    refine ⟨g, ⟨⟨stealDistance own g, Nat.mod_lt _ own.pos, shardAt_stealDistance own g⟩, hne⟩, ?_⟩
    cases p <;> simp [channelsOf]

theorem mem_recvOrder : c ∈ recvOrder cfg g ↔
    c.1 = some g ∨ (c.1 = none ∧ cfg.allowGlobalSteal g = true) := by
  obtain ⟨cg, p⟩ := c
  cases hallow : cfg.allowGlobalSteal g with
  | true => cases p <;> simp [recvOrder, hallow]
  | false => cases p <;> simp [recvOrder, hallow]

/-- The scan goes through the channels that the worker sees. -/
theorem mem_scanOrder : c ∈ scanOrder cfg g ↔ cfg.Sees g c := by
  rw [scanOrder, List.mem_append, mem_recvOrder, Config.Sees, or_assoc]
  refine or_congr_right' fun hown => or_congr_right ?_
  cases hsharded : cfg.sharded with
  | false => simp
  | true =>
    rw [if_pos rfl, mem_stealOrder]
    constructor
    · rintro ⟨h, -, heq⟩
      exact ⟨rfl, h, heq⟩
    · rintro ⟨-, h, heq⟩
      refine ⟨h, ?_, heq⟩
      rintro rfl
      exact hown heq

theorem rank_of_mem_channelsOf (hne : g ≠ own) (hc : c ∈ channelsOf (some g)) :
    6 + 3 * stealDistance own g ≤ rank own c ∧ rank own c < 6 + 3 * (stealDistance own g + 1) := by
  simp only [channelsOf, List.mem_cons, List.not_mem_nil, or_false] at hc
  rcases hc with rfl | rfl | rfl
  all_goals
    rw [rank_other hne]
    simp only [Priority.urgency]
    omega

theorem stealOrder_sorted (own : Fin groups) :
    (stealOrder own).Pairwise fun c d => rank own c < rank own d := by
  refine List.pairwise_flatMap.mpr ⟨fun g hg => ?_, ?_⟩
  · have hne : g ≠ own := of_decide_eq_true (List.mem_filter.mp hg).2
    simp [channelsOf, rank_other hne, Priority.urgency]
  · refine List.pairwise_filter.mpr (List.pairwise_map.mpr ?_)
    refine List.pairwise_lt_range.imp_of_mem ?_
    intro j k hj hk hjk hjne hkne c hc d hd
    have hleft := (rank_of_mem_channelsOf (of_decide_eq_true hjne) hc).2
    have hright := (rank_of_mem_channelsOf (of_decide_eq_true hkne) hd).1
    rw [stealDistance_shardAt (List.mem_range.mp hj)] at hleft
    rw [stealDistance_shardAt (List.mem_range.mp hk)] at hright
    omega

theorem recvOrder_sorted (cfg : Config groups) (g : Fin groups) :
    (recvOrder cfg g).Pairwise fun c d => rank g c < rank g d := by
  cases hallow : cfg.allowGlobalSteal g with
  | true => simp [recvOrder, hallow, rank]
  | false => simp [recvOrder, hallow, rank]

theorem scanOrder_sorted (cfg : Config groups) (g : Fin groups) :
    (scanOrder cfg g).Pairwise fun c d => rank g c < rank g d := by
  refine List.pairwise_append.mpr ⟨recvOrder_sorted cfg g, ?_, fun c hc d hd => ?_⟩
  · split
    · exact stealOrder_sorted g
    · exact List.Pairwise.nil
  · have hhere : rank g c < 6 := by
      obtain ⟨cg, p⟩ := c
      rcases mem_recvOrder.mp hc with hown | ⟨hnone, -⟩
      · obtain rfl : cg = some g := hown
        exact rank_own p
      · obtain rfl : cg = none := hnone
        cases p <;> simp [rank]
    have hthere : 6 ≤ rank g d := by
      split at hd
      · obtain ⟨h, hne, heq⟩ := mem_stealOrder.mp hd
        obtain ⟨dg, p⟩ := d
        obtain rfl : dg = some h := heq
        rw [rank_other hne]
        omega
      · cases hd
    omega

/-! ## The scan -/

/-- No job, and all channels are empty, or the head of the first one that is not. -/
def TakesFirst (cs : List (Channel groups)) (s : Shared groups α) :
    Option (Job α) → Shared groups α → Prop
  | none, s' => s' = s ∧ ∀ c ∈ cs, s.queues c = []
  | some job, s' => ∃ before c after rest, cs = before ++ c :: after ∧
      (∀ d ∈ before, s.queues d = []) ∧ s.queues c = job :: rest ∧ s' = s.pop c job rest

theorem receive_of_nil (h : s.queues c = []) : s.receive c = (none, s) := by
  rw [Shared.receive, h]

theorem receive_of_cons {job : Job α} {rest : List (Job α)} (h : s.queues c = job :: rest) :
    s.receive c = (some job, s.pop c job rest) := by
  rw [Shared.receive, h]

theorem firstOf_takes (cs : List (Channel groups)) :
    (firstOf cs : Thread groups α _).Ends (perform run choice) (TakesFirst cs s) s := by
  induction cs with
  | nil => exact ⟨rfl, fun c hc => absurd hc List.not_mem_nil⟩
  | cons c cs ih =>
    refine Prog.ends_call_bind.mpr ?_
    simp only [perform]
    cases hqueue : s.queues c with
    | nil =>
      rw [receive_of_nil hqueue]
      refine ih.mono fun r s' htakes => ?_
      cases r with
      | none =>
        refine ⟨htakes.1, fun d hd => ?_⟩
        rcases List.mem_cons.mp hd with rfl | hd
        · exact hqueue
        · exact htakes.2 d hd
      | some job =>
        obtain ⟨before, d, after, rest, rfl, hbefore, hd, hs⟩ := htakes
        refine ⟨c :: before, d, after, rest, rfl, fun e he => ?_, hd, hs⟩
        rcases List.mem_cons.mp he with rfl | he
        · exact hqueue
        · exact hbefore e he
    | cons job rest =>
      rw [receive_of_cons hqueue]
      exact ⟨[], c, cs, rest, rfl, fun d hd => absurd hd List.not_mem_nil, hqueue, rfl⟩

theorem TakesFirst.append {ds : List (Channel groups)} {r : Option (Job α)}
    (hcs : ∀ c ∈ cs, s.queues c = []) (h : TakesFirst ds s r s') : TakesFirst (cs ++ ds) s r s' := by
  cases r with
  | none => exact ⟨h.1, fun c hc => (List.mem_append.mp hc).elim (hcs c) (h.2 c)⟩
  | some job =>
    obtain ⟨before, c, after, rest, rfl, hbefore, hc, hs⟩ := h
    exact ⟨cs ++ before, c, after, rest, (List.append_assoc ..).symm,
      fun d hd => (List.mem_append.mp hd).elim (hcs d) (hbefore d), hc, hs⟩

theorem orElse_takes {ds : List (Channel groups)} {p q : Thread groups α (Option (Job α))}
    (hp : p.Ends (perform run choice) (TakesFirst cs s) s)
    (hq : (∀ c ∈ cs, s.queues c = []) → q.Ends (perform run choice) (TakesFirst ds s) s) :
    (orElse p q).Ends (perform run choice) (TakesFirst (cs ++ ds) s) s := by
  refine hp.bind fun r s1 htakes => ?_
  cases r with
  | none =>
    obtain ⟨rfl, hempty⟩ := htakes
    exact (hq hempty).mono fun r s' h => h.append hempty
  | some job =>
    obtain ⟨before, c, after, rest, rfl, hbefore, hc, hs⟩ := htakes
    exact ⟨before, c, after ++ ds, rest, by rw [List.append_assoc, List.cons_append], hbefore, hc, hs⟩

theorem scan_takes (g : Fin groups) :
    (scan cfg g).Ends (perform run choice) (TakesFirst (scanOrder cfg g) s) s := by
  refine orElse_takes (firstOf_takes _) fun _ => ?_
  split
  · exact firstOf_takes _
  · exact ⟨rfl, fun c hc => absurd hc List.not_mem_nil⟩

/-- Where the scan finds nothing, it finds nothing again. -/
theorem spin_empty (hempty : ∀ c ∈ scanOrder cfg g, s.queues c = []) (n : ℕ) :
    (spin cfg g n).Ends (perform run choice) (TakesFirst [] s) s := by
  induction n with
  | zero => exact ⟨rfl, fun c hc => absurd hc List.not_mem_nil⟩
  | succ n ih =>
    refine (scan_takes g).bind fun r s1 htakes => ?_
    cases r with
    | none =>
      obtain ⟨rfl, -⟩ := htakes
      exact ih
    | some job =>
      obtain ⟨before, c, after, rest, hcs, -, hc, -⟩ := htakes
      rw [hempty c (hcs ▸ List.mem_append_right _ List.mem_cons_self)] at hc
      cases hc

theorem select_empty (hempty : ∀ c ∈ cs, s.queues c = []) :
    (atomic (.select cs) : Thread groups α _).Ends (perform run choice) (TakesFirst [] s) s := by
  refine Prog.ends_call.mpr ?_
  simp only [perform]
  cases hc : cs[choice]? with
  | none => exact ⟨rfl, fun c hc => absurd hc List.not_mem_nil⟩
  | some c =>
    simp only [receive_of_nil (hempty c (List.mem_of_getElem? hc))]
    exact ⟨rfl, fun c hc => absurd hc List.not_mem_nil⟩

theorem watched_subset (hc : c ∈ watched cfg g) : c ∈ scanOrder cfg g := by
  refine mem_scanOrder.mpr ?_
  simp only [watched, channelsOf, List.mem_append] at hc
  rcases hc with hc | hc
  · refine .inl ?_
    simp only [List.mem_cons, List.not_mem_nil, or_false] at hc
    rcases hc with rfl | rfl | rfl <;> rfl
  · refine .inr (.inl ?_)
    split at hc
    · next hallow =>
      simp only [List.mem_cons, List.not_mem_nil, or_false] at hc
      rcases hc with rfl | rfl | rfl <;> exact ⟨rfl, hallow⟩
    · cases hc

theorem nextTask_takes (g : Fin groups) :
    (nextTask cfg g).Ends (perform run choice) (TakesFirst (scanOrder cfg g) s) s := by
  have h : (nextTask cfg g).Ends (perform run choice) (TakesFirst (scanOrder cfg g ++ ([] ++ [])) s) s :=
    orElse_takes (scan_takes g) fun hempty => orElse_takes (spin_empty hempty _) fun _ =>
      select_empty fun c hc => hempty c (watched_subset hc)
  rwa [List.append_nil, List.append_nil] at h

/-- A worker finds a job if and only if a channel that it sees has one. It is the head of that channel,
and every channel before it in the worker's order is empty. -/
theorem next_task_most_urgent (cfg : Config groups) (run : ℕ → Job α → Outcome α) (choice : ℕ)
    (g : Fin groups) (s : Shared groups α) :
    (nextTask cfg g).Ends (perform run choice) (fun r s' =>
      match r with
      | none => s' = s ∧ ∀ c, cfg.Sees g c → s.queues c = []
      | some job => ∃ c rest, cfg.Sees g c ∧ s.queues c = job :: rest ∧ s' = s.pop c job rest ∧
          ∀ d, cfg.Sees g d → rank g d < rank g c → s.queues d = []) s := by
  refine (nextTask_takes g).mono fun r s' htakes => ?_
  cases r with
  | none => exact ⟨htakes.1, fun c hc => htakes.2 c (mem_scanOrder.mpr hc)⟩
  | some job =>
    obtain ⟨before, c, after, rest, hcs, hbefore, hc, hs⟩ := htakes
    have hmem : c ∈ scanOrder cfg g := hcs ▸ List.mem_append_right _ List.mem_cons_self
    refine ⟨c, rest, mem_scanOrder.mp hmem, hc, hs, fun d hd hlt => ?_⟩
    have hin := mem_scanOrder.mpr hd
    have hsorted := scanOrder_sorted cfg g
    rw [hcs] at hin hsorted
    rcases List.mem_append.mp hin with hin | hin
    · exact hbefore d hin
    · rcases List.mem_cons.mp hin with rfl | hin
      · exact absurd hlt (Nat.lt_irrefl _)
      · have hgt := List.rel_of_pairwise_cons (List.pairwise_append.mp hsorted).2.1 hin
        exact absurd hlt (Nat.lt_asymm hgt)

/-! ## A worker alone -/

/-- Iterations of `worker_loop`. -/
def iterations (cfg : Config groups) (g : Fin groups) : ℕ → Thread groups α Unit
  | 0 => pure ()
  | n + 1 => do
    workerIteration cfg g
    iterations cfg g n

/-- The state once a job that was taken has run, where it spawned nothing. -/
def Shared.ran (s : Shared groups α) (number : ℕ) : Shared groups α :=
  { s with
    started := number :: s.started
    finished := number :: s.finished
    pendingTasks := s.pendingTasks - 1
    totalCompleted := s.totalCompleted + 1 }

theorem runBody_ends (hquiet : ∀ choice job, run choice job = ⟨[], false⟩) (job : Job α) :
    (runBody cfg job).Ends (perform run choice) (fun _ s' => s' = { s with
      started := job.number :: s.started
      finished := job.number :: s.finished }) s := by
  refine Prog.ends_call_bind.mpr ?_
  simp only [perform, hquiet]
  exact rfl

theorem executeJob_ends (hquiet : ∀ choice job, run choice job = ⟨[], false⟩)
    (hserved : s.nodeExec = true) (job : Job α) :
    (executeJob cfg job).Ends (perform run choice) (fun _ s' => s' = s.ran job.number) s := by
  have hbody : (do runBody cfg job; countCompleted : Thread groups α Unit).Ends (perform run choice)
      (fun _ s' => s' = s.ran job.number) s := by
    refine (runBody_ends hquiet job).bind ?_
    rintro - s1 rfl
    exact rfl
  unfold executeJob
  cases job.kind with
  | boxed => exact hbody
  | node =>
    refine Prog.ends_call_bind.mpr ?_
    simp only [perform, hserved]
    exact hbody

theorem runJob_ends (hquiet : ∀ choice job, run choice job = ⟨[], false⟩)
    (hserved : s.nodeExec = true) (job : Job α) :
    (runJob cfg g job).Ends (perform run choice) (fun _ s' => s' = s.ran job.number) s := by
  unfold runJob
  by_cases hsharded : cfg.sharded = true
  · rw [if_pos hsharded]
    refine Prog.ends_call_bind.mpr (Prog.Ends.bind (executeJob_ends hquiet ?_ job) ?_)
    · exact hserved
    rintro - s1 rfl
    refine Prog.ends_call.mpr ?_
    simp only [perform, Shared.ran, Function.update_self, UInt64.add_sub_cancel,
      Function.update_idem, Function.update_eq_self]
  · rw [if_neg hsharded]
    exact executeJob_ends hquiet hserved job

/-- An iteration runs a job unless there is none. -/
theorem workerIteration_ends (hsharded : cfg.sharded = true)
    (hglobal : cfg.allowGlobalSteal g = true) (hquiet : ∀ choice job, run choice job = ⟨[], false⟩)
    (hserved : s.nodeExec = true) (hrunning : s.shutdown = false) :
    (workerIteration cfg g).Ends (perform run choice) (fun _ s' =>
      (s' = s ∧ ∀ c, s.queues c = []) ∨
        ∃ c job rest, s.queues c = job :: rest ∧ s' = (s.pop c job rest).ran job.number) s := by
  refine Prog.ends_call_bind.mpr ?_
  simp only [perform, hrunning]
  refine (next_task_most_urgent cfg run choice g s).bind fun r s1 htakes => ?_
  cases r with
  | none =>
    refine .inl ⟨htakes.1, fun c => htakes.2 c ?_⟩
    obtain ⟨cg, p⟩ := c
    cases cg with
    | none => exact .inr (.inl ⟨rfl, hglobal⟩)
    | some h => exact .inr (.inr ⟨hsharded, h, rfl⟩)
  | some job =>
    obtain ⟨c, rest, -, hqueue, rfl, -⟩ := htakes
    refine Prog.Ends.mono (runJob_ends hquiet ?_ job) fun _ s' hs => ?_
    · exact hserved
    · exact .inr ⟨c, job, rest, hqueue, hs⟩

/-- Where shards share their work, one worker alone runs all jobs that are queued, each once, in as
many iterations, and takes them off `pending_tasks`; no matter which shard they were sent to. -/
theorem worker_drains (hsharded : cfg.sharded = true) (hglobal : cfg.allowGlobalSteal g = true)
    (hquiet : ∀ choice job, run choice job = ⟨[], false⟩) (hserved : s.nodeExec = true)
    (hrunning : s.shutdown = false) {n : ℕ} (hn : s.queued.card ≤ n) :
    (iterations cfg g n).Ends (perform run choice) (fun _ s' =>
      (∀ c, s'.queues c = []) ∧ (s'.finished : Multiset ℕ) = s.queued + s.finished ∧
        s'.pendingTasks = s.pendingTasks - UInt64.ofNat s.queued.card) s := by
  induction n generalizing s with
  | zero =>
    have hnone : s.queued = 0 := Multiset.card_eq_zero.mp (Nat.le_zero.mp hn)
    refine ⟨Shared.eq_nil_of_queued hnone, by rw [hnone, zero_add], ?_⟩
    rw [hnone]
    exact (UInt64.sub_zero _).symm
  | succ n ih =>
    refine (workerIteration_ends hsharded hglobal hquiet hserved hrunning).bind fun _ s1 hstep => ?_
    rcases hstep with ⟨rfl, hempty⟩ | ⟨c, job, rest, hqueue, rfl⟩
    · have hnone : s1.queued = 0 := Finset.sum_eq_zero fun c _ => by rw [hempty c]; rfl
      exact ih hserved hrunning (by rw [hnone]; exact Nat.zero_le n)
    · have hpop := Shared.queued_pop hqueue
      have hcard := congrArg Multiset.card hpop
      rw [Multiset.card_add, Multiset.card_singleton] at hcard
      have hleft : ((s.pop c job rest).ran job.number).queued.card ≤ n := by
        show (s.pop c job rest).queued.card ≤ n
        omega
      refine (ih (s := (s.pop c job rest).ran job.number) hserved hrunning hleft).mono fun _ s' hs => ?_
      obtain ⟨hempty, hfinished, hpending⟩ := hs
      refine ⟨hempty, ?_, ?_⟩
      · rw [hfinished, hpop]
        show (s.pop c job rest).queued + ((job.number :: s.finished : List ℕ) : Multiset ℕ) = _
        rw [← Multiset.cons_coe, ← Multiset.singleton_add, add_assoc]
      · rw [hpending, hcard, UInt64.ofNat_add]
        show s.pendingTasks - 1 - UInt64.ofNat (s.pop c job rest).queued.card = _
        rw [UInt64.ofNat_one]
        grind

/-- Two shards: one global job, and one that was sent to the other shard. -/
def twoShards : Config 2 := ⟨true, fun _ => true, 1, fun _ => Nat.zero_lt_two⟩

def twoQueued : Shared 2 ℕ :=
  { ((Shared.fresh true).send (some 1, .low) ⟨0, 0, .node, 5⟩).send (none, .normal) ⟨1, 1, .boxed, 6⟩
    with spawned := 2, totalSpawned := 2, pendingTasks := 2 }

theorem worker_drains_twoQueued :
    (iterations twoShards 0 2).Ends (perform (fun _ _ => ⟨[], false⟩) 0) (fun _ s' =>
      (∀ c, s'.queues c = []) ∧ (s'.finished : Multiset ℕ) = twoQueued.queued + twoQueued.finished ∧
        s'.pendingTasks = twoQueued.pendingTasks - UInt64.ofNat twoQueued.queued.card) twoQueued :=
  @worker_drains 2 ℕ twoShards (fun _ _ => ⟨[], false⟩) 0 twoQueued 0 rfl rfl (fun _ _ => rfl) rfl rfl
    2 (by decide +kernel)

end Tomii.Scheduler
