import Tomii.Scheduler.JobAccounts
import Mathlib.Algebra.Order.BigOperators.Group.List
import Mathlib.Algebra.Order.Group.Nat

/-! # Every job is run once, and an idle scheduler has run them all

The programs keep to the discipline of `JobAccounts`, so its invariant holds in every interleaving. -/
namespace Tomii.Scheduler
set_option autoImplicit false
set_option maxHeartbeats 250000

variable {groups : ℕ} {α : Type} {cfg : Config groups} {installed : Bool} {s : Shared groups α}
  {l : Phase groups} {ls others : List (Phase groups)} {sp : Spawning} {hand : Hand}
  {busy : Option (Fin groups)} {job : Job α} {w : World (atomics groups α) (Shared groups α)}

/-! ## The steps together -/

theorem Inv.receive (h : Inv installed s (⟨sp, .empty, busy⟩ :: others)) (c : Channel groups) :
    Inv installed (s.receive c).2 (Phase.took ⟨sp, .empty, busy⟩ (s.receive c).1 :: others) := by
  unfold Shared.receive
  cases hqueue : s.queues c with
  | nil => exact h
  | cons job rest => exact h.pop hqueue

/-- An action that the phase permits, with the reply it may count on. -/
theorem Inv.step (run : ℕ → Job α → Outcome α) (choice : ℕ) (a : Act groups α)
    (h : Inv installed s (l :: others)) (hpermits : (jobDiscipline groups α installed).permits l a) :
    (jobDiscipline groups α installed).knows l a (perform run choice a s).1 ∧
      Inv installed (perform run choice a s).2
        ((jobDiscipline groups α installed).next l a (perform run choice a s).1 :: others) := by
  obtain ⟨sp, hand, busy⟩ := l
  cases a with
  | claim =>
    obtain rfl : sp = .free := hpermits
    exact ⟨h.totalSpawned, h.claim⟩
  | incPending =>
    obtain ⟨n, rfl⟩ : ∃ n, sp = .claimed n := hpermits
    exact ⟨trivial, h.incPending⟩
  | send c job =>
    obtain ⟨rfl, hid⟩ : sp = .counted job.number ∧ job.jobId = UInt64.ofNat job.number := hpermits
    exact ⟨trivial, h.send hid⟩
  | tryRecv c =>
    obtain rfl : hand = .empty := hpermits
    exact ⟨trivial, h.receive c⟩
  | select cs =>
    obtain rfl : hand = .empty := hpermits
    refine ⟨trivial, ?_⟩
    simp only [perform]
    cases hc : cs[choice]? with
    | none => exact h
    | some c => exact h.receive c
  | enter g =>
    obtain rfl : busy = none := hpermits
    exact ⟨trivial, h.enter g⟩
  | leave g =>
    obtain rfl : busy = some g := hpermits
    exact ⟨trivial, h.leave⟩
  | hasExec =>
    obtain ⟨n, rfl⟩ : ∃ n, hand = .held n := hpermits
    refine ⟨fun hin => (h.served hin).1, ?_⟩
    simp only [perform]
    cases s.nodeExec with
    | true => exact h
    | false => exact { h with }
  | start job =>
    obtain rfl : hand = .held job.number := hpermits
    exact ⟨trivial, h.start⟩
  | finish job =>
    obtain rfl : hand = .running job.number := hpermits
    exact ⟨trivial, h.finish⟩
  | drop job =>
    obtain ⟨rfl, hnot⟩ : hand = .unserved job.number ∧ installed = false := hpermits
    exact ⟨trivial, h.drop hnot⟩
  | decPending =>
    obtain rfl : hand = .owed := hpermits
    exact ⟨trivial, h.decPending⟩
  | incCompleted =>
    obtain rfl : hand = .uncompleted := hpermits
    exact ⟨trivial, h.incCompleted⟩
  | setExec => exact ⟨trivial, { h with served := fun hin => ⟨rfl, (h.served hin).2⟩ }⟩
  | fetchNextShard | setShutdown => exact ⟨trivial, { h with }⟩
  | loadPending | len | loadInFlight | loadShutdown => exact ⟨trivial, h⟩

/-! ## What the programs do to the phase of their thread -/

theorem obeys_atomic {a : Act groups α} {post : a.Reply → Phase groups → Prop}
    (hpermits : (jobDiscipline groups α installed).permits l a)
    (hpost : ∀ r, (jobDiscipline groups α installed).knows l a r →
      post r ((jobDiscipline groups α installed).next l a r)) :
    (atomic a).Obeys (jobDiscipline groups α installed) post l :=
  ⟨hpermits, hpost⟩

theorem obeys_act {β : Type} {a : Act groups α} {f : a.Reply → Thread groups α β}
    {post : β → Phase groups → Prop} (hpermits : (jobDiscipline groups α installed).permits l a)
    (hrest : ∀ r, (jobDiscipline groups α installed).knows l a r →
      (f r).Obeys (jobDiscipline groups α installed) post
        ((jobDiscipline groups α installed).next l a r)) :
    (atomic a >>= f).Obeys (jobDiscipline groups α installed) post l :=
  ⟨hpermits, hrest⟩

variable (installed) in
/-- A program that leaves its thread where it was. -/
def Passes {β : Type} (p : Thread groups α β) (l : Phase groups) : Prop :=
  p.Obeys (jobDiscipline groups α installed) (fun _ l' => l' = l) l

variable (installed) in
/-- A program that takes a job or none. -/
def Takes (p : Thread groups α (Option (Job α))) (l : Phase groups) : Prop :=
  p.Obeys (jobDiscipline groups α installed) (fun r l' => l' = l.took r) l

theorem passes_loadOf (g : Fin groups) : Passes installed (loadOf g : Thread groups α ℕ) l :=
  obeys_act trivial fun _ _ => obeys_act trivial fun _ _ => obeys_act trivial fun _ _ =>
    obeys_act trivial fun _ _ => rfl

theorem passes_leastLoaded (gs : List (Fin groups)) (best : Fin groups) (bestLoad : ℕ) :
    Passes installed (leastLoaded best bestLoad gs : Thread groups α _) l := by
  induction gs generalizing best bestLoad with
  | nil => rfl
  | cons g gs ih =>
    unfold leastLoaded
    by_cases hzero : bestLoad = 0
    · rw [if_pos hzero]
      rfl
    · rw [if_neg hzero]
      refine (passes_loadOf g).bind ?_
      rintro load l' rfl
      by_cases hlt : load < bestLoad
      · rw [if_pos hlt]
        exact ih g load
      · rw [if_neg hlt]
        exact ih best bestLoad

theorem passes_shardFor (hpos : 0 < groups) :
    Passes installed (shardFor hpos : Thread groups α _) l := by
  unfold shardFor
  by_cases hone : groups = 1
  · rw [if_pos hone]
    rfl
  · rw [if_neg hone]
    refine obeys_act trivial fun cursor _ => (passes_loadOf _).bind ?_
    rintro load l' rfl
    exact passes_leastLoaded _ _ load

/-- A spawn, wherever its job goes. -/
theorem passes_enqueue {kind : Kind} {priority : Priority} {body : α}
    {route : Thread groups α (Option (Fin groups))} (hroute : ∀ l, Passes installed route l) :
    Passes installed (enqueue kind priority body route) ⟨.free, hand, busy⟩ := by
  refine obeys_act rfl ?_
  rintro ⟨number, jobId⟩ hid
  refine obeys_act ⟨number, rfl⟩ fun _ _ => (hroute _).bind ?_
  rintro group l' rfl
  exact obeys_atomic ⟨rfl, hid⟩ fun _ _ => rfl

theorem passes_spawn (call : SpawnCall α) :
    Passes installed (call.program cfg) ⟨.free, hand, busy⟩ := by
  have hglobal : ∀ (priority : Priority) (body : α),
      Passes installed (spawnWithPriority priority body : Thread groups α Unit) ⟨.free, hand, busy⟩ :=
    fun _ _ => passes_enqueue fun _ => rfl
  cases call with
  | toGlobal priority body => exact hglobal priority body
  | toGroup group priority body =>
    show Passes installed (spawnToGroup group priority body) _
    unfold spawnToGroup
    split
    · exact passes_enqueue fun _ => rfl
    · exact hglobal priority body
  | node group priority body =>
    refine passes_enqueue fun l => ?_
    split
    · rfl
    · split
      · refine (passes_shardFor _).bind ?_
        rintro shard l' rfl
        rfl
      · rfl

theorem passes_spawnAll (calls : List (SpawnCall α)) :
    Passes installed (spawnAll cfg calls) ⟨.free, hand, busy⟩ := by
  induction calls with
  | nil => rfl
  | cons call calls ih =>
    refine (passes_spawn call).bind ?_
    rintro - l' rfl
    exact ih

theorem takes_firstOf (cs : List (Channel groups)) :
    Takes installed (firstOf cs : Thread groups α _) ⟨sp, .empty, busy⟩ := by
  induction cs with
  | nil => rfl
  | cons c cs ih =>
    refine obeys_act rfl fun r _ => ?_
    cases r with
    | none => exact ih
    | some job => rfl

theorem Takes.orElse {p q : Thread groups α (Option (Job α))}
    (hp : Takes installed p ⟨sp, .empty, busy⟩) (hq : Takes installed q ⟨sp, .empty, busy⟩) :
    Takes installed (orElse p q) ⟨sp, .empty, busy⟩ := by
  refine hp.bind ?_
  rintro r l' rfl
  cases r with
  | none => exact hq
  | some job => rfl

theorem takes_scan (g : Fin groups) :
    Takes installed (scan cfg g : Thread groups α _) ⟨sp, .empty, busy⟩ := by
  refine (takes_firstOf _).orElse ?_
  split
  · exact takes_firstOf _
  · rfl

theorem takes_spin (g : Fin groups) (n : ℕ) :
    Takes installed (spin cfg g n : Thread groups α _) ⟨sp, .empty, busy⟩ := by
  induction n with
  | zero => rfl
  | succ n ih => exact (takes_scan g).orElse ih

theorem takes_nextTask (g : Fin groups) :
    Takes installed (nextTask cfg g : Thread groups α _) ⟨sp, .empty, busy⟩ :=
  (takes_scan g).orElse ((takes_spin g _).orElse (obeys_atomic rfl fun _ _ => rfl))

theorem obeys_runBody (busy : Option (Fin groups)) :
    (runBody cfg job).Obeys (jobDiscipline groups α installed)
      (fun _ l' => l' = ⟨.free, .owed, busy⟩) ⟨.free, .held job.number, busy⟩ := by
  refine obeys_act rfl fun out _ => (passes_spawnAll out.spawns).bind ?_
  rintro - l' rfl
  by_cases hpanics : out.panics = true
  · rw [if_pos hpanics]
    exact ⟨job.number, rfl⟩
  · rw [if_neg hpanics]
    exact obeys_atomic rfl fun _ _ => rfl

theorem obeys_countCompleted (busy : Option (Fin groups)) :
    (countCompleted : Thread groups α Unit).Obeys (jobDiscipline groups α installed)
      (fun _ l' => l' = ⟨.free, .empty, busy⟩) ⟨.free, .owed, busy⟩ :=
  obeys_act rfl fun _ _ => obeys_atomic rfl fun _ _ => rfl

theorem obeys_executeJob (busy : Option (Fin groups)) :
    (executeJob cfg job).Obeys (jobDiscipline groups α installed)
      (fun _ l' => l' = ⟨.free, .empty, busy⟩) ⟨.free, .held job.number, busy⟩ := by
  unfold executeJob
  cases job.kind with
  | boxed =>
    refine (obeys_runBody busy).bind ?_
    rintro - l' rfl
    exact obeys_countCompleted busy
  | node =>
    refine obeys_act ⟨job.number, rfl⟩ fun installedNow hknown => ?_
    cases installedNow with
    | true =>
      refine (obeys_runBody busy).bind ?_
      rintro - l' rfl
      exact obeys_countCompleted busy
    | false =>
      have hnot : installed = false := Bool.eq_false_iff.mpr fun hin => (by cases hknown hin)
      exact obeys_act ⟨rfl, hnot⟩ fun _ _ => obeys_countCompleted busy

theorem obeys_runJob (g : Fin groups) :
    (runJob cfg g job).Obeys (jobDiscipline groups α installed)
      (fun _ l' => l' = .idle) ⟨.free, .held job.number, none⟩ := by
  unfold runJob
  by_cases hsharded : cfg.sharded = true
  · rw [if_pos hsharded]
    refine obeys_act rfl fun _ _ => (obeys_executeJob (some g)).bind ?_
    rintro - l' rfl
    exact obeys_atomic rfl fun _ _ => rfl
  · rw [if_neg hsharded]
    exact obeys_executeJob none

theorem obeys_errand (e : Errand groups α) :
    (e.program cfg).Obeys (jobDiscipline groups α installed) (fun _ l => l = .idle) .idle := by
  cases e with
  | work g =>
    refine obeys_act trivial fun stopped _ => ?_
    cases stopped with
    | true => rfl
    | false =>
      refine (takes_nextTask g).bind ?_
      rintro r l' rfl
      cases r with
      | none => rfl
      | some job => exact obeys_runJob g
  | spawn call => exact passes_spawn call
  | look => exact obeys_act trivial fun _ _ => rfl
  | setNodeExecutor => exact obeys_atomic trivial fun _ _ => rfl
  | shutdown => exact obeys_atomic trivial fun _ _ => rfl

/-! ## Runs -/

variable (cfg) in
theorem maintains (run : ℕ → Job α → Outcome α) (installed : Bool) :
    Machine.Maintains (schedulerMachine cfg run) (fun _ _ _ => True)
      (jobDiscipline groups α installed) .idle (· = .idle) (Inv installed) := by
  refine .of_front obeys_errand (fun h hp => h.perm hp) ?_ fun choice a h hpermits _ =>
    h.step run choice a hpermits
  rintro s others l rfl h
  exact h

/-- A new scheduler, with or without its node executor, and threads that have nothing to do. -/
def newWorld (groups : ℕ) (α : Type) (installed : Bool) (threads : ℕ) :
    World (atomics groups α) (Shared groups α) :=
  ⟨.fresh installed, List.replicate threads (.done ())⟩

theorem Inv.reached {run : ℕ → Job α → Outcome α} {threads : ℕ}
    (hrun : (schedulerMachine cfg run).Reaches (fun _ _ _ => True)
      (newWorld groups α installed threads) w) :
    ∃ ls, Inv installed w.shared ls ∧
      Machine.Follows (jobDiscipline groups α installed) (· = .idle) w.threads ls :=
  (maintains cfg run installed).reached hrun (Inv.fresh installed threads)
    (Machine.follows_idle (· = Phase.idle) rfl threads)

/-- Threads with nothing left to do are in the idle phase. -/
theorem idle_of_done {ps : List (Thread groups α Unit)}
    (hfol : Machine.Follows (jobDiscipline groups α installed) (· = .idle) ps ls)
    (hdone : ∀ p ∈ ps, p.isDone = true) : ∀ l ∈ ls, l = .idle := by
  intro l hl
  obtain ⟨p, hp, hobeys⟩ := hfol.thread hl
  rw [Prog.eq_done_of_isDone (hdone p hp)] at hobeys
  exact hobeys

theorem sum_of_idle {M : Type} [AddCommMonoid M] {f : Phase groups → M} (hidle : ∀ l ∈ ls, l = .idle)
    (hf : f .idle = 0) : (ls.map f).sum = 0 := by
  refine List.sum_eq_zero fun x hx => ?_
  obtain ⟨l, hl, rfl⟩ := List.mem_map.mp hx
  rw [hidle l hl, hf]

/-! ## Every job once -/

/-- No job is started twice, and none is in two of the places: the channels, the finished jobs and
the dropped ones. Channels are first in, first out. Once no thread is in the middle of anything,
every job is in one of these places. -/
structure HandledOnce (installed : Bool) (w : World (atomics groups α) (Shared groups α)) : Prop where
  started_once : w.shared.started.Nodup
  finished_started : ∀ n ∈ w.shared.finished, n ∈ w.shared.started
  apart : (w.shared.queued + w.shared.finished + w.shared.dropped).Nodup
  in_order : ∀ c, w.shared.sent c = w.shared.taken c ++ (w.shared.queues c).map Job.number
  numbered : ∀ c, ∀ job ∈ w.shared.queues c, job.jobId = UInt64.ofNat job.number
  served : installed = true → w.shared.dropped = []
  complete : (∀ p ∈ w.threads, p.isDone = true) → (List.range w.shared.spawned : Multiset ℕ) =
    w.shared.queued + w.shared.finished + w.shared.dropped

theorem Hand.started_le (hand : Hand) : hand.started ≤ hand.jobs := by
  cases hand with
  | running n => exact le_refl _
  | _ => exact Multiset.zero_le _

theorem Inv.queued_le (h : Inv installed s ls) :
    s.queued + s.finished + s.dropped ≤ (List.range s.spawned : Multiset ℕ) := by
  refine Multiset.le_iff_exists_add.mpr ⟨(ls.map fun l => l.spawning.jobs).sum +
    (ls.map fun l => l.hand.jobs).sum, ?_⟩
  rw [h.issued, h.handled]
  abel

theorem Inv.started_le (h : Inv installed s ls) :
    (s.started : Multiset ℕ) ≤ (List.range s.spawned : Multiset ℕ) := by
  have hhands : (ls.map fun l => l.hand.started).sum ≤ (ls.map fun l => l.hand.jobs).sum :=
    List.sum_le_sum fun l _ => l.hand.started_le
  rw [h.started]
  refine (add_le_add hhands (le_refl (s.finished : Multiset ℕ))).trans ?_
  refine Multiset.le_iff_exists_add.mpr ⟨(ls.map fun l => l.spawning.jobs).sum + s.dropped +
    s.queued, ?_⟩
  rw [h.issued, h.handled]
  abel

/-- In every run, jobs are handled once each and first in, first out. -/
theorem jobs_handled_once {run : ℕ → Job α → Outcome α} {threads : ℕ}
    (hrun : (schedulerMachine cfg run).Reaches (fun _ _ _ => True)
      (newWorld groups α installed threads) w) : HandledOnce installed w := by
  obtain ⟨ls, h, hfol⟩ := Inv.reached hrun
  have hrange : (List.range w.shared.spawned : Multiset ℕ).Nodup :=
    Multiset.coe_nodup.mpr List.nodup_range
  refine ⟨Multiset.coe_nodup.mp (Multiset.nodup_of_le h.started_le hrange), fun n hn => ?_,
    Multiset.nodup_of_le h.queued_le hrange, h.inOrder, h.numbered, fun hin => (h.served hin).2,
    fun hdone => ?_⟩
  · have hmem : n ∈ (w.shared.started : Multiset ℕ) := by
      rw [h.started]
      exact Multiset.mem_add.mpr (.inr hn)
    exact hmem
  · have hidle := idle_of_done hfol hdone
    rw [h.issued, h.handled, sum_of_idle hidle rfl, sum_of_idle hidle rfl]
    abel

/-! ## The counters -/

theorem Spawning.pending_le (sp : Spawning) : sp.pending ≤ sp.jobs.card := by
  cases sp with
  | counted n => exact le_refl 1
  | _ => exact Nat.zero_le _

theorem Hand.pending_le (hand : Hand) : hand.pending ≤ hand.jobs.card + hand.uncounted := by
  cases hand with
  | empty | uncompleted => exact Nat.zero_le _
  | _ => exact le_refl 1

theorem Hand.card_jobs_le (hand : Hand) : hand.jobs.card ≤ hand.pending := by
  cases hand with
  | held n | unserved n | running n => exact le_refl 1
  | _ => exact Nat.zero_le _

theorem card_sum (f : Phase groups → Multiset ℕ) (ls : List (Phase groups)) :
    (ls.map f).sum.card = (ls.map fun l => (f l).card).sum := by
  induction ls with
  | nil => rfl
  | cons l ls ih => rw [List.map_cons, List.sum_cons, Multiset.card_add, ih, List.map_cons, List.sum_cons]

theorem sum_pending_le (ls : List (Phase groups)) :
    (ls.map Phase.pending).sum ≤ (ls.map fun l => l.spawning.jobs.card).sum +
      (ls.map fun l => l.hand.jobs.card).sum + (ls.map fun l => l.hand.uncounted).sum := by
  induction ls with
  | nil => exact le_refl _
  | cons l ls ih =>
    have hspawning := l.spawning.pending_le
    have hhand := l.hand.pending_le
    simp only [List.map_cons, List.sum_cons, Phase.pending] at ih ⊢
    omega

/-- What `pending_tasks` counts is no more than the jobs there are. -/
theorem Inv.pending_le_spawned (h : Inv installed s ls) :
    (ls.map Phase.pending).sum + s.queued.card ≤ s.spawned := by
  obtain ⟨k, -, hcount⟩ := h.completed
  have hissued := congrArg Multiset.card h.issued
  have hhandled := congrArg Multiset.card h.handled
  simp only [Multiset.card_add, Multiset.coe_card, List.length_range, card_sum] at hissued hhandled
  have hle := sum_pending_le ls
  omega

/-- `wait_idle` returns only when it may: once `pending_tasks` is at zero, no channel holds a job,
and every job that was sent to one is finished, or was dropped for want of an executor. -/
theorem idle_means_finished {run : ℕ → Job α → Outcome α} {threads : ℕ}
    (hrun : (schedulerMachine cfg run).Reaches (fun _ _ _ => True)
      (newWorld groups α installed threads) w) (hspawned : w.shared.spawned < 2 ^ 64)
    (hzero : w.shared.pendingTasks = 0) (c : Channel groups) :
    w.shared.queues c = [] ∧ ∀ n ∈ w.shared.sent c, n ∈ w.shared.finished ∨ n ∈ w.shared.dropped := by
  obtain ⟨ls, h, -⟩ := Inv.reached hrun
  have hnone : (ls.map Phase.pending).sum + w.shared.queued.card = 0 := by
    have hle := h.pending_le_spawned
    have hword := congrArg UInt64.toNat (h.pending.symm.trans hzero)
    rw [UInt64.toNat_ofNat', Nat.mod_eq_of_lt (by omega)] at hword
    exact hword
  obtain ⟨hphases, hqueued⟩ := Nat.add_eq_zero_iff.mp hnone
  have hempty := Shared.eq_nil_of_queued (Multiset.card_eq_zero.mp hqueued) c
  refine ⟨hempty, fun n hn => ?_⟩
  rw [h.inOrder, hempty, List.map_nil, List.append_nil] at hn
  have htaken := Shared.mem_allTaken hn
  have hhands : (ls.map fun l => l.hand.jobs).sum = 0 := by
    have hcards := card_sum (fun l => l.hand.jobs) ls
    have hle : (ls.map fun l => l.hand.jobs.card).sum ≤ (ls.map Phase.pending).sum :=
      List.sum_le_sum fun l _ => l.hand.card_jobs_le.trans (Nat.le_add_left _ _)
    exact Multiset.card_eq_zero.mp (by omega)
  rw [h.handled, hhands, zero_add] at htaken
  exact Multiset.mem_add.mp htaken

/-- Once no thread is in the middle of anything, the counters are exact: what is pending is queued,
the rest is completed, and no shard counts a job as running. -/
theorem counters_at_rest {run : ℕ → Job α → Outcome α} {threads : ℕ}
    (hrun : (schedulerMachine cfg run).Reaches (fun _ _ _ => True)
      (newWorld groups α installed threads) w) (hdone : ∀ p ∈ w.threads, p.isDone = true) :
    w.shared.totalSpawned = UInt64.ofNat w.shared.spawned ∧
      w.shared.pendingTasks = UInt64.ofNat w.shared.queued.card ∧
      w.shared.totalCompleted =
        UInt64.ofNat (w.shared.finished.length + w.shared.dropped.length) ∧
      ∀ g, w.shared.inFlight g = 0 := by
  obtain ⟨ls, h, hfol⟩ := Inv.reached hrun
  have hidle := idle_of_done hfol hdone
  refine ⟨h.totalSpawned, ?_, ?_, fun g => ?_⟩
  · rw [h.pending, sum_of_idle hidle rfl, zero_add]
  · obtain ⟨k, hk, hcount⟩ := h.completed
    rw [sum_of_idle hidle rfl, add_zero] at hcount
    rw [hk, hcount]
  · rw [h.occupied, List.countP_eq_zero.mpr fun l hl => by rw [hidle l hl]; simp [Phase.idle]]
    rfl

/-! ## A run -/

/-- One shard. -/
def oneShard : Config 1 := ⟨true, fun _ => true, 0, fun _ => Nat.zero_lt_one⟩

/-- Job 0 spawns a node task. -/
def spawnsNode (_ : ℕ) (job : Job ℕ) : Outcome ℕ :=
  ⟨if job.body = 0 then [.node 0 .normal 1] else [], false⟩

def stepsBy (thread n : ℕ) : List (Move (Errand 1 ℕ)) := List.replicate n (.step thread 0)

/-- A caller spawns a closure, and a worker runs it, then the node task that it spawned. -/
def callerAndWorker : List (Move (Errand 1 ℕ)) :=
  .begin 0 (.spawn (.toGlobal .normal 0)) :: stepsBy 0 3 ++ .begin 1 (.work 0) :: stepsBy 1 14 ++
    .begin 1 (.work 0) :: stepsBy 1 10

theorem exists_callerAndWorker : ∃ w,
    (schedulerMachine oneShard spawnsNode).Reaches (fun _ _ _ => True) (newWorld 1 ℕ true 2) w ∧
      w.shared.spawned = 2 ∧ w.shared.pendingTasks = 0 ∧ w.shared.sent (some 0, .normal) = [1] ∧
        ∀ p ∈ w.threads, p.isDone = true := by
  have hrun : ((schedulerMachine oneShard spawnsNode).fireAllowed (fun _ _ _ => True)
      callerAndWorker (newWorld 1 ℕ true 2)).any (fun w => w.shared.spawned = 2 ∧
        w.shared.pendingTasks = 0 ∧ w.shared.sent (some 0, .normal) = [1] ∧
          ∀ p ∈ w.threads, p.isDone = true) = true := by
    decide +kernel
  obtain ⟨w, hw, hstate⟩ := (Option.any_eq_true _ _).mp hrun
  exact ⟨w, Machine.reaches_of_fireAllowed hw, of_decide_eq_true hstate⟩

theorem jobs_handled_once_callerAndWorker : ∃ w : World (atomics 1 ℕ) (Shared 1 ℕ),
    w.shared.spawned = 2 ∧ HandledOnce true w := by
  obtain ⟨w, hrun, hspawned, -⟩ := exists_callerAndWorker
  exact ⟨w, hspawned, jobs_handled_once hrun⟩

theorem idle_means_finished_callerAndWorker : ∃ w : World (atomics 1 ℕ) (Shared 1 ℕ),
    w.shared.sent (some 0, .normal) = [1] ∧ (1 ∈ w.shared.finished ∨ 1 ∈ w.shared.dropped) := by
  obtain ⟨w, hrun, hspawned, hzero, hsent, -⟩ := exists_callerAndWorker
  refine ⟨w, hsent,
    (idle_means_finished hrun (by rw [hspawned]; decide) hzero (some 0, .normal)).2 1 ?_⟩
  rw [hsent]
  exact List.mem_singleton_self 1

theorem counters_at_rest_callerAndWorker : ∃ w : World (atomics 1 ℕ) (Shared 1 ℕ),
    w.shared.spawned = 2 ∧ w.shared.totalSpawned = 2 ∧ w.shared.inFlight 0 = 0 := by
  obtain ⟨w, hrun, hspawned, -, -, hdone⟩ := exists_callerAndWorker
  obtain ⟨htotal, -, -, hflight⟩ := counters_at_rest hrun hdone
  exact ⟨w, hspawned, by rw [htotal, hspawned]; rfl, hflight 0⟩

end Tomii.Scheduler
