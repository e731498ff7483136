import Tomii.Scheduler.WorkerLoop
import Mathlib.Algebra.BigOperators.Group.Finset.Basic
import Mathlib.Algebra.Order.Group.Multiset
import Mathlib.Tactic.Abel

/-! # Where every job is

Each job is on its way to a channel, in a channel, in the hands of a worker, finished or dropped, and
in one of these places only. The counters of the scheduler count accordingly, in every interleaving
of callers and workers. -/
namespace Tomii.Scheduler
set_option autoImplicit false
set_option maxHeartbeats 250000

open scoped BigOperators

variable {groups : ℕ} {α : Type} {s : Shared groups α} {c : Channel groups} {job : Job α}

/-! ## Jobs in channels -/

theorem sum_add_at {ι M : Type} [Fintype ι] [DecidableEq ι] [AddCommMonoid M] {f f' : ι → M} (i : ι)
    {m : M} (hat : f' i = f i + m) (hother : ∀ j, j ≠ i → f' j = f j) :
    ∑ j, f' j = ∑ j, f j + m := by
  rw [← Finset.add_sum_erase _ f' (Finset.mem_univ i), ← Finset.add_sum_erase _ f (Finset.mem_univ i),
    hat, Finset.sum_congr rfl fun j hj => hother j (Finset.ne_of_mem_erase hj)]
  abel

namespace Shared

/-- The jobs in all channels. -/
def queued (s : Shared groups α) : Multiset ℕ := ∑ c, ((s.queues c).map Job.number : List ℕ)

/-- The jobs that were taken from any channel. -/
def allTaken (s : Shared groups α) : Multiset ℕ := ∑ c, (s.taken c : Multiset ℕ)

theorem queued_send : (s.send c job).queued = s.queued + {job.number} := by
  refine sum_add_at c ?_ fun d hd => ?_
  · simp only [send, Function.update_self, List.map_append]
    rfl
  · simp only [send, Function.update_of_ne hd]

theorem allTaken_send : (s.send c job).allTaken = s.allTaken := rfl

theorem queued_pop {rest : List (Job α)} (h : s.queues c = job :: rest) :
    s.queued = (s.pop c job rest).queued + {job.number} := by
  refine sum_add_at c ?_ fun d hd => ?_
  · simp only [h, pop, Function.update_self, List.map_cons]
    rw [← Multiset.cons_coe, add_comm, Multiset.singleton_add]
  · simp only [pop, Function.update_of_ne hd]

theorem allTaken_pop (rest : List (Job α)) :
    (s.pop c job rest).allTaken = s.allTaken + {job.number} := by
  refine sum_add_at c ?_ fun d hd => ?_
  · simp only [pop, Function.update_self]
    rfl
  · simp only [pop, Function.update_of_ne hd]

theorem eq_nil_of_queued (h : s.queued = 0) (c : Channel groups) : s.queues c = [] := by
  refine List.eq_nil_iff_forall_not_mem.mpr fun job hjob => ?_
  have hmem : job.number ∈ s.queued :=
    Multiset.mem_sum.mpr ⟨c, Finset.mem_univ c, List.mem_map_of_mem hjob⟩
  rw [h] at hmem
  exact Multiset.notMem_zero _ hmem

theorem mem_allTaken {n : ℕ} (h : n ∈ s.taken c) : n ∈ s.allTaken :=
  Multiset.mem_sum.mpr ⟨c, Finset.mem_univ c, h⟩

end Shared

/-! ## Phases -/

/-- A job that a thread spawns. -/
inductive Spawning where
  | free
  | claimed (number : ℕ)
  | counted (number : ℕ)

/-- A job that a thread runs. -/
inductive Hand where
  | empty
  | held (number : ℕ)
  | unserved (number : ℕ)
  | running (number : ℕ)
  | owed
  | uncompleted

/-- What a thread is in the middle of. A job that runs may spawn others. -/
structure Phase (groups : ℕ) where
  spawning : Spawning
  hand : Hand
  busy : Option (Fin groups)

def Spawning.jobs : Spawning → Multiset ℕ
  | .free => 0
  | .claimed n => {n}
  | .counted n => {n}

def Spawning.pending : Spawning → ℕ
  | .counted _ => 1
  | _ => 0

def Hand.jobs : Hand → Multiset ℕ
  | .held n => {n}
  | .unserved n => {n}
  | .running n => {n}
  | _ => 0

def Hand.started : Hand → Multiset ℕ
  | .running n => {n}
  | _ => 0

def Hand.pending : Hand → ℕ
  | .empty => 0
  | .uncompleted => 0
  | _ => 1

/-- A job that is through, but not counted as completed. -/
def Hand.uncounted : Hand → ℕ
  | .owed => 1
  | .uncompleted => 1
  | _ => 0

def Phase.idle : Phase groups := ⟨.free, .empty, none⟩

def Phase.pending (l : Phase groups) : ℕ := l.spawning.pending + l.hand.pending

/-- The phase after an attempt to take a job. -/
def Phase.took (l : Phase groups) : Option (Job α) → Phase groups
  | some job => { l with hand := .held job.number }
  | none => l

/-- `installed` says that the node executor was there from the start. -/
def jobDiscipline (groups : ℕ) (α : Type) (installed : Bool) :
    Discipline (atomics groups α) (Phase groups) where
  fails l := ∃ n, l.hand = .running n
  permits l
    | .claim => l.spawning = .free
    | .incPending => ∃ n, l.spawning = .claimed n
    | .send _ job => l.spawning = .counted job.number ∧ job.jobId = UInt64.ofNat job.number
    | .tryRecv _ => l.hand = .empty
    | .select _ => l.hand = .empty
    | .enter _ => l.busy = none
    | .leave g => l.busy = some g
    | .hasExec => ∃ n, l.hand = .held n
    | .start job => l.hand = .held job.number
    | .finish job => l.hand = .running job.number
    | .drop job => l.hand = .unserved job.number ∧ installed = false
    | .decPending => l.hand = .owed
    | .incCompleted => l.hand = .uncompleted
    | _ => True
  knows _
    | .claim, r => r.2 = UInt64.ofNat r.1
    | .hasExec, r => installed = true → r = true
    | _, _ => True
  next l
    | .claim, r => { l with spawning := .claimed r.1 }
    | .incPending, _ =>
      match l.spawning with
      | .claimed n => { l with spawning := .counted n }
      | _ => l
    | .send _ _, _ => { l with spawning := .free }
    | .tryRecv _, r => l.took r
    | .select _, r => l.took r
    | .enter g, _ => { l with busy := some g }
    | .leave _, _ => { l with busy := none }
    | .hasExec, r =>
      match r, l.hand with
      | false, .held n => { l with hand := .unserved n }
      | _, _ => l
    | .start job, _ => { l with hand := .running job.number }
    | .finish _, _ => { l with hand := .owed }
    | .drop _, _ => { l with hand := .owed }
    | .decPending, _ => { l with hand := .uncompleted }
    | .incCompleted, _ => { l with hand := .empty }
    | _, _ => l

/-! ## The invariant -/

/-- The accounts of the jobs, and the counters that go with them. -/
structure Inv (installed : Bool) (s : Shared groups α) (ls : List (Phase groups)) : Prop where
  totalSpawned : s.totalSpawned = UInt64.ofNat s.spawned
  issued : (List.range s.spawned : Multiset ℕ) =
    (ls.map fun l => l.spawning.jobs).sum + s.allTaken + s.queued
  handled : s.allTaken = (ls.map fun l => l.hand.jobs).sum + s.finished + s.dropped
  started : (s.started : Multiset ℕ) = (ls.map fun l => l.hand.started).sum + s.finished
  pending : s.pendingTasks = UInt64.ofNat ((ls.map Phase.pending).sum + s.queued.card)
  completed : ∃ k, s.totalCompleted = UInt64.ofNat k ∧
    k + (ls.map fun l => l.hand.uncounted).sum = s.finished.length + s.dropped.length
  occupied : ∀ g, s.inFlight g = UInt64.ofNat (ls.countP fun l => l.busy = some g)
  inOrder : ∀ c, s.sent c = s.taken c ++ (s.queues c).map Job.number
  numbered : ∀ c, ∀ job ∈ s.queues c, job.jobId = UInt64.ofNat job.number
  served : installed = true → s.nodeExec = true ∧ s.dropped = []

variable {installed : Bool} {l : Phase groups} {ls ls' others : List (Phase groups)} {sp : Spawning}
  {hand : Hand} {busy : Option (Fin groups)} {n : ℕ}

theorem Inv.perm (h : Inv installed s ls) (hp : ls.Perm ls') : Inv installed s ls' where
  totalSpawned := h.totalSpawned
  issued := by rw [← (hp.map _).sum_eq]; exact h.issued
  handled := by rw [← (hp.map _).sum_eq]; exact h.handled
  started := by rw [← (hp.map _).sum_eq]; exact h.started
  pending := by rw [← (hp.map _).sum_eq]; exact h.pending
  completed := by
    obtain ⟨k, hk, hsum⟩ := h.completed
    exact ⟨k, hk, by rw [← (hp.map _).sum_eq]; exact hsum⟩
  occupied := fun g => by rw [← hp.countP_eq]; exact h.occupied g
  inOrder := h.inOrder
  numbered := h.numbered
  served := h.served

theorem Inv.fresh (installed : Bool) (n : ℕ) :
    Inv installed (Shared.fresh installed : Shared groups α) (List.replicate n Phase.idle) where
  totalSpawned := rfl
  issued := by simp [Shared.fresh, Shared.allTaken, Shared.queued, Phase.idle, Spawning.jobs]
  handled := by simp [Shared.fresh, Shared.allTaken, Phase.idle, Hand.jobs]
  started := by simp [Shared.fresh, Phase.idle, Hand.started]
  pending := by
    simp [Shared.fresh, Shared.queued, Phase.idle, Phase.pending, Spawning.pending, Hand.pending]
  completed := ⟨0, rfl, by simp [Shared.fresh, Phase.idle, Hand.uncounted]⟩
  occupied := fun g => by simp [Shared.fresh, Phase.idle, List.countP_replicate]
  inOrder := fun _ => rfl
  numbered := fun _ _ hjob => absurd hjob List.not_mem_nil
  served := fun hin => ⟨hin, rfl⟩

theorem ofNat_add_one {x : UInt64} {a b : ℕ} (hx : x = UInt64.ofNat a) (hab : b = a + 1) :
    x + 1 = UInt64.ofNat b := by
  rw [hx, hab, UInt64.ofNat_add]
  rfl

theorem ofNat_sub_one {x : UInt64} {a b : ℕ} (hx : x = UInt64.ofNat a) (hab : a = b + 1) :
    x - 1 = UInt64.ofNat b := by
  rw [hx, hab, UInt64.ofNat_add]
  exact UInt64.add_sub_cancel ..

/-! ## One step -/

theorem Inv.claim (h : Inv installed s (⟨.free, hand, busy⟩ :: others)) :
    Inv installed { s with spawned := s.spawned + 1, totalSpawned := s.totalSpawned + 1 }
      (⟨.claimed s.spawned, hand, busy⟩ :: others) :=
  { h with
    totalSpawned := ofNat_add_one h.totalSpawned rfl
    issued := by
      have hissued := h.issued
      simp only [List.map_cons, List.sum_cons, Spawning.jobs, zero_add] at hissued ⊢
      show (List.range (s.spawned + 1) : Multiset ℕ) = _
      rw [List.range_succ, ← Multiset.coe_add, hissued]
      show _ = _ + s.allTaken + s.queued
      rw [Multiset.coe_singleton]
      abel }

theorem Inv.incPending (h : Inv installed s (⟨.claimed n, hand, busy⟩ :: others)) :
    Inv installed { s with pendingTasks := s.pendingTasks + 1 }
      (⟨.counted n, hand, busy⟩ :: others) :=
  { h with
    pending := by
      have hpending := h.pending
      simp only [List.map_cons, List.sum_cons, Phase.pending, Spawning.pending] at hpending ⊢
      show s.pendingTasks + 1 = UInt64.ofNat (_ + s.queued.card)
      exact ofNat_add_one hpending (by omega) }

theorem Inv.send (h : Inv installed s (⟨.counted job.number, hand, busy⟩ :: others))
    (hid : job.jobId = UInt64.ofNat job.number) :
    Inv installed (s.send c job) (⟨.free, hand, busy⟩ :: others) :=
  { h with
    issued := by
      have hissued := h.issued
      simp only [List.map_cons, List.sum_cons, Spawning.jobs, zero_add] at hissued ⊢
      rw [Shared.queued_send, Shared.allTaken_send]
      refine hissued.trans ?_
      abel
    pending := by
      have hpending := h.pending
      simp only [List.map_cons, List.sum_cons, Phase.pending, Spawning.pending] at hpending ⊢
      rw [Shared.queued_send, Multiset.card_add, Multiset.card_singleton]
      refine hpending.trans ?_
      congr 1
      omega
    inOrder := by
      intro d
      by_cases hd : d = c
      · subst hd
        simp only [Shared.send, Function.update_self, h.inOrder d, List.map_append,
          List.append_assoc]
        rfl
      · simp only [Shared.send, Function.update_of_ne hd, h.inOrder d]
    numbered := by
      intro d j hj
      by_cases hd : d = c
      · subst hd
        simp only [Shared.send, Function.update_self, List.mem_append, List.mem_singleton] at hj
        rcases hj with hj | rfl
        · exact h.numbered d j hj
        · exact hid
      · simp only [Shared.send, Function.update_of_ne hd] at hj
        exact h.numbered d j hj }

theorem Inv.pop {rest : List (Job α)} (h : Inv installed s (⟨sp, .empty, busy⟩ :: others))
    (hqueue : s.queues c = job :: rest) :
    Inv installed (s.pop c job rest) (⟨sp, .held job.number, busy⟩ :: others) :=
  { h with
    issued := by
      have hissued := h.issued
      rw [Shared.queued_pop hqueue] at hissued
      rw [Shared.allTaken_pop]
      refine hissued.trans ?_
      simp only [List.map_cons, List.sum_cons]
      abel
    handled := by
      have hhandled := h.handled
      simp only [List.map_cons, List.sum_cons, Hand.jobs, zero_add] at hhandled ⊢
      rw [Shared.allTaken_pop, hhandled]
      show _ = _ + (s.finished : Multiset ℕ) + (s.dropped : Multiset ℕ)
      abel
    pending := by
      have hpending := h.pending
      rw [Shared.queued_pop hqueue, Multiset.card_add, Multiset.card_singleton] at hpending
      simp only [List.map_cons, List.sum_cons, Phase.pending, Hand.pending] at hpending ⊢
      refine hpending.trans ?_
      congr 1
      omega
    inOrder := by
      intro d
      by_cases hd : d = c
      · subst hd
        simp only [Shared.pop, Function.update_self, h.inOrder d, hqueue, List.map_cons,
          List.append_assoc]
        rfl
      · simp only [Shared.pop, Function.update_of_ne hd, h.inOrder d]
    numbered := by
      intro d j hj
      by_cases hd : d = c
      · subst hd
        simp only [Shared.pop, Function.update_self] at hj
        exact h.numbered d j (hqueue ▸ List.mem_cons_of_mem _ hj)
      · simp only [Shared.pop, Function.update_of_ne hd] at hj
        exact h.numbered d j hj }

theorem Inv.start (h : Inv installed s (⟨sp, .held n, busy⟩ :: others)) :
    Inv installed { s with started := n :: s.started } (⟨sp, .running n, busy⟩ :: others) :=
  { h with
    started := by
      have hstarted := h.started
      simp only [List.map_cons, List.sum_cons, Hand.started, zero_add] at hstarted ⊢
      show ((n :: s.started : List ℕ) : Multiset ℕ) = _ + (s.finished : Multiset ℕ)
      rw [← Multiset.cons_coe, hstarted, ← Multiset.singleton_add]
      abel }

theorem Inv.finish (h : Inv installed s (⟨sp, .running n, busy⟩ :: others)) :
    Inv installed { s with finished := n :: s.finished } (⟨sp, .owed, busy⟩ :: others) :=
  { h with
    handled := by
      have hhandled := h.handled
      simp only [List.map_cons, List.sum_cons, Hand.jobs, zero_add] at hhandled ⊢
      refine hhandled.trans ?_
      show _ = _ + ((n :: s.finished : List ℕ) : Multiset ℕ) + (s.dropped : Multiset ℕ)
      rw [← Multiset.cons_coe, ← Multiset.singleton_add]
      abel
    started := by
      have hstarted := h.started
      simp only [List.map_cons, List.sum_cons, Hand.started, zero_add] at hstarted ⊢
      refine hstarted.trans ?_
      show _ = _ + ((n :: s.finished : List ℕ) : Multiset ℕ)
      rw [← Multiset.cons_coe, ← Multiset.singleton_add]
      abel
    completed := by
      obtain ⟨k, hk, hsum⟩ := h.completed
      refine ⟨k, hk, ?_⟩
      simp only [List.map_cons, List.sum_cons, Hand.uncounted, List.length_cons] at hsum ⊢
      omega }

theorem Inv.drop (h : Inv installed s (⟨sp, .unserved n, busy⟩ :: others)) (hnot : installed = false) :
    Inv installed { s with dropped := n :: s.dropped } (⟨sp, .owed, busy⟩ :: others) :=
  { h with
    handled := by
      have hhandled := h.handled
      simp only [List.map_cons, List.sum_cons, Hand.jobs, zero_add] at hhandled ⊢
      refine hhandled.trans ?_
      show _ = _ + (s.finished : Multiset ℕ) + ((n :: s.dropped : List ℕ) : Multiset ℕ)
      rw [← Multiset.cons_coe, ← Multiset.singleton_add]
      abel
    completed := by
      obtain ⟨k, hk, hsum⟩ := h.completed
      refine ⟨k, hk, ?_⟩
      simp only [List.map_cons, List.sum_cons, Hand.uncounted, List.length_cons] at hsum ⊢
      omega
    served := fun hin => by
      rw [hnot] at hin
      cases hin }

theorem Inv.decPending (h : Inv installed s (⟨sp, .owed, busy⟩ :: others)) :
    Inv installed { s with pendingTasks := s.pendingTasks - 1 }
      (⟨sp, .uncompleted, busy⟩ :: others) :=
  { h with
    pending := by
      have hpending := h.pending
      simp only [List.map_cons, List.sum_cons, Phase.pending, Hand.pending] at hpending ⊢
      show s.pendingTasks - 1 = UInt64.ofNat (_ + s.queued.card)
      exact ofNat_sub_one hpending (by omega) }

theorem Inv.incCompleted (h : Inv installed s (⟨sp, .uncompleted, busy⟩ :: others)) :
    Inv installed { s with totalCompleted := s.totalCompleted + 1 } (⟨sp, .empty, busy⟩ :: others) :=
  { h with
    completed := by
      obtain ⟨k, hk, hsum⟩ := h.completed
      refine ⟨k + 1, ofNat_add_one hk rfl, ?_⟩
      simp only [List.map_cons, List.sum_cons, Hand.uncounted] at hsum ⊢
      omega }

theorem Inv.enter (h : Inv installed s (⟨sp, hand, none⟩ :: others)) (g : Fin groups) :
    Inv installed { s with inFlight := Function.update s.inFlight g (s.inFlight g + 1) }
      (⟨sp, hand, some g⟩ :: others) :=
  { h with
    occupied := by
      intro d
      have hold := h.occupied d
      by_cases hd : d = g
      · subst hd
        simp only [Function.update_self]
        exact ofNat_add_one hold (by simp)
      · simp only [Function.update_of_ne hd]
        refine hold.trans ?_
        simp [Ne.symm hd] }

theorem Inv.leave {g : Fin groups} (h : Inv installed s (⟨sp, hand, some g⟩ :: others)) :
    Inv installed { s with inFlight := Function.update s.inFlight g (s.inFlight g - 1) }
      (⟨sp, hand, none⟩ :: others) :=
  { h with
    occupied := by
      intro d
      have hold := h.occupied d
      by_cases hd : d = g
      · subst hd
        simp only [Function.update_self]
        exact ofNat_sub_one hold (by simp)
      · simp only [Function.update_of_ne hd]
        refine hold.trans ?_
        simp [Ne.symm hd] }

end Tomii.Scheduler
