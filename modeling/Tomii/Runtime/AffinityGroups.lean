import Tomii.Runtime.ThreadLayout
import Mathlib.Data.Prod.Lex
import Mathlib.Data.List.Dedup
import Mathlib.Data.List.ReduceOption
import Mathlib.Algebra.BigOperators.Group.List.Basic
import Mathlib.Logic.Relation

/-! # Affinity groups (`scheduler.rs`, `custom_scheduler/`)

The groups that are made of the worker ranges of the nodes, the channels that each worker of the
custom scheduler drains, and the channel that a task is sent to. -/
namespace Tomii.Affinity
set_option autoImplicit false
set_option maxHeartbeats 250000

/-! ## Worker ranges -/

/-- The workers from `start` up to `stop`. -/
structure WorkerRange where
  start : ℕ
  stop : ℕ

namespace WorkerRange

def key (r : WorkerRange) : ℕ ×ₗ ℕ := toLex (r.start, r.stop)

theorem key_injective : Function.Injective key := by
  rintro ⟨a, b⟩ ⟨c, d⟩ h
  obtain ⟨rfl, rfl⟩ := Prod.mk.inj (toLex.injective h)
  rfl

/-- By the start, then by the end. -/
instance : LinearOrder WorkerRange := LinearOrder.lift' key key_injective

def contains (r : WorkerRange) (workerIdx : ℕ) : Bool := r.start ≤ workerIdx && workerIdx < r.stop

def len (r : WorkerRange) : ℕ := r.stop - r.start

end WorkerRange

inductive WorkerRangeSpec where
  | count (n : ℕ)
  | range (r : WorkerRange)

def WorkerRangeSpec.range? : WorkerRangeSpec → Option WorkerRange
  | .count _ => none
  | .range r => some r

/-! ## Groups of ranges -/

/-- Workers that are not listed have no groups. -/
structure WorkerAffinityConfig where
  rangeToGroup : List (WorkerRange × ℕ)
  affinityGroups : List (ℕ × WorkerRange)
  workerToGroups : ℕ → List ℕ

namespace WorkerAffinityConfig

/-- The group is the last one of all workers in its range. -/
def addGroup (workerToGroups : ℕ → List ℕ) (group : WorkerRange × ℕ) : ℕ → List ℕ := fun workerIdx =>
  if group.1.contains workerIdx then workerToGroups workerIdx ++ [group.2]
  else workerToGroups workerIdx

/-- A range out of bounds panics. -/
def fromWorkerRanges (ranges : List WorkerRange) (totalWorkers : ℕ) :
    Option WorkerAffinityConfig :=
  let sortedRanges := ranges.dedup.insertionSort (· ≤ ·)
  if sortedRanges.any fun r => decide (totalWorkers < r.stop) then none
  else
    let groups := sortedRanges.zipIdx 1
    some ⟨groups, groups.map Prod.swap, groups.foldl addGroup fun _ => []⟩

def fromWorkerSpecs (specs : List WorkerRangeSpec) (totalWorkers : ℕ) :
    Option WorkerAffinityConfig :=
  let ranges := specs.filterMap WorkerRangeSpec.range?
  if ranges.any fun r => decide (totalWorkers < r.stop) then none
  else fromWorkerRanges ranges totalWorkers

def getGroup (a : WorkerAffinityConfig) : Option WorkerRangeSpec → ℕ
  | none => 0
  | some (.range r) => (a.rangeToGroup.lookup r).getD 0
  | some (.count _) => 0

end WorkerAffinityConfig

/-- The affinity that `main` makes of the specs of the nodes. -/
def workerAffinity (useWorkers : List (Option WorkerRangeSpec)) (workers : ℕ) :
    Option (Option WorkerAffinityConfig) :=
  let uniqueWorkerSpecs := useWorkers.reduceOption
  if uniqueWorkerSpecs.isEmpty then some none
  else (WorkerAffinityConfig.fromWorkerSpecs uniqueWorkerSpecs workers).map some

/-! ## The builder -/

structure WorkerGroupConfig where
  numWorkers : ℕ
  allowGlobalSteal : Bool

/-- Group 0 is made of the workers in no range, and keeps its place when there are none. -/
def withAffinityGroups (affinity : WorkerAffinityConfig) (totalWorkers : ℕ) :
    List WorkerGroupConfig :=
  let assignedWorkers :=
    (affinity.affinityGroups.flatMap fun group => List.range' group.2.start group.2.len).dedup
  ⟨totalWorkers - assignedWorkers.length, true⟩ ::
    affinity.affinityGroups.map fun group => ⟨group.2.len, true⟩

def addShardedWorkers (numWorkers shardSize : ℕ) : List WorkerGroupConfig :=
  let shardSize := max shardSize 1
  let numShards := max ((numWorkers + shardSize - 1) / shardSize) 1
  let base := numWorkers / numShards
  let extra := numWorkers % numShards
  ((List.range numShards).map fun s => base + if s < extra then 1 else 0).filterMap fun n =>
    if n = 0 then none else some ⟨n, true⟩

def customShardSize : ℕ := 8

/-- The groups of `create_scheduler`, and whether they are shards. -/
def customGroups (affinity : Option WorkerAffinityConfig) (numWorkers : ℕ) :
    List WorkerGroupConfig × Bool :=
  match affinity with
  | some affinity =>
    if affinity.affinityGroups.isEmpty then (addShardedWorkers numWorkers customShardSize, true)
    else (withAffinityGroups affinity numWorkers, false)
  | none => (addShardedWorkers numWorkers customShardSize, true)

/-- `worker_to_group_idx`: a worker drains the channels of its first group only. -/
def workerToGroupIdx (totalWorkers numGroups : ℕ) (affinity : Option WorkerAffinityConfig) : List ℕ :=
  match affinity.filter fun a => !a.affinityGroups.isEmpty with
  | some affinity =>
    (List.range totalWorkers).map fun workerId => (affinity.workerToGroups workerId).head?.getD 0
  | none =>
    if 1 < numGroups then
      let base := totalWorkers / numGroups
      let extra := totalWorkers % numGroups
      (List.range numGroups).flatMap fun g => List.replicate (base + if g < extra then 1 else 0) g
    else List.replicate totalWorkers 0

structure CustomScheduler where
  groups : List WorkerGroupConfig
  sharded : Bool
  workerToGroup : List ℕ
  workerAffinity : Option WorkerAffinityConfig

def requestedWorkers (groups : List WorkerGroupConfig) : UInt64 :=
  UInt64.ofNat (groups.map (·.numWorkers)).sum

/-- A worker without a core or without a group panics. -/
def build (cores : CoreIds) (coreOffset systemThreads receiverThreads : UInt64)
    (affinity : Option WorkerAffinityConfig) (numWorkers : ℕ) : Option CustomScheduler :=
  let custom := customGroups affinity numWorkers
  let groups := custom.1
  (allocateCores cores coreOffset systemThreads receiverThreads (requestedWorkers groups)).bind
    fun alloc =>
      let totalWorkers := alloc.workerCount.toNat
      let workerToGroup := workerToGroupIdx totalWorkers groups.length affinity
      if (∀ w < totalWorkers, (alloc.workerOffset + UInt64.ofNat w).toNat < alloc.allCoreIds.length) ∧
          ∀ g ∈ workerToGroup, g < groups.length then
        some ⟨groups, custom.2 && 0 < groups.length, workerToGroup, affinity⟩
      else none

def startScheduler (cores : CoreIds) (coreOffset systemThreads receiverThreads : UInt64)
    (workers : ℕ) (useWorkers : List (Option WorkerRangeSpec)) : Option CustomScheduler :=
  (workerAffinity useWorkers workers).bind fun affinity =>
    build cores coreOffset systemThreads receiverThreads affinity workers

/-! ## Sending and receiving -/

inductive Channel where
  | global
  | group (i : ℕ)
  deriving DecidableEq

namespace CustomScheduler

variable (s : CustomScheduler)

def getAffinityGroup (useWorkers : Option WorkerRangeSpec) : ℕ :=
  s.workerAffinity.elim 0 fun affinity => affinity.getGroup useWorkers

/-- `spawn_node`. Among shards the one with the least load is chosen. -/
def spawnNode (groupId leastLoaded : ℕ) : Channel :=
  if 0 < groupId ∧ groupId < s.groups.length then .group groupId
  else if s.sharded then .group leastLoaded
  else .global

/-- Boxed tasks go to `spawn_to_group_with_meta` only with a group. -/
def spawnBoxed (groupId : ℕ) : Channel :=
  if 0 < groupId then if groupId < s.groups.length then .group groupId else .global
  else .global

def SentTo (groupId : ℕ) (c : Channel) : Prop :=
  (∃ i, (s.sharded → i < s.groups.length) ∧ c = s.spawnNode groupId i) ∨ c = s.spawnBoxed groupId

/-- `worker_loop`: own group, global channels, and in turn all other shards. -/
def Receives (workerId : ℕ) (c : Channel) : Prop :=
  ∃ g, s.workerToGroup[workerId]? = some g ∧
    match c with
    | .global => ∃ config, s.groups[g]? = some config ∧ config.allowGlobalSteal
    | .group i => i = g ∨ s.sharded ∧ i < s.groups.length

/-- A task is known by the workers that its node asks for. -/
structure Load where
  queued : Channel → List (Option WorkerRangeSpec)
  executed : List (ℕ × Option WorkerRangeSpec)

/-- Tasks of any node are sent, and workers receive tasks in any order. -/
inductive Step : Load → Load → Prop where
  | send (l : Load) (useWorkers : Option WorkerRangeSpec) (c : Channel)
      (hsent : s.SentTo (s.getAffinityGroup useWorkers) c) :
      Step l { l with queued := Function.update l.queued c (l.queued c ++ [useWorkers]) }
  | receive (l : Load) (workerId : ℕ) (c : Channel) (pre post : List (Option WorkerRangeSpec))
      (useWorkers : Option WorkerRangeSpec) (hreceives : s.Receives workerId c)
      (hqueued : l.queued c = pre ++ useWorkers :: post) :
      Step l ⟨Function.update l.queued c (pre ++ post), l.executed ++ [(workerId, useWorkers)]⟩

def Reached (l : Load) : Prop := Relation.ReflTransGen s.Step ⟨fun _ => [], []⟩ l

/-- Tasks are sent where a worker receives them, and no worker out of range executes one. -/
structure Serves (useWorkers : List (Option WorkerRangeSpec)) : Prop where
  served : ∀ spec, spec = none ∨ spec ∈ useWorkers →
    ∀ c, s.SentTo (s.getAffinityGroup spec) c → ∃ workerId, s.Receives workerId c
  confined : ∀ l, s.Reached l → ∀ workerId r, some (.range r) ∈ useWorkers →
    (workerId, some (.range r)) ∈ l.executed → r.contains workerId = true

end CustomScheduler

/-! ## The first group of a worker -/

/-- In a sorted list the first element with a property is the least one. -/
theorem find_eq_some_iff_least {α : Type} [LinearOrder α] {l : List α} (hsorted : l.Pairwise (· ≤ ·))
    (p : α → Bool) (a : α) :
    l.find? p = some a ↔ a ∈ l ∧ p a = true ∧ ∀ b ∈ l, p b = true → a ≤ b := by
  have hleast : ∀ a, l.find? p = some a → a ∈ l ∧ p a = true ∧ ∀ b ∈ l, p b = true → a ≤ b := by
    intro a h
    obtain ⟨ha, pre, post, rfl, hpre⟩ := List.find?_eq_some_iff_append.mp h
    refine ⟨List.mem_append_right _ List.mem_cons_self, ha, fun b hb hpb => ?_⟩
    rcases List.mem_append.mp hb with hb | hb
    · have hnot := hpre b hb
      rw [hpb] at hnot
      cases hnot
    · rcases List.mem_cons.mp hb with rfl | hb
      · exact le_rfl
      · exact List.rel_of_pairwise_cons (List.pairwise_append.mp hsorted).2.1 hb
  refine ⟨hleast a, fun ⟨ha, hpa, hmin⟩ => ?_⟩
  obtain ⟨b, hb⟩ := Option.isSome_iff_exists.mp (List.find?_isSome.mpr ⟨a, ha, hpa⟩)
  obtain ⟨hbl, hpb, hbmin⟩ := hleast b hb
  rw [hb, le_antisymm (hbmin a ha hpa) (hmin b hbl hpb)]

theorem find_zipIdx {α : Type} [DecidableEq α] (p : α → Bool) (l : List α) (k : ℕ) :
    (l.zipIdx k).find? (fun entry => p entry.1) = (l.find? p).map fun a => (a, l.idxOf a + k) := by
  induction l generalizing k with
  | nil => rfl
  | cons a l ih =>
    rw [List.zipIdx_cons, List.find?_cons, List.find?_cons, ih]
    cases hpa : p a with
    | true =>
      simp only [Option.map_some, List.idxOf_cons_self, Nat.zero_add]
    | false =>
      simp only []
      cases hfind : l.find? p with
      | none => rfl
      | some b =>
        have hne : a ≠ b := by
          rintro rfl
          rw [(List.find?_eq_some_iff_append.mp hfind).1] at hpa
          cases hpa
        rw [Option.map_some, Option.map_some, List.idxOf_cons_ne l hne]
        congr 2
        omega

theorem lookup_zipIdx {α : Type} [DecidableEq α] (l : List α) (k : ℕ) (a : α) :
    (l.zipIdx k).lookup a = if a ∈ l then some (l.idxOf a + k) else none := by
  induction l generalizing k with
  | nil => rfl
  | cons b l ih =>
    rw [List.zipIdx_cons, List.lookup_cons, ih]
    by_cases hab : a = b
    · subst hab
      simp
    · rw [beq_eq_false_iff_ne.mpr hab, List.idxOf_cons_ne l (Ne.symm hab)]
      simp only [List.mem_cons, hab, false_or]
      split
      · congr 1
        omega
      · rfl

theorem foldl_addGroup (groups : List (WorkerRange × ℕ)) (m : ℕ → List ℕ) (w : ℕ) :
    groups.foldl WorkerAffinityConfig.addGroup m w =
      m w ++ (groups.filter fun group => group.1.contains w).map Prod.snd := by
  induction groups generalizing m with
  | nil => exact (List.append_nil _).symm
  | cons group groups ih =>
    rw [List.foldl_cons, ih, WorkerAffinityConfig.addGroup, List.filter_cons]
    split
    · rw [List.append_assoc]
      rfl
    · rfl

/-- What the groups of an affinity are, in terms of the sorted ranges. -/
structure GroupsOf (sorted : List WorkerRange) (a : WorkerAffinityConfig) : Prop where
  count : a.affinityGroups.length = sorted.length
  first : ∀ w, (a.workerToGroups w).head? =
    (sorted.find? fun r => r.contains w).map fun r => sorted.idxOf r + 1
  group : ∀ r ∈ sorted, a.getGroup (some (.range r)) = sorted.idxOf r + 1

def sortedRanges (useWorkers : List (Option WorkerRangeSpec)) : List WorkerRange :=
  (useWorkers.reduceOption.filterMap WorkerRangeSpec.range?).dedup.insertionSort (· ≤ ·)

theorem mem_sortedRanges {useWorkers : List (Option WorkerRangeSpec)} {r : WorkerRange} :
    r ∈ sortedRanges useWorkers ↔ some (.range r) ∈ useWorkers := by
  rw [sortedRanges, List.mem_insertionSort, List.mem_dedup, List.mem_filterMap]
  constructor
  · rintro ⟨spec, hspec, hr⟩
    cases spec with
    | count n => cases hr
    | range r' =>
      obtain rfl := Option.some.inj hr
      exact List.reduceOption_mem_iff.mp hspec
  · exact fun h => ⟨.range r, List.reduceOption_mem_iff.mpr h, rfl⟩

theorem pairwise_sortedRanges (useWorkers : List (Option WorkerRangeSpec)) :
    (sortedRanges useWorkers).Pairwise (· ≤ ·) :=
  List.pairwise_insertionSort _ _

theorem groupsOf_fromWorkerSpecs {useWorkers : List (Option WorkerRangeSpec)} {workers : ℕ}
    {a : WorkerAffinityConfig}
    (h : WorkerAffinityConfig.fromWorkerSpecs useWorkers.reduceOption workers = some a) :
    GroupsOf (sortedRanges useWorkers) a := by
  unfold WorkerAffinityConfig.fromWorkerSpecs WorkerAffinityConfig.fromWorkerRanges at h
  dsimp only at h
  split at h
  · cases h
  · split at h
    · cases h
    · obtain rfl := Option.some.inj h
      refine ⟨?_, fun w => ?_, fun r hr => ?_⟩
      · rw [List.length_map, List.length_zipIdx]
        rfl
      · show (((sortedRanges useWorkers).zipIdx 1).foldl WorkerAffinityConfig.addGroup
          (fun _ => []) w).head? = _
        rw [foldl_addGroup, List.nil_append, List.head?_map, List.head?_filter,
          find_zipIdx fun r : WorkerRange => r.contains w, Option.map_map]
        rfl
      · show (((sortedRanges useWorkers).zipIdx 1).lookup r).getD 0 = _
        rw [lookup_zipIdx, if_pos hr, Option.getD_some]

/-! ## What the builder builds -/

theorem sum_extra (extra n : ℕ) :
    ((List.range n).map fun g => if g < extra then 1 else 0).sum = min extra n := by
  induction n with
  | zero => exact (Nat.min_zero extra).symm
  | succ n ih =>
    rw [List.range_succ, List.map_append, List.sum_append, ih, List.map_singleton,
      List.sum_singleton]
    split
    · omega
    · omega

theorem length_workerToGroupIdx (totalWorkers numGroups : ℕ)
    (affinity : Option WorkerAffinityConfig) :
    (workerToGroupIdx totalWorkers numGroups affinity).length = totalWorkers := by
  unfold workerToGroupIdx
  split
  · rw [List.length_map, List.length_range]
  · split
    · next hgroups =>
      have hmod := Nat.mod_lt totalWorkers (Nat.zero_lt_of_lt hgroups)
      have hdiv := Nat.div_add_mod totalWorkers numGroups
      simp only [List.length_flatMap, List.length_replicate]
      rw [List.sum_map_add, sum_extra, List.map_const', List.sum_replicate_nat, List.length_range]
      omega
    · rw [List.length_replicate]

theorem customGroups_steal (affinity : Option WorkerAffinityConfig) (numWorkers : ℕ) :
    ∀ config ∈ (customGroups affinity numWorkers).1, config.allowGlobalSteal = true := by
  have hsharded : ∀ config ∈ addShardedWorkers numWorkers customShardSize,
      config.allowGlobalSteal = true := by
    intro config hconfig
    obtain ⟨n, -, hn⟩ := List.mem_filterMap.mp hconfig
    split at hn
    · cases hn
    · obtain rfl := Option.some.inj hn
      rfl
  cases affinity with
  | none => exact hsharded
  | some a =>
    unfold customGroups
    simp only []
    split
    · exact hsharded
    · intro config hconfig
      rcases List.mem_cons.mp hconfig with rfl | hconfig
      · rfl
      · obtain ⟨group, -, rfl⟩ := List.mem_map.mp hconfig
        rfl

/-- The workers that get cores. -/
def grantedWorkers (cores : CoreIds) (coreOffset systemThreads receiverThreads : UInt64)
    (workers : ℕ) (useWorkers : List (Option WorkerRangeSpec)) : ℕ :=
  ((workerAffinity useWorkers workers).bind fun affinity =>
    allocateCores cores coreOffset systemThreads receiverThreads
      (requestedWorkers (customGroups affinity workers).1)).elim 0 fun alloc =>
    alloc.workerCount.toNat

/-- A scheduler as it stands after a start. -/
structure Started (useWorkers : List (Option WorkerRangeSpec)) (granted : ℕ) (s : CustomScheduler) :
    Prop where
  total : s.workerToGroup.length = granted
  bounded : ∀ g ∈ s.workerToGroup, g < s.groups.length
  steal : ∀ config ∈ s.groups, config.allowGlobalSteal = true
  undeclared : s.getAffinityGroup none = 0
  counts : ∀ n, s.getAffinityGroup (some (.count n)) = 0
  ranges : ∀ r ∈ sortedRanges useWorkers, s.sharded = false ∧
    s.groups.length = (sortedRanges useWorkers).length + 1 ∧
    s.getAffinityGroup (some (.range r)) = (sortedRanges useWorkers).idxOf r + 1 ∧
    s.workerToGroup = (List.range granted).map fun w =>
      (((sortedRanges useWorkers).find? fun r => r.contains w).map fun r =>
        (sortedRanges useWorkers).idxOf r + 1).getD 0

variable {cores : CoreIds} {coreOffset systemThreads receiverThreads : UInt64} {workers : ℕ}
  {useWorkers : List (Option WorkerRangeSpec)} {s : CustomScheduler}

theorem startScheduler_started
    (h : startScheduler cores coreOffset systemThreads receiverThreads workers useWorkers = some s) :
    Started useWorkers
      (grantedWorkers cores coreOffset systemThreads receiverThreads workers useWorkers) s := by
  obtain ⟨affinity, haffinity, h⟩ := Option.bind_eq_some_iff.mp h
  obtain ⟨alloc, halloc, h⟩ := Option.bind_eq_some_iff.mp h
  dsimp only at h
  split at h
  · next hbounds =>
    obtain rfl := Option.some.inj h
    have hgranted : grantedWorkers cores coreOffset systemThreads receiverThreads workers
        useWorkers = alloc.workerCount.toNat := by
      rw [grantedWorkers, haffinity, Option.bind_some, halloc]
      rfl
    rw [hgranted]
    refine ⟨length_workerToGroupIdx _ _ _, hbounds.2, customGroups_steal affinity workers, ?_,
      fun n => ?_, fun r hr => ?_⟩
    · cases affinity with
      | none => rfl
      | some a => rfl
    · cases affinity with
      | none => rfl
      | some a => rfl
    · have hne : useWorkers.reduceOption.isEmpty = false := by
        have hmem := List.reduceOption_mem_iff.mpr (mem_sortedRanges.mp hr)
        cases hlist : useWorkers.reduceOption with
        | nil => exact absurd (hlist ▸ hmem) List.not_mem_nil
        | cons spec specs => rfl
      unfold workerAffinity at haffinity
      simp only [hne, Bool.false_eq_true, if_false] at haffinity
      obtain ⟨a, ha, rfl⟩ := Option.map_eq_some_iff.mp haffinity
      have hgroups := groupsOf_fromWorkerSpecs ha
      have hsome : a.affinityGroups.isEmpty = false := by
        cases hlist : a.affinityGroups with
        | nil =>
          have hcount := hgroups.count
          rw [hlist, List.length_nil] at hcount
          exact absurd (List.length_eq_zero_iff.mp hcount.symm) (List.ne_nil_of_mem hr)
        | cons group groups => rfl
      have hcustom : customGroups (some a) workers = (withAffinityGroups a workers, false) := by
        simp only [customGroups, hsome, Bool.false_eq_true, if_false]
      refine ⟨?_, ?_, hgroups.group r hr, ?_⟩
      · simp only [hcustom, Bool.false_and]
      · simp only [hcustom, withAffinityGroups, List.length_cons, List.length_map, hgroups.count]
      · simp only [workerToGroupIdx, Option.filter, hsome, Bool.not_false, if_true, hgroups.first]
  · cases h

/-! ## Runs of the workers -/

/-- Tasks are queued where they were sent, and executed by a worker that receives there. -/
structure Delivered (s : CustomScheduler) (l : CustomScheduler.Load) : Prop where
  queued : ∀ c, ∀ spec ∈ l.queued c, s.SentTo (s.getAffinityGroup spec) c
  executed : ∀ done ∈ l.executed, ∃ c, s.SentTo (s.getAffinityGroup done.2) c ∧
    s.Receives done.1 c

theorem Delivered.step {l l' : CustomScheduler.Load} (h : Delivered s l) (hstep : s.Step l l') :
    Delivered s l' := by
  cases hstep with
  | send spec c hsent =>
    refine ⟨fun c' spec' hspec' => ?_, h.executed⟩
    by_cases hc : c' = c
    · subst hc
      simp only [Function.update_self] at hspec'
      rcases List.mem_append.mp hspec' with hold | hnew
      · exact h.queued c' spec' hold
      · obtain rfl := List.mem_singleton.mp hnew
        exact hsent
    · simp only [Function.update_of_ne hc] at hspec'
      exact h.queued c' spec' hspec'
  | receive workerId c pre post spec hreceives hqueued =>
    have hspec : s.SentTo (s.getAffinityGroup spec) c :=
      h.queued c spec (hqueued ▸ List.mem_append_right _ List.mem_cons_self)
    refine ⟨fun c' spec' hspec' => ?_, fun done hdone => ?_⟩
    · by_cases hc : c' = c
      · subst hc
        simp only [Function.update_self] at hspec'
        refine h.queued c' spec' ?_
        rw [hqueued]
        exact (List.mem_append.mp hspec').elim (List.mem_append_left _) fun hpost =>
          List.mem_append_right _ (List.mem_cons_of_mem _ hpost)
      · simp only [Function.update_of_ne hc] at hspec'
        exact h.queued c' spec' hspec'
    · rcases List.mem_append.mp hdone with hold | hnew
      · exact h.executed done hold
      · obtain rfl := List.mem_singleton.mp hnew
        exact ⟨c, hspec, hreceives⟩

theorem delivered_of_reached {l : CustomScheduler.Load} (h : s.Reached l) : Delivered s l := by
  induction h with
  | refl => exact ⟨fun _ _ hspec => absurd hspec List.not_mem_nil,
      fun _ hdone => absurd hdone List.not_mem_nil⟩
  | tail _ hstep ih => exact ih.step hstep

/-! ## Which groups are served -/

section Serving

variable {granted : ℕ} (h : Started useWorkers granted s)
include h

theorem Started.lt_of_receives {w : ℕ} {c : Channel} (hreceives : s.Receives w c) : w < granted := by
  obtain ⟨g, hg, -⟩ := hreceives
  rw [← h.total]
  exact (List.getElem?_eq_some_iff.mp hg).1

theorem Started.exists_group {w : ℕ} (hw : w < granted) :
    ∃ g, s.workerToGroup[w]? = some g ∧ g < s.groups.length := by
  have hlt : w < s.workerToGroup.length := h.total.symm ▸ hw
  exact ⟨_, List.getElem?_eq_getElem hlt, h.bounded _ (List.getElem_mem hlt)⟩

/-- Without a range, every worker receives a task. -/
theorem Started.receives_zero {w : ℕ} (hw : w < granted) {c : Channel} (hsent : s.SentTo 0 c) :
    s.Receives w c := by
  obtain ⟨g, hg, hbound⟩ := h.exists_group hw
  have hglobal : s.Receives w .global :=
    ⟨g, hg, _, List.getElem?_eq_getElem hbound, h.steal _ (List.getElem_mem hbound)⟩
  rcases hsent with ⟨i, hi, rfl⟩ | rfl
  · rw [CustomScheduler.spawnNode, if_neg fun hpos => absurd hpos.1 (lt_irrefl 0)]
    split
    · next hsharded => exact ⟨g, hg, .inr ⟨hsharded, hi hsharded⟩⟩
    · exact hglobal
  · exact hglobal

theorem Started.served_zero_iff :
    (∀ c, s.SentTo 0 c → ∃ w, s.Receives w c) ↔ 1 ≤ granted := by
  constructor
  · intro hserved
    obtain ⟨w, hw⟩ := hserved .global (.inr rfl)
    exact Nat.one_le_iff_ne_zero.mpr (Nat.ne_zero_of_lt (h.lt_of_receives hw))
  · exact fun hpos c hsent => ⟨0, h.receives_zero hpos hsent⟩

variable {r : WorkerRange} (hr : r ∈ sortedRanges useWorkers)
include hr

theorem Started.sentTo_iff (c : Channel) :
    s.SentTo (s.getAffinityGroup (some (.range r))) c ↔
      c = .group ((sortedRanges useWorkers).idxOf r + 1) := by
  obtain ⟨hsharded, hlength, hgroup, -⟩ := h.ranges r hr
  have hlt : (sortedRanges useWorkers).idxOf r + 1 < s.groups.length := by
    rw [hlength]
    exact Nat.succ_lt_succ (List.idxOf_lt_length_of_mem hr)
  have hpos := Nat.succ_pos ((sortedRanges useWorkers).idxOf r)
  rw [hgroup]
  constructor
  · rintro (⟨i, -, rfl⟩ | rfl)
    · rw [CustomScheduler.spawnNode, if_pos ⟨hpos, hlt⟩]
    · rw [CustomScheduler.spawnBoxed, if_pos hpos, if_pos hlt]
  · rintro rfl
    exact .inr (by rw [CustomScheduler.spawnBoxed, if_pos hpos, if_pos hlt])

/-- A group's tasks are received by the workers whose first range is that of the group. -/
theorem Started.receives_iff (w : ℕ) :
    s.Receives w (.group ((sortedRanges useWorkers).idxOf r + 1)) ↔
      w < granted ∧ (sortedRanges useWorkers).find? (fun r => r.contains w) = some r := by
  obtain ⟨hsharded, -, -, hworkers⟩ := h.ranges r hr
  constructor
  · intro hreceives
    have hw := h.lt_of_receives hreceives
    obtain ⟨g, hg, hg'⟩ := hreceives
    rw [hworkers, List.getElem?_map, List.getElem?_range hw, Option.map_some] at hg
    refine ⟨hw, ?_⟩
    have hown := hg'.resolve_right fun hshard => by rw [hsharded] at hshard; cases hshard.1
    cases hfind : (sortedRanges useWorkers).find? fun r => r.contains w with
    | none =>
      rw [hfind] at hg
      exact absurd (hown.trans (Option.some.inj hg).symm) (Nat.succ_ne_zero _)
    | some r' =>
      rw [hfind] at hg
      have hsame := Nat.succ_injective (hown.trans (Option.some.inj hg).symm)
      rw [(List.idxOf_inj hr).mp hsame]
  · rintro ⟨hw, hfind⟩
    refine ⟨_, ?_, .inl rfl⟩
    rw [hworkers, List.getElem?_map, List.getElem?_range hw, Option.map_some, hfind]
    rfl

end Serving

/-- The groups are served exactly where some worker has cores, and every range has a worker with
cores that is in no range before it, ordered by start and end. -/
theorem startScheduler_serves_iff
    (h : startScheduler cores coreOffset systemThreads receiverThreads workers useWorkers = some s) :
    s.Serves useWorkers ↔
      1 ≤ grantedWorkers cores coreOffset systemThreads receiverThreads workers useWorkers ∧
      ∀ r, some (.range r) ∈ useWorkers →
        ∃ w < grantedWorkers cores coreOffset systemThreads receiverThreads workers useWorkers,
          r.contains w = true ∧
          ∀ r', some (.range r') ∈ useWorkers → r'.contains w = true → r ≤ r' := by
  have hstarted := startScheduler_started h
  have hfind : ∀ r w, (sortedRanges useWorkers).find? (fun r => r.contains w) = some r ↔
      some (.range r) ∈ useWorkers ∧ r.contains w = true ∧
        ∀ r', some (.range r') ∈ useWorkers → r'.contains w = true → r ≤ r' := by
    intro r w
    simp only [find_eq_some_iff_least (pairwise_sortedRanges useWorkers), mem_sortedRanges]
  constructor
  · intro hserves
    refine ⟨hstarted.served_zero_iff.mp ?_, fun r hr => ?_⟩
    · have hnone := hserves.served none (.inl rfl)
      rwa [hstarted.undeclared] at hnone
    · have hmem := mem_sortedRanges.mpr hr
      obtain ⟨w, hw⟩ := hserves.served _ (.inr hr) _ ((hstarted.sentTo_iff hmem _).mpr rfl)
      obtain ⟨hlt, hfirst⟩ := (hstarted.receives_iff hmem w).mp hw
      exact ⟨w, hlt, ((hfind r w).mp hfirst).2⟩
  · rintro ⟨hpos, hranges⟩
    have hzero := hstarted.served_zero_iff.mpr hpos
    refine ⟨fun spec hspec => ?_, fun l hreached w r hr hdone => ?_⟩
    · rcases spec with _ | n | r
      · rw [hstarted.undeclared]
        exact hzero
      · rw [hstarted.counts]
        exact hzero
      · intro c hsent
        have hr : some (.range r) ∈ useWorkers := hspec.resolve_left fun hnone => by cases hnone
        have hmem := mem_sortedRanges.mpr hr
        obtain rfl := (hstarted.sentTo_iff hmem c).mp hsent
        obtain ⟨w, hw, hfirst⟩ := hranges r hr
        exact ⟨w, (hstarted.receives_iff hmem w).mpr ⟨hw, (hfind r w).mpr ⟨hr, hfirst⟩⟩⟩
    · have hmem := mem_sortedRanges.mpr hr
      obtain ⟨c, hsent, hreceives⟩ := (delivered_of_reached hreached).executed _ hdone
      obtain rfl := (hstarted.sentTo_iff hmem c).mp hsent
      exact ((hfind r w).mp ((hstarted.receives_iff hmem w).mp hreceives).2).2.1

/-! ## Two ranges on sixteen cores -/

/-- Two nodes with ranges, and one without. -/
def twoRanges (a b : WorkerRange) : List (Option WorkerRangeSpec) :=
  [some (.range a), none, some (.range b)]

theorem mem_twoRanges {a b r : WorkerRange} : some (.range r) ∈ twoRanges a b ↔ r = a ∨ r = b := by
  simp [twoRanges]

/-- Ranges side by side. -/
theorem startScheduler_serves_iff_two :
    ∃ s, startScheduler ⟨List.range 16, by decide⟩ 0 1 0 4 (twoRanges ⟨0, 2⟩ ⟨2, 4⟩) = some s ∧
      s.Serves (twoRanges ⟨0, 2⟩ ⟨2, 4⟩) := by
  obtain ⟨s, hs⟩ := Option.isSome_iff_exists.mp (by decide +kernel :
    (startScheduler ⟨List.range 16, by decide⟩ 0 1 0 4
      (twoRanges ⟨0, 2⟩ ⟨2, 4⟩)).isSome = true)
  refine ⟨s, hs, (startScheduler_serves_iff hs).mpr ⟨by decide +kernel, fun r hr => ?_⟩⟩
  rcases mem_twoRanges.mp hr with rfl | rfl
  · refine ⟨0, by decide +kernel, rfl, fun r' hr' hcontains => ?_⟩
    rcases mem_twoRanges.mp hr' with rfl | rfl
    · exact le_rfl
    · exact absurd hcontains (by decide)
  · refine ⟨2, by decide +kernel, rfl, fun r' hr' hcontains => ?_⟩
    rcases mem_twoRanges.mp hr' with rfl | rfl
    · exact absurd hcontains (by decide)
    · exact le_rfl

/-- All workers of the inner range belong to the group of the outer one first. -/
theorem inner_range_unserved :
    ∃ s, startScheduler ⟨List.range 16, by decide⟩ 0 1 0 4 (twoRanges ⟨0, 4⟩ ⟨1, 3⟩) = some s ∧
      s.getAffinityGroup (some (.range ⟨1, 3⟩)) = 2 ∧ s.workerToGroup = [1, 1, 1, 1, 0, 0] ∧
      ¬ s.Serves (twoRanges ⟨0, 4⟩ ⟨1, 3⟩) := by
  have hrun : ((startScheduler ⟨List.range 16, by decide⟩ 0 1 0 4
      (twoRanges ⟨0, 4⟩ ⟨1, 3⟩)).map fun s =>
        (s.getAffinityGroup (some (.range ⟨1, 3⟩)), s.workerToGroup)) =
      some (2, [1, 1, 1, 1, 0, 0]) := by
    decide +kernel
  obtain ⟨s, hs, hvalues⟩ := Option.map_eq_some_iff.mp hrun
  obtain ⟨hgroup, hworkers⟩ := Prod.mk.inj hvalues
  refine ⟨s, hs, hgroup, hworkers, fun hserves => ?_⟩
  have hstarted := startScheduler_started hs
  have hinner : some (.range ⟨1, 3⟩) ∈ twoRanges ⟨0, 4⟩ ⟨1, 3⟩ := mem_twoRanges.mpr (.inr rfl)
  have hmem := mem_sortedRanges.mpr hinner
  obtain ⟨w, hw⟩ := hserves.served _ (.inr hinner) _ ((hstarted.sentTo_iff hmem _).mpr rfl)
  obtain ⟨-, hfirst⟩ := (hstarted.receives_iff hmem w).mp hw
  obtain ⟨-, hcontains, hleast⟩ :=
    (find_eq_some_iff_least (pairwise_sortedRanges _) _ _).mp hfirst
  have houter : WorkerRange.contains ⟨0, 4⟩ w = true := by
    simp only [WorkerRange.contains, Bool.and_eq_true, decide_eq_true_iff] at hcontains ⊢
    omega
  exact absurd (hleast ⟨0, 4⟩ (mem_sortedRanges.mpr (mem_twoRanges.mpr (.inl rfl))) houter)
    (by decide +kernel)

end Tomii.Affinity
