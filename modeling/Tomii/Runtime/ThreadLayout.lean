import Mathlib.Algebra.GroupWithZero.Nat
import Mathlib.Data.List.Basic
import Mathlib.Order.MinMax
import Mathlib.Order.Nat
import Mathlib.Data.List.Sort

/-! # Cores and sockets of the threads (`core_alloc.rs`, `runtime/threading.rs`)

The cores of system threads, receivers and workers, and the sockets that each receiver polls. -/
namespace Tomii
set_option autoImplicit false
set_option maxHeartbeats 250000

/-! ## Spans -/

/-- The numbers from `start` up to `stop`. -/
structure Span where
  start : ℕ
  stop : ℕ
deriving DecidableEq, Repr

namespace Span

def Holds (r : Span) (i : ℕ) : Prop := r.start ≤ i ∧ i < r.stop

def Disjoint (r r' : Span) : Prop := ∀ i, r.Holds i → ¬ r'.Holds i

def Within (r : Span) (bound : ℕ) : Prop := ∀ i, r.Holds i → i < bound

theorem disjoint_of_le {r r' : Span} (h : r.stop ≤ r'.start) : r.Disjoint r' :=
  fun _ hi hi' => absurd (hi.2.trans_le (h.trans hi'.1)) (lt_irrefl _)

theorem within_of_le {r : Span} {bound : ℕ} (h : r.stop ≤ bound) : r.Within bound :=
  fun _ hi => hi.2.trans_le h

/-- Spans that do not meet lie one behind the other, unless one is empty. -/
theorem Disjoint.apart {r r' : Span} (h : r.Disjoint r') :
    r.stop ≤ r.start ∨ r'.stop ≤ r'.start ∨ r.stop ≤ r'.start ∨ r'.stop ≤ r.start := by
  by_contra hmeet
  simp only [not_or, not_le] at hmeet
  exact h (max r.start r'.start) ⟨le_max_left _ _, max_lt hmeet.1 hmeet.2.2.1⟩
    ⟨le_max_right _ _, max_lt hmeet.2.2.2 hmeet.2.1⟩

theorem Within.stop_le {r : Span} {bound : ℕ} (h : r.Within bound) :
    r.stop ≤ r.start ∨ r.stop ≤ bound := by
  by_contra hout
  simp only [not_or, not_le] at hout
  have hlast := h (r.stop - 1) ⟨by omega, by omega⟩
  omega

end Span

/-! ## Sockets of the receivers -/

/-- `check_receiver_threads` -/
def checkReceiverThreads (hasNetwork : Bool) (receiverThreads : ℕ) : Except String Unit :=
  if hasNetwork = true ∧ receiverThreads = 0 then
    .error "receiver_threads must be >= 1 for a graph with a network_config (got 0)"
  else .ok ()

/-- `usize::div_ceil`, which panics for a divisor of zero. -/
def divCeil (n d : ℕ) : Option ℕ := if d = 0 then none else some ((n + d - 1) / d)

/-- The sockets of each thread that `spawn_receiver_threads` starts. Every socket has an element in a
vector, so that no product overflows. -/
def socketRanges (numSockets receiverThreads : ℕ) : Option (List Span) :=
  if numSockets ≤ receiverThreads then
    some ((List.range numSockets).map fun socketId => ⟨socketId, socketId + 1⟩)
  else
    (divCeil numSockets receiverThreads).map fun socketsPerThread =>
      (List.range receiverThreads).map fun threadId =>
        let startSocket := threadId * socketsPerThread
        ⟨startSocket, min (startSocket + socketsPerThread) numSockets⟩

/-- `range_len` of `multi_socket_receiver_loop`: the subtraction must not underflow. -/
def rangeLen (socketRange : Span) : Option ℕ :=
  if socketRange.start ≤ socketRange.stop then some (socketRange.stop - socketRange.start) else none

/-- The ranges are in bounds and together hold every socket once. -/
structure Partition (numSockets : ℕ) (ranges : List Span) : Prop where
  ordered : ∀ r ∈ ranges, r.start ≤ r.stop ∧ r.stop ≤ numSockets
  disjoint : ranges.Pairwise Span.Disjoint
  covers : ∀ s < numSockets, ∃ r ∈ ranges, r.Holds s

theorem partition_oneToOne (numSockets : ℕ) :
    Partition numSockets ((List.range numSockets).map fun socketId => ⟨socketId, socketId + 1⟩) where
  ordered := by
    intro r hr
    obtain ⟨s, hs, rfl⟩ := List.mem_map.mp hr
    exact ⟨Nat.le_succ s, List.mem_range.mp hs⟩
  disjoint :=
    List.pairwise_map.mpr ((List.pairwise_lt_range).imp fun hlt => Span.disjoint_of_le hlt)
  covers := by
    intro s hs
    exact ⟨_, List.mem_map_of_mem (List.mem_range.mpr hs), le_rfl, Nat.lt_succ_self s⟩

theorem le_mul_divCeil {n t per : ℕ} (h : divCeil n t = some per) : n ≤ t * per := by
  unfold divCeil at h
  split at h
  · cases h
  · next ht =>
    obtain rfl := Option.some.inj h
    have hdiv := Nat.div_add_mod (n + t - 1) t
    have hmod := Nat.mod_lt (n + t - 1) (Nat.pos_of_ne_zero ht)
    omega

/-- Ranges of one length, cut off at the number of sockets, fail only where the last one starts behind
it. -/
theorem partition_chunks_iff {n t per : ℕ} (ht : 1 ≤ t) (hcover : n ≤ t * per) :
    Partition n ((List.range t).map fun threadId =>
      (⟨threadId * per, min (threadId * per + per) n⟩ : Span)) ↔ (t - 1) * per ≤ n := by
  constructor
  · intro h
    have hlast := h.ordered _ (List.mem_map_of_mem (List.mem_range.mpr (by omega : t - 1 < t)))
    exact hlast.1.trans hlast.2
  · intro hlast
    refine ⟨fun r hr => ?_, ?_, fun s hs => ?_⟩
    · obtain ⟨i, hi, rfl⟩ := List.mem_map.mp hr
      have hstart : i * per ≤ (t - 1) * per :=
        Nat.mul_le_mul_right per (Nat.le_pred_of_lt (List.mem_range.mp hi))
      exact ⟨le_min (Nat.le_add_right _ _) (hstart.trans hlast), min_le_right _ _⟩
    · refine List.pairwise_map.mpr ((List.pairwise_lt_range).imp fun {i j} hlt => ?_)
      refine Span.disjoint_of_le ((min_le_left _ _).trans ?_)
      calc i * per + per = (i + 1) * per := (Nat.succ_mul i per).symm
        _ ≤ j * per := Nat.mul_le_mul_right per hlt
    · have hper : 0 < per := by
        by_contra hzero
        rw [Nat.eq_zero_of_not_pos hzero, Nat.mul_zero] at hcover
        omega
      have hi : s / per < t := Nat.div_lt_of_lt_mul (Nat.mul_comm t per ▸ hs.trans_le hcover)
      refine ⟨_, List.mem_map_of_mem (List.mem_range.mpr hi), Nat.div_mul_le_self s per, ?_⟩
      exact lt_min (Nat.lt_div_mul_add hper) hs

/-- The receivers' ranges are a partition of the sockets exactly when there is a thread for each
socket, or the ranges before the last one leave it something or end with the sockets. -/
theorem socketRanges_partition_iff {numSockets receiverThreads : ℕ}
    (haccepted : checkReceiverThreads true receiverThreads = .ok ()) :
    (∃ ranges, socketRanges numSockets receiverThreads = some ranges ∧
      Partition numSockets ranges ∧ ∀ r ∈ ranges, (rangeLen r).isSome) ↔
    numSockets ≤ receiverThreads ∨
      (receiverThreads - 1) * ((numSockets + receiverThreads - 1) / receiverThreads) ≤
        numSockets := by
  have hpos : 1 ≤ receiverThreads := by
    by_contra hzero
    simp [checkReceiverThreads, Nat.eq_zero_of_not_pos hzero] at haccepted
  have hlens : ∀ {ranges : List Span}, Partition numSockets ranges →
      ∀ r ∈ ranges, (rangeLen r).isSome := by
    intro ranges h r hr
    rw [rangeLen, if_pos (h.ordered r hr).1]
    rfl
  unfold socketRanges
  split
  · next hle =>
    have hpart := partition_oneToOne numSockets
    exact iff_of_true ⟨_, rfl, hpart, hlens hpart⟩ (.inl hle)
  · next hlt =>
    have hceil : divCeil numSockets receiverThreads =
        some ((numSockets + receiverThreads - 1) / receiverThreads) :=
      if_neg (Nat.ne_of_gt hpos)
    rw [hceil, Option.map_some, or_iff_right hlt,
      ← partition_chunks_iff hpos (le_mul_divCeil hceil)]
    constructor
    · rintro ⟨ranges, heq, hpart, -⟩
      obtain rfl := Option.some.inj heq
      exact hpart
    · intro hpart
      exact ⟨_, rfl, hpart, hlens hpart⟩

/-- Six sockets and four receivers. -/
theorem socketRanges_partition_iff_six : ∃ ranges, socketRanges 6 4 = some ranges ∧
    Partition 6 ranges ∧ ∀ r ∈ ranges, (rangeLen r).isSome :=
  (@socketRanges_partition_iff 6 4 rfl).mpr (.inr (by decide))

/-- Of four receivers for five sockets the last one is given the range from 6 to 5. -/
theorem last_receiver_underflows :
    checkReceiverThreads true 4 = .ok () ∧
      socketRanges 5 4 = some [⟨0, 2⟩, ⟨2, 4⟩, ⟨4, 5⟩, ⟨6, 5⟩] ∧ rangeLen ⟨6, 5⟩ = none ∧
      ¬ Partition 5 [⟨0, 2⟩, ⟨2, 4⟩, ⟨4, 5⟩, ⟨6, 5⟩] := by
  refine ⟨rfl, by decide, rfl, fun h => ?_⟩
  have hlast := (h.ordered ⟨6, 5⟩ (by simp)).1
  exact absurd hlast (by decide)

/-! ## Cores of the thread classes -/

/-- What `core_affinity::get_core_ids` finds. A vector of the ids fits into the address space. -/
structure CoreIds where
  ids : List ℕ
  fits : ids.length < 2 ^ 63

structure CoreAllocation where
  systemCoreOffset : UInt64
  systemThreads : UInt64
  receiverOffset : UInt64
  receiverThreads : UInt64
  workerOffset : UInt64
  workerCount : UInt64
  mainCore : Option ℕ
  allCoreIds : List ℕ
deriving DecidableEq, Repr

/-- `threads` cores from `offset`. -/
def coreSpan (offset threads : UInt64) : Span := ⟨offset.toNat, offset.toNat + threads.toNat⟩

namespace CoreAllocation

variable (a : CoreAllocation)

def systemCores : Span := coreSpan a.systemCoreOffset a.systemThreads

def receiverCores : Span := coreSpan a.receiverOffset a.receiverThreads

def workerCores : Span := coreSpan a.workerOffset a.workerCount

/-- The assertions at the end of `allocate_cores`. -/
def verified : Bool :=
  a.systemCoreOffset + a.systemThreads ≤ a.receiverOffset &&
    a.receiverOffset + a.receiverThreads ≤ a.workerOffset

/-- The classes one behind the other, as requested. -/
def consecutive (start systemThreads receiverThreads workerCount : UInt64) (mainCore : Option ℕ)
    (coreIds : List ℕ) : CoreAllocation :=
  let recvStart := start + systemThreads
  let workerStart := recvStart + receiverThreads
  ⟨start, systemThreads, recvStart, receiverThreads, workerStart, workerCount, mainCore, coreIds⟩

end CoreAllocation

/-- `saturating_sub` on `usize`. -/
def saturatingSubUsize (a b : UInt64) : UInt64 := if b ≤ a then a - b else 0

/-- Over-subscription. -/
def scaleDown (availableCores receiverThreads : UInt64) (coreIds : List ℕ) : CoreAllocation :=
  let maxSystem : UInt64 := 1
  let remaining := saturatingSubUsize availableCores maxSystem
  let maxReceivers := min receiverThreads (remaining / 2)
  let maxWorkers := max (saturatingSubUsize remaining maxReceivers) 1
  ⟨0, maxSystem, maxSystem, maxReceivers, maxSystem + maxReceivers, maxWorkers, none, coreIds⟩

/-- The decision tree of `allocate_cores`. An index out of bounds panics, and sums wrap around, as in
a build without overflow checks. -/
def chooseLayout (cores : CoreIds) (coreOffset systemThreads receiverThreads workerCount : UInt64) :
    Option CoreAllocation :=
  let coreIds := cores.ids.insertionSort (· ≤ ·)
  let availableCores := UInt64.ofNat coreIds.length
  let totalNeeded := systemThreads + receiverThreads + workerCount
  if availableCores < 2 then none
  else if coreOffset + totalNeeded < availableCores then
    coreIds[coreOffset.toNat]?.map fun main =>
      .consecutive (coreOffset + 1) systemThreads receiverThreads workerCount (some main) coreIds
  else if coreOffset + totalNeeded ≤ availableCores then
    some (.consecutive coreOffset systemThreads receiverThreads workerCount none coreIds)
  else if totalNeeded ≤ availableCores then
    some (.consecutive 0 systemThreads receiverThreads workerCount none coreIds)
  else some (scaleDown availableCores receiverThreads coreIds)

def allocateCores (cores : CoreIds) (coreOffset systemThreads receiverThreads workerCount : UInt64) :
    Option CoreAllocation :=
  (chooseLayout cores coreOffset systemThreads receiverThreads workerCount).filter
    CoreAllocation.verified

/-- The classes have cores of their own among those available, there is a worker, and no class has
more threads than were requested. -/
structure WellAllocated (a : CoreAllocation) (available : ℕ)
    (systemThreads receiverThreads workerCount : UInt64) : Prop where
  disjoint : a.systemCores.Disjoint a.receiverCores ∧ a.systemCores.Disjoint a.workerCores ∧
    a.receiverCores.Disjoint a.workerCores
  within : a.systemCores.Within available ∧ a.receiverCores.Within available ∧
    a.workerCores.Within available
  worker : 1 ≤ a.workerCount
  granted : a.systemThreads ≤ systemThreads ∧ a.receiverThreads ≤ receiverThreads ∧
    a.workerCount ≤ workerCount

/-- The request fits the cores, or it is scaled down: then a system thread is requested, and at least
as many workers as there are cores left. -/
def Allocatable (available coreOffset systemThreads receiverThreads workerCount : ℕ) : Prop :=
  let total := systemThreads + receiverThreads + workerCount
  1 ≤ workerCount ∧
    (total ≤ available ∧ coreOffset + total < 2 ^ 64 ∨
      available < total % 2 ^ 64 ∧ available < (coreOffset + total) % 2 ^ 64 ∧ 1 ≤ systemThreads ∧
        available - 1 - min receiverThreads ((available - 1) / 2) ≤ workerCount)

section Allocation

variable {a : CoreAllocation} {available : ℕ}
  {start systemThreads receiverThreads workerCount : UInt64}

/-- Disjoint spans within the available cores have no more cores together. -/
theorem WellAllocated.total_le
    (h : WellAllocated a available systemThreads receiverThreads workerCount) :
    a.systemThreads.toNat + a.receiverThreads.toNat + a.workerCount.toNat ≤ available := by
  have h12 := h.disjoint.1.apart
  have h13 := h.disjoint.2.1.apart
  have h23 := h.disjoint.2.2.apart
  have h1 := h.within.1.stop_le
  have h2 := h.within.2.1.stop_le
  have h3 := h.within.2.2.stop_le
  simp only [CoreAllocation.systemCores, CoreAllocation.receiverCores, CoreAllocation.workerCores,
    coreSpan] at h12 h13 h23 h1 h2 h3
  omega

/-- Classes one behind the other, up to a bound that is no machine limit. -/
theorem wellAllocated_consecutive {mainCore : Option ℕ} {coreIds : List ℕ}
    (hfits : available < 2 ^ 63) (hworker : 1 ≤ workerCount.toNat)
    (hend : start.toNat + systemThreads.toNat + receiverThreads.toNat + workerCount.toNat ≤
      available) :
    WellAllocated (.consecutive start systemThreads receiverThreads workerCount mainCore coreIds)
        available systemThreads receiverThreads workerCount ∧
      (CoreAllocation.consecutive start systemThreads receiverThreads workerCount mainCore
        coreIds).verified = true := by
  have hrecv : (start + systemThreads).toNat = start.toNat + systemThreads.toNat := by
    rw [UInt64.toNat_add, Nat.mod_eq_of_lt (by omega)]
  have hwork : (start + systemThreads + receiverThreads).toNat =
      start.toNat + systemThreads.toNat + receiverThreads.toNat := by
    rw [UInt64.toNat_add, hrecv, Nat.mod_eq_of_lt (by omega)]
  refine ⟨⟨⟨?_, ?_, ?_⟩, ⟨?_, ?_, ?_⟩, hworker, UInt64.le_refl _, UInt64.le_refl _,
    UInt64.le_refl _⟩, ?_⟩
  · exact Span.disjoint_of_le hrecv.ge
  · refine Span.disjoint_of_le ?_
    simp only [CoreAllocation.systemCores, CoreAllocation.workerCores, CoreAllocation.consecutive,
      coreSpan, hwork]
    omega
  · refine Span.disjoint_of_le ?_
    simp only [CoreAllocation.receiverCores, CoreAllocation.workerCores,
      CoreAllocation.consecutive, coreSpan, hwork, hrecv]
    omega
  · refine Span.within_of_le ?_
    simp only [CoreAllocation.systemCores, CoreAllocation.consecutive, coreSpan]
    omega
  · refine Span.within_of_le ?_
    simp only [CoreAllocation.receiverCores, CoreAllocation.consecutive, coreSpan, hrecv]
    omega
  · refine Span.within_of_le ?_
    simp only [CoreAllocation.workerCores, CoreAllocation.consecutive, coreSpan, hwork]
    omega
  · simp [CoreAllocation.verified, CoreAllocation.consecutive]

/-- An allocation as requested is well formed if the request ends within the cores. -/
theorem exists_consecutive_iff (mainCore : Option ℕ) (coreIds : List ℕ) (hfits : available < 2 ^ 63)
    (hend : systemThreads.toNat + receiverThreads.toNat + workerCount.toNat ≤ available →
      start.toNat + (systemThreads.toNat + receiverThreads.toNat + workerCount.toNat) ≤ available) :
    (∃ a, (some (CoreAllocation.consecutive start systemThreads receiverThreads workerCount
        mainCore coreIds)).filter CoreAllocation.verified = some a ∧
      WellAllocated a available systemThreads receiverThreads workerCount) ↔
    1 ≤ workerCount.toNat ∧
      systemThreads.toNat + receiverThreads.toNat + workerCount.toNat ≤ available := by
  constructor
  · rintro ⟨a, ha, hwell⟩
    obtain ⟨heq, -⟩ := Option.filter_eq_some_iff.mp ha
    obtain rfl := Option.some.inj heq
    exact ⟨UInt64.le_iff_toNat_le.mp hwell.worker, hwell.total_le⟩
  · rintro ⟨hworker, htotal⟩
    have hbound := hend htotal
    obtain ⟨hwell, hverified⟩ := wellAllocated_consecutive hfits hworker
      (by omega : start.toNat + systemThreads.toNat + receiverThreads.toNat + workerCount.toNat ≤ _)
    exact ⟨_, Option.filter_eq_some_iff.mpr ⟨rfl, hverified⟩, hwell⟩

theorem saturatingSubUsize_toNat (x y : UInt64) :
    (saturatingSubUsize x y).toNat = x.toNat - y.toNat := by
  unfold saturatingSubUsize
  split
  · next h => exact UInt64.toNat_sub_of_le _ _ h
  · next h =>
    have hlt : x.toNat < y.toNat := UInt64.not_le.mp h
    exact (Nat.sub_eq_zero_of_le hlt.le).symm

theorem min_toNat (x y : UInt64) : (min x y).toNat = min x.toNat y.toNat := by
  show (if x ≤ y then x else y).toNat = _
  split
  · next h => exact (min_eq_left (UInt64.le_iff_toNat_le.mp h)).symm
  · next h => exact (min_eq_right (UInt64.not_le.mp h).le).symm

theorem max_toNat (x y : UInt64) : (max x y).toNat = max x.toNat y.toNat := by
  show (if x ≤ y then y else x).toNat = _
  split
  · next h => exact (max_eq_right (UInt64.le_iff_toNat_le.mp h)).symm
  · next h => exact (max_eq_left (UInt64.not_le.mp h).le).symm

/-- What is granted under over-subscription. -/
theorem scaleDown_toNat {availableCores : UInt64} (receiverThreads : UInt64) (coreIds : List ℕ)
    (h2 : 2 ≤ availableCores.toNat) :
    (scaleDown availableCores receiverThreads coreIds).receiverThreads.toNat =
        min receiverThreads.toNat ((availableCores.toNat - 1) / 2) ∧
      (scaleDown availableCores receiverThreads coreIds).workerOffset.toNat =
        1 + min receiverThreads.toNat ((availableCores.toNat - 1) / 2) ∧
      (scaleDown availableCores receiverThreads coreIds).workerCount.toNat =
        availableCores.toNat - 1 - min receiverThreads.toNat ((availableCores.toNat - 1) / 2) := by
  have hmax := availableCores.toNat_lt
  have hrecv : (min receiverThreads (saturatingSubUsize availableCores 1 / 2)).toNat =
      min receiverThreads.toNat ((availableCores.toNat - 1) / 2) := by
    rw [min_toNat, UInt64.toNat_div, saturatingSubUsize_toNat]
    rfl
  refine ⟨hrecv, ?_, ?_⟩
  · show (1 + min receiverThreads (saturatingSubUsize availableCores 1 / 2)).toNat = _
    rw [UInt64.toNat_add, hrecv, UInt64.toNat_one, Nat.mod_eq_of_lt (by omega)]
  · show (max (saturatingSubUsize (saturatingSubUsize availableCores 1)
      (min receiverThreads (saturatingSubUsize availableCores 1 / 2))) 1).toNat = _
    rw [max_toNat, saturatingSubUsize_toNat, saturatingSubUsize_toNat, hrecv, UInt64.toNat_one]
    omega

/-- A scaled-down allocation lacks nothing but, perhaps, a bound on what it grants. -/
theorem wellAllocated_scaleDown_iff {availableCores : UInt64}
    (systemThreads receiverThreads workerCount : UInt64) (coreIds : List ℕ)
    (h2 : 2 ≤ availableCores.toNat) :
    (scaleDown availableCores receiverThreads coreIds).verified = true ∧
      (WellAllocated (scaleDown availableCores receiverThreads coreIds) availableCores.toNat
          systemThreads receiverThreads workerCount ↔
        1 ≤ systemThreads.toNat ∧ availableCores.toNat - 1 -
          min receiverThreads.toNat ((availableCores.toNat - 1) / 2) ≤ workerCount.toNat) := by
  obtain ⟨hrecv, hoffset, hwork⟩ := scaleDown_toNat receiverThreads coreIds h2
  set alloc := scaleDown availableCores receiverThreads coreIds
  have hsystem : alloc.systemCores = ⟨0, 1⟩ := rfl
  have hreceivers : alloc.receiverCores = ⟨1, 1 + alloc.receiverThreads.toNat⟩ := rfl
  have hworkers : alloc.workerCores =
      ⟨alloc.workerOffset.toNat, alloc.workerOffset.toNat + alloc.workerCount.toNat⟩ := rfl
  constructor
  · exact Bool.and_eq_true_iff.mpr
      ⟨decide_eq_true (UInt64.le_refl 1), decide_eq_true (UInt64.le_refl _)⟩
  constructor
  · intro h
    exact ⟨UInt64.le_iff_toNat_le.mp h.granted.1, hwork ▸ UInt64.le_iff_toNat_le.mp h.granted.2.2⟩
  · rintro ⟨hone, hle⟩
    refine ⟨⟨?_, ?_, ?_⟩, ⟨?_, ?_, ?_⟩, ?_, ?_, ?_, ?_⟩
    · exact Span.disjoint_of_le (by rw [hsystem, hreceivers])
    · exact Span.disjoint_of_le (by rw [hsystem, hworkers, hoffset]; exact Nat.le_add_right 1 _)
    · exact Span.disjoint_of_le (by rw [hreceivers, hworkers, hoffset, hrecv])
    · exact Span.within_of_le (by rw [hsystem]; exact le_trans (by decide) h2)
    · refine Span.within_of_le ?_
      rw [hreceivers, hrecv]
      show 1 + _ ≤ _
      omega
    · refine Span.within_of_le ?_
      rw [hworkers, hoffset, hwork]
      show 1 + _ + _ ≤ _
      omega
    · rw [UInt64.le_iff_toNat_le, hwork, UInt64.toNat_one]
      omega
    · exact hone
    · rw [UInt64.le_iff_toNat_le, hrecv]
      exact min_le_left _ _
    · rw [UInt64.le_iff_toNat_le, hwork]
      exact hle

end Allocation

/-- The allocation is well formed exactly for the requests that are `Allocatable`. -/
theorem allocateCores_wellAllocated_iff (cores : CoreIds)
    (coreOffset systemThreads receiverThreads workerCount : UInt64) (h2 : 2 ≤ cores.ids.length) :
    (∃ a, allocateCores cores coreOffset systemThreads receiverThreads workerCount = some a ∧
      WellAllocated a cores.ids.length systemThreads receiverThreads workerCount) ↔
    Allocatable cores.ids.length coreOffset.toNat systemThreads.toNat receiverThreads.toNat
      workerCount.toNat := by
  have hfits := cores.fits
  have hlen : (cores.ids.insertionSort (· ≤ ·)).length = cores.ids.length :=
    List.length_insertionSort _ _
  have havail : (UInt64.ofNat (cores.ids.insertionSort (· ≤ ·)).length).toNat =
      cores.ids.length := by
    rw [hlen, UInt64.toNat_ofNat_of_lt' (hfits.trans (by decide))]
  have htotal : (systemThreads + receiverThreads + workerCount).toNat =
      (systemThreads.toNat + receiverThreads.toNat + workerCount.toNat) % 2 ^ 64 := by
    simp
  have hsum : (coreOffset + (systemThreads + receiverThreads + workerCount)).toNat =
      (coreOffset.toNat + (systemThreads.toNat + receiverThreads.toNat + workerCount.toNat)) %
        2 ^ 64 := by
    simp
  have hoffset := coreOffset.toNat_lt
  unfold allocateCores chooseLayout Allocatable
  simp only [UInt64.lt_iff_toNat_lt, UInt64.le_iff_toNat_le, havail, htotal, hsum]
  have htwo : (2 : UInt64).toNat = 2 := rfl
  rw [htwo, if_neg (Nat.not_lt.mpr h2)]
  generalize hcoreIds : cores.ids.insertionSort (· ≤ ·) = coreIds at *
  split
  · next hspare =>
    cases hmain : coreIds[coreOffset.toNat]? with
    | none =>
      have hout := List.getElem?_eq_none_iff.mp hmain
      refine iff_of_false ?_ ?_
      · rintro ⟨a, ha, -⟩
        cases ha
      · omega
    | some main =>
      have hin : coreOffset.toNat < coreIds.length := (List.getElem?_eq_some_iff.mp hmain).1
      have hstart : (coreOffset + 1).toNat = coreOffset.toNat + 1 := by
        rw [UInt64.toNat_add, UInt64.toNat_one, Nat.mod_eq_of_lt (by omega)]
      rw [Option.map_some, exists_consecutive_iff _ _ hfits (by omega)]
      omega
  · next hnospare =>
    split
    · next hexact =>
      rw [exists_consecutive_iff _ _ hfits (by omega)]
      omega
    · next hoffsetOut =>
      split
      · next hfitting =>
        rw [exists_consecutive_iff _ _ hfits (by rw [UInt64.toNat_zero]; omega)]
        omega
      · next hover =>
        have havail2 : 2 ≤ (UInt64.ofNat coreIds.length).toNat := by omega
        obtain ⟨hverified, hiff⟩ :=
          wellAllocated_scaleDown_iff systemThreads receiverThreads workerCount coreIds havail2
        rw [havail] at hiff
        have hexists : (∃ a, (some (scaleDown (UInt64.ofNat coreIds.length) receiverThreads
            coreIds)).filter CoreAllocation.verified = some a ∧
            WellAllocated a cores.ids.length systemThreads receiverThreads workerCount) ↔
            WellAllocated (scaleDown (UInt64.ofNat coreIds.length) receiverThreads coreIds)
              cores.ids.length systemThreads receiverThreads workerCount := by
          constructor
          · rintro ⟨a, ha, hwell⟩
            obtain ⟨heq, -⟩ := Option.filter_eq_some_iff.mp ha
            obtain rfl := Option.some.inj heq
            exact hwell
          · exact fun hwell => ⟨_, Option.filter_eq_some_iff.mpr ⟨rfl, hverified⟩, hwell⟩
        rw [hexists, hiff]
        omega

/-- Eight cores for one system thread, two receivers and four workers. -/
theorem allocateCores_wellAllocated_iff_eight :
    ∃ a, allocateCores ⟨List.range 8, by decide⟩ 0 1 2 4 = some a ∧ WellAllocated a 8 1 2 4 :=
  (allocateCores_wellAllocated_iff ⟨List.range 8, by decide⟩ 0 1 2 4 (by decide)).mpr
    ⟨by decide, .inl (by decide)⟩

/-- On eight cores one worker is requested, and four are started. -/
theorem more_workers_than_requested :
    (allocateCores ⟨List.range 8, by decide⟩ 0 2 8 1).map
        (fun a => (a.systemThreads, a.receiverThreads, a.workerCount)) = some (1, 3, 4) ∧
      ¬ ∃ a, allocateCores ⟨List.range 8, by decide⟩ 0 2 8 1 = some a ∧ WellAllocated a 8 2 8 1 := by
  have hrun : (allocateCores ⟨List.range 8, by decide⟩ 0 2 8 1).map
      (fun a => (a.systemThreads, a.receiverThreads, a.workerCount)) = some (1, 3, 4) := by
    decide +kernel
  refine ⟨hrun, ?_⟩
  rintro ⟨a, ha, hwell⟩
  rw [ha] at hrun
  have hcount : a.workerCount = 4 := congrArg (·.2.2) (Option.some.inj hrun)
  have hgranted := hwell.granted.2.2
  rw [hcount] at hgranted
  exact absurd hgranted (by decide)

end Tomii
