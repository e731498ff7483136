import Tomii.Runtime.ThreadTickets

/-! # What the pending counters tell

The retired instances of a slot are distinct instances of its nodes, so a pending counter is at zero
exactly when all of them are retired. -/
namespace Tomii
set_option autoImplicit false
set_option maxHeartbeats 250000

variable {c : Compiled} {σ σ' : Shared} {l l' : Phase} {ls others : List Phase}

namespace Compiled

variable (c : Compiled)

/-- The instances of a frame with or without a condition. -/
def frameCells (slot : ℕ) (cond : Bool) : List Cell :=
  ((List.range c.graph.nodes.length).filter fun n => c.isCondition n = cond).flatMap (c.allCells slot)

theorem mem_allCells {slot node : ℕ} {x : Cell} :
    x ∈ c.allCells slot node ↔ x.slot = slot ∧ x.node = node ∧ x.idx < c.factor node := by
  obtain ⟨s, n, i⟩ := x
  simp only [allCells, List.mem_map, List.mem_range, Cell.mk.injEq]
  constructor
  · rintro ⟨j, hj, rfl, rfl, rfl⟩
    exact ⟨rfl, rfl, hj⟩
  · rintro ⟨rfl, rfl, hi⟩
    exact ⟨i, hi, rfl, rfl, rfl⟩

theorem allCells_nodup (slot node : ℕ) : (c.allCells slot node).Nodup :=
  List.nodup_range.map fun _ _ h => (Cell.mk.inj h).2.2

@[simp] theorem allCells_length (slot node : ℕ) : (c.allCells slot node).length = c.factor node := by
  simp [allCells]

theorem mem_frameCells {slot : ℕ} {cond : Bool} {x : Cell} : x ∈ c.frameCells slot cond ↔
    x.slot = slot ∧ x.node < c.graph.nodes.length ∧ c.isCondition x.node = cond ∧
      x.idx < c.factor x.node := by
  simp only [frameCells, List.mem_flatMap, List.mem_filter, List.mem_range, decide_eq_true_eq,
    mem_allCells]
  constructor
  · rintro ⟨n, ⟨hn, hcond⟩, hslot, rfl, hidx⟩
    exact ⟨hslot, hn, hcond, hidx⟩
  · rintro ⟨hslot, hn, hcond, hidx⟩
    exact ⟨x.node, ⟨hn, hcond⟩, hslot, rfl, hidx⟩

theorem frameCells_nodup (slot : ℕ) (cond : Bool) : (c.frameCells slot cond).Nodup := by
  refine List.nodup_flatMap.mpr ⟨fun n _ => c.allCells_nodup slot n, ?_⟩
  refine (List.nodup_range.filter _).imp fun {n m} hne => ?_
  intro x hx hx'
  exact hne ((c.mem_allCells.mp hx).2.1.symm.trans (c.mem_allCells.mp hx').2.1)

@[simp] theorem frameCells_length (slot : ℕ) (cond : Bool) :
    (c.frameCells slot cond).length = c.totalOf cond := by
  simp [frameCells, totalOf, List.length_flatMap]

end Compiled

/-! ## Retired instances -/

theorem mem_retiredOf {slot : ℕ} {cond : Bool} {x : Cell} : x ∈ retiredOf c σ slot cond ↔
    x ∈ σ.ledger.retired ∧ x.slot = slot ∧ c.isCondition x.node = cond := by
  simp [retiredOf]

namespace Accounts

variable (h : Accounts c σ ls)

include h

theorem retired_nodup : σ.ledger.retired.Nodup :=
  Multiset.coe_nodup.mp (Multiset.nodup_add.mp h.placed_nodup).2.1

theorem retiredOf_subperm (slot : ℕ) (cond : Bool) :
    (retiredOf c σ slot cond).Subperm (c.frameCells slot cond) := by
  refine (h.retired_nodup.filter _).subperm fun x hx => ?_
  obtain ⟨hret, hslot, hcond⟩ := mem_retiredOf.mp hx
  obtain ⟨hnode, hidx⟩ := h.bounded x (h.released_of_retired hret)
  exact c.mem_frameCells.mpr ⟨hslot, hnode, hcond, hidx⟩

theorem retiredOf_length_le (slot : ℕ) (cond : Bool) :
    (retiredOf c σ slot cond).length ≤ c.totalOf cond := by
  have hle := (h.retiredOf_subperm slot cond).length_le
  rwa [c.frameCells_length] at hle

theorem allRetired_iff (slot : ℕ) (cond : Bool) :
    AllRetired c σ slot cond ↔ (retiredOf c σ slot cond).length = c.totalOf cond := by
  constructor
  · intro hall
    refine le_antisymm (h.retiredOf_length_le slot cond) ?_
    rw [← c.frameCells_length slot cond]
    refine ((c.frameCells_nodup slot cond).subperm fun x hx => ?_).length_le
    obtain ⟨hslot, hnode, hcond, hidx⟩ := c.mem_frameCells.mp hx
    refine mem_retiredOf.mpr ⟨?_, hslot, hcond⟩
    have hret := hall x.node hnode hcond x.idx hidx
    rwa [← hslot] at hret
  · intro hlen n hn hcond j hj
    have hperm := (h.retiredOf_subperm slot cond).perm_of_length_le
      (by rw [c.frameCells_length, hlen])
    exact (mem_retiredOf.mp (hperm.mem_iff.mpr
      (c.mem_frameCells.mpr ⟨rfl, hn, hcond, hj⟩))).1

/-- When all instances of the frame are retired, nothing that was released is left. -/
theorem settled_of_allRetired {slot : ℕ} (htasks : AllRetired c σ slot false)
    (hconds : AllRetired c σ slot true) :
    ∀ x ∈ σ.ledger.released, x.slot = slot → x ∈ σ.ledger.retired := by
  intro x hx hslot
  obtain ⟨hnode, hidx⟩ := h.bounded x hx
  have hret : ⟨slot, x.node, x.idx⟩ ∈ σ.ledger.retired := by
    cases hcond : c.isCondition x.node with
    | false => exact htasks x.node hnode hcond x.idx hidx
    | true => exact hconds x.node hnode hcond x.idx hidx
  rwa [← hslot] at hret

end Accounts

/-! ## The counters -/

/-- The counter of the tasks with or without a condition. -/
def pendingCounter (cond : Bool) : Counter := if cond then .pendingCondTasks else .pendingTasks

namespace Counters

variable (h : Counters c σ) (hacc : Accounts c σ ls) (htotals : ∀ cond, c.totalOf cond < 2 ^ 64)

include h hacc htotals

theorem load_toNat (slot : ℕ) (cond : Bool) : ((σ.slots slot).load (pendingCounter cond)).toNat =
    c.totalOf cond - (retiredOf c σ slot cond).length := by
  have hle := hacc.retiredOf_length_le slot cond
  have hlt := htotals cond
  rw [pendingCounter, h slot cond, UInt64.toNat_sub_of_le, UInt64.toNat_ofNat',
    UInt64.toNat_ofNat', Nat.mod_eq_of_lt hlt, Nat.mod_eq_of_lt (by omega)]
  rw [UInt64.le_iff_toNat_le, UInt64.toNat_ofNat', UInt64.toNat_ofNat', Nat.mod_eq_of_lt hlt,
    Nat.mod_eq_of_lt (by omega)]
  exact hle

theorem zero_iff (slot : ℕ) (cond : Bool) :
    (σ.slots slot).load (pendingCounter cond) = 0 ↔ AllRetired c σ slot cond := by
  have hle := hacc.retiredOf_length_le slot cond
  have hnat := h.load_toNat hacc htotals slot cond
  rw [hacc.allRetired_iff, ← UInt64.toNat_inj, hnat]
  have hzero : (0 : UInt64).toNat = 0 := rfl
  omega

end Counters

end Tomii
