import Mathlib.Order.Defs.LinearOrder
import Mathlib.Order.Lattice
import Mathlib.Data.List.Basic
import Mathlib.Data.List.Pairwise
import Mathlib.Algebra.BigOperators.Group.List.Basic
import Mathlib.Algebra.GroupWithZero.Nat

/-! # Maps with ordered keys

The entries of a map stand in the order of their keys, as an iteration over it meets them. -/
namespace Tomii
set_option autoImplicit false
set_option maxHeartbeats 250000

structure OrderedMap (K V : Type) [LinearOrder K] where
  entries : List (K × V)
  sorted : entries.Pairwise fun p q => p.1 < q.1

namespace OrderedMap

variable {K V : Type} [LinearOrder K]

instance : EmptyCollection (OrderedMap K V) := ⟨⟨[], .nil⟩⟩

/-! ## Operations -/

def get? (m : OrderedMap K V) (k : K) : Option V := m.entries.lookup k

def lastKey? (m : OrderedMap K V) : Option K := m.entries.getLast?.map Prod.fst

/-- The keys below a bound, in order. -/
def keysBelow (m : OrderedMap K V) (bound : K) : List K :=
  (m.entries.filter fun p => p.1 < bound).map Prod.fst

def erase (m : OrderedMap K V) (k : K) : OrderedMap K V where
  entries := m.entries.filter fun p => p.1 ≠ k
  sorted := m.sorted.filter _

/-- The entry of `k` becomes what `f` makes of it. -/
def alterEntries (k : K) (f : Option V → V) : List (K × V) → List (K × V)
  | [] => [(k, f none)]
  | (k', v) :: rest =>
    if k < k' then (k, f none) :: (k', v) :: rest
    else if k' < k then (k', v) :: alterEntries k f rest
    else (k, f (some v)) :: rest

theorem key_of_mem_alterEntries {k : K} {f : Option V → V} {entries : List (K × V)} {p : K × V}
    (h : p ∈ alterEntries k f entries) : p.1 = k ∨ p ∈ entries := by
  induction entries with
  | nil => exact .inl (congrArg Prod.fst (List.mem_singleton.mp h))
  | cons q rest ih =>
    unfold alterEntries at h
    split at h
    · rcases List.mem_cons.mp h with rfl | h
      · exact .inl rfl
      · exact .inr h
    · split at h
      · rcases List.mem_cons.mp h with rfl | h
        · exact .inr List.mem_cons_self
        · exact (ih h).imp_right (List.mem_cons_of_mem _)
      · rcases List.mem_cons.mp h with rfl | h
        · exact .inl rfl
        · exact .inr (List.mem_cons_of_mem _ h)

theorem sorted_alterEntries {k : K} {f : Option V → V} {entries : List (K × V)}
    (h : entries.Pairwise fun p q => p.1 < q.1) :
    (alterEntries k f entries).Pairwise fun p q => p.1 < q.1 := by
  induction entries with
  | nil => exact List.pairwise_singleton _ _
  | cons p rest ih =>
    obtain ⟨hhead, htail⟩ := List.pairwise_cons.mp h
    unfold alterEntries
    split
    · next hlt =>
      refine List.pairwise_cons.mpr ⟨fun q hq => ?_, h⟩
      rcases List.mem_cons.mp hq with rfl | hq
      · exact hlt
      · exact hlt.trans (hhead q hq)
    · next hge =>
      split
      · next hlt =>
        refine List.pairwise_cons.mpr ⟨fun q hq => ?_, ih htail⟩
        rcases key_of_mem_alterEntries hq with hkey | hq
        · exact hkey ▸ hlt
        · exact hhead q hq
      · next hle =>
        obtain rfl : p.1 = k := le_antisymm (not_lt.mp hge) (not_lt.mp hle)
        exact List.pairwise_cons.mpr ⟨hhead, htail⟩

def alter (m : OrderedMap K V) (k : K) (f : Option V → V) : OrderedMap K V where
  entries := alterEntries k f m.entries
  sorted := sorted_alterEntries m.sorted

/-- The sizes of all values together. -/
def total (m : OrderedMap K V) (size : V → ℕ) : ℕ := (m.entries.map fun p => size p.2).sum

/-! ## Reading back -/

theorem lookup_cons_of_eq {p : K × V} {rest : List (K × V)} {k : K} (h : k = p.1) :
    (p :: rest).lookup k = some p.2 := by
  rw [List.lookup_cons, beq_iff_eq.mpr h]

theorem lookup_cons_of_ne {p : K × V} {rest : List (K × V)} {k : K} (h : k ≠ p.1) :
    (p :: rest).lookup k = rest.lookup k := by
  rw [List.lookup_cons, beq_eq_false_iff_ne.mpr h]

/-- A key before all others is not there. -/
theorem lookup_of_lt {p : K × V} {rest : List (K × V)} {k : K}
    (h : (p :: rest).Pairwise fun p q => p.1 < q.1) (hlt : k < p.1) :
    (p :: rest).lookup k = none := by
  rw [List.lookup_eq_none_iff]
  intro q hq
  rcases List.mem_cons.mp hq with rfl | hq
  · exact bne_iff_ne.mpr hlt.ne
  · exact bne_iff_ne.mpr (hlt.trans ((List.pairwise_cons.mp h).1 q hq)).ne

theorem lookup_filter {entries : List (K × V)} {k k' : K} :
    (entries.filter fun p => p.1 ≠ k).lookup k' = if k' = k then none else entries.lookup k' := by
  induction entries with
  | nil => simp
  | cons p rest ih =>
    by_cases hp : p.1 = k
    · rw [List.filter_cons_of_neg (by simpa using hp), ih]
      split
      · rfl
      · next hne => rw [lookup_cons_of_ne fun h => hne (h.trans hp)]
    · rw [List.filter_cons_of_pos (by simpa using hp)]
      by_cases hk : k' = p.1
      · have hne : k' ≠ k := fun h => hp (hk.symm.trans h)
        rw [lookup_cons_of_eq hk, lookup_cons_of_eq hk, if_neg hne]
      · rw [lookup_cons_of_ne hk, lookup_cons_of_ne hk, ih]

theorem get?_erase (m : OrderedMap K V) (k k' : K) :
    (m.erase k).get? k' = if k' = k then none else m.get? k' :=
  lookup_filter

theorem lookup_alterEntries {k k' : K} {f : Option V → V} {entries : List (K × V)}
    (h : entries.Pairwise fun p q => p.1 < q.1) :
    (alterEntries k f entries).lookup k' =
      if k' = k then some (f (entries.lookup k)) else entries.lookup k' := by
  induction entries with
  | nil =>
    by_cases hk : k' = k
    · rw [alterEntries, lookup_cons_of_eq hk, if_pos hk]
      rfl
    · rw [alterEntries, lookup_cons_of_ne hk, if_neg hk]
  | cons p rest ih =>
    unfold alterEntries
    split
    · next hlt =>
      rw [lookup_of_lt h hlt]
      by_cases hk : k' = k
      · rw [lookup_cons_of_eq hk, if_pos hk]
      · rw [lookup_cons_of_ne hk, if_neg hk]
    · next hge =>
      split
      · next hlt =>
        rw [lookup_cons_of_ne (k := k) hlt.ne']
        by_cases hk : k' = p.1
        · have hne : k' ≠ k := fun h => hlt.ne (hk.symm.trans h)
          rw [lookup_cons_of_eq hk, lookup_cons_of_eq hk, if_neg hne]
        · rw [lookup_cons_of_ne hk, lookup_cons_of_ne hk, ih (List.pairwise_cons.mp h).2]
      · next hle =>
        obtain rfl : p.1 = k := le_antisymm (not_lt.mp hge) (not_lt.mp hle)
        have hself : (p :: rest).lookup p.1 = some p.2 := lookup_cons_of_eq rfl
        rw [hself]
        by_cases hk : k' = p.1
        · rw [if_pos hk]
          exact lookup_cons_of_eq hk
        · rw [if_neg hk, lookup_cons_of_ne hk]
          exact lookup_cons_of_ne hk

theorem get?_alter (m : OrderedMap K V) (k k' : K) (f : Option V → V) :
    (m.alter k f).get? k' = if k' = k then some (f (m.get? k)) else m.get? k' :=
  lookup_alterEntries m.sorted

theorem get?_eq_some {m : OrderedMap K V} {k : K} {v : V} :
    m.get? k = some v ↔ (k, v) ∈ m.entries := by
  obtain ⟨entries, hsorted⟩ := m
  show entries.lookup k = some v ↔ (k, v) ∈ entries
  induction entries with
  | nil => simp
  | cons p rest ih =>
    obtain ⟨hhead, htail⟩ := List.pairwise_cons.mp hsorted
    rw [List.mem_cons]
    by_cases hk : k = p.1
    · rw [lookup_cons_of_eq hk]
      have hrest : (k, v) ∉ rest := fun hin => (hhead _ hin).ne hk.symm
      rw [or_iff_left hrest, Option.some_inj, Prod.ext_iff]
      exact ⟨fun h => ⟨hk, h.symm⟩, fun h => h.2.symm⟩
    · rw [lookup_cons_of_ne hk, ih htail, or_iff_right]
      rintro rfl
      exact hk rfl

theorem mem_keysBelow {m : OrderedMap K V} {bound k : K} :
    k ∈ m.keysBelow bound ↔ k < bound ∧ (m.get? k).isSome := by
  simp only [keysBelow, List.mem_map, List.mem_filter, decide_eq_true_eq, Option.isSome_iff_exists,
    get?_eq_some]
  constructor
  · rintro ⟨p, ⟨hp, hlt⟩, rfl⟩
    exact ⟨hlt, p.2, hp⟩
  · rintro ⟨hlt, v, hv⟩
    exact ⟨(k, v), ⟨hv, hlt⟩, rfl⟩

theorem keysBelow_nodup (m : OrderedMap K V) (bound : K) : (m.keysBelow bound).Nodup := by
  refine List.pairwise_map.mpr ((m.sorted.filter _).imp fun hlt => hlt.ne)

/-! ## The greatest key -/

theorem lastKey?_eq_none {m : OrderedMap K V} (h : m.lastKey? = none) (k : K) :
    m.get? k = none := by
  have hnil : m.entries = [] := List.getLast?_eq_none_iff.mp (Option.map_eq_none_iff.mp h)
  rw [get?, hnil, List.lookup_nil]

theorem lastKey?_eq_some {m : OrderedMap K V} {last : K} (h : m.lastKey? = some last) :
    (m.get? last).isSome ∧ ∀ k, (m.get? k).isSome → k ≤ last := by
  obtain ⟨p, hp, rfl⟩ := Option.map_eq_some_iff.mp h
  obtain ⟨init, hinit⟩ := List.getLast?_eq_some_iff.mp hp
  have hsorted := m.sorted
  rw [hinit, List.pairwise_append] at hsorted
  constructor
  · refine Option.isSome_iff_exists.mpr ⟨p.2, get?_eq_some.mpr ?_⟩
    rw [hinit]
    exact List.mem_append_right _ List.mem_cons_self
  · intro k hk
    obtain ⟨v, hv⟩ := Option.isSome_iff_exists.mp hk
    have hmem := get?_eq_some.mp hv
    rw [hinit, List.mem_append, List.mem_singleton] at hmem
    rcases hmem with hmem | heq
    · exact (hsorted.2.2 _ hmem p List.mem_cons_self).le
    · exact (congrArg Prod.fst heq).le

/-! ## Sizes -/

theorem total_erase (m : OrderedMap K V) (size : V → ℕ) (k : K) :
    (m.erase k).total size + (m.get? k).elim 0 size = m.total size := by
  obtain ⟨entries, hsorted⟩ := m
  show ((entries.filter fun p => p.1 ≠ k).map fun p => size p.2).sum +
    (entries.lookup k).elim 0 size = (entries.map fun p => size p.2).sum
  induction entries with
  | nil => rfl
  | cons p rest ih =>
    obtain ⟨hhead, htail⟩ := List.pairwise_cons.mp hsorted
    rw [List.map_cons, List.sum_cons]
    by_cases hk : k = p.1
    · have hall : (rest.filter fun q => q.1 ≠ k) = rest :=
        List.filter_eq_self.mpr fun q hq => decide_eq_true (hk ▸ (hhead q hq).ne')
      rw [List.filter_cons_of_neg (by simpa using hk.symm), hall, lookup_cons_of_eq hk]
      exact Nat.add_comm _ _
    · rw [List.filter_cons_of_pos (by simpa using Ne.symm hk), lookup_cons_of_ne hk,
        List.map_cons, List.sum_cons, Nat.add_assoc, ih htail]

theorem total_alter (m : OrderedMap K V) (size : V → ℕ) (k : K) (f : Option V → V) :
    (m.alter k f).total size + (m.get? k).elim 0 size = m.total size + size (f (m.get? k)) := by
  obtain ⟨entries, hsorted⟩ := m
  show ((alterEntries k f entries).map fun p => size p.2).sum + (entries.lookup k).elim 0 size =
    (entries.map fun p => size p.2).sum + size (f (entries.lookup k))
  induction entries with
  | nil => simp [alterEntries]
  | cons p rest ih =>
    unfold alterEntries
    split
    · next hlt =>
      rw [lookup_of_lt hsorted hlt, List.map_cons, List.sum_cons]
      exact Nat.add_comm (size (f none)) _
    · next hge =>
      split
      · next hlt =>
        rw [lookup_cons_of_ne hlt.ne', List.map_cons, List.sum_cons, List.map_cons, List.sum_cons,
          Nat.add_assoc, Nat.add_assoc, ih (List.pairwise_cons.mp hsorted).2]
      · next hle =>
        obtain rfl : p.1 = k := le_antisymm (not_lt.mp hge) (not_lt.mp hle)
        rw [lookup_cons_of_eq rfl, List.map_cons, List.sum_cons, List.map_cons, List.sum_cons]
        simp only [Option.elim_some]
        omega

end OrderedMap

end Tomii
