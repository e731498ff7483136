import Mathlib.Data.List.Induction

/-! # Rows in one array

Rows stored one after another, with the window of each kept beside them. The bounds of a
window are kept narrowed; they are read back as they were while the array stays small. -/
namespace Tomii
set_option autoImplicit false
set_option maxHeartbeats 250000

/-- The cells of all rows, and where each row starts and ends. -/
structure FlatRows (α : Type) where
  cells : List α
  windows : List (ℕ × ℕ)

/-- `cells[start..end]`; a window out of order or past the end has no slice. -/
def sliceOf {α : Type} (cells : List α) (w : ℕ × ℕ) : Option (List α) :=
  if w.1 ≤ w.2 ∧ w.2 ≤ cells.length then some ((cells.drop w.1).take (w.2 - w.1)) else none

theorem length_flatten_le {α : Type} {rows : List (List α)} {n : ℕ}
    (h : ∀ row ∈ rows, row.length ≤ n) : rows.flatten.length ≤ rows.length * n := by
  induction rows with
  | nil => simp
  | cons row rows ih =>
    obtain ⟨hrow, hrows⟩ := List.forall_mem_cons.mp h
    have hrest := ih hrows
    simp only [List.flatten_cons, List.length_append, List.length_cons, Nat.add_mul, Nat.one_mul]
    omega

namespace FlatRows

variable {α : Type} (narrow : ℕ → ℕ)

/-- One more row behind the others. -/
def push (f : FlatRows α) (row : List α) : FlatRows α where
  cells := f.cells ++ row
  windows := f.windows ++ [(narrow f.cells.length, narrow (f.cells.length + row.length))]

def ofRows (rows : List (List α)) : FlatRows α := rows.foldl (push narrow) ⟨[], []⟩

/-- The cells of row `i`; a row that was never pushed is empty. -/
def row (f : FlatRows α) (i : ℕ) : Option (List α) :=
  match f.windows[i]? with
  | some w => sliceOf f.cells w
  | none => some []

theorem ofRows_concat (rows : List (List α)) (row : List α) :
    ofRows narrow (rows ++ [row]) = (ofRows narrow rows).push narrow row := by
  rw [ofRows, List.foldl_append]
  rfl

theorem cells_ofRows (rows : List (List α)) : (ofRows narrow rows).cells = rows.flatten := by
  induction rows using List.reverseRecOn with
  | nil => rfl
  | append_singleton rows row ih => simp [ofRows_concat, push, ih]

theorem length_windows_ofRows (rows : List (List α)) :
    (ofRows narrow rows).windows.length = rows.length := by
  induction rows using List.reverseRecOn with
  | nil => rfl
  | append_singleton rows row ih => simp [ofRows_concat, push, ih]

theorem sliceOf_append_left {cells more : List α} {w : ℕ × ℕ} {l : List α}
    (h : sliceOf cells w = some l) : sliceOf (cells ++ more) w = some l := by
  unfold sliceOf at h ⊢
  split at h
  · next hw =>
    have hw' : w.1 ≤ w.2 ∧ w.2 ≤ (cells ++ more).length := by
      simp only [List.length_append]
      omega
    rw [if_pos hw', List.drop_append_of_le_length (by omega), List.take_append_of_le_length
      (by simp only [List.length_drop]; omega)]
    exact h
  · cases h

theorem sliceOf_append_right (cells more : List α) :
    sliceOf (cells ++ more) (cells.length, cells.length + more.length) = some more := by
  unfold sliceOf
  rw [if_pos (by simp)]
  simp

/-- Each row is read back while the narrowing keeps every place of the array. -/
theorem row_ofRows {rows : List (List α)} (h : ∀ n ≤ rows.flatten.length, narrow n = n) (i : ℕ) :
    (ofRows narrow rows).row i = some (rows[i]?.getD []) := by
  induction rows using List.reverseRecOn with
  | nil => rfl
  | append_singleton rows row ih =>
    simp only [List.flatten_append, List.flatten_singleton, List.length_append] at h
    have hcells := cells_ofRows narrow rows
    have hlen := length_windows_ofRows narrow rows
    rw [ofRows_concat]
    rcases Nat.lt_trichotomy i rows.length with hlt | heq | hgt
    · have hi : i < (ofRows narrow rows).windows.length := by omega
      have hold := ih fun n hn => h n (by omega)
      have hrow : (rows ++ [row])[i]? = rows[i]? := List.getElem?_append_left hlt
      rw [hrow, ← hold]
      have hsome := List.getElem?_eq_getElem hi
      simp only [FlatRows.row, hsome] at hold
      simp only [FlatRows.row, push, List.getElem?_append_left hi, hsome, hold]
      exact sliceOf_append_left hold
    · subst heq
      have hnew : ((ofRows narrow rows).push narrow row).windows[rows.length]? =
          some (rows.flatten.length, rows.flatten.length + row.length) := by
        rw [push, ← hlen, List.getElem?_concat_length, hcells, h _ (by omega), h _ (by omega)]
      have hall : ((ofRows narrow rows).push narrow row).cells = rows.flatten ++ row := by
        rw [push, hcells]
      rw [FlatRows.row, hnew, hall, List.getElem?_concat_length]
      exact sliceOf_append_right _ _
    · have hnone : ((ofRows narrow rows).push narrow row).windows[i]? = none :=
        List.getElem?_eq_none (by simp [push, hlen]; omega)
      have hpast : (rows ++ [row])[i]? = none := List.getElem?_eq_none (by simp; omega)
      simp only [FlatRows.row, hnone, hpast, Option.getD_none]

end FlatRows

end Tomii
