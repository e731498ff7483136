import Tomii.Runtime.Tables

/-! # Decrementing along an edge (`runtime/successor.rs`)

A completion of the instances `start .. start + count` makes a list of counter calls on the
successor's entry; `decrementAndCollectReady` runs them in order. -/
namespace Tomii
set_option autoImplicit false
set_option maxHeartbeats 250000

/-- `filter_overlap` -/
def filterOverlap (predIndex count filterLo filterHi : ℕ) : Option (ℕ × ℕ) :=
  let lo := max predIndex filterLo
  let hi := min (min (predIndex + max count 1) (2 ^ 64 - 1)) filterHi
  if lo < hi then some (lo, hi) else none

namespace SuccEdge

variable (e : SuccEdge)

/-- The decrement of one covered instance. -/
def cellCall (cell : ℕ) : DepCall := ⟨e.predGroup cell, 1, e.oneToOneSuccIdx cell⟩

/-- The calls `decrement_and_collect_ready` makes for `bulkCount` instances from `predIndex`. -/
def calls (predIndex bulkCount : ℕ) : List DepCall :=
  match e.filterBounds with
  | none =>
    [⟨e.predGroup predIndex, bulkCount,
      if 1 < bulkCount then none else e.oneToOneSuccIdx predIndex⟩]
  | some (filterLo, filterHi) =>
    match filterOverlap predIndex bulkCount filterLo filterHi with
    | none => []
    | some (lo, hi) => (List.range' lo (hi - lo)).map e.cellCall

end SuccEdge

section Calls

variable {S : Type} (dec : DepCall → S → List ℕ × S)

/-- Run calls in order; `ready` accumulates across them. -/
def runCalls : List DepCall → S → List ℕ × S
  | [], s => ([], s)
  | c :: cs, s =>
    let (ready, s') := dec c s
    let (rest, s'') := runCalls cs s'
    (ready ++ rest, s'')

/-- `decrement_and_collect_ready`, over the counter call of the successor's entry. -/
def decrementAndCollectReady (e : SuccEdge) (predIndex bulkCount : ℕ) (s : S) : List ℕ × S :=
  runCalls dec (e.calls predIndex bulkCount) s

@[simp] theorem runCalls_nil (s : S) : runCalls dec [] s = ([], s) := rfl

@[simp] theorem runCalls_cons (c : DepCall) (cs : List DepCall) (s : S) :
    runCalls dec (c :: cs) s =
      ((dec c s).1 ++ (runCalls dec cs (dec c s).2).1, (runCalls dec cs (dec c s).2).2) := rfl

theorem runCalls_append (cs ds : List DepCall) (s : S) :
    runCalls dec (cs ++ ds) s =
      ((runCalls dec cs s).1 ++ (runCalls dec ds (runCalls dec cs s).2).1,
        (runCalls dec ds (runCalls dec cs s).2).2) := by
  induction cs generalizing s with
  | nil => rfl
  | cons c cs ih => simp only [List.cons_append, runCalls_cons, ih, List.append_assoc]

end Calls

end Tomii
