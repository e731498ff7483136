import Tomii.Graph.Build

/-! # Routing tables and successor edges

`build_predecessor_tables` (`runtime/init.rs`) as one row of three tables for each
(successor, predecessor) pair, and `SuccEdge` (`runtime/successor_arena.rs`), the same row
narrowed to 32-bit fields. -/
namespace Tomii
set_option autoImplicit false
set_option maxHeartbeats 250000

/-- `pred_index_filter`, `pred_group_by` and `pred_succ_1to1_offset` at `[succ][pred]`. -/
structure Route where
  filter : Option (ℕ × ℕ)
  groupBy : Option ℕ
  oneToOneOffset : Option ℤ
deriving DecidableEq, Repr

/-- `indexes.windows(2).all(|w| w[1] == w[0] + 1)` -/
def isContiguous : List ℤ → Bool
  | [] => true
  | [_] => true
  | i :: j :: rest => j = i + 1 && isContiguous (j :: rest)

namespace Graph

variable (g : Graph) (range1to1Enabled : Bool) (succ : Node) (predId : ℕ)

/-- The first barrier on `predId` whose `group_by` is effective. -/
def groupedBarrier : Option (Predecessor × ℕ) :=
  (succ.argsOnPred predId).findSome? fun q =>
    if q.1.isBarrier then (g.barrierGroupByForDependency succ q.2).map (q.2, ·) else none

/-- Routing from one argument: the only one, or one of several identical ones. -/
def routeSingle (arg : Arg) (pred : Predecessor) : Route :=
  let predFactor := g.factorOf predId
  let single1to1 := pred.indexes.length = 1 ∧ succ.factor = predFactor
  let contiguousRange1to1 :=
    range1to1Enabled = true ∧ pred.indexes.length = succ.factor ∧ isContiguous pred.indexes = true
  { filter := pred.indexFilter predFactor succ.factor
    groupBy := none
    oneToOneOffset :=
      if arg.isBarrier = false ∧ pred.groupBy = none ∧ (single1to1 ∨ contiguousRange1to1) ∧
          1 < succ.factor then pred.indexes.head?
      else none }

/-- The row of `succ` for one of its predecessors. -/
def route : Route :=
  let predFactor := g.factorOf predId
  match g.groupedBarrier succ predId with
  | some (pred, gb) => ⟨pred.indexFilter predFactor succ.factor, some gb, none⟩
  | none =>
    match succ.argsOnPred predId with
    | [] => ⟨none, none, none⟩
    | (arg, first) :: rest =>
      if rest.all fun q => q.2.indexes = first.indexes && q.2.groupBy = first.groupBy then
        g.routeSingle range1to1Enabled succ predId arg first
      else if ((arg, first) :: rest).any (·.1.isBarrier) &&
          !(unionPredIndexes succ predId).any (· < 0) then
        ⟨(unionPred succ predId).indexFilter predFactor succ.factor, none, none⟩
      else ⟨none, none, none⟩

end Graph

/-! ## Successor edges -/

/-- `k as i32` -/
def isizeAsI32 (k : ℤ) : ℤ := Int.bmod k (2 ^ 32)

/-- One precomputed edge; `filterEnd = u32::MAX` and `groupBy = 0` are the sentinels. -/
structure SuccEdge where
  succId : ℕ
  hasCondition : Bool
  isFanoutBulk : Bool
  succFactor : UInt32
  filterStart : UInt32
  filterEnd : UInt32
  groupBy : UInt32
  oneToOneOffset : ℤ
  hasOneToOne : Bool
deriving DecidableEq

def noFilter : UInt32 := UInt32.ofNat (2 ^ 32 - 1)

def noGroup : UInt32 := 0

namespace SuccEdge

variable (e : SuccEdge)

def passesFilter (predIndex : ℕ) : Bool :=
  e.filterEnd = noFilter ||
    (e.filterStart.toNat ≤ predIndex && predIndex < e.filterEnd.toNat)

def filterBounds : Option (ℕ × ℕ) :=
  if e.filterEnd = noFilter then none else some (e.filterStart.toNat, e.filterEnd.toNat)

/-- `pred_group`: the index relative to the start of the filter, divided by the divisor. -/
def predGroup (predIndex : ℕ) : Option ℕ :=
  if e.groupBy = noGroup then none
  else some (wrappingSub predIndex e.filterStart.toNat / e.groupBy.toNat)

def isOneToOne : Bool := e.hasOneToOne

/-- `(pred_index - offset).rem_euclid(factor)` for a 1:1 edge. -/
def oneToOneSuccIdx (predIndex : ℕ) : Option ℕ :=
  if e.hasOneToOne then
    some ((predIndex - e.oneToOneOffset) % (e.succFactor.toNat : ℤ)).toNat
  else none

/-- The join of `SuccessorArena::build` for one (successor, predecessor) pair. -/
def ofRoute (succId factor : ℕ) (isCondition isFanoutBulk : Bool) (r : Route) : SuccEdge where
  succId := succId
  hasCondition := isCondition
  isFanoutBulk := isFanoutBulk
  succFactor := asU32 factor
  filterStart := (r.filter.map fun b => asU32 b.1).getD 0
  filterEnd := (r.filter.map fun b => asU32 b.2).getD noFilter
  groupBy := (r.groupBy.map asU32).getD noGroup
  oneToOneOffset := (r.oneToOneOffset.map isizeAsI32).getD 0
  hasOneToOne := r.oneToOneOffset.isSome

end SuccEdge

end Tomii
