import Tomii.Foundations.MachineWord
import Mathlib.Data.List.Dedup

/-! # Graph nodes (`graph_struct.rs`)

Nodes, arguments and predecessor references, and the pure predicates on them that the
counting side and the routing side share. -/
namespace Tomii
set_option autoImplicit false
set_option maxHeartbeats 250000

/-- The `CmTypes` of an argument, as far as routing reads it. -/
inductive ArgType where
  | res
  | dep
  | barrier
  | ref
  | value
deriving DecidableEq, Repr

structure Predecessor where
  id : ℕ
  indexes : List ℤ
  groupBy : Option ℕ
deriving DecidableEq, Repr

structure Arg where
  type : ArgType
  /-- `init_condition.is_some()` -/
  initCondition : Bool
  predecessor : Option Predecessor
deriving DecidableEq, Repr

structure Node where
  /-- `name == "$network"` -/
  isNetwork : Bool
  id : ℕ
  args : List Arg
  factor : ℕ
  groupSize : Option ℕ
  /-- `condition.is_some()` -/
  condition : Bool
deriving DecidableEq, Repr

/-! ## Index arithmetic -/

/-- A sum of two `isize` values, which wraps. -/
def wrapIsize (i : ℤ) : ℤ := Int.bmod i (2 ^ 64)

/-- `find_pred_index`: the remainder is truncated and then cast; a zero factor panics. -/
def findPredIndex (nodeIdx : ℕ) (predIdx : ℤ) (predFactor : ℕ) : Option ℕ :=
  if predFactor = 0 then none
  else some (isizeAsUsize (Int.tmod (wrapIsize (nodeIdx + predIdx)) predFactor))

namespace Predecessor

/-- `index_filter`: the casts and the range length wrap in 64 bits. -/
def indexFilter (p : Predecessor) (predFactor succFactor : ℕ) : Option (ℕ × ℕ) :=
  match p.indexes.min?, p.indexes.max? with
  | some lo, some hi =>
    let minIdx := isizeAsUsize lo
    let maxIdx := isizeAsUsize hi
    let rangeLen := (wrappingSub maxIdx minIdx + 1) % 2 ^ 64
    let shouldFilter := p.groupBy.isSome ∨
      (rangeLen < predFactor ∧ rangeLen = p.indexes.length ∧
        (rangeLen = succFactor ∨ succFactor = 1))
    if shouldFilter then some (minIdx, (maxIdx + 1) % 2 ^ 64) else none
  | _, _ => none

/-- `contributing_instances` -/
def contributingInstances (p : Predecessor) (predFactor succFactor : ℕ) : ℕ :=
  if (p.indexFilter predFactor succFactor).isSome then p.indexes.length else predFactor

end Predecessor

/-- Index lists that `parse_predecessor` can produce: comma lists of any integers, ranges, and
a lone index, which is never negative. -/
def ParsedIndexes (indexes : List ℤ) : Prop := ∀ i, indexes = [i] → 0 ≤ i

instance (indexes : List ℤ) : Decidable (ParsedIndexes indexes) :=
  match indexes with
  | [] => .isTrue (by simp [ParsedIndexes])
  | [i] => decidable_of_iff (0 ≤ i) (by simp [ParsedIndexes])
  | _ :: _ :: _ => .isTrue (by simp [ParsedIndexes])

/-! ## Arguments of a node -/

namespace Arg

def isBarrier (a : Arg) : Bool := a.type = .barrier

def isResult (a : Arg) : Bool := a.type = .res

def isCondition (a : Arg) : Bool := a.initCondition

/-- `a.predecessor.as_ref().is_some_and(|p| p.id == pred_id)` -/
def reads (a : Arg) (predId : ℕ) : Bool := a.predecessor.any (·.id = predId)

/-- The argument with its reference, when that is to `predId`. -/
def onPred (predId : ℕ) (a : Arg) : Option (Arg × Predecessor) :=
  a.predecessor.bind fun p => if p.id = predId then some (a, p) else none

theorem onPred_eq_some {predId : ℕ} {a : Arg} {q : Arg × Predecessor} :
    a.onPred predId = some q ↔ q.1 = a ∧ a.predecessor = some q.2 ∧ q.2.id = predId := by
  obtain ⟨b, r⟩ := q
  unfold onPred
  cases a.predecessor with
  | none => simp
  | some p =>
    by_cases hid : p.id = predId
    · simp only [Option.bind_some, if_pos hid, Option.some.injEq, Prod.mk.injEq]
      constructor
      · rintro ⟨rfl, rfl⟩
        exact ⟨rfl, rfl, hid⟩
      · rintro ⟨rfl, rfl, -⟩
        exact ⟨rfl, rfl⟩
    · simp only [Option.bind_some, if_neg hid, reduceCtorEq, Option.some.injEq, false_iff]
      rintro ⟨rfl, rfl, hbad⟩
      exact hid hbad

end Arg

namespace Node

variable (node : Node)

/-- The predecessor references of the arguments on `predId`, with their arguments. -/
def argsOnPred (predId : ℕ) : List (Arg × Predecessor) :=
  node.args.filterMap (Arg.onPred predId)

/-- Distinct predecessors; the loops of the source visit each once. -/
def predIds : List ℕ := (node.args.filterMap fun a => a.predecessor.map (·.id)).dedup

/-- `pred_is_ambiguous_multi_arg`: differing arguments on one predecessor, no barrier. -/
def predIsAmbiguousMultiArg (predId : ℕ) : Bool :=
  match node.argsOnPred predId with
  | [] => false
  | [_] => false
  | (a, first) :: rest =>
    !((a, first) :: rest).any (·.1.isBarrier) &&
      rest.any fun q => q.2.indexes ≠ first.indexes || q.2.groupBy ≠ first.groupBy

/-- `node_has_ambiguous_multi_res_args` -/
def hasAmbiguousMultiResArgs : Bool := node.predIds.any node.predIsAmbiguousMultiArg

/-- The `has_barrier` of `NodeDepMap::new` and of `ResPredCache`. -/
def hasBarrier : Bool := node.args.any (·.isBarrier) || node.hasAmbiguousMultiResArgs

/-- `Graph::has_condition(&node.args) || node.condition.is_some()` -/
def carriesCondition : Bool := node.args.any (·.isCondition) || node.condition

/-- Every reference of the node has an index list the loader can read. -/
def Parsed : Prop := ∀ a ∈ node.args, ∀ p ∈ a.predecessor, ParsedIndexes p.indexes

instance : Decidable node.Parsed :=
  inferInstanceAs (Decidable (∀ a ∈ node.args, ∀ p ∈ a.predecessor, ParsedIndexes p.indexes))

theorem mem_predIds {predId : ℕ} :
    predId ∈ node.predIds ↔ ∃ a ∈ node.args, ∃ p, a.predecessor = some p ∧ p.id = predId := by
  simp [predIds]

theorem predIds_nodup : node.predIds.Nodup := List.nodup_dedup _

theorem mem_argsOnPred {predId : ℕ} {q : Arg × Predecessor} :
    q ∈ node.argsOnPred predId ↔
      q.1 ∈ node.args ∧ q.1.predecessor = some q.2 ∧ q.2.id = predId := by
  simp only [argsOnPred, List.mem_filterMap, Arg.onPred_eq_some]
  constructor
  · rintro ⟨a, ha, rfl, hp, hid⟩
    exact ⟨ha, hp, hid⟩
  · rintro ⟨ha, hp, hid⟩
    exact ⟨q.1, ha, rfl, hp, hid⟩

theorem argsOnPred_ne_nil {predId : ℕ} : node.argsOnPred predId ≠ [] ↔ predId ∈ node.predIds := by
  rw [mem_predIds]
  constructor
  · intro h
    obtain ⟨q, hq⟩ := List.exists_mem_of_ne_nil _ h
    obtain ⟨ha, hp, hid⟩ := (node.mem_argsOnPred).mp hq
    exact ⟨q.1, ha, q.2, hp, hid⟩
  · rintro ⟨a, ha, p, hp, hid⟩
    exact List.ne_nil_of_mem ((node.mem_argsOnPred (q := (a, p))).mpr ⟨ha, hp, hid⟩)

end Node

end Tomii
