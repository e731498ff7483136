import Tomii.Graph.Struct
import Tomii.Types.LiteralParsers

/-! # Index texts of predecessors (`graph_gen.rs`)

`parse_predecessor` reads a comma list, a range or a single offset. A numeral comes before an object
of the same name. -/
namespace Tomii.Indexes
open Types
set_option autoImplicit false
set_option maxHeartbeats 250000

/-! ## Init objects -/

/-- The value of an init object, as far as an index reads it. -/
inductive ObjectValue where
  | int (k : IntType) (n : k.Value)
  | other

namespace ObjectValue

/-- `valid_number_to_usize`, which has no case for `isize`. -/
def validNumberToUsize : ObjectValue → Option ℕ
  | .int k n =>
    if k = .isize then none else if 0 ≤ n.val then some (n.val % 2 ^ 64).toNat else none
  | .other => none

/-- The non-negative integer that the value is. -/
def number : ObjectValue → Option ℤ
  | .int _ n => if 0 ≤ n.val then some n.val else none
  | .other => none

theorem number_of_usize {v : ObjectValue} {n : ℕ} (h : v.validNumberToUsize = some n) :
    ∃ m : ℤ, v.number = some m ∧ (n : ℤ) = m % 2 ^ 64 := by
  cases v with
  | other => cases h
  | int k m =>
    simp only [validNumberToUsize] at h
    split at h
    · cases h
    · split at h
      · next hpos =>
        obtain rfl := Option.some.inj h
        exact ⟨m.val, if_pos hpos, Int.toNat_of_nonneg (Int.emod_nonneg _ (by decide))⟩
      · cases h

end ObjectValue

structure InitObjects where
  objIdMap : List (Text × ℕ)
  objects : List (List ObjectValue)

/-- An error of the loader, or a panic. -/
inductive LoadFailure where
  | error (details : Text)
  | panic
deriving DecidableEq, Repr

namespace InitObjects

variable (env : InitObjects)

/-- `init_objects[id][0]` -/
def firstValue (id : ℕ) : Option ObjectValue := env.objects[id]?.bind List.head?

def namedUsize (name : Text) : Option ℕ :=
  (env.objIdMap.lookup name).bind fun id => (env.firstValue id).bind ObjectValue.validNumberToUsize

def namedNumber (name : Text) : Option ℤ :=
  (env.objIdMap.lookup name).bind fun id => (env.firstValue id).bind ObjectValue.number

/-- The name has an id, but no value. -/
def Dangling (name : Text) : Prop :=
  ∃ id, env.objIdMap.lookup name = some id ∧ env.firstValue id = none

end InitObjects

/-! ## The parser -/

/-- `str::parse::<isize>` -/
def parseIsize (s : Text) : Option ℤ := (parseInt .isize s).map (·.val)

/-- An object as an index; `as isize` wraps. -/
def namedIndex (env : InitObjects) (name unknown notNumber : Text) : Except LoadFailure ℤ :=
  match env.objIdMap.lookup name with
  | none => .error (.error unknown)
  | some id =>
    match env.firstValue id with
    | none => .error .panic
    | some value =>
      match value.validNumberToUsize with
      | none => .error (.error notNumber)
      | some n => .ok (wrapIsize n)

/-- A numeral, or else an object. -/
def literalOrNamed (env : InitObjects) (literal : ℤ → ℤ) (unknown notNumber s : Text) :
    Except LoadFailure ℤ :=
  match parseIsize s with
  | some val => .ok (literal val)
  | none => namedIndex env s unknown notNumber

def invalidIn (what s predName : Text) : Text :=
  "Invalid ".toList ++ what ++ " '".toList ++ s ++ "' in predecessor '".toList ++ predName ++
    "'".toList

def notNonNegative (what s : Text) : Text :=
  what ++ " '".toList ++ s ++ "' is not a valid non-negative integer".toList

def rangeStart (env : InitObjects) (predName s : Text) : Except LoadFailure ℤ :=
  literalOrNamed env id (invalidIn "range start".toList s predName)
    (notNonNegative "Range start".toList s) s

/-- A numeric end is inclusive; the sum wraps in a build without overflow checks. -/
def rangeEnd (env : InitObjects) (predName s : Text) : Except LoadFailure ℤ :=
  literalOrNamed env (fun val => wrapIsize (val + 1)) (invalidIn "range end".toList s predName)
    (notNonNegative "Range end".toList s) s

def singleIndex (env : InitObjects) (predName s : Text) : Except LoadFailure ℤ :=
  literalOrNamed env id (invalidIn "index".toList s predName)
    (notNonNegative "Index ref".toList s) s

def listItem (predName item : Text) : Except LoadFailure ℤ :=
  match parseIsize (trim item) with
  | some val => .ok val
  | none => .error (.error (invalidIn "index".toList (trim item) predName))

/-- `start..stop` -/
def indexRange (start stop : ℤ) : List ℤ :=
  (List.range (stop - start).toNat).map fun i : ℕ => start + i

def parseIndexes (env : InitObjects) (predName indexes : Text) : Except LoadFailure (List ℤ) :=
  if ',' ∈ indexes then (indexes.splitOn ',').mapM (listItem predName)
  else if '-' ∈ indexes then
    match indexes.splitOn '-' with
    | first :: second :: _ => do
      let start ← rangeStart env predName first
      let stop ← rangeEnd env predName second
      pure (indexRange start stop)
    | _ => .error .panic
  else do
    let val ← singleIndex env predName indexes
    pure [val]

/-- `group_by` is resolved apart from the indexes. -/
def parsePredecessor (env : InitObjects) (nameToId : List (Text × ℕ)) (predName indexes : Text)
    (groupBy : Option ℕ) : Except LoadFailure Predecessor :=
  match nameToId.lookup predName with
  | none => .error (.error ("Unknown predecessor node '".toList ++ predName ++ "'".toList))
  | some id => do
    let indexes ← parseIndexes env predName indexes
    pure ⟨id, indexes, groupBy⟩

/-! ## The grammar -/

/-- The start that a text denotes: a non-negative numeral or an object. -/
def startOf (env : InitObjects) (s : Text) : Option ℤ :=
  match parseIsize s with
  | some val => if 0 ≤ val then some val else none
  | none => env.namedNumber s

/-- The first offset behind the range: a numeral is inclusive, an object exclusive. -/
def endOf (env : InitObjects) (s : Text) : Option ℤ :=
  match parseIsize s with
  | some val => if 0 ≤ val then some (val + 1) else none
  | none => env.namedNumber s

/-- The three syntaxes, and the offsets they select. -/
inductive Selects (env : InitObjects) : Text → List ℤ → Prop where
  | list {s : Text} {is : List ℤ} (hcomma : ',' ∈ s)
      (hitems : List.Forall₂ (fun item i => parseIsize (trim item) = some i) (s.splitOn ',') is) :
      Selects env s is
  | range {a b : Text} {start stop : ℤ} (hstart : startOf env a = some start)
      (hstop : endOf env b = some stop) : Selects env (a ++ '-' :: b) (indexRange start stop)
  | literal {s : Text} {i : ℤ} (h : parseIsize s = some i) : Selects env s [i]
  | name {s : Text} {n : ℤ} (hname : parseIsize s = none) (h : env.namedNumber s = some n) :
      Selects env s [n]

/-- A text that refers to an object as a whole, or is a range. -/
def ObjectOrRange (env : InitObjects) (s : Text) : Prop :=
  (parseIsize s = none ∧ (env.namedNumber s).isSome) ∨
    ∃ a b, s = a ++ '-' :: b ∧ (startOf env a).isSome ∧ (endOf env b).isSome

def AllIntegers (s : Text) : Prop := ∀ item ∈ s.splitOn ',', (parseIsize (trim item)).isSome

/-- The number, if there is one, is an `isize`. -/
def Fits (n : Option ℤ) : Prop := ∀ i ∈ n, i < 2 ^ 63

/-- Parts behind the second are not looked at, and numbers beyond `isize` are cut off. -/
def Truncated (env : InitObjects) (s : Text) : Prop :=
  ',' ∉ s ∧
    match s.splitOn '-' with
    | [] => False
    | [t] => ¬ Fits (startOf env t)
    | [a, b] => ¬ (Fits (startOf env a) ∧ Fits (endOf env b))
    | _ => True

/-- What is accepted is denoted and not truncated, what is rejected has no meaning, and nothing
panics. -/
def ReadAsDocumented (env : InitObjects) (s : Text) : Except LoadFailure (List ℤ) → Prop
  | .ok is => Selects env s is ∧ ¬ Truncated env s
  | .error (.error _) => ∀ is, ¬ Selects env s is
  | .error .panic => False

/-! ## Where the parser keeps to it -/

/-- The parser takes the text for an index. -/
def Taken (env : InitObjects) (s : Text) : Prop :=
  (parseIsize s).isSome ∨ (env.namedUsize s).isSome

def Panics (env : InitObjects) (s : Text) : Prop := parseIsize s = none ∧ env.Dangling s

/-- A text with a comma that is no list of integers has no other meaning; without a separator, an
object has a first value, which is not of type `isize` and fits it; of the parts of a range, no object
lacks a value, and both are taken only if they are all and fit `isize`, while the text has no other
meaning if they are not. -/
def WellRead (env : InitObjects) (s : Text) : Prop :=
  if ',' ∈ s then AllIntegers s ∨ ¬ ObjectOrRange env s
  else
    match s.splitOn '-' with
    | [] => True
    | [t] =>
      ¬ Panics env t ∧ (Taken env t → Fits (startOf env t)) ∧
        (¬ Taken env t → env.namedNumber t = none)
    | a :: b :: rest =>
      ¬ Panics env a ∧ (Taken env a → ¬ Panics env b) ∧
        (Taken env a → Taken env b → rest = [] ∧ Fits (startOf env a) ∧ Fits (endOf env b)) ∧
        (¬ (Taken env a ∧ Taken env b) → parseIsize s = none ∧ ¬ ObjectOrRange env s)

/-! ## Numerals -/

/-- What integer literals are made of. -/
theorem mem_of_parseIsize {s : Text} {i : ℤ} (h : parseIsize s = some i) :
    (∀ c ∈ s, c = '+' ∨ c = '-' ∨ c.isDigit = true) ∧ ('-' ∉ s → 0 ≤ i) ∧ -2 ^ 63 ≤ i ∧
      i < 2 ^ 63 := by
  obtain ⟨⟨n, hmin, hmax⟩, hn, rfl⟩ := Option.map_eq_some_iff.mp h
  obtain ⟨m, hm, hval⟩ := Option.bind_eq_some_iff.mp hn
  split at hval
  swap
  · cases hval
  obtain rfl : m = n := congrArg Subtype.val (Option.some.inj hval)
  have hdigits : ∀ {t : Text} {n : ℕ}, readNat t = some n → ∀ c ∈ t, c.isDigit = true := by
    intro t n ht c hc
    unfold readNat at ht
    split at ht
    · next hall => exact List.all_eq_true.mp hall.2 c hc
    · cases ht
  refine ⟨?_, ?_, hmin, Int.lt_of_le_sub_one hmax⟩
  · intro c hc
    unfold readInt at hm
    split at hm
    · obtain ⟨k, hk, -⟩ := Option.map_eq_some_iff.mp hm
      exact (List.mem_cons.mp hc).imp id fun hc => .inr (hdigits hk c hc)
    · obtain ⟨k, hk, -⟩ := Option.map_eq_some_iff.mp hm
      exact (List.mem_cons.mp hc).elim (fun h => .inr (.inl h)) fun hc => .inr (.inr (hdigits hk c hc))
    · obtain ⟨k, hk, -⟩ := Option.map_eq_some_iff.mp hm
      exact .inr (.inr (hdigits hk c hc))
  · intro hminus
    unfold readInt at hm
    split at hm
    · obtain ⟨k, -, rfl⟩ := Option.map_eq_some_iff.mp hm
      exact Int.natCast_nonneg k
    · exact absurd List.mem_cons_self hminus
    · obtain ⟨k, -, rfl⟩ := Option.map_eq_some_iff.mp hm
      exact Int.natCast_nonneg k

theorem parseIsize_of_comma {s : Text} (h : ',' ∈ s) : parseIsize s = none := by
  by_contra hsome
  obtain ⟨i, hi⟩ := Option.ne_none_iff_exists'.mp hsome
  have hcomma := (mem_of_parseIsize hi).1 ',' h
  revert hcomma
  decide

theorem wrapIsize_of_lt {i : ℤ} (h0 : -2 ^ 63 ≤ i) (h : i < 2 ^ 63) : wrapIsize i = i :=
  Int.bmod_eq_of_le (by omega) (by omega)

/-! ## Outcomes -/

/-- An object is unknown or no number, lacks a value, or is taken for its number. -/
theorem namedIndex_cases (env : InitObjects) (name unknown notNumber : Text) :
    (env.Dangling name ∧ namedIndex env name unknown notNumber = .error .panic) ∨
    (¬ env.Dangling name ∧ env.namedUsize name = none ∧
      ∃ details, namedIndex env name unknown notNumber = .error (.error details)) ∨
    (¬ env.Dangling name ∧ (env.namedUsize name).isSome ∧
      ∃ m, env.namedNumber name = some m ∧
        namedIndex env name unknown notNumber = .ok (wrapIsize m)) := by
  unfold namedIndex InitObjects.Dangling InitObjects.namedUsize InitObjects.namedNumber
  cases env.objIdMap.lookup name with
  | none => exact .inr (.inl ⟨by simp, rfl, _, rfl⟩)
  | some id =>
    cases hvalue : env.firstValue id with
    | none => exact .inl ⟨⟨id, rfl, hvalue⟩, by simp [hvalue]⟩
    | some value =>
      have hthere : ¬ ∃ id', some id = some id' ∧ env.firstValue id' = none := by
        rintro ⟨id', heq, hnone⟩
        obtain rfl := Option.some.inj heq
        rw [hvalue] at hnone
        cases hnone
      cases husize : value.validNumberToUsize with
      | none => exact .inr (.inl ⟨hthere, by simp [hvalue, husize], notNumber, by simp [hvalue, husize]⟩)
      | some n =>
        obtain ⟨m, hm, hn⟩ := ObjectValue.number_of_usize husize
        refine .inr (.inr ⟨hthere, by simp [hvalue, husize], m, by simp [hvalue, hm], ?_⟩)
        have hwrap : wrapIsize (m % 2 ^ 64) = wrapIsize m := Int.emod_bmod m (2 ^ 64)
        simp only [hvalue, husize, hn, hwrap]

theorem literalOrNamed_cases (env : InitObjects) (literal : ℤ → ℤ) (unknown notNumber s : Text) :
    (Panics env s ∧ literalOrNamed env literal unknown notNumber s = .error .panic) ∨
    (¬ Panics env s ∧ ¬ Taken env s ∧
      ∃ details, literalOrNamed env literal unknown notNumber s = .error (.error details)) ∨
    (¬ Panics env s ∧ Taken env s ∧
      ((∃ i, parseIsize s = some i ∧
        literalOrNamed env literal unknown notNumber s = .ok (literal i)) ∨
      (parseIsize s = none ∧ ∃ m, env.namedNumber s = some m ∧
        literalOrNamed env literal unknown notNumber s = .ok (wrapIsize m)))) := by
  unfold literalOrNamed Panics Taken
  cases hlit : parseIsize s with
  | some i => exact .inr (.inr ⟨by simp, .inl rfl, .inl ⟨i, rfl, rfl⟩⟩)
  | none =>
    rcases namedIndex_cases env s unknown notNumber with ⟨hd, h⟩ | ⟨hd, hu, h⟩ | ⟨hd, hu, m, hm, h⟩
    · exact .inl ⟨⟨rfl, hd⟩, h⟩
    · refine .inr (.inl ⟨fun hp => hd hp.2, ?_, h⟩)
      rw [hu]
      simp
    · exact .inr (.inr ⟨fun hp => hd hp.2, .inr hu, .inr ⟨rfl, m, hm, h⟩⟩)

theorem namedNumber_nonneg {env : InitObjects} {s : Text} {n : ℤ}
    (h : env.namedNumber s = some n) : 0 ≤ n := by
  obtain ⟨id, -, hid⟩ := Option.bind_eq_some_iff.mp h
  obtain ⟨value, -, hvalue⟩ := Option.bind_eq_some_iff.mp hid
  cases value with
  | other => cases hvalue
  | int k m =>
    simp only [ObjectValue.number] at hvalue
    split at hvalue
    · next hpos => exact Option.some.inj hvalue ▸ hpos
    · cases hvalue

theorem startOf_nonneg {env : InitObjects} {s : Text} {n : ℤ} (h : startOf env s = some n) :
    0 ≤ n := by
  unfold startOf at h
  split at h
  · split at h
    · next hpos => exact Option.some.inj h ▸ hpos
    · cases h
  · exact namedNumber_nonneg h

theorem endOf_nonneg {env : InitObjects} {s : Text} {n : ℤ} (h : endOf env s = some n) : 0 ≤ n := by
  unfold endOf at h
  split at h
  · split at h
    · obtain rfl := Option.some.inj h
      omega
    · cases h
  · exact namedNumber_nonneg h

/-- A part of a range that is taken for its start denotes one, up to the cast. -/
theorem rangeStart_cases (env : InitObjects) (predName : Text) {s : Text} (hminus : '-' ∉ s) :
    (Panics env s ∧ rangeStart env predName s = .error .panic) ∨
    (¬ Panics env s ∧ ¬ Taken env s ∧ ∃ details, rangeStart env predName s = .error (.error details)) ∨
    (¬ Panics env s ∧ Taken env s ∧ ∃ n, startOf env s = some n ∧
      rangeStart env predName s = .ok (wrapIsize n)) := by
  refine (literalOrNamed_cases env id _ _ s).imp_right (Or.imp_right ?_)
  rintro ⟨hpanics, htaken, ⟨i, hi, hread⟩ | ⟨hnone, m, hm, hread⟩⟩
  · obtain ⟨-, hpos, hlo, hhi⟩ := mem_of_parseIsize hi
    refine ⟨hpanics, htaken, i, ?_, ?_⟩
    · simp only [startOf, hi, if_pos (hpos hminus)]
    · rw [wrapIsize_of_lt hlo hhi]
      exact hread
  · refine ⟨hpanics, htaken, m, ?_, hread⟩
    simp only [startOf, hnone, hm]

theorem rangeEnd_cases (env : InitObjects) (predName : Text) {s : Text} (hminus : '-' ∉ s) :
    (Panics env s ∧ rangeEnd env predName s = .error .panic) ∨
    (¬ Panics env s ∧ ¬ Taken env s ∧ ∃ details, rangeEnd env predName s = .error (.error details)) ∨
    (¬ Panics env s ∧ Taken env s ∧ ∃ n, endOf env s = some n ∧
      rangeEnd env predName s = .ok (wrapIsize n)) := by
  refine (literalOrNamed_cases env (fun val => wrapIsize (val + 1)) _ _ s).imp_right
    (Or.imp_right ?_)
  rintro ⟨hpanics, htaken, ⟨i, hi, hread⟩ | ⟨hnone, m, hm, hread⟩⟩
  · obtain ⟨-, hpos, -, -⟩ := mem_of_parseIsize hi
    refine ⟨hpanics, htaken, i + 1, ?_, hread⟩
    simp only [endOf, hi, if_pos (hpos hminus)]
  · refine ⟨hpanics, htaken, m, ?_, hread⟩
    simp only [endOf, hnone, hm]

theorem Fits.wrapIsize_eq {n : ℤ} (h : Fits (some n)) (h0 : 0 ≤ n) : wrapIsize n = n :=
  wrapIsize_of_lt (by omega) (h n rfl)

/-! ## Meanings -/

/-- The items of a list are read, or one of them is refused. -/
theorem mapM_listItem (predName : Text) (items : List Text) :
    (∃ is, items.mapM (listItem predName) = .ok is ∧
      List.Forall₂ (fun item i => parseIsize (trim item) = some i) items is) ∨
    (∃ details, items.mapM (listItem predName) = .error (.error details)) ∧
      ¬ ∀ item ∈ items, (parseIsize (trim item)).isSome := by
  induction items with
  | nil => exact .inl ⟨[], rfl, .nil⟩
  | cons item items ih =>
    rw [List.mapM_cons, List.forall_mem_cons]
    cases hitem : parseIsize (trim item) with
    | none =>
      have hread : listItem predName item =
          .error (.error (invalidIn "index".toList (trim item) predName)) := by
        rw [listItem, hitem]
      refine .inr ⟨⟨invalidIn "index".toList (trim item) predName, ?_⟩,
        fun h => Bool.false_ne_true h.1⟩
      rw [hread]
      rfl
    | some i =>
      have hread : listItem predName item = .ok i := by rw [listItem, hitem]
      rcases ih with ⟨is, his, hall⟩ | ⟨⟨details, hfail⟩, hnot⟩
      · refine .inl ⟨i :: is, ?_, .cons hitem hall⟩
        rw [hread, his]
        rfl
      · refine .inr ⟨⟨details, ?_⟩, fun h => hnot h.2⟩
        rw [hread, hfail]
        rfl

theorem forall_isSome_of_forall₂ {items : List Text} {is : List ℤ}
    (h : List.Forall₂ (fun item i => parseIsize (trim item) = some i) items is) :
    ∀ item ∈ items, (parseIsize (trim item)).isSome := by
  induction h with
  | nil => exact fun _ hin => absurd hin List.not_mem_nil
  | cons hitem _ ih => exact List.forall_mem_cons.mpr ⟨Option.isSome_of_mem hitem, ih⟩

theorem exists_selects_iff {env : InitObjects} {s : Text} :
    (∃ is, Selects env s is) ↔
      (',' ∈ s ∧ AllIntegers s) ∨ (parseIsize s).isSome ∨ ObjectOrRange env s := by
  constructor
  · rintro ⟨is, h⟩
    cases h with
    | list hcomma hitems => exact .inl ⟨hcomma, forall_isSome_of_forall₂ hitems⟩
    | range hstart hstop =>
      exact .inr (.inr (.inr ⟨_, _, rfl, Option.isSome_of_mem hstart, Option.isSome_of_mem hstop⟩))
    | literal hlit => exact .inr (.inl (Option.isSome_of_mem hlit))
    | name hname hn => exact .inr (.inr (.inl ⟨hname, Option.isSome_of_mem hn⟩))
  · rintro (⟨hcomma, hall⟩ | hlit | ⟨hname, hn⟩ | ⟨a, b, rfl, ha, hb⟩)
    · rcases mapM_listItem [] (s.splitOn ',') with ⟨is, -, his⟩ | ⟨-, hnot⟩
      · exact ⟨is, .list hcomma his⟩
      · exact absurd hall hnot
    · obtain ⟨i, hi⟩ := Option.isSome_iff_exists.mp hlit
      exact ⟨_, .literal hi⟩
    · obtain ⟨n, hn⟩ := Option.isSome_iff_exists.mp hn
      exact ⟨_, .name hname hn⟩
    · obtain ⟨start, hstart⟩ := Option.isSome_iff_exists.mp ha
      obtain ⟨stop, hstop⟩ := Option.isSome_iff_exists.mp hb
      exact ⟨_, .range hstart hstop⟩

/-- A refusal is right for a text without any of the meanings. -/
theorem refused_iff {env : InitObjects} {s : Text} (details : Text) :
    ReadAsDocumented env s (.error (.error details)) ↔
      ¬ (',' ∈ s ∧ AllIntegers s) ∧ parseIsize s = none ∧ ¬ ObjectOrRange env s := by
  rw [← Option.not_isSome_iff_eq_none, ← not_or, ← not_or, ← exists_selects_iff, not_exists]
  exact Iff.rfl

/-! ## The parser and the grammar -/

theorem read_list {env : InitObjects} (predName : Text) {s : Text} (hcomma : ',' ∈ s) :
    ReadAsDocumented env s (parseIndexes env predName s) ↔ AllIntegers s ∨ ¬ ObjectOrRange env s := by
  rw [parseIndexes, if_pos hcomma]
  rcases mapM_listItem predName (s.splitOn ',') with ⟨is, hread, his⟩ | ⟨⟨details, hfail⟩, hnot⟩
  · rw [hread]
    refine iff_of_true ⟨.list hcomma his, fun h => h.1 hcomma⟩ (.inl ?_)
    exact forall_isSome_of_forall₂ his
  · rw [hfail, refused_iff, parseIsize_of_comma hcomma]
    constructor
    · exact fun h => .inr h.2.2
    · exact fun h => ⟨fun hall => hnot hall.2, rfl, h.resolve_left hnot⟩

theorem objectOrRange_of_not_mem {env : InitObjects} {s : Text} (hminus : '-' ∉ s) :
    ObjectOrRange env s ↔ parseIsize s = none ∧ (env.namedNumber s).isSome := by
  refine or_iff_left ?_
  rintro ⟨a, b, rfl, -⟩
  exact hminus (List.mem_append_right _ List.mem_cons_self)

theorem not_taken {env : InitObjects} {s : Text} (h : ¬ Taken env s) :
    parseIsize s = none ∧ env.namedUsize s = none := by
  rw [Taken, not_or] at h
  exact ⟨Option.not_isSome_iff_eq_none.mp h.1, Option.not_isSome_iff_eq_none.mp h.2⟩

/-- What has been read as one number denotes it unless it was cut off. -/
theorem read_single {env : InitObjects} (predName : Text) {s : Text} (hcomma : ',' ∉ s)
    (hminus : '-' ∉ s) :
    ReadAsDocumented env s (parseIndexes env predName s) ↔
      ¬ Panics env s ∧ (Taken env s → Fits (startOf env s)) ∧
        (¬ Taken env s → env.namedNumber s = none) := by
  have htruncated : Truncated env s ↔ ¬ Fits (startOf env s) := by
    simp only [Truncated, List.splitOn_eq_singleton hminus, hcomma, not_false_eq_true, true_and]
  rw [parseIndexes, if_neg hcomma, if_neg hminus, singleIndex]
  rcases literalOrNamed_cases env id (invalidIn "index".toList s predName)
    (notNonNegative "Index ref".toList s) s with
    ⟨hpanics, hread⟩ | ⟨hpanics, htaken, details, hread⟩ |
      ⟨hpanics, htaken, ⟨i, hi, hread⟩ | ⟨hnone, m, hm, hread⟩⟩
  · rw [hread]
    exact iff_of_false id fun h => h.1 hpanics
  · have hname := (not_taken htaken).1
    rw [hread]
    refine (refused_iff details).trans ?_
    rw [objectOrRange_of_not_mem hminus]
    simp only [hcomma, hname, hpanics, htaken, false_and, not_false_eq_true, true_and,
      false_imp_iff, true_imp_iff, Option.not_isSome_iff_eq_none]
  · obtain ⟨-, hpos, -, hhi⟩ := mem_of_parseIsize hi
    have hfits : Fits (startOf env s) := by
      simp only [startOf, hi, if_pos (hpos hminus)]
      exact fun n hn => Option.some.inj hn ▸ hhi
    rw [hread]
    refine iff_of_true ⟨.literal hi, fun h => htruncated.mp h hfits⟩ ⟨hpanics, fun _ => hfits, ?_⟩
    exact fun h => absurd htaken h
  · have hstart : startOf env s = some m := by
      simp only [startOf, hnone, hm]
    rw [hread]
    constructor
    · rintro ⟨-, hwhole⟩
      exact ⟨hpanics, fun _ => not_not.mp fun h => hwhole (htruncated.mpr h), fun h => absurd htaken h⟩
    · rintro ⟨-, hfits, -⟩
      have hm63 := hfits htaken
      have hwrap : wrapIsize m = m := (hstart ▸ hm63).wrapIsize_eq (namedNumber_nonneg hm)
      refine ⟨?_, fun h => htruncated.mp h hm63⟩
      show Selects env s [wrapIsize m]
      rw [hwrap]
      exact .name hnone hm

/-- A string with a minus sign has two parts at least, without the sign. -/
theorem splitOn_minus {s : Text} (hminus : '-' ∈ s) : ∃ a b rest, s.splitOn '-' = a :: b :: rest ∧
    '-' ∉ a ∧ '-' ∉ b ∧ (rest = [] → s = a ++ '-' :: b) := by
  have hlength := length_splitOn '-' s
  have hpos : 0 < s.count '-' := List.count_pos_iff.mpr hminus
  have hjoin : ['-'].intercalate (s.splitOn '-') = s := List.intercalate_splitOn '-'
  have hparts := not_mem_of_length_splitOn '-' (List.splitOn_ne_nil '-' s) (by rw [hjoin])
  match hsplit : s.splitOn '-' with
  | [] => exact absurd hsplit (List.splitOn_ne_nil '-' s)
  | [a] =>
    rw [hsplit, List.length_singleton] at hlength
    omega
  | a :: b :: rest =>
    rw [hsplit] at hjoin hparts
    refine ⟨a, b, rest, rfl, hparts a (by simp), hparts b (by simp), ?_⟩
    rintro rfl
    rw [← hjoin]
    simp [List.intercalate]

theorem read_range {env : InitObjects} (predName : Text) {s a b : Text} {rest : List Text}
    (hcomma : ',' ∉ s) (hminus : '-' ∈ s) (hsplit : s.splitOn '-' = a :: b :: rest)
    (ha : '-' ∉ a) (hb : '-' ∉ b) (hwhole : rest = [] → s = a ++ '-' :: b) :
    ReadAsDocumented env s (parseIndexes env predName s) ↔
      ¬ Panics env a ∧ (Taken env a → ¬ Panics env b) ∧
        (Taken env a → Taken env b → rest = [] ∧ Fits (startOf env a) ∧ Fits (endOf env b)) ∧
        (¬ (Taken env a ∧ Taken env b) → parseIsize s = none ∧ ¬ ObjectOrRange env s) := by
  have hrefused : ∀ details, ReadAsDocumented env s (.error (.error details)) ↔
      parseIsize s = none ∧ ¬ ObjectOrRange env s := by
    intro details
    rw [refused_iff]
    exact and_iff_right fun h => hcomma h.1
  rw [parseIndexes, if_neg hcomma, if_pos hminus, hsplit]
  dsimp only
  rcases rangeStart_cases env predName ha with
    ⟨hpanics, hread⟩ | ⟨hpanics, htaken, details, hread⟩ | ⟨hpanics, htaken, start, hstart, hread⟩
  · rw [hread]
    exact iff_of_false id fun h => h.1 hpanics
  · rw [hread]
    refine (hrefused details).trans ?_
    simp only [hpanics, htaken, not_false_eq_true, false_imp_iff, false_and, true_imp_iff, true_and]
  rw [hread]
  rcases rangeEnd_cases env predName hb with
    ⟨hpanics', hread'⟩ | ⟨hpanics', htaken', details, hread'⟩ |
      ⟨hpanics', htaken', stop, hstop, hread'⟩
  · rw [hread']
    exact iff_of_false id fun h => h.2.1 htaken hpanics'
  · rw [hread']
    refine (hrefused details).trans ?_
    simp only [hpanics, hpanics', htaken, htaken', not_false_eq_true, false_imp_iff, and_false,
      true_imp_iff, true_and, implies_true]
  · rw [hread']
    have hcut : Truncated env s ↔ ¬ (rest = [] ∧ Fits (startOf env a) ∧ Fits (endOf env b)) := by
      cases rest with
      | nil => simp only [Truncated, hsplit, hcomma, not_false_eq_true, true_and]
      | cons part rest =>
        simp only [Truncated, hsplit, hcomma, not_false_eq_true, and_true, reduceCtorEq, false_and]
    constructor
    · rintro ⟨-, hwhole'⟩
      refine ⟨hpanics, fun _ => hpanics', fun _ _ => not_not.mp fun h => hwhole' (hcut.mpr h), ?_⟩
      exact fun h => absurd ⟨htaken, htaken'⟩ h
    · rintro ⟨-, -, hall, -⟩
      obtain ⟨hrest, hfits, hfits'⟩ := hall htaken htaken'
      refine ⟨?_, fun h => hcut.mp h ⟨hrest, hfits, hfits'⟩⟩
      have hw : wrapIsize start = start := (hstart ▸ hfits).wrapIsize_eq (startOf_nonneg hstart)
      have hw' : wrapIsize stop = stop := (hstop ▸ hfits').wrapIsize_eq (endOf_nonneg hstop)
      show Selects env s (indexRange (wrapIsize start) (wrapIsize stop))
      rw [hw, hw', hwhole hrest]
      exact .range hstart hstop

/-- While the numbers of objects are of type `isize`, a lone index is never negative. -/
theorem parsedIndexes_of_parse {env : InitObjects} {predName s : Text} {is : List ℤ}
    (hfits : ∀ name, Fits (env.namedNumber name)) (h : parseIndexes env predName s = .ok is) :
    ParsedIndexes is := by
  rintro i rfl
  unfold parseIndexes at h
  split at h
  · next hcomma =>
    have hlength := (mapM_eq_ok_iff.mp h).length_eq
    have hpos : 0 < s.count ',' := List.count_pos_iff.mpr hcomma
    rw [length_splitOn, List.length_singleton] at hlength
    omega
  · split at h
    · next hminus =>
      obtain ⟨a, b, rest, hsplit, ha, -, -⟩ := splitOn_minus hminus
      rw [hsplit] at h
      rcases rangeStart_cases env predName ha with
        ⟨-, hread⟩ | ⟨-, -, details, hread⟩ | ⟨-, -, start, hstart, hread⟩
      · simp only [hread] at h
        cases h
      · simp only [hread] at h
        cases h
      · have hstart63 : Fits (some start) := by
          rintro n hn
          obtain rfl := Option.some.inj hn
          unfold startOf at hstart
          split at hstart
          · next val hval =>
            split at hstart
            · exact Option.some.inj hstart ▸ (mem_of_parseIsize hval).2.2.2
            · cases hstart
          · exact hfits a _ hstart
        have hwrap := hstart63.wrapIsize_eq (startOf_nonneg hstart)
        simp only [hread, hwrap] at h
        cases hstop : rangeEnd env predName b with
        | error failure =>
          simp only [hstop] at h
          cases h
        | ok stop =>
          simp only [hstop] at h
          have hrange : indexRange start stop = [i] := Except.ok.inj h
          have hin : i ∈ indexRange start stop := by rw [hrange]; exact List.mem_cons_self
          obtain ⟨k, -, rfl⟩ := List.mem_map.mp hin
          have hnonneg := startOf_nonneg hstart
          omega
    · next hminus =>
      rcases literalOrNamed_cases env id (invalidIn "index".toList s predName)
        (notNonNegative "Index ref".toList s) s with
        ⟨-, hread⟩ | ⟨-, -, details, hread⟩ | ⟨-, -, ⟨j, hj, hread⟩ | ⟨-, m, hm, hread⟩⟩
      · simp only [singleIndex, hread] at h
        cases h
      · simp only [singleIndex, hread] at h
        cases h
      · simp only [singleIndex, hread] at h
        obtain rfl : id j = i := List.singleton_inj.mp (Except.ok.inj h)
        exact (mem_of_parseIsize hj).2.1 hminus
      · simp only [singleIndex, hread] at h
        obtain rfl : wrapIsize m = i := List.singleton_inj.mp (Except.ok.inj h)
        have hm0 := namedNumber_nonneg hm
        have hm63 : Fits (some m) := hm ▸ hfits s
        rw [hm63.wrapIsize_eq hm0]
        exact hm0

/-- `parse_predecessor` keeps to the grammar exactly on the texts that are `WellRead`. -/
theorem parsePredecessor_documented_iff {env : InitObjects} {nameToId : List (Text × ℕ)}
    {predName : Text} {id : ℕ} (hname : nameToId.lookup predName = some id) (indexes : Text)
    (groupBy : Option ℕ) :
    ReadAsDocumented env indexes
        ((parsePredecessor env nameToId predName indexes groupBy).map Predecessor.indexes) ↔
      WellRead env indexes := by
  have hparse : (parsePredecessor env nameToId predName indexes groupBy).map Predecessor.indexes =
      parseIndexes env predName indexes := by
    rw [parsePredecessor, hname]
    cases parseIndexes env predName indexes with
    | error failure => rfl
    | ok is => rfl
  rw [hparse]
  unfold WellRead
  split
  · next hcomma => exact read_list predName hcomma
  · next hcomma =>
    by_cases hminus : '-' ∈ indexes
    · obtain ⟨a, b, rest, hsplit, ha, hb, hwhole⟩ := splitOn_minus hminus
      rw [hsplit]
      exact read_range predName hcomma hminus hsplit ha hb hwhole
    · rw [List.splitOn_eq_singleton hminus]
      exact read_single predName hcomma hminus

/-- A range up to an object. -/
theorem parsePredecessor_documented_iff_named :
    ReadAsDocumented ⟨[("n".toList, 0)], [[.int .usize ⟨3, by decide⟩]]⟩ "0-n".toList
      ((parsePredecessor ⟨[("n".toList, 0)], [[.int .usize ⟨3, by decide⟩]]⟩ [("a".toList, 5)]
        "a".toList "0-n".toList none).map Predecessor.indexes) := by
  have hname : List.lookup "a".toList [("a".toList, 5)] = some 5 := by decide
  refine (parsePredecessor_documented_iff hname _ _).mpr ?_
  have hsplit : "0-n".toList.splitOn '-' = ["0".toList, "n".toList] := by decide
  have hzero : parseIsize "0".toList = some 0 := by decide +kernel
  have hname : parseIsize "n".toList = none := by decide +kernel
  rw [WellRead, if_neg (by decide), hsplit]
  refine ⟨fun h => ?_, fun _ => ?_, fun _ _ => ⟨rfl, ?_, ?_⟩, fun h => absurd ⟨?_, ?_⟩ h⟩
  · exact absurd (hzero.symm.trans h.1) (by decide)
  · rintro ⟨-, id, hid, hnone⟩
    obtain rfl : 0 = id := Option.some.inj hid
    cases hnone
  · rw [startOf, hzero]
    exact fun n hn => Option.some.inj hn ▸ by decide
  · rw [endOf, hname]
    exact fun n hn => Option.some.inj hn ▸ by decide
  · exact .inl (by rw [hzero]; rfl)
  · exact .inr rfl

/-- The previous instance is refused, and a third part of a range is dropped. -/
theorem previous_instance_refused :
    parsePredecessor ⟨[], []⟩ [("a".toList, 5)] "a".toList "-1".toList none =
        .error (.error "Invalid range start '' in predecessor 'a'".toList) ∧
      Selects ⟨[], []⟩ "-1".toList [-1] ∧
      parsePredecessor ⟨[], []⟩ [("a".toList, 5)] "a".toList "1-2-3".toList none =
        .ok ⟨5, [1, 2], none⟩ ∧
      ¬ ∀ env nameToId predName id indexes groupBy, nameToId.lookup predName = some id →
        ReadAsDocumented env indexes
          ((parsePredecessor env nameToId predName indexes groupBy).map Predecessor.indexes) := by
  have hfail : parsePredecessor ⟨[], []⟩ [("a".toList, 5)] "a".toList "-1".toList none =
      .error (.error "Invalid range start '' in predecessor 'a'".toList) := by
    decide +kernel
  have hselects : Selects ⟨[], []⟩ "-1".toList [-1] := .literal (by decide +kernel)
  refine ⟨hfail, hselects, by decide +kernel, fun h => ?_⟩
  have hread := h ⟨[], []⟩ [("a".toList, 5)] "a".toList 5 "-1".toList none (by decide)
  rw [hfail] at hread
  exact hread _ hselects

end Tomii.Indexes
