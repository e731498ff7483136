import Tomii.Exports.CCalls

/-! # Values of operands

The values that the declaration asks for are those of the operands in the order of the parameters,
and arguments that carry their index tell every operand from every other. -/
namespace Tomii.CHeader
open Tomii.Exports (PrimKind)
set_option autoImplicit false
set_option maxHeartbeats 250000

section

variable {other : Text → CClass} {ann : Annotation}

/-! ## Operands of one parameter -/

theorem kept_operands_slice {p : RawParam} (harray : ¬ann.IsArray p)
    (hslice : p.cType = "void**".toList) (idx : ArgIdx) :
    (p.kept ann).operands idx = [.handlesPtr idx, .handlesLen idx] := by
  rw [CmParam.operands, RawParam.kept, kindOf_of_not_isArray harray, hslice, kindOfType_void_ptr_ptr]

theorem cClass_of_lookup {t : Text} {k : PrimKind} (h : valueTypes.lookup t = some k) :
    cClass other t = .scalar k := by
  have hne : t ≠ "void".toList := by
    rintro rfl
    cases h
  rw [cClass, if_neg hne, h]

theorem cClass_of_isPointerType {t : Text} (hlookup : valueTypes.lookup t = none)
    (h : isPointerType t = true) : cClass other t = .pointer := by
  have hne : t ≠ "void".toList := by
    rintro rfl
    cases h
  rw [cClass, if_neg hne, hlookup]
  exact if_pos h

theorem kindOfType_pointer {t : Text} (hlookup : valueTypes.lookup t = none)
    (hstr : ¬isStrType t = true) (hslice : t ≠ "void**".toList) (hpointer : isPointerType t = true) :
    kindOfType t = .opaquePtr := by
  rw [kindOfType, hlookup]
  dsimp only
  rw [if_neg hstr, if_neg hslice, if_pos hpointer, ite_self]

theorem kindOfType_unknown {t : Text} (hlookup : valueTypes.lookup t = none)
    (hpointer : ¬isPointerType t = true) : kindOfType t = .primitive .i32 := by
  have hstr : ¬isStrType t = true := fun h => hpointer (isPointerType_of_isStrType h)
  have hvoid : t ≠ "void*".toList := by
    rintro rfl
    exact hpointer rfl
  have hslice : t ≠ "void**".toList := by
    rintro rfl
    exact hpointer rfl
  rw [kindOfType, hlookup]
  dsimp only
  rw [if_neg hstr, if_neg hvoid, if_neg hslice, if_neg hpointer]

/-- One operand, with the value that the declaration asks for. -/
theorem kept_operands_plain {p : RawParam} (harray : ¬ann.IsArray p)
    (hslice : p.cType ≠ "void**".toList) (htype : KnownType other p.cType) (i : ℕ) :
    ∃ o, (p.kept ann).operands (some i) = [o] ∧
      ∀ args, o.value args = args[i]?.bind (typeValue other p.cType) := by
  rw [CmParam.operands, RawParam.kept, kindOf_of_not_isArray harray]
  unfold typeValue
  cases hlookup : valueTypes.lookup p.cType with
  | some k =>
    rw [cClass_of_lookup hlookup, kindOfType, hlookup]
    exact ⟨_, rfl, fun _ => rfl⟩
  | none =>
    by_cases hpointer : isPointerType p.cType = true
    · rw [cClass_of_isPointerType hlookup hpointer]
      by_cases hstr : isStrType p.cType = true
      · rw [kindOfType, hlookup]
        dsimp only
        rw [if_pos hstr]
        refine ⟨_, rfl, fun args => ?_⟩
        simp only [if_pos hstr]
        rfl
      · rw [kindOfType_pointer hlookup hstr hslice hpointer]
        refine ⟨_, rfl, fun args => ?_⟩
        simp only [if_neg hstr]
        rfl
    · rw [kindOfType_unknown hlookup hpointer, knownType_iff.mp htype, typeClass, hlookup]
      dsimp only
      rw [if_neg hpointer]
      exact ⟨_, rfl, fun _ => rfl⟩

/-! ## All parameters -/

theorem sole_take_one_drop (args : List ArgValue) (k : ℕ) :
    sole ((args.drop k).take 1) = args[k]? := by
  by_cases hk : k < args.length
  · rw [List.drop_eq_getElem_cons hk, List.take_succ_cons, List.take_zero,
      List.getElem?_eq_getElem hk]
    rfl
  · rw [List.drop_of_length_le (Nat.le_of_not_lt hk), List.getElem?_eq_none (Nat.le_of_not_lt hk)]
    rfl

theorem soleVec_take_one_drop (p : RawParam) (args : List ArgValue) (k : ℕ) :
    soleVec p ((args.drop k).take 1) =
      vecAt args (cElemRustType (normaliseElementType p.cType)) (some k) := by
  rw [soleVec, sole_take_one_drop]
  rfl

theorem mapM_cons_value {args : List ArgValue} (o : Operand) (os : List Operand) :
    (o :: os).mapM (Operand.value args) =
      (o.value args).bind fun v => (os.mapM (Operand.value args)).bind fun vs => some (v :: vs) := by
  rw [List.mapM_cons]
  rfl

theorem expectedValues_own {prev : Option (RawParam × List ArgValue)} {args : List ArgValue}
    {p : RawParam} {rest : List RawParam} {n : ℕ}
    (hown : ¬(prev.map Prod.fst).any (isCompanion ann · p) = true)
    (hcount : ownCount ann p rest args = n) :
    expectedValues other ann prev args (p :: rest) =
      (ownValue other ann p (args.take n)).bind fun value =>
        (expectedValues other ann (some (p, args.take n)) (args.drop n) rest).bind fun behind =>
          some (value :: behind) := by
  rw [expectedValues, if_neg hown, hcount]
  rfl

theorem expectedValues_none_own {args : List ArgValue} {p : RawParam} {rest : List RawParam} {n : ℕ}
    (hcount : ownCount ann p rest args = n) :
    expectedValues other ann none args (p :: rest) =
      (ownValue other ann p (args.take n)).bind fun value =>
        (expectedValues other ann (some (p, args.take n)) (args.drop n) rest).bind fun behind =>
          some (value :: behind) :=
  expectedValues_own (fun h => Bool.false_ne_true h) hcount

theorem expectedValues_companion {args mine : List ArgValue} {p q : RawParam} {rest : List RawParam}
    (h : isCompanion ann p q = true) :
    expectedValues other ann (some (p, mine)) args (q :: rest) =
      (ownLength ann p mine).bind fun len =>
        (expectedValues other ann none args rest).bind fun behind => some (len :: behind) := by
  rw [expectedValues, Option.map_some, Option.any_some, if_pos h]
  rfl

theorem expectedValues_plain {mine args : List ArgValue} {p : RawParam} {rest : List RawParam}
    (harray : ¬ann.IsArray p) (hslice : p.cType ≠ "void**".toList) :
    expectedValues other ann (some (p, mine)) args rest = expectedValues other ann none args rest := by
  cases rest with
  | nil => rfl
  | cons q rest =>
    have hnot : isCompanion ann p q = false := by
      rw [isCompanion, if_neg harray, if_neg hslice]
    rw [expectedValues, expectedValues, Option.map_some, Option.any_some, hnot, Option.map_none,
      Option.any_none]
    rfl

/-- The values of a declaration in pairs are those of its operands. -/
theorem Paired.expectedValues_eq {seen : Bool} {ps : List RawParam} (h : Paired other ann seen ps)
    (args : List ArgValue) {k : ℕ} (hk : k ≤ args.length) :
    expectedValues other ann none (args.drop k) ps =
      (ownOperands (slotsFrom k ((ownParams ann none ps).map (RawParam.kept ann)))).mapM
        (Operand.value args) := by
  induction h generalizing k with
  | nil => rfl
  | @plain seen p rest harray hslice htype hkept hrest ih =>
    obtain ⟨o, ho, hvalue⟩ := kept_operands_plain harray hslice htype k
    have hcount : ownCount ann p rest (args.drop k) = 1 := by
      rw [ownCount, if_neg fun h => hslice h.2]
    rw [ownParams_none_cons, ownParams_plain harray hslice, List.map_cons, slotsFrom, ownOperands,
      List.flatMap_cons, ho, List.singleton_append, mapM_cons_value, hvalue,
      expectedValues_none_own hcount, ownValue, if_neg harray, if_neg hslice, sole_take_one_drop,
      expectedValues_plain harray hslice]
    by_cases hlt : k < args.length
    · rw [List.drop_drop, ih hlt]
    · rw [List.getElem?_eq_none (Nat.le_of_not_lt hlt)]
      rfl
  | @array seen p q rest harray hpointer hname hlen hrest ih =>
    have hcompanion := (isCompanion_array harray).mpr hname
    have hcount : ownCount ann p (q :: rest) (args.drop k) = 1 := by
      rw [ownCount, if_neg fun h => h.1 harray]
    obtain ⟨o, o', ho, hvalue, hvalue'⟩ : ∃ o o', (p.kept ann).operands (some k) = [o, o'] ∧
        o.value args = (vecAt args (cElemRustType (normaliseElementType p.cType)) (some k)).map
          (fun v => .pointer v.1) ∧
        o'.value args = (vecAt args (cElemRustType (normaliseElementType p.cType)) (some k)).map
          (fun v => .scalar .usize v.2) := by
      rw [CmParam.operands, RawParam.kept]
      rcases kindOf_of_isArray harray with hkind | hkind <;>
        · rw [hkind]
          exact ⟨_, _, rfl, rfl, rfl⟩
    rw [ownParams_none_cons, ownParams_companion hcompanion, List.map_cons, slotsFrom, ownOperands,
      List.flatMap_cons, ho, List.cons_append, List.singleton_append, mapM_cons_value,
      mapM_cons_value, hvalue, hvalue', expectedValues_none_own hcount, ownValue, if_pos harray,
      expectedValues_companion hcompanion, ownLength, if_pos harray, soleVec_take_one_drop]
    by_cases hlt : k < args.length
    · rw [List.drop_drop, ih hlt]
    · have hnone : vecAt args (cElemRustType (normaliseElementType p.cType)) (some k) = none := by
        rw [vecAt, argAt, Option.bind_some, List.getElem?_eq_none (Nat.le_of_not_lt hlt)]
        rfl
      rw [hnone]
      rfl
  | @variadic seen p q harray hslice hcompanion =>
    have hcount : ownCount ann p [q] (args.drop k) = (args.drop k).length := by
      rw [ownCount, if_pos ⟨harray, hslice⟩, ownParams_companion hcompanion]
      exact Nat.sub_zero _
    rw [ownParams_none_cons, ownParams_companion hcompanion, List.map_cons, slotsFrom, ownOperands,
      List.flatMap_cons, kept_operands_slice harray hslice, expectedValues_none_own hcount, List.take_length,
      ownValue, if_neg harray, if_pos hslice, expectedValues_companion hcompanion, ownLength,
      if_neg harray]
    have hfrom : handlesFrom args (some k) = (args.drop k).mapM ArgValue.asHandle := by
      rw [handlesFrom, Option.bind_some, if_pos hk]
    rw [List.cons_append, List.singleton_append, mapM_cons_value, mapM_cons_value, Operand.value,
      Operand.value, hfrom]
    cases hhandles : (args.drop k).mapM ArgValue.asHandle with
    | none => rfl
    | some ps =>
      rw [← length_of_mapM_eq_some hhandles]
      rfl

/-! ## Arguments that carry their index -/

/-- An argument that fits a parameter and tells its place. -/
def markedArg (other : Text → CClass) (ann : Annotation) (i : ℕ) (p : RawParam) : ArgValue :=
  if ann.IsArray p then .vec (cElemRustType (normaliseElementType p.cType)) i i
  else if p.cType = "void**".toList then .handle i
  else
    match cClass other p.cType with
    | .scalar k => .scalar k i
    | _ => if isStrType p.cType then .string (List.replicate i 'a') else .handle i

def markedFrom (other : Text → CClass) (ann : Annotation) : ℕ → List RawParam → List ArgValue
  | _, [] => []
  | i, p :: rest => markedArg other ann i p :: markedFrom other ann (i + 1) rest

theorem length_markedFrom (i : ℕ) (ps : List RawParam) :
    (markedFrom other ann i ps).length = ps.length := by
  induction ps generalizing i with
  | nil => rfl
  | cons p rest ih => rw [markedFrom, List.length_cons, List.length_cons, ih]

/-- What every part of an argument that carries `i` is. -/
def ArgValue.Marked (i : ℕ) : ArgValue → Prop
  | .scalar _ v => v = i
  | .string s => s.length = i ∧ '\x00' ∉ s
  | .handle p => p = i
  | .vec _ ptr len => ptr = i ∧ len = i
  | .other => False

theorem marked_markedArg (i : ℕ) (p : RawParam) : (markedArg other ann i p).Marked i := by
  have htext : ArgValue.Marked i (.string (List.replicate i 'a')) := by
    refine ⟨List.length_replicate, fun h => ?_⟩
    exact absurd (List.eq_of_mem_replicate h) (by decide)
  unfold markedArg
  split
  · exact ⟨rfl, rfl⟩
  · split
    · rfl
    · split
      · rfl
      · split
        · exact htext
        · rfl

theorem marked_of_getElem? {k i : ℕ} {ps : List RawParam} {a : ArgValue}
    (h : (markedFrom other ann k ps)[i]? = some a) : a.Marked (k + i) := by
  induction ps generalizing k i with
  | nil => cases h
  | cons p rest ih =>
    cases i with
    | zero =>
      cases Option.some.inj h
      exact marked_markedArg k p
    | succ i =>
      have := ih (k := k + 1) h
      rw [Nat.add_right_comm] at this
      exact this

theorem nulFree_markedFrom (k : ℕ) (ps : List RawParam) : NulFree (markedFrom other ann k ps) := by
  intro s hs
  obtain ⟨i, hi⟩ := List.mem_iff_getElem?.mp hs
  exact (marked_of_getElem? hi).2

theorem expectedValues_marked (ps : List RawParam)
    (hclass : ∀ p ∈ ps, cClass other p.cType = .pointer ∨ ∃ k, cClass other p.cType = .scalar k)
    (prev : Option (RawParam × List ArgValue))
    (hprev : ∀ owner ∈ prev, (ownLength ann owner.1 owner.2).isSome = true) (k : ℕ) :
    ∃ values, expectedValues other ann prev
      (markedFrom other ann k (ownParams ann (prev.map Prod.fst) ps)) ps = some values := by
  induction ps generalizing prev k with
  | nil => exact ⟨[], rfl⟩
  | cons p rest ih =>
    have hrest : ∀ q ∈ rest,
        cClass other q.cType = .pointer ∨ ∃ k, cClass other q.cType = .scalar k :=
      fun q hq => hclass q (List.mem_cons_of_mem _ hq)
    rw [ownParams]
    by_cases hcompanion : (prev.map Prod.fst).any (isCompanion ann · p) = true
    · rw [if_pos hcompanion]
      cases prev with
      | none => cases hcompanion
      | some owner =>
        obtain ⟨len, hlen⟩ := Option.isSome_iff_exists.mp (hprev owner rfl)
        obtain ⟨behind, hbehind⟩ := ih hrest none (fun _ h => by cases h) k
        rw [Option.map_none] at hbehind
        refine ⟨len :: behind, ?_⟩
        rw [expectedValues_companion hcompanion, hlen, Option.bind_some, hbehind]
        rfl
    · rw [if_neg hcompanion, markedFrom]
      have hcount : ownCount ann p rest (markedArg other ann k p ::
          markedFrom other ann (k + 1) (ownParams ann (some p) rest)) = 1 := by
        rw [ownCount, List.length_cons, length_markedFrom]
        split <;> omega
      rw [expectedValues_own hcompanion hcount, List.take_succ_cons, List.take_zero,
        List.drop_succ_cons, List.drop_zero]
      have hvalue : ∃ value, ownValue other ann p [markedArg other ann k p] = some value := by
        unfold ownValue markedArg
        by_cases harray : ann.IsArray p
        · rw [if_pos harray, if_pos harray, soleVec, sole, Option.bind_some, ArgValue.asVec,
            if_pos rfl]
          exact ⟨_, rfl⟩
        · rw [if_neg harray, if_neg harray]
          by_cases hslice : p.cType = "void**".toList
          · rw [if_pos hslice, if_pos hslice]
            exact ⟨_, rfl⟩
          · rw [if_neg hslice, if_neg hslice, sole, Option.bind_some, typeValue]
            rcases hclass p List.mem_cons_self with hpointer | ⟨k', hscalar⟩
            · rw [hpointer]
              dsimp only
              split <;> exact ⟨_, rfl⟩
            · rw [hscalar]
              dsimp only
              rw [ArgValue.asScalar, if_pos rfl]
              exact ⟨_, rfl⟩
      have hlength : (ownLength ann p [markedArg other ann k p]).isSome = true := by
        unfold ownLength markedArg
        by_cases harray : ann.IsArray p
        · rw [if_pos harray, if_pos harray, soleVec, sole, Option.bind_some, ArgValue.asVec,
            if_pos rfl]
          rfl
        · rw [if_neg harray]
          rfl
      obtain ⟨value, hvalue⟩ := hvalue
      obtain ⟨behind, hbehind⟩ := ih hrest (some (p, [markedArg other ann k p]))
        (fun owner h => by cases h; exact hlength) (k + 1)
      refine ⟨value :: behind, ?_⟩
      rw [Option.map_some] at hbehind
      rw [hvalue, Option.bind_some, hbehind]
      rfl

/-- The index that a value carries. -/
def CValue.mark : CValue → Option ℤ
  | .scalar _ v => some v
  | .string s => some s.length
  | .pointer p => some p
  | .pointers _ => none

/-- One argument is all that the operand is taken from. -/
def Operand.Single : Operand → Prop
  | .handlesPtr _ => False
  | .handlesLen _ => False
  | _ => True

theorem mark_of_argAt {args : List ArgValue} {ps : List RawParam}
    (hargs : args = markedFrom other ann 0 ps) {idx : ArgIdx} {a : ArgValue}
    (h : argAt args idx = some a) : ∃ i, idx = some i ∧ a.Marked i := by
  rw [argAt, Option.bind_eq_some_iff] at h
  obtain ⟨i, hi, ha⟩ := h
  rw [hargs] at ha
  have := marked_of_getElem? ha
  rw [Nat.zero_add] at this
  exact ⟨i, hi, this⟩

theorem mark_value {args : List ArgValue} {ps : List RawParam}
    (hargs : args = markedFrom other ann 0 ps) {o : Operand} (ho : o.Single) {v : CValue}
    (h : o.value args = some v) :
    ∃ i : ℕ, (Local.operand o).idx = some (some i) ∧ v.mark = some (i : ℤ) := by
  have hvec {elem : Text} {idx : ArgIdx} {w : ℕ × ℕ} (h : vecAt args elem idx = some w) :
      ∃ i, idx = some i ∧ w = (i, i) := by
    rw [vecAt, Option.bind_eq_some_iff] at h
    obtain ⟨a, ha, hw⟩ := h
    obtain ⟨i, hi, hmarked⟩ := mark_of_argAt hargs ha
    cases a with
    | vec elem' ptr len =>
      rw [ArgValue.asVec] at hw
      split at hw
      · cases Option.some.inj hw
        exact ⟨i, hi, Prod.ext hmarked.1 hmarked.2⟩
      · cases hw
    | _ => cases hw
  cases o with
  | scalar k idx =>
    rw [Operand.value, Option.bind_eq_some_iff] at h
    obtain ⟨a, ha, hv⟩ := h
    obtain ⟨i, rfl, hmarked⟩ := mark_of_argAt hargs ha
    cases a with
    | scalar k' w =>
      rw [ArgValue.asScalar] at hv
      split at hv
      · cases Option.some.inj hv
        exact ⟨i, rfl, congrArg some hmarked⟩
      · cases hv
    | _ => cases hv
  | cString idx =>
    rw [Operand.value, Option.bind_eq_some_iff] at h
    obtain ⟨a, ha, hv⟩ := h
    obtain ⟨i, rfl, hmarked⟩ := mark_of_argAt hargs ha
    cases a with
    | string s =>
      cases Option.some.inj hv
      exact ⟨i, rfl, congrArg (fun n : ℕ => some (n : ℤ)) hmarked.1⟩
    | _ => cases hv
  | handle idx =>
    rw [Operand.value, Option.bind_eq_some_iff] at h
    obtain ⟨a, ha, hv⟩ := h
    obtain ⟨i, rfl, hmarked⟩ := mark_of_argAt hargs ha
    cases a with
    | handle p =>
      cases Option.some.inj hv
      exact ⟨i, rfl, congrArg (fun n : ℕ => some (n : ℤ)) hmarked⟩
    | _ => cases hv
  | vecPtr elem idx =>
    obtain ⟨w, hw, rfl⟩ := Option.map_eq_some_iff.mp h
    obtain ⟨i, rfl, rfl⟩ := hvec hw
    exact ⟨i, rfl, rfl⟩
  | vecMutPtr elem idx =>
    obtain ⟨w, hw, rfl⟩ := Option.map_eq_some_iff.mp h
    obtain ⟨i, rfl, rfl⟩ := hvec hw
    exact ⟨i, rfl, rfl⟩
  | vecLen elem idx =>
    obtain ⟨w, hw, rfl⟩ := Option.map_eq_some_iff.mp h
    obtain ⟨i, rfl, rfl⟩ := hvec hw
    exact ⟨i, rfl, rfl⟩
  | handlesPtr idx => cases ho
  | handlesLen idx => cases ho

/-- Operands of one value are taken from one argument. -/
theorem idx_eq_of_value_eq {args : List ArgValue} {ps : List RawParam}
    (hargs : args = markedFrom other ann 0 ps) {o o' : Operand} (ho : o.Single) (ho' : o'.Single)
    {v : CValue} (h : o.value args = some v) (h' : o'.value args = some v) :
    (Local.operand o).idx = (Local.operand o').idx := by
  obtain ⟨i, hi, hmark⟩ := mark_value hargs ho h
  obtain ⟨i', hi', hmark'⟩ := mark_value hargs ho' h'
  rw [hmark, Option.some_inj, Int.natCast_inj] at hmark'
  rw [hi, hi', hmark']

/-! ## Strings -/

theorem asCString_of_nulFree {args : List ArgValue} (h : NulFree args) {o : Operand} {v : CValue}
    (hv : o.value args = some v) : v.asCString = v := by
  cases v with
  | string s =>
    have hmem : ArgValue.string s ∈ args := by
      cases o with
      | cString idx =>
        rw [Operand.value, Option.bind_eq_some_iff] at hv
        obtain ⟨a, ha, ha'⟩ := hv
        rw [argAt, Option.bind_eq_some_iff] at ha
        obtain ⟨i, _, ha⟩ := ha
        cases a with
        | string s' =>
          cases Option.some.inj ha'
          exact List.mem_of_getElem? ha
        | _ => cases ha'
      | scalar k idx =>
        rw [Operand.value, Option.bind_eq_some_iff] at hv
        obtain ⟨a, _, ha⟩ := hv
        cases a with
        | scalar k' w =>
          rw [ArgValue.asScalar] at ha
          split at ha
          · cases Option.some.inj ha
          · cases ha
        | _ => cases ha
      | handle idx =>
        rw [Operand.value, Option.bind_eq_some_iff] at hv
        obtain ⟨a, _, ha⟩ := hv
        obtain ⟨p, _, hp⟩ := Option.map_eq_some_iff.mp ha
        cases hp
      | _ =>
        obtain ⟨w, _, hw⟩ := Option.map_eq_some_iff.mp hv
        cases hw
    rw [CValue.asCString, if_neg (h s hmem)]
  | _ => rfl

end

end Tomii.CHeader
