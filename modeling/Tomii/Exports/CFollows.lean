import Tomii.Exports.CValues

/-! # Conventional declarations have right wrappers

Where every array is paired with its length and no name stands for two things, a wrapper passes
every parameter its own. -/
namespace Tomii.CHeader
open Tomii.Exports (PrimKind)
set_option autoImplicit false
set_option maxHeartbeats 250000

section

variable {other : Text → CClass} {ann : Annotation} {toUppercase : Text → Text}
  {bindable : Text → Bool} {d : CDeclaration}

/-! ## The entry -/

abbrev CDeclaration.slots (d : CDeclaration) (ann : Annotation) : List Slot :=
  slotsFrom 0 (d.own ann)

theorem map_cClass_buildCSymType (entry : ExportedFn) :
    (buildCSymType entry).params.map CSymType.cClass = slotClasses entry.cmParams :=
  List.map_flatMap

theorem Paired.sliceLast {seen : Bool} {ps : List RawParam} (h : Paired other ann seen ps) :
    SliceLast ((ownParams ann none ps).map (RawParam.kept ann)) := by
  have hcons {p : CmParam} {own : List CmParam} (hkind : p.kind ≠ .sliceCmTypes)
      (hlast : SliceLast own) : SliceLast (p :: own) := by
    intro pre q post heq hslice
    cases pre with
    | nil => exact absurd ((List.cons.inj heq).1 ▸ hslice) hkind
    | cons r pre => exact hlast pre q post (List.cons.inj heq).2 hslice
  induction h with
  | nil =>
    intro pre p post heq
    exact absurd heq.symm (List.append_ne_nil_of_right_ne_nil _ (List.cons_ne_nil _ _))
  | @plain seen p rest harray hslice htype hkept hrest ih =>
    rw [ownParams_none_cons, ownParams_plain harray hslice, List.map_cons]
    refine hcons ?_ ih
    rw [RawParam.kept, kindOf_of_not_isArray harray]
    rcases kindOfType_cases p.cType with ⟨k, hk⟩ | hk | hk | ⟨_, hk⟩
    · rw [hk]
      exact CmParamKind.noConfusion
    · rw [hk]
      exact CmParamKind.noConfusion
    · rw [hk]
      exact CmParamKind.noConfusion
    · exact absurd hk hslice
  | @array seen p q rest harray hpointer hname hlen hrest ih =>
    rw [ownParams_none_cons, ownParams_companion ((isCompanion_array harray).mpr hname), List.map_cons]
    refine hcons ?_ ih
    rw [RawParam.kept]
    rcases kindOf_of_isArray harray with hk | hk <;>
      · rw [hk]
        exact CmParamKind.noConfusion
  | @variadic seen p q harray hslice hcompanion =>
    rw [ownParams_none_cons, ownParams_companion hcompanion]
    intro pre r post heq _
    cases pre with
    | nil => exact (List.cons.inj heq).2.symm
    | cons r' pre =>
      exact absurd (List.cons.inj heq).2.symm
        (List.append_ne_nil_of_right_ne_nil _ (List.cons_ne_nil _ _))

/-- The entry of a declaration in pairs. -/
theorem entry_of_paired (hdistinct : (names d.params).Nodup)
    (hpaired : Paired other ann false d.params) :
    (d.entry ann).cmParams = d.own ann ∧
      consumed (d.entry ann).autoParams (some 0) (d.entry ann).cmParams = d.slots ann ∧
        slotClasses (d.own ann) = classes other d.params := by
  have hkept := hpaired.keptParams_eq (@freshHead_of_pendingLen none rfl d.params) hdistinct
  have hown : (d.entry ann).cmParams = d.own ann := hkept.1
  refine ⟨hown, ?_, ?_⟩
  · have hlast : SliceLast (d.entry ann).cmParams := hown ▸ hpaired.sliceLast
    rw [CDeclaration.slots, ← hown]
    exact consumed_eq (disjoint_keptParams hdistinct none false) hlast 0
  · rw [← hown]
    exact hkept.2

theorem lenNamed_kept (p : RawParam) : (p.kept ann).LenNamed := by
  intro len hlen
  by_cases harray : ann.IsArray p
  · have := pendingLen_of_isArray harray
    rw [pendingLen, Option.bind_some, hlen] at this
    exact Option.some.inj this
  · have := pendingLen_of_not_isArray harray
    rw [pendingLen, Option.bind_some, hlen] at this
    cases this

theorem lenNamed_own : ∀ p ∈ d.own ann, p.LenNamed := by
  intro p hp
  obtain ⟨raw, _, rfl⟩ := List.mem_map.mp hp
  exact lenNamed_kept raw

/-! ## Calls -/

theorem source_mem_operands (s : Slot) : s.line.source ∈ s.2.operands s.1 := by
  unfold Slot.line CmParam.extract CmParam.operands
  cases s.2.kind <;> simp [Line.source]

theorem isSome_of_mem_of_mapM {α β : Type} {f : α → Option β} {xs : List α} {ys : List β}
    (h : xs.mapM f = some ys) : ∀ x ∈ xs, (f x).isSome = true := by
  induction xs generalizing ys with
  | nil =>
    intro x hx
    cases hx
  | cons x xs ih =>
    rw [List.mapM_cons] at h
    simp only [Option.bind_eq_bind, Option.bind_eq_some_iff] at h
    obtain ⟨y, hy, zs, hzs, _⟩ := h
    rw [List.forall_mem_cons]
    refine ⟨?_, ih hzs⟩
    rw [hy]
    rfl

theorem mapM_asCString {args : List ArgValue} (hnul : NulFree args) (os : List Operand) :
    os.mapM (fun o => (o.value args).map CValue.asCString) = os.mapM (Operand.value args) := by
  apply mapM_congr_mem
  intro o _
  cases hv : o.value args with
  | none => rfl
  | some v => rw [Option.map_some, asCString_of_nulFree hnul hv]

/-- A wrapper that passes every parameter its own panics where one of them is missing. -/
theorem call_ownOperands {args : List ArgValue} (hnul : NulFree args) (slots : List Slot)
    (c : Conversion) :
    Program.call ⟨slots.map Slot.line, ownOperands slots, c⟩ args =
      (ownOperands slots).mapM (Operand.value args) := by
  rw [Program.call, mapM_asCString hnul]
  cases hvalues : (ownOperands slots).mapM (Operand.value args) with
  | none => exact ite_self _
  | some values =>
    apply if_pos
    rw [List.all_eq_true, List.forall_mem_map]
    intro s hs
    exact isSome_of_mem_of_mapM hvalues _ (List.mem_flatMap.mpr ⟨s, hs, source_mem_operands s⟩)

/-! ## Results -/

theorem bind_of_isLength {s : Slot} {len : Text} (h : s.2.isLength len) :
    ∃ o, (len, Local.operand o) ∈ s.line.binds ∧ o.symType = .prim .usize := by
  unfold Slot.line CmParam.extract
  rcases h with ⟨hkind, rfl⟩ | hlen
  · rw [hkind]
    exact ⟨_, List.mem_singleton.mpr rfl, rfl⟩
  · unfold CmParamKind.lenParam? at hlen
    cases hkind : s.2.kind with
    | arrayPtr cElementType len' =>
      rw [hkind] at hlen
      cases Option.some.inj hlen
      exact ⟨_, List.mem_cons_of_mem _ (List.mem_singleton.mpr rfl), rfl⟩
    | mutArrayPtr cElementType len' =>
      rw [hkind] at hlen
      cases Option.some.inj hlen
      exact ⟨_, List.mem_singleton.mpr rfl, rfl⟩
    | _ =>
      rw [hkind] at hlen
      cases hlen

theorem operand_of_bind {s : Slot} {name : Text} {o : Operand}
    (h : (name, Local.operand o) ∈ s.line.binds) : o ∈ s.2.operands s.1 := by
  unfold Slot.line CmParam.extract at h
  unfold CmParam.operands
  cases hkind : s.2.kind with
  | strRef =>
    rw [hkind] at h
    rcases List.mem_cons.mp h with h | h
    · cases h
    · cases List.mem_singleton.mp h
  | arrayPtr cElementType len =>
    rw [hkind] at h
    rcases List.mem_cons.mp h with h | h
    · cases h
      exact List.mem_cons_self
    · cases List.mem_singleton.mp h
      exact List.mem_cons_of_mem _ List.mem_cons_self
  | mutArrayPtr cElementType len =>
    rw [hkind] at h
    cases List.mem_singleton.mp h
    exact List.mem_cons_of_mem _ List.mem_cons_self
  | sliceCmTypes =>
    rw [hkind] at h
    cases List.mem_singleton.mp h
  | _ =>
    rw [hkind] at h
    cases List.mem_singleton.mp h
    exact List.mem_cons_self

theorem isLength_of_bind {s : Slot} {len : Text} {o : Operand}
    (h : (len, Local.operand o) ∈ s.line.binds) (ho : o.symType = .prim .usize) :
    s.2.isLength len := by
  unfold Slot.line CmParam.extract at h
  unfold CmParam.isLength CmParamKind.lenParam?
  cases hkind : s.2.kind with
  | primitive k =>
    rw [hkind] at h
    cases List.mem_singleton.mp h
    cases ho
    exact .inl ⟨rfl, rfl⟩
  | strRef =>
    rw [hkind] at h
    rcases List.mem_cons.mp h with h | h
    · cases h
    · cases List.mem_singleton.mp h
  | opaquePtr =>
    rw [hkind] at h
    cases List.mem_singleton.mp h
    cases ho
  | arrayPtr cElementType len' =>
    rw [hkind] at h
    rcases List.mem_cons.mp h with h | h
    · cases h
      cases ho
    · cases List.mem_singleton.mp h
      exact .inr rfl
  | mutArrayPtr cElementType len' =>
    rw [hkind] at h
    cases List.mem_singleton.mp h
    exact .inr rfl
  | sliceCmTypes =>
    rw [hkind] at h
    cases List.mem_singleton.mp h

theorem readNames_of_isLength {p : CmParam} {len : Text} (h : p.isLength len) :
    len ∈ p.readNames := by
  unfold CmParam.readNames
  rcases h with ⟨hkind, rfl⟩ | hlen
  · rw [hkind]
    exact List.mem_singleton.mpr rfl
  · unfold CmParamKind.lenParam? at hlen
    cases hkind : p.kind with
    | arrayPtr cElementType len' =>
      rw [hkind] at hlen
      cases Option.some.inj hlen
      exact List.mem_cons_of_mem _ (List.mem_singleton.mpr rfl)
    | mutArrayPtr cElementType len' =>
      rw [hkind] at hlen
      cases Option.some.inj hlen
      exact List.mem_singleton.mpr rfl
    | _ =>
      rw [hkind] at hlen
      cases hlen

theorem lookup_bind_of_isLength {s : Slot} {len : Text} {o : Operand} (hnamed : s.2.LenNamed)
    (h : s.2.isLength len) (ho : (len, Local.operand o) ∈ s.line.binds) :
    s.line.binds.lookup len = some (.operand o) := by
  unfold Slot.line CmParam.extract at ho ⊢
  unfold CmParam.LenNamed at hnamed
  rcases h with ⟨hkind, rfl⟩ | hlen
  · rw [hkind] at ho ⊢
    cases List.mem_singleton.mp ho
    exact List.lookup_cons_self
  · cases hkind : s.2.kind with
    | arrayPtr cElementType len' =>
      rw [hkind] at ho hnamed hlen
      have hlen' : len = lenParam s.2.name := hnamed len hlen
      rcases List.mem_cons.mp ho with ho | ho
      · exact absurd (hlen' ▸ (Prod.mk.inj ho).1).symm (ptrName_ne_lenParam _ _)
      · cases List.mem_singleton.mp ho
        have hne : (len == ptrName s.2.name) = false := by
          rw [hlen']
          exact beq_eq_false_iff_ne.mpr (ptrName_ne_lenParam _ _).symm
        rw [Line.binds, List.lookup_cons, hne]
        exact List.lookup_cons_self
    | mutArrayPtr cElementType len' =>
      rw [hkind] at ho
      cases List.mem_singleton.mp ho
      exact List.lookup_cons_self
    | _ =>
      rw [hkind] at hlen
      cases hlen

/-- The value of a length stands under its name. -/
theorem Paired.mem_zip_of_isLength {seen : Bool} {ps : List RawParam}
    (h : Paired other ann seen ps) (args : List ArgValue) {k : ℕ} (hk : k ≤ args.length)
    {values : List CValue} (hvalues : expectedValues other ann none (args.drop k) ps = some values)
    {s : Slot} (hs : s ∈ slotsFrom k ((ownParams ann none ps).map (RawParam.kept ann)))
    {len : Text} (hlen : s.2.isLength len) {o : Operand}
    (ho : (len, Local.operand o) ∈ s.line.binds) (htype : o.symType = .prim .usize) :
    ∃ v, o.value args = some v ∧ (len, v) ∈ (names ps).zip values := by
  induction h generalizing k values with
  | nil => cases hs
  | @plain seen p rest harray hslice hknown hkept hrest ih =>
    have hcount : ownCount ann p rest (args.drop k) = 1 := by
      rw [ownCount, if_neg fun h => hslice h.2]
    obtain ⟨o', ho', hvalue⟩ := kept_operands_plain harray hslice hknown k
    rw [ownParams_none_cons, ownParams_plain harray hslice, List.map_cons, slotsFrom] at hs
    rw [expectedValues_none_own hcount, ownValue, if_neg harray, if_neg hslice, sole_take_one_drop,
      expectedValues_plain harray hslice, List.drop_drop] at hvalues
    simp only [Option.bind_eq_some_iff, Option.some.injEq] at hvalues
    obtain ⟨v, ⟨arg, harg, hv⟩, behind, hbehind, rfl⟩ := hvalues
    rcases List.mem_cons.mp hs with rfl | hs
    · have hmem := operand_of_bind ho
      rw [ho', List.mem_singleton] at hmem
      have hname : p.name = len := by
        rcases hlen with h | h
        · exact h.2
        · have hnone := pendingLen_of_not_isArray harray
          rw [pendingLen, Option.bind_some, h] at hnone
          cases hnone
      refine ⟨v, ?_, ?_⟩
      · rw [hmem, hvalue, harg]
        exact hv
      · rw [← hname]
        exact List.mem_cons_self
    · obtain ⟨w, hw, hmem⟩ := ih (List.getElem?_eq_some_iff.mp harg).1 hbehind hs
      exact ⟨w, hw, List.mem_cons_of_mem _ hmem⟩
  | @array seen p q rest harray hpointer hname hlen' hrest ih =>
    have hcompanion := (isCompanion_array harray).mpr hname
    have hcount : ownCount ann p (q :: rest) (args.drop k) = 1 := by
      rw [ownCount, if_neg fun h => h.1 harray]
    rw [ownParams_none_cons, ownParams_companion hcompanion, List.map_cons, slotsFrom] at hs
    rw [expectedValues_none_own hcount, ownValue, if_pos harray, expectedValues_companion hcompanion,
      ownLength, if_pos harray, soleVec_take_one_drop, List.drop_drop] at hvalues
    simp only [Option.bind_eq_some_iff, Option.some.injEq] at hvalues
    obtain ⟨ptr, hptr, _, ⟨v, hv, behind, hbehind, rfl⟩, rfl⟩ := hvalues
    rcases List.mem_cons.mp hs with rfl | hs
    · have hname' : len = q.name := by
        rcases hlen with h | h
        · rcases kindOf_of_isArray harray with hkind | hkind
          · cases hkind.symm.trans h.1
          · cases hkind.symm.trans h.1
        · rw [hname]
          exact lenNamed_kept p len h
      have hmem := operand_of_bind ho
      unfold CmParam.operands RawParam.kept at hmem
      refine ⟨v, ?_, ?_⟩
      · rcases kindOf_of_isArray harray with hkind | hkind
        · rw [hkind] at hmem
          rcases List.mem_cons.mp hmem with rfl | hmem
          · cases htype
          · rw [List.mem_singleton.mp hmem]
            exact hv
        · rw [hkind] at hmem
          rcases List.mem_cons.mp hmem with rfl | hmem
          · cases htype
          · rw [List.mem_singleton.mp hmem]
            exact hv
      · rw [hname']
        exact List.mem_cons_of_mem _ List.mem_cons_self
    · have hlt : k < args.length := by
        by_contra hge
        rw [vecAt, argAt, Option.bind_some, List.getElem?_eq_none (Nat.le_of_not_lt hge)] at hptr
        cases hptr
      obtain ⟨w, hw, hmem⟩ := ih hlt hbehind hs
      exact ⟨w, hw, List.mem_cons_of_mem _ (List.mem_cons_of_mem _ hmem)⟩
  | @variadic seen p q harray hslice hcompanion =>
    rw [ownParams_none_cons, ownParams_companion hcompanion] at hs
    rw [List.mem_singleton.mp hs] at hlen
    have hkind : (p.kept ann).kind = .sliceCmTypes := by
      rw [RawParam.kept, kindOf_of_not_isArray harray, hslice, kindOfType_void_ptr_ptr]
    rcases hlen with h | h
    · cases hkind.symm.trans h.1
    · rw [hkind] at h
      cases h

theorem lookup_of_mem_nodup {names : List Text} {values : List CValue} (hdistinct : names.Nodup)
    {name : Text} {v : CValue} (h : (name, v) ∈ names.zip values) :
    (names.zip values).lookup name = some v := by
  induction names generalizing values with
  | nil => cases h
  | cons n names ih =>
    cases values with
    | nil => cases h
    | cons w values =>
      rw [List.zip_cons_cons, List.lookup_cons]
      rcases List.mem_cons.mp h with heq | hmem
      · cases heq
        rw [beq_self_eq_true]
      · have hne : name ≠ n := by
          rintro rfl
          exact (List.nodup_cons.mp hdistinct).1 (List.of_mem_zip hmem).1
        rw [beq_eq_false_iff_ne.mpr hne]
        exact ih hdistinct.of_cons hmem

/-- No result is read from a function that has none. -/
theorem freeFn_of_void (h : cClass other d.retType = .void) :
    (classifyCReturn d.retType ann).freeFn = none := by
  rw [classifyCReturn]
  by_cases hvoid : d.retType = "void".toList
  · rw [if_pos hvoid]
    rfl
  · rw [cClass, if_neg hvoid] at h
    rw [if_neg hvoid]
    cases hlookup : valueTypes.lookup d.retType with
    | some k => rfl
    | none =>
      rw [hlookup] at h
      dsimp only at h ⊢
      by_cases hpointer : isPointerType d.retType = true
      · rw [if_pos hpointer] at h
        cases h
      · have hchar : d.retType ≠ "char*".toList := by
          intro heq
          rw [heq] at hpointer
          exact hpointer rfl
        rw [if_neg hchar, if_neg hpointer]
        rfl

theorem expectedReturn_of_void (h : cClass other d.retType = .void) (values : List CValue) (r : ℤ) :
    expectedReturn other ann d values r = some .none := by
  have hchar : d.retType ≠ "char*".toList := by
    intro heq
    rw [heq] at h
    cases h
  rw [expectedReturn, if_neg hchar, h]

/-- The return value by the kind of the result. -/
theorem expectedReturn_eq (values : List CValue) (r : ℤ) :
    match classifyCReturn d.retType ann with
    | .void => expectedReturn other ann d values r = some .none
    | .primitive k => cClass other d.retType = .scalar k →
        expectedReturn other ann d values r = some (.scalar k r)
    | .opaquePtr => expectedReturn other ann d values r = some (.handle r)
    | .allocatedArray elem len _ => expectedReturn other ann d values r =
        ((((names d.params).zip values).lookup len).bind CValue.length?).map
          (Returned.vec (cElemRustType elem) r)
    | .allocatedString _ => expectedReturn other ann d values r = some (.text r) := by
  rw [classifyCReturn]
  by_cases hvoid : d.retType = "void".toList
  · rw [if_pos hvoid]
    apply expectedReturn_of_void
    rw [cClass, if_pos hvoid]
  · rw [if_neg hvoid]
    cases hlookup : valueTypes.lookup d.retType with
    | some k =>
      intro hclass
      have hchar : d.retType ≠ "char*".toList := by
        intro heq
        rw [heq] at hlookup
        cases hlookup
      rw [expectedReturn, if_neg hchar, hclass]
    | none =>
      dsimp only
      by_cases hchar : d.retType = "char*".toList
      · rw [if_pos hchar, expectedReturn, if_pos hchar]
      · rw [if_neg hchar]
        by_cases hpointer : isPointerType d.retType = true
        · rw [if_pos hpointer]
          have hclass := @cClass_of_isPointerType other _ hlookup hpointer
          cases hlen : ann.outLen with
          | some len =>
            dsimp only
            rw [expectedReturn, if_neg hchar, hclass, hlen]
            exact if_pos hpointer
          | none =>
            dsimp only
            rw [expectedReturn, if_neg hchar, hclass, hlen]
            exact if_pos hpointer
        · rw [if_neg hpointer]
          intro hclass
          rw [expectedReturn, if_neg hchar, hclass]

/-! ## A conventional declaration -/

theorem mutArray_render {entry : ExportedFn}
    (hslots : consumed entry.autoParams (some 0) entry.cmParams = slotsFrom 0 entry.cmParams) :
    (renderCEntryWrapper toUppercase entry).mutArray =
      ((slotsFrom 0 entry.cmParams).filterMap mutClosure).getLast? := by
  rw [renderCEntryWrapper, hslots]

theorem lines_render {entry : ExportedFn}
    (hslots : consumed entry.autoParams (some 0) entry.cmParams = slotsFrom 0 entry.cmParams) :
    (renderCEntryWrapper toUppercase entry).lines = (slotsFrom 0 entry.cmParams).map Slot.line := by
  rw [renderCEntryWrapper, hslots]

/-- The length of a returned array is a variable that stands for it. -/
theorem lookup_length (hunshadowed : Unshadowed (d.own ann)) {len : Text} {s : Slot}
    (hs : s ∈ d.slots ann) (hlen : s.2.isLength len) :
    ∃ o, (len, Local.operand o) ∈ s.line.binds ∧ o.symType = .prim .usize ∧
      (envAfter Env.start (d.slots ann)).lookup len = some (.operand o) := by
  have hread := lookup_read (pairwise_slotsFrom.mpr (hunshadowed.imp fun h => h.2)) Env.start s hs len
    (readNames_of_isLength hlen)
  obtain ⟨o, ho, htype⟩ := bind_of_isLength hlen
  refine ⟨o, ho, htype, ?_⟩
  rw [hread]
  exact lookup_bind_of_isLength (forall_mem_slotsFrom.mpr lenNamed_own s hs) hlen ho

/-- The slots of a conventional declaration. -/
theorem Conventional.slots (h : Conventional other ann toUppercase bindable d)
    (hdistinct : (names d.params).Nodup) :
    consumed (d.entry ann).autoParams (some 0) (d.entry ann).cmParams =
      slotsFrom 0 (d.entry ann).cmParams := by
  obtain ⟨hown, hslots, _⟩ := entry_of_paired hdistinct h.paired
  rw [hslots, hown]

theorem Conventional.lines (h : Conventional other ann toUppercase bindable d)
    (hdistinct : (names d.params).Nodup) :
    (renderCEntryWrapper toUppercase (d.entry ann)).lines = (d.slots ann).map Slot.line := by
  rw [lines_render (h.slots hdistinct), (entry_of_paired hdistinct h.paired).1]

theorem Conventional.mutArray (h : Conventional other ann toUppercase bindable d)
    (hdistinct : (names d.params).Nodup) :
    (renderCEntryWrapper toUppercase (d.entry ann)).mutArray =
      ((d.slots ann).filterMap mutClosure).getLast? := by
  rw [mutArray_render (h.slots hdistinct), (entry_of_paired hdistinct h.paired).1]

theorem Conventional.env (h : Conventional other ann toUppercase bindable d)
    (hdistinct : (names d.params).Nodup) :
    (renderCEntryWrapper toUppercase (d.entry ann)).lines.foldlM (declare bindable) Env.start =
      some (envAfter Env.start (d.slots ann)) := by
  have hown := (entry_of_paired hdistinct h.paired).1
  have hfold := (@foldlM_lines_iff toUppercase _ _ (h.slots hdistinct) _).mpr
    ⟨rfl, hown ▸ h.bindable, hown ▸ h.unshadowed.imp fun h => h.1⟩
  rw [hfold, hown]

theorem Conventional.operandsIn (h : Conventional other ann toUppercase bindable d)
    (hdistinct : (names d.params).Nodup) {env : Env} {closure : Option MutClosure}
    (hclosure : ((d.slots ann).filterMap mutClosure).getLast? = closure)
    (hmut : ∀ s ∈ d.slots ann, s.2.isMutArray = true → mutClosure s = closure)
    (henv : ∀ s ∈ d.slots ann, ∀ name ∈ s.2.readNames,
      env.lookup name = (envAfter Env.start (d.slots ann)).lookup name)
    (hvec : ∀ c, closure = some c → env.lookup vecName = some (.vec c.elem c.idx)) :
    (renderCEntryWrapper toUppercase (d.entry ann)).operandsIn env =
      some (ownOperands (d.slots ann)) := by
  have hown := (entry_of_paired hdistinct h.paired).1
  have := @operandsIn_of_unshadowed toUppercase _ (h.slots hdistinct) (hown ▸ lenNamed_own)
    (hown ▸ h.unshadowed) _ _ (hown ▸ hclosure) (hown ▸ hmut) (hown ▸ henv) hvec
  rw [this, hown]

/-- The program of a conventional declaration. -/
abbrev CDeclaration.program (d : CDeclaration) (ann : Annotation) (c : Conversion) : Program :=
  ⟨(d.slots ann).map Slot.line, ownOperands (d.slots ann), c⟩

theorem Conventional.compile_closure (h : Conventional other ann toUppercase bindable d)
    (hdistinct : (names d.params).Nodup) (hex : ∃ p ∈ d.own ann, p.isMutArray = true) :
    (renderCEntryWrapper toUppercase (d.entry ann)).compile bindable = some (d.program ann .none) := by
  obtain ⟨hclosure, hvoid⟩ := h.closure hex
  obtain ⟨c, hc, hsame⟩ := filterMap_mutClosure (k := 0) hclosure.one hex
  have hmutArray := (h.mutArray hdistinct).trans hc
  rw [compile_eq_some_iff]
  refine ⟨?_, _, h.env hdistinct, ?_⟩
  · rw [renderCEntryWrapper, CDeclaration.entry]
    dsimp only
    rw [freeFn_of_void hvoid]
    exact Option.some_ne_none _ |>.symm
  · rw [Wrapper.compileIn, hmutArray, h.lines hdistinct]
    dsimp only
    rw [if_pos (lookup_args_envAfter_iff.mpr (forall_mem_slotsFrom.mpr hclosure.args)),
      h.operandsIn hdistinct hc hsame]
    · rfl
    · intro s hs name hname
      apply lookup_vec_of_ne
      rintro rfl
      exact forall_mem_slotsFrom.mpr hclosure.vec s hs hname
    · intro c' hc'
      cases Option.some.inj hc'
      exact List.lookup_cons_self

theorem Conventional.compile_plain (h : Conventional other ann toUppercase bindable d)
    (hdistinct : (names d.params).Nodup) (hnomut : ∀ p ∈ d.own ann, p.isMutArray = false)
    {c : Conversion}
    (hfree : (classifyCReturn d.retType ann).freeFn.map (symStaticName toUppercase) ≠
      some (symStaticName toUppercase d.fnName))
    (hc : conversion (envAfter Env.start (d.slots ann)) (classifyCReturn d.retType ann) = some c) :
    (renderCEntryWrapper toUppercase (d.entry ann)).compile bindable = some (d.program ann c) := by
  have hnil := filterMap_mutClosure_eq_nil (k := 0) hnomut
  have hmutArray := h.mutArray hdistinct
  rw [hnil] at hmutArray
  have hown : (renderCEntryWrapper toUppercase (d.entry ann)).operandsIn
      (envAfter Env.start (d.slots ann)) = some (ownOperands (d.slots ann)) := by
    refine h.operandsIn hdistinct (congrArg List.getLast? hnil) ?_ (fun _ _ _ _ => rfl) ?_
    · intro s hs hmut
      rw [forall_mem_slotsFrom.mpr hnomut s hs] at hmut
      cases hmut
    · intro c hc
      cases hc
  rw [compile_eq_some_iff]
  refine ⟨hfree, _, h.env hdistinct, ?_⟩
  rw [Wrapper.compileIn, hmutArray, h.lines hdistinct]
  dsimp only [List.getLast?_nil]
  rw [hown, Option.bind_some]
  exact congrArg (Option.map _) hc

/-- What is compiled hands on the result as the declaration asks. -/
theorem Conventional.exists_program (h : Conventional other ann toUppercase bindable d)
    (hdistinct : (names d.params).Nodup) :
    ∃ c, (renderCEntryWrapper toUppercase (d.entry ann)).compile bindable = some (d.program ann c) ∧
      ∀ args values r, expectedValues other ann none args d.params = some values →
        (d.program ann c).returned args r = expectedReturn other ann d values r := by
  by_cases hex : ∃ p ∈ d.own ann, p.isMutArray = true
  · refine ⟨.none, h.compile_closure hdistinct hex, fun args values r _ => ?_⟩
    rw [expectedReturn_of_void (h.closure hex).2]
    rfl
  · have hnomut : ∀ p ∈ d.own ann, p.isMutArray = false := by
      intro p hp
      exact eq_false_of_ne_true fun hmut => hex ⟨p, hp, hmut⟩
    have hresult := h.result hnomut
    have hcompile {c : Conversion} := h.compile_plain hdistinct hnomut (c := c)
    have hret := @expectedReturn_eq other ann d
    have hfree {freeFn : Option Text} (h : FreeOk toUppercase d freeFn) :
        freeFn.map (symStaticName toUppercase) ≠ some (symStaticName toUppercase d.fnName) := by
      intro heq
      obtain ⟨f, hf, hsame⟩ := Option.map_eq_some_iff.mp heq
      exact h f hf hsame
    rw [ResultOk] at hresult
    cases hkind : classifyCReturn d.retType ann with
    | void =>
      rw [hkind] at hcompile hret
      exact ⟨_, hcompile (Option.some_ne_none _).symm rfl,
        fun args values r _ => (hret values r).symm⟩
    | primitive k =>
      rw [hkind] at hcompile hret hresult
      exact ⟨_, hcompile (Option.some_ne_none _).symm rfl,
        fun args values r _ => (hret values r hresult).symm⟩
    | opaquePtr =>
      rw [hkind] at hcompile hret
      exact ⟨_, hcompile (Option.some_ne_none _).symm rfl,
        fun args values r _ => (hret values r).symm⟩
    | allocatedString freeFn =>
      rw [hkind] at hcompile hret hresult
      exact ⟨_, hcompile (hfree hresult) rfl, fun args values r _ => (hret values r).symm⟩
    | allocatedArray elem len freeFn =>
      rw [hkind] at hcompile hret hresult
      obtain ⟨⟨hraw, p, hp, hlen⟩, hresult⟩ := hresult
      rw [← map_snd_slotsFrom 0 (d.own ann)] at hp
      obtain ⟨s, hs, rfl⟩ := List.mem_map.mp hp
      obtain ⟨o, ho, htype, hlookup⟩ := lookup_length h.unshadowed hs hlen
      refine ⟨_, hcompile (c := .vec (cElemRustType elem) o) (hfree hresult) ?_, ?_⟩
      · rw [conversion, if_neg hraw, hlookup]
        exact if_pos htype
      · intro args values r hexpected
        obtain ⟨v, hv, hmem⟩ :=
          h.paired.mem_zip_of_isLength args (Nat.zero_le _) hexpected hs hlen ho htype
        rw [hret, lookup_of_mem_nodup hdistinct hmem, ← hv]
        rfl

theorem Conventional.expectedValues_eq (h : Conventional other ann toUppercase bindable d)
    (args : List ArgValue) : expectedValues other ann none args d.params =
      (ownOperands (d.slots ann)).mapM (Operand.value args) :=
  h.paired.expectedValues_eq args (Nat.zero_le _)

theorem follows_of_conventional (hdistinct : (names d.params).Nodup)
    (h : Conventional other ann toUppercase bindable d) : FollowsConvention other ann toUppercase bindable d := by
  obtain ⟨hown, hslots, hclasses⟩ := entry_of_paired hdistinct h.paired
  obtain ⟨c, hcompile, hreturn⟩ := h.exists_program hdistinct
  refine ⟨h.params, ?_, ?_, _, hcompile, fun args hnul => ?_, hreturn⟩
  · rw [map_cClass_buildCSymType, hown, hclasses]
  · rw [hslots]
    have : (d.slots ann).map (fun s => s.2.name) = (d.own ann).map CmParam.name := by
      rw [← map_snd_slotsFrom 0 (d.own ann), List.map_map]
      rfl
    rw [this, CDeclaration.own, List.map_map]
    rfl
  · rw [call_ownOperands hnul, h.expectedValues_eq]

/-! ## Strings with a NUL -/

theorem mapM_map_eq {α β γ : Type} {f : α → Option β} {g : β → γ} {xs : List α} {ys : List β}
    (h : xs.mapM f = some ys) : xs.mapM (fun x => (f x).map g) = some (ys.map g) := by
  induction xs generalizing ys with
  | nil =>
    cases Option.some.inj (h : some [] = some ys)
    rfl
  | cons x xs ih =>
    rw [List.mapM_cons] at h ⊢
    simp only [Option.bind_eq_bind, Option.bind_eq_some_iff, Option.pure_def, Option.some.injEq] at h ⊢
    obtain ⟨y, hy, zs, hzs, rfl⟩ := h
    exact ⟨g y, Option.map_eq_some_iff.mpr ⟨y, hy, rfl⟩, zs.map g, ih hzs, rfl⟩

theorem asCString_eq_iff {v : CValue} : v.asCString = v ↔ ∀ s, v = .string s → '\x00' ∉ s := by
  cases v with
  | string s =>
    rw [CValue.asCString, CValue.string.injEq]
    constructor
    · rintro h _ ⟨⟩ hmem
      rw [if_pos hmem] at h
      rw [← h] at hmem
      cases hmem
    · intro h
      exact if_neg (h s rfl)
  | _ =>
    refine iff_of_true rfl fun s hs => ?_
    cases hs

/-- A text with a NUL is passed as the empty one. -/
theorem Conventional.call_eq_iff (h : Conventional other ann toUppercase bindable d)
    (hdistinct : (names d.params).Nodup) {program : Program}
    (hprogram : (renderCEntryWrapper toUppercase (d.entry ann)).compile bindable = some program)
    {args : List ArgValue} {values : List CValue}
    (hvalues : expectedValues other ann none args d.params = some values) :
    program.call args = some values ↔ ∀ s, .string s ∈ values → '\x00' ∉ s := by
  obtain ⟨c, hcompile, _⟩ := h.exists_program hdistinct
  rw [hcompile] at hprogram
  cases Option.some.inj hprogram
  rw [h.expectedValues_eq] at hvalues
  have hall : ((d.slots ann).map Slot.line).all
      (fun line => (line.source.value args).isSome) = true := by
    rw [List.all_eq_true, List.forall_mem_map]
    intro s hs
    exact isSome_of_mem_of_mapM hvalues _ (List.mem_flatMap.mpr ⟨s, hs, source_mem_operands s⟩)
  rw [Program.call, if_pos hall, mapM_map_eq hvalues, Option.some_inj]
  constructor
  · intro heq s hs
    obtain ⟨i, hi⟩ := List.mem_iff_getElem?.mp hs
    have hat := congrArg (fun vs : List CValue => vs[i]?) heq
    rw [List.getElem?_map, hi, Option.map_some, Option.some_inj] at hat
    exact asCString_eq_iff.mp hat s rfl
  · intro hnul
    conv_rhs => rw [← List.map_id values]
    apply List.map_congr_left
    intro v hv
    exact asCString_eq_iff.mpr fun s hs => hnul s (hs ▸ hv)

end

end Tomii.CHeader
