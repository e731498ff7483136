import Tomii.Exports.CConvention

/-! # Parameters and hidden lengths

The loop of `build_entry` against the declaration: which parameters are kept, and when the slots of
the extern type are those of the declaration. -/
namespace Tomii.CHeader
open Tomii.Exports (PrimKind)
set_option autoImplicit false
set_option maxHeartbeats 250000

section

variable {other : Text → CClass} {ann : Annotation}

/-! ## The loop -/

abbrev keptParams (ann : Annotation) (prev : Option CmParam) (seen : Bool) (ps : List RawParam) :
    List CmParam :=
  (classifyParams ann prev seen ps).1

abbrev autoNames (ann : Annotation) (prev : Option CmParam) (seen : Bool) (ps : List RawParam) :
    List Text :=
  (classifyParams ann prev seen ps).2

/-- A `size_t` behind the `void**` of a variadic function. -/
abbrev Dropped (ann : Annotation) (seen : Bool) (p : RawParam) : Prop :=
  ¬ann.IsArray p ∧ (seen && ann.variadic) = true ∧ isSizeType p.cType = true

theorem classifyParams_companion {prev : Option CmParam} {seen : Bool} {p : RawParam}
    {rest : List RawParam} (h : pendingLen prev = some p.name) :
    classifyParams ann prev seen (p :: rest) =
      (keptParams ann prev seen rest, p.name :: autoNames ann prev seen rest) := by
  rw [classifyParams, if_pos h]

theorem classifyParams_dropped {prev : Option CmParam} {seen : Bool} {p : RawParam}
    {rest : List RawParam} (h : pendingLen prev ≠ some p.name) (hdropped : Dropped ann seen p) :
    classifyParams ann prev seen (p :: rest) =
      (keptParams ann prev (seen || p.cType = "void**".toList) rest,
        p.name :: autoNames ann prev (seen || p.cType = "void**".toList) rest) := by
  rw [classifyParams, if_neg h, classifyCParam, if_pos hdropped]

theorem classifyParams_kept {prev : Option CmParam} {seen : Bool} {p : RawParam}
    {rest : List RawParam} (h : pendingLen prev ≠ some p.name) (hkept : ¬Dropped ann seen p) :
    classifyParams ann prev seen (p :: rest) =
      (p.kept ann :: keptParams ann (some (p.kept ann)) (seen || p.cType = "void**".toList) rest,
        autoNames ann (some (p.kept ann)) (seen || p.cType = "void**".toList) rest) := by
  rw [classifyParams, if_neg h, classifyCParam, if_neg hkept]
  rfl

/-- Every parameter goes one of the two ways. -/
theorem mem_names_of_classifyParams (ps : List RawParam) (prev : Option CmParam) (seen : Bool) :
    (∀ p ∈ keptParams ann prev seen ps, p.name ∈ ps.map RawParam.name) ∧
      ∀ name ∈ autoNames ann prev seen ps, name ∈ ps.map RawParam.name := by
  induction ps generalizing prev seen with
  | nil =>
    constructor
    · intro p hp
      cases hp
    · intro name hname
      cases hname
  | cons p rest ih =>
    by_cases hcompanion : pendingLen prev = some p.name
    · rw [keptParams, autoNames, classifyParams_companion hcompanion, List.map_cons]
      have := ih prev seen
      constructor
      · intro q hq
        exact List.mem_cons_of_mem _ (this.1 q hq)
      · intro name hname
        rcases List.mem_cons.mp hname with rfl | hname
        · exact List.mem_cons_self
        · exact List.mem_cons_of_mem _ (this.2 name hname)
    · by_cases hdropped : Dropped ann seen p
      · rw [keptParams, autoNames, classifyParams_dropped hcompanion hdropped, List.map_cons]
        have := ih prev (seen || p.cType = "void**".toList)
        constructor
        · intro q hq
          exact List.mem_cons_of_mem _ (this.1 q hq)
        · intro name hname
          rcases List.mem_cons.mp hname with rfl | hname
          · exact List.mem_cons_self
          · exact List.mem_cons_of_mem _ (this.2 name hname)
      · rw [keptParams, autoNames, classifyParams_kept hcompanion hdropped, List.map_cons]
        have := ih (some (p.kept ann)) (seen || p.cType = "void**".toList)
        constructor
        · intro q hq
          rcases List.mem_cons.mp hq with rfl | hq
          · exact List.mem_cons_self
          · exact List.mem_cons_of_mem _ (this.1 q hq)
        · intro name hname
          exact List.mem_cons_of_mem _ (this.2 name hname)

/-- And only one, where no two are named alike. -/
theorem disjoint_keptParams {ps : List RawParam} (hdistinct : (ps.map RawParam.name).Nodup)
    (prev : Option CmParam) (seen : Bool) :
    ∀ p ∈ keptParams ann prev seen ps, p.name ∉ autoNames ann prev seen ps := by
  induction ps generalizing prev seen with
  | nil =>
    intro p hp
    cases hp
  | cons p rest ih =>
    rw [List.map_cons, List.nodup_cons] at hdistinct
    intro q hq
    by_cases hcompanion : pendingLen prev = some p.name
    · rw [keptParams, classifyParams_companion hcompanion] at hq
      rw [autoNames, classifyParams_companion hcompanion, List.mem_cons, not_or]
      refine ⟨?_, ih hdistinct.2 prev seen q hq⟩
      intro heq
      exact hdistinct.1 (heq ▸ (mem_names_of_classifyParams rest prev seen).1 q hq)
    · by_cases hdropped : Dropped ann seen p
      · rw [keptParams, classifyParams_dropped hcompanion hdropped] at hq
        rw [autoNames, classifyParams_dropped hcompanion hdropped, List.mem_cons, not_or]
        refine ⟨?_, ih hdistinct.2 prev _ q hq⟩
        intro heq
        exact hdistinct.1 (heq ▸ (mem_names_of_classifyParams rest prev _).1 q hq)
      · rw [keptParams, classifyParams_kept hcompanion hdropped] at hq
        rw [autoNames, classifyParams_kept hcompanion hdropped]
        rcases List.mem_cons.mp hq with rfl | hq
        · intro hauto
          exact hdistinct.1 ((mem_names_of_classifyParams rest _ _).2 _ hauto)
        · exact ih hdistinct.2 _ _ q hq

/-! ## Own parameters -/

theorem ownParams_companion {owner q : RawParam} {rest : List RawParam}
    (h : isCompanion ann owner q = true) :
    ownParams ann (some owner) (q :: rest) = ownParams ann none rest := by
  rw [ownParams, Option.any_some, if_pos h]

theorem ownParams_own {owner q : RawParam} {rest : List RawParam}
    (h : isCompanion ann owner q ≠ true) :
    ownParams ann (some owner) (q :: rest) = ownParams ann none (q :: rest) := by
  rw [ownParams, Option.any_some, if_neg h, ownParams, Option.any_none]
  rfl

theorem ownParams_none_cons (p : RawParam) (rest : List RawParam) :
    ownParams ann none (p :: rest) = p :: ownParams ann (some p) rest := rfl

theorem ownParams_plain {p : RawParam} (harray : ¬ann.IsArray p) (hslice : p.cType ≠ "void**".toList)
    (rest : List RawParam) : ownParams ann (some p) rest = ownParams ann none rest := by
  cases rest with
  | nil => rfl
  | cons q rest =>
    apply ownParams_own
    rw [isCompanion, if_neg harray, if_neg hslice]
    exact Bool.false_ne_true

theorem isCompanion_array {p q : RawParam} (harray : ann.IsArray p) :
    isCompanion ann p q = true ↔ q.name = lenParam p.name := by
  rw [isCompanion, if_pos harray, decide_eq_true_eq]

/-! ## Kinds -/

theorem kindOf_of_not_isArray {p : RawParam} (h : ¬ann.IsArray p) :
    kindOf ann p = kindOfType p.cType := by
  rw [ Annotation.IsArray, not_or] at h
  rw [kindOf, if_neg h.1, if_neg h.2]

theorem kindOf_of_isArray {p : RawParam} (h : ann.IsArray p) :
    kindOf ann p = .mutArrayPtr (normaliseElementType p.cType) (lenParam p.name) ∨
      kindOf ann p = .arrayPtr (normaliseElementType p.cType) (lenParam p.name) := by
  rw [kindOf]
  by_cases hmut : p.name ∈ ann.mutArrayParams
  · rw [if_pos hmut]
    exact .inl rfl
  · rw [if_neg hmut, if_pos (h.resolve_left hmut)]
    exact .inr rfl

theorem pendingLen_of_isArray {p : RawParam} (h : ann.IsArray p) :
    pendingLen (some (p.kept ann)) = some (lenParam p.name) := by
  rw [pendingLen, Option.bind_some, RawParam.kept]
  rcases kindOf_of_isArray h with hkind | hkind <;>
    · rw [hkind]
      rfl

/-- The kinds that a type alone can give have no length of their own. -/
theorem kindOfType_cases (t : Text) :
    (∃ k, kindOfType t = .primitive k) ∨ kindOfType t = .strRef ∨ kindOfType t = .opaquePtr ∨
      (kindOfType t = .sliceCmTypes ∧ t = "void**".toList) := by
  rw [kindOfType]
  cases valueTypes.lookup t with
  | some k => exact .inl ⟨k, rfl⟩
  | none =>
    dsimp only
    by_cases hstr : isStrType t = true
    · rw [if_pos hstr]
      exact .inr (.inl rfl)
    · rw [if_neg hstr]
      by_cases hvoid : t = "void*".toList
      · rw [if_pos hvoid]
        exact .inr (.inr (.inl rfl))
      · rw [if_neg hvoid]
        by_cases hslice : t = "void**".toList
        · rw [if_pos hslice]
          exact .inr (.inr (.inr ⟨rfl, hslice⟩))
        · rw [if_neg hslice]
          by_cases hpointer : isPointerType t = true
          · rw [if_pos hpointer]
            exact .inr (.inr (.inl rfl))
          · rw [if_neg hpointer]
            exact .inl ⟨.i32, rfl⟩

theorem kindOfType_void_ptr_ptr : kindOfType "void**".toList = .sliceCmTypes := by decide

theorem pendingLen_of_not_isArray {p : RawParam} (h : ¬ann.IsArray p) :
    pendingLen (some (p.kept ann)) = none := by
  rw [pendingLen, Option.bind_some, RawParam.kept, kindOf_of_not_isArray h]
  rcases kindOfType_cases p.cType with ⟨k, hk⟩ | hk | hk | ⟨hk, _⟩ <;>
    · rw [hk]
      rfl

/-! ## Both in step -/

/-- The loop keeps what has an argument of its own: one by one, or with the companion behind it. -/
inductive InStep (ann : Annotation) : Bool → List RawParam → List CmParam → Prop where
  | nil {seen : Bool} : InStep ann seen [] []
  | single {seen : Bool} {p : RawParam} {rest : List RawParam} {kept : List CmParam}
      (hkept : ¬Dropped ann seen p) (halone : ∀ q ∈ rest.head?, isCompanion ann p q ≠ true)
      (hrest : InStep ann (seen || p.cType = "void**".toList) rest kept) :
      InStep ann seen (p :: rest) (p.kept ann :: kept)
  | pair {seen : Bool} {p q : RawParam} {rest : List RawParam} {kept : List CmParam}
      (hkept : ¬Dropped ann seen p) (hcompanion : isCompanion ann p q = true)
      (hrest : InStep ann (seen || p.cType = "void**".toList) rest kept) :
      InStep ann seen (p :: q :: rest) (p.kept ann :: kept)

abbrev names (ps : List RawParam) : List Text := ps.map RawParam.name

/-- What stands at the head is no length of what was kept before. -/
abbrev FreshHead (prev : Option CmParam) (ps : List RawParam) : Prop :=
  ∀ p ∈ ps.head?, pendingLen prev ≠ some p.name

theorem freshHead_of_pendingLen {prev : Option CmParam} (h : pendingLen prev = none)
    (ps : List RawParam) : FreshHead prev ps := by
  intro p _
  rw [h]
  exact Option.some_ne_none _ |>.symm

theorem freshHead_behind_companion {p q : RawParam} {rest : List RawParam} (harray : ann.IsArray p)
    (hname : q.name = lenParam p.name) (hdistinct : (names (q :: rest)).Nodup) :
    FreshHead (some (p.kept ann)) rest := by
  intro r hr
  rw [pendingLen_of_isArray harray, ← hname, Ne, Option.some_inj]
  intro heq
  exact (List.nodup_cons.mp hdistinct).1 (heq ▸ List.mem_map_of_mem (List.mem_of_mem_head? hr))

theorem freshHead_behind {p : RawParam} {rest : List RawParam}
    (h : ∀ q ∈ rest.head?, isCompanion ann p q ≠ true) : FreshHead (some (p.kept ann)) rest := by
  by_cases harray : ann.IsArray p
  · intro q hq heq
    rw [pendingLen_of_isArray harray, Option.some_inj] at heq
    exact h q hq ((isCompanion_array harray).mpr heq.symm)
  · exact freshHead_of_pendingLen (pendingLen_of_not_isArray harray) rest

/-- A count is dropped by the loop, a length by its name. -/
theorem classifyParams_behind_companion {seen : Bool} {p q : RawParam} {rest : List RawParam}
    (hcompanion : isCompanion ann p q = true) :
    classifyParams ann (some (p.kept ann)) (seen || p.cType = "void**".toList) (q :: rest) =
      (keptParams ann (some (p.kept ann)) (seen || p.cType = "void**".toList) rest,
        q.name :: autoNames ann (some (p.kept ann)) (seen || p.cType = "void**".toList) rest) := by
  by_cases harray : ann.IsArray p
  · apply classifyParams_companion
    rw [pendingLen_of_isArray harray, (isCompanion_array harray).mp hcompanion]
  · rw [isCompanion, if_neg harray] at hcompanion
    by_cases hslice : p.cType = "void**".toList
    · rw [if_pos hslice] at hcompanion
      simp only [Bool.and_eq_true, Bool.not_eq_true', decide_eq_false_iff_not] at hcompanion
      obtain ⟨⟨hvariadic, hsize⟩, hplain⟩ := hcompanion
      have hdropped : Dropped ann (seen || p.cType = "void**".toList) q := by
        refine ⟨hplain, ?_, hsize⟩
        rw [decide_eq_true hslice, Bool.or_true, Bool.true_and]
        exact hvariadic
      rw [classifyParams_dropped _ hdropped, decide_eq_true hslice, Bool.or_true, Bool.true_or]
      rw [pendingLen_of_not_isArray harray]
      exact Option.some_ne_none _ |>.symm
    · rw [if_neg hslice] at hcompanion
      exact absurd hcompanion Bool.false_ne_true

/-- Where the names agree nothing else is dropped. -/
theorem inStep_of_names : ∀ (ps : List RawParam) (prev : Option CmParam) (seen : Bool),
    FreshHead prev ps → (names ps).Nodup →
      (keptParams ann prev seen ps).map CmParam.name = names (ownParams ann none ps) →
        InStep ann seen ps (keptParams ann prev seen ps)
  | [], _, _, _, _, _ => .nil
  | p :: rest, prev, seen, hfresh, hdistinct, hnames => by
    have hhead : pendingLen prev ≠ some p.name := hfresh p rfl
    have hnotin : p.name ∉ names rest := (List.nodup_cons.mp hdistinct).1
    have hkept : ¬Dropped ann seen p := by
      intro hdropped
      rw [keptParams, classifyParams_dropped hhead hdropped, ownParams_none_cons] at hnames
      have hmem : p.name ∈ (keptParams ann prev (seen || p.cType = "void**".toList) rest).map
          CmParam.name := by
        rw [hnames]
        exact List.mem_cons_self
      obtain ⟨q, hq, hname⟩ := List.mem_map.mp hmem
      exact hnotin (hname ▸ (mem_names_of_classifyParams rest prev _).1 q hq)
    rw [keptParams, classifyParams_kept hhead hkept, ownParams_none_cons, List.map_cons, names,
      List.map_cons] at hnames
    have hbehind := (List.cons.inj hnames).2
    rw [keptParams, classifyParams_kept hhead hkept]
    cases rest with
    | nil =>
      refine .single hkept ?_ .nil
      intro q hq
      cases hq
    | cons q rest =>
      by_cases hcompanion : isCompanion ann p q = true
      · rw [keptParams, classifyParams_behind_companion hcompanion] at hbehind ⊢
        rw [ownParams_companion hcompanion] at hbehind
        refine .pair hkept hcompanion (inStep_of_names rest _ _ ?_ hdistinct.of_cons.of_cons hbehind)
        by_cases harray : ann.IsArray p
        · exact freshHead_behind_companion harray ((isCompanion_array harray).mp hcompanion)
            hdistinct.of_cons
        · exact freshHead_of_pendingLen (pendingLen_of_not_isArray harray) rest
      · have halone : ∀ r ∈ (q :: rest).head?, isCompanion ann p r ≠ true := by
          intro r hr
          cases hr
          exact hcompanion
        rw [ownParams_own hcompanion] at hbehind
        exact .single hkept halone
          (inStep_of_names (q :: rest) _ _ (freshHead_behind halone) hdistinct.of_cons hbehind)

/-! ## Slots -/

abbrev slotClasses (kept : List CmParam) : List CClass :=
  kept.flatMap fun p => p.kind.symTypes.map CSymType.cClass

abbrev classes (other : Text → CClass) (ps : List RawParam) : List CClass :=
  ps.map fun p => cClass other p.cType

theorem slotClasses_array {p : RawParam} (h : ann.IsArray p) (kept : List CmParam) :
    slotClasses (p.kept ann :: kept) = .pointer :: .scalar .usize :: slotClasses kept := by
  rw [slotClasses, List.flatMap_cons, RawParam.kept]
  rcases kindOf_of_isArray h with hkind | hkind <;>
    · rw [hkind]
      rfl

theorem slotClasses_slice {p : RawParam} (harray : ¬ann.IsArray p)
    (hslice : p.cType = "void**".toList) (kept : List CmParam) :
    slotClasses (p.kept ann :: kept) = .pointer :: .scalar .usize :: slotClasses kept := by
  rw [slotClasses, List.flatMap_cons, RawParam.kept, kindOf_of_not_isArray harray, hslice,
    kindOfType_void_ptr_ptr]
  rfl

/-- The class of the slot that a type alone asks for. -/
def typeClass (t : Text) : CClass :=
  match valueTypes.lookup t with
  | some k => .scalar k
  | none => if isPointerType t then .pointer else .scalar .i32

theorem isPointerType_of_isStrType {t : Text} (h : isStrType t = true) : isPointerType t = true := by
  rw [isStrType, Bool.or_eq_true, Bool.or_eq_true, decide_eq_true_eq, decide_eq_true_eq,
    decide_eq_true_eq] at h
  rcases h with (rfl | rfl) | rfl <;> decide

theorem symTypes_kindOfType {t : Text} (h : t ≠ "void**".toList) :
    (kindOfType t).symTypes.map CSymType.cClass = [typeClass t] := by
  rw [kindOfType, typeClass]
  cases valueTypes.lookup t with
  | some k => rfl
  | none =>
    dsimp only
    by_cases hstr : isStrType t = true
    · rw [if_pos hstr, if_pos (isPointerType_of_isStrType hstr)]
      rfl
    · rw [if_neg hstr, if_neg h]
      by_cases hvoid : t = "void*".toList
      · rw [if_pos hvoid, hvoid]
        rfl
      · rw [if_neg hvoid]
        by_cases hpointer : isPointerType t = true
        · rw [if_pos hpointer, if_pos hpointer]
          rfl
        · rw [if_neg hpointer, if_neg hpointer]
          rfl

theorem slotClasses_plain {p : RawParam} (harray : ¬ann.IsArray p)
    (hslice : p.cType ≠ "void**".toList) (kept : List CmParam) :
    slotClasses (p.kept ann :: kept) = typeClass p.cType :: slotClasses kept := by
  rw [slotClasses, List.flatMap_cons, RawParam.kept, kindOf_of_not_isArray harray,
    symTypes_kindOfType hslice]
  rfl

theorem knownType_iff {t : Text} : KnownType other t ↔ cClass other t = typeClass t := by
  rw [KnownType, cClass, typeClass]
  by_cases hvoid : t = "void".toList
  · rw [if_pos hvoid, hvoid]
    refine ⟨fun h => absurd rfl h.1, fun h => ?_⟩
    cases h
  · rw [if_neg hvoid]
    cases valueTypes.lookup t with
    | some k => exact iff_of_true ⟨hvoid, fun h => absurd h (Option.some_ne_none k)⟩ rfl
    | none =>
      by_cases hpointer : isPointerType t = true
      · refine iff_of_true ⟨hvoid, fun _ h => absurd hpointer ?_⟩ ?_
        · rw [h]
          exact Bool.false_ne_true
        · rw [if_pos hpointer, if_pos hpointer]
      · dsimp only
        rw [if_neg hpointer, if_neg hpointer]
        exact ⟨fun h => h.2 rfl (eq_false_of_ne_true hpointer), fun h => ⟨hvoid, fun _ _ => h⟩⟩

theorem length_le_slotClasses {seen : Bool} {ps : List RawParam} {kept : List CmParam}
    (h : InStep ann seen ps kept) : ps.length ≤ (slotClasses kept).length := by
  have hone (p : RawParam) (kept : List CmParam) :
      (slotClasses kept).length + 1 ≤ (slotClasses (p.kept ann :: kept)).length := by
    by_cases harray : ann.IsArray p
    · rw [slotClasses_array harray, List.length_cons, List.length_cons]
      exact Nat.le_succ _
    · by_cases hslice : p.cType = "void**".toList
      · rw [slotClasses_slice harray hslice, List.length_cons, List.length_cons]
        exact Nat.le_succ _
      · rw [slotClasses_plain harray hslice, List.length_cons]
  induction h with
  | nil => exact Nat.le_refl _
  | @single seen p rest kept _ _ _ ih =>
    have := hone p kept
    rw [List.length_cons]
    omega
  | @pair seen p q rest kept _ hcompanion _ ih =>
    have htwo : (slotClasses (p.kept ann :: kept)).length = (slotClasses kept).length + 2 := by
      by_cases harray : ann.IsArray p
      · rw [slotClasses_array harray, List.length_cons, List.length_cons]
      · by_cases hslice : p.cType = "void**".toList
        · rw [slotClasses_slice harray hslice, List.length_cons, List.length_cons]
        · rw [isCompanion, if_neg harray, if_neg hslice] at hcompanion
          exact absurd hcompanion Bool.false_ne_true
    rw [htwo, List.length_cons, List.length_cons]
    omega

/-- Nothing is kept behind a `void**`. -/
def SliceLast (kept : List CmParam) : Prop :=
  ∀ pre p post, kept = pre ++ p :: post → p.kind = .sliceCmTypes → post = []

theorem SliceLast.of_cons {p : CmParam} {kept : List CmParam} (h : SliceLast (p :: kept)) :
    SliceLast kept := by
  intro pre q post heq hkind
  exact h (p :: pre) q post (heq ▸ rfl) hkind

theorem paired_of_inStep {seen : Bool} {ps : List RawParam} {kept : List CmParam}
    (h : InStep ann seen ps kept) (hclasses : slotClasses kept = classes other ps)
    (hlast : SliceLast kept) : Paired other ann seen ps := by
  induction h with
  | nil => exact .nil
  | @single seen p rest kept hkept halone hrest ih =>
    -- two slots for one parameter leave too few slots behind
    have hfew (hslots : slotClasses (p.kept ann :: kept) =
        .pointer :: .scalar .usize :: slotClasses kept) : False := by
      have hlength := congrArg List.length hclasses
      rw [hslots, List.length_cons, List.length_cons, List.length_map, List.length_cons] at hlength
      have := length_le_slotClasses hrest
      omega
    by_cases harray : ann.IsArray p
    · exact (hfew (slotClasses_array harray kept)).elim
    · by_cases hslice : p.cType = "void**".toList
      · exact (hfew (slotClasses_slice harray hslice kept)).elim
      · rw [slotClasses_plain harray hslice] at hclasses
        have hparts := List.cons.inj hclasses
        have hseen : (seen || p.cType = "void**".toList) = seen := by
          rw [decide_eq_false hslice, Bool.or_false]
        rw [hseen] at ih
        exact .plain harray hslice (knownType_iff.mpr hparts.1.symm) (fun h => hkept ⟨harray, h⟩)
          (ih hparts.2 hlast.of_cons)
  | @pair seen p q rest kept hkept hcompanion hrest ih =>
    by_cases harray : ann.IsArray p
    · rw [slotClasses_array harray] at hclasses
      have hparts := List.cons.inj hclasses
      have hbehind := List.cons.inj hparts.2
      exact .array harray hparts.1.symm ((isCompanion_array harray).mp hcompanion) hbehind.1.symm
        (ih hbehind.2 hlast.of_cons)
    · by_cases hslice : p.cType = "void**".toList
      · have hkind : (p.kept ann).kind = .sliceCmTypes := by
          rw [RawParam.kept, kindOf_of_not_isArray harray, hslice, kindOfType_void_ptr_ptr]
        have hnil : kept = [] := hlast [] (p.kept ann) kept rfl hkind
        subst hnil
        cases hrest
        exact .variadic harray hslice hcompanion
      · rw [isCompanion, if_neg harray, if_neg hslice] at hcompanion
        exact absurd hcompanion Bool.false_ne_true

/-- A declaration in pairs is read as one. -/
theorem Paired.keptParams_eq {seen : Bool} {ps : List RawParam} (h : Paired other ann seen ps)
    {prev : Option CmParam} (hfresh : FreshHead prev ps) (hdistinct : (names ps).Nodup) :
    keptParams ann prev seen ps = (ownParams ann none ps).map (RawParam.kept ann) ∧
      slotClasses (keptParams ann prev seen ps) = classes other ps := by
  induction h generalizing prev with
  | nil => exact ⟨rfl, rfl⟩
  | @plain seen p rest harray hslice htype hkept hrest ih =>
    have hnot : ¬Dropped ann seen p := fun h => hkept h.2
    have hseen : (seen || p.cType = "void**".toList) = seen := by
      rw [decide_eq_false hslice, Bool.or_false]
    rw [keptParams, classifyParams_kept (hfresh p rfl) hnot, ownParams_none_cons,
      ownParams_plain harray hslice, hseen, slotClasses_plain harray hslice, List.map_cons]
    have := ih (freshHead_of_pendingLen (pendingLen_of_not_isArray harray) rest) hdistinct.of_cons
    rw [this.2, ← knownType_iff.mp htype, ← this.1]
    exact ⟨rfl, rfl⟩
  | @array seen p q rest harray hpointer hname hlen hrest ih =>
    have hnot : ¬Dropped ann seen p := fun h => h.1 harray
    have hcompanion := (isCompanion_array harray).mpr hname
    rw [keptParams, classifyParams_kept (hfresh p rfl) hnot, ownParams_none_cons,
      ownParams_companion hcompanion, keptParams, classifyParams_behind_companion hcompanion,
      slotClasses_array harray, List.map_cons]
    have := ih (freshHead_behind_companion harray hname hdistinct.of_cons) hdistinct.of_cons.of_cons
    rw [this.2, ← this.1, ← hpointer, ← hlen]
    exact ⟨rfl, rfl⟩
  | @variadic seen p q harray hslice hcompanion =>
    have hnot : ¬Dropped ann seen p := by
      rintro ⟨_, _, hsize⟩
      rw [hslice] at hsize
      exact absurd hsize (by decide)
    have hq : cClass other q.cType = .scalar .usize := by
      rw [isCompanion, if_neg harray, if_pos hslice] at hcompanion
      simp only [Bool.and_eq_true, isSizeType, Bool.or_eq_true, decide_eq_true_eq] at hcompanion
      rcases hcompanion.1.2 with hsize | hsize <;>
        · rw [hsize]
          rfl
    rw [keptParams, classifyParams_kept (hfresh p rfl) hnot, ownParams_none_cons,
      ownParams_companion hcompanion, keptParams, classifyParams_behind_companion hcompanion,
      slotClasses_slice harray hslice]
    refine ⟨rfl, ?_⟩
    rw [classes, List.map_cons, List.map_cons, hq, hslice]
    rfl

end

end Tomii.CHeader
