import Tomii.Exports.Companion
import Tomii.Exports.Converter

/-! # Companion and converter agree

Both sides classify the written types of a signature. The macro knows a type by a path of one
segment, the converter by the last segment of any path. -/
namespace Tomii.Exports
set_option autoImplicit false
set_option maxHeartbeats 250000

/-! ## Names of known types -/

/-- The types that both crates leave as they are. -/
abbrev IsKnown (name : Text) : Prop := isPrimitiveIdent name = true ∨ name = "String".toList

theorem knownNames_eq : numericNames ++ ["char".toList, "String".toList] =
    PrimKind.all.map PrimKind.rustType ++ ["String".toList] := rfl

theorem primKindFromStr_eq_some {name : Text} {k : PrimKind} (h : primKindFromStr name = some k) :
    k.rustType = name := by
  unfold primKindFromStr at h
  simpa using List.find?_some h

theorem isPrimitiveIdent_iff {name : Text} :
    isPrimitiveIdent name = true ↔ name ∈ PrimKind.all.map PrimKind.rustType := by
  rw [isPrimitiveIdent, primKindFromStr, List.find?_isSome, List.mem_map]
  simp only [decide_eq_true_eq]

theorem mem_knownNames_iff {name : Text} :
    name ∈ numericNames ++ ["char".toList, "String".toList] ↔ IsKnown name := by
  rw [knownNames_eq, List.mem_append, List.mem_singleton, IsKnown, isPrimitiveIdent_iff]

theorem returnVariants_eq :
    returnVariants = PrimKind.all.map fun k => (k.rustType, k.variantName) := rfl

theorem lookup_map_eq {ι : Type} (keys values : ι → Text) (is : List ι) (name : Text) :
    (is.map fun i => (keys i, values i)).lookup name =
      (is.find? fun i => keys i = name).map values := by
  induction is with
  | nil => rfl
  | cons i is ih =>
    rw [List.map_cons, List.lookup_cons, List.find?_cons]
    by_cases h : keys i = name
    · rw [decide_eq_true h, beq_iff_eq.mpr h.symm]
      rfl
    · rw [decide_eq_false h, beq_eq_false_iff_ne.mpr (Ne.symm h)]
      exact ih

theorem lookup_returnVariants (name : Text) :
    returnVariants.lookup name = (primKindFromStr name).map PrimKind.variantName := by
  rw [returnVariants_eq]
  exact lookup_map_eq PrimKind.rustType PrimKind.variantName PrimKind.all name

/-! ## Parameters -/

/-- When both sides give a parameter one type. -/
def SameParam : Ty → Prop
  | .reference lifetime mutable elem =>
    refIsStr elem = true →
      (lifetime = none ∨ lifetime = some ['\x27', '_']) ∧ mutable = false ∧
        elem = .bare "str".toList
  | .path leadingColon [segment] =>
    IsKnown segment.ident → Ty.path leadingColon [segment] = .bare segment.ident
  | .path leadingColon segments => ¬IsKnown (typeName (.path leadingColon segments))
  | _ => True

/-- The type that the companion gives a parameter. -/
def companionSlot (ty : Ty) : Slot := (Param.mk [] ty (classify ty)).slot

theorem slot_inferCmParamKind_path {leadingColon : Bool} {segments : List PathSegment} {name : Text}
    (h : typeName (.path leadingColon segments) = name) :
    (IsKnown name → (inferCmParamKind (.path leadingColon segments)).slot = .written (.bare name)) ∧
      (¬IsKnown name → (inferCmParamKind (.path leadingColon segments)).slot = .cmTypes) := by
  unfold inferCmParamKind
  simp only [h]
  constructor
  · intro hknown
    rw [if_pos hknown]
    split
    · next hstring => rw [hstring, CmParamKind.slot]
    · next hstring =>
      have hprim := hknown.resolve_right hstring
      obtain ⟨k, hk⟩ := Option.isSome_iff_exists.mp hprim
      rw [hk]
      change Slot.written (.bare k.rustType) = _
      rw [primKindFromStr_eq_some hk]
  · intro hunknown
    rw [if_neg hunknown, CmParamKind.slot]

theorem slot_inferCmParamKind_eq_cmTypes {leadingColon : Bool} {segments : List PathSegment} :
    (inferCmParamKind (.path leadingColon segments)).slot = .cmTypes ↔
      ¬IsKnown (typeName (.path leadingColon segments)) := by
  have hname : typeName (.path leadingColon segments) = typeName (.path leadingColon segments) := rfl
  obtain ⟨hknown, hunknown⟩ := slot_inferCmParamKind_path hname
  refine ⟨fun hslot h => ?_, hunknown⟩
  rw [hknown h] at hslot
  cases hslot

theorem elided_reference_eq_iff {lifetime : Option Text} {mutable : Bool} {elem other : Ty} :
    (Ty.reference lifetime mutable elem).elided = .reference none false other ↔
      (lifetime = none ∨ lifetime = some ['\x27', '_']) ∧ mutable = false ∧ elem = other := by
  unfold Ty.elided
  split
  · next heq =>
    obtain ⟨rfl, rfl, rfl⟩ := Ty.reference.inj heq
    simp
  · next hne =>
    rw [Ty.reference.injEq]
    constructor
    · rintro ⟨rfl, rfl, rfl⟩
      exact ⟨.inl rfl, rfl, rfl⟩
    · rintro ⟨rfl | rfl, rfl, rfl⟩
      · exact ⟨rfl, rfl, rfl⟩
      · exact absurd rfl (hne _ _)

theorem companionSlot_path (leadingColon : Bool) (segment : PathSegment) :
    companionSlot (.path leadingColon [segment]) =
      if IsKnown segment.ident then .written (.path leadingColon [segment]) else .cmTypes := by
  have hprim : isPrimitiveOrString (.path leadingColon [segment]) =
      decide (IsKnown segment.ident) := decide_eq_decide.mpr mem_knownNames_iff
  rw [companionSlot, classify, hprim]
  · by_cases h : IsKnown segment.ident
    · simp only [h, decide_true, if_true]
      rfl
    · simp only [h, decide_false, if_false]
      rfl
  · nofun

theorem sameParam_iff (ty : Ty) :
    (inferCmParamKind ty).slot = companionSlot ty ↔ SameParam ty := by
  cases ty with
  | reference lifetime mutable elem =>
    cases hstr : refIsStr elem with
    | true =>
      have hconverter : (inferCmParamKind (.reference lifetime mutable elem)).slot =
          .written (.reference none false (.bare "str".toList)) := by
        rw [inferCmParamKind, if_pos hstr, CmParamKind.slot]
      have hcompanion : companionSlot (.reference lifetime mutable elem) =
          .written (Ty.reference lifetime mutable elem).elided := by
        rw [companionSlot, classify, if_pos hstr, Param.slot]
      rw [hconverter, hcompanion, eq_comm, Slot.written.injEq, elided_reference_eq_iff, SameParam,
        hstr]
      exact ⟨fun h _ => h, fun h => h rfl⟩
    | false =>
      have hconverter : (inferCmParamKind (.reference lifetime mutable elem)).slot = .cmTypes := by
        rw [inferCmParamKind, if_neg (ne_true_of_eq_false hstr), CmParamKind.slot]
      have hcompanion : companionSlot (.reference lifetime mutable elem) = .cmTypes := by
        rw [companionSlot, classify, if_neg (ne_true_of_eq_false hstr)]
        cases mutable <;> rfl
      rw [hconverter, hcompanion, SameParam, hstr]
      exact iff_of_true rfl nofun
  | path leadingColon segments =>
    match segments with
    | [segment] =>
      have hname : typeName (.path leadingColon [segment]) = segment.ident := rfl
      obtain ⟨hknown, hunknown⟩ := slot_inferCmParamKind_path hname
      rw [companionSlot_path, SameParam]
      by_cases h : IsKnown segment.ident
      · rw [hknown h, if_pos h, Slot.written.injEq]
        exact ⟨fun heq _ => heq.symm, fun heq => (heq h).symm⟩
      · rw [hunknown h, if_neg h]
        exact iff_of_true rfl fun h' => absurd h' h
    | [] => exact slot_inferCmParamKind_eq_cmTypes
    | _ :: _ :: _ => exact slot_inferCmParamKind_eq_cmTypes
  | slice elem => exact iff_of_true rfl trivial
  | other tokens => exact iff_of_true rfl trivial

/-! ## Results -/

/-- When the hint names the variant that comes back. -/
def SameReturn : ReturnType → Prop
  | .type (.path leadingColon segments) =>
    2 ≤ segments.length → ¬IsKnown (typeName (.path leadingColon segments))
  | _ => True

/-- A hint, where there is one, is the variant of every result. -/
def HintHolds (hint : Option Text) (returns : Text → Prop) : Prop :=
  ∀ name, hint = some name → ∀ variant, returns variant → variant = name

theorem hintHolds_none (returns : Text → Prop) : HintHolds none returns := nofun

theorem hintHolds_some {name variant : Text} :
    HintHolds (some name) (fun v => v = variant) ↔ variant = name :=
  ⟨fun h => h name rfl variant rfl, fun h _ hname _ hv => hv.trans (h.trans (Option.some.inj hname))⟩

/-- The hint by the last segment of the path. -/
def nameHint (name : Text) : Option Text :=
  match primKindFromStr name with
  | some k => some k.variantName
  | none =>
    if name = "String".toList then some "String".toList
    else if name = "CmTypes".toList then none
    else some "Any".toList

theorem nameHint_holds (segment : PathSegment) (leadingColon : Bool) :
    HintHolds (nameHint segment.ident) (classifyReturn (.path leadingColon [segment])).Gives := by
  rw [classifyReturn, lookup_returnVariants, nameHint]
  cases primKindFromStr segment.ident with
  | some k => exact hintHolds_some.mpr rfl
  | none =>
    dsimp only [Option.map_none]
    split
    · exact hintHolds_some.mpr rfl
    · split
      · exact hintHolds_none _
      · exact hintHolds_some.mpr rfl

theorem variantName_ne_any (k : PrimKind) : k.variantName ≠ "Any".toList := by
  cases k <;> decide

/-- Over a longer path the macro knows `CmTypes` only. -/
theorem nameHint_holds_iff {name : Text} :
    HintHolds (nameHint name)
        (if name = "CmTypes".toList then RetKind.cmTypesDirect else .other).Gives ↔
      ¬IsKnown name := by
  by_cases hcm : name = "CmTypes".toList
  · subst hcm
    exact iff_of_true (hintHolds_none _) (by decide)
  · rw [if_neg hcm, nameHint]
    cases hprim : primKindFromStr name with
    | some k =>
      refine iff_of_false (fun h => variantName_ne_any k (hintHolds_some.mp h).symm) fun h => ?_
      exact h (.inl (by rw [isPrimitiveIdent, hprim]; rfl))
    | none =>
      dsimp only
      by_cases hstring : name = "String".toList
      · rw [if_pos hstring]
        refine iff_of_false (fun h => ?_) fun h => h (.inr hstring)
        exact absurd (hintHolds_some.mp h) (by decide)
      · rw [if_neg hstring, if_neg hcm]
        refine iff_of_true (hintHolds_some.mpr rfl) ?_
        rintro (hknown | hknown)
        · rw [isPrimitiveIdent, hprim] at hknown
          cases hknown
        · exact hstring hknown

theorem sameReturn_iff (output : ReturnType) :
    HintHolds (retHintFromOriginal output) output.retKind.Gives ↔ SameReturn output := by
  cases output with
  | default => exact iff_of_true (hintHolds_some.mpr rfl) trivial
  | type ty =>
    cases ty with
    | reference lifetime mutable elem => exact iff_of_true (hintHolds_none _) trivial
    | slice elem => exact iff_of_true (hintHolds_none _) trivial
    | other tokens => exact iff_of_true (hintHolds_none _) trivial
    | path leadingColon segments =>
      match segments with
      | [] => exact iff_of_true (hintHolds_none _) fun h => absurd h (by decide)
      | [segment] =>
        refine iff_of_true (nameHint_holds segment leadingColon) fun h => ?_
        exact absurd h (by simp)
      | first :: second :: rest =>
        have hlength : 2 ≤ (first :: second :: rest).length := by simp
        obtain ⟨last, hlast⟩ : ∃ last, (first :: second :: rest).getLast? = some last :=
          ⟨_, List.getLast?_eq_some_getLast (List.cons_ne_nil _ _)⟩
        have hname : typePathIdent (.path leadingColon (first :: second :: rest)) =
            some last.ident := by
          rw [typePathIdent, hlast]
          · rfl
          · nofun
        have hhint : retHintFromOriginal (.type (.path leadingColon (first :: second :: rest))) =
            nameHint last.ident := by
          rw [retHintFromOriginal, hname]
          rfl
        have hkind : (ReturnType.type (.path leadingColon (first :: second :: rest))).retKind =
            if last.ident = "CmTypes".toList then .cmTypesDirect else .other := by
          rw [ReturnType.retKind, classifyReturn, hlast]
          nofun
        rw [hhint, hkind, nameHint_holds_iff, SameReturn, typeName, hname]
        exact ⟨fun h _ => h, fun h => h hlength⟩

/-! ## Signatures -/

/-- `#[tomii_export]` stands on the function, with these tokens. -/
def IsExport (func : ItemFn) (attr : List TokenTree) : Prop :=
  ∃ a ∈ func.attrs, a.path.getLast? = some "tomii_export".toList ∧ a.tokens = attr

/-- The entry calls the companion under its name and its type. -/
structure SameSignature (entry : ExportedFn) (c : Companion) : Prop where
  name : entry.cmName = c.name
  params : (entry.cmParams.map fun p => (p.name, p.kind.slot)) = c.params
  ret : entry.cmRet = .cmTypes
  symType : buildSymType entry = c.symType

def Agrees (func : ItemFn) (c : Companion) : Prop :=
  ∃ entry, tryExtract func = some entry ∧ SameSignature entry c ∧
    HintHolds entry.retVariantHint c.body.Returns

/-- When the two sides read a signature alike. -/
structure SameExport (func : ItemFn) (attr : List TokenTree) : Prop where
  notMangled : hasAttr func.attrs "no_mangle".toList = false
  variadic : hasVariadicExport func.attrs = true → hasVariadicAttr attr = true ∨ func.params = []
  params : ∀ p ∈ if hasVariadicAttr attr then func.params.dropLast else func.params, SameParam p.2
  ret : SameReturn func.output

/-- What the macro takes for `variadic` the converter finds in the text. -/
theorem hasVariadicExport_of_attr {func : ItemFn} {attr : List TokenTree} (h : IsExport func attr)
    (hattr : hasVariadicAttr attr = true) : hasVariadicExport func.attrs = true := by
  obtain ⟨a, ha, hpath, rfl⟩ := h
  obtain ⟨token, htoken, hname⟩ := List.any_eq_true.mp hattr
  rw [hasVariadicExport, List.any_eq_true]
  refine ⟨a, ha, ?_⟩
  cases hcontent : a.content with
  | path =>
    rw [Attribute.tokens, hcontent] at htoken
    exact absurd htoken List.not_mem_nil
  | nameValue =>
    rw [Attribute.tokens, hcontent] at htoken
    exact absurd htoken List.not_mem_nil
  | list tokens =>
    rw [Attribute.tokens, hcontent] at htoken
    cases token with
    | ident name =>
      have htext : TokenTree.text (.ident name) = "variadic".toList := of_decide_eq_true hname
      rw [Bool.and_eq_true, decide_eq_true_iff, decide_eq_true_iff, ← htext]
      exact ⟨hpath, TokenTree.text_infix_texts htoken⟩
    | _ => cases hname

theorem hasAttr_of_isExport {func : ItemFn} {attr : List TokenTree} (h : IsExport func attr) :
    hasAttr func.attrs "tomii_export".toList = true := by
  obtain ⟨a, ha, hpath, _⟩ := h
  exact List.any_eq_true.mpr ⟨a, ha, decide_eq_true hpath⟩

/-- The type of the symbol is the type of the companion when their parameters are the same. -/
theorem buildSymType_eq {entry : ExportedFn} {c : Companion}
    (hparams : (entry.cmParams.map fun p => (p.name, p.kind.slot)) = c.params)
    (hret : entry.cmRet = .cmTypes) : buildSymType entry = c.symType := by
  have htexts : (entry.cmParams.map fun p => p.kind.symType) = c.params.map fun p => p.2.text := by
    rw [← hparams, List.map_map]
    exact List.map_congr_left fun p _ => p.kind.symType_eq
  rw [buildSymType, Companion.symType, htexts, hret, List.append_assoc _ ")".toList]
  rfl

/-! ## Lists of parameters -/

/-- The last parameter of a variadic function is a slice of arguments. -/
def markLast (slots : List (Text × Slot)) : List (Text × Slot) :=
  match slots.getLast? with
  | none => slots
  | some last => slots.dropLast ++ [(last.1, .cmTypesSlice)]

def slotsBy (slot : Ty → Slot) (params : List (Text × Ty)) : List (Text × Slot) :=
  params.map fun p => (p.1, slot p.2)

theorem slotsBy_eq_iff {f g : Ty → Slot} {params : List (Text × Ty)} :
    slotsBy f params = slotsBy g params ↔ ∀ p ∈ params, f p.2 = g p.2 := by
  rw [slotsBy, slotsBy, List.map_inj_left]
  simp only [Prod.mk.injEq, true_and]

theorem markLast_slotsBy_append (f : Ty → Slot) (params : List (Text × Ty)) (last : Text × Ty) :
    markLast (slotsBy f (params ++ [last])) = slotsBy f params ++ [(last.1, .cmTypesSlice)] := by
  rw [slotsBy, List.map_append, List.map_singleton, markLast, List.getLast?_concat]
  dsimp only
  rw [List.dropLast_concat, slotsBy]

theorem markLast_slotsBy_eq_iff {f g : Ty → Slot} {params : List (Text × Ty)} :
    markLast (slotsBy f params) = markLast (slotsBy g params) ↔
      ∀ p ∈ params.dropLast, f p.2 = g p.2 := by
  rcases List.eq_nil_or_concat params with rfl | ⟨front, last, rfl⟩
  · exact iff_of_true rfl (List.forall_mem_nil _)
  · rw [List.concat_eq_append, markLast_slotsBy_append, markLast_slotsBy_append,
      List.append_left_inj, List.dropLast_concat, slotsBy_eq_iff]

theorem markLast_slotsBy_ne {f g : Ty → Slot} {params : List (Text × Ty)} (hne : params ≠ [])
    (hg : ∀ ty, g ty ≠ .cmTypesSlice) : markLast (slotsBy f params) ≠ slotsBy g params := by
  rcases List.eq_nil_or_concat params with rfl | ⟨front, last, rfl⟩
  · exact absurd rfl hne
  · rw [List.concat_eq_append, markLast_slotsBy_append]
    intro heq
    rw [slotsBy, slotsBy, List.map_append, List.map_singleton] at heq
    have hlast := (List.append_inj' heq rfl).2
    rw [List.singleton_inj, Prod.mk.injEq] at hlast
    exact hg last.2 hlast.2.symm

theorem companionSlot_ne_slice (ty : Ty) : companionSlot ty ≠ .cmTypesSlice := by
  have hkind : ∀ elem, classify ty ≠ .variadic elem := by
    intro elem
    unfold classify
    split
    · split
      · nofun
      · split <;> nofun
    · split <;> nofun
  rw [companionSlot, Param.slot]
  cases hclass : classify ty with
  | variadic elem => exact absurd hclass (hkind elem)
  | _ => nofun

/-- What a companion is made of. -/
theorem buildCompanion_ok {func : ItemFn} {variadic : Bool} {c : Companion}
    (h : buildCompanion func variadic = .ok c) :
    c.name = func.ident ++ "_cm".toList ∧
      c.params = (if variadic then markLast (slotsBy companionSlot func.params)
        else slotsBy companionSlot func.params) ∧
      c.body.Returns = func.output.retKind.Gives := by
  have hslots : (func.classified.map fun p => (p.name, p.slot)) =
      slotsBy companionSlot func.params := by
    rw [ItemFn.classified, List.map_map]
    rfl
  cases variadic with
  | false =>
    obtain rfl := Except.ok.inj h
    exact ⟨rfl, hslots, returns_body func _⟩
  | true =>
    unfold buildCompanion at h
    rw [if_pos rfl] at h
    cases hmark : markVariadic func func.classified with
    | error message =>
      rw [hmark] at h
      cases h
    | ok params =>
      rw [hmark] at h
      obtain rfl := Except.ok.inj h
      refine ⟨rfl, ?_, returns_body func _⟩
      change (params.map fun p => (p.name, p.slot)) = _
      rw [if_pos rfl, ← hslots]
      unfold markVariadic at hmark
      cases hlast : func.classified.getLast? with
      | none =>
        rw [hlast] at hmark
        obtain rfl := Except.ok.inj hmark
        rw [markLast, List.getLast?_map, hlast]
        rfl
      | some last =>
        rw [hlast] at hmark
        dsimp only at hmark
        cases helem : vecElementType last.origTy with
        | none =>
          rw [helem] at hmark
          cases hmark
        | some elem =>
          rw [helem] at hmark
          obtain rfl := Except.ok.inj hmark
          rw [markLast, List.getLast?_map, hlast, List.map_append, List.map_dropLast]
          rfl

theorem map_markSlice (params : List CmParam) :
    ((markSlice params).map fun p => (p.name, p.kind.slot)) =
      markLast (params.map fun p => (p.name, p.kind.slot)) := by
  rw [markSlice, markLast, List.getLast?_map]
  cases params.getLast? with
  | none => rfl
  | some last =>
    dsimp only [Option.map_some]
    rw [List.map_append, List.map_dropLast]
    rfl

/-- What the converter makes of an export. -/
theorem tryExtract_export {func : ItemFn} (hmangled : hasAttr func.attrs "no_mangle".toList = false)
    (hexport : hasAttr func.attrs "tomii_export".toList = true) :
    ∃ entry, tryExtract func = some entry ∧ entry.cmName = func.ident ++ "_cm".toList ∧
      (entry.cmParams.map fun p => (p.name, p.kind.slot)) =
        (if hasVariadicExport func.attrs then
          markLast (slotsBy (fun ty => (inferCmParamKind ty).slot) func.params)
        else slotsBy (fun ty => (inferCmParamKind ty).slot) func.params) ∧
      entry.cmRet = .cmTypes ∧ entry.retVariantHint = retHintFromOriginal func.output := by
  let params : List CmParam := func.params.map fun p => ⟨p.1, inferCmParamKind p.2⟩
  have hslots : (params.map fun p => (p.name, p.kind.slot)) =
      slotsBy (fun ty => (inferCmParamKind ty).slot) func.params := by
    rw [List.map_map]
    rfl
  have hret : inferCmReturn func.output = .cmTypes := by
    cases func.output with
    | default => rfl
    | type ty => exact ite_self _
  refine ⟨⟨func.ident ++ "_cm".toList, func.ident,
    if hasVariadicExport func.attrs then markSlice params else params,
    inferCmReturn func.output, retHintFromOriginal func.output⟩, ?_, rfl, ?_, hret, rfl⟩
  · rw [tryExtract, if_neg (ne_true_of_eq_false hmangled), if_pos hexport]
  · dsimp only
    cases hasVariadicExport func.attrs with
    | false => exact hslots
    | true =>
      rw [if_pos rfl, if_pos rfl, ← hslots]
      exact map_markSlice params

/-! ## Agreement -/

theorem agreesParams_iff {func : ItemFn} {attr : List TokenTree} (h : IsExport func attr) :
    (if hasVariadicExport func.attrs then
        markLast (slotsBy (fun ty => (inferCmParamKind ty).slot) func.params)
      else slotsBy (fun ty => (inferCmParamKind ty).slot) func.params) =
      (if hasVariadicAttr attr then markLast (slotsBy companionSlot func.params)
      else slotsBy companionSlot func.params) ↔
    (hasVariadicExport func.attrs = true → hasVariadicAttr attr = true ∨ func.params = []) ∧
      ∀ p ∈ if hasVariadicAttr attr then func.params.dropLast else func.params, SameParam p.2 := by
  cases hattr : hasVariadicAttr attr with
  | true =>
    rw [hasVariadicExport_of_attr h hattr, if_pos rfl, if_pos rfl, if_pos rfl,
      markLast_slotsBy_eq_iff]
    simp only [sameParam_iff]
    exact ⟨fun hsame => ⟨fun _ => .inl trivial, hsame⟩, fun hsame => hsame.2⟩
  | false =>
    cases hasVariadicExport func.attrs with
    | false =>
      simp only [Bool.false_eq_true, if_false, slotsBy_eq_iff, sameParam_iff]
      exact ⟨fun hsame => ⟨nofun, hsame⟩, fun hsame => hsame.2⟩
    | true =>
      simp only [Bool.false_eq_true, if_false, if_true, false_or, true_imp_iff]
      by_cases hparams : func.params = []
      · rw [hparams]
        exact iff_of_true rfl ⟨rfl, List.forall_mem_nil _⟩
      · exact iff_of_false (markLast_slotsBy_ne hparams companionSlot_ne_slice)
          fun hsame => hparams hsame.1

/-- Companions and entries agree on the signatures that both sides read alike. -/
theorem exports_agree_iff {func : ItemFn} {attr : List TokenTree} {c : Companion}
    (h : IsExport func attr) (hc : buildCompanion func (hasVariadicAttr attr) = .ok c) :
    Agrees func c ↔ SameExport func attr := by
  obtain ⟨hname, hparams, hreturns⟩ := buildCompanion_ok hc
  have hexport := hasAttr_of_isExport h
  cases hmangled : hasAttr func.attrs "no_mangle".toList with
  | true =>
    refine iff_of_false ?_ fun hsame => ?_
    · rintro ⟨entry, hentry, hsame, _⟩
      rw [tryExtract, if_pos hmangled] at hentry
      obtain rfl := Option.some.inj hentry
      have hlength := congrArg List.length (hsame.name.trans hname)
      rw [List.length_append] at hlength
      exact absurd hlength (Nat.lt_add_of_pos_right (by decide)).ne
    · exact absurd hsame.notMangled (by rw [hmangled]; decide)
  | false =>
    obtain ⟨entry, hentry, hentryName, hentryParams, hret, hhint⟩ :=
      tryExtract_export hmangled hexport
    have hreturn := sameReturn_iff func.output
    rw [← hhint, ← hreturns] at hreturn
    have hlists := agreesParams_iff h
    rw [← hentryParams, ← hparams] at hlists
    constructor
    · rintro ⟨entry', hentry', hsame, hholds⟩
      obtain rfl := Option.some.inj (hentry.symm.trans hentry')
      obtain ⟨hvariadic, hsameParams⟩ := hlists.mp hsame.params
      exact ⟨hmangled, hvariadic, hsameParams, hreturn.mp hholds⟩
    · intro hsame
      have hsameParams := hlists.mpr ⟨hsame.variadic, hsame.params⟩
      exact ⟨entry, hentry, ⟨hentryName.trans hname.symm, hsameParams, hret,
        buildSymType_eq hsameParams hret⟩, hreturn.mpr hsame.ret⟩

/-- `#[tomii_export(variadic)] fn write_to_file(file_path: &str, buffers: Vec<u8>)`. -/
def writeToFile : ItemFn where
  attrs := [⟨["tomii_export".toList], .list [.ident "variadic".toList]⟩]
  ident := "write_to_file".toList
  inputs :=
    [.typed (.ident "file_path".toList) (.reference none false (.bare "str".toList)),
      .typed (.ident "buffers".toList)
        (.path false [.mk "Vec".toList (.angleBracketed [.type (.bare "u8".toList)])])]
  output := .default

theorem exports_agree_iff_writeToFile :
    ∃ c, buildCompanion writeToFile true = .ok c ∧ Agrees writeToFile c := by
  have hexport : IsExport writeToFile [.ident "variadic".toList] :=
    ⟨_, List.mem_singleton_self _, rfl, rfl⟩
  refine ⟨_, rfl, (exports_agree_iff hexport rfl).mpr ⟨by decide, fun _ => .inl rfl, ?_, trivial⟩⟩
  intro p hp
  have hfirst : p = ("file_path".toList, .reference none false (.bare "str".toList)) :=
    List.mem_singleton.mp hp
  rw [hfirst]
  exact fun _ => ⟨.inl rfl, rfl, rfl⟩

/-- `#[tomii_export] fn greet(name: std::string::String)`. -/
def greet : ItemFn where
  attrs := [⟨["tomii_export".toList], .path⟩]
  ident := "greet".toList
  inputs :=
    [.typed (.ident "name".toList)
      (.path false [⟨"std".toList, .none⟩, ⟨"string".toList, .none⟩, ⟨"String".toList, .none⟩])]
  output := .default

/-- The companion takes `&CmTypes`, the wrapper hands it a `String`. -/
theorem exports_disagree_greet :
    IsExport greet [] ∧ ∃ c entry, buildCompanion greet false = .ok c ∧
      tryExtract greet = some entry ∧ c.symType = "fn(&CmTypes) -> CmTypes".toList ∧
      buildSymType entry = "fn(String) -> CmTypes".toList ∧ ¬Agrees greet c := by
  refine ⟨⟨_, List.mem_singleton_self _, rfl, rfl⟩, _, _, rfl, rfl, by decide, by decide, ?_⟩
  rintro ⟨entry, hentry, hsame, _⟩
  cases hentry
  exact absurd hsame.symType (by decide)

end Tomii.Exports
