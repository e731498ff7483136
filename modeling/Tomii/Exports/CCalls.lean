import Tomii.Exports.CNames
import Mathlib.Data.List.Pairwise

/-! # What a wrapper passes

The call of a wrapper whose names are its own, against the values that the declaration asks for. -/
namespace Tomii.CHeader
open Tomii.Exports (PrimKind)
set_option autoImplicit false
set_option maxHeartbeats 250000

/-! ## Options in a row -/

section Rows

variable {α β γ δ : Type}

theorem mapM_append_eq_some_iff {f : α → Option β} {xs ys : List α} {zs : List β} :
    (xs ++ ys).mapM f = some zs ↔
      ∃ us vs, xs.mapM f = some us ∧ ys.mapM f = some vs ∧ zs = us ++ vs := by
  rw [List.mapM_append]
  simp only [Option.bind_eq_bind, Option.bind_eq_some_iff, Option.pure_def, Option.some.injEq]
  constructor
  · rintro ⟨us, hus, vs, hvs, rfl⟩
    exact ⟨us, vs, hus, hvs, rfl⟩
  · rintro ⟨us, vs, hus, hvs, rfl⟩
    exact ⟨us, hus, vs, hvs, rfl⟩

theorem length_of_mapM_eq_some {f : α → Option β} {xs : List α} {ys : List β}
    (h : xs.mapM f = some ys) : ys.length = xs.length := by
  induction xs generalizing ys with
  | nil =>
    cases Option.some.inj (h : some [] = some ys)
    rfl
  | cons x xs ih =>
    rw [List.mapM_cons] at h
    simp only [Option.bind_eq_bind, Option.bind_eq_some_iff, Option.pure_def, Option.some.injEq] at h
    obtain ⟨y, _, zs, hzs, rfl⟩ := h
    rw [List.length_cons, List.length_cons, ih hzs]

theorem mapM_flatMap_eq_some {f : α → List β} {g : β → Option γ} {k : α → List γ} {xs : List α}
    (h : ∀ x ∈ xs, (f x).mapM g = some (k x)) : (xs.flatMap f).mapM g = some (xs.flatMap k) := by
  induction xs with
  | nil => rfl
  | cons x xs ih =>
    rw [List.flatMap_cons, List.flatMap_cons, mapM_append_eq_some_iff]
    exact ⟨_, _, h x List.mem_cons_self, ih fun y hy => h y (List.mem_cons_of_mem _ hy), rfl⟩

theorem mapM_bind_eq_some {f : α → Option β} {g : β → Option γ} {xs : List α} {ys : List β}
    {zs : List γ} (hf : xs.mapM f = some ys) (hg : ys.mapM g = some zs) :
    xs.mapM (fun x => (f x).bind g) = some zs := by
  induction xs generalizing ys zs with
  | nil =>
    cases Option.some.inj (hf : some [] = some ys)
    exact hg
  | cons x xs ih =>
    rw [List.mapM_cons] at hf ⊢
    simp only [Option.bind_eq_bind, Option.bind_eq_some_iff, Option.pure_def, Option.some.injEq] at hf ⊢
    obtain ⟨y, hy, ys, hys, rfl⟩ := hf
    rw [List.mapM_cons] at hg
    simp only [Option.bind_eq_bind, Option.bind_eq_some_iff, Option.pure_def, Option.some.injEq] at hg
    obtain ⟨z, hz, zs, hzs, rfl⟩ := hg
    exact ⟨z, ⟨y, hy, hz⟩, zs, ih hys hzs, rfl⟩

/-- Two rows of blocks of the same lengths agree block by block. -/
theorem blocks_agree {f : α → List β} {g : α → List γ} {u : β → Option δ} {v : γ → Option δ}
    {xs : List α} (hlength : ∀ x ∈ xs, (f x).length = (g x).length) {ds : List δ}
    (hf : (xs.flatMap f).mapM u = some ds) (hg : (xs.flatMap g).mapM v = some ds) :
    ∀ x ∈ xs, ∃ es, (f x).mapM u = some es ∧ (g x).mapM v = some es := by
  induction xs generalizing ds with
  | nil =>
    intro x hx
    cases hx
  | cons x xs ih =>
    rw [List.flatMap_cons, mapM_append_eq_some_iff] at hf hg
    obtain ⟨us, vs, hus, hvs, rfl⟩ := hf
    obtain ⟨us', vs', hus', hvs', heq⟩ := hg
    have hparts := List.append_inj heq (by
      rw [length_of_mapM_eq_some hus, length_of_mapM_eq_some hus', hlength x List.mem_cons_self])
    rw [List.forall_mem_cons]
    refine ⟨⟨us, hus, hparts.1 ▸ hus'⟩, ih ?_ hvs (hparts.2 ▸ hvs')⟩
    intro y hy
    exact hlength y (List.mem_cons_of_mem _ hy)

theorem mapM_congr_mem {f g : α → Option β} {xs : List α} (h : ∀ x ∈ xs, f x = g x) :
    xs.mapM f = xs.mapM g := by
  induction xs with
  | nil => rfl
  | cons x xs ih =>
    rw [List.mapM_cons, List.mapM_cons, h x List.mem_cons_self,
      ih fun y hy => h y (List.mem_cons_of_mem _ hy)]

end Rows

/-! ## Compiling -/

theorem operandsIn_eq_some_iff {w : Wrapper} {env : Env} {operands : List Operand} :
    w.operandsIn env = some operands ↔
      w.callArgs.mapM (resolve env) = some operands ∧
        operands.map Operand.symType = w.sym.params := by
  rw [Wrapper.operandsIn, Option.filter_eq_some_iff, decide_eq_true_eq]

theorem compile_eq_some_iff {bindable : Text → Bool} {w : Wrapper} {program : Program} :
    w.compile bindable = some program ↔
      w.freeSymName ≠ some w.symName ∧ ∃ env,
        w.lines.foldlM (declare bindable) Env.start = some env ∧ w.compileIn env = some program := by
  rw [Wrapper.compile]
  by_cases hfree : w.freeSymName = some w.symName
  · rw [if_pos hfree]
    refine ⟨fun h => ?_, fun h => absurd hfree h.1⟩
    cases h
  · rw [if_neg hfree, Option.bind_eq_some_iff]
    exact ⟨fun h => ⟨hfree, h⟩, fun h => h.2⟩

theorem length_passed (s : Slot) (closure : Option MutClosure) :
    ((s.2.extract s.1).passed closure).length = (s.2.operands s.1).length := by
  unfold ParamExtraction.passed CmParam.extract CmParam.operands
  cases closure <;> cases s.2.kind <;> rfl

theorem mutClosure_eq_none_iff {s : Slot} : mutClosure s = none ↔ s.2.isMutArray = false := by
  unfold mutClosure CmParam.isMutArray
  cases s.2.kind <;> simp

theorem passed_of_not_mut {s : Slot} (h : s.2.isMutArray = false) (closure : Option MutClosure) :
    (s.2.extract s.1).passed closure = (s.2.extract s.1).callArgs := by
  unfold CmParam.isMutArray at h
  unfold ParamExtraction.passed CmParam.extract
  cases closure with
  | none => rfl
  | some closure =>
    cases hkind : s.2.kind with
    | mutArrayPtr cElementType len =>
      rw [hkind] at h
      cases h
    | _ => rfl

theorem passed_of_closure {s : Slot} {closure : MutClosure} (h : mutClosure s = some closure) :
    (s.2.extract s.1).passed (some closure) = (s.2.extract s.1).callArgs := by
  unfold mutClosure at h
  unfold ParamExtraction.passed CmParam.extract
  cases hkind : s.2.kind with
  | mutArrayPtr cElementType len =>
    rw [hkind] at h
    cases Option.some.inj h
    rfl
  | _ =>
    rw [hkind] at h
    cases h

section Compile

variable {toUppercase : Text → Text} {bindable : Text → Bool} {entry : ExportedFn} {k : ℕ}
  {own : List CmParam}

theorem pairwise_slotsFrom {R : CmParam → CmParam → Prop} :
    (slotsFrom k own).Pairwise (fun s t => R s.2 t.2) ↔ own.Pairwise R := by
  conv_rhs => rw [← map_snd_slotsFrom k own]
  rw [List.pairwise_map]

theorem forall_mem_slotsFrom {P : CmParam → Prop} :
    (∀ s ∈ slotsFrom k own, P s.2) ↔ ∀ p ∈ own, P p := by
  conv_rhs => rw [← map_snd_slotsFrom k own]
  rw [List.forall_mem_map]

theorem mutClosure_of_isMutArray {s : Slot} (h : s.2.isMutArray = true) :
    ∃ closure, mutClosure s = some closure := by
  apply Option.ne_none_iff_exists'.mp
  rw [Ne, mutClosure_eq_none_iff, h]
  exact Bool.false_ne_true.symm

/-- The only `mut_array` is the closure's. -/
theorem filterMap_mutClosure
    (hone : own.Pairwise fun p q => ¬(p.isMutArray = true ∧ q.isMutArray = true))
    (hex : ∃ p ∈ own, p.isMutArray = true) :
    ∃ closure, ((slotsFrom k own).filterMap mutClosure).getLast? = some closure ∧
      ∀ s ∈ slotsFrom k own, s.2.isMutArray = true → mutClosure s = some closure := by
  obtain ⟨p, hp, hmut⟩ := hex
  rw [← map_snd_slotsFrom k own] at hp
  obtain ⟨s, hs, rfl⟩ := List.mem_map.mp hp
  obtain ⟨closure, hclosure⟩ := mutClosure_of_isMutArray hmut
  have hsame : ∀ t ∈ slotsFrom k own, t.2.isMutArray = true → mutClosure t = some closure := by
    intro t ht htmut
    by_cases heq : t = s
    · rw [heq, hclosure]
    · have hsymm : Std.Symm fun s t : Slot => ¬(s.2.isMutArray = true ∧ t.2.isMutArray = true) :=
        ⟨fun _ _ h hc => h ⟨hc.2, hc.1⟩⟩
      have hpair : (slotsFrom k own).Pairwise _ := pairwise_slotsFrom.mpr hone
      exact absurd ⟨htmut, hmut⟩ (hpair.forall ht hs heq)
  have hmem : closure ∈ (slotsFrom k own).filterMap mutClosure :=
    List.mem_filterMap.mpr ⟨s, hs, hclosure⟩
  refine ⟨closure, ?_, hsame⟩
  rw [List.getLast?_eq_some_getLast (List.ne_nil_of_mem hmem), Option.some_inj]
  obtain ⟨t, ht, heq⟩ := List.mem_filterMap.mp (List.getLast_mem (List.ne_nil_of_mem hmem))
  have htmut : t.2.isMutArray = true := by
    by_contra hnot
    rw [mutClosure_eq_none_iff.mpr (eq_false_of_ne_true hnot)] at heq
    cases heq
  rw [hsame t ht htmut] at heq
  exact (Option.some.inj heq).symm

theorem filterMap_mutClosure_eq_nil (h : ∀ p ∈ own, p.isMutArray = false) :
    (slotsFrom k own).filterMap mutClosure = [] := by
  rw [List.filterMap_eq_nil_iff]
  intro s hs
  exact mutClosure_eq_none_iff.mpr (forall_mem_slotsFrom.mpr h s hs)

/-- What is passed in the order of the parameters, each of its own. -/
abbrev ownOperands (slots : List Slot) : List Operand := slots.flatMap fun s => s.2.operands s.1

theorem map_symType_ownOperands (slots : List Slot) :
    (ownOperands slots).map Operand.symType = (slots.map Prod.snd).flatMap fun p => p.kind.symTypes := by
  rw [List.map_flatMap, List.flatMap_map]
  exact List.flatMap_congr fun s _ => symType_operands s.2 s.1

theorem lookup_vec_of_ne {name : Text} (h : name ≠ vecName) (l : Local) (env : Env) :
    ((vecName, l) :: env).lookup name = env.lookup name := by
  rw [List.lookup_cons, beq_eq_false_iff_ne.mpr h]

/-- Names that are not bound again make a wrapper that passes every parameter its own. -/
theorem operandsIn_of_unshadowed
    (hslots : consumed entry.autoParams (some 0) entry.cmParams = slotsFrom 0 entry.cmParams)
    (hlen : ∀ p ∈ entry.cmParams, p.LenNamed) (hunshadowed : Unshadowed entry.cmParams)
    {env : Env} {closure : Option MutClosure}
    (hclosure : ((slotsFrom 0 entry.cmParams).filterMap mutClosure).getLast? = closure)
    (hmut : ∀ s ∈ slotsFrom 0 entry.cmParams, s.2.isMutArray = true → mutClosure s = closure)
    (henv : ∀ s ∈ slotsFrom 0 entry.cmParams, ∀ name ∈ s.2.readNames,
      env.lookup name = (envAfter Env.start (slotsFrom 0 entry.cmParams)).lookup name)
    (hvec : ∀ c, closure = some c → env.lookup vecName = some (.vec c.elem c.idx)) :
    (renderCEntryWrapper toUppercase entry).operandsIn env =
      some (ownOperands (slotsFrom 0 entry.cmParams)) := by
  rw [operandsIn_eq_some_iff]
  constructor
  · simp only [renderCEntryWrapper, hslots, hclosure]
    apply mapM_flatMap_eq_some
    intro s hs
    have hread : ∀ name ∈ s.2.readNames, env.lookup name = (Slot.line s).binds.lookup name := by
      intro name hname
      rw [henv s hs name hname]
      exact lookup_read (pairwise_slotsFrom.mpr (hunshadowed.imp fun h => h.2)) _ s hs name hname
    have hown := resolve_callArgs (forall_mem_slotsFrom.mpr hlen s hs) hread (by
      intro c hc
      have hne : s.2.isMutArray = true := by
        by_contra hnot
        rw [mutClosure_eq_none_iff.mpr (eq_false_of_ne_true hnot)] at hc
        cases hc
      exact hvec c (by rw [← hmut s hs hne, hc]))
    cases hkind : s.2.isMutArray with
    | false => rw [passed_of_not_mut hkind, hown]
    | true =>
      have hc := hmut s hs hkind
      cases closure with
      | none =>
        rw [mutClosure_eq_none_iff, hkind] at hc
        cases hc
      | some c => rw [passed_of_closure hc, hown]
  · rw [map_symType_ownOperands, map_snd_slotsFrom]
    rfl

theorem lookup_args_start : Env.start.lookup argsName = some .args := rfl

theorem foldlM_lines_iff
    (hslots : consumed entry.autoParams (some 0) entry.cmParams = slotsFrom 0 entry.cmParams)
    {env : Env} :
    (renderCEntryWrapper toUppercase entry).lines.foldlM (declare bindable) Env.start = some env ↔
      env = envAfter Env.start (slotsFrom 0 entry.cmParams) ∧
        (∀ p ∈ entry.cmParams, ∀ name ∈ p.boundNames, bindable name = true) ∧
          entry.cmParams.Pairwise fun p _ => argsName ∉ p.boundNames := by
  have hlines : (renderCEntryWrapper toUppercase entry).lines =
      (slotsFrom 0 entry.cmParams).map Slot.line := by
    rw [renderCEntryWrapper, hslots]
  rw [hlines, foldlM_declare_iff lookup_args_start,
    forall_mem_slotsFrom (P := fun p => ∀ name ∈ p.boundNames, bindable name = true), ArgsKept,
    pairwise_slotsFrom (R := fun p _ => argsName ∉ p.boundNames)]

theorem lookup_args_envAfter_iff {slots : List Slot} :
    (envAfter Env.start slots).lookup argsName = some .args ↔
      ∀ s ∈ slots, argsName ∉ s.2.boundNames := by
  constructor
  · intro h s hs hbound
    obtain ⟨t, _, l, hl, hlookup⟩ := lookup_envAfter_of_mem ⟨s, hs, hbound⟩ Env.start
    rw [h] at hlookup
    cases Option.some.inj hlookup
    cases idx_of_mem_binds hl
  · intro h
    rw [lookup_envAfter_of_not_mem h]
    rfl

end Compile

end Tomii.CHeader
