import Tomii.Exports.CFollows

/-! # Only conventional declarations have right wrappers

Arguments that carry their index tell from what is passed where it was read. -/
namespace Tomii.CHeader
open Tomii.Exports (PrimKind)
set_option autoImplicit false
set_option maxHeartbeats 250000

section

variable {other : Text → CClass} {ann : Annotation} {toUppercase : Text → Text}
  {bindable : Text → Bool} {d : CDeclaration}

/-! ## Reading back -/

theorem idx_ne_none_of_isSome {args : List ArgValue} {o : Operand}
    (h : (o.value args).isSome = true) : (Local.operand o).idx ≠ some none := by
  intro heq
  cases o <;> (cases Option.some.inj heq; cases h)

theorem idx_source (s : Slot) : (Local.operand s.line.source).idx = some s.1 := by
  unfold Slot.line CmParam.extract
  cases s.2.kind <;> rfl

/-- A variable that is read where a value is known is of the argument of that value. -/
theorem idx_of_resolve_var {args : List ArgValue} {ps : List RawParam}
    (hargs : args = markedFrom other ann 0 ps) {env : Env} {name : Text}
    (hsingle : ∀ o, env.lookup name = some (.operand o) → o.Single) {o' : Operand} (ho' : o'.Single)
    {v : CValue} (h : (resolve env (.var name)).bind (Operand.value args) = some v)
    (h' : o'.value args = some v) :
    ∃ o, env.lookup name = some (.operand o) ∧
      (Local.operand o).idx = (Local.operand o').idx := by
  obtain ⟨o, hresolve, hv⟩ := Option.bind_eq_some_iff.mp h
  rw [resolve] at hresolve
  split at hresolve
  · next heq =>
    cases Option.some.inj hresolve
    exact ⟨o, heq, idx_eq_of_value_eq hargs (hsingle o heq) ho' hv h'⟩
  · cases hresolve

theorem idx_of_resolve_asPtr {args : List ArgValue} {ps : List RawParam}
    (hargs : args = markedFrom other ann 0 ps) {env : Env} {name : Text} {idx : ArgIdx} {v : CValue}
    (h : (resolve env (.asPtr name)).bind (Operand.value args) = some v)
    (h' : (Operand.cString idx).value args = some v) :
    env.lookup name = some (.cString idx) := by
  obtain ⟨o, hresolve, hv⟩ := Option.bind_eq_some_iff.mp h
  rw [resolve] at hresolve
  split at hresolve
  · next idx' heq =>
    cases Option.some.inj hresolve
    have hsame := @idx_eq_of_value_eq other ann args ps hargs (.cString idx') (.cString idx) trivial
      trivial v hv h'
    rw [heq, ← Option.some.inj hsame]
  · next idx' heq =>
    cases Option.some.inj hresolve
    obtain ⟨i, _, hmark⟩ := mark_value hargs (o := .cString idx) trivial h'
    obtain ⟨ps, _, rfl⟩ := Option.map_eq_some_iff.mp hv
    cases hmark
  · cases hresolve

theorem single_of_bind {s : Slot} {name : Text} {o : Operand}
    (h : (name, Local.operand o) ∈ s.line.binds) : o.Single := by
  unfold Slot.line CmParam.extract at h
  cases hkind : s.2.kind with
  | strRef =>
    rw [hkind] at h
    rcases List.mem_cons.mp h with h | h
    · cases h
    · cases List.mem_singleton.mp h
  | arrayPtr cElementType len =>
    rw [hkind] at h
    rcases List.mem_cons.mp h with h | h
    · cases h
      trivial
    · cases List.mem_singleton.mp h
      trivial
  | sliceCmTypes =>
    rw [hkind] at h
    cases List.mem_singleton.mp h
  | _ =>
    rw [hkind] at h
    cases List.mem_singleton.mp h
    trivial

theorem lookup_start {name : Text} {l : Local} (h : Env.start.lookup name = some l) : l = .args := by
  rw [Env.start, List.lookup_cons] at h
  split at h
  · exact (Option.some.inj h).symm
  · cases h

/-- What a name stands for behind the lines was bound by one of them. -/
theorem exists_bind_of_lookup {slots : List Slot} {name : Text} {l : Local} (hl : l ≠ .args)
    (h : (envAfter Env.start slots).lookup name = some l) :
    ∃ s ∈ slots, (name, l) ∈ s.line.binds := by
  by_cases hbound : ∃ s ∈ slots, name ∈ s.2.boundNames
  · obtain ⟨s, hs, l', hl', hlookup⟩ := lookup_envAfter_of_mem hbound Env.start
    rw [h] at hlookup
    cases Option.some.inj hlookup
    exact ⟨s, hs, hl'⟩
  · rw [lookup_envAfter_of_not_mem fun s hs hn => hbound ⟨s, hs, hn⟩] at h
    exact absurd (lookup_start h) hl

theorem mapM_singleton_eq_some_iff {α β : Type} {f : α → Option β} {a : α} {bs : List β} :
    [a].mapM f = some bs ↔ ∃ b, f a = some b ∧ bs = [b] := by
  rw [List.mapM_cons, List.mapM_nil]
  simp only [Option.bind_eq_bind, Option.bind_eq_some_iff, Option.pure_def, Option.some.injEq]
  constructor
  · rintro ⟨b, hb, _, rfl, rfl⟩
    exact ⟨b, hb, rfl⟩
  · rintro ⟨b, hb, rfl⟩
    exact ⟨b, hb, [], rfl, rfl⟩

theorem mapM_pair_eq_some_iff {α β : Type} {f : α → Option β} {a a' : α} {bs : List β} :
    [a, a'].mapM f = some bs ↔ ∃ b b', f a = some b ∧ f a' = some b' ∧ bs = [b, b'] := by
  rw [← List.singleton_append, mapM_append_eq_some_iff]
  simp only [mapM_singleton_eq_some_iff]
  constructor
  · rintro ⟨_, _, ⟨b, hb, rfl⟩, ⟨b', hb', rfl⟩, rfl⟩
    exact ⟨b, b', hb, hb', rfl⟩
  · rintro ⟨b, b', hb, hb', rfl⟩
    exact ⟨_, _, ⟨b, hb, rfl⟩, ⟨b', hb', rfl⟩, rfl⟩

/-- What a call argument can be read from. -/
def Local.Read : Local → Prop
  | .operand _ => True
  | .cString _ => True
  | _ => False

/-- The names that a parameter reads are bound last by its own line, when its values are right. -/
theorem read_of_block {args : List ArgValue} {ps : List RawParam}
    (hargs : args = markedFrom other ann 0 ps) {env : Env} {s : Slot}
    (hsingle : ∀ name o, env.lookup name = some (.operand o) → o.Single)
    (hmut : s.2.isMutArray = false) (hslice : s.2.kind ≠ .sliceCmTypes) {es : List CValue}
    (h : (s.2.extract s.1).callArgs.mapM (fun c => (resolve env c).bind (Operand.value args)) =
      some es)
    (h' : (s.2.operands s.1).mapM (Operand.value args) = some es) :
    ∀ name ∈ s.2.readNames, ∃ l, env.lookup name = some l ∧ l.idx = some s.1 ∧ l.Read := by
  unfold CmParam.extract at h
  unfold CmParam.operands at h'
  unfold CmParam.readNames
  unfold CmParam.isMutArray at hmut
  intro name hname
  have hvar {name' : Text} {o' : Operand} {v : CValue} (ho' : o'.Single)
      (hidx : (Local.operand o').idx = some s.1)
      (hv : (resolve env (.var name')).bind (Operand.value args) = some v)
      (hv' : o'.value args = some v) :
      ∃ l, env.lookup name' = some l ∧ l.idx = some s.1 ∧ l.Read := by
    obtain ⟨o, hlookup, hsame⟩ := idx_of_resolve_var hargs (hsingle name') ho' hv hv'
    exact ⟨_, hlookup, hsame.trans hidx, trivial⟩
  cases hkind : s.2.kind with
  | primitive k =>
    rw [hkind] at h h' hname
    obtain ⟨v, hv, rfl⟩ := mapM_singleton_eq_some_iff.mp h
    obtain ⟨v', hv', heq⟩ := mapM_singleton_eq_some_iff.mp h'
    obtain rfl : v = v' := (List.cons.inj heq).1
    rw [List.mem_singleton.mp hname]
    exact @hvar _ (.scalar k s.1) v trivial rfl hv hv'
  | strRef =>
    rw [hkind] at h h' hname
    obtain ⟨v, hv, rfl⟩ := mapM_singleton_eq_some_iff.mp h
    obtain ⟨v', hv', heq⟩ := mapM_singleton_eq_some_iff.mp h'
    obtain rfl : v = v' := (List.cons.inj heq).1
    rw [List.mem_singleton.mp hname]
    exact ⟨_, idx_of_resolve_asPtr hargs hv hv', rfl, trivial⟩
  | opaquePtr =>
    rw [hkind] at h h' hname
    obtain ⟨v, hv, rfl⟩ := mapM_singleton_eq_some_iff.mp h
    obtain ⟨v', hv', heq⟩ := mapM_singleton_eq_some_iff.mp h'
    obtain rfl : v = v' := (List.cons.inj heq).1
    rw [List.mem_singleton.mp hname]
    exact @hvar _ (.handle s.1) v trivial rfl hv hv'
  | arrayPtr cElementType len =>
    rw [hkind] at h h' hname
    obtain ⟨v, w, hv, hw, rfl⟩ := mapM_pair_eq_some_iff.mp h
    obtain ⟨v', w', hv', hw', heq⟩ := mapM_pair_eq_some_iff.mp h'
    obtain rfl : v = v' := (List.cons.inj heq).1
    obtain rfl : w = w' := (List.cons.inj (List.cons.inj heq).2).1
    rcases List.mem_cons.mp hname with rfl | hname
    · exact @hvar _ (.vecPtr _ s.1) v trivial rfl hv hv'
    · rw [List.mem_singleton.mp hname]
      exact @hvar _ (.vecLen _ s.1) w trivial rfl hw hw'
  | mutArrayPtr cElementType len =>
    rw [hkind] at hmut
    cases hmut
  | sliceCmTypes => exact absurd hkind hslice

/-- A `mut_array` whose values are right is the closure's. -/
theorem read_of_mut_block {args : List ArgValue} {ps : List RawParam}
    (hargs : args = markedFrom other ann 0 ps) {env : Env} {s : Slot} {closure : MutClosure}
    (hsingle : ∀ name o, env.lookup name = some (.operand o) → o.Single)
    (hmut : s.2.isMutArray = true)
    (hvec : env.lookup vecName = some (.vec closure.elem closure.idx)) {es : List CValue}
    (h : ((s.2.extract s.1).passed (some closure)).mapM
      (fun c => (resolve env c).bind (Operand.value args)) = some es)
    (h' : (s.2.operands s.1).mapM (Operand.value args) = some es) :
    closure.idx = s.1 ∧
      ∃ o, env.lookup closure.len = some (.operand o) ∧ (Local.operand o).idx = some s.1 := by
  unfold ParamExtraction.passed CmParam.extract at h
  unfold CmParam.operands at h'
  unfold CmParam.isMutArray at hmut
  cases hkind : s.2.kind with
  | mutArrayPtr cElementType len =>
    rw [hkind] at h h'
    obtain ⟨v, w, hv, hw, rfl⟩ := mapM_pair_eq_some_iff.mp h
    obtain ⟨v', w', hv', hw', heq⟩ := mapM_pair_eq_some_iff.mp h'
    obtain rfl : v = v' := (List.cons.inj heq).1
    obtain rfl : w = w' := (List.cons.inj (List.cons.inj heq).2).1
    constructor
    · rw [resolve, hvec, Option.bind_some] at hv
      have hsame := @idx_eq_of_value_eq other ann args ps hargs (.vecMutPtr closure.elem closure.idx)
        (.vecMutPtr _ s.1) trivial trivial v hv hv'
      exact Option.some.inj hsame
    · exact @idx_of_resolve_var other ann args ps hargs env closure.len (hsingle closure.len)
        (.vecLen (cElemRustType cElementType) s.1) trivial w hw hw'
  | _ =>
    rw [hkind] at hmut
    cases hmut

theorem pairwise_idx_slotsFrom (k : ℕ) (own : List CmParam) :
    (slotsFrom k own).Pairwise fun s t => s.1 ≠ t.1 := by
  induction own generalizing k with
  | nil => exact .nil
  | cons p own ih =>
    rw [slotsFrom, List.pairwise_cons]
    refine ⟨fun s hs heq => ?_, ih (k + 1)⟩
    obtain ⟨i, hi, hidx⟩ := idx_of_mem_slotsFrom hs
    rw [hidx, Option.some_inj] at heq
    omega

theorem eq_of_idx_eq {k : ℕ} {own : List CmParam} {s t : Slot} (hs : s ∈ slotsFrom k own)
    (ht : t ∈ slotsFrom k own) (h : s.1 = t.1) : s = t := by
  by_contra hne
  have hsymm : Std.Symm fun s t : Slot => s.1 ≠ t.1 := ⟨fun _ _ h => h.symm⟩
  exact (pairwise_idx_slotsFrom k own).forall hs ht hne h

/-- The program of a wrapper, and the bindings that its call is in. -/
theorem exists_env_of_compileIn {w : Wrapper} {env : Env} {program : Program}
    (h : w.compileIn env = some program) :
    program.lines = w.lines ∧ ∃ env', w.operandsIn env' = some program.operands ∧
      match w.mutArray with
      | some closure => env.lookup argsName = some .args ∧
          env' = (vecName, .vec closure.elem closure.idx) :: env ∧ program.conversion = .none
      | none => env' = env ∧ conversion env w.ret = some program.conversion := by
  unfold Wrapper.compileIn at h
  cases hmut : w.mutArray with
  | some closure =>
    rw [hmut] at h
    dsimp only at h ⊢
    by_cases hargs : env.lookup argsName = some .args
    · rw [if_pos hargs, Option.map_eq_some_iff] at h
      obtain ⟨operands, hoperands, rfl⟩ := h
      exact ⟨rfl, _, hoperands, hargs, rfl, rfl⟩
    · rw [if_neg hargs] at h
      cases h
  | none =>
    rw [hmut] at h
    dsimp only at h ⊢
    rw [Option.bind_eq_some_iff] at h
    obtain ⟨operands, hoperands, h⟩ := h
    obtain ⟨c, hc, rfl⟩ := Option.map_eq_some_iff.mp h
    exact ⟨rfl, _, hoperands, rfl, hc⟩

theorem cClass_of_classes {ps : List RawParam} {kept : List CmParam}
    (h : slotClasses kept = classes other ps) :
    ∀ p ∈ ps, cClass other p.cType = .pointer ∨ ∃ k, cClass other p.cType = .scalar k := by
  intro p hp
  have hmem : cClass other p.cType ∈ slotClasses kept := by
    rw [h]
    exact List.mem_map_of_mem hp
  obtain ⟨q, _, hq⟩ := List.mem_flatMap.mp hmem
  obtain ⟨t, _, ht⟩ := List.mem_map.mp hq
  rw [← ht]
  cases t with
  | prim k => exact .inr ⟨k, rfl⟩
  | _ => exact .inl rfl

theorem call_eq_some {program : Program} {args : List ArgValue} (hnul : NulFree args)
    {values : List CValue} (h : program.call args = some values) :
    (∀ line ∈ program.lines, (line.source.value args).isSome = true) ∧
      program.operands.mapM (Operand.value args) = some values := by
  rw [Program.call, mapM_asCString hnul] at h
  split at h
  · next hall => exact ⟨List.all_eq_true.mp hall, h⟩
  · cases h

theorem callArgs_render {entry : ExportedFn}
    (hslots : consumed entry.autoParams (some 0) entry.cmParams = slotsFrom 0 entry.cmParams) :
    (renderCEntryWrapper toUppercase entry).callArgs = (slotsFrom 0 entry.cmParams).flatMap fun s =>
      (s.2.extract s.1).passed (renderCEntryWrapper toUppercase entry).mutArray := by
  rw [renderCEntryWrapper, hslots]

theorem idx_of_mutClosure {s : Slot} {closure : MutClosure} (h : mutClosure s = some closure) :
    closure.idx = s.1 ∧ s.2.isMutArray = true ∧ s.2.readNames = [closure.len] := by
  unfold mutClosure at h
  unfold CmParam.isMutArray CmParam.readNames
  cases hkind : s.2.kind with
  | mutArrayPtr cElementType len =>
    rw [hkind] at h
    cases Option.some.inj h
    exact ⟨rfl, rfl, rfl⟩
  | _ =>
    rw [hkind] at h
    cases h

theorem scalar_of_expectedReturn {k : PrimKind} {values : List CValue} {r : ℤ}
    (h : expectedReturn other ann d values r = some (.scalar k r)) :
    cClass other d.retType = .scalar k := by
  rw [expectedReturn] at h
  split at h
  · cases h
  · cases hclass : cClass other d.retType with
    | void =>
      rw [hclass] at h
      cases h
    | scalar k' =>
      rw [hclass] at h
      cases h
      rfl
    | pointer =>
      rw [hclass] at h
      dsimp only at h
      split at h
      · split at h
        · obtain ⟨_, _, hw⟩ := Option.map_eq_some_iff.mp h
          cases hw
        · cases h
      · cases h
    | aggregate =>
      rw [hclass] at h
      cases h

theorem void_of_expectedReturn {values : List CValue} {r : ℤ}
    (h : expectedReturn other ann d values r = some .none) : cClass other d.retType = .void := by
  rw [expectedReturn] at h
  split at h
  · cases h
  · cases hclass : cClass other d.retType with
    | void => rfl
    | scalar k' =>
      rw [hclass] at h
      cases h
    | pointer =>
      rw [hclass] at h
      dsimp only at h
      split at h
      · split at h
        · obtain ⟨_, _, hw⟩ := Option.map_eq_some_iff.mp h
          cases hw
        · cases h
      · cases h
    | aggregate =>
      rw [hclass] at h
      cases h

/-- The result of a wrapper without a closure. -/
theorem resultOk_of_conversion {slots : List Slot} (hslots : slots.map Prod.snd = d.own ann)
    {c : Conversion} (hfree : (classifyCReturn d.retType ann).freeFn.map (symStaticName toUppercase) ≠
      some (symStaticName toUppercase d.fnName))
    (h : conversion (envAfter Env.start slots) (classifyCReturn d.retType ann) = some c)
    (hscalar : ∀ k, c = .scalar k → cClass other d.retType = .scalar k) : ResultOk other ann toUppercase d := by
  unfold ResultOk
  have hfreeOk {freeFn : Option Text}
      (h : freeFn.map (symStaticName toUppercase) ≠ some (symStaticName toUppercase d.fnName)) : FreeOk toUppercase d freeFn := by
    rintro f rfl heq
    exact h (congrArg some heq)
  cases hret : classifyCReturn d.retType ann with
  | void => trivial
  | primitive k =>
    rw [hret] at h
    exact hscalar k (Option.some.inj h).symm
  | opaquePtr => trivial
  | allocatedString freeFn =>
    rw [hret] at hfree
    exact hfreeOk hfree
  | allocatedArray elem len freeFn =>
    rw [hret] at hfree h
    rw [conversion] at h
    split at h
    · cases h
    · next hraw =>
      split at h
      · next o hlookup =>
        split at h
        · next htype =>
          obtain ⟨s, hs, hbind⟩ := exists_bind_of_lookup (fun h => by cases h) hlookup
          refine ⟨⟨hraw, s.2, ?_, isLength_of_bind hbind htype⟩, hfreeOk hfree⟩
          rw [← hslots]
          exact List.mem_map_of_mem hs
        · cases h
      · cases h

theorem conventional_of_follows (hdistinct : (names d.params).Nodup)
    (h : FollowsConvention other ann toUppercase bindable d) : Conventional other ann toUppercase bindable d := by
  have hauto : ∀ p ∈ (d.entry ann).cmParams, p.name ∉ (d.entry ann).autoParams :=
    disjoint_keptParams hdistinct none false
  have hnames : (d.entry ann).cmParams.map CmParam.name = names (ownParams ann none d.params) := by
    rw [names, ← h.arguments]
    conv_lhs => rw [← map_snd_consumed hauto (some 0), List.map_map]
    rfl
  have hstep := inStep_of_names d.params none false (@freshHead_of_pendingLen none rfl d.params)
    hdistinct hnames
  have hclasses : slotClasses (d.entry ann).cmParams = classes other d.params := by
    rw [← map_cClass_buildCSymType]
    exact h.types
  -- arguments that carry their index, and the run with them
  obtain ⟨values, hvalues⟩ :=
    expectedValues_marked d.params (cClass_of_classes hclasses) none (fun _ h => by cases h) 0
  obtain ⟨args, hargs⟩ : ∃ args, args = markedFrom other ann 0 (ownParams ann none d.params) :=
    ⟨_, rfl⟩
  rw [Option.map_none, ← hargs] at hvalues
  have hnul : NulFree args := hargs ▸ nulFree_markedFrom 0 _
  obtain ⟨program, hcompile, hcall, hreturn⟩ := h.wrapper
  obtain ⟨hfree, env, hfold, hin⟩ := compile_eq_some_iff.mp hcompile
  obtain ⟨hlines, env', hoperands, hcases⟩ := exists_env_of_compileIn hin
  obtain ⟨hall, hpassed⟩ := call_eq_some hnul ((hcall args hnul).trans hvalues)
  -- no line reads from beyond the arguments
  have hlast : SliceLast (d.entry ann).cmParams := by
    apply @sliceLast_of_idx _ _ hauto (some 0)
    intro s hs heq
    have hline : Slot.line s ∈ program.lines := by
      rw [hlines]
      exact List.mem_map_of_mem hs
    exact idx_ne_none_of_isSome (hall _ hline) (heq ▸ idx_source s)
  have hpaired := paired_of_inStep hstep hclasses hlast
  obtain ⟨hown, hslots, _⟩ := entry_of_paired hdistinct hpaired
  have hslots' : consumed (d.entry ann).autoParams (some 0) (d.entry ann).cmParams =
      slotsFrom 0 (d.entry ann).cmParams := by
    rw [hslots, hown]
  obtain ⟨henv, hbindable, hkept⟩ := (foldlM_lines_iff hslots').mp hfold
  have hmutArray := @mutArray_render toUppercase _ hslots'
  have hcallArgs := @callArgs_render toUppercase _ hslots'
  rw [hown] at henv hbindable hkept hmutArray hcallArgs
  -- every block of the call has the values of its own parameter
  have hblocks : ∀ s ∈ d.slots ann, ∃ es,
      ((s.2.extract s.1).passed (renderCEntryWrapper toUppercase (d.entry ann)).mutArray).mapM
          (fun c => (resolve env' c).bind (Operand.value args)) = some es ∧
        (s.2.operands s.1).mapM (Operand.value args) = some es := by
    have hflat := mapM_bind_eq_some (operandsIn_eq_some_iff.mp hoperands).1 hpassed
    rw [hcallArgs] at hflat
    have hexpected := hpaired.expectedValues_eq args (Nat.zero_le _)
    rw [List.drop_zero, hvalues] at hexpected
    exact blocks_agree (fun s _ => length_passed s _) hflat hexpected.symm
  -- what the call reads stands in the bindings behind the lines
  have hread : ∀ name l, l.Read → env'.lookup name = some l → env.lookup name = some l := by
    intro name l hl hlookup
    cases hclosure : (renderCEntryWrapper toUppercase (d.entry ann)).mutArray with
    | none =>
      rw [hclosure] at hcases
      rw [← hcases.1, hlookup]
    | some closure =>
      rw [hclosure] at hcases
      have hne : name ≠ vecName := by
        rintro rfl
        rw [hcases.2.1, List.lookup_cons_self] at hlookup
        cases Option.some.inj hlookup
        exact hl
      rw [hcases.2.1, lookup_vec_of_ne hne] at hlookup
      exact hlookup
  have hsingle : ∀ name o, env'.lookup name = some (.operand o) → o.Single := by
    intro name o hlookup
    have := hread name (.operand o) trivial hlookup
    rw [henv] at this
    obtain ⟨s, _, hbind⟩ := exists_bind_of_lookup (fun h => by cases h) this
    exact single_of_bind hbind
  have hvec : ∀ closure, (renderCEntryWrapper toUppercase (d.entry ann)).mutArray = some closure →
      env'.lookup vecName = some (.vec closure.elem closure.idx) := by
    intro closure hclosure
    rw [hclosure] at hcases
    rw [hcases.2.1, List.lookup_cons_self]
  -- the only closure is that of the last `mut_array`
  have hclosure : ∀ s ∈ d.slots ann, s.2.isMutArray = true → ∃ closure,
      (renderCEntryWrapper toUppercase (d.entry ann)).mutArray = some closure ∧ closure.idx = s.1 ∧
        s.2.readNames = [closure.len] := by
    intro s hs hmut
    obtain ⟨own, hownClosure⟩ := mutClosure_of_isMutArray hmut
    have hmem : own ∈ (slotsFrom 0 (d.own ann)).filterMap mutClosure :=
      List.mem_filterMap.mpr ⟨s, hs, hownClosure⟩
    have hsome := List.getLast?_eq_some_getLast (List.ne_nil_of_mem hmem)
    obtain ⟨t, ht, htclosure⟩ :=
      List.mem_filterMap.mp (List.getLast_mem (List.ne_nil_of_mem hmem))
    rw [← hmutArray] at hsome
    obtain ⟨es, hes, hes'⟩ := hblocks s hs
    rw [hsome] at hes
    have hidx := (read_of_mut_block hargs hsingle hmut (hvec _ hsome) hes hes').1
    have hsame : t = s := eq_of_idx_eq ht hs ((idx_of_mutClosure htclosure).1.symm.trans hidx)
    subst hsame
    exact ⟨_, hsome, hidx, (idx_of_mutClosure htclosure).2.2⟩
  have hslot : ∀ s ∈ d.slots ann, s.2.kind ≠ .sliceCmTypes → ∀ name ∈ s.2.readNames,
      ∃ l, env'.lookup name = some l ∧ l.idx = some s.1 ∧ l.Read := by
    intro s hs hkind
    obtain ⟨es, hes, hes'⟩ := hblocks s hs
    cases hmut : s.2.isMutArray with
    | false =>
      rw [passed_of_not_mut hmut] at hes
      exact read_of_block hargs hsingle hmut hkind hes hes'
    | true =>
      obtain ⟨closure, hsome, _, hnames⟩ := hclosure s hs hmut
      rw [hsome] at hes
      obtain ⟨_, o, hlookup, hidx⟩ := read_of_mut_block hargs hsingle hmut (hvec _ hsome) hes hes'
      intro name hname
      rw [hnames, List.mem_singleton] at hname
      rw [hname]
      exact ⟨_, hlookup, hidx, trivial⟩
  have hunshadowed : Unshadowed (d.own ann) := by
    have hlast' : SliceLast (d.own ann) := hown ▸ hlast
    refine hkept.and (pairwise_slotsFrom.mp
      (@unshadowed_of_idx 0 (d.own ann) Env.start hlast' ?_))
    intro s hs hkind name hname l hlookup
    obtain ⟨l', hlookup', hidx, hl'⟩ := hslot s hs hkind name hname
    have hsame := hread name l' hl' hlookup'
    rw [henv, hlookup] at hsame
    rw [Option.some.inj hsame, hidx]
  have hret := hreturn args values 0 hvalues
  refine ⟨h.params, hpaired, hbindable, hunshadowed, ?_, ?_⟩
  · rintro ⟨p, hp, hmut⟩
    have hmem := hp
    rw [← map_snd_slotsFrom 0 (d.own ann)] at hmem
    obtain ⟨s, hs, rfl⟩ := List.mem_map.mp hmem
    obtain ⟨closure, hsome, hidx, _⟩ := hclosure s hs hmut
    rw [hsome] at hcases
    refine ⟨⟨?_, ?_, ?_⟩, ?_⟩
    · apply (pairwise_slotsFrom (k := 0)).mp
      refine (pairwise_idx_slotsFrom 0 (d.own ann)).imp_of_mem ?_
      rintro t u ht hu hne ⟨htmut, humut⟩
      obtain ⟨c, hc, htidx, _⟩ := hclosure t ht htmut
      obtain ⟨c', hc', huidx, _⟩ := hclosure u hu humut
      rw [hc] at hc'
      cases Option.some.inj hc'
      exact hne (htidx.symm.trans huidx)
    · have := hcases.1
      rw [henv, lookup_args_envAfter_iff] at this
      exact forall_mem_slotsFrom.mp this
    · refine (forall_mem_slotsFrom (k := 0) (P := fun p => vecName ∉ p.readNames)).mp ?_
      intro t ht hname
      by_cases hkind : t.2.kind = .sliceCmTypes
      · rw [CmParam.readNames, hkind] at hname
        exact absurd (List.mem_singleton.mp hname) (by decide)
      · obtain ⟨l, hlookup, _, hl⟩ := hslot t ht hkind vecName hname
        rw [hvec closure hsome] at hlookup
        cases Option.some.inj hlookup
        exact hl
    · rw [Program.returned, hcases.2.2] at hret
      exact void_of_expectedReturn hret.symm
  · intro hnomut
    have hnone : (renderCEntryWrapper toUppercase (d.entry ann)).mutArray = none := by
      rw [hmutArray, filterMap_mutClosure_eq_nil hnomut]
      rfl
    rw [hnone] at hcases
    refine resultOk_of_conversion (map_snd_slotsFrom 0 (d.own ann)) hfree (henv ▸ hcases.2) ?_
    intro k hk
    rw [Program.returned, hk] at hret
    exact scalar_of_expectedReturn hret.symm

end

/-! ## Every declaration -/

/-- A wrapper keeps the convention where its declaration is conventional, texts with a NUL aside, which
are passed as empty ones. The parameters of a prototype are named differently. -/
theorem wrapper_follows_iff (other : Text → CClass) (toUppercase : Text → Text)
    (bindable : Text → Bool) (ann : Annotation) (d : CDeclaration) (hdistinct : (d.params.map RawParam.name).Nodup) :
    (FollowsConvention other ann toUppercase bindable d ↔ Conventional other ann toUppercase bindable d) ∧
      (Conventional other ann toUppercase bindable d → ∀ program,
        (renderCEntryWrapper toUppercase (d.entry ann)).compile bindable = some program → ∀ args values,
          expectedValues other ann none args d.params = some values →
            (program.call args = some values ↔ ∀ s, .string s ∈ values → '\x00' ∉ s)) := by
  refine ⟨⟨conventional_of_follows hdistinct, follows_of_conventional hdistinct⟩, ?_⟩
  intro h program hprogram args values hvalues
  exact h.call_eq_iff hdistinct hprogram hvalues

/-- No variable has the name of a keyword. -/
def plainName (name : Text) : Bool :=
  name ∉ ["as".toList, "box".toList, "const".toList, "crate".toList, "dyn".toList, "else".toList,
    "enum".toList, "final".toList, "fn".toList, "impl".toList, "in".toList, "let".toList,
    "loop".toList, "match".toList, "mod".toList, "move".toList, "mut".toList, "pub".toList,
    "ref".toList, "self".toList, "trait".toList, "type".toList, "use".toList, "where".toList,
    "yield".toList]

/-- `to_uppercase` on ASCII names. -/
def asciiUppercase : Text → Text := List.map Char.toUpper

/-- The types that a header defines are structures. -/
def structures : Text → CClass := fun _ => .aggregate

def computeFft : CDeclaration :=
  ⟨"void".toList, "compute_fft".toList,
    ["void* planner".toList, "complex_f32* buffer".toList, "size_t buffer_len".toList]⟩

theorem computeFft_follows :
    parseCDeclaration
        "void compute_fft(void* planner, complex_f32* buffer, size_t buffer_len);".toList =
          some computeFft ∧
      FollowsConvention structures ( parseAnnotation "buffer: mut_array".toList) asciiUppercase
        plainName computeFft := by
  have hann : parseAnnotation "buffer: mut_array".toList =
      ⟨false, none, none, [], ["buffer".toList]⟩ := by decide +kernel
  have hparams : computeFft.params = [⟨"planner".toList, "void*".toList⟩,
      ⟨"buffer".toList, "complex_f32*".toList⟩, ⟨"buffer_len".toList, "size_t".toList⟩] := by
    decide +kernel
  have hdistinct : (computeFft.params.map RawParam.name).Nodup := by
    rw [hparams]
    decide
  refine ⟨by decide +kernel, ?_⟩
  rw [hann]
  refine (wrapper_follows_iff structures asciiUppercase plainName _ computeFft hdistinct).1.mpr ?_
  have hown : computeFft.own ⟨false, none, none, [], ["buffer".toList]⟩ =
      [⟨"planner".toList, .opaquePtr⟩,
        ⟨"buffer".toList, .mutArrayPtr "complex_f32".toList "buffer_len".toList⟩] := by
    decide +kernel
  refine ⟨by decide +kernel, ?_, ?_, ?_, ?_, ?_⟩
  · rw [hparams]
    refine .plain (by decide) (by decide) ⟨by decide, fun _ h => ?_⟩ (by decide) ?_
    · exact absurd h (by decide)
    · exact .array (by decide) (by decide) (by decide) (by decide) .nil
  · rw [hown]
    decide +kernel
  · rw [hown, Unshadowed]
    decide +kernel
  · rw [hown]
    exact fun _ => ⟨⟨by decide, by decide, by decide⟩, rfl⟩
  · rw [hown]
    exact fun h => absurd (h _ (List.mem_cons_of_mem _ List.mem_cons_self)) (by decide)

def swapBuffers : CDeclaration :=
  ⟨"void".toList, "swap".toList,
    ["float* a".toList, "size_t a_len".toList, "float* b".toList, "size_t b_len".toList]⟩

/-- Both pointers are the second buffer's. -/
theorem swapBuffers_fails :
    parseCDeclaration "void swap(float* a, size_t a_len, float* b, size_t b_len);".toList =
        some swapBuffers ∧
      ¬FollowsConvention structures ( parseAnnotation "a: mut_array, b: mut_array".toList)
        asciiUppercase plainName swapBuffers := by
  refine ⟨by decide +kernel, ?_⟩
  rintro ⟨_, _, _, program, hcompile, hcall, _⟩
  have hprogram : (renderCEntryWrapper asciiUppercase
      (swapBuffers.entry ( parseAnnotation "a: mut_array, b: mut_array".toList))).compile plainName =
        some ⟨[.mutArrayLen "a_len".toList "f32".toList (some 0),
            .mutArrayLen "b_len".toList "f32".toList (some 1)],
          [.vecMutPtr "f32".toList (some 1), .vecLen "f32".toList (some 1),
            .vecMutPtr "f32".toList (some 1), .vecLen "f32".toList (some 1)], .none⟩ := by
    decide +kernel
  rw [hprogram] at hcompile
  cases Option.some.inj hcompile
  have hnul : NulFree [.vec "f32".toList 100 7, .vec "f32".toList 200 9] := by
    intro s hs
    simp at hs
  have := hcall _ hnul
  revert this
  decide +kernel

end Tomii.CHeader
