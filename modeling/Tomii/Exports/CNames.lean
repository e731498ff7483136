import Tomii.Exports.CParams

/-! # The names in a wrapper

Every line binds names of its own, and the call reads them behind the last line. What a name stands
for there is told by the last line that binds it. -/
namespace Tomii.CHeader
open Tomii.Exports (PrimKind)
set_option autoImplicit false
set_option maxHeartbeats 250000

/-! ## Slots -/

/-- A parameter with the index of its argument. -/
abbrev Slot := ArgIdx × CmParam

abbrev Slot.line (s : Slot) : Line := (s.2.extract s.1).line

def slotsFrom : ℕ → List CmParam → List Slot
  | _, [] => []
  | k, p :: rest => (some k, p) :: slotsFrom (k + 1) rest

theorem map_snd_slotsFrom (k : ℕ) (ps : List CmParam) : (slotsFrom k ps).map Prod.snd = ps := by
  induction ps generalizing k with
  | nil => rfl
  | cons p rest ih => rw [slotsFrom, List.map_cons, ih]

theorem idx_of_mem_slotsFrom {k : ℕ} {ps : List CmParam} {s : Slot} (h : s ∈ slotsFrom k ps) :
    ∃ i, k ≤ i ∧ s.1 = some i := by
  induction ps generalizing k with
  | nil => cases h
  | cons p rest ih =>
    rcases List.mem_cons.mp h with rfl | h
    · exact ⟨k, Nat.le_refl k, rfl⟩
    · obtain ⟨i, hi, heq⟩ := ih h
      exact ⟨i, Nat.le_of_succ_le hi, heq⟩

theorem map_snd_consumed {auto : List Text} {kept : List CmParam}
    (hauto : ∀ p ∈ kept, p.name ∉ auto) (idx : ArgIdx) :
    (consumed auto idx kept).map Prod.snd = kept := by
  induction kept generalizing idx with
  | nil => rfl
  | cons p rest ih =>
    rw [consumed, if_neg (hauto p List.mem_cons_self), List.map_cons,
      ih fun q hq => hauto q (List.mem_cons_of_mem _ hq)]

theorem consumed_eq {auto : List Text} {kept : List CmParam} (hauto : ∀ p ∈ kept, p.name ∉ auto)
    (hlast : SliceLast kept) (k : ℕ) : consumed auto (some k) kept = slotsFrom k kept := by
  induction kept generalizing k with
  | nil => rfl
  | cons p rest ih =>
    rw [consumed, if_neg (hauto p List.mem_cons_self), slotsFrom, nextIdx]
    have hrest : ∀ q ∈ rest, q.name ∉ auto := fun q hq => hauto q (List.mem_cons_of_mem _ hq)
    by_cases hkind : p.kind = .sliceCmTypes
    · rw [hlast [] p rest rfl hkind]
      rfl
    · rw [if_neg hkind]
      exact congrArg _ (ih hrest hlast.of_cons (k + 1))

/-- What stands behind a `void**` is read from beyond the arguments. -/
theorem sliceLast_of_idx {auto : List Text} {kept : List CmParam} (hauto : ∀ p ∈ kept, p.name ∉ auto)
    {idx : ArgIdx} (hidx : ∀ s ∈ consumed auto idx kept, s.1 ≠ none) : SliceLast kept := by
  induction kept generalizing idx with
  | nil =>
    intro pre p post heq
    exact absurd heq.symm (List.append_ne_nil_of_right_ne_nil _ (List.cons_ne_nil _ _))
  | cons p rest ih =>
    rw [consumed, if_neg (hauto p List.mem_cons_self)] at hidx
    have hrest : ∀ q ∈ rest, q.name ∉ auto := fun q hq => hauto q (List.mem_cons_of_mem _ hq)
    intro pre q post heq hkind
    cases pre with
    | nil =>
      obtain ⟨rfl, rfl⟩ := List.cons.inj heq
      cases rest with
      | nil => rfl
      | cons r rest =>
        rw [nextIdx, if_pos hkind, consumed, if_neg (hrest r List.mem_cons_self)] at hidx
        exact absurd rfl (hidx (none, r) (List.mem_cons_of_mem _ List.mem_cons_self))
    | cons p' pre =>
      have hbehind := (List.cons.inj heq).2
      exact ih hrest (fun s hs => hidx s (List.mem_cons_of_mem _ hs)) pre q post hbehind hkind

/-! ## Lookups -/

theorem lookup_append_of_not_mem {name : Text} {bs env : Env} (h : name ∉ bs.map Prod.fst) :
    (bs ++ env).lookup name = env.lookup name := by
  induction bs with
  | nil => rfl
  | cons b bs ih =>
    rw [List.map_cons, List.mem_cons, not_or] at h
    rw [List.cons_append, List.lookup_cons, beq_eq_false_iff_ne.mpr h.1]
    exact ih h.2

theorem lookup_append_of_mem {name : Text} {bs : Env} (h : name ∈ bs.map Prod.fst) (env : Env) :
    ∃ l, (name, l) ∈ bs ∧ bs.lookup name = some l ∧ (bs ++ env).lookup name = some l := by
  induction bs with
  | nil => cases h
  | cons b bs ih =>
    rw [List.cons_append, List.lookup_cons, List.lookup_cons]
    by_cases heq : name = b.1
    · subst heq
      rw [beq_self_eq_true]
      exact ⟨b.2, List.mem_cons_self, rfl, rfl⟩
    · rw [beq_eq_false_iff_ne.mpr heq]
      rw [List.map_cons, List.mem_cons] at h
      obtain ⟨l, hmem, hlookup⟩ := ih (h.resolve_left heq)
      exact ⟨l, List.mem_cons_of_mem _ hmem, hlookup⟩

theorem map_fst_binds (s : Slot) : s.line.binds.map Prod.fst = s.2.boundNames := by
  unfold Slot.line CmParam.extract CmParam.boundNames
  cases s.2.kind <;> rfl

/-- Where the value of a variable comes from. -/
def Local.idx : Local → Option ArgIdx
  | .args => none
  | .operand (.scalar _ idx) => some idx
  | .operand (.cString idx) => some idx
  | .operand (.handle idx) => some idx
  | .operand (.vecPtr _ idx) => some idx
  | .operand (.vecMutPtr _ idx) => some idx
  | .operand (.vecLen _ idx) => some idx
  | .operand (.handlesPtr idx) => some idx
  | .operand (.handlesLen idx) => some idx
  | .string idx => some idx
  | .cString idx => some idx
  | .handles idx => some idx
  | .vec _ idx => some idx

theorem idx_of_mem_binds {s : Slot} {b : Text × Local} (h : b ∈ s.line.binds) :
    b.2.idx = some s.1 := by
  unfold Slot.line CmParam.extract at h
  cases hkind : s.2.kind with
  | strRef =>
    rw [hkind] at h
    rcases List.mem_cons.mp h with rfl | h
    · rfl
    · rw [List.mem_singleton.mp h]
      rfl
  | arrayPtr cElementType len =>
    rw [hkind] at h
    rcases List.mem_cons.mp h with rfl | h
    · rfl
    · rw [List.mem_singleton.mp h]
      rfl
  | _ =>
    rw [hkind] at h
    rw [List.mem_singleton.mp h]
    rfl

/-- The bindings behind the lines of `slots`. -/
def envAfter (env : Env) (slots : List Slot) : Env :=
  slots.foldl (fun env s => s.line.binds ++ env) env

theorem envAfter_cons (env : Env) (s : Slot) (slots : List Slot) :
    envAfter env (s :: slots) = envAfter (s.line.binds ++ env) slots := rfl

theorem lookup_envAfter_of_not_mem {name : Text} {slots : List Slot}
    (h : ∀ s ∈ slots, name ∉ s.2.boundNames) (env : Env) :
    (envAfter env slots).lookup name = env.lookup name := by
  induction slots generalizing env with
  | nil => rfl
  | cons s slots ih =>
    have hhead := h s List.mem_cons_self
    rw [← map_fst_binds] at hhead
    rw [envAfter_cons, ih fun t ht => h t (List.mem_cons_of_mem _ ht), lookup_append_of_not_mem hhead]

theorem lookup_envAfter_of_mem {name : Text} {slots : List Slot}
    (h : ∃ s ∈ slots, name ∈ s.2.boundNames) (env : Env) :
    ∃ s ∈ slots, ∃ l, (name, l) ∈ s.line.binds ∧ (envAfter env slots).lookup name = some l := by
  induction slots generalizing env with
  | nil =>
    obtain ⟨s, hs, _⟩ := h
    cases hs
  | cons t slots ih =>
    rw [envAfter_cons]
    by_cases hbehind : ∃ s ∈ slots, name ∈ s.2.boundNames
    · obtain ⟨s, hs, hlookup⟩ := ih hbehind (t.line.binds ++ env)
      exact ⟨s, List.mem_cons_of_mem _ hs, hlookup⟩
    · obtain ⟨s, hs, hname⟩ := h
      have hnone : ∀ u ∈ slots, name ∉ u.2.boundNames := fun u hu hn => hbehind ⟨u, hu, hn⟩
      rcases List.mem_cons.mp hs with rfl | hs
      · rw [← map_fst_binds] at hname
        obtain ⟨l, hmem, _, hlookup⟩ := lookup_append_of_mem hname env
        rw [lookup_envAfter_of_not_mem hnone]
        exact ⟨s, List.mem_cons_self, l, hmem, hlookup⟩
      · exact absurd hname (hnone s hs)

theorem readNames_subset_boundNames (p : CmParam) : ∀ name ∈ p.readNames, name ∈ p.boundNames := by
  intro name hname
  unfold CmParam.readNames at hname
  unfold CmParam.boundNames
  cases hkind : p.kind with
  | strRef =>
    rw [hkind] at hname
    exact List.mem_cons.mpr (.inl (List.mem_singleton.mp hname))
  | _ =>
    rw [hkind] at hname
    exact hname

/-! ## Lines in a row -/

/-- No line stands behind one that binds `args`. -/
abbrev ArgsKept (slots : List Slot) : Prop := slots.Pairwise fun s _ => argsName ∉ s.2.boundNames

theorem foldlM_declare_iff {bindable : Text → Bool} {slots : List Slot} {env env' : Env}
    (hargs : env.lookup argsName = some .args) :
    (slots.map Slot.line).foldlM (declare bindable) env = some env' ↔
      env' = envAfter env slots ∧ (∀ s ∈ slots, ∀ name ∈ s.2.boundNames, bindable name = true) ∧
        ArgsKept slots := by
  induction slots generalizing env with
  | nil =>
    rw [List.map_nil, List.foldlM_nil]
    constructor
    · intro h
      refine ⟨(Option.some.inj h).symm, ?_, .nil⟩
      intro s hs
      cases hs
    · rintro ⟨rfl, _⟩
      rfl
  | cons s slots ih =>
    have hall : (s.line.binds.all fun b => bindable b.1) = true ↔
        ∀ name ∈ s.2.boundNames, bindable name = true := by
      rw [List.all_eq_true, ← map_fst_binds, List.forall_mem_map]
    rw [List.map_cons, List.foldlM_cons, declare, List.forall_mem_cons, ← hall]
    by_cases hbind : (s.line.binds.all fun b => bindable b.1) = true
    · rw [if_pos ⟨hargs, hbind⟩]
      change (slots.map Slot.line).foldlM (declare bindable) (s.line.binds ++ env) = some env' ↔ _
      rw [envAfter_cons]
      by_cases hname : argsName ∈ s.2.boundNames
      · -- the next line finds something else under `args`
        cases slots with
        | nil =>
          rw [List.map_nil, List.foldlM_nil]
          constructor
          · intro h
            refine ⟨(Option.some.inj h).symm, ⟨hbind, ?_⟩, List.pairwise_singleton _ _⟩
            intro t ht
            cases ht
          · rintro ⟨rfl, _⟩
            rfl
        | cons t slots =>
          have hlookup : (s.line.binds ++ env).lookup argsName ≠ some .args := by
            have hmem := hname
            rw [← map_fst_binds] at hmem
            obtain ⟨l, hl, _, heq⟩ := lookup_append_of_mem hmem env
            rw [heq, Ne, Option.some_inj]
            rintro rfl
            cases idx_of_mem_binds hl
          rw [List.map_cons, List.foldlM_cons, declare, if_neg fun h => hlookup h.1]
          constructor
          · intro h
            cases h
          · rintro ⟨_, _, hkept⟩
            exact absurd hname (List.rel_of_pairwise_cons hkept List.mem_cons_self)
      · have hstill : (s.line.binds ++ env).lookup argsName = some .args := by
          rw [← map_fst_binds] at hname
          rw [lookup_append_of_not_mem hname, hargs]
        rw [ih hstill, ArgsKept, ArgsKept, List.pairwise_cons]
        constructor
        · rintro ⟨heq, hrest, hkept⟩
          exact ⟨heq, ⟨hbind, hrest⟩, fun _ _ => hname, hkept⟩
        · rintro ⟨heq, ⟨_, hrest⟩, _, hkept⟩
          exact ⟨heq, hrest, hkept⟩
    · rw [if_neg fun h => hbind h.2]
      constructor
      · intro h
        cases h
      · rintro ⟨_, ⟨h, _⟩, _⟩
        exact absurd h hbind

/-! ## What the call reads -/

/-- What a parameter contributes to the call. -/
def CmParam.operands (p : CmParam) (idx : ArgIdx) : List Operand :=
  match p.kind with
  | .primitive k => [.scalar k idx]
  | .strRef => [.cString idx]
  | .opaquePtr => [.handle idx]
  | .arrayPtr cElementType _ =>
    [.vecPtr (cElemRustType cElementType) idx, .vecLen (cElemRustType cElementType) idx]
  | .mutArrayPtr cElementType _ =>
    [.vecMutPtr (cElemRustType cElementType) idx, .vecLen (cElemRustType cElementType) idx]
  | .sliceCmTypes => [.handlesPtr idx, .handlesLen idx]

theorem symType_operands (p : CmParam) (idx : ArgIdx) :
    (p.operands idx).map Operand.symType = p.kind.symTypes := by
  unfold CmParam.operands
  cases p.kind <;> rfl

/-- The length of an array is not the name of its pointer. -/
def CmParam.LenNamed (p : CmParam) : Prop := ∀ len, p.kind.lenParam? = some len → len = lenParam p.name

theorem ptrName_ne_lenParam (p q : Text) : ptrName p ≠ lenParam q := by
  intro h
  have hlast := congrArg List.getLast? h
  rw [ptrName, lenParam, List.getLast?_append, List.getLast?_append] at hlast
  exact absurd (Option.some.inj hlast) (by decide)

/-- Where the names a parameter reads are its own, its call arguments are. -/
theorem resolve_callArgs {s : Slot} {env : Env} (hlen : s.2.LenNamed)
    (hread : ∀ name ∈ s.2.readNames, env.lookup name = s.line.binds.lookup name)
    (hvec : ∀ closure, mutClosure s = some closure →
      env.lookup vecName = some (.vec closure.elem closure.idx)) :
    (s.2.extract s.1).callArgs.mapM (resolve env) = some (s.2.operands s.1) := by
  unfold CmParam.readNames Slot.line CmParam.extract at hread
  unfold mutClosure at hvec
  unfold CmParam.LenNamed at hlen
  unfold CmParam.extract CmParam.operands
  cases hkind : s.2.kind with
  | primitive k =>
    rw [hkind] at hread
    have := hread _ (List.mem_singleton.mpr rfl)
    simp [resolve, this, Line.binds]
  | strRef =>
    rw [hkind] at hread
    have := hread _ (List.mem_singleton.mpr rfl)
    simp [resolve, this, Line.binds]
  | opaquePtr =>
    rw [hkind] at hread
    have := hread _ (List.mem_singleton.mpr rfl)
    simp [resolve, this, Line.binds]
  | arrayPtr cElementType len =>
    rw [hkind] at hread hlen
    have hptr := hread _ List.mem_cons_self
    have hown := hread _ (List.mem_cons_of_mem _ List.mem_cons_self)
    have hne : (len == ptrName s.2.name) = false := by
      rw [hlen len rfl]
      exact beq_eq_false_iff_ne.mpr (ptrName_ne_lenParam _ _).symm
    simp [resolve, hptr, hown, Line.binds, List.lookup_cons, hne]
  | mutArrayPtr cElementType len =>
    rw [hkind] at hread hvec
    have hown := hread _ List.mem_cons_self
    have hv := hvec _ rfl
    simp [resolve, hown, hv, Line.binds]
  | sliceCmTypes =>
    rw [hkind] at hread
    have := hread _ (List.mem_singleton.mpr rfl)
    simp [resolve, this, Line.binds]

theorem lookup_read {slots : List Slot}
    (h : slots.Pairwise fun s t => ∀ name ∈ s.2.readNames, name ∉ t.2.boundNames) (env : Env) :
    ∀ s ∈ slots, ∀ name ∈ s.2.readNames,
      (envAfter env slots).lookup name = s.line.binds.lookup name := by
  induction slots generalizing env with
  | nil =>
    intro s hs
    cases hs
  | cons t slots ih =>
    rw [List.pairwise_cons] at h
    rw [envAfter_cons, List.forall_mem_cons]
    refine ⟨fun name hname => ?_, ih h.2 _⟩
    rw [lookup_envAfter_of_not_mem fun s hs => h.1 s hs name hname]
    have hmem := readNames_subset_boundNames t.2 name hname
    rw [← map_fst_binds] at hmem
    obtain ⟨l, _, hown, hlookup⟩ := lookup_append_of_mem hmem env
    rw [hlookup, hown]

/-- A name that is bound again stands for a later argument. -/
theorem unshadowed_of_idx {k : ℕ} {own : List CmParam} {env : Env} (hlast : SliceLast own)
    (h : ∀ s ∈ slotsFrom k own, s.2.kind ≠ .sliceCmTypes → ∀ name ∈ s.2.readNames, ∀ l,
      (envAfter env (slotsFrom k own)).lookup name = some l → l.idx = some s.1) :
    (slotsFrom k own).Pairwise fun s t => ∀ name ∈ s.2.readNames, name ∉ t.2.boundNames := by
  induction own generalizing k env with
  | nil => exact .nil
  | cons p own ih =>
    rw [slotsFrom, List.forall_mem_cons, envAfter_cons] at h
    rw [slotsFrom, List.pairwise_cons]
    refine ⟨fun t ht name hname hbound => ?_, ih hlast.of_cons h.2⟩
    have hkind : p.kind ≠ .sliceCmTypes := by
      intro hslice
      rw [hlast [] p own rfl hslice] at ht
      cases ht
    obtain ⟨u, hu, l, hl, hlookup⟩ :=
      lookup_envAfter_of_mem ⟨t, ht, hbound⟩ ((Slot.line (some k, p)).binds ++ env)
    have hidx := h.1 hkind name hname l hlookup
    rw [idx_of_mem_binds hl] at hidx
    obtain ⟨i, hi, heq⟩ := idx_of_mem_slotsFrom hu
    rw [heq] at hidx
    have : i = k := Option.some.inj (Option.some.inj hidx)
    omega

end Tomii.CHeader
