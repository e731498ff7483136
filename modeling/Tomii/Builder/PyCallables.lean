import Tomii.Builder.PyNodes
import Mathlib.Data.List.Dedup
import Mathlib.Data.List.Induction
import Mathlib.Data.List.Nodup

/-! # Python callables over a sequence of `py_node` calls

The first use of each callable ought to make its variable and every later use to find it. As
long as the derived names allow that, the state of the graph after a sequence of calls is told
by the first uses alone; the first call where they do not is where a run goes wrong. -/
namespace Tomii.Builder
set_option autoImplicit false
set_option maxHeartbeats 250000

/-! ## First uses -/

def addFirst (fs : List ExportMeta) (m : ExportMeta) : List ExportMeta :=
  if m.fn ∈ fs.map (·.fn) then fs else fs ++ [m]

/-- The exports under which the distinct callables are used first, in order. -/
def firstUses (ms : List ExportMeta) : List ExportMeta := ms.foldl addFirst []

theorem firstUses_concat (ms : List ExportMeta) (m : ExportMeta) :
    firstUses (ms ++ [m]) = addFirst (firstUses ms) m := by
  simp [firstUses]

theorem addFirst_old {fs : List ExportMeta} {m : ExportMeta} (h : m.fn ∈ fs.map (·.fn)) :
    addFirst fs m = fs := if_pos h

theorem addFirst_new {fs : List ExportMeta} {m : ExportMeta} (h : m.fn ∉ fs.map (·.fn)) :
    addFirst fs m = fs ++ [m] := if_neg h

theorem mem_of_mem_firstUses {ms : List ExportMeta} {f : ExportMeta} (h : f ∈ firstUses ms) :
    f ∈ ms := by
  induction ms using List.reverseRecOn with
  | nil => exact h
  | append_singleton ms m ih =>
    rw [firstUses_concat] at h
    unfold addFirst at h
    split at h
    · exact List.mem_append_left _ (ih h)
    · rcases List.mem_append.mp h with hold | hnew
      · exact List.mem_append_left _ (ih hold)
      · exact List.mem_append_right _ hnew

theorem mem_fns_firstUses {ms : List ExportMeta} {fn : PyFunction} :
    fn ∈ (firstUses ms).map (·.fn) ↔ fn ∈ ms.map (·.fn) := by
  constructor
  · intro h
    obtain ⟨f, hf, rfl⟩ := List.mem_map.mp h
    exact List.mem_map_of_mem (mem_of_mem_firstUses hf)
  · intro h
    induction ms using List.reverseRecOn with
    | nil => exact h
    | append_singleton ms m ih =>
      rw [firstUses_concat]
      rw [List.map_append, List.mem_append] at h
      by_cases hm : m.fn ∈ (firstUses ms).map (·.fn)
      · rw [addFirst_old hm]
        rcases h with hold | hnew
        · exact ih hold
        · rw [List.mem_singleton.mp hnew]
          exact hm
      · rw [addFirst_new hm, List.map_append, List.mem_append]
        exact h.imp ih id

theorem nodup_fns_firstUses (ms : List ExportMeta) : ((firstUses ms).map (·.fn)).Nodup := by
  induction ms using List.reverseRecOn with
  | nil => exact List.nodup_nil
  | append_singleton ms m ih =>
    rw [firstUses_concat]
    by_cases hm : m.fn ∈ (firstUses ms).map (·.fn)
    · rwa [addFirst_old hm]
    · rw [addFirst_new hm, List.map_append]
      exact List.nodup_append.mpr ⟨ih, by simp, by simpa using hm⟩

/-! ## The variable of a callable -/

/-- The variable that a first use makes. -/
def ExportMeta.callableVar (m : ExportMeta) : Var :=
  ⟨m.initName, none, some loadCallable, [pyText m.fn.module, pyText m.fn.name]⟩

/-- The variable of `fn` among first uses. -/
def ownVar (fs : List ExportMeta) (fn : PyFunction) : Var :=
  ((fs.find? (·.fn = fn)).map (·.callableVar)).getD ⟨[], none, none, []⟩

theorem exists_ownVar {fs : List ExportMeta} {fn : PyFunction} (h : fn ∈ fs.map (·.fn)) :
    ∃ f ∈ fs, f.fn = fn ∧ ownVar fs fn = f.callableVar := by
  cases hf : fs.find? (·.fn = fn) with
  | none =>
    obtain ⟨f, hmem, rfl⟩ := List.mem_map.mp h
    exact absurd (by simp) (List.find?_eq_none.mp hf f hmem)
  | some f =>
    refine ⟨f, List.mem_of_find?_eq_some hf, by simpa using List.find?_some hf, ?_⟩
    rw [ownVar, hf]
    rfl

theorem ownVar_append {fs more : List ExportMeta} {fn : PyFunction} (h : fn ∈ fs.map (·.fn)) :
    ownVar (fs ++ more) fn = ownVar fs fn := by
  obtain ⟨f, hmem, rfl⟩ := List.mem_map.mp h
  have hsome : (fs.find? (·.fn = f.fn)).isSome = true := by
    rw [List.find?_isSome]
    exact ⟨f, hmem, by simp⟩
  obtain ⟨f', hf'⟩ := Option.isSome_iff_exists.mp hsome
  simp [ownVar, List.find?_append, hf']

theorem ownVar_of_mem {fs : List ExportMeta} (hnodup : (fs.map (·.fn)).Nodup) {f : ExportMeta}
    (h : f ∈ fs) : ownVar fs f.fn = f.callableVar := by
  obtain ⟨f', hf', hfn, hvar⟩ := exists_ownVar (List.mem_map_of_mem (f := (·.fn)) h)
  rw [hvar, List.inj_on_of_nodup_map hnodup hf' h hfn]

/-! ## The state after a sequence -/

variable {V : Type}

/-- A call with the export that its `fn` stands for. -/
abbrev Use (V : Type) := PyNodeCall V × ExportMeta

/-- The node of a use whose callable has variable `v`. -/
def Use.toNode (u : Use V) (v : Var) : GraphNode V :=
  ⟨u.1.name, u.2.bridge, .var v :: u.1.args.map .value, u.1.options⟩

/-- The distinct callables of a sequence, as first used. -/
def firstsOf (us : List (Use V)) : List ExportMeta := firstUses (us.map (·.2))

/-- Graph `g` is what the first uses of `us` say. -/
structure Told (us : List (Use V)) (g : GraphBuilder V) : Prop where
  vars : g.vars = (firstsOf us).map (·.callableVar)
  nodes : g.nodes = us.map fun u => u.toNode (ownVar (firstsOf us) u.2.fn)
  names : ∀ n, n ∈ g.names ↔ n ∈ (firstsOf us).map (·.initName) ∨ n ∈ us.map (·.1.name)
  table : g.pyCallableVars = ((firstsOf us).map fun f => (f.qualname, f.callableVar)).reverse
  distinct : ((firstsOf us).map (·.initName)).Nodup

/-- Use `u` after `us` finds the derived names as it needs them. -/
structure Clear (us : List (Use V)) (u : Use V) : Prop where
  first : u.2.fn ∉ us.map (·.2.fn) →
    u.2.initName ∉ (firstsOf us).map (·.qualname) ∧ u.2.initName ∉ (firstsOf us).map (·.initName) ∧
      u.2.initName ∉ us.map (·.1.name)
  again : u.2.fn ∈ us.map (·.2.fn) →
    u.2.initName ∈ (firstsOf us).map (·.qualname) ∧
      ∃ f ∈ firstsOf us, f.fn = u.2.fn ∧ f.qualname = u.2.qualname
  name : u.1.name ∉ (addFirst (firstsOf us) u.2).map (·.initName)

theorem told_empty : Told ([] : List (Use V)) .empty where
  vars := rfl
  nodes := rfl
  names := by simp [GraphBuilder.empty, firstsOf, firstUses]
  table := rfl
  distinct := List.nodup_nil

theorem firstsOf_concat (us : List (Use V)) (u : Use V) :
    firstsOf (us ++ [u]) = addFirst (firstsOf us) u.2 := by
  rw [firstsOf, List.map_append]
  exact firstUses_concat _ _

theorem mem_fns_firstsOf {us : List (Use V)} {fn : PyFunction} :
    fn ∈ (firstsOf us).map (·.fn) ↔ fn ∈ us.map (·.2.fn) := by
  rw [firstsOf, mem_fns_firstUses, List.map_map]
  rfl

/-! ## One call -/

theorem bind_eq_ok {A B : Type} {x : Except BuildError A} {f : A → Except BuildError B} {b : B} :
    (x >>= f) = .ok b ↔ ∃ a, x = .ok a ∧ f a = .ok b := by
  cases x with
  | error e =>
    constructor
    · intro h
      cases h
    · rintro ⟨_, h, -⟩
      cases h
  | ok a =>
    constructor
    · intro h
      exact ⟨a, rfl, h⟩
    · rintro ⟨_, h, hf⟩
      obtain rfl := Except.ok.inj h
      exact hf

theorem node_eq_ok {g g' : GraphBuilder V} {name func : Text} {args : List (NodeArg V)}
    {options : NodeOptions V} : g.node name func args options = .ok g' ↔
      name ∉ g.names ∧ g' =
        { g with nodes := g.nodes ++ [⟨name, func, args, options⟩], names := name :: g.names } := by
  unfold GraphBuilder.node GraphBuilder.checkName
  by_cases h : name ∈ g.names
  · rw [if_pos h]
    constructor
    · intro hbad
      cases hbad
    · rintro ⟨hbad, -⟩
      exact absurd h hbad
  · rw [if_neg h]
    constructor
    · intro hok
      exact ⟨h, (Except.ok.inj hok).symm⟩
    · rintro ⟨-, rfl⟩
      rfl

/-- What the table test leaves: a new variable under a fresh name, or one of the table. -/
theorem callableVar_eq_ok {g : GraphBuilder V} {m : ExportMeta} {r : Var × GraphBuilder V} :
    g.callableVar m = .ok r ↔
      (m.initName ∉ g.pyCallableVars.map (·.1) ∧ m.initName ∉ g.names ∧ r = (m.callableVar,
        { g with
          vars := g.vars ++ [m.callableVar]
          names := m.initName :: g.names
          pyCallableVars := (m.qualname, m.callableVar) :: g.pyCallableVars })) ∨
      (m.initName ∈ g.pyCallableVars.map (·.1) ∧
        ∃ v, g.pyCallableVars.lookup m.qualname = some v ∧ r = (v, g)) := by
  unfold GraphBuilder.callableVar
  by_cases hin : m.initName ∈ g.pyCallableVars.map (·.1)
  · rw [if_neg (not_not_intro hin)]
    cases hlook : g.pyCallableVars.lookup m.qualname with
    | none => simp [hin]
    | some v =>
      constructor
      · intro h
        exact .inr ⟨hin, v, rfl, (Except.ok.inj h).symm⟩
      · rintro (⟨hnot, -⟩ | ⟨-, v', hv', rfl⟩)
        · exact absurd hin hnot
        · obtain rfl := Option.some.inj hv'
          rfl
  · rw [if_pos hin]
    by_cases hname : m.initName ∈ g.names
    · have hfail : g.var m.initName none (some loadCallable)
          [pyText m.fn.module, pyText m.fn.name] = .error (.duplicateName m.initName) := by
        unfold GraphBuilder.var GraphBuilder.checkName
        rw [if_pos hname]
        rfl
      rw [hfail]
      constructor
      · intro h
        cases h
      · rintro (⟨-, hnot, -⟩ | ⟨hbad, -⟩)
        · exact absurd hname hnot
        · exact absurd hbad hin
    · have hnew : g.var m.initName none (some loadCallable)
          [pyText m.fn.module, pyText m.fn.name] = .ok (m.callableVar,
            { g with vars := g.vars ++ [m.callableVar], names := m.initName :: g.names }) := by
        unfold GraphBuilder.var GraphBuilder.checkName
        rw [if_neg hname]
        rfl
      rw [hnew]
      constructor
      · intro h
        exact .inl ⟨hin, hname, (Except.ok.inj h).symm⟩
      · rintro (⟨-, -, rfl⟩ | ⟨hbad, -⟩)
        · rfl
        · exact absurd hbad hin

/-! ## The table after a sequence -/

theorem lookup_of_mem {A : Type} [BEq A] [LawfulBEq A] {B : Type} {l : List (A × B)}
    (hnodup : (l.map (·.1)).Nodup) {p : A × B} (h : p ∈ l) : l.lookup p.1 = some p.2 := by
  induction l with
  | nil => cases h
  | cons q l ih =>
    obtain ⟨hfresh, hrest⟩ := List.nodup_cons.mp hnodup
    rcases List.mem_cons.mp h with rfl | hmem
    · exact List.lookup_cons_self
    · have hne : p.1 ≠ q.1 := fun heq => hfresh (List.mem_map.mpr ⟨p, hmem, heq⟩)
      rw [List.lookup_cons, beq_false_of_ne hne]
      exact ih hrest hmem

theorem mem_of_lookup {A : Type} [BEq A] [LawfulBEq A] {B : Type} {l : List (A × B)} {a : A} {b : B}
    (h : l.lookup a = some b) : (a, b) ∈ l := by
  induction l with
  | nil => cases h
  | cons q l ih =>
    rw [List.lookup_cons] at h
    cases hq : a == q.1 with
    | true =>
      rw [hq] at h
      obtain rfl := Option.some.inj h
      rw [eq_of_beq hq]
      exact List.mem_cons_self
    | false =>
      rw [hq] at h
      exact List.mem_cons_of_mem _ (ih h)

namespace Told

variable {us : List (Use V)} {g : GraphBuilder V} (h : Told us g)

include h

theorem distinct_qualnames : ((firstsOf us).map (·.qualname)).Nodup := by
  apply List.Nodup.of_map (fun q => "_py_".toList ++ flattenName q)
  rw [List.map_map]
  exact h.distinct

theorem keys : ∀ q, q ∈ g.pyCallableVars.map (·.1) ↔ q ∈ (firstsOf us).map (·.qualname) := by
  intro q
  rw [h.table, List.map_reverse, List.mem_reverse, List.map_map]
  rfl

theorem lookup {q : Text} {v : Var} : g.pyCallableVars.lookup q = some v ↔
    ∃ f ∈ firstsOf us, f.qualname = q ∧ f.callableVar = v := by
  rw [h.table]
  constructor
  · intro hlook
    have hmem := mem_of_lookup hlook
    rw [List.mem_reverse] at hmem
    obtain ⟨f, hf, heq⟩ := List.mem_map.mp hmem
    exact ⟨f, hf, congrArg Prod.fst heq, congrArg Prod.snd heq⟩
  · rintro ⟨f, hf, rfl, rfl⟩
    apply lookup_of_mem (p := (f.qualname, f.callableVar))
    · rw [List.map_reverse, List.nodup_reverse, List.map_map]
      exact h.distinct_qualnames
    · exact List.mem_reverse.mpr (List.mem_map_of_mem hf)

omit h in
theorem mem_fns {u : Use V} (hu : u ∈ us) : u.2.fn ∈ (firstsOf us).map (·.fn) :=
  mem_fns_firstsOf.mpr (List.mem_map_of_mem hu)

omit h in
theorem ownVar_firsts {f : ExportMeta} (hf : f ∈ firstsOf us) :
    ownVar (firstsOf us) f.fn = f.callableVar :=
  ownVar_of_mem (nodup_fns_firstUses _) hf

/-- A clear call goes through, and the state is told by the first uses again. -/
theorem step {u : Use V} (hclear : Clear us u) (hfresh : u.1.name ∉ us.map (·.1.name)) :
    ∃ g', g.addPyNode u.1 u.2 = .ok g' ∧ Told (us ++ [u]) g' := by
  by_cases hold : u.2.fn ∈ us.map (·.2.fn)
  · obtain ⟨hkey, f, hf, hfn, hqual⟩ := hclear.again hold
    have hfirsts : firstsOf (us ++ [u]) = firstsOf us := by
      rw [firstsOf_concat, addFirst_old (mem_fns_firstsOf.mpr hold)]
    have hname := hclear.name
    rw [addFirst_old (mem_fns_firstsOf.mpr hold)] at hname
    have hvar : g.callableVar u.2 = .ok (f.callableVar, g) :=
      callableVar_eq_ok.mpr
        (.inr ⟨(h.keys _).mpr hkey, _, h.lookup.mpr ⟨f, hf, hqual, rfl⟩, rfl⟩)
    have hnames : u.1.name ∉ g.names := by
      rw [h.names]
      exact not_or.mpr ⟨hname, hfresh⟩
    refine ⟨_, bind_eq_ok.mpr ⟨_, hvar, node_eq_ok.mpr ⟨hnames, rfl⟩⟩, ?_⟩
    constructor
    · rw [hfirsts]
      exact h.vars
    · have hown : ownVar (firstsOf us) u.2.fn = f.callableVar := hfn ▸ ownVar_firsts hf
      rw [hfirsts, List.map_append, ← h.nodes, List.map_singleton, hown]
      rfl
    · intro n
      simp only [hfirsts, List.mem_cons, h.names, List.map_append, List.mem_append,
        List.map_singleton]
      tauto
    · rw [hfirsts]
      exact h.table
    · rw [hfirsts]
      exact h.distinct
  · obtain ⟨hkey, hinit, hnode⟩ := hclear.first hold
    have hnew : u.2.fn ∉ (firstsOf us).map (·.fn) := fun hbad => hold (mem_fns_firstsOf.mp hbad)
    have hfirsts : firstsOf (us ++ [u]) = firstsOf us ++ [u.2] := by
      rw [firstsOf_concat, addFirst_new hnew]
    have hname := hclear.name
    rw [addFirst_new hnew, List.map_append, List.mem_append, List.map_singleton,
      List.mem_singleton] at hname
    have hfreshInit : u.2.initName ∉ g.names := by
      rw [h.names]
      exact not_or.mpr ⟨hinit, hnode⟩
    have hvar := callableVar_eq_ok.mpr
      (.inl ⟨fun hbad => hkey ((h.keys _).mp hbad), hfreshInit, rfl⟩)
    have hnames : u.1.name ∉ u.2.initName :: g.names := by
      rw [List.mem_cons, h.names]
      tauto
    refine ⟨_, bind_eq_ok.mpr ⟨_, hvar, node_eq_ok.mpr ⟨hnames, rfl⟩⟩, ?_⟩
    constructor
    · rw [hfirsts, List.map_append, ← h.vars]
      rfl
    · have hown : ownVar (firstsOf us ++ [u.2]) u.2.fn = u.2.callableVar := by
        apply ownVar_of_mem _ (List.mem_append_right _ List.mem_cons_self)
        rw [← hfirsts]
        exact nodup_fns_firstUses _
      have hkeep : (us.map fun w => w.toNode (ownVar (firstsOf us ++ [u.2]) w.2.fn)) = g.nodes := by
        rw [h.nodes]
        apply List.map_congr_left
        intro w hw
        rw [ownVar_append (mem_fns hw)]
      rw [hfirsts, List.map_append, List.map_singleton, hown, hkeep]
      rfl
    · intro n
      simp only [hfirsts, List.mem_cons, h.names, List.map_append, List.mem_append,
        List.map_singleton]
      tauto
    · rw [hfirsts, List.map_append, List.reverse_append, h.table]
      rfl
    · rw [hfirsts, List.map_append]
      exact List.nodup_append.mpr ⟨h.distinct, by simp, by simpa using hinit⟩

/-- A call that gives its node the variable of its own callable, and of no other, was clear. -/
theorem clear_of_step {u : Use V} {g' : GraphBuilder V} {owner : PyFunction → Var}
    (hstep : g.addPyNode u.1 u.2 = .ok g')
    (hnodes : g'.nodes = (us ++ [u]).map fun w => w.toNode (owner w.2.fn))
    (hinj : ∀ v ∈ us ++ [u], ∀ w ∈ us ++ [u], owner v.2.fn = owner w.2.fn → v.2.fn = w.2.fn) :
    Clear us u := by
  obtain ⟨r, hr, hnode⟩ := bind_eq_ok.mp hstep
  obtain ⟨hname, rfl⟩ := node_eq_ok.mp hnode
  have hkept : r.2.nodes = g.nodes := by
    rcases callableVar_eq_ok.mp hr with ⟨-, -, rfl⟩ | ⟨-, v, -, rfl⟩ <;> rfl
  rw [List.map_append, List.map_singleton, hkept] at hnodes
  obtain ⟨hold, hlast⟩ := List.append_inj' hnodes rfl
  have hself : r.1 = owner u.2.fn := by
    have hargs := congrArg GraphNode.args (List.singleton_inj.mp hlast)
    simpa [Use.toNode] using hargs
  -- an earlier callable keeps the variable of its first use
  have howner : ∀ w ∈ us, owner w.2.fn = ownVar (firstsOf us) w.2.fn := by
    intro w hw
    rw [h.nodes] at hold
    have heq := (List.map_inj_left.mp hold) w hw
    have hargs := congrArg GraphNode.args heq
    simp only [Use.toNode, List.cons.injEq, NodeArg.var.injEq, and_true] at hargs
    exact hargs.symm
  have hfirst : ∀ f ∈ firstsOf us, ∃ w ∈ us, w.2.fn = f.fn ∧ owner w.2.fn = f.callableVar := by
    intro f hf
    obtain ⟨w, hw, hfn⟩ := List.mem_map.mp (mem_fns_firstsOf.mp (List.mem_map_of_mem hf))
    exact ⟨w, hw, hfn, by rw [howner w hw, hfn, ownVar_firsts hf]⟩
  have hmem : u ∈ us ++ [u] := List.mem_append_right _ List.mem_cons_self
  rcases callableVar_eq_ok.mp hr with ⟨hkey, hinit, rfl⟩ | ⟨hkey, v, hlook, rfl⟩
  · rw [h.names, not_or] at hinit
    have hnew : u.2.fn ∉ us.map (·.2.fn) := by
      intro hbad
      obtain ⟨f, hf, hfn, hvar⟩ := exists_ownVar (mem_fns_firstsOf.mpr hbad)
      obtain ⟨w, hw, hwfn, hwvar⟩ := hfirst f hf
      have hsame : u.2.callableVar = f.callableVar :=
        hself.trans (by rw [← hwvar, hwfn, hfn])
      exact hinit.1 (List.mem_map.mpr ⟨f, hf, (congrArg Var.name hsame).symm⟩)
    refine ⟨fun _ => ⟨fun hbad => hkey ((h.keys _).mpr hbad), hinit⟩, fun hbad => absurd hbad hnew, ?_⟩
    rw [addFirst_new fun hbad => hnew (mem_fns_firstsOf.mp hbad), List.map_append, List.mem_append,
      List.map_singleton, List.mem_singleton]
    simp only [List.mem_cons, not_or, h.names] at hname
    tauto
  · obtain ⟨f, hf, hqual, rfl⟩ := h.lookup.mp hlook
    obtain ⟨w, hw, hwfn, hwvar⟩ := hfirst f hf
    have hfn : f.fn = u.2.fn :=
      hwfn ▸ hinj w (List.mem_append_left _ hw) u hmem (hwvar.trans hself)
    have holdFn : u.2.fn ∈ us.map (·.2.fn) :=
      List.mem_map.mpr ⟨w, hw, hwfn.trans hfn⟩
    refine ⟨fun hbad => absurd holdFn hbad, fun _ => ⟨(h.keys _).mp hkey, f, hf, hfn, hqual⟩, ?_⟩
    rw [addFirst_old (mem_fns_firstsOf.mpr holdFn)]
    rw [h.names, not_or] at hname
    exact hname.1

end Told

/-! ## Whole sequences -/

/-- Every call of the sequence finds the derived names as it needs them. -/
def AllClear (us : List (Use V)) : Prop := ∀ pre u post, us = pre ++ u :: post → Clear pre u

def runUses (us : List (Use V)) : Except BuildError (GraphBuilder V) :=
  us.foldlM (fun g u => g.addPyNode u.1 u.2) .empty

theorem runUses_concat (us : List (Use V)) (u : Use V) :
    runUses (us ++ [u]) = runUses us >>= fun g => g.addPyNode u.1 u.2 := by
  rw [runUses, List.foldlM_append]
  congr 1
  funext g
  exact bind_pure _

theorem allClear_nil : AllClear ([] : List (Use V)) := by
  intro pre u post h
  cases pre <;> cases h

theorem allClear_concat {us : List (Use V)} {u : Use V} :
    AllClear (us ++ [u]) ↔ AllClear us ∧ Clear us u := by
  constructor
  · intro h
    refine ⟨?_, h us u [] rfl⟩
    rintro pre w post rfl
    exact h pre w (post ++ [u]) (by simp)
  · rintro ⟨hall, hlast⟩ pre w post heq
    rcases List.eq_nil_or_concat post with rfl | ⟨post, x, rfl⟩
    · obtain ⟨rfl, hu⟩ := List.append_inj' heq rfl
      rw [← List.singleton_inj.mp hu]
      exact hlast
    · rw [List.concat_eq_append, ← List.cons_append, ← List.append_assoc] at heq
      obtain ⟨rfl, -⟩ := List.append_inj' heq rfl
      exact hall pre w post rfl

theorem told_of_clear {us : List (Use V)} (hnames : (us.map (·.1.name)).Nodup)
    (hclear : AllClear us) : ∃ g, runUses us = .ok g ∧ Told us g := by
  induction us using List.reverseRecOn with
  | nil => exact ⟨_, rfl, told_empty⟩
  | append_singleton us u ih =>
    rw [List.map_append, List.nodup_append] at hnames
    obtain ⟨hall, hlast⟩ := allClear_concat.mp hclear
    obtain ⟨g, hrun, htold⟩ := ih hnames.1 hall
    have hfresh : u.1.name ∉ us.map (·.1.name) := fun hbad =>
      hnames.2.2 _ hbad _ (by simp) rfl
    obtain ⟨g', hstep, htold'⟩ := htold.step hlast hfresh
    exact ⟨g', by rw [runUses_concat, hrun]; exact hstep, htold'⟩

theorem nodes_of_addPyNode {g g' : GraphBuilder V} {c : PyNodeCall V} {m : ExportMeta}
    (h : g.addPyNode c m = .ok g') : ∃ n, g'.nodes = g.nodes ++ [n] := by
  obtain ⟨r, hr, hnode⟩ := bind_eq_ok.mp h
  obtain ⟨-, rfl⟩ := node_eq_ok.mp hnode
  rcases callableVar_eq_ok.mp hr with ⟨-, -, rfl⟩ | ⟨-, v, -, rfl⟩
  · exact ⟨_, rfl⟩
  · exact ⟨_, rfl⟩

theorem clear_of_owned {us : List (Use V)} (hnames : (us.map (·.1.name)).Nodup)
    {g : GraphBuilder V} (hrun : runUses us = .ok g) {owner : PyFunction → Var}
    (hnodes : g.nodes = us.map fun u => u.toNode (owner u.2.fn))
    (hinj : ∀ v ∈ us, ∀ w ∈ us, owner v.2.fn = owner w.2.fn → v.2.fn = w.2.fn) :
    AllClear us := by
  induction us using List.reverseRecOn generalizing g with
  | nil => exact allClear_nil
  | append_singleton us u ih =>
    rw [List.map_append, List.nodup_append] at hnames
    rw [runUses_concat] at hrun
    obtain ⟨g0, hrun0, hstep⟩ := bind_eq_ok.mp hrun
    obtain ⟨n, hn⟩ := nodes_of_addPyNode hstep
    have hnodes0 : g0.nodes = us.map fun u => u.toNode (owner u.2.fn) := by
      rw [hn, List.map_append] at hnodes
      exact (List.append_inj' hnodes rfl).1
    have hall := ih hnames.1 hrun0 hnodes0 fun v hv w hw =>
      hinj v (List.mem_append_left _ hv) w (List.mem_append_left _ hw)
    obtain ⟨g1, hrun1, htold⟩ := told_of_clear hnames.1 hall
    obtain rfl := Except.ok.inj (hrun0.symm.trans hrun1)
    exact allClear_concat.mpr ⟨hall, htold.clear_of_step hstep hnodes hinj⟩

/-- Every callable of `us` has one variable of its own, which loads it, and every node starts
its arguments with the variable of its callable. -/
def RegisteredOnce (us : List (Use V)) (g : GraphBuilder V) : Prop :=
  ∃ owner : PyFunction → Var,
    g.vars.Perm ((us.map (·.2.fn)).dedup.map owner) ∧
    (∀ v ∈ us, ∀ w ∈ us, owner v.2.fn = owner w.2.fn → v.2.fn = w.2.fn) ∧
    (∀ u ∈ us, (owner u.2.fn).func = some loadCallable ∧
      (owner u.2.fn).args = [pyText u.2.fn.module, pyText u.2.fn.name]) ∧
    g.nodes = us.map fun u => u.toNode (owner u.2.fn)

theorem Told.registeredOnce {us : List (Use V)} {g : GraphBuilder V} (h : Told us g) :
    RegisteredOnce us g := by
  have hown : ∀ u ∈ us, ∃ f ∈ firstsOf us, f.fn = u.2.fn ∧
      ownVar (firstsOf us) u.2.fn = f.callableVar := fun u hu => exists_ownVar (Told.mem_fns hu)
  refine ⟨ownVar (firstsOf us), ?_, ?_, ?_, h.nodes⟩
  · have hvars : g.vars = ((firstsOf us).map (·.fn)).map (ownVar (firstsOf us)) := by
      rw [h.vars, List.map_map]
      apply List.map_congr_left
      intro f hf
      exact (Told.ownVar_firsts hf).symm
    rw [hvars]
    apply List.Perm.map
    have hnodup : ((firstsOf us).map (·.fn)).Nodup := nodup_fns_firstUses _
    rw [List.perm_ext_iff_of_nodup hnodup (List.nodup_dedup _)]
    intro fn
    rw [List.mem_dedup]
    exact mem_fns_firstsOf
  · intro v hv w hw heq
    obtain ⟨f, hf, hfn, hfv⟩ := hown v hv
    obtain ⟨k, hk, hkn, hkv⟩ := hown w hw
    have hinit : f.initName = k.initName :=
      congrArg Var.name (hfv.symm.trans (heq.trans hkv))
    rw [← hfn, ← hkn, List.inj_on_of_nodup_map h.distinct hf hk hinit]
  · intro u hu
    obtain ⟨f, -, hfn, hfv⟩ := hown u hu
    rw [hfv, ← hfn]
    exact ⟨rfl, rfl⟩

theorem pyNodes_eq {e : Exports} {us : List (Use V)}
    (hexported : ∀ u ∈ us, e.resolve u.1.fn = some u.2) (g : GraphBuilder V) :
    g.pyNodes e (us.map (·.1)) = us.foldlM (fun g u => g.addPyNode u.1 u.2) g := by
  induction us generalizing g with
  | nil => rfl
  | cons u us ih =>
    obtain ⟨hu, hus⟩ := List.forall_mem_cons.mp hexported
    rw [GraphBuilder.pyNodes, List.map_cons, List.foldlM_cons, List.foldlM_cons,
      GraphBuilder.pyNode, hu]
    congr 1
    funext g'
    exact ih hus g'

/-- Over any exported callables and distinct node names, the calls go through and register each
callable once exactly when every call finds the derived names clear. -/
theorem pyNodes_registeredOnce_iff {e : Exports} {us : List (Use V)}
    (hexported : ∀ u ∈ us, e.resolve u.1.fn = some u.2) (hnames : (us.map (·.1.name)).Nodup) :
    (∃ g, GraphBuilder.empty.pyNodes e (us.map (·.1)) = .ok g ∧ RegisteredOnce us g) ↔
      AllClear us := by
  rw [pyNodes_eq hexported]
  constructor
  · rintro ⟨g, hrun, owner, -, hinj, -, hnodes⟩
    exact clear_of_owned hnames hrun hnodes hinj
  · intro hclear
    obtain ⟨g, hrun, htold⟩ := told_of_clear hnames hclear
    exact ⟨g, hrun, htold.registeredOnce⟩

/-! ## Two modules of one script -/

def generateVector : PyFunction := ⟨0, "matcomp".toList, "generate_vector".toList⟩

def computeFft : PyFunction := ⟨1, "matcomp".toList, "compute_fft".toList⟩

/-- The registry after `matcomp` was imported. -/
def matcompExports : Exports :=
  ((noExports.decorate generateVector false none).bind
    (·.decorate computeFft false none)).getD noExports

def matcompUse (name : Text) (fn : PyFunction) : Use ℕ :=
  (⟨name, .function fn, [], ⟨none, none, none, none⟩⟩, ⟨fn, exportKey fn none, false⟩)

def genAndFft : List (Use ℕ) :=
  [matcompUse "gen_vec".toList generateVector, matcompUse "fft".toList computeFft]

theorem genAndFft_registeredOnce : ∃ g,
    GraphBuilder.empty.pyNodes matcompExports (genAndFft.map (·.1)) = .ok g ∧
      RegisteredOnce genAndFft g := by
  apply (pyNodes_registeredOnce_iff (by decide) (by decide)).mpr
  have hsplit : genAndFft = [] ++ [matcompUse "gen_vec".toList generateVector] ++
    [matcompUse "fft".toList computeFft] := rfl
  rw [hsplit, allClear_concat, allClear_concat]
  exact ⟨⟨allClear_nil, ⟨by decide, by decide, by decide⟩⟩, ⟨by decide, by decide, by decide⟩⟩

/-- The same function as the body of two nodes: the second call asks for the variable's name
again. -/
theorem fftTwice_duplicateName :
    let us := [matcompUse "first".toList computeFft, matcompUse "second".toList computeFft]
    (∀ u ∈ us, matcompExports.resolve u.1.fn = some u.2) ∧ (us.map (·.1.name)).Nodup ∧
      (GraphBuilder.empty.pyNodes matcompExports (us.map (·.1)) : Except _ (GraphBuilder ℕ)) =
        .error (.duplicateName "_py_matcomp_compute_fft".toList) ∧
      ¬ ∃ g, GraphBuilder.empty.pyNodes matcompExports (us.map (·.1)) = .ok g ∧
        RegisteredOnce us g := by
  have hrun : (GraphBuilder.empty.pyNodes matcompExports
      ([matcompUse "first".toList computeFft, matcompUse "second".toList computeFft].map
        (·.1)) : Except _ (GraphBuilder ℕ)) =
        .error (.duplicateName "_py_matcomp_compute_fft".toList) := rfl
  refine ⟨by decide, by decide, hrun, ?_⟩
  rintro ⟨g, hok, -⟩
  rw [hrun] at hok
  cases hok

end Tomii.Builder
