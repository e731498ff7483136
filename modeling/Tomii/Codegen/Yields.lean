import Tomii.Codegen.KeptFiles

/-! # Expressions of the program and their values

A text yields a value in a scope when it denotes an expression that evaluates to it and leaves the
graph alone. What the generator writes for numbers, texts and literals yields them. -/
namespace Tomii.Codegen
open Types (FloatParsers PyValue)
open Python
set_option autoImplicit false
set_option maxHeartbeats 250000

variable {r : FloatParsers} (I : Interpreter r) (s : Scope r)

def Yields (text : Text) (v : Val r) : Prop :=
  ∃ e, Denotes I.tables text e ∧ ∀ g, eval I s e g = some (v, g)

/-- An argument with its keyword. -/
def YieldsItem (text : Text) (a : Option Text × Val r) : Prop :=
  ∃ e, DenotesItem I.tables text (a.1, e) ∧ ∀ g, eval I s e g = some (a.2, g)

/-! ## Operands -/

theorem yields_name {x : Text} {v : Val r} (hx : isIdentifier I.tables x = true)
    (hv : s.get x = some v) : Yields I s x v := by
  refine ⟨.name x, denotes_name I.tables hx, fun g => ?_⟩
  rw [eval_name, hv]
  rfl

theorem yields_repr (text : Text) : Yields I s (pyRepr I.tables text) (.str text) :=
  ⟨.str text, denotes_repr I.tables text, fun _ => rfl⟩

theorem yields_quoted {text : Text} (h : ReadsBack text) : Yields I s (quoted text) (.str text) :=
  ⟨.str text, denotes_str I.tables (.inr rfl) h, fun _ => rfl⟩

theorem yields_bool (b : Bool) :
    Yields I s (boolExpr (some (boolText b))) (.arg (.plain (.bool b))) := by
  refine ⟨.bool b, ?_, fun _ => rfl⟩
  have hdenotes := denotes_bool I.tables b
  cases b with
  | true => exact hdenotes
  | false => exact hdenotes

/-! ## Numbers -/

theorem eval_negated {e : Expr} {v w : PyValue r} (g : State r)
    (he : eval I s e g = some (.arg (.plain v), g)) (hneg : negatedNumber I v = some w) :
    eval I s (.neg e) g = some (.arg (.plain w), g) := by
  rw [eval_neg, he, Option.bind_some]
  cases v with
  | int n => cases hneg; rfl
  | float x => cases hneg; rfl
  | bool b => cases hneg
  | str t => cases hneg
  | complex x y => cases hneg

theorem yields_int (n : ℤ) : Yields I s (showInt n) (.int n) := by
  refine ⟨intExpr n, denotes_showInt I.tables n, fun g => ?_⟩
  unfold intExpr
  split
  · next hneg =>
    have hvalue : negatedNumber I (.int (n.natAbs : ℤ)) = some (.int n) :=
      congrArg (fun k => some (PyValue.int k)) (by omega)
    exact eval_negated I s g rfl hvalue
  · next hpos =>
    have hvalue : (n.natAbs : ℤ) = n := by omega
    show some (_, g) = _
    rw [hvalue]

/-- A number without a sign, as an expression. -/
theorem exists_unsigned {w : Text} {v : PyValue r} (h : unsigned? I w = some v) :
    ∃ e, isNumber w = true ∧ Reader.number? w = some e ∧
      ∀ g, eval I s e g = some (.arg (.plain v), g) := by
  unfold unsigned? at h
  split at h
  · next hnumber =>
    split at h
    · next n hread =>
      cases h
      exact ⟨_, hnumber, hread, fun _ => rfl⟩
    · next lexeme hread =>
      obtain ⟨x, hx, rfl⟩ := Option.map_eq_some_iff.mp h
      exact ⟨_, hnumber, hread, fun g => by rw [eval_float, hx]; rfl⟩
    · cases h
  · cases h

theorem yields_numeral {text : Text} {v : PyValue r} (h : numeral? I text = some v) :
    Yields I s text (.arg (.plain v)) := by
  unfold numeral? at h
  split at h
  · next w =>
    obtain ⟨u, hu, hneg⟩ := Option.bind_eq_some_iff.mp h
    obtain ⟨e, hnumber, hread, heval⟩ := exists_unsigned I s hu
    exact ⟨.neg e, denotes_neg I.tables hnumber hread, fun g => eval_negated I s g (heval g) hneg⟩
  · obtain ⟨e, hnumber, hread, heval⟩ := exists_unsigned I s h
    exact ⟨e, denotes_number I.tables hnumber hread, heval⟩

theorem exists_printed {text : Text} (h : Printed I text) :
    ∃ v, Yields I s text (.arg (.plain v)) ∧ Types.pyStr I.floats v = text := by
  obtain ⟨v, hv, hprint⟩ := Option.map_eq_some_iff.mp h
  exact ⟨v, yields_numeral I s hv, hprint⟩

/-! ## Calls and lists -/

theorem Yields.item {text : Text} {v : Val r} (h : Yields I s text v) :
    YieldsItem I s text (none, v) := by
  obtain ⟨e, hdenotes, heval⟩ := h
  exact ⟨e, hdenotes.item I.tables, heval⟩

theorem Yields.keyword {text key : Text} {v : Val r} (h : Yields I s text v)
    (hkey : isIdentifier I.tables key = true) :
    YieldsItem I s (keyword key text) (some key, v) := by
  obtain ⟨e, hdenotes, heval⟩ := h
  exact ⟨e, hdenotes.keyword I.tables hkey, heval⟩

/-- The expressions behind the arguments of a call. -/
theorem exists_items {args : List (Text × Option Text × Val r)}
    (h : ∀ a ∈ args, YieldsItem I s a.1 a.2) :
    ∃ items : List (Text × Item), items.map (·.1) = args.map (·.1) ∧
      (∀ i ∈ items, DenotesItem I.tables i.1 i.2) ∧
      ∀ g, evalArgs I s (.ofList (items.map (·.2))) g = some (args.map (·.2), g) := by
  induction args with
  | nil => exact ⟨[], rfl, fun _ h => absurd h List.not_mem_nil, fun _ => rfl⟩
  | cons a args ih =>
    obtain ⟨⟨e, hdenotes, heval⟩, hrest⟩ := List.forall_mem_cons.mp h
    obtain ⟨items, htexts, hitems, hargs⟩ := ih hrest
    refine ⟨(a.1, a.2.1, e) :: items, congrArg (a.1 :: ·) htexts,
      List.forall_mem_cons.mpr ⟨hdenotes, hitems⟩, fun g => ?_⟩
    rw [List.map_cons, Args.ofList, evalArgs_cons, heval, Option.bind_some, hargs]
    rfl

theorem yields_call {text : Text} {fn : Expr} {f : Callable} (hopen : Opens I.tables text fn)
    (hfn : ∀ g, eval I s fn g = some (.fn f, g)) {blank : Text} (hblank : IsBlank blank)
    {args : List (Text × Option Text × Val r)} (hargs : ∀ a ∈ args, YieldsItem I s a.1 a.2)
    {v : Val r} (happly : ∀ g, apply I f (args.map (·.2)) g = some (v, g)) :
    Yields I s (text ++ '(' :: (',' :: blank).intercalate (args.map (·.1)) ++ [')']) v := by
  obtain ⟨items, htexts, hitems, heval⟩ := exists_items I s hargs
  refine ⟨.call fn (.ofList (items.map (·.2))), ?_, fun g => ?_⟩
  · rw [← htexts]
    exact denotes_call I.tables hopen hblank hitems
  · rw [eval_call, hfn, Option.bind_some, heval, Option.bind_some]
    exact happly g

/-- Arguments by position, then arguments by keyword. -/
theorem exists_keyed {ps : List (Text × Val r)} {ks : List (Text × Text × Val r)}
    (hps : ∀ p ∈ ps, Yields I s p.1 p.2) (hks : ∀ k ∈ ks, YieldsItem I s k.1 (some k.2.1, k.2.2)) :
    ∃ items : List (Text × Item), items.map (·.1) = ps.map (·.1) ++ ks.map (·.1) ∧
      (∀ i ∈ items, DenotesItem I.tables i.1 i.2) ∧
      ∀ g, evalArgs I s (.ofList (items.map (·.2))) g =
        some (callArgs (ps.map (·.2)) (ks.map (·.2)), g) := by
  let args : List (Text × Option Text × Val r) :=
    ps.map (fun p => (p.1, none, p.2)) ++ ks.map fun k => (k.1, some k.2.1, k.2.2)
  have hargs : ∀ a ∈ args, YieldsItem I s a.1 a.2 := by
    intro a ha
    rcases List.mem_append.mp ha with ha | ha
    · obtain ⟨p, hp, rfl⟩ := List.mem_map.mp ha
      exact (hps p hp).item I s
    · obtain ⟨k, hk, rfl⟩ := List.mem_map.mp ha
      exact hks k hk
  obtain ⟨items, htexts, hitems, heval⟩ := exists_items I s hargs
  have hnames : args.map (·.1) = ps.map (·.1) ++ ks.map (·.1) := by
    simp only [args, List.map_append, List.map_map, Function.comp_def]
  have hvalues : args.map (·.2) = callArgs (ps.map (·.2)) (ks.map (·.2)) := by
    simp only [args, callArgs, List.map_append, List.map_map, Function.comp_def]
  exact ⟨items, htexts.trans hnames, hitems, fun g => (heval g).trans (hvalues ▸ rfl)⟩

theorem yields_keyed {text : Text} {fn : Expr} {f : Callable} (hopen : Opens I.tables text fn)
    (hfn : ∀ g, eval I s fn g = some (.fn f, g)) {blank : Text} (hblank : IsBlank blank)
    {ps : List (Text × Val r)} {ks : List (Text × Text × Val r)}
    (hps : ∀ p ∈ ps, Yields I s p.1 p.2) (hks : ∀ k ∈ ks, YieldsItem I s k.1 (some k.2.1, k.2.2))
    {v : Val r}
    (happly : ∀ g, apply I f (callArgs (ps.map (·.2)) (ks.map (·.2))) g = some (v, g)) :
    Yields I s
      (text ++ '(' :: (',' :: blank).intercalate (ps.map (·.1) ++ ks.map (·.1)) ++ [')']) v := by
  obtain ⟨items, htexts, hitems, heval⟩ := exists_keyed I s hps hks
  refine ⟨.call fn (.ofList (items.map (·.2))), ?_, fun g => ?_⟩
  · rw [← htexts]
    exact denotes_call I.tables hopen hblank hitems
  · rw [eval_call, hfn, Option.bind_some, heval, Option.bind_some]
    exact happly g

theorem yields_list {blank : Text} (hblank : IsBlank blank) {items : List (Text × Types.Arg r)}
    (h : ∀ i ∈ items, Yields I s i.1 (.arg i.2)) :
    Yields I s ('[' :: (',' :: blank).intercalate (items.map (·.1)) ++ [']'])
      (.list (items.map (·.2))) := by
  have hexprs : ∃ exprs : List (Text × Expr), exprs.map (·.1) = items.map (·.1) ∧
      (∀ i ∈ exprs, Denotes I.tables i.1 i.2) ∧
      ∀ g, evalArgs I s (.ofList (exprs.map fun i => (none, i.2))) g =
        some (items.map fun i => (none, .arg i.2), g) := by
    induction items with
    | nil => exact ⟨[], rfl, fun _ h => absurd h List.not_mem_nil, fun _ => rfl⟩
    | cons i items ih =>
      obtain ⟨⟨e, hdenotes, heval⟩, hrest⟩ := List.forall_mem_cons.mp h
      obtain ⟨exprs, htexts, hexprs, hargs⟩ := ih hrest
      refine ⟨(i.1, e) :: exprs, congrArg (i.1 :: ·) htexts,
        List.forall_mem_cons.mpr ⟨hdenotes, hexprs⟩, fun g => ?_⟩
      rw [List.map_cons, Args.ofList, evalArgs_cons, heval, Option.bind_some, hargs]
      rfl
  obtain ⟨exprs, htexts, hexprs, hargs⟩ := hexprs
  refine ⟨.list (.ofList (exprs.map fun i => (none, i.2))), ?_, fun g => ?_⟩
  · rw [← htexts]
    exact denotes_list I.tables hblank hexprs
  · have hitems : (items.map fun i => ((none : Option Text), (Val.arg i.2 : Val r))).mapM
        (fun v : Option Text × Val r => v.2.arg?) = some (items.map (·.2)) := by
      clear h hargs htexts
      induction items with
      | nil => rfl
      | cons i items ih =>
        rw [List.map_cons, List.mapM_cons, ih]
        rfl
    rw [eval_list, hargs, Option.bind_some, hitems]
    rfl

end Tomii.Codegen
