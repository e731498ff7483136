import Tomii.Codegen.Yields

/-! # Arguments of the program and their values

What the generator writes for an argument that is kept yields a value that is serialized as this
argument. -/
namespace Tomii.Codegen
open Types (FloatParsers PyValue TypedValue NodeArg Start Bound)
open Python
open Loading (Factor ArgInit ArgJson PredJson)
set_option autoImplicit false
set_option maxHeartbeats 250000

variable {r : FloatParsers} (I : Interpreter r)

/-! ## Scopes that agree with the lines so far -/

def Kind.val (name : Text) : Kind → Val r
  | .var => .arg (.var name)
  | .node => .node name

/-- The scope after the lines that have defined `defs`. -/
structure Agrees (defs : Defined) (varNames : List Text) (nodePynames : List (Text × Text))
    (s : Scope r) : Prop where
  identifiers : ∀ p ∈ defs, isIdentifier I.tables (pyname p.1) = true
  vars : ∀ name, (name, Kind.var) ∈ defs → name ∈ varNames
  names : ∀ name ∈ varNames, isIdentifier I.tables (pyname name) = true
  pynames : ∀ name, nodePyname nodePynames name = pyname name
  get : ∀ name k, Means defs name k → s.get (pyname name) = some (k.val name)
  module : s.get "tm".toList = some .module
  graph : s.get "app".toList = some .graph

theorem Means.mem {defs : Defined} {name : Text} {k : Kind} (h : Means defs name k) :
    (name, k) ∈ defs := by
  obtain ⟨front, back, hsplit, -⟩ := List.lookup_eq_some_iff.mp h
  have hmem : (pyname name, (name, k)) ∈ defs.map fun p => (pyname p.1, p) := by
    rw [hsplit]
    exact List.mem_append_right _ List.mem_cons_self
  obtain ⟨p, hp, heq⟩ := List.mem_map.mp hmem
  rw [Prod.mk.injEq] at heq
  exact heq.2 ▸ hp

section Calls

variable (s : Scope r) (hmodule : s.get "tm".toList = some .module)

include hmodule in
/-- A call of a function of the module. -/
theorem yields_tm {x : Text} {f : Callable} (hx : isIdentifier I.tables x = true)
    (hf : moduleAttr (r := r) x = some (.fn f)) {blank : Text} (hblank : IsBlank blank)
    {args : List (Text × Option Text × Val r)} (hargs : ∀ a ∈ args, YieldsItem I s a.1 a.2)
    {v : Val r} (happly : ∀ g, apply I f (args.map (·.2)) g = some (v, g)) :
    Yields I s ("tm.".toList ++ x ++ '(' :: (',' :: blank).intercalate (args.map (·.1)) ++ [')'])
      v := by
  have hfn : ∀ g, eval I s (.attr (.name "tm".toList) x) g = some (.fn f, g) := by
    intro g
    rw [eval_attr, eval_name, hmodule, Option.map_some, Option.bind_some, getAttr, hf]
    rfl
  exact yields_call I s (opens_attr I.tables rfl hx) hfn hblank hargs happly

end Calls

/-! ## Calls of wrappers -/

section Wrappers

theorem apply_pure (f : Callable) (hf : f.onGraph = false) (hne : f ≠ .graphClass)
    {args : List (Option Text × Val r)} {b : Bindings r} {v : Val r}
    (hbind : f.signature.bind args = some b) (hcall : callPure I f b = some v) (g : State r) :
    apply I f args g = some (v, g) := by
  have happly : apply I f args g = ((f.signature.bind args).bind (callPure I f)).map (·, g) := by
    cases f with
    | graphClass => exact absurd rfl hne
    | var => cases hf
    | addNode post => cases hf
    | network => cases hf
    | _ => rfl
  rw [happly, hbind, Option.bind_some, hcall]
  rfl

theorem apply_scalar (typeName : Text) {v : Val r} {text : Text} (hv : v.shown I = some text)
    (g : State r) :
    apply I (.scalar typeName) [(none, v)] g = some (.arg (.typed ⟨typeName, text⟩), g) := by
  have hbind : (Callable.scalar typeName).signature.bind [(none, v)] =
      some [("value".toList, v)] :=
    bind_names ⟨["value".toList], []⟩ [v] [] 1 [] rfl rfl (by decide) (by decide)
      (List.nil_subset _)
  refine apply_pure I (.scalar typeName) rfl nofun hbind ?_ g
  show (v.shown I).bind (fun value => some (Val.arg (.typed ⟨typeName, value⟩))) = _
  rw [hv]
  rfl

theorem apply_string {v : Val r} {text : Text} (hv : v.shown I = some text) (g : State r) :
    apply I .string [(none, v)] g = some (.arg (.typed ⟨"String".toList, text⟩), g) := by
  have hbind : Callable.string.signature.bind [(none, v)] = some [("value".toList, v)] :=
    bind_names ⟨["value".toList], []⟩ [v] [] 1 [] rfl rfl (by decide) (by decide)
      (List.nil_subset _)
  refine apply_pure I .string rfl nofun hbind ?_ g
  show (v.shown I).bind (fun value => some (Val.arg (.typed ⟨"String".toList, value⟩))) = _
  rw [hv]
  rfl

theorem apply_complex (typeName : Text) {v w : Val r} {re im : Text} (hv : v.shown I = some re)
    (hw : w.shown I = some im) (g : State r) :
    apply I (.complex typeName) [(none, v), (none, w)] g =
      some (.arg (.typed ⟨typeName, re ++ ',' :: im⟩), g) := by
  have hbind : (Callable.complex typeName).signature.bind [(none, v), (none, w)] =
      some [("real".toList, v), ("imag".toList, w)] :=
    bind_names ⟨["real".toList, "imag".toList], []⟩ [v, w] [] 2 [] rfl rfl (by decide)
      (by decide) (List.nil_subset _)
  refine apply_pure I (.complex typeName) rfl nofun hbind ?_ g
  show (v.shown I).bind (fun real => (w.shown I).bind fun imag =>
    some (Val.arg (.typed ⟨typeName, real ++ ',' :: imag⟩))) = _
  rw [hv, hw]
  rfl

theorem apply_vec (inner : Text) {items : List (Types.Arg r)} {texts : List Text}
    (hitems : items.mapM (fun a => (Val.arg a).shown I) = some texts) (g : State r) :
    apply I .vec [(none, .str inner), (none, .list items)] g =
      some (.arg (.typed ⟨"Vec<".toList ++ inner ++ ">".toList, [','].intercalate texts⟩), g) := by
  have hbind : Callable.vec.signature.bind [(none, Val.str inner), (none, .list items)] =
      some [("element_type".toList, Val.str inner), ("values".toList, .list items)] :=
    bind_names ⟨["element_type".toList, "values".toList], []⟩ [Val.str inner, .list items] [] 2
      [] rfl rfl (by decide) (by decide) (List.nil_subset _)
  refine apply_pure I .vec rfl nofun hbind ?_ g
  show (items.mapM fun a => (Val.arg a).shown I).bind (fun values => some (Val.arg (.typed
    ⟨"Vec<".toList ++ inner ++ ">".toList, [','].intercalate values⟩))) = _
  rw [hitems]
  rfl

end Wrappers

/-! ## Literals -/

/-- How a value stands in the graph file, as an argument of a variable and of a node. -/
structure Literal (a : Types.Arg r) (type value : Text) : Prop where
  init : argInit I a = some ⟨type, value⟩
  node : argJson I a = some ⟨type, some value, none, none⟩

theorem literal_typed (type value : Text) : Literal I (.typed ⟨type, value⟩) type value := ⟨rfl, rfl⟩

/-- The two case distinctions of the generator agree, and give the text of a call of a wrapper. -/
theorem scalar_text {type : Text} (value : Text) (htype : type ∈ scalarNames) (hne : type ≠ "usize".toList) :
    parseInitValue I ⟨type, value⟩ = wrapped type value ∧
      literalExpr I type (some value) = some (wrapped type value) ∧
      moduleAttr (r := r) type = some (.fn (.scalar type)) ∧ isIdentifier I.tables type = true := by
  simp only [scalarNames, List.mem_cons, List.not_mem_nil, or_false] at htype
  rcases htype with rfl | rfl | rfl | rfl | rfl | rfl | rfl | rfl | rfl | rfl | rfl | rfl | rfl | rfl
  · exact absurd rfl hne
  all_goals exact ⟨rfl, rfl, rfl, rfl⟩

theorem complex_text {type : Text} (value : Text)
    (htype : type = "Complex32".toList ∨ type = "Complex64".toList) :
    parseInitValue I ⟨type, value⟩ = wrapped type value ∧
      literalExpr I type (some value) = some (wrapped type value) ∧
      moduleAttr (r := r) type = some (.fn (.complex type)) ∧ isIdentifier I.tables type = true := by
  rcases htype with rfl | rfl
  · exact ⟨rfl, rfl, rfl, rfl⟩
  · exact ⟨rfl, rfl, rfl, rfl⟩

/-- A type that begins with `V` is none of the others. -/
theorem vec_branch (type value : Text) (hhead : type.head? = some 'V')
    (hvec : startsWith "Vec".toList type) :
    parseInitValue I ⟨type, value⟩ = vecExpr I type value ∧
      literalExpr I type (some value) = some (vecExpr I type value) := by
  have hother : ∀ s : Text, s.head? ≠ some 'V' → type ≠ s := by
    rintro s hs rfl
    exact hs hhead
  have hbegins : ∀ s : Text, s.head? ≠ some 'V' → s ≠ [] → ¬startsWith s type := by
    intro s hs hne hstarts
    obtain ⟨rest, hrest⟩ := List.isPrefixOf_iff_prefix.mp hstarts
    rw [← hrest, List.head?_append_of_ne_nil _ hne] at hhead
    exact hs hhead
  constructor
  · rw [parseInitValue, if_neg (hother "$ref".toList (by decide)),
      if_neg (hother "bool".toList (by decide)),
      if_neg (not_or.mpr ⟨hother "f32".toList (by decide), hother "f64".toList (by decide)⟩),
      if_neg (not_or.mpr ⟨hbegins "i".toList (by decide) (by decide),
        hbegins "u".toList (by decide) (by decide)⟩),
      if_neg (hother "String".toList (by decide)),
      if_neg (hbegins "Complex".toList (by decide) (by decide)), if_pos hvec]
  · rw [literalExpr, if_neg (hother "bool".toList (by decide)),
      if_neg (not_or.mpr ⟨hother "f32".toList (by decide), hother "f64".toList (by decide)⟩),
      if_neg (hother "usize".toList (by decide)),
      if_neg (not_or.mpr ⟨hbegins "i".toList (by decide) (by decide),
        hbegins "u".toList (by decide) (by decide)⟩),
      if_neg (hother "String".toList (by decide)),
      if_neg (hbegins "Complex".toList (by decide) (by decide)), if_pos hvec]
    rfl

theorem vec_inner (inner : Text) :
    ("Vec<".toList ++ inner ++ ">".toList).dropLast.drop 4 = inner := by
  rw [show ">".toList = ['>'] from rfl, List.dropLast_concat]
  exact List.drop_left' rfl

theorem vec_call (shown value : Text) :
    "tm.Vec(".toList ++ shown ++ ", [".toList ++ value ++ "])".toList =
      "tm.".toList ++ "Vec".toList ++ '(' ::
        [',', ' '].intercalate [shown, '[' :: value ++ [']']] ++ [')'] := by
  rw [List.intercalate_cons_cons, List.intercalate_singleton]
  simp

theorem vec_text (inner value : Text) :
    vecExpr I ("Vec<".toList ++ inner ++ ">".toList) value =
      "tm.".toList ++ "Vec".toList ++ '(' ::
        [',', ' '].intercalate [pyRepr I.tables inner, '[' :: value ++ [']']] ++ [')'] := by
  unfold vecExpr
  rw [vec_inner inner]
  exact vec_call _ _

section Literals

variable (s : Scope r) (hmodule : s.get "tm".toList = some .module)

include hmodule

/-- A wrapper around one value. -/
theorem yields_wrapped (type : Text) {text : Text} {f : Callable} (htype : isIdentifier I.tables type = true)
    (hf : moduleAttr (r := r) type = some (.fn f)) {v w : Val r} (hv : Yields I s text v)
    (happly : ∀ g, apply I f [(none, v)] g = some (w, g)) : Yields I s (wrapped type text) w := by
  have hargs : ∀ a ∈ [(text, none, v)], YieldsItem I s a.1 a.2 :=
    List.forall_mem_singleton.mpr (hv.item I s)
  have hcall := yields_tm I s hmodule htype hf isBlank_nil hargs happly
  rw [List.map_singleton, List.intercalate_singleton] at hcall
  exact hcall

theorem yields_scalar {type value : Text} (htype : type ∈ scalarNames) (hne : type ≠ "usize".toList)
    (hvalue : Printed I value) : Yields I s (wrapped type value) (.arg (.typed ⟨type, value⟩)) := by
  obtain ⟨-, -, hattr, hident⟩ := scalar_text I value htype hne
  obtain ⟨v, hyields, hprint⟩ := exists_printed I s hvalue
  have hshown : (Val.arg (.plain v) : Val r).shown I = some value := congrArg some hprint
  exact yields_wrapped I s hmodule type hident hattr hyields (apply_scalar I type hshown)

theorem yields_string (value : Text) :
    Yields I s ("tm.String(".toList ++ pyRepr I.tables value ++ ")".toList)
      (.arg (.typed ⟨"String".toList, value⟩)) := by
  have hshown : (Val.str value : Val r).shown I = some value := rfl
  exact yields_wrapped I s hmodule "String".toList rfl rfl (yields_repr I s value)
    (apply_string I hshown)

theorem yields_complex {type re im : Text} (htype : type = "Complex32".toList ∨ type = "Complex64".toList)
    (hre : Printed I re) (him : Printed I im) :
    Yields I s (wrapped type (re ++ ',' :: im)) (.arg (.typed ⟨type, re ++ ',' :: im⟩)) := by
  obtain ⟨-, -, hattr, hident⟩ := complex_text I re htype
  obtain ⟨x, hx, hprintRe⟩ := exists_printed I s hre
  obtain ⟨y, hy, hprintIm⟩ := exists_printed I s him
  have hshownRe : (Val.arg (.plain x) : Val r).shown I = some re := congrArg some hprintRe
  have hshownIm : (Val.arg (.plain y) : Val r).shown I = some im := congrArg some hprintIm
  have hargs : ∀ a ∈ [(re, none, Val.arg (.plain x)), (im, none, Val.arg (.plain y))],
      YieldsItem I s a.1 a.2 :=
    List.forall_mem_cons.mpr ⟨hx.item I s, List.forall_mem_singleton.mpr (hy.item I s)⟩
  have hcall := yields_tm I s hmodule hident hattr isBlank_nil hargs
    (apply_complex I type hshownRe hshownIm)
  have hjoin : [','].intercalate [re, im] = re ++ ',' :: im := by
    rw [List.intercalate_cons_cons, List.intercalate_singleton]
    exact List.append_assoc _ _ _
  rw [List.map_cons, List.map_singleton, hjoin] at hcall
  exact hcall

theorem yields_vec (inner : Text) {items : List Text} (hitems : ∀ item ∈ items, Printed I item) :
    Yields I s (vecExpr I ("Vec<".toList ++ inner ++ ">".toList) ([','].intercalate items))
      (.arg (.typed ⟨"Vec<".toList ++ inner ++ ">".toList, [','].intercalate items⟩)) := by
  have hvalues : ∃ values : List (Text × Types.Arg r), values.map (·.1) = items ∧
      (∀ i ∈ values, Yields I s i.1 (.arg i.2)) ∧
      (values.map (·.2)).mapM (fun a => (Val.arg a).shown I) = some items := by
    induction items with
    | nil => exact ⟨[], rfl, fun _ h => absurd h List.not_mem_nil, rfl⟩
    | cons item items ih =>
      obtain ⟨hitem, hrest⟩ := List.forall_mem_cons.mp hitems
      obtain ⟨v, hyields, hprint⟩ := exists_printed I s hitem
      obtain ⟨values, htexts, hvalues, hshown⟩ := ih hrest
      refine ⟨(item, .plain v) :: values, congrArg (item :: ·) htexts,
        List.forall_mem_cons.mpr ⟨hyields, hvalues⟩, ?_⟩
      have hfirst : (Val.arg (.plain v) : Val r).shown I = some item := congrArg some hprint
      rw [List.map_cons, List.mapM_cons, hfirst, hshown]
      rfl
  obtain ⟨values, htexts, hvalues, hshown⟩ := hvalues
  have hlist := yields_list I s isBlank_nil hvalues
  rw [htexts] at hlist
  have hargs : ∀ a ∈ [(pyRepr I.tables inner, none, Val.str inner),
      ('[' :: [','].intercalate items ++ [']'], none, .list (values.map (·.2)))],
      YieldsItem I s a.1 a.2 :=
    List.forall_mem_cons.mpr
      ⟨(yields_repr I s inner).item I s, List.forall_mem_singleton.mpr (hlist.item I s)⟩
  rw [vec_text]
  exact yields_tm I s hmodule rfl rfl isBlank_space hargs (apply_vec I inner hshown)

/-- A literal that is kept, with its expression. -/
theorem yields_literal {type value : Text} (h : LiteralKept I type value) :
    ∃ a, Yields I s (parseInitValue I ⟨type, value⟩) (.arg a) ∧
      literalExpr I type (some value) = some (parseInitValue I ⟨type, value⟩) ∧
      Literal I a type value := by
  cases h with
  | bool b => exact ⟨.plain (.bool b), yields_bool I s b, rfl, ⟨rfl, rfl⟩⟩
  | usize n => exact ⟨.plain (.int n), yields_int I s n, rfl, ⟨rfl, rfl⟩⟩
  | scalar htype hne hvalue =>
    obtain ⟨hparse, hliteral, -, -⟩ := scalar_text I value htype hne
    refine ⟨.typed ⟨type, value⟩, ?_, by rw [hliteral, hparse], literal_typed I type value⟩
    rw [hparse]
    exact yields_scalar I s hmodule htype hne hvalue
  | string value =>
    exact ⟨.typed ⟨"String".toList, value⟩, yields_string I s hmodule value, rfl,
      literal_typed I _ value⟩
  | complex htype hre him =>
    obtain ⟨hparse, hliteral, -, -⟩ := complex_text I _ htype
    refine ⟨.typed ⟨type, _⟩, ?_, by rw [hliteral, hparse], literal_typed I type _⟩
    rw [hparse]
    exact yields_complex I s hmodule htype hre him
  | @vec inner items hitems =>
    obtain ⟨hparse, hliteral⟩ := vec_branch I ("Vec<".toList ++ inner ++ ">".toList)
      ([','].intercalate items) rfl rfl
    refine ⟨.typed ⟨_, _⟩, ?_, by rw [hliteral, hparse], literal_typed I _ _⟩
    rw [hparse]
    exact yields_vec I s hmodule inner hitems

end Literals

end Tomii.Codegen
