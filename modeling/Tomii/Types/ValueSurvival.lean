import Tomii.Types.ValueRoundTrip

/-! # Which Python values survive the graph file

A value survives when the graph file gives it back: the same type, the same value, and for a `Vec`
the same elements. -/
namespace Tomii.Types
set_option autoImplicit false
set_option maxHeartbeats 250000

section Values

variable {r : FloatParsers} (p : PythonFloats r)

/-! ## Meaning -/

/-- The literal of type `T` that stands for a Python value. -/
def Denotes : ScalarType → PyValue r → CmTypes r → Prop
  | .bool, .bool b, c => c = .bool b
  | .int k, .int n, c => ∃ m : k.Value, m.val = n ∧ c = .int k m
  | .f32, .float x, c => c = .f32 (p.narrow x)
  | .f64, .float x, c => c = .f64 x
  | .char, .str [a], c => c = .char a
  | .string, .str s, c => c = .string s
  | .complex32, .complex x y, c => c = .complex32 (p.narrow x) (p.narrow y)
  | .complex64, .complex x y, c => c = .complex64 x y
  | _, _, _ => False

/-- Argument values as the API builds them. -/
inductive ArgCall (r : FloatParsers) where
  | int (k : IntType) (n : ℤ)
  | f32 (x : r.F64)
  | f64 (x : r.F64)
  | string (s : Text)
  | bool_ (b : Bool)
  | char_ (s : Text)
  | complex32 (re im : r.F64)
  | complex64 (re im : r.F64)
  | vec (T : ScalarType) (values : List (PyValue r))
  | plain (value : PyValue r)

namespace ArgCall

def build : ArgCall r → Except PyError (Arg r)
  | int k n => .ok (.typed (pyInt p k (.int n)))
  | f32 x => .ok (.typed (pyF32 p (.float x)))
  | f64 x => .ok (.typed (pyF64 p (.float x)))
  | string s => .ok (.typed (pyString p (.str s)))
  | bool_ b => .ok (.typed (Types.bool_ b))
  | char_ s => (Types.char_ s).map .typed
  | complex32 re im => .ok (.typed (pyComplex32 p re im))
  | complex64 re im => .ok (.typed (pyComplex64 p re im))
  | vec T values => .ok (.typed (pyVec p T.name values))
  | plain value => .ok (.plain value)

def Meaning : ArgCall r → CmTypes r → Prop
  | int k n, c => Denotes p (.int k) (.int n) c
  | f32 x, c => Denotes p .f32 (.float x) c
  | f64 x, c => Denotes p .f64 (.float x) c
  | string s, c => Denotes p .string (.str s) c
  | bool_ b, c => Denotes p .bool (.bool b) c
  | char_ s, c => Denotes p .char (.str s) c
  | complex32 re im, c => Denotes p .complex32 (.complex re im) c
  | complex64 re im, c => Denotes p .complex64 (.complex re im) c
  | vec T values, c => ∃ cs, c = .vecCmt cs ∧ List.Forall₂ (Denotes p T) values cs
  | plain (.int n), c => Denotes p (.int .usize) (.int n) c
  | plain (.float x), c => Denotes p .f64 (.float x) c
  | plain (.bool b), c => Denotes p .bool (.bool b) c
  | plain _, _ => False

/-- The values that the wrappers are meant for. -/
def Accepted : ArgCall r → Prop
  | int k n => k.min ≤ n ∧ n ≤ k.max
  | char_ s => s.length = 1
  | vec T values => ∀ v ∈ values, ∃ c, Denotes p T v c
  | plain (.int n) => 0 ≤ n
  | plain (.str _) => False
  | plain (.complex _ _) => False
  | _ => True

/-- The graph file holds the value, under both kinds of argument, and gives it back. -/
def Survives (a : ArgCall r) : Prop :=
  ∃ arg type value c, a.build p = .ok arg ∧
    argJson p arg = .ok ⟨type, some value, none⟩ ∧ argInit p arg = .ok ⟨type, value⟩ ∧
    stringToCmtype r type value = .ok c ∧ a.Meaning p c

end ArgCall

/-- The texts that come out of a list of values as they went in. -/
def CarriesElement : ScalarType → PyValue r → Prop
  | .int _, _ => True
  | .f32, _ => True
  | .f64, _ => True
  | .char, .str s => ∀ c ∈ s, c ≠ ',' ∧ isWhitespace c = false
  | .string, .str s => ',' ∉ s ∧ trim s = s
  | _, _ => False

def ArgCall.Carried : ArgCall r → Prop
  | complex64 _ _ => False
  | vec T values => values ≠ [] ∧ ∀ v ∈ values, CarriesElement T v
  | plain (.int n) => n ≤ IntType.usize.max
  | _ => True

/-! ## Elements -/

/-- Values that Python prints as the parser of their type spells them. -/
theorem parser_pyStr {T : ScalarType} {v : PyValue r} {c : CmTypes r} (h : Denotes p T v c)
    (hbool : T ≠ .bool) (h32 : T ≠ .complex32) (h64 : T ≠ .complex64) :
    T.parser r (pyStr p v) = .ok c := by
  cases T with
  | bool => exact absurd rfl hbool
  | complex32 => exact absurd rfl h32
  | complex64 => exact absurd rfl h64
  | int k =>
    cases v with
    | int n =>
      obtain ⟨m, rfl, rfl⟩ := h
      change parser r k.name (parseInt k) (.int k) (showInt m.val) = _
      rw [parser, parseInt_showInt]
    | _ => exact h.elim
  | f32 =>
    cases v with
    | float x =>
      obtain rfl := h
      change parser r _ r.parseF32 .f32 (p.str x) = _
      rw [parser, p.parseF32_str]
    | _ => exact h.elim
  | f64 =>
    cases v with
    | float x =>
      obtain rfl := h
      change parser r _ r.parseF64 .f64 (p.str x) = _
      rw [parser, p.parseF64_str]
    | _ => exact h.elim
  | char =>
    cases v with
    | str s =>
      match s, h with
      | [a], h =>
        obtain rfl := h
        rfl
    | _ => exact h.elim
  | string =>
    cases v with
    | str s =>
      obtain rfl := h
      rfl
    | _ => exact h.elim

/-- The text of a number in a list is the text of the number. -/
theorem isPlain_pyStr {T : ScalarType} {v : PyValue r} {c : CmTypes r} (h : Denotes p T v c)
    (hchar : T ≠ .char) (hstring : T ≠ .string) : ∀ a ∈ pyStr p v, IsPlain a := by
  cases v with
  | int n => exact isPlain_showInt
  | float x => exact isPlain_str p x
  | complex x y => exact isPlain_strComplex p x y
  | bool b =>
    cases b
    · exact @isPlain_of_all "False".toList (by decide)
    · exact @isPlain_of_all "True".toList (by decide)
  | str s =>
    cases T with
    | char => exact absurd rfl hchar
    | string => exact absurd rfl hstring
    | _ => exact h.elim

/-- Python spells truth values with a capital letter and complex numbers with a `j`. -/
theorem parser_rejects {T : ScalarType} {v : PyValue r} {c : CmTypes r} (h : Denotes p T v c)
    (hT : T = .bool ∨ T = .complex32 ∨ T = .complex64) :
    ∃ e, T.parser r (pyStr p v) = .error e := by
  rcases hT with rfl | rfl | rfl
  · cases v with
    | bool b =>
      cases b
      · exact ⟨_, rfl⟩
      · exact ⟨_, rfl⟩
    | _ => exact h.elim
  · cases v with
    | complex x y =>
      obtain ⟨e, he⟩ := parseComplex32_rejects r (isPlain_strComplex p x y)
        (p.getLast_strComplex x y)
      rw [ScalarType.parser, complexParser, pyStr, he]
      exact ⟨_, rfl⟩
    | _ => exact h.elim
  · cases v with
    | complex x y =>
      have hplain := isPlain_strComplex p x y
      obtain ⟨e, he⟩ := parseComplex64_rejects r (trim_of_isPlain hplain)
        (fun a ha => (hplain a ha).2.2) (p.getLast_strComplex x y)
      rw [ScalarType.parser, complexParser, pyStr, he]
      exact ⟨_, rfl⟩
    | _ => exact h.elim

/-! ## Elements of a list -/

/-- The texts of elements are trimmed before they are parsed. -/
def ReadsElement (T : ScalarType) (v : PyValue r) (c : CmTypes r) : Prop :=
  ',' ∉ pyStr p v ∧ T.parser r (trim (pyStr p v)) = .ok c

theorem readsElement_number {T : ScalarType} {v : PyValue r} {c : CmTypes r}
    (h : Denotes p T v c) (hbool : T ≠ .bool) (h32 : T ≠ .complex32) (h64 : T ≠ .complex64)
    (hchar : T ≠ .char) (hstring : T ≠ .string) : ReadsElement p T v c := by
  have hplain := isPlain_pyStr p h hchar hstring
  refine ⟨fun hmem => (hplain _ hmem).2.1 rfl, ?_⟩
  rw [trim_of_isPlain hplain]
  exact parser_pyStr p h hbool h32 h64

theorem not_readsElement {T : ScalarType} {v : PyValue r} {c : CmTypes r}
    (h : Denotes p T v c) (hT : T = .bool ∨ T = .complex32 ∨ T = .complex64) :
    ¬ReadsElement p T v c := by
  rintro ⟨_, hparse⟩
  have hchar : T ≠ .char := by rcases hT with rfl | rfl | rfl <;> nofun
  have hstring : T ≠ .string := by rcases hT with rfl | rfl | rfl <;> nofun
  rw [trim_of_isPlain (isPlain_pyStr p h hchar hstring)] at hparse
  obtain ⟨e, he⟩ := parser_rejects p h hT
  rw [he] at hparse
  cases hparse

theorem carriesElement_char (a : Char) :
    CarriesElement (r := r) .char (.str [a]) ↔ ReadsElement p .char (.str [a]) (.char a) := by
  change (∀ b ∈ [a], b ≠ ',' ∧ isWhitespace b = false) ↔
    ',' ∉ [a] ∧ charParser r (trim [a]) = .ok (.char a)
  rw [List.forall_mem_singleton]
  constructor
  · rintro ⟨hcomma, hspace⟩
    refine ⟨fun hmem => hcomma (List.mem_singleton.mp hmem).symm, ?_⟩
    rw [trim_of_forall (by simpa using hspace)]
    rfl
  · rintro ⟨hcomma, hparse⟩
    refine ⟨fun heq => hcomma (heq ▸ List.mem_singleton_self _), ?_⟩
    cases hspace : isWhitespace a with
    | false => rfl
    | true =>
      rw [trim_singleton_whitespace hspace] at hparse
      cases hparse

/-- Elements that no separator and no trimming changes are read as they stand. -/
theorem carriesElement_iff {T : ScalarType} {v : PyValue r} {c : CmTypes r}
    (h : Denotes p T v c) : CarriesElement T v ↔ ReadsElement p T v c := by
  cases T with
  | bool => exact iff_of_false (fun hcarries => hcarries) (not_readsElement p h (.inl rfl))
  | int k => exact iff_of_true trivial (readsElement_number p h nofun nofun nofun nofun nofun)
  | f32 => exact iff_of_true trivial (readsElement_number p h nofun nofun nofun nofun nofun)
  | f64 => exact iff_of_true trivial (readsElement_number p h nofun nofun nofun nofun nofun)
  | complex32 =>
    exact iff_of_false (fun hcarries => hcarries) (not_readsElement p h (.inr (.inl rfl)))
  | complex64 =>
    exact iff_of_false (fun hcarries => hcarries) (not_readsElement p h (.inr (.inr rfl)))
  | char =>
    cases v with
    | str s =>
      match s, h with
      | [a], h =>
        obtain rfl := h
        exact carriesElement_char p a
    | _ => exact h.elim
  | string =>
    cases v with
    | str s =>
      obtain rfl := h
      change ',' ∉ s ∧ trim s = s ↔ ',' ∉ s ∧ Except.ok (CmTypes.string (trim s)) = .ok (.string s)
      rw [Except.ok.injEq, CmTypes.string.injEq]
    | _ => exact h.elim

/-! ## Lists -/

theorem map_vecCmt_eq_ok {x : Except CustomError (List (CmTypes r))} {cs : List (CmTypes r)} :
    x.map CmTypes.vecCmt = .ok (.vecCmt cs) ↔ x = .ok cs := by
  cases x with
  | error e => exact iff_of_false nofun nofun
  | ok xs =>
    change Except.ok (CmTypes.vecCmt xs) = .ok (.vecCmt cs) ↔ _
    rw [Except.ok.injEq, CmTypes.vecCmt.injEq, Except.ok.injEq]

theorem forall_carriesElement_iff {T : ScalarType} {values : List (PyValue r)}
    {cs : List (CmTypes r)} (h : List.Forall₂ (Denotes p T) values cs) :
    (∀ v ∈ values, CarriesElement T v) ↔ List.Forall₂ (ReadsElement p T) values cs := by
  induction h with
  | nil => exact iff_of_true (List.forall_mem_nil _) .nil
  | cons hv _ ih => rw [List.forall_mem_cons, List.forall₂_cons, carriesElement_iff p hv, ih]

/-- A list comes back when it has an element and the text of each is read as that element. -/
theorem stringToCmtype_vec_iff {T : ScalarType} {values : List (PyValue r)}
    {cs : List (CmTypes r)} (h : List.Forall₂ (Denotes p T) values cs) :
    stringToCmtype r T.vecName ([','].intercalate (values.map (pyStr p))) = .ok (.vecCmt cs) ↔
      values ≠ [] ∧ ∀ v ∈ values, CarriesElement T v := by
  have hlength : (values.map (pyStr p)).length = cs.length :=
    (List.length_map _).trans h.length_eq
  rw [ScalarType.stringToCmtype_vecName, map_vecCmt_eq_ok, mapM_splitOn_intercalate ',' hlength,
    List.forall₂_map_left_iff, ne_eq, List.map_eq_nil_iff, forall_carriesElement_iff p h]
  exact Iff.rfl

theorem exists_denoted {T : ScalarType} {values : List (PyValue r)}
    (h : ∀ v ∈ values, ∃ c, Denotes p T v c) : ∃ cs, List.Forall₂ (Denotes p T) values cs := by
  induction values with
  | nil => exact ⟨[], .nil⟩
  | cons v values ih =>
    obtain ⟨c, hc⟩ := h v List.mem_cons_self
    obtain ⟨cs, hcs⟩ := ih fun w hw => h w (List.mem_cons_of_mem v hw)
    exact ⟨c :: cs, .cons hc hcs⟩

/-! ## Survival -/

theorem survives_iff {a : ArgCall r} {arg : Arg r} (tv : TypedValue) (hbuild : a.build p = .ok arg)
    (hjson : argJson p arg = .ok ⟨tv.typeName, some tv.valueStr, none⟩)
    (hinit : argInit p arg = .ok ⟨tv.typeName, tv.valueStr⟩) :
    a.Survives p ↔ ∃ c, stringToCmtype r tv.typeName tv.valueStr = .ok c ∧ a.Meaning p c := by
  constructor
  · rintro ⟨arg', type, value, c, hbuild', _, hinit', hread, hmeaning⟩
    obtain rfl := Except.ok.inj (hbuild.symm.trans hbuild')
    obtain ⟨rfl, rfl⟩ := ArgInit.mk.inj (Except.ok.inj (hinit.symm.trans hinit'))
    exact ⟨c, hread, hmeaning⟩
  · rintro ⟨c, hread, hmeaning⟩
    exact ⟨arg, tv.typeName, tv.valueStr, c, hbuild, hjson, hinit, hread, hmeaning⟩

/-- Values under a type whose parser reads Python's spelling. -/
theorem survives_scalar {a : ArgCall r} {arg : Arg r} {T : ScalarType} {v : PyValue r}
    {c : CmTypes r} (hbuild : a.build p = .ok arg)
    (hjson : argJson p arg = .ok ⟨T.name, some (pyStr p v), none⟩)
    (hinit : argInit p arg = .ok ⟨T.name, pyStr p v⟩) (hmeaning : a.Meaning p c)
    (h : Denotes p T v c) (hbool : T ≠ .bool) (h32 : T ≠ .complex32) (h64 : T ≠ .complex64) :
    a.Survives p := by
  rw [survives_iff p ⟨T.name, pyStr p v⟩ hbuild hjson hinit]
  refine ⟨c, ?_, hmeaning⟩
  rw [ScalarType.stringToCmtype_name]
  exact parser_pyStr p h hbool h32 h64

theorem bool_survives (b : Bool) : (ArgCall.bool_ b : ArgCall r).Survives p := by
  rw [survives_iff p (bool_ b) rfl rfl rfl]
  refine ⟨.bool b, ?_, rfl⟩
  cases b
  · rfl
  · rfl

theorem complex32_survives (re im : r.F64) : (ArgCall.complex32 re im).Survives p := by
  have hpair := parseComplex32_pair r (isPlain_str p re) (isPlain_str p im) (p.parseF32_str re)
    (p.parseF32_str im)
  have hread : stringToCmtype r ScalarType.complex32.name (p.str re ++ ',' :: p.str im) =
      .ok (.complex32 (p.narrow re) (p.narrow im)) := by
    rw [ScalarType.stringToCmtype_name, ScalarType.parser, complexParser, hpair]
  rw [survives_iff p (pyComplex32 p re im) rfl rfl rfl]
  exact ⟨_, hread, rfl⟩

/-- The text of the pair has no letter at its end. -/
theorem complex64_lost (re im : r.F64) : ¬(ArgCall.complex64 re im).Survives p := by
  rw [survives_iff p (pyComplex64 p re im) rfl rfl rfl]
  rintro ⟨c, hread, _⟩
  have hspace : ∀ a ∈ p.str re ++ ',' :: p.str im, isWhitespace a = false :=
    forall_mem_pair (fun a ha => (isPlain_str p re a ha).1) (by decide)
      fun a ha => (isPlain_str p im a ha).1
  have hbrace : ∀ a ∈ p.str re ++ ',' :: p.str im, a ≠ '\x7b' :=
    forall_mem_pair (fun a ha => (isPlain_str p re a ha).2.2) (by decide)
      fun a ha => (isPlain_str p im a ha).2.2
  have hlast : (p.str re ++ ',' :: p.str im).getLast? ≠ some 'i' := by
    rw [List.getLast?_append_cons, List.getLast?_cons_of_ne_nil (p.str_ne_nil im)]
    exact p.getLast_str im
  obtain ⟨e, he⟩ := parseComplex64_rejects r (trim_of_forall hspace) hbrace hlast
  change stringToCmtype r ScalarType.complex64.name (p.str re ++ ',' :: p.str im) = _ at hread
  rw [ScalarType.stringToCmtype_name, ScalarType.parser, complexParser, he] at hread
  cases hread

theorem vec_survives_iff {T : ScalarType} {values : List (PyValue r)}
    (h : ∀ v ∈ values, ∃ c, Denotes p T v c) :
    (ArgCall.vec T values).Survives p ↔ values ≠ [] ∧ ∀ v ∈ values, CarriesElement T v := by
  rw [survives_iff p (pyVec p T.name values) rfl rfl rfl]
  constructor
  · rintro ⟨_, hread, cs, rfl, hcs⟩
    exact (stringToCmtype_vec_iff p hcs).mp hread
  · intro hcarried
    obtain ⟨cs, hcs⟩ := exists_denoted p h
    exact ⟨.vecCmt cs, (stringToCmtype_vec_iff p hcs).mpr hcarried, cs, rfl, hcs⟩

/-- An integer without a wrapper is a `usize`. -/
theorem plain_int_survives_iff {n : ℤ} (h : 0 ≤ n) :
    (ArgCall.plain (.int n) : ArgCall r).Survives p ↔ n ≤ IntType.usize.max := by
  constructor
  · rintro ⟨_, _, _, c, _, _, _, _, m, rfl, _⟩
    exact m.2.2
  · intro hmax
    have hdenotes : Denotes p (.int .usize) (.int n) (.int .usize ⟨n, h, hmax⟩) :=
      ⟨⟨n, h, hmax⟩, rfl, rfl⟩
    exact survives_scalar p rfl rfl rfl hdenotes hdenotes nofun nofun nofun

theorem plain_bool_survives (b : Bool) : (ArgCall.plain (.bool b) : ArgCall r).Survives p := by
  rw [survives_iff p (bool_ b) rfl rfl rfl]
  refine ⟨.bool b, ?_, rfl⟩
  cases b
  · rfl
  · rfl

/-- Which values come back. -/
theorem values_survive_iff {a : ArgCall r} (h : a.Accepted p) : a.Survives p ↔ a.Carried := by
  cases a with
  | int k n =>
    have hdenotes : Denotes p (.int k) (.int n) (.int k ⟨n, h⟩) := ⟨⟨n, h⟩, rfl, rfl⟩
    exact iff_of_true
      (survives_scalar p rfl rfl rfl hdenotes hdenotes nofun nofun nofun) trivial
  | f32 x =>
    have hdenotes : Denotes p .f32 (.float x) (.f32 (p.narrow x)) := rfl
    exact iff_of_true
      (survives_scalar p rfl rfl rfl hdenotes hdenotes nofun nofun nofun) trivial
  | f64 x =>
    have hdenotes : Denotes p .f64 (.float x) (.f64 x) := rfl
    exact iff_of_true
      (survives_scalar p rfl rfl rfl hdenotes hdenotes nofun nofun nofun) trivial
  | string s =>
    have hdenotes : Denotes p .string (.str s) (.string s) := rfl
    exact iff_of_true
      (survives_scalar p rfl rfl rfl hdenotes hdenotes nofun nofun nofun) trivial
  | bool_ b => exact iff_of_true (bool_survives p b) trivial
  | char_ s =>
    obtain ⟨a, rfl⟩ := List.length_eq_one_iff.mp h
    have hdenotes : Denotes p .char (.str [a]) (.char a) := rfl
    exact iff_of_true
      (survives_scalar p rfl rfl rfl hdenotes hdenotes nofun nofun nofun) trivial
  | complex32 re im => exact iff_of_true (complex32_survives p re im) trivial
  | complex64 re im => exact iff_of_false (complex64_lost p re im) fun hcarried => hcarried
  | vec T values => exact vec_survives_iff p h
  | plain value =>
    cases value with
    | int n => exact plain_int_survives_iff p h
    | float x =>
      have hdenotes : Denotes p .f64 (.float x) (.f64 x) := rfl
      exact iff_of_true
        (survives_scalar p rfl rfl rfl hdenotes hdenotes nofun nofun nofun) trivial
    | bool b => exact iff_of_true (plain_bool_survives p b) trivial
    | str s => exact h.elim
    | complex re im => exact h.elim

end Values

/-! ## Whole numbers as floats -/

def parseWhole (s : Text) : Option ℤ := (".0".toList.isSuffixOf? s).bind (readInt true)

/-- Floats with no fraction, small enough to be printed without an exponent. -/
def wholeFloats : FloatParsers where
  F32 := ℤ
  F64 := ℤ
  parseF32 := parseWhole
  parseF64 := parseWhole
  jsonC32 := fun _ => none
  jsonC64 := fun _ => none

def strWhole (n : ℤ) : Text := showInt n ++ ".0".toList

def strWholeComplex (x y : ℤ) : Text :=
  '(' :: showInt x ++ (if y < 0 then showInt y else '+' :: showInt y) ++ "j)".toList

theorem parseWhole_strWhole (n : ℤ) : parseWhole (strWhole n) = some n := by
  have hsuffix : ".0".toList.isSuffixOf? (strWhole n) = some (showInt n) :=
    List.isSuffixOf?_eq_some_iff_append_eq.mpr rfl
  rw [parseWhole, hsuffix, Option.bind_some]
  exact readInt_showInt (.inl rfl)

theorem getLast_strWhole (n : ℤ) : (strWhole n).getLast? = some '0' := by
  rw [strWhole, List.getLast?_append]
  rfl

theorem getLast_strWholeComplex (x y : ℤ) : (strWholeComplex x y).getLast? = some ')' := by
  rw [strWholeComplex, List.getLast?_append]
  rfl

theorem mem_digits_of_isDigit {c : Char} (h : c.isDigit = true) : c ∈ "0123456789".toList := by
  have hrange : 48 ≤ c.toNat ∧ c.toNat ≤ 57 := by
    unfold Char.isDigit at h
    rw [Bool.and_eq_true, decide_eq_true_iff, decide_eq_true_iff] at h
    exact h
  have hchar : c = Char.ofNat c.toNat := (Char.ofNat_toNat c).symm
  have hall : ∀ n < 58, 48 ≤ n → Char.ofNat n ∈ "0123456789".toList := by decide
  rw [hchar]
  exact hall c.toNat (Nat.lt_succ_of_le hrange.2) hrange.1

theorem mem_of_mem_showInt {n : ℤ} {c : Char} {letters : Text} (hminus : '-' ∈ letters)
    (hdigits : "0123456789".toList ⊆ letters) (h : c ∈ showInt n) : c ∈ letters := by
  rcases mem_showInt h with rfl | hdigit
  · exact hminus
  · exact hdigits (mem_digits_of_isDigit hdigit)

def wholePython : PythonFloats wholeFloats where
  str := strWhole
  strComplex := strWholeComplex
  narrow := id
  parseF64_str := parseWhole_strWhole
  parseF32_str := parseWhole_strWhole
  str_ne_nil := fun _ => List.append_ne_nil_of_right_ne_nil _ (List.cons_ne_nil _ _)
  mem_str := by
    intro n c hc
    rcases List.mem_append.mp hc with hc | hc
    · exact mem_of_mem_showInt (by decide) (by decide) hc
    · exact (show ".0".toList ⊆ "0123456789+-.einfa".toList by decide) hc
  getLast_str := fun n hlast => absurd ((getLast_strWhole n).symm.trans hlast) (by decide)
  mem_strComplex := by
    intro x y c hc
    rcases List.mem_append.mp hc with hc | hc
    · rcases List.mem_append.mp hc with hc | hc
      · rcases List.mem_cons.mp hc with rfl | hc
        · decide
        · exact mem_of_mem_showInt (by decide) (by decide) hc
      · split at hc
        · exact mem_of_mem_showInt (by decide) (by decide) hc
        · rcases List.mem_cons.mp hc with rfl | hc
          · decide
          · exact mem_of_mem_showInt (by decide) (by decide) hc
    · exact (show "j)".toList ⊆ "0123456789+-.einfaj()".toList by decide) hc
  getLast_strComplex := fun x y hlast =>
    absurd ((getLast_strWholeComplex x y).symm.trans hlast) (by decide)

/-- Two characters in a list. -/
theorem values_survive_iff_chars :
    (ArgCall.vec .char [.str ['a'], .str ['b']] : ArgCall wholeFloats).Survives wholePython := by
  have haccepted : (ArgCall.vec .char [.str ['a'], .str ['b']] : ArgCall wholeFloats).Accepted
      wholePython := by
    intro v hv
    rcases List.mem_cons.mp hv with rfl | hv
    · exact ⟨.char 'a', rfl⟩
    · rcases List.mem_singleton.mp hv with rfl
      exact ⟨.char 'b', rfl⟩
  refine (values_survive_iff wholePython haccepted).mpr ⟨List.cons_ne_nil _ _, ?_⟩
  rw [List.forall_mem_cons, List.forall_mem_singleton]
  exact ⟨List.forall_mem_singleton.mpr (by decide), List.forall_mem_singleton.mpr (by decide)⟩

/-- `Complex64(1.0, -2.0)` is refused. -/
theorem values_survive_not_complex64 :
    (ArgCall.complex64 (1 : ℤ) (-2 : ℤ) : ArgCall wholeFloats).Accepted wholePython ∧
      pyComplex64 wholePython (1 : ℤ) (-2 : ℤ) = ⟨"Complex64".toList, "1.0,-2.0".toList⟩ ∧
      ¬(ArgCall.complex64 (1 : ℤ) (-2 : ℤ) : ArgCall wholeFloats).Survives wholePython := by
  refine ⟨trivial, by decide, ?_⟩
  rintro ⟨arg, _, _, c, hbuild, _, hinit, hread, _⟩
  cases hbuild
  cases hinit
  cases hread

end Tomii.Types
