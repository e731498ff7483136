import Tomii.Types.PythonValues

/-! # From Python values to literals

What a wrapper prints is read again as the value it was given: where the parser of the type knows
the spelling, and where the list of a `Vec` can be taken apart at its commas. -/
namespace Tomii.Types
set_option autoImplicit false
set_option maxHeartbeats 250000

/-! ## Element types -/

inductive ScalarType where
  | bool
  | int (k : IntType)
  | f32
  | f64
  | char
  | string
  | complex32
  | complex64
  deriving DecidableEq, Repr

namespace ScalarType

def name : ScalarType → Text
  | bool => "bool".toList
  | int k => k.name
  | f32 => "f32".toList
  | f64 => "f64".toList
  | char => "char".toList
  | string => "String".toList
  | complex32 => "Complex32".toList
  | complex64 => "Complex64".toList

variable (r : FloatParsers)

/-- The entry of `parsers` under the name. -/
def parser : ScalarType → ParserFn r
  | bool => Types.parser r "bool".toList parseBool .bool
  | int k => intParser r k
  | f32 => Types.parser r "f32".toList r.parseF32 .f32
  | f64 => Types.parser r "f64".toList r.parseF64 .f64
  | char => charParser r
  | string => fun s => .ok (.string s)
  | complex32 =>
    complexParser r "Complex32".toList (parseComplex32 r) fun c => .complex32 c.1 c.2
  | complex64 =>
    complexParser r "Complex64".toList (parseComplex64 r) fun c => .complex64 c.1 c.2

theorem lookup_name (T : ScalarType) : (parsers r).lookup T.name = some (T.parser r) := by
  cases T with
  | int k => cases k <;> rfl
  | _ => rfl

theorem stringToCmtype_name (T : ScalarType) (s : Text) :
    stringToCmtype r T.name s = T.parser r s := by
  rw [stringToCmtype, lookup_name]

def vecName (T : ScalarType) : Text := "Vec<".toList ++ T.name ++ ">".toList

theorem lookup_vecName (T : ScalarType) : (parsers r).lookup T.vecName = none := by
  cases T with
  | int k => cases k <;> rfl
  | _ => rfl

theorem elementOf_vecName (T : ScalarType) :
    (("Vec<".toList.isPrefixOf? T.vecName).bind fun s => ">".toList.isSuffixOf? s) =
      some T.name := by
  have hlead : "Vec<".toList.isPrefixOf? T.vecName = some (T.name ++ ">".toList) :=
    List.isPrefixOf?_eq_some_iff_append_eq.mpr (by rw [vecName, List.append_assoc])
  rw [hlead, Option.bind_some]
  exact List.isSuffixOf?_eq_some_iff_append_eq.mpr rfl

theorem stringToCmtype_vecName (T : ScalarType) (s : Text) :
    stringToCmtype r T.vecName s =
      ((s.splitOn ',').mapM fun value => T.parser r (trim value)).map .vecCmt := by
  have helement : elementParser r T.name = fun value => T.parser r (trim value) := by
    funext value
    rw [elementParser, lookup_name]
  have hvec : "Vec".toList.isPrefixOf T.vecName = true := rfl
  rw [stringToCmtype, lookup_vecName]
  simp only [hvec, if_true, elementOf_vecName]
  rw [helement]
  rfl

end ScalarType

/-! ## Numbers as texts -/

/-- Characters of numerals have no role in literals. -/
def IsPlain (c : Char) : Prop := isWhitespace c = false ∧ c ≠ ',' ∧ c ≠ '\x7b'

instance (c : Char) : Decidable (IsPlain c) :=
  inferInstanceAs (Decidable (isWhitespace c = false ∧ c ≠ ',' ∧ c ≠ '\x7b'))

theorem isPlain_of_all {s : Text} (h : (s.all fun c => decide (IsPlain c)) = true) :
    ∀ c ∈ s, IsPlain c := fun c hc => of_decide_eq_true (List.all_eq_true.mp h c hc)

theorem isPlain_of_isDigit {c : Char} (h : c.isDigit = true) : IsPlain c := by
  refine ⟨isWhitespace_of_isDigit h, ?_, ?_⟩
  · rintro rfl
    exact absurd h (by decide)
  · rintro rfl
    exact absurd h (by decide)

theorem isPlain_showInt {n : ℤ} : ∀ c ∈ showInt n, IsPlain c := by
  intro c hc
  rcases mem_showInt hc with rfl | hdigit
  · decide
  · exact isPlain_of_isDigit hdigit

theorem trim_of_isPlain {s : Text} (h : ∀ c ∈ s, IsPlain c) : trim s = s :=
  trim_of_forall fun c hc => (h c hc).1

section Floats

variable {r : FloatParsers} (p : PythonFloats r)

theorem isPlain_str (x : r.F64) : ∀ c ∈ p.str x, IsPlain c := by
  have hall : ∀ c ∈ "0123456789+-.einfa".toList, IsPlain c := isPlain_of_all (by decide)
  exact fun c hc => hall c (p.mem_str x c hc)

theorem isPlain_strComplex (x y : r.F64) : ∀ c ∈ p.strComplex x y, IsPlain c := by
  have hall : ∀ c ∈ "0123456789+-.einfaj()".toList, IsPlain c := isPlain_of_all (by decide)
  exact fun c hc => hall c (p.mem_strComplex x y c hc)

end Floats

/-! ## Complex numbers -/

section Complex

variable (r : FloatParsers)

theorem head_ne_brace {s : Text} (h : ∀ c ∈ s, c ≠ '\x7b') : s.head? ≠ some '\x7b' :=
  fun hhead => h _ (List.mem_of_head? hhead) rfl

theorem forall_mem_pair {P : Char → Prop} {s t : Text} (hs : ∀ c ∈ s, P c) (hcomma : P ',')
    (ht : ∀ c ∈ t, P c) : ∀ c ∈ s ++ ',' :: t, P c := by
  intro c hc
  rcases List.mem_append.mp hc with hc | hc
  · exact hs c hc
  · rcases List.mem_cons.mp hc with rfl | hc
    · exact hcomma
    · exact ht c hc

/-- The text of a pair, without the letter that ends the standard format. -/
theorem parseComplex64_rejects {s : Text} (hspace : trim s = s) (hbrace : ∀ c ∈ s, c ≠ '\x7b')
    (hlast : s.getLast? ≠ some 'i') : ∃ e, parseComplex64 r s = .error e := by
  rw [parseComplex64, hspace]
  simp only [if_neg (head_ne_brace hbrace), if_neg hlast]
  exact ⟨_, rfl⟩

theorem parseComplex32_rejects {s : Text} (h : ∀ c ∈ s, IsPlain c)
    (hlast : s.getLast? ≠ some 'i') : ∃ e, parseComplex32 r s = .error e := by
  have hcomma : ',' ∉ s := fun hmem => (h _ hmem).2.1 rfl
  rw [parseComplex32, trim_of_isPlain h]
  simp only [if_neg (head_ne_brace fun c hc => (h c hc).2.2), if_neg hcomma, if_neg hlast]
  exact ⟨_, rfl⟩

theorem parseComplex32_pair {s t : Text} {x y : r.F32} (hs : ∀ c ∈ s, IsPlain c)
    (ht : ∀ c ∈ t, IsPlain c) (hx : r.parseF32 s = some x) (hy : r.parseF32 t = some y) :
    parseComplex32 r (s ++ ',' :: t) = .ok (x, y) := by
  have hcomma : ',' ∉ s := fun hmem => (hs _ hmem).2.1 rfl
  have hspace : ∀ c ∈ s ++ ',' :: t, isWhitespace c = false :=
    forall_mem_pair (fun c hc => (hs c hc).1) (by decide) fun c hc => (ht c hc).1
  have hbrace : ∀ c ∈ s ++ ',' :: t, c ≠ '\x7b' :=
    forall_mem_pair (fun c hc => (hs c hc).2.2) (by decide) fun c hc => (ht c hc).2.2
  have hpos : (s ++ ',' :: t).idxOf ',' = s.length := by
    rw [List.idxOf_append_of_notMem hcomma, List.idxOf_cons_self, Nat.add_zero]
  have htake : (s ++ ',' :: t).take s.length = s := List.take_left
  have hdrop : (s ++ ',' :: t).drop (s.length + 1) = t := by
    rw [← List.drop_drop, List.drop_left]
    rfl
  rw [parseComplex32, trim_of_forall hspace]
  simp only [if_neg (head_ne_brace hbrace), if_pos (List.mem_append_right s List.mem_cons_self),
    hpos, htake, hdrop, trim_of_isPlain hs, trim_of_isPlain ht, hx, hy]

end Complex

end Tomii.Types
