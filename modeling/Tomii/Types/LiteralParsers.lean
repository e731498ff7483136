import Tomii.Foundations.Texts
import Mathlib.Algebra.Group.Int.Defs

/-! # Literals of the graph file (`tomii-types/src/lib.rs`)

`string_to_cmtype` and the parsers it looks up. The parsers of floats come from outside, and so does
the JSON reader of complex numbers. -/
namespace Tomii.Types
set_option autoImplicit false
set_option maxHeartbeats 250000

/-! ## Values -/

inductive IntType where
  | i8 | i16 | i32 | i64 | i128
  | u8 | u16 | u32 | u64 | u128
  | usize | isize
  deriving DecidableEq, Repr

namespace IntType

def name : IntType → Text
  | i8 => "i8".toList
  | i16 => "i16".toList
  | i32 => "i32".toList
  | i64 => "i64".toList
  | i128 => "i128".toList
  | u8 => "u8".toList
  | u16 => "u16".toList
  | u32 => "u32".toList
  | u64 => "u64".toList
  | u128 => "u128".toList
  | usize => "usize".toList
  | isize => "isize".toList

/-- Pointers have 64 bits. -/
def bits : IntType → ℕ
  | i8 | u8 => 8
  | i16 | u16 => 16
  | i32 | u32 => 32
  | i64 | u64 | usize | isize => 64
  | i128 | u128 => 128

def signed : IntType → Bool
  | i8 | i16 | i32 | i64 | i128 | isize => true
  | u8 | u16 | u32 | u64 | u128 | usize => false

def min (k : IntType) : ℤ := if k.signed then -2 ^ (k.bits - 1) else 0

def max (k : IntType) : ℤ := if k.signed then 2 ^ (k.bits - 1) - 1 else 2 ^ k.bits - 1

abbrev Value (k : IntType) : Type := { n : ℤ // k.min ≤ n ∧ n ≤ k.max }

end IntType

/-- `str::parse` of floats, and `serde_json::from_str` of complex numbers. -/
structure FloatParsers where
  F32 : Type
  F64 : Type
  parseF32 : Text → Option F32
  parseF64 : Text → Option F64
  jsonC32 : Text → Option (F32 × F32)
  jsonC64 : Text → Option (F64 × F64)

/-- The variants that texts are read as. -/
inductive CmTypes (r : FloatParsers) where
  | bool (b : Bool)
  | int (k : IntType) (n : k.Value)
  | f32 (x : r.F32)
  | f64 (x : r.F64)
  | char (c : Char)
  | string (s : Text)
  | complex32 (re im : r.F32)
  | complex64 (re im : r.F64)
  | vecCmt (values : List (CmTypes r))
  | ref (index : IntType.usize.Value)
  | res (index : IntType.usize.Value)
  | dep (index : IntType.usize.Value)
  | barrier (s : Text)
  | none
  | init

structure CustomError where
  details : Text
  deriving DecidableEq, Repr

/-! ## Parsers of one value -/

/-- `str::parse` of integers. -/
def parseInt (k : IntType) (s : Text) : Option k.Value :=
  (readInt k.signed s).bind fun n => if h : k.min ≤ n ∧ n ≤ k.max then some ⟨n, h⟩ else none

def parseBool (s : Text) : Option Bool :=
  if s = "true".toList then some true else if s = "false".toList then some false else none

section Parsers

variable (r : FloatParsers)

abbrev ParserFn : Type := Text → Except CustomError (CmTypes r)

/-- Parsers that answer with `invalid ⟨what⟩: '⟨text⟩'`. -/
def parser {α : Type} (what : Text) (parse : Text → Option α) (wrap : α → CmTypes r) :
    ParserFn r := fun s =>
  match parse s with
  | some a => .ok (wrap a)
  | none => .error ⟨"invalid ".toList ++ what ++ ": '".toList ++ s ++ "'".toList⟩

/-- The last `+` or `-` that is not the first character. -/
def splitPos (s : Text) : Option ℕ :=
  (s.zipIdx.drop 1).foldl
    (fun pos (c, i) => if c = '+' ∨ c = '-' then some i else pos) none

def parseComplex32 (s : Text) : Except CustomError (r.F32 × r.F32) :=
  let s := trim s
  let parts (reStr imStr : Text) : Except CustomError (r.F32 × r.F32) :=
    match r.parseF32 reStr with
    | none => .error ⟨"invalid Complex32 real part".toList⟩
    | some re =>
      match r.parseF32 imStr with
      | none => .error ⟨"invalid Complex32 imaginary part".toList⟩
      | some im => .ok (re, im)
  let invalid : Except CustomError (r.F32 × r.F32) := .error
    ⟨"invalid Complex32 format. Use: '3.5+2.5i', '3.5,2.5', or '\x7b\"re\":3.5,\"im\":2.5\x7d'".toList⟩
  if s.head? = some '\x7b' then
    match r.jsonC32 s with
    | some c => .ok c
    | none => .error ⟨"invalid Complex32 JSON format".toList⟩
  else if ',' ∈ s then
    let commaPos := s.idxOf ','
    parts (trim (s.take commaPos)) (trim (s.drop (commaPos + 1)))
  else if s.getLast? = some 'i' then
    let s := s.dropLast
    match splitPos s with
    | some pos => parts (trim (s.take pos)) (trim (s.drop pos))
    | none => invalid
  else invalid

/-- Without the case of `parseComplex32` for a comma. -/
def parseComplex64 (s : Text) : Except CustomError (r.F64 × r.F64) :=
  let s := trim s
  let parts (reStr imStr : Text) : Except CustomError (r.F64 × r.F64) :=
    match r.parseF64 reStr with
    | none => .error ⟨"invalid Complex64 real part".toList⟩
    | some re =>
      match r.parseF64 imStr with
      | none => .error ⟨"invalid Complex64 imaginary part".toList⟩
      | some im => .ok (re, im)
  let invalid : Except CustomError (r.F64 × r.F64) := .error
    ⟨"invalid Complex64 format. Use: '3.5+2.5i', '3.5,2.5', or '\x7b\"re\":3.5,\"im\":2.5\x7d'".toList⟩
  if s.head? = some '\x7b' then
    match r.jsonC64 s with
    | some c => .ok c
    | none => .error ⟨"invalid Complex64 JSON format".toList⟩
  else if s.getLast? = some 'i' then
    let s := s.dropLast
    match splitPos s with
    | some pos => parts (trim (s.take pos)) (trim (s.drop pos))
    | none => invalid
  else invalid

/-- The error of a complex number with the text it stands in. -/
def complexParser {α : Type} (what : Text) (parse : Text → Except CustomError α)
    (wrap : α → CmTypes r) : ParserFn r := fun s =>
  match parse s with
  | .ok c => .ok (wrap c)
  | .error e => .error ⟨what ++ " parse error for '".toList ++ s ++ "': ".toList ++ e.details⟩

/-! ## The table -/

def intParser (k : IntType) : ParserFn r := parser r k.name (parseInt k) (.int k)

def charParser : ParserFn r := parser r "char".toList List.head? .char

def runtimeRef (index : IntType.usize.Value) : ParserFn r := fun _ => .ok (.ref index)

/-- `PARSERS`. -/
def parsers : List (Text × ParserFn r) :=
  [("bool".toList, parser r "bool".toList parseBool .bool),
    (IntType.i8.name, intParser r .i8),
    (IntType.i16.name, intParser r .i16),
    (IntType.i32.name, intParser r .i32),
    (IntType.i64.name, intParser r .i64),
    (IntType.i128.name, intParser r .i128),
    (IntType.u8.name, intParser r .u8),
    (IntType.u16.name, intParser r .u16),
    (IntType.u32.name, intParser r .u32),
    (IntType.u64.name, intParser r .u64),
    (IntType.u128.name, intParser r .u128),
    ("f32".toList, parser r "f32".toList r.parseF32 .f32),
    ("f64".toList, parser r "f64".toList r.parseF64 .f64),
    ("char".toList, charParser r),
    (IntType.usize.name, intParser r .usize),
    (IntType.isize.name, intParser r .isize),
    ("String".toList, fun s => .ok (.string s)),
    ("Complex32".toList,
      complexParser r "Complex32".toList (parseComplex32 r) fun c => .complex32 c.1 c.2),
    ("Complex64".toList,
      complexParser r "Complex64".toList (parseComplex64 r) fun c => .complex64 c.1 c.2),
    ("$ref".toList, parser r "ref".toList (parseInt .usize) .ref),
    ("$res".toList, parser r "res".toList (parseInt .usize) .res),
    ("$dep".toList, parser r "dep".toList (parseInt .usize) .dep),
    ("$factor".toList, runtimeRef r ⟨0, by decide⟩),
    ("$worker".toList, runtimeRef r ⟨1, by decide⟩),
    ("$barrier".toList, fun s => .ok (.barrier s)),
    ("None".toList, fun _ => .ok .none),
    ("Init".toList, fun _ => .ok .init)]

/-- One step of the loop over the values of a `Vec`. -/
def elementParser (tp : Text) : ParserFn r := fun value =>
  match (parsers r).lookup tp with
  | some parser => parser (trim value)
  | none => .error ⟨"Unable to parse type '".toList ++ tp ++ "'".toList⟩

def stringToCmtype (tp arg : Text) : Except CustomError (CmTypes r) :=
  match (parsers r).lookup tp with
  | some parser => parser arg
  | none =>
    if "Vec".toList.isPrefixOf tp then
      match ("Vec<".toList.isPrefixOf? tp).bind fun s => ">".toList.isSuffixOf? s with
      | none => .error ⟨"Invalid Vec format: ".toList ++ tp⟩
      | some tp => do
        let v ← (arg.splitOn ',').mapM (elementParser r tp)
        .ok (.vecCmt v)
    else
      .error ⟨"Unable to parse type '".toList ++ tp ++ "' with value '".toList ++ arg ++
        "'".toList⟩

end Parsers

/-! ## What the parsers read -/

theorem parseInt_showInt {k : IntType} (n : k.Value) : parseInt k (showInt n.val) = some n := by
  have hread : readInt k.signed (showInt n.val) = some n.val := by
    refine readInt_showInt ?_
    have hmin := n.2.1
    unfold IntType.min at hmin
    split at hmin
    · exact .inl ‹_›
    · exact .inr hmin
  rw [parseInt, hread, Option.bind_some, dif_pos n.2]

end Tomii.Types
