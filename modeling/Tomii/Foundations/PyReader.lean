import Tomii.Foundations.Texts

/-! # Reading Python

A reader of function bodies that assign and return: names, literals, attributes, calls, list
displays. It goes from character to character. A text that is not of this fragment is not read. -/
namespace Tomii.Python
set_option autoImplicit false
set_option maxHeartbeats 250000

/-! ## Syntax -/

mutual

inductive Expr where
  | none
  | bool (b : Bool)
  | name (x : Text)
  | int (n : ℕ)
  /-- A number that is not an integer, as it is written. -/
  | float (lexeme : Text)
  | str (s : Text)
  | neg (e : Expr)
  | attr (e : Expr) (x : Text)
  | call (f : Expr) (args : Args)
  | list (items : Args)

inductive Args where
  | nil
  | cons (key : Option Text) (value : Expr) (rest : Args)

end

/-- An argument with its keyword, or an item of a list. -/
abbrev Item : Type := Option Text × Expr

def Args.ofList : List Item → Args
  | [] => .nil
  | (key, value) :: rest => .cons key value (ofList rest)

inductive Stmt where
  | assign (x : Text) (e : Expr)
  | ret (e : Expr)

/-! ## Characters -/

/-- Letters outside of ASCII that normalisation leaves alone, and what `repr` shows as it is. -/
structure CharTables where
  letter : Char → Bool
  printable : Char → Bool
  letter_nonascii : ∀ c, letter c = true → 128 ≤ c.toNat
  letter_not_space : ∀ c, letter c = true → isWhitespace c = false

def keywords : List Text :=
  ["False".toList, "None".toList, "True".toList, "and".toList, "as".toList, "assert".toList,
    "async".toList, "await".toList, "break".toList, "class".toList, "continue".toList,
    "def".toList, "del".toList, "elif".toList, "else".toList, "except".toList, "finally".toList,
    "for".toList, "from".toList, "global".toList, "if".toList, "import".toList, "in".toList,
    "is".toList, "lambda".toList, "nonlocal".toList, "not".toList, "or".toList, "pass".toList,
    "raise".toList, "return".toList, "try".toList, "while".toList, "with".toList, "yield".toList]

section Characters

variable (t : CharTables)

def isNameStart (c : Char) : Bool := c.isAlpha || c == '_' || t.letter c

def isNameChar (c : Char) : Bool := c.isDigit || isNameStart t c

/-- A name that is not a keyword. -/
def isIdentifier : Text → Bool
  | [] => false
  | c :: cs => isNameStart t c && cs.all (isNameChar t) && !keywords.contains (c :: cs)

end Characters

/-- What a number goes on with. A sign stands after an exponent mark only. -/
def goesOn (number : Text) (c : Char) : Bool :=
  c.isAlphanum || c == '.' || c == '_' ||
    ((c == '+' || c == '-') && (number.getLast? == some 'e' || number.getLast? == some 'E'))

/-! ## Inside of a string -/

inductive Escape where
  | plain
  | backslash
  /-- The digits that are missing, and the value of those read. -/
  | hex (left value : ℕ)

structure StrBody where
  text : Text
  escape : Escape

def hexDigit? (c : Char) : Option ℕ :=
  if c.isDigit then some (c.toNat - 48)
  else if 'a' ≤ c ∧ c ≤ 'f' then some (c.toNat - 87)
  else if 'A' ≤ c ∧ c ≤ 'F' then some (c.toNat - 55)
  else none

def char? (n : ℕ) : Option Char := if h : n.isValidChar then some (Char.ofNatAux n h) else none

/-- A backslash stays before a character that it says nothing about. -/
def afterBackslash (text : Text) (c : Char) : Option StrBody :=
  match c with
  | '\\' | '\'' | '"' => some ⟨text ++ [c], .plain⟩
  | 'a' => some ⟨text ++ ['\x07'], .plain⟩
  | 'b' => some ⟨text ++ ['\x08'], .plain⟩
  | 't' => some ⟨text ++ ['\t'], .plain⟩
  | 'n' => some ⟨text ++ ['\n'], .plain⟩
  | 'v' => some ⟨text ++ ['\x0b'], .plain⟩
  | 'f' => some ⟨text ++ ['\x0c'], .plain⟩
  | 'r' => some ⟨text ++ ['\r'], .plain⟩
  | 'x' => some ⟨text, .hex 2 0⟩
  | 'u' => some ⟨text, .hex 4 0⟩
  | 'U' => some ⟨text, .hex 8 0⟩
  | '\n' | '\r' | '\x00' | 'N' => none
  | c => if '0' ≤ c ∧ c ≤ '7' then none else some ⟨text ++ ['\\', c], .plain⟩

def afterHex (text : Text) (left value : ℕ) : Option StrBody :=
  match left with
  | 0 => (char? value).map fun c => ⟨text ++ [c], .plain⟩
  | left + 1 => some ⟨text, .hex (left + 1) value⟩

/-- One character between quotes `q`. -/
def bodyStep (q : Char) (b : StrBody) (c : Char) : Option StrBody :=
  match b.escape with
  | .plain =>
    if c = q ∨ c = '\n' ∨ c = '\r' ∨ c = '\x00' then none
    else if c = '\\' then some ⟨b.text, .backslash⟩
    else some ⟨b.text ++ [c], .plain⟩
  | .backslash => afterBackslash b.text c
  | .hex left value =>
    match hexDigit? c with
    | some d => afterHex b.text (left - 1) (16 * value + d)
    | none => none

/-- What stands between quotes `q`, read to its end. -/
def readBody (q : Char) (s : Text) : Option Text :=
  match s.foldlM (bodyStep q) ⟨[], .plain⟩ with
  | some ⟨text, .plain⟩ => some text
  | _ => none

/-! ## States of the reader -/

/-- What a statement begins with. -/
inductive Head where
  | bare
  | target (x : Text)
  | returns

/-- An open call, or an open list. -/
structure Frame where
  callee : Option Expr
  done : List Item
  key : Option Text

/-- What stands before an operand. -/
inductive Before where
  | nothing
  | minus
  | dot (e : Expr)

inductive Lex where
  | indent (n : ℕ)
  | comment
  | ready
  | word (w : Text)
  | number (w : Text)
  | string (q : Char) (b : StrBody)

structure Place where
  stmts : List Stmt
  head : Head
  frames : List Frame

structure Reader where
  place : Place
  before : Before
  cur : Option Expr
  lex : Lex

/-- At the start of a line. -/
def newLine (stmts : List Stmt) : Reader := ⟨⟨stmts, .bare, []⟩, .nothing, none, .indent 0⟩

/-- Where an expression may begin. -/
def fresh (p : Place) : Reader := ⟨p, .nothing, none, .ready⟩

/-- After an expression. -/
def holding (p : Place) (e : Expr) : Reader := ⟨p, .nothing, some e, .ready⟩

def Place.push (p : Place) (f : Frame) : Place := { p with frames := f :: p.frames }

namespace Frame

variable (f : Frame)

/-- The frame after one more item. -/
def add (e : Expr) : Frame := { f with done := f.done ++ [(f.key, e)], key := none }

/-- The expression that ends here. -/
def finish : Expr :=
  match f.callee with
  | some fn => .call fn (.ofList f.done)
  | none => .list (.ofList f.done)

def closer : Char := if f.callee.isSome then ')' else ']'

end Frame

/-! ## Steps -/

namespace Reader

variable (st : Reader)

/-- Nothing stands before the next operand. -/
def isFree : Bool :=
  match st.before, st.cur with
  | .nothing, none => true
  | _, _ => false

def endWord (w : Text) : Option Reader :=
  match st.before with
  | .dot e => if keywords.contains w then none else some (holding st.place (.attr e w))
  | .minus => none
  | .nothing =>
    if w = "True".toList then some (holding st.place (.bool true))
    else if w = "False".toList then some (holding st.place (.bool false))
    else if w = "None".toList then some (holding st.place .none)
    else if w = "return".toList then
      match st.place.head, st.place.frames with
      | .bare, [] => some (fresh { st.place with head := .returns })
      | _, _ => none
    else if keywords.contains w then none
    else some (holding st.place (.name w))

/-- An integer has no leading zeros. -/
def number? (w : Text) : Option Expr :=
  if w.all Char.isDigit then
    if w.head? ≠ some '0' ∨ w.all (· == '0') then some (.int (Nat.ofDigitChars 10 w 0)) else none
  else some (.float w)

def endNumber (w : Text) : Option Reader :=
  match st.before with
  | .dot _ => none
  | .minus => (number? w).map fun e => holding st.place (.neg e)
  | .nothing => (number? w).map (holding st.place)

def endStmt : Option Reader :=
  match st.place.head, st.cur with
  | .target x, some e => some (newLine (st.place.stmts ++ [.assign x e]))
  | .returns, some e => some (newLine (st.place.stmts ++ [.ret e]))
  | _, _ => none

/-- Attributes are taken and calls are made of paths only. -/
def isPath : Expr → Bool
  | .name _ | .attr _ _ => true
  | _ => false

def comma : Option Reader :=
  match st.place.frames, st.cur with
  | f :: fs, some e => some (fresh { st.place with frames := f.add e :: fs })
  | _, _ => none

/-- An item may be missing before the end, but not after its keyword. -/
def close (c : Char) : Option Reader :=
  match st.place.frames with
  | [] => none
  | f :: fs =>
    if f.closer = c then
      match st.cur with
      | some e => some (holding { st.place with frames := fs } (f.add e).finish)
      | none =>
        if f.key = none ∧ st.isFree then some (holding { st.place with frames := fs } f.finish)
        else none
    else none

def equals : Option Reader :=
  match st.cur with
  | some (.name x) =>
    match st.place.frames with
    | [] =>
      match st.place.head with
      | .bare => some (fresh { st.place with head := .target x })
      | _ => none
    | f :: fs =>
      if f.callee.isSome ∧ f.key = none then
        some (fresh { st.place with frames := { f with key := some x } :: fs })
      else none
  | _ => none

def dot : Option Reader :=
  match st.cur with
  | some e => if isPath e then some ⟨st.place, .dot e, none, .ready⟩ else none
  | none => none

def openCall : Option Reader :=
  match st.cur with
  | some e => if isPath e then some (fresh (st.place.push ⟨some e, [], none⟩)) else none
  | none => none

def openList : Option Reader :=
  if st.isFree then some (fresh (st.place.push ⟨none, [], none⟩)) else none

def openString (q : Char) : Option Reader :=
  if st.isFree then some { st with lex := .string q ⟨[], .plain⟩ } else none

def punct (c : Char) : Option Reader :=
  match c with
  | ' ' => some st
  | '\n' => if st.place.frames.isEmpty then st.endStmt else some st
  | '\'' | '"' => st.openString c
  | '-' => if st.isFree then some { st with before := .minus } else none
  | '.' => st.dot
  | '(' => st.openCall
  | '[' => st.openList
  | ',' => st.comma
  | ')' | ']' => st.close c
  | '=' => st.equals
  | _ => none

/-- Between two tokens. -/
def ready (t : CharTables) (c : Char) : Option Reader :=
  if isNameStart t c then
    if st.cur.isNone then some { st with lex := .word [c] } else none
  else if c.isDigit then
    if st.cur.isNone then some { st with lex := .number [c] } else none
  else st.punct c

/-- Statements of the body are indented by four. -/
def step (t : CharTables) (c : Char) : Option Reader :=
  match st.lex with
  | .indent n =>
    if c = ' ' then some { st with lex := .indent (n + 1) }
    else if c = '\n' then some { st with lex := .indent 0 }
    else if c = '#' then some { st with lex := .comment }
    else if n = 4 then ready { st with lex := .ready } t c
    else none
  | .comment =>
    if c = '\n' then some { st with lex := .indent 0 }
    else if c = '\r' ∨ c = '\x00' then none
    else some st
  | .ready => st.ready t c
  | .word w =>
    if isNameChar t c then some { st with lex := .word (w ++ [c]) }
    else (endWord { st with lex := .ready } w).bind fun st => st.ready t c
  | .number w =>
    if goesOn w c then some { st with lex := .number (w ++ [c]) }
    else (endNumber { st with lex := .ready } w).bind fun st => st.ready t c
  | .string q b =>
    match b.escape with
    | .plain =>
      if c = q then some (holding st.place (.str b.text))
      else (bodyStep q b c).map fun b => { st with lex := .string q b }
    | _ => (bodyStep q b c).map fun b => { st with lex := .string q b }

end Reader

section Runs

variable (t : CharTables)

def run (st : Reader) (s : Text) : Option Reader := s.foldlM (fun st c => st.step t c) st

/-- The statements of a body. Its last line ends. -/
def read (s : Text) : Option (List Stmt) :=
  match run t (newLine []) s with
  | some ⟨p, _, _, .indent 0⟩ => some p.stmts
  | _ => none

end Runs

end Tomii.Python
