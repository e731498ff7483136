import Tomii.Foundations.PyReader
import Mathlib.Tactic.Ring

/-! # Texts and what they denote

A text denotes an expression when the reader, wherever it may begin an expression, holds that
expression after the text. Each form of expression has its rule, and so has each form of line. -/
namespace Tomii.Python
set_option autoImplicit false
set_option maxHeartbeats 250000

/-! ## `repr` of a string -/

def hexDigits : ℕ → ℕ → Text
  | 0, _ => []
  | w + 1, n => hexDigits w (n / 16) ++ [Nat.digitChar (n % 16)]

section Repr

variable (t : CharTables)

def reprChar (q c : Char) : Text :=
  if c = q ∨ c = '\\' then ['\\', c]
  else if c = '\t' then ['\\', 't']
  else if c = '\n' then ['\\', 'n']
  else if c = '\r' then ['\\', 'r']
  else if c.toNat < 32 ∨ c.toNat = 127 then '\\' :: 'x' :: hexDigits 2 c.toNat
  else if c.toNat < 127 ∨ t.printable c = true then [c]
  else if c.toNat < 256 then '\\' :: 'x' :: hexDigits 2 c.toNat
  else if c.toNat < 65536 then '\\' :: 'u' :: hexDigits 4 c.toNat
  else '\\' :: 'U' :: hexDigits 8 c.toNat

/-- Single quotes, unless double quotes save a backslash. -/
def reprQuote (s : Text) : Char := if '\'' ∈ s ∧ '"' ∉ s then '"' else '\''

def reprBody (q : Char) (s : Text) : Text := s.flatMap (reprChar t q)

def pyRepr (s : Text) : Text := reprQuote s :: reprBody t (reprQuote s) s ++ [reprQuote s]

end Repr

def IsQuote (q : Char) : Prop := q = '\'' ∨ q = '"'

theorem isQuote_reprQuote (s : Text) : IsQuote (reprQuote s) := by
  unfold reprQuote
  split
  · exact .inr rfl
  · exact .inl rfl

/-! ## Reading escapes -/

theorem hexDigit?_digitChar {d : ℕ} (h : d < 16) : hexDigit? (Nat.digitChar d) = some d := by
  have hall : ∀ d < 16, hexDigit? (Nat.digitChar d) = some d := by decide
  exact hall d h

theorem char?_toNat (c : Char) : char? c.toNat = some c := by
  have hvalid : c.toNat.isValidChar := c.valid
  unfold char?
  rw [dif_pos hvalid]
  exact congrArg some (Char.ext (UInt32.toNat_inj.mp rfl))

theorem bodyStep_hex (q : Char) (text : Text) (left value : ℕ) {d : ℕ} (h : d < 16) :
    bodyStep q ⟨text, .hex (left + 1) value⟩ (Nat.digitChar d) =
      afterHex text left (16 * value + d) := by
  simp only [bodyStep, hexDigit?_digitChar h, Nat.add_sub_cancel]

/-- All digits but the last ones. -/
theorem foldlM_hexDigits (q : Char) (text : Text) (left w n value : ℕ) :
    (hexDigits w n).foldlM (bodyStep q) ⟨text, .hex (w + (left + 1)) value⟩ =
      some ⟨text, .hex (left + 1) (16 ^ w * value + n % 16 ^ w)⟩ := by
  induction w generalizing left n with
  | zero => simp [hexDigits, Nat.mod_one]
  | succ w ih =>
    have hshift : w + 1 + (left + 1) = w + (left + 1 + 1) := by omega
    have hlast := bodyStep_hex q text (left + 1) (16 ^ w * value + n / 16 % 16 ^ w)
      (Nat.mod_lt n (by decide : 0 < 16))
    have hvalue : 16 * (16 ^ w * value + n / 16 % 16 ^ w) + n % 16 =
        16 ^ (w + 1) * value + n % 16 ^ (w + 1) := by
      rw [pow_succ', Nat.mod_mul]
      ring
    rw [hexDigits, List.foldlM_append, hshift, ih]
    simp only [Option.bind_eq_bind, Option.bind_some, List.foldlM_cons, List.foldlM_nil]
    rw [hlast, hvalue]
    rfl

theorem foldlM_hexDigits_all (q : Char) (text : Text) (w n : ℕ) (h : n < 16 ^ (w + 1)) :
    (hexDigits (w + 1) n).foldlM (bodyStep q) ⟨text, .hex (w + 1) 0⟩ =
      (char? n).map fun c => ⟨text ++ [c], .plain⟩ := by
  have hfront := foldlM_hexDigits q text 0 w (n / 16) 0
  have hlast := bodyStep_hex q text 0 (n / 16) (Nat.mod_lt n (by decide : 0 < 16))
  have hquot : n / 16 < 16 ^ w := by
    rw [pow_succ] at h
    omega
  rw [Nat.mul_zero, Nat.mod_eq_of_lt hquot, Nat.zero_add, Nat.zero_add] at hfront
  rw [Nat.div_add_mod, Nat.zero_add] at hlast
  rw [hexDigits, List.foldlM_append, hfront]
  simp only [Option.bind_eq_bind, Option.bind_some, List.foldlM_cons, List.foldlM_nil]
  rw [hlast, afterHex.eq_def]
  cases char? n with
  | none => rfl
  | some c => rfl

theorem foldlM_hexChar (q : Char) (text : Text) (w : ℕ) (c : Char) (h : c.toNat < 16 ^ (w + 1)) :
    (hexDigits (w + 1) c.toNat).foldlM (bodyStep q) ⟨text, .hex (w + 1) 0⟩ =
      some ⟨text ++ [c], .plain⟩ := by
  rw [foldlM_hexDigits_all q text w _ h, char?_toNat]
  rfl

section Repr

variable (t : CharTables)

theorem foldlM_backslash {q : Char} (hq : IsQuote q) (text : Text) (s : Text) :
    ('\\' :: s).foldlM (bodyStep q) ⟨text, .plain⟩ = s.foldlM (bodyStep q) ⟨text, .backslash⟩ := by
  rcases hq with rfl | rfl <;> rfl

/-- Each character is read back. -/
theorem foldlM_reprChar {q : Char} (hq : IsQuote q) (text : Text) (c : Char) :
    (reprChar t q c).foldlM (bodyStep q) ⟨text, .plain⟩ = some ⟨text ++ [c], .plain⟩ := by
  unfold reprChar
  split_ifs with hquoted htab hnl hcr hcontrol hshown hbyte hword
  · rw [foldlM_backslash hq]
    rcases hquoted with rfl | rfl
    · rcases hq with rfl | rfl <;> rfl
    · rfl
  · subst htab
    rw [foldlM_backslash hq]
    rfl
  · subst hnl
    rw [foldlM_backslash hq]
    rfl
  · subst hcr
    rw [foldlM_backslash hq]
    rfl
  · rw [foldlM_backslash hq]
    exact foldlM_hexChar q text 1 c (by omega)
  · have hzero : c ≠ '\x00' := by
      rintro rfl
      exact hcontrol (.inl (by decide))
    obtain ⟨hquote, hback⟩ := not_or.mp hquoted
    simp only [List.foldlM_cons, List.foldlM_nil, bodyStep, hquote, hnl, hcr, hzero, hback,
      or_self, if_false]
    rfl
  · rw [foldlM_backslash hq]
    exact foldlM_hexChar q text 1 c hbyte
  · rw [foldlM_backslash hq]
    exact foldlM_hexChar q text 3 c hword
  · rw [foldlM_backslash hq]
    refine foldlM_hexChar q text 7 c ?_
    have hlt := c.val.toNat_lt
    show c.val.toNat < _
    omega

theorem foldlM_reprBody {q : Char} (hq : IsQuote q) (s text : Text) :
    (reprBody t q s).foldlM (bodyStep q) ⟨text, .plain⟩ = some ⟨text ++ s, .plain⟩ := by
  induction s generalizing text with
  | nil => rw [List.append_nil]; rfl
  | cons c s ih =>
    rw [reprBody, List.flatMap_cons, List.foldlM_append, foldlM_reprChar t hq]
    have hrest := ih (text ++ [c])
    rw [List.append_assoc] at hrest
    exact hrest

theorem readBody_reprBody {q : Char} (hq : IsQuote q) (s : Text) :
    readBody q (reprBody t q s) = some s := by
  rw [readBody, foldlM_reprBody t hq]
  rfl

end Repr

/-! ## Runs -/

section Runs

variable (t : CharTables)

theorem run_nil (st : Reader) : run t st [] = some st := rfl

theorem run_cons (st : Reader) (c : Char) (s : Text) :
    run t st (c :: s) = (st.step t c).bind fun st => run t st s := rfl

theorem run_append (st : Reader) (s s' : Text) :
    run t st (s ++ s') = (run t st s).bind fun st => run t st s' := by
  rw [run, List.foldlM_append]
  rfl

theorem run_single (st : Reader) (c : Char) : run t st [c] = st.step t c := Option.bind_fun_some _

theorem run_concat (st : Reader) (s : Text) (c : Char) :
    run t st (s ++ [c]) = (run t st s).bind fun st => st.step t c := by
  rw [run_append]
  exact Option.bind_congr fun st' _ => run_single t st' c

end Runs

/-! ## Characters between tokens -/

/-- What may follow an expression. -/
def IsStop (c : Char) : Prop := c = ',' ∨ c = ')' ∨ c = ']' ∨ c = '\n'

section Characters

variable (t : CharTables)

theorem not_letter {c : Char} (h : c.toNat < 128) : t.letter c = false := by
  by_contra hletter
  have := t.letter_nonascii c (Bool.eq_true_of_not_eq_false hletter)
  omega

theorem isNameStart_ascii {c : Char} (h : c.toNat < 128) :
    isNameStart t c = (c.isAlpha || c == '_') := by
  rw [isNameStart, not_letter t h, Bool.or_false]

theorem isNameChar_ascii {c : Char} (h : c.toNat < 128) :
    isNameChar t c = (c.isDigit || (c.isAlpha || c == '_')) := by
  rw [isNameChar, isNameStart_ascii t h]

/-- What is not a letter in ASCII, a digit or an underscore begins no name. -/
def IsPunct (c : Char) : Prop :=
  c.toNat < 128 ∧ c.isAlpha = false ∧ c.isDigit = false ∧ c ≠ '_'

instance (c : Char) : Decidable (IsPunct c) := by
  unfold IsPunct
  infer_instance

theorem IsPunct.isNameChar {c : Char} (h : IsPunct c) : isNameChar t c = false := by
  obtain ⟨hascii, halpha, hdigit, hunder⟩ := h
  rw [isNameChar_ascii t hascii, halpha, hdigit, beq_false_of_ne hunder]
  rfl

theorem IsPunct.isNameStart {c : Char} (h : IsPunct c) : isNameStart t c = false := by
  obtain ⟨hascii, halpha, -, hunder⟩ := h
  rw [isNameStart_ascii t hascii, halpha, beq_false_of_ne hunder]
  rfl

theorem IsStop.isPunct {c : Char} (h : IsStop c) : IsPunct c := by
  rcases h with rfl | rfl | rfl | rfl <;> decide

theorem IsStop.goesOn {c : Char} (h : IsStop c) (number : Text) : goesOn number c = false := by
  rcases h with rfl | rfl | rfl | rfl <;> rfl

namespace Reader

variable (st : Reader)

theorem ready_punct {c : Char} (h : IsPunct c) : st.ready t c = st.punct c := by
  rw [ready, if_neg (by rw [h.isNameStart t]; exact Bool.false_ne_true),
    if_neg (by rw [h.2.2.1]; exact Bool.false_ne_true)]

theorem ready_quote {q : Char} (hq : IsQuote q) : st.ready t q = st.openString q := by
  rcases hq with rfl | rfl
  · exact ready_punct t st (by decide)
  · exact ready_punct t st (by decide)

theorem ready_closer (f : Frame) : st.ready t f.closer = st.close f.closer := by
  unfold Frame.closer
  split
  · exact ready_punct t st (by decide)
  · exact ready_punct t st (by decide)

end Reader

end Characters

/-! ## Words -/

section Words

variable (t : CharTables)

theorem run_word (p : Place) (b : Before) (w cs : Text) (h : cs.all (isNameChar t) = true) :
    run t ⟨p, b, none, .word w⟩ cs = some ⟨p, b, none, .word (w ++ cs)⟩ := by
  induction cs generalizing w with
  | nil => rw [List.append_nil]; rfl
  | cons c cs ih =>
    rw [List.all_cons, Bool.and_eq_true] at h
    have hstep : Reader.step ⟨p, b, none, .word w⟩ t c = some ⟨p, b, none, .word (w ++ [c])⟩ :=
      if_pos h.1
    rw [run_cons, hstep, Option.bind_some, ih _ h.2, List.append_assoc]
    rfl

theorem step_begin {c : Char} (p : Place) (b : Before) (h : isNameStart t c = true) :
    Reader.step ⟨p, b, none, .ready⟩ t c = some ⟨p, b, none, .word [c]⟩ := by
  show Reader.ready _ t c = _
  exact (if_pos h).trans (if_pos rfl)

/-- A word with the character that ends it. -/
theorem run_ends {w : Text} {c : Char} (p : Place) (b : Before) (hstart : ∀ a ∈ w.head?, isNameStart t a = true)
    (hne : w ≠ []) (hrest : w.tail.all (isNameChar t) = true) (hc : IsPunct c) :
    run t ⟨p, b, none, .ready⟩ (w ++ [c]) =
      (Reader.endWord ⟨p, b, none, .ready⟩ w).bind fun st => st.ready t c := by
  cases w with
  | nil => exact absurd rfl hne
  | cons a w =>
    rw [run_concat, run_cons, step_begin t p b (hstart a rfl), Option.bind_some,
      run_word t p b [a] w hrest, Option.bind_some]
    exact if_neg (by rw [hc.isNameChar t]; exact Bool.false_ne_true)

theorem isIdentifier_parts {x : Text} (h : isIdentifier t x = true) :
    x ≠ [] ∧ (∀ a ∈ x.head?, isNameStart t a = true) ∧ x.tail.all (isNameChar t) = true ∧
      keywords.contains x = false := by
  cases x with
  | nil => cases h
  | cons c cs =>
    rw [isIdentifier, Bool.and_eq_true, Bool.and_eq_true, Bool.not_eq_true'] at h
    refine ⟨List.cons_ne_nil _ _, ?_, h.1.2, h.2⟩
    rintro a ⟨⟩
    exact h.1.1

theorem ne_of_not_keyword {x w : Text} (h : keywords.contains x = false)
    (hw : keywords.contains w = true) : x ≠ w := by
  rintro rfl
  rw [h] at hw
  cases hw

theorem endWord_name {x : Text} (p : Place) (h : keywords.contains x = false) :
    (fresh p).endWord x = some (holding p (.name x)) := by
  show (if _ then _ else _) = _
  rw [if_neg (ne_of_not_keyword h (by decide)), if_neg (ne_of_not_keyword h (by decide)),
    if_neg (ne_of_not_keyword h (by decide)), if_neg (ne_of_not_keyword h (by decide)),
    if_neg (by rw [h]; exact Bool.false_ne_true)]
  rfl

theorem run_name {x : Text} {c : Char} (p : Place) (h : isIdentifier t x = true) (hc : IsPunct c) :
    run t (fresh p) (x ++ [c]) = (holding p (.name x)).ready t c := by
  obtain ⟨hne, hstart, hrest, hkey⟩ := isIdentifier_parts t h
  have hends := run_ends t p .nothing hstart hne hrest hc
  have hword := endWord_name p hkey
  unfold fresh at hword ⊢
  rw [hends, hword, Option.bind_some]

/-- An attribute is not a keyword either. -/
theorem run_attr {m : Text} {c : Char} (p : Place) (e : Expr) (h : isIdentifier t m = true)
    (hc : IsPunct c) :
    run t ⟨p, .dot e, none, .ready⟩ (m ++ [c]) = (holding p (.attr e m)).ready t c := by
  obtain ⟨hne, hstart, hrest, hkey⟩ := isIdentifier_parts t h
  have hword : Reader.endWord ⟨p, .dot e, none, .ready⟩ m = some (holding p (.attr e m)) :=
    if_neg (by rw [hkey]; exact Bool.false_ne_true)
  rw [run_ends t p (.dot e) hstart hne hrest hc, hword, Option.bind_some]

end Words

/-! ## Operands -/

/-- What goes on as a number after `w`. -/
def numberRest : Text → Text → Bool
  | _, [] => true
  | w, c :: cs => goesOn w c && numberRest (w ++ [c]) cs

/-- What the reader takes for one number. -/
def isNumber : Text → Bool
  | [] => false
  | c :: cs => c.isDigit && numberRest [c] cs

section Denotes

variable (t : CharTables)

/-- After the text, the reader holds the expression. -/
def Denotes (s : Text) (e : Expr) : Prop :=
  ∀ p c, IsStop c → run t (fresh p) (s ++ [c]) = (holding p e).ready t c

theorem denotes_name {x : Text} (h : isIdentifier t x = true) : Denotes t x (.name x) :=
  fun p _ hc => run_name t p h hc.isPunct

theorem denotes_bool (b : Bool) :
    Denotes t (if b then "True".toList else "False".toList) (.bool b) := by
  intro p c hc
  cases b with
  | true =>
    exact run_ends t p .nothing (w := "True".toList) (fun a ha => by cases ha; rfl) (by decide) rfl
      hc.isPunct
  | false =>
    exact run_ends t p .nothing (w := "False".toList) (fun a ha => by cases ha; rfl) (by decide) rfl
      hc.isPunct

theorem run_number (p : Place) (b : Before) (w cs : Text) (h : numberRest w cs = true) :
    run t ⟨p, b, none, .number w⟩ cs = some ⟨p, b, none, .number (w ++ cs)⟩ := by
  induction cs generalizing w with
  | nil => rw [List.append_nil]; rfl
  | cons c cs ih =>
    rw [numberRest, Bool.and_eq_true] at h
    have hstep : Reader.step ⟨p, b, none, .number w⟩ t c = some ⟨p, b, none, .number (w ++ [c])⟩ :=
      if_pos h.1
    rw [run_cons, hstep, Option.bind_some, ih _ h.2, List.append_assoc]
    rfl

theorem not_isNameStart_digit {c : Char} (h : c.isDigit = true) : isNameStart t c = false := by
  have hrange : 48 ≤ c.toNat ∧ c.toNat ≤ 57 := by
    unfold Char.isDigit at h
    rw [Bool.and_eq_true, decide_eq_true_iff, decide_eq_true_iff] at h
    exact h
  have halpha : c.isAlpha = false := by
    unfold Char.isAlpha Char.isUpper Char.isLower
    simp only [Bool.or_eq_false_iff, Bool.and_eq_false_iff, decide_eq_false_iff_not, ge_iff_le,
      UInt32.le_iff_toNat_le]
    have hval : c.val.toNat = c.toNat := rfl
    rw [hval]
    constructor
    · intro hupper
      have hle : 65 ≤ c.toNat := hupper.1
      omega
    · refine .inl fun hlower => ?_
      have hle : 97 ≤ c.toNat := hlower
      omega
  have hunder : c ≠ '_' := by
    rintro rfl
    exact absurd h (by decide)
  rw [isNameStart_ascii t (by omega), halpha, beq_false_of_ne hunder]
  rfl

/-- A number with the character that ends it. -/
theorem run_numberEnds {w : Text} {c : Char} (p : Place) (b : Before) (h : isNumber w = true)
    (hc : goesOn w c = false) :
    run t ⟨p, b, none, .ready⟩ (w ++ [c]) =
      (Reader.endNumber ⟨p, b, none, .ready⟩ w).bind fun st => st.ready t c := by
  cases w with
  | nil => cases h
  | cons a w =>
    rw [isNumber, Bool.and_eq_true] at h
    have hfirst : Reader.step ⟨p, b, none, .ready⟩ t a = some ⟨p, b, none, .number [a]⟩ := by
      show Reader.ready _ t a = _
      rw [Reader.ready, if_neg (by rw [not_isNameStart_digit t h.1]; exact Bool.false_ne_true),
        if_pos h.1]
      rfl
    rw [run_concat, run_cons, hfirst, Option.bind_some, run_number t p b [a] w h.2,
      Option.bind_some]
    exact if_neg (by rw [List.singleton_append, hc]; exact Bool.false_ne_true)

theorem denotes_number {w : Text} {e : Expr} (h : isNumber w = true)
    (he : Reader.number? w = some e) : Denotes t w e := by
  intro p c hc
  have hends := run_numberEnds t p .nothing h (hc.goesOn w)
  rw [Reader.endNumber, he] at hends
  exact hends

theorem denotes_neg {w : Text} {e : Expr} (h : isNumber w = true)
    (he : Reader.number? w = some e) : Denotes t ('-' :: w) (.neg e) := by
  intro p c hc
  have hminus : (fresh p).step t '-' = some ⟨p, .minus, none, .ready⟩ :=
    Reader.ready_punct t _ (by decide)
  have hends := run_numberEnds t p .minus h (hc.goesOn w)
  rw [Reader.endNumber, he] at hends
  rw [List.cons_append, run_cons, hminus, Option.bind_some]
  exact hends

end Denotes

/-! ## Decimal numerals -/

theorem isNumber_digits {w : Text} (hne : w ≠ []) (h : w.all Char.isDigit = true) :
    isNumber w = true := by
  have hrest : ∀ cs front : Text, cs.all Char.isDigit = true → numberRest front cs = true := by
    intro cs
    induction cs with
    | nil => exact fun _ _ => rfl
    | cons c cs ih =>
      intro front hall
      rw [List.all_cons, Bool.and_eq_true] at hall
      have hgoes : goesOn front c = true := by
        rw [goesOn, Char.isAlphanum, hall.1, Bool.or_true, Bool.true_or, Bool.true_or, Bool.true_or]
      rw [numberRest, hgoes, ih _ hall.2]
      rfl
  cases w with
  | nil => exact absurd rfl hne
  | cons c cs =>
    rw [List.all_cons, Bool.and_eq_true] at h
    rw [isNumber, h.1, hrest cs [c] h.2]
    rfl

theorem all_isDigit_toDigits (n : ℕ) : (Nat.toDigits 10 n).all Char.isDigit = true :=
  List.all_eq_true.mpr fun _ hc => Nat.isDigit_of_mem_toDigits (by decide) (by decide) hc

theorem head?_toDigits {n : ℕ} (h : 0 < n) : (Nat.toDigits 10 n).head? ≠ some '0' := by
  induction n using Nat.strongRecOn with
  | ind n ih =>
    by_cases hsmall : n < 10
    · rw [Nat.toDigits_of_lt_base hsmall]
      intro hhead
      have hall : ∀ m < 10, some (Nat.digitChar m) = some '0' → m = 0 := by decide
      have hzero := hall n hsmall hhead
      omega
    · rw [Nat.toDigits_of_base_le (by decide) (by omega), List.head?_append]
      have hfront := ih (n / 10) (by omega) (by omega)
      cases hdigits : Nat.toDigits 10 (n / 10) with
      | nil => exact absurd hdigits Nat.toDigits_ne_nil
      | cons c cs =>
        rw [hdigits] at hfront
        exact hfront

/-- A decimal numeral has no leading zeros. -/
theorem number?_toDigits (n : ℕ) : Reader.number? (Nat.toDigits 10 n) = some (.int n) := by
  have hlead : (Nat.toDigits 10 n).head? ≠ some '0' ∨
      (Nat.toDigits 10 n).all (· == '0') = true := by
    rcases Nat.eq_zero_or_pos n with rfl | hpos
    · exact .inr rfl
    · exact .inl (head?_toDigits hpos)
  rw [Reader.number?, if_pos (all_isDigit_toDigits n), if_pos hlead, Nat.ofDigitChars_ten_toDigits]

section Denotes

variable (t : CharTables)

/-- The expression of an integer. A minus sign is an operator. -/
def intExpr (n : ℤ) : Expr := if n < 0 then .neg (.int n.natAbs) else .int n.natAbs

theorem denotes_showInt (n : ℤ) : Denotes t (showInt n) (intExpr n) := by
  have hnumber := isNumber_digits Nat.toDigits_ne_nil (all_isDigit_toDigits n.natAbs)
  unfold showInt intExpr
  split
  · exact denotes_neg t hnumber (number?_toDigits _)
  · exact denotes_number t hnumber (number?_toDigits _)

end Denotes

/-! ## Strings -/

section Denotes

variable (t : CharTables)

theorem run_body {q : Char} (p : Place) (s : Text) (b b' : StrBody)
    (h : s.foldlM (bodyStep q) b = some b') :
    run t ⟨p, .nothing, none, .string q b⟩ s = some ⟨p, .nothing, none, .string q b'⟩ := by
  induction s generalizing b with
  | nil =>
    obtain rfl : b = b' := Option.some.inj h
    rfl
  | cons c s ih =>
    rw [List.foldlM_cons] at h
    cases hc : bodyStep q b c with
    | none =>
      rw [hc] at h
      cases h
    | some b₁ =>
      rw [hc] at h
      have hstep : Reader.step ⟨p, .nothing, none, .string q b⟩ t c =
          some ⟨p, .nothing, none, .string q b₁⟩ := by
        obtain ⟨text, escape⟩ := b
        cases escape with
        | plain =>
          have hne : c ≠ q := by
            rintro rfl
            rw [bodyStep, if_pos (.inl rfl)] at hc
            cases hc
          exact (if_neg hne).trans (by rw [hc]; rfl)
        | backslash => exact congrArg (Option.map _) hc
        | hex left value => exact congrArg (Option.map _) hc
      rw [run_cons, hstep, Option.bind_some]
      exact ih b₁ h

theorem denotes_str {q : Char} (hq : IsQuote q) {s x : Text} (h : readBody q s = some x) :
    Denotes t (q :: s ++ [q]) (.str x) := by
  intro p c hc
  have hbody : s.foldlM (bodyStep q) ⟨[], .plain⟩ = some ⟨x, .plain⟩ := by
    unfold readBody at h
    split at h
    · next hs => rw [hs, Option.some.inj h]
    · cases h
  have hopen : (fresh p).step t q = some ⟨p, .nothing, none, .string q ⟨[], .plain⟩⟩ :=
    Reader.ready_quote t _ hq
  have hclose : Reader.step ⟨p, .nothing, none, .string q ⟨x, .plain⟩⟩ t q =
      some (holding p (.str x)) := if_pos rfl
  rw [run_concat, List.cons_append, run_cons, hopen, Option.bind_some, run_concat,
    run_body t p s _ _ hbody, Option.bind_some, hclose]
  rfl

theorem denotes_repr (s : Text) : Denotes t (pyRepr t s) (.str s) :=
  denotes_str t (isQuote_reprQuote s) (readBody_reprBody t (isQuote_reprQuote s) s)

end Denotes

end Tomii.Python
