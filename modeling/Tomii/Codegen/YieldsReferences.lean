import Tomii.Codegen.YieldsArgs

/-! # References of the program and their values

Factors, index specifications and references to nodes: what the generator writes for them yields
values that are serialized as they stood in the file. -/
namespace Tomii.Codegen
open Types (FloatParsers Start Bound NodeArg)
open Python
open Loading (Factor ArgInit ArgJson PredJson)
set_option autoImplicit false
set_option maxHeartbeats 250000

variable {r : FloatParsers} (I : Interpreter r)

/-! ## Optional parameters -/

theorem Val.optional_eq {α : Type} {f : Val r → Option α} {v : Val r} {a : α} (hv : v ≠ .none)
    (h : f v = some a) : v.optional f = some (some a) := by
  unfold optional
  split
  · exact absurd rfl hv
  · rw [h]
    rfl

/-! ## Factors -/

/-- The value is the bound, which is serialized as the factor. -/
structure IsFactor (v : Val r) (bound : Bound) (factor : Factor) : Prop where
  value : v.bound? = some bound
  json : factorJson (Types.factor (some bound)) = some (some factor)

theorem IsFactor.ne_none {v : Val r} {bound : Bound} {factor : Factor} (h : IsFactor v bound factor) :
    v ≠ .none := by
  rintro rfl
  cases h.value

theorem IsFactor.optional {v : Val r} {bound : Bound} {factor : Factor}
    (h : IsFactor v bound factor) : v.optional Val.bound? = some (some bound) :=
  Val.optional_eq h.ne_none h.value

/-! ## Index specifications -/

/-- The values given by position, with the indexes that they are. -/
inductive Positions : List (Val r) → Start → Option Bound → Prop where
  | start {v : Val r} {start : Start} (hv : v.start? I = some start) : Positions [v] start none
  | range {v w : Val r} {start : Start} {stop : Bound} (hv : v.start? I = some start)
      (hw : w.stop? I = some stop) (hne : w ≠ .none) : Positions [v, w] start (some stop)

/-- The grouping given by keyword. -/
inductive Grouping : Bindings r → Option Bound → Prop where
  | none : Grouping [] none
  | some {v : Val r} {bound : Bound} (hv : v.optional Val.bound? = some (some bound)) :
      Grouping [("group_by".toList, v)] (some bound)

/-- The argument that a call makes, by method. -/
def Reference.arg (kind : Reference) (a : NodeArg) : Types.Arg r :=
  match kind with
  | .out => .nodeOutput a
  | .dep => .nodeDep a
  | .wait => .nodeBarrier a

theorem callReference_eq (kind : Reference) (node : Text) {b : Bindings r} {v : Val r} {start : Start}
    {stop groupBy : Option Bound} (hv : b.lookup "start".toList = some v)
    (hstart : v.start? I = some start) (hstop : (b.get "end").optional (Val.stop? I) = some stop)
    (hgroup : (b.get "group_by").optional Val.bound? = some groupBy) :
    callReference I kind node b = some (.arg (kind.arg ⟨node, start, stop, groupBy⟩)) := by
  unfold callReference
  rw [hv, Option.getD_some, hstart, hstop, hgroup]
  cases kind with
  | out => rfl
  | dep => rfl
  | wait => rfl

def referenceSignature : Signature := ⟨["start".toList, "end".toList], ["group_by".toList]⟩

theorem apply_reference (kind : Reference) (node : Text) {ps : List (Val r)} {start : Start}
    {stop : Option Bound} (hps : Positions I ps start stop) {ks : Bindings r}
    {groupBy : Option Bound} (hks : Grouping ks groupBy) (g : State r) :
    apply I (.reference kind node) (callArgs ps ks) g =
      some (.arg (kind.arg ⟨node, start, stop, groupBy⟩), g) := by
  have hbind : referenceSignature.bind (callArgs ps ks) =
      some (referenceSignature.positional.zip ps ++ ks) := by
    cases hps with
    | start hv =>
      cases hks with
      | none =>
        exact bind_names referenceSignature _ _ 1 [] rfl rfl (by decide) (by decide) (by decide)
      | some hgroup =>
        exact bind_names referenceSignature _ _ 1 ["group_by".toList] rfl rfl (by decide)
          (by decide) (by decide)
    | range hv hw hne =>
      cases hks with
      | none =>
        exact bind_names referenceSignature _ _ 2 [] rfl rfl (by decide) (by decide) (by decide)
      | some hgroup =>
        exact bind_names referenceSignature _ _ 2 ["group_by".toList] rfl rfl (by decide)
          (by decide) (by decide)
  refine apply_pure I (.reference kind node) rfl nofun hbind ?_ g
  cases hps with
  | start hv =>
    cases hks with
    | none => exact callReference_eq I kind node rfl hv rfl rfl
    | some hgroup => exact callReference_eq I kind node rfl hv rfl hgroup
  | range hv hw hne =>
    cases hks with
    | none => exact callReference_eq I kind node rfl hv (Val.optional_eq hne hw) rfl
    | some hgroup => exact callReference_eq I kind node rfl hv (Val.optional_eq hne hw) hgroup

/-! ## Texts of indexes -/

theorem intercalate_concat {α : Type} (sep : List α) {xs : List (List α)} (h : xs ≠ []) (x : List α) :
    sep.intercalate (xs ++ [x]) = sep.intercalate xs ++ sep ++ x := by
  induction xs with
  | nil => exact absurd rfl h
  | cons y xs ih =>
    cases xs with
    | nil =>
      rw [List.singleton_append, List.intercalate_cons_cons, List.intercalate_singleton,
        List.intercalate_singleton]
    | cons z xs =>
      rw [List.cons_append, List.cons_append, List.intercalate_cons_cons, ← List.cons_append,
        ih (List.cons_ne_nil _ _), List.intercalate_cons_cons]
      simp only [List.append_assoc]

theorem strip_of_forall {s : Text} (h : ∀ c ∈ s, isSpace c = false) : strip s = s := by
  have hfront : s.dropWhile isSpace = s := by
    cases s with
    | nil => rfl
    | cons c s =>
      rw [List.dropWhile_cons_of_neg]
      rw [h c List.mem_cons_self]
      exact Bool.false_ne_true
  rw [strip, hfront, List.rdropWhile_eq_self_iff]
  intro hne
  rw [h _ (List.getLast_mem hne)]
  exact Bool.false_ne_true

theorem isSpace_digit {c : Char} (h : c.isDigit = true) : isSpace c = false := by
  have hrange : 48 ≤ c.toNat := by
    unfold Char.isDigit at h
    rw [Bool.and_eq_true, decide_eq_true_iff, decide_eq_true_iff] at h
    exact h.1
  unfold isSpace
  rw [isWhitespace_of_isDigit h, Bool.false_or, Bool.and_eq_false_iff]
  exact .inr (decide_eq_false (by omega))

theorem showInt_natCast (n : ℕ) : showInt n = Nat.toDigits 10 n :=
  if_neg (Int.not_lt.mpr (Int.natCast_nonneg n))

theorem isDigit_showNat {n : ℕ} {c : Char} (h : c ∈ showInt n) : c.isDigit = true := by
  rw [showInt_natCast] at h
  exact Nat.isDigit_of_mem_toDigits (by decide) (by decide) h

theorem strip_showNat (n : ℕ) : strip (showInt n) = showInt n :=
  strip_of_forall fun _ hc => isSpace_digit (isDigit_showNat hc)

theorem not_mem_showNat {c : Char} (hc : c.isDigit = false) (n : ℕ) : c ∉ showInt n := by
  intro h
  rw [isDigit_showNat h] at hc
  cases hc

theorem isSpace_nameChar {c : Char} (h : isNameChar I.tables c = true) : isSpace c = false := by
  unfold isNameChar isNameStart at h
  rw [Bool.or_eq_true, Bool.or_eq_true, Bool.or_eq_true] at h
  rcases h with hdigit | (halpha | hline) | hletter
  · exact isSpace_digit hdigit
  · have hrange : 65 ≤ c.toNat ∧ c.toNat ≤ 122 := by
      unfold Char.isAlpha Char.isUpper Char.isLower at halpha
      simp only [Bool.or_eq_true, Bool.and_eq_true, decide_eq_true_iff] at halpha
      rcases halpha with ⟨hlow, hhigh⟩ | ⟨hlow, hhigh⟩
      · have hlow : 65 ≤ c.toNat := hlow
        have hhigh : c.toNat ≤ 90 := hhigh
        omega
      · have hlow : 97 ≤ c.toNat := hlow
        have hhigh : c.toNat ≤ 122 := hhigh
        omega
    unfold isSpace isWhitespace
    simp only [Bool.or_eq_false_iff, Bool.and_eq_false_iff, decide_eq_false_iff_not,
      beq_eq_false_iff_ne]
    omega
  · obtain rfl := beq_iff_eq.mp hline
    rfl
  · have hascii := I.tables.letter_nonascii c hletter
    unfold isSpace
    rw [I.tables.letter_not_space c hletter, Bool.false_or, Bool.and_eq_false_iff]
    exact .inr (decide_eq_false (by omega))

theorem isNameChar_of_mem {x : Text} (h : isIdentifier I.tables x = true) {c : Char} (hc : c ∈ x) :
    isNameChar I.tables c = true := by
  obtain ⟨-, hstart, hall, -⟩ := isIdentifier_parts I.tables h
  cases x with
  | nil => exact absurd hc List.not_mem_nil
  | cons a x =>
    rcases List.mem_cons.mp hc with rfl | hc
    · unfold isNameChar
      rw [hstart c rfl, Bool.or_true]
    · exact List.all_eq_true.mp hall c hc

/-- What stands in a name whose identifier is one. -/
theorem mem_name {name : Text} (h : isIdentifier I.tables (pyname name) = true) {c : Char}
    (hc : c ∈ name) : c = '-' ∨ isNameChar I.tables c = true := by
  by_cases hdash : c = '-'
  · exact .inl hdash
  · exact .inr (isNameChar_of_mem I h (List.mem_map.mpr ⟨c, hc, if_neg hdash⟩))

theorem strip_name {name : Text} (h : isIdentifier I.tables (pyname name) = true) :
    strip name = name := by
  refine strip_of_forall fun c hc => ?_
  rcases mem_name I h hc with rfl | hchar
  · rfl
  · exact isSpace_nameChar I hchar

theorem comma_not_mem_name {name : Text} (h : isIdentifier I.tables (pyname name) = true) :
    ',' ∉ name := by
  intro hmem
  rcases mem_name I h hmem with hdash | hchar
  · exact absurd hdash (by decide)
  · rw [isNameChar_ascii I.tables (by decide)] at hchar
    exact absurd hchar (by decide)

/-- A numeral is no name. -/
theorem not_isIdentifier_showNat (n : ℕ) : isIdentifier I.tables (pyname (showInt n)) = false := by
  have hdigit : ∀ c ∈ showInt n, c.isDigit = true := fun _ hc => isDigit_showNat hc
  have hne : showInt n ≠ [] := by
    rw [showInt_natCast]
    exact Nat.toDigits_ne_nil
  cases hs : showInt n with
  | nil => exact absurd hs hne
  | cons c cs =>
    rw [hs] at hdigit
    have hc := hdigit c List.mem_cons_self
    have hchar : (if c = '-' then '_' else c) = c := by
      refine if_neg ?_
      rintro rfl
      cases hc
    show (isNameStart I.tables (if c = '-' then '_' else c) && _ && _) = false
    rw [hchar, not_isNameStart_digit I.tables hc]
    rfl

theorem formatIndexes_range (varNames : List Text) (start : ℕ) {stop : Text} (hcomma : ',' ∉ stop)
    (hstrip : strip stop = stop) :
    formatIndexes varNames (showInt start ++ '-' :: stop) =
      [',', ' '].intercalate [showInt start, if stop ∈ varNames then pyname stop else stop] := by
  have hno : ',' ∉ showInt start ++ '-' :: stop := by
    rw [List.mem_append, List.mem_cons, not_or, not_or]
    exact ⟨not_mem_showNat (by decide) start, by decide, hcomma⟩
  have hdash : ∀ c ∈ showInt start, decide (c ≠ '-') = true := by
    intro c hc
    refine decide_eq_true ?_
    rintro rfl
    exact not_mem_showNat (by decide) start hc
  have hfront : (showInt start ++ '-' :: stop).takeWhile (· ≠ '-') = showInt start := by
    rw [List.takeWhile_append_of_pos hdash]
    exact List.append_nil _
  have hback : (showInt start ++ '-' :: stop).dropWhile (· ≠ '-') = '-' :: stop := by
    rw [List.dropWhile_append_of_pos hdash]
    rfl
  rw [formatIndexes, if_neg hno, if_pos (List.mem_append_right _ List.mem_cons_self), hfront, hback,
    strip_showNat, List.drop_one, List.tail_cons, hstrip, List.intercalate_cons_cons,
    List.intercalate_singleton]
  rfl

/-! ## References -/

section References

variable {defs : Defined} {varNames : List Text} {nodePynames : List (Text × Text)} {s : Scope r}
variable (hagrees : Agrees I defs varNames nodePynames s)

include hagrees

theorem yields_named {name : Text} {k : Kind} (h : Means defs name k) :
    Yields I s (pyname name) (k.val name) :=
  yields_name I s (hagrees.identifiers _ h.mem) (hagrees.get name k h)

theorem yields_factor {factor : Factor} (h : FactorKept defs factor) :
    ∃ (v : Val r) (bound : Bound), Yields I s (factorExpr I varNames factor) v ∧
      IsFactor v bound factor := by
  cases h with
  | number n =>
    refine ⟨.int n, .int n, yields_int I s n, rfl, ?_⟩
    show (if 0 ≤ (n : ℤ) then some (some (Factor.number (n : ℤ).toNat)) else none) = _
    rw [if_pos (Int.natCast_nonneg n), Int.toNat_natCast]
  | @ref name hname =>
    have htext : factorExpr I varNames (.ref name) = pyname name :=
      if_pos (hagrees.vars name hname.mem)
    refine ⟨.arg (.var name), .var name, ?_, rfl, rfl⟩
    rw [htext]
    exact yields_named I hagrees hname

omit hagrees in
theorem exists_many (varNames : List Text) (s : Scope r) {items : List ℤ} (hitems : 2 ≤ items.length) :
    ∃ v : Val r, v.start? I = some (.many items) ∧
      Yields I s (formatIndexes varNames ([','].intercalate (items.map showInt))) v := by
  have hvalues : ∀ i ∈ items.map fun n => (showInt n, (.plain (.int n) : Types.Arg r)),
      Yields I s i.1 (.arg i.2) := by
    intro i hi
    obtain ⟨n, -, rfl⟩ := List.mem_map.mp hi
    exact yields_int I s n
  have hlist := yields_list I s isBlank_nil hvalues
  rw [List.map_map, List.map_map] at hlist
  have hints : (items.map fun n => (.plain (.int n) : Types.Arg r)).mapM Val.int? = some items := by
    clear hitems hvalues hlist
    induction items with
    | nil => rfl
    | cons n items ih =>
      rw [List.map_cons, List.mapM_cons, ih]
      rfl
  have hcomma : ',' ∈ [','].intercalate (items.map showInt) := by
    match items, hitems with
    | n :: m :: items, _ =>
      rw [List.map_cons, List.map_cons, List.intercalate_cons_cons]
      exact List.mem_append_left _ (List.mem_append_right _ List.mem_cons_self)
  refine ⟨.list (items.map fun n => .plain (.int n)), ?_, ?_⟩
  · show ((items.map fun n => (.plain (.int n) : Types.Arg r)).mapM Val.int?).map Start.many = _
    rw [hints]
    rfl
  · rw [formatIndexes, if_pos hcomma]
    exact hlist

/-- The values of an index specification, as they stand in a call. -/
theorem exists_positions {indexes : Text} (h : IndexesKept defs indexes) :
    ∃ (ps : List (Text × Val r)) (start : Start) (stop : Option Bound),
      Positions I (ps.map (·.2)) start stop ∧ (∀ p ∈ ps, Yields I s p.1 p.2) ∧
      formatIndexes varNames indexes = [',', ' '].intercalate (ps.map (·.1)) ∧
      Types.indexes start stop = indexes := by
  cases h with
  | single n =>
    refine ⟨[(showInt n, .int n)], .one n, none, .start rfl,
      List.forall_mem_singleton.mpr (yields_int I s n), ?_, rfl⟩
    rw [formatIndexes, if_neg (not_mem_showNat (by decide) n), if_neg (not_mem_showNat (by decide) n),
      strip_showNat]
    exact (List.intercalate_singleton).symm
  | @many items hitems =>
    obtain ⟨v, hstart, hyields⟩ := exists_many I varNames s hitems
    exact ⟨[(_, v)], .many items, none, .start hstart, List.forall_mem_singleton.mpr hyields,
      (List.intercalate_singleton).symm, rfl⟩
  | range start stop =>
    have hno : showInt stop ∉ varNames := by
      intro hmem
      have hname := hagrees.names _ hmem
      rw [not_isIdentifier_showNat] at hname
      cases hname
    refine ⟨[(showInt start, .int start), (showInt stop, .int stop)], .one start, some (.int stop),
      .range rfl rfl nofun,
      List.forall_mem_cons.mpr
        ⟨yields_int I s start, List.forall_mem_singleton.mpr (yields_int I s stop)⟩, ?_, rfl⟩
    rw [formatIndexes_range varNames start (not_mem_showNat (by decide) stop) (strip_showNat stop),
      if_neg hno]
    rfl
  | @rangeTo start name hname =>
    have hident := hagrees.identifiers _ hname.mem
    refine ⟨[(showInt start, .int start), (pyname name, .arg (.var name))], .one start,
      some (.var name), .range rfl rfl nofun,
      List.forall_mem_cons.mpr ⟨yields_int I s start,
        List.forall_mem_singleton.mpr (yields_named I hagrees hname)⟩, ?_, rfl⟩
    rw [formatIndexes_range varNames start (comma_not_mem_name I hident) (strip_name I hident),
      if_pos (hagrees.vars name hname.mem)]
    rfl

/-- The grouping of a call, behind the values given by position. -/
theorem exists_grouping {groupBy : Option Factor} (h : ∀ factor ∈ groupBy, FactorKept defs factor) :
    ∃ (ks : List (Text × Text × Val r)) (bound : Option Bound),
      Grouping (ks.map (·.2)) bound ∧
      (∀ k ∈ ks, YieldsItem I s k.1 (some k.2.1, k.2.2)) ∧
      (∀ texts : List Text, texts ≠ [] → [',', ' '].intercalate texts ++
        groupByExpr I varNames groupBy = [',', ' '].intercalate (texts ++ ks.map (·.1))) ∧
      factorJson (Types.factor bound) = some groupBy := by
  cases groupBy with
  | none =>
    refine ⟨[], none, .none, fun _ h => absurd h List.not_mem_nil, fun texts _ => ?_, rfl⟩
    rw [List.map_nil, List.append_nil]
    exact List.append_nil _
  | some factor =>
    obtain ⟨v, bound, hyields, hfactor⟩ := yields_factor I hagrees (h factor rfl)
    refine ⟨[(keyword "group_by".toList (factorExpr I varNames factor), "group_by".toList, v)],
      some bound, .some hfactor.optional,
      List.forall_mem_singleton.mpr (hyields.keyword I s rfl), fun texts hne => ?_, hfactor.json⟩
    rw [List.map_singleton, intercalate_concat _ hne, List.append_assoc]
    rfl

omit hagrees in
/-- What the method of a type makes. -/
theorem method_kind {type method : Text} (h : methodOf type = some method) :
    ∃ kind : Reference, isIdentifier I.tables method = true ∧ type ≠ "$ref".toList ∧
      (∀ node, getAttr (.node node : Val r) method = some (.fn (.reference kind node))) ∧
      ∀ a, Types.argJson I.floats (kind.arg a) = .ok ⟨type, none, some a.pred⟩ := by
  unfold methodOf at h
  split at h
  · next htype =>
    cases h
    exact ⟨.out, rfl, htype ▸ (by decide), fun _ => rfl, fun _ => htype ▸ rfl⟩
  · split at h
    · next htype =>
      cases h
      exact ⟨.dep, rfl, htype ▸ (by decide), fun _ => rfl, fun _ => htype ▸ rfl⟩
    · split at h
      · next htype =>
        cases h
        exact ⟨.wait, rfl, htype ▸ (by decide), fun _ => rfl, fun _ => htype ▸ rfl⟩
      · cases h

omit hagrees in
theorem argJson_reference {type : Text} {kind : Reference} {a : NodeArg} {groupBy : Option Factor}
    (h : Types.argJson I.floats (kind.arg a : Types.Arg r) = .ok ⟨type, none, some a.pred⟩)
    (hgroup : factorJson (Types.factor a.groupBy) = some groupBy) :
    argJson I (kind.arg a) = some ⟨type, none, none,
      some ⟨a.name, Types.indexes a.start a.stop, groupBy⟩⟩ := by
  unfold argJson
  rw [h]
  show (factorJson (Types.factor a.groupBy)).map _ = _
  rw [hgroup]
  rfl

theorem yields_reference {type method : Text} {pred : PredJson} (htype : methodOf type = some method)
    (h : PredKept defs pred) :
    ∃ a, Yields I s (nodePyname nodePynames pred.name ++ '.' :: method ++ '(' ::
        formatIndexes varNames pred.indexes ++ groupByExpr I varNames pred.groupBy ++ [')']) (.arg a) ∧
      argJson I a = some ⟨type, none, none, some pred⟩ := by
  obtain ⟨kind, hident, -, hattr, hjson⟩ := method_kind I htype
  obtain ⟨ps, start, stop, hps, hyields, htexts, hindexes⟩ := exists_positions I hagrees h.indexes
  obtain ⟨ks, groupBy, hks, hkeywords, hgroupTexts, hgroupBy⟩ := exists_grouping I hagrees h.groupBy
  have hname := hagrees.identifiers _ h.node.mem
  have hfn : ∀ g, eval I s (.attr (.name (pyname pred.name)) method) g =
      some (.fn (.reference kind pred.name), g) := by
    intro g
    rw [eval_attr, eval_name, hagrees.get pred.name .node h.node, Option.map_some, Option.bind_some, Kind.val,
      hattr]
    rfl
  have hne : ps.map (·.1) ≠ [] := by
    intro hnil
    rw [List.map_eq_nil_iff.mp hnil] at hps
    cases hps
  have hcall := yields_keyed I s (opens_attr I.tables hname hident) hfn isBlank_space hyields
    hkeywords (apply_reference I kind pred.name hps hks)
  rw [← hgroupTexts _ hne, ← htexts] at hcall
  refine ⟨kind.arg ⟨pred.name, start, stop, groupBy⟩, ?_, ?_⟩
  · rw [hagrees.pynames]
    simpa using hcall
  · rw [argJson_reference I (hjson _) hgroupBy, hindexes]

/-! ## Arguments -/

omit hagrees in
theorem LiteralKept.ne_ref {type value : Text} (h : LiteralKept I type value) :
    type ≠ "$ref".toList := by
  cases h with
  | bool b => decide
  | usize n => decide
  | scalar htype hne hvalue =>
    rintro rfl
    exact absurd htype (by decide)
  | string value => decide
  | complex htype hre him =>
    rintro rfl
    exact absurd htype (by decide)
  | vec inner hitems => exact fun h => absurd (List.cons.inj h).1 (by decide)

theorem yields_initArg {arg : ArgInit} (h : InitArgKept I defs arg) :
    ∃ a, Yields I s (parseInitValue I arg) (.arg a) ∧ argInit I a = some arg := by
  cases h with
  | @ref name hname => exact ⟨.var name, yields_named I hagrees hname, rfl⟩
  | literal hliteral =>
    obtain ⟨a, hyields, -, hkept⟩ := yields_literal I s hagrees.module hliteral
    exact ⟨a, hyields, hkept.init⟩

theorem yields_arg {arg : ArgJson} (h : ArgKept I defs arg) :
    ∃ text a, encodeArg I nodePynames varNames arg = some text ∧ Yields I s text (.arg a) ∧
      argJson I a = some arg := by
  cases h with
  | @ref name hname =>
    have hne : ∃ c cs, name = c :: cs := by
      cases name with
      | nil => cases hagrees.identifiers _ hname.mem
      | cons c cs => exact ⟨c, cs, rfl⟩
    obtain ⟨c, cs, rfl⟩ := hne
    exact ⟨pyname (c :: cs), .var (c :: cs), if_pos rfl, yields_named I hagrees hname, rfl⟩
  | @literal type value hliteral =>
    obtain ⟨a, hyields, hexpr, hkept⟩ := yields_literal I s hagrees.module hliteral
    refine ⟨_, a, ?_, hyields, hkept.node⟩
    rw [encodeArg, if_neg (hliteral.ne_ref I)]
    cases hmethod : methodOf type with
    | none => exact hexpr
    | some method => exact hexpr
  | @reference type pred htype hpred =>
    obtain ⟨method, hmethod⟩ := Option.isSome_iff_exists.mp htype
    obtain ⟨a, hyields, hjson⟩ := yields_reference I hagrees hmethod hpred
    obtain ⟨-, -, hne, -, -⟩ := method_kind I hmethod
    refine ⟨_, a, ?_, hyields, hjson⟩
    rw [encodeArg, if_neg hne]
    simp only [hmethod]

/-- Lists of arguments, as values and as text. -/
theorem yields_args {args : List ArgJson} (h : ∀ a ∈ args, ArgKept I defs a) :
    ∃ values, Yields I s (argList (encodeArgs I nodePynames varNames args)) (.list values) ∧
      (encodeArgs I nodePynames varNames args).length = args.length ∧
      values.mapM (argJson I) = some args := by
  have hvalues : ∃ items : List (Text × Types.Arg r),
      encodeArgs I nodePynames varNames args = items.map (·.1) ∧
      (∀ i ∈ items, Yields I s i.1 (.arg i.2)) ∧ items.length = args.length ∧
      (items.map (·.2)).mapM (argJson I) = some args := by
    induction args with
    | nil => exact ⟨[], rfl, fun _ h => absurd h List.not_mem_nil, rfl, rfl⟩
    | cons arg args ih =>
      obtain ⟨harg, hargs⟩ := List.forall_mem_cons.mp h
      obtain ⟨items, htexts, hyields, hlength, hjson⟩ := ih hargs
      obtain ⟨text, a, htext, hyieldsArg, hjsonArg⟩ := yields_arg I hagrees harg
      refine ⟨(text, a) :: items, ?_, List.forall_mem_cons.mpr ⟨hyieldsArg, hyields⟩,
        congrArg (· + 1) hlength, ?_⟩
      · rw [encodeArgs, List.filterMap_cons_some htext, List.map_cons]
        exact congrArg (text :: ·) htexts
      · rw [List.map_cons, List.mapM_cons, hjsonArg, hjson]
        rfl
  obtain ⟨items, htexts, hyields, hlength, hjson⟩ := hvalues
  have hlist := yields_list I s isBlank_space hyields
  refine ⟨items.map (·.2), ?_, ?_, hjson⟩
  · rw [htexts]
    exact hlist
  · rw [htexts, List.length_map, hlength]

end References

end Tomii.Codegen
