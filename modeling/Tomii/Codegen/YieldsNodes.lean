import Tomii.Codegen.YieldsReferences

/-! # Keywords of variables and nodes

The optional keywords of a call: those that are there yield their values, and the others keep their
defaults. Conditions, loops and nodes are read back from them. -/
namespace Tomii.Codegen
open Types (FloatParsers PyValue Start Bound NodeArg)
open Python
open Loading (Factor ArgInit ArgJson PredJson InitJson LoopJson NodeConditionJson NodeJson GraphFile)
set_option autoImplicit false
set_option maxHeartbeats 250000

variable {r : FloatParsers} (I : Interpreter r)

/-! ## Optional keywords -/

/-- A keyword with its text and its value, if it is given. -/
structure Entry (r : FloatParsers) where
  key : Text
  text : Option Text
  value : Option (Val r)

/-- The texts of the keywords that are given. -/
def entryTexts (entries : List (Entry r)) : List Text :=
  entries.filterMap fun e => e.text.map (keyword e.key)

def entryValues (entries : List (Entry r)) : Bindings r :=
  entries.filterMap fun e => e.value.map fun v => (e.key, v)

theorem entryTexts_cons (e : Entry r) (entries : List (Entry r)) :
    entryTexts (e :: entries) = (e.text.map (keyword e.key)).toList ++ entryTexts entries := by
  obtain ⟨key, text, value⟩ := e
  cases text with
  | none => rfl
  | some text => rfl

/-- Every keyword that is given yields its value. -/
def EntriesYield (s : Scope r) (entries : List (Entry r)) : Prop :=
  ∀ e ∈ entries, isIdentifier I.tables e.key = true ∧ Option.Rel (Yields I s) e.text e.value

theorem exists_entries (s : Scope r) {entries : List (Entry r)} (h : EntriesYield I s entries) :
    ∃ ks : List (Text × Text × Val r), ks.map (·.1) = entryTexts entries ∧
      ks.map (·.2) = entryValues entries ∧ ∀ k ∈ ks, YieldsItem I s k.1 (some k.2.1, k.2.2) := by
  induction entries with
  | nil => exact ⟨[], rfl, rfl, fun _ h => absurd h List.not_mem_nil⟩
  | cons e entries ih =>
    obtain ⟨he, hrest⟩ := List.forall_mem_cons.mp h
    obtain ⟨ks, htexts, hvalues, hyields⟩ := ih hrest
    obtain ⟨key, text, value⟩ := e
    obtain ⟨hkey, hrel⟩ := he
    cases hrel with
    | none => exact ⟨ks, htexts, hvalues, hyields⟩
    | @some t v hyield =>
      exact ⟨(keyword key t, key, v) :: ks, congrArg (keyword key t :: ·) htexts,
        congrArg ((key, v) :: ·) hvalues,
        List.forall_mem_cons.mpr ⟨hyield.keyword I s hkey, hyields⟩⟩

theorem keys_entryValues (entries : List (Entry r)) :
    List.Sublist ((entryValues entries).map (·.1)) (entries.map (·.key)) := by
  induction entries with
  | nil => exact List.Sublist.slnil
  | cons e entries ih =>
    obtain ⟨key, text, value⟩ := e
    cases value with
    | none => exact ih.cons key
    | some v => exact ih.cons_cons key

theorem lookup_entryValues_eq_none {entries : List (Entry r)} {key : Text}
    (h : key ∉ entries.map (·.key)) : (entryValues entries).lookup key = none := by
  rw [List.lookup_eq_none_iff]
  intro p hp
  refine bne_iff_ne.mpr ?_
  rintro rfl
  exact h ((keys_entryValues entries).subset (List.mem_map_of_mem hp))

theorem lookup_entryValues {entries : List (Entry r)} (hnodup : (entries.map (·.key)).Nodup)
    {e : Entry r} (he : e ∈ entries) : (entryValues entries).lookup e.key = e.value := by
  induction entries with
  | nil => exact absurd he List.not_mem_nil
  | cons first entries ih =>
    rw [List.map_cons, List.nodup_cons] at hnodup
    obtain ⟨hfirst, hrest⟩ := hnodup
    rcases List.mem_cons.mp he with rfl | hmem
    · cases hvalue : e.value with
      | none =>
        rw [entryValues, List.filterMap_cons_none (by rw [hvalue]; rfl)]
        exact lookup_entryValues_eq_none hfirst
      | some v =>
        rw [entryValues, List.filterMap_cons_some (by rw [hvalue]; rfl)]
        exact List.lookup_cons_self
    · have hne : e.key ≠ first.key := fun heq => hfirst (heq ▸ List.mem_map_of_mem hmem)
      have hskip : (entryValues (first :: entries)).lookup e.key =
          (entryValues entries).lookup e.key := by
        cases hvalue : first.value with
        | none => rw [entryValues, List.filterMap_cons_none (by rw [hvalue]; rfl)]; rfl
        | some v =>
          rw [entryValues, List.filterMap_cons_some (by rw [hvalue]; rfl), List.lookup_cons,
            beq_eq_false_iff_ne.mpr hne]
          rfl
      rw [hskip]
      exact ih hrest hmem

/-- All parameters by their names, those of the entries after those given by position. -/
theorem bind_entries (sig : Signature) (ps : List (Val r)) {entries : List (Entry r)} (n : ℕ)
    (keys : List Text) (hn : ps.length = n) (hkeys : entries.map (·.key) = keys)
    (hlength : n ≤ sig.positional.length) (hnodup : (sig.positional.take n ++ keys).Nodup)
    (hsub : keys ⊆ sig.positional ++ sig.keywordOnly) :
    sig.bind (callArgs ps (entryValues entries)) =
      some (sig.positional.zip ps ++ entryValues entries) := by
  subst hn hkeys
  have hkeys := keys_entryValues entries
  exact bind_callArgs sig hlength (hnodup.sublist (hkeys.append_left _))
    (List.Subset.trans hkeys.subset hsub)

/-- The parameter that an entry gives, behind the name. -/
theorem lookup_bound (v : Val r) {entries : List (Entry r)} {keys : List Text}
    (hkeys : entries.map (·.key) = keys) (hnodup : ("name".toList :: keys).Nodup) :
    ∀ e ∈ entries, (("name".toList, v) :: entryValues entries).lookup e.key = e.value := by
  intro e he
  subst hkeys
  obtain ⟨hname, hnodup⟩ := List.nodup_cons.mp hnodup
  have hne : e.key ≠ "name".toList := fun heq => hname (heq ▸ List.mem_map_of_mem he)
  rw [List.lookup_cons, beq_eq_false_iff_ne.mpr hne]
  exact lookup_entryValues hnodup he

/-! ## Conditions -/

theorem unsigned_not_bool {w : Text} {v : PyValue r} (h : unsigned? I w = some v) (b : Bool) :
    v ≠ .bool b := by
  rintro rfl
  unfold unsigned? at h
  split at h
  · split at h
    · cases h
    · obtain ⟨x, -, hx⟩ := Option.map_eq_some_iff.mp h
      cases hx
    · cases h
  · cases h

theorem numeral_not_bool {text : Text} {v : PyValue r} (h : numeral? I text = some v) (b : Bool) :
    v ≠ .bool b := by
  unfold numeral? at h
  split at h
  · next w =>
    obtain ⟨u, -, hneg⟩ := Option.bind_eq_some_iff.mp h
    rintro rfl
    cases u with
    | int n => cases hneg
    | float x => cases hneg
    | bool b => cases hneg
    | str t => cases hneg
    | complex x y => cases hneg
  · exact unsigned_not_bool I h b

theorem conditionValue_plain {v : PyValue r} (h : ∀ b, v ≠ .bool b) :
    conditionValue I (.inl v) = Types.pyStr I.floats v := by
  cases v with
  | bool b => exact absurd rfl (h b)
  | int n => rfl
  | float x => rfl
  | str t => rfl
  | complex x y => rfl

/-- A number that stands in a condition as it is written. -/
theorem condition_numeral (s : Scope r) {value : Text} (h : Printed I value) :
    ∃ v cv, Yields I s value v ∧ v.conditionValue? = some cv ∧ conditionValue I cv = value := by
  obtain ⟨v, hv, hprint⟩ := Option.map_eq_some_iff.mp h
  exact ⟨.arg (.plain v), .inl v, yields_numeral I s hv, rfl,
    (conditionValue_plain I (numeral_not_bool I hv)).trans hprint⟩

theorem head_ne {type other : Text} (h : type.head? ≠ other.head?) : type ≠ other :=
  fun heq => h (heq ▸ rfl)

theorem conditionValueExpr_int {type : Text} (value : Text)
    (htype : type.head? = some 'i' ∨ type.head? = some 'u') :
    conditionValueExpr I type value = some value := by
  have hother : ∀ other : Text, other.head? ≠ some 'i' → other.head? ≠ some 'u' → type ≠ other := by
    rintro other hi hu rfl
    exact htype.elim hi hu
  unfold conditionValueExpr
  rw [if_neg (hother "bool".toList (by decide) (by decide)),
    if_neg (not_or.mpr ⟨hother "f32".toList (by decide) (by decide),
      hother "f64".toList (by decide) (by decide)⟩)]
  split
  · rfl
  · cases type with
    | nil => exact absurd htype (by decide)
    | cons c cs => exact if_pos (htype.imp Option.some.inj Option.some.inj)

theorem conditionValueExpr_text {type : Text} (value : Text) (hne : type ≠ [])
    (htype : type ∉ ["bool".toList, "f32".toList, "f64".toList])
    (hint : type.head? ≠ some 'i' ∧ type.head? ≠ some 'u') :
    conditionValueExpr I type value = some (pyRepr I.tables value) := by
  simp only [List.mem_cons, List.not_mem_nil, or_false, not_or] at htype
  obtain ⟨hbool, hf32, hf64⟩ := htype
  unfold conditionValueExpr
  rw [if_neg hbool, if_neg (not_or.mpr ⟨hf32, hf64⟩),
    if_neg (not_or.mpr ⟨head_ne hint.2, head_ne hint.1⟩)]
  cases type with
  | nil => exact absurd rfl hne
  | cons c cs =>
    exact if_neg (not_or.mpr ⟨fun h => hint.1 (congrArg some h), fun h => hint.2 (congrArg some h)⟩)

theorem yields_conditionValue (s : Scope r) {type value : Text} (h : ConditionValueKept I type value) :
    ∃ text v cv, conditionValueExpr I type value = some text ∧ Yields I s text v ∧
      v.conditionValue? = some cv ∧ conditionValue I cv = value := by
  cases h with
  | bool b =>
    exact ⟨_, _, .inl (.bool b), if_pos rfl, yields_bool I s b, rfl, rfl⟩
  | float htype hread hvalue =>
    obtain ⟨v, cv, hyields, hcv, hback⟩ := condition_numeral I s hvalue
    have hne : value ≠ [] := by
      rintro rfl
      cases hvalue
    have hbool : type ≠ "bool".toList := by
      rintro rfl
      exact absurd htype (by decide)
    refine ⟨value, v, cv, ?_, hyields, hcv, hback⟩
    unfold conditionValueExpr
    rw [if_neg hbool, if_pos htype, if_neg hne, hread]
  | int htype hvalue =>
    obtain ⟨v, cv, hyields, hcv, hback⟩ := condition_numeral I s hvalue
    exact ⟨value, v, cv, conditionValueExpr_int I value htype, hyields, hcv, hback⟩
  | text value hne htype hint =>
    exact ⟨_, .str value, .inl (.str value), conditionValueExpr_text I value hne htype hint,
      yields_repr I s value, rfl, rfl⟩

section Parts

variable {defs : Defined} {varNames : List Text} {nodePynames : List (Text × Text)} {s : Scope r}
variable (hagrees : Agrees I defs varNames nodePynames s)

def conditionSignature : Signature :=
  ⟨["operation".toList, "value".toList, "value_type".toList, "func".toList, "args".toList], []⟩

include hagrees

theorem yields_condition (hget : s.get "Condition".toList = some (.fn .condition))
    {cond : NodeConditionJson} (h : ConditionKept I defs cond) :
    ∃ text c, encodeCondition I nodePynames varNames cond = some text ∧
      Yields I s text (.condition c) ∧ conditionJson I c = some cond := by
  obtain ⟨value, v, cv, hexpr, hvalue, hcv, hback⟩ := yields_conditionValue I s h.value
  obtain ⟨values, hargs, -, hjson⟩ := yields_args I hagrees h.args
  let ks : List (Text × Text × Val r) :=
    [(keyword "operation".toList (pyRepr I.tables cond.operation), "operation".toList,
        .str cond.operation),
      (keyword "value".toList value, "value".toList, v),
      (keyword "value_type".toList (pyRepr I.tables cond.valueType), "value_type".toList,
        .str cond.valueType),
      (keyword "func".toList (pyRepr I.tables cond.function), "func".toList, .str cond.function),
      (keyword "args".toList (argList (encodeArgs I nodePynames varNames cond.args)),
        "args".toList, .list values)]
  have hks : ∀ k ∈ ks, YieldsItem I s k.1 (some k.2.1, k.2.2) := by
    refine List.forall_mem_cons.mpr ⟨(yields_repr I s _).keyword I s rfl,
      List.forall_mem_cons.mpr ⟨hvalue.keyword I s rfl,
        List.forall_mem_cons.mpr ⟨(yields_repr I s _).keyword I s rfl,
          List.forall_mem_cons.mpr ⟨(yields_repr I s _).keyword I s rfl,
            List.forall_mem_singleton.mpr (hargs.keyword I s rfl)⟩⟩⟩⟩
  have hbind : conditionSignature.bind (callArgs [] (ks.map (·.2))) = some (ks.map (·.2)) :=
    bind_names conditionSignature [] _ 0 conditionSignature.positional rfl rfl (by decide)
      (by decide) (by decide)
  have hcall : callPure I .condition (ks.map (·.2)) = some (.condition
      ⟨cond.operation, cv, cond.valueType, cond.function, values⟩) := by
    show v.conditionValue?.bind _ = _
    rw [hcv]
    rfl
  refine ⟨_, ⟨cond.operation, cv, cond.valueType, cond.function, values⟩, ?_,
    yields_keyed I s (opens_name I.tables rfl)
      (fun g => by rw [eval_name, hget]; rfl) isBlank_space (fun _ h => absurd h List.not_mem_nil) hks
      (apply_pure I .condition rfl nofun hbind hcall), ?_⟩
  · rw [encodeCondition, hexpr, Option.map_some]
    simp [ks, keyword, argList, commaJoin, List.intercalate_cons_cons]
  · unfold conditionJson
    rw [hjson, hback]
    rfl

def loopSignature : Signature := ⟨["name".toList, "factor".toList], []⟩

omit hagrees in
theorem loop_text (name factor : Text) :
    "Loop(name=".toList ++ name ++ ", factor=".toList ++ factor ++ ")".toList =
      "Loop".toList ++ '(' ::
        [',', ' '].intercalate [keyword "name".toList name, keyword "factor".toList factor] ++
          [')'] := by
  simp [keyword, List.intercalate_cons_cons]

theorem yields_loop (hget : s.get "Loop".toList = some (.fn .loop)) {loop : LoopJson}
    (h : LoopKept defs loop) :
    ∃ l, Yields I s (encodeLoop I varNames loop) (.loop l) ∧ loopJson l = some loop := by
  cases loop with
  | mk name given =>
  obtain ⟨factor, hgiven, hfactor⟩ := h
  obtain rfl : given = some factor := hgiven
  obtain ⟨v, bound, hyields, hbound⟩ := yields_factor I hagrees hfactor
  let ks : List (Text × Text × Val r) :=
    [(keyword "name".toList (pyRepr I.tables name), "name".toList, .str name),
      (keyword "factor".toList (factorExpr I varNames factor), "factor".toList, v)]
  have hks : ∀ k ∈ ks, YieldsItem I s k.1 (some k.2.1, k.2.2) :=
    List.forall_mem_cons.mpr ⟨(yields_repr I s _).keyword I s rfl,
      List.forall_mem_singleton.mpr (hyields.keyword I s rfl)⟩
  have hbind : loopSignature.bind (callArgs [] (ks.map (·.2))) = some (ks.map (·.2)) :=
    bind_names loopSignature [] _ 0 loopSignature.positional rfl rfl (by decide) (by decide)
      (by decide)
  have hcall : callPure I .loop (ks.map (·.2)) = some (.loop ⟨name, bound⟩) := by
    show v.bound?.bind _ = _
    rw [hbound.value]
    rfl
  have hident : isIdentifier I.tables "Loop".toList = true := rfl
  have hyield := yields_keyed I s (opens_name I.tables hident) (fun g => by rw [eval_name, hget]; rfl)
    isBlank_space (fun _ h => absurd h List.not_mem_nil) hks
    (apply_pure I .loop rfl nofun hbind hcall)
  have htext := loop_text (pyRepr I.tables name) (factorExpr I varNames factor)
  refine ⟨⟨name, bound⟩, ?_, ?_⟩
  · unfold encodeLoop
    rw [Option.elim_some, htext]
    exact hyield
  · unfold loopJson
    rw [hbound.json]
    rfl

/-! ## Values of the keywords -/

omit hagrees in
/-- A keyword that is given as text, if it is not empty. -/
theorem yields_nonempty (s : Scope r) {given : Option Text} (h : given ≠ some []) :
    ∃ v : Option (Val r), Option.Rel (Yields I s) ((nonempty given).map (pyRepr I.tables)) v ∧
      (v.getD .none).optional Val.text? = some given := by
  match given, h with
  | none, _ => exact ⟨none, .none, rfl⟩
  | some (c :: cs), _ => exact ⟨some (.str (c :: cs)), .some (yields_repr I s _), rfl⟩
  | some [], h => exact absurd rfl h

theorem yields_optionalFactor {factor : Option Factor} (h : ∀ f ∈ factor, FactorKept defs f) :
    ∃ (v : Option (Val r)) (bound : Option Bound),
      Option.Rel (Yields I s) (factor.map (factorExpr I varNames)) v ∧
      (v.getD .none).optional Val.bound? = some bound ∧
      factorJson (Types.factor bound) = some factor := by
  cases factor with
  | none => exact ⟨none, none, .none, rfl, rfl⟩
  | some f =>
    obtain ⟨v, bound, hyields, hbound⟩ := yields_factor I hagrees (h f rfl)
    exact ⟨some v, some bound, .some hyields, hbound.optional, hbound.json⟩

theorem yields_optionalLoop {loop : Option LoopJson}
    (hget : loop.isSome → s.get "Loop".toList = some (.fn .loop)) (h : ∀ l ∈ loop, LoopKept defs l) :
    ∃ (v : Option (Val r)) (l : Option Loop),
      Option.Rel (Yields I s) (loop.map (encodeLoop I varNames)) v ∧
      (v.getD .none).optional Val.loop? = some l ∧ l.mapM loopJson = some loop := by
  cases loop with
  | none => exact ⟨none, none, .none, rfl, rfl⟩
  | some loop =>
    obtain ⟨l, hyields, hjson⟩ := yields_loop I hagrees (hget rfl) (h loop rfl)
    refine ⟨some (.loop l), some l, .some hyields, rfl, ?_⟩
    rw [Option.mapM_some, hjson]
    rfl

theorem yields_optionalCondition {cond : Option NodeConditionJson}
    (hget : cond.isSome → s.get "Condition".toList = some (.fn .condition))
    (h : ∀ c ∈ cond, ConditionKept I defs c) :
    ∃ (text : Option Text) (v : Option (Val r)) (c : Option (Condition r)),
      cond.mapM (encodeCondition I nodePynames varNames) = some text ∧
      Option.Rel (Yields I s) text v ∧
      (v.getD .none).optional Val.condition? = some c ∧ c.mapM (conditionJson I) = some cond := by
  cases cond with
  | none => exact ⟨none, none, none, rfl, .none, rfl, rfl⟩
  | some cond =>
    obtain ⟨text, c, htext, hyields, hjson⟩ := yields_condition I hagrees (hget rfl) (h cond rfl)
    refine ⟨some text, some (.condition c), some c, ?_, .some hyields, rfl, ?_⟩
    · rw [Option.mapM_some, htext]
      rfl
    · rw [Option.mapM_some, hjson]
      rfl

/-- A list of arguments, which is left out if it is empty. -/
theorem yields_optionalArgs {args : List ArgJson} (h : ∀ a ∈ args, ArgKept I defs a) :
    ∃ (v : Option (Val r)) (values : List (Types.Arg r)),
      Option.Rel (Yields I s)
        (if encodeArgs I nodePynames varNames args = [] then none
          else some (argList (encodeArgs I nodePynames varNames args))) v ∧
      (v.getD .none).args? = some values ∧ values.mapM (argJson I) = some args := by
  obtain ⟨values, hyields, hlength, hjson⟩ := yields_args I hagrees h
  by_cases hnil : encodeArgs I nodePynames varNames args = []
  · rw [if_pos hnil]
    rw [hnil, List.length_nil] at hlength
    obtain rfl := List.length_eq_zero_iff.mp hlength.symm
    exact ⟨none, [], .none, rfl, rfl⟩
  · rw [if_neg hnil]
    exact ⟨some (.list values), values, .some hyields, rfl, hjson⟩

theorem yields_loopArgs {given : Option (List ArgJson)} (hne : given ≠ some [])
    (h : ∀ args ∈ given, ∀ a ∈ args, ArgKept I defs a) :
    ∃ (v : Option (Val r)) (values : List (Types.Arg r)),
      Option.Rel (Yields I s)
        (if given.getD [] = [] then none
          else some (argList (encodeArgs I nodePynames varNames (given.getD [])))) v ∧
      (v.getD .none).args? = some values ∧ values.mapM (argJson I) = some (given.getD []) ∧
      (if given.getD [] = [] then none else some (given.getD [])) = given := by
  cases given with
  | none => exact ⟨none, [], .none, rfl, rfl, rfl⟩
  | some args =>
    obtain ⟨values, hyields, -, hjson⟩ := yields_args I hagrees (h args rfl)
    have hargs : args ≠ [] := fun heq => hne (congrArg some heq)
    rw [Option.getD_some, if_neg hargs, if_neg hargs]
    exact ⟨some (.list values), values, .some hyields, rfl, hjson, rfl⟩

omit hagrees in
theorem newNode_eq {b : Bindings r} (n : Node r) (hname : b.required "name" = some (.str n.name))
    (hfunc : b.required "func" = some (.str n.func)) (hargs : (b.get "args").args? = some n.args)
    (hfactor : (b.get "factor").optional Val.bound? = some n.factor)
    (hpriority : (b.get "priority").optional Val.text? = some n.priority)
    (hworkers : (b.get "use_workers").optional Val.text? = some n.useWorkers)
    (hsize : (b.get "group_size").optional Val.bound? = some n.groupSize)
    (hloop : (b.get "loop").optional Val.loop? = some n.loop)
    (hloopArgs : (b.get "loop_args").args? = some n.loopArgs)
    (hcondition : (b.get "condition").optional Val.condition? = some n.condition) :
    newNode b = some n := by
  unfold newNode
  rw [hname, hfunc, hargs, hfactor, hpriority, hworkers, hsize, hloop, hloopArgs, hcondition]
  rfl

omit hagrees in
theorem nodeJson_eq {n : Node r} (json : NodeJson) {loopArgs : List ArgJson}
    (hname : n.name = json.name) (hfunc : n.func = json.function)
    (hargs : n.args.mapM (argJson I) = some json.args)
    (hfactor : factorJson (Types.factor n.factor) = some json.factor)
    (hpriority : n.priority = json.priority) (hworkers : n.useWorkers = json.useWorkers)
    (hsize : factorJson (Types.factor n.groupSize) = some json.groupSize)
    (hloop : n.loop.mapM loopJson = some json.loop)
    (hloopArgs : n.loopArgs.mapM (argJson I) = some loopArgs)
    (hgiven : (if loopArgs = [] then none else some loopArgs) = json.loopArgs)
    (hcondition : n.condition.mapM (conditionJson I) = some json.condition) :
    nodeJson I n = some json := by
  unfold nodeJson
  rw [hname, hfunc, hargs, hfactor, hpriority, hworkers, hsize, hloop, hloopArgs, hcondition]
  simp only [Option.bind_eq_bind, Option.bind_some, hgiven]
  rfl

/-- The keys in the order of the generator. -/
def nodeKeys : List Text :=
  ["func".toList, "factor".toList, "priority".toList, "group_size".toList, "use_workers".toList,
    "loop".toList, "loop_args".toList, "condition".toList, "args".toList]

omit hagrees in
theorem entryTexts_eq (entries : List (Entry r)) :
    (entries.map fun e => e.text.map (keyword e.key)).reduceOption = entryTexts entries := by
  rw [List.reduceOption, List.filterMap_map]
  rfl

/-- Without `if`, a node is read back from its keywords. -/
theorem exists_node {n : NodeJson} (h : NodeKept I defs n)
    (hcondition : n.condition.isSome → s.get "Condition".toList = some (.fn .condition))
    (hloop : n.loop.isSome → s.get "Loop".toList = some (.fn .loop)) :
    ∃ (entries : List (Entry r)) (node : Node r), entries.map (·.key) = nodeKeys ∧
      EntriesYield I s entries ∧ entryTexts entries ≠ [] ∧
      nodeKwargs I nodePynames varNames n = some (entryTexts entries) ∧
      newNode (("name".toList, .str n.name) :: entryValues entries) = some node ∧
      node.name = n.name ∧ nodeJson I node = some n := by
  obtain ⟨vFactor, factor, rFactor, oFactor, jFactor⟩ := yields_optionalFactor I hagrees h.factor
  obtain ⟨vSize, size, rSize, oSize, jSize⟩ := yields_optionalFactor I hagrees h.groupSize
  obtain ⟨vPriority, rPriority, oPriority⟩ := yields_nonempty I s h.priority
  obtain ⟨vWorkers, rWorkers, oWorkers⟩ := yields_nonempty I s h.useWorkers
  obtain ⟨vLoop, loop, rLoop, oLoop, jLoop⟩ := yields_optionalLoop I hagrees hloop h.loop
  obtain ⟨tCondition, vCondition, condition, eCondition, rCondition, oCondition, jCondition⟩ :=
    yields_optionalCondition I hagrees hcondition h.condition
  obtain ⟨vLoopArgs, loopArgs, rLoopArgs, oLoopArgs, jLoopArgs, hgiven⟩ :=
    yields_loopArgs I hagrees h.loopArgs.1 h.loopArgs.2
  obtain ⟨vArgs, args, rArgs, oArgs, jArgs⟩ := yields_optionalArgs I hagrees h.args
  let entries : List (Entry r) :=
    [⟨"func".toList, some (quoted n.function), some (.str n.function)⟩,
      ⟨"factor".toList, n.factor.map (factorExpr I varNames), vFactor⟩,
      ⟨"priority".toList, (nonempty n.priority).map (pyRepr I.tables), vPriority⟩,
      ⟨"group_size".toList, n.groupSize.map (factorExpr I varNames), vSize⟩,
      ⟨"use_workers".toList, (nonempty n.useWorkers).map (pyRepr I.tables), vWorkers⟩,
      ⟨"loop".toList, n.loop.map (encodeLoop I varNames), vLoop⟩,
      ⟨"loop_args".toList, if n.loopArgs.getD [] = [] then none
        else some (argList (encodeArgs I nodePynames varNames (n.loopArgs.getD []))), vLoopArgs⟩,
      ⟨"condition".toList, tCondition, vCondition⟩,
      ⟨"args".toList, if encodeArgs I nodePynames varNames n.args = [] then none
        else some (argList (encodeArgs I nodePynames varNames n.args)), vArgs⟩]
  have hkeys : entries.map (·.key) = nodeKeys := rfl
  have hlookup := lookup_bound (Val.str n.name) hkeys (by decide)
  simp only [entries, List.forall_mem_cons] at hlookup
  obtain ⟨lFunc, lFactor, lPriority, lSize, lWorkers, lLoop, lLoopArgs, lCondition, lArgs, -⟩ := hlookup
  refine ⟨entries, ⟨n.name, n.function, args, factor, n.priority, n.useWorkers, size, loop, loopArgs,
    condition⟩, hkeys, ?_, ?_, ?_, ?_, rfl, ?_⟩
  · simp only [EntriesYield, entries, List.forall_mem_cons]
    exact ⟨⟨rfl, .some (yields_quoted I s h.function)⟩, ⟨rfl, rFactor⟩, ⟨rfl, rPriority⟩,
      ⟨rfl, rSize⟩, ⟨rfl, rWorkers⟩, ⟨rfl, rLoop⟩, ⟨rfl, rLoopArgs⟩, ⟨rfl, rCondition⟩,
      ⟨rfl, rArgs⟩, fun _ h => absurd h List.not_mem_nil⟩
  · rw [entryTexts_cons]
    exact List.cons_ne_nil _ _
  · unfold nodeKwargs
    rw [eCondition, ← entryTexts_eq]
    simp only [entries, List.map_cons, List.map_nil, Option.map_some, Option.map_map,
      Function.comp_def, apply_ite (Option.map _), Option.map_none]
    rfl
  · refine newNode_eq ⟨n.name, n.function, args, factor, n.priority, n.useWorkers, size, loop,
      loopArgs, condition⟩ rfl lFunc ?_ ?_ ?_ ?_ ?_ ?_ ?_ ?_
    · rw [Bindings.get, lArgs]
      exact oArgs
    · rw [Bindings.get, lFactor]
      exact oFactor
    · rw [Bindings.get, lPriority]
      exact oPriority
    · rw [Bindings.get, lWorkers]
      exact oWorkers
    · rw [Bindings.get, lSize]
      exact oSize
    · rw [Bindings.get, lLoop]
      exact oLoop
    · rw [Bindings.get, lLoopArgs]
      exact oLoopArgs
    · rw [Bindings.get, lCondition]
      exact oCondition
  · exact nodeJson_eq I n rfl rfl jArgs jFactor rfl rfl jSize jLoop jLoopArgs hgiven jCondition

/-! ## Variables -/

def varSignature : Signature :=
  ⟨["name".toList, "value".toList], ["func".toList, "args".toList, "factor".toList]⟩

/-- The graph with one more variable. -/
def Graph.addVar (g : Graph r) (v : Var r) : Graph r :=
  { g with vars := g.vars ++ [v], names := v.name :: g.names }

/-- The graph with one more node. -/
def Graph.addNode (g : Graph r) (post : Bool) (n : Node r) : Graph r :=
  if post then { g with postNodes := g.postNodes ++ [n], names := n.name :: g.names }
  else { g with nodes := g.nodes ++ [n], names := n.name :: g.names }

omit hagrees in
theorem callVar_eq {b : Bindings r} {g : Graph r} (v : Var r)
    (hname : b.required "name" = some (.str v.name)) (hnew : v.name ∉ g.names)
    (hvalue : (b.get "value").optional Val.arg? = some v.value)
    (hfunc : (b.get "func").optional Val.text? = some v.func)
    (hargs : (b.get "args").args? = some v.args)
    (hfactor : (b.get "factor").optional Val.bound? = some v.factor)
    (hone : v.value.isSome ≠ v.func.isSome) :
    callVar b g = some (.arg (.var v.name), g.addVar v) := by
  have hcheck : g.checkName v.name = some () := if_neg hnew
  unfold callVar
  rw [hname]
  simp only [Option.bind_eq_bind, Option.bind_some, Val.str, Val.text?, hcheck, hvalue, hfunc, hargs,
    hfactor]
  rw [if_neg hone]
  rfl

omit hagrees in
theorem initJson_eq {v : Var r} (init : InitJson) (hname : v.name = init.name)
    (hargs : (v.value.toList ++ v.args).mapM (argInit I) = some init.args)
    (hfactor : factorJson (Types.factor v.factor) = some init.factor)
    (hfunc : v.func = init.function) : initJson I v = some init := by
  unfold initJson
  rw [hargs, hfactor, hname, hfunc]
  rfl

/-- The call that makes a variable. -/
structure VarCall (s : Scope r) (varNames : List Text) (init : InitJson) (ps : List (Text × Val r))
    (entries : List (Entry r)) (v : Var r) : Prop where
  values : ∀ p ∈ ps, Yields I s p.1 p.2
  keywords : EntriesYield I s entries
  given : initKwargs I varNames init ≠ []
  texts : pyRepr I.tables init.name :: initKwargs I varNames init =
    ps.map (·.1) ++ entryTexts entries
  bind : varSignature.bind (callArgs (ps.map (·.2)) (entryValues entries)) =
    some (varSignature.positional.zip (ps.map (·.2)) ++ entryValues entries)
  call : ∀ g : Graph r, init.name ∉ g.names →
    callVar (varSignature.positional.zip (ps.map (·.2)) ++ entryValues entries) g =
      some (.arg (.var init.name), g.addVar v)
  name : v.name = init.name
  json : initJson I v = some init

theorem exists_directVar {init : InitJson} (h : InitKept I defs init) (hfunc : init.function = none) :
    ∃ ps entries v, VarCall I s varNames init ps entries v := by
  obtain ⟨arg, harg⟩ := List.length_eq_one_iff.mp (h.direct hfunc)
  obtain ⟨a, hyields, hjson⟩ := yields_initArg I hagrees (h.args arg (harg ▸ List.mem_singleton_self _))
  obtain ⟨vFactor, factor, rFactor, oFactor, jFactor⟩ := yields_optionalFactor I hagrees h.factor
  let entries : List (Entry r) :=
    [⟨"factor".toList, init.factor.map (factorExpr I varNames), vFactor⟩]
  have hkwargs : initKwargs I varNames init = parseInitValue I arg :: entryTexts entries := by
    unfold initKwargs
    rw [hfunc, harg, entryTexts_cons, Option.map_map]
    exact congrArg (parseInitValue I arg :: ·) (List.append_nil _).symm
  refine ⟨[(pyRepr I.tables init.name, .str init.name), (parseInitValue I arg, .arg a)], entries,
    ⟨init.name, some a, none, [], factor⟩, ?_, ?_, ?_, ?_, ?_, ?_, rfl, ?_⟩
  · exact List.forall_mem_cons.mpr ⟨yields_repr I s _, List.forall_mem_singleton.mpr hyields⟩
  · exact List.forall_mem_singleton.mpr ⟨rfl, rFactor⟩
  · rw [hkwargs]
    exact List.cons_ne_nil _ _
  · rw [hkwargs]
    rfl
  · exact bind_entries varSignature _ 2 ["factor".toList] rfl rfl (by decide) (by decide) (by decide)
  · intro g hnew
    refine callVar_eq ⟨init.name, some a, none, [], factor⟩ rfl hnew rfl ?_ ?_ ?_ nofun
    · cases vFactor with
      | none => rfl
      | some v => rfl
    · cases vFactor with
      | none => rfl
      | some v => rfl
    · cases vFactor with
      | none => exact oFactor
      | some v => exact oFactor
  · refine initJson_eq I init rfl ?_ jFactor hfunc.symm
    rw [harg]
    show [a].mapM (argInit I) = _
    rw [List.mapM_cons, hjson]
    rfl

theorem yields_initArgs {args : List ArgInit} (h : ∀ a ∈ args, InitArgKept I defs a) :
    ∃ values, Yields I s ('[' :: encodeInitArgs I args ++ [']']) (.list values) ∧
      (args = [] → values = []) ∧ values.mapM (argInit I) = some args := by
  have hvalues : ∃ items : List (Text × Types.Arg r), items.map (·.1) = args.map (parseInitValue I) ∧
      (∀ i ∈ items, Yields I s i.1 (.arg i.2)) ∧ (items.map (·.2)).mapM (argInit I) = some args := by
    induction args with
    | nil => exact ⟨[], rfl, fun _ h => absurd h List.not_mem_nil, rfl⟩
    | cons arg args ih =>
      obtain ⟨harg, hargs⟩ := List.forall_mem_cons.mp h
      obtain ⟨items, htexts, hyields, hjson⟩ := ih hargs
      obtain ⟨a, hyieldsArg, hjsonArg⟩ := yields_initArg I hagrees harg
      refine ⟨(parseInitValue I arg, a) :: items, congrArg (parseInitValue I arg :: ·) htexts,
        List.forall_mem_cons.mpr ⟨hyieldsArg, hyields⟩, ?_⟩
      rw [List.map_cons, List.mapM_cons, hjsonArg, hjson]
      rfl
  obtain ⟨items, htexts, hyields, hjson⟩ := hvalues
  have hencode : encodeInitArgs I args = commaJoin (items.map (·.1)) := by
    have hsame : ∀ a : ArgInit,
        (if a.type = "$ref".toList then pyname a.value else parseInitValue I a) =
          parseInitValue I a := by
      intro a
      unfold parseInitValue
      split
      · rfl
      · rfl
    unfold encodeInitArgs
    rw [htexts]
    exact congrArg commaJoin (List.map_congr_left fun a _ => hsame a)
  refine ⟨items.map (·.2), ?_, ?_, hjson⟩
  · rw [hencode]
    exact yields_list I s isBlank_space hyields
  · rintro rfl
    rw [List.map_eq_nil_iff.mp htexts]
    rfl

theorem exists_functionVar {init : InitJson} (h : InitKept I defs init) {func : Text}
    (hfunc : init.function = some func) : ∃ ps entries v, VarCall I s varNames init ps entries v := by
  obtain ⟨hne, hback⟩ := h.function func hfunc
  obtain ⟨vFactor, factor, rFactor, oFactor, jFactor⟩ := yields_optionalFactor I hagrees h.factor
  obtain ⟨values, hyields, hnil, hjson⟩ := yields_initArgs I hagrees h.args
  let text : Option Text :=
    if init.args = [] then none else some ('[' :: encodeInitArgs I init.args ++ [']'])
  have hargs : ∃ vArgs : Option (Val r), Option.Rel (Yields I s) text vArgs ∧
      (vArgs.getD .none).args? = some values := by
    by_cases hempty : init.args = []
    · refine ⟨none, ?_, congrArg some (hnil hempty).symm⟩
      rw [show text = none from if_pos hempty]
      exact .none
    · refine ⟨some (.list values), ?_, rfl⟩
      rw [show text = some _ from if_neg hempty]
      exact .some hyields
  obtain ⟨vArgs, rArgs, oArgs⟩ := hargs
  let entries : List (Entry r) :=
    [⟨"func".toList, some (quoted func), some (.str func)⟩, ⟨"args".toList, text, vArgs⟩,
      ⟨"factor".toList, init.factor.map (factorExpr I varNames), vFactor⟩]
  have hkwargs : initKwargs I varNames init = entryTexts entries := by
    have hnonempty : nonempty (some func) = some func := by
      cases func with
      | nil => exact absurd rfl hne
      | cons c cs => rfl
    unfold initKwargs
    rw [hfunc, hnonempty, entryTexts_cons, entryTexts_cons, entryTexts_cons, Option.map_map]
    by_cases hempty : init.args = []
    · simp only [text, if_pos hempty]
      exact congrArg (keyword "func".toList (quoted func) :: ·) (List.append_nil _).symm
    · simp only [text, if_neg hempty]
      exact congrArg (keyword "func".toList (quoted func) :: keyword "args".toList _ :: ·)
        (List.append_nil _).symm
  have hkeys : entries.map (·.key) = ["func".toList, "args".toList, "factor".toList] := rfl
  refine ⟨[(pyRepr I.tables init.name, .str init.name)], entries,
    ⟨init.name, none, some func, values, factor⟩, ?_, ?_, ?_, ?_, ?_, ?_, rfl, ?_⟩
  · exact List.forall_mem_singleton.mpr (yields_repr I s _)
  · exact List.forall_mem_cons.mpr ⟨⟨rfl, .some (yields_quoted I s hback)⟩,
      List.forall_mem_cons.mpr ⟨⟨rfl, rArgs⟩, List.forall_mem_singleton.mpr ⟨rfl, rFactor⟩⟩⟩
  · rw [hkwargs, entryTexts_cons]
    exact List.cons_ne_nil _ _
  · rw [hkwargs]
    rfl
  · exact bind_entries varSignature _ 1 _ rfl hkeys (by decide) (by decide) (by decide)
  · intro g hnew
    have hlookup := lookup_bound (Val.str init.name) hkeys (by decide)
    simp only [entries, List.forall_mem_cons] at hlookup
    obtain ⟨lFunc, lArgs, lFactor, -⟩ := hlookup
    have lValue : ([("name".toList, Val.str init.name)] ++ entryValues entries).lookup
        "value".toList = none :=
      lookup_entryValues_eq_none (by rw [hkeys]; decide)
    refine callVar_eq ⟨init.name, none, some func, values, factor⟩ rfl hnew ?_ ?_ ?_ ?_ nofun
    · exact congrArg (fun v : Option (Val r) => (v.getD .none).optional Val.arg?) lValue
    · exact congrArg (fun v : Option (Val r) => (v.getD .none).optional Val.text?) lFunc
    · exact (congrArg (fun v : Option (Val r) => (v.getD .none).args?) lArgs).trans oArgs
    · exact (congrArg (fun v : Option (Val r) => (v.getD .none).optional Val.bound?)
        lFactor).trans oFactor
  · refine initJson_eq I init rfl hjson jFactor hfunc.symm

end Parts

end Tomii.Codegen
