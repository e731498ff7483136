import Tomii.Graph.InitObjects
import Tomii.Types.ValueSurvival

/-! # Literals and the names of objects

An argument of a literal type should be the value of its text, and a `$ref` argument the object of
that name. What the loader makes of them is compared with this, object by object and node by node. -/
namespace Tomii.Loading
open Types
open Indexes (LoadFailure)
set_option autoImplicit false
set_option maxHeartbeats 250000

variable {r : FloatParsers} {A : Type}

/-! ## The numbers of objects -/

/-- The ids of the reserved names and of the objects, the latest one first. -/
def numbers (names : List Text) : List (Text × ℕ) :=
  (names.zipIdx 2).reverse ++ [("$workers".toList, 1), ("$index".toList, 0)]

/-- The place of the latest object of that name. -/
def number (names : List Text) (text : Text) : Option ℕ := (numbers names).lookup text

/-! ## What arguments stand for -/

/-- The literal types of the graph format. -/
def IsLiteral (tp : Text) : Prop := ∃ T : ScalarType, tp = T.name ∨ tp = T.vecName

theorem not_isLiteral_ref : ¬IsLiteral "$ref".toList := by
  rintro ⟨T, hT⟩
  cases T with
  | int k => cases k <;> exact absurd hT (by decide)
  | _ => exact absurd hT (by decide)

/-- The first value of the latest earlier object, or what a reserved name stands for. -/
def refMeaning (names : List Text) (env : InitObjects r A) (workers i : ℕ) (text : Text) :
    Option (Value r A) :=
  match number names text with
  | some 0 => some (usize i)
  | some 1 => some (usize workers)
  | some id => env.firstValue id
  | none => none

/-- Without a function, only the first argument is looked at. -/
def evaluatedArgs (init : InitJson) : List ArgInit :=
  match init.function with
  | some _ => init.args
  | none => init.args.head?.toList

def evalArg (env : InitObjects r A) (workers : ℕ) (init : InitJson) (i : ℕ) (arg : ArgInit) :
    Except LoadFailure (Value r A) :=
  match init.function with
  | some _ => initArg env workers i arg
  | none => literalArg arg

structure ArgKept (names : List Text) (env : InitObjects r A) (workers i : ℕ) (arg : ArgInit)
    (result : Except LoadFailure (Value r A)) : Prop where
  literal : IsLiteral arg.type →
    ∃ v, stringToCmtype r arg.type arg.value = .ok v ∧ result = .ok (.read v)
  ref : arg.type = "$ref".toList →
    ∃ v, refMeaning names env workers i arg.value = some v ∧ result = .ok v

structure NodeArgKept (names : List Text) (arg : ArgJson) (a : Arg r) : Prop where
  literal : ∀ text, arg.value = some text → IsLiteral arg.type →
    stringToCmtype r arg.type text = .ok a.type
  ref : ∀ text, arg.value = some text → arg.type = "$ref".toList →
    ∃ id, number names text = some id ∧ a.type = .ref (usizeValue id)

section Loads

variable (getFunc : Text → Option (InitFn r A)) (workers : ℕ)

/-- Literals and references mean what they say, and every name has the id of its own object. -/
structure Kept (inits : List InitJson) (env : InitObjects r A) (args : List ArgJson)
    (parsed : List (Arg r)) : Prop where
  evaluated : ∀ pre init post before n i, inits = pre ++ init :: post →
    initObjects getFunc workers pre = .ok before →
    factorOf before workers init.factor = some n → i < n →
    ∀ arg ∈ evaluatedArgs init,
      ArgKept (pre.map (·.name)) before workers i arg (evalArg before workers init i arg)
  ids : ∀ pre init post before values, inits = pre ++ init :: post →
    (∀ later ∈ post, later.name ≠ init.name) → initObjects getFunc workers pre = .ok before →
    initObject getFunc workers before init = .ok values →
    env.objIdMap.lookup init.name = some (2 + pre.length) ∧
      env.objects[2 + pre.length]? = some values
  nodes : List.Forall₂ (NodeArgKept (inits.map (·.name))) args parsed

/-! ## Where nothing is captured -/

/-- What the names make of a text, whatever its type. -/
def captured (names : List Text) (env : InitObjects r A) (i : ℕ) (text : Text) :
    Option (Value r A) :=
  if text = "$workers".toList then some (usize workers)
  else if text = "$index".toList then some (usize i)
  else (number names text).bind env.firstValue

/-- A literal that is captured is the value that it is captured by. A reference names something, and
no object stands behind a reserved name. Without a function, a reference is read as a number. -/
structure ArgFree (names : List Text) (env : InitObjects r A) (init : InitJson) (i : ℕ)
    (arg : ArgInit) : Prop where
  literal : init.function.isSome → IsLiteral arg.type →
    ∀ v, captured workers names env i arg.value = some v →
      ∃ u, stringToCmtype r arg.type arg.value = .ok u ∧ v = .read u
  ref : init.function.isSome → arg.type = "$ref".toList →
    ∃ v, refMeaning names env workers i arg.value = some v ∧
      captured workers names env i arg.value = some v
  direct : init.function = none → arg.type = "$ref".toList →
    ∃ n, parseInt .usize arg.value = some n ∧
      refMeaning names env workers i arg.value = some (.read (.ref n))

/-- The number that is read instead of the text. -/
def replacement (names : List Text) (nameToId : List (Text × ℕ)) (arg : ArgJson) (text : Text) :
    Option ℕ :=
  match arg.predecessor with
  | some pred => nameToId.lookup pred.name
  | none => number names text

structure NodeArgFree (r : FloatParsers) (names : List Text) (nameToId : List (Text × ℕ))
    (arg : ArgJson) : Prop where
  literal : ∀ text, arg.value = some text → IsLiteral arg.type →
    ∀ k, replacement names nameToId arg text = some k →
      stringToCmtype r arg.type (showInt k) = stringToCmtype r arg.type text
  ref : ∀ text, arg.value = some text → arg.type = "$ref".toList →
    ∃ id, number names text = some id ∧ replacement names nameToId arg text = some id

/-- No argument is captured, and the counter of the objects does not wrap around. -/
structure Free (nameToId : List (Text × ℕ)) (inits : List InitJson) (args : List ArgJson) :
    Prop where
  evaluated : ∀ pre init post before n i, inits = pre ++ init :: post →
    initObjects getFunc workers pre = .ok before →
    factorOf before workers init.factor = some n → i < n →
    ∀ arg ∈ evaluatedArgs init, ArgFree workers (pre.map (·.name)) before init i arg
  fits : inits.length ≤ 65534
  nodes : ∀ arg ∈ args, NodeArgFree r (inits.map (·.name)) nameToId arg

end Loads

/-! ## Numbers -/

theorem numbers_nil : numbers [] = [("$workers".toList, 1), ("$index".toList, 0)] := rfl

theorem numbers_concat (names : List Text) (name : Text) :
    numbers (names ++ [name]) = (name, 2 + names.length) :: numbers names := by
  rw [numbers, List.zipIdx_append, List.reverse_append]
  rfl

theorem number_concat (names : List Text) (name text : Text) :
    number (names ++ [name]) text =
      if text = name then some (2 + names.length) else number names text := by
  rw [number, numbers_concat, List.lookup_cons]
  by_cases h : text = name
  · rw [if_pos h, beq_iff_eq.mpr h]
  · rw [if_neg h, beq_eq_false_iff_ne.mpr h]
    rfl

/-- Ids 0 and 1 belong to the reserved names, and the others to objects. -/
theorem number_cases {names : List Text} {text : Text} {id : ℕ} (h : number names text = some id) :
    (id = 0 ∧ text = "$index".toList) ∨ (id = 1 ∧ text = "$workers".toList) ∨
      2 ≤ id ∧ id < 2 + names.length := by
  induction names using List.reverseRecOn with
  | nil =>
    rw [number, numbers_nil, List.lookup_cons, List.lookup_cons, List.lookup_nil] at h
    split at h
    · next hbeq => exact .inr (.inl ⟨(Option.some.inj h).symm, beq_iff_eq.mp hbeq⟩)
    · split at h
      · next hbeq => exact .inl ⟨(Option.some.inj h).symm, beq_iff_eq.mp hbeq⟩
      · cases h
  | append_singleton names name ih =>
    rw [number_concat] at h
    rw [List.length_append, List.length_singleton]
    split at h
    · obtain rfl := Option.some.inj h
      exact .inr (.inr ⟨Nat.le_add_right _ _, by omega⟩)
    · rcases ih h with hindex | hworkers | ⟨hlow, hhigh⟩
      · exact .inl hindex
      · exact .inr (.inl hworkers)
      · exact .inr (.inr ⟨hlow, by omega⟩)

theorem number_of_last {names later : List Text} {name : Text} (h : ∀ n ∈ later, n ≠ name) :
    number (names ++ name :: later) name = some (2 + names.length) := by
  induction later using List.reverseRecOn with
  | nil => rw [number_concat, if_pos rfl]
  | append_singleton later l ih =>
    have hl : name ≠ l := (h l (List.mem_append_right _ List.mem_cons_self)).symm
    rw [← List.cons_append, ← List.append_assoc, number_concat, if_neg hl]
    exact ih fun n hn => h n (List.mem_append_left _ hn)

/-! ## The objects that have been built -/

theorem lookup_map_snd {β γ : Type} (f : β → γ) (entries : List (Text × β)) (key : Text) :
    (entries.map fun p => (p.1, f p.2)).lookup key = (entries.lookup key).map f := by
  induction entries with
  | nil => rfl
  | cons entry entries ih =>
    rw [List.map_cons, List.lookup_cons, List.lookup_cons, ih]
    cases key == entry.1 with
    | true => rfl
    | false => rfl

section Loads

variable (getFunc : Text → Option (InitFn r A)) (workers : ℕ)

/-- Ids are the places of the objects, as far as 16 bits go. -/
structure Built (inits : List InitJson) (env : InitObjects r A) : Prop where
  ids : env.objIdMap = (numbers (inits.map (·.name))).map fun p => (p.1, p.2 % 2 ^ 16)
  count : env.objects.length = 2 + inits.length
  counter : env.objCounter = (2 + inits.length) % 2 ^ 16

variable {getFunc workers}

theorem initObjects_append {pre post : List InitJson} {env : InitObjects r A}
    (h : initObjects getFunc workers (pre ++ post) = .ok env) :
    ∃ before, initObjects getFunc workers pre = .ok before ∧
      post.foldlM (addObject getFunc workers) before = .ok env := by
  rw [initObjects, List.foldlM_append] at h
  exact bind_eq_ok_iff.mp h

theorem foldlM_cons_ok {init : InitJson} {post : List InitJson} {before env : InitObjects r A}
    (h : (init :: post).foldlM (addObject getFunc workers) before = .ok env) :
    ∃ next, addObject getFunc workers before init = .ok next ∧
      post.foldlM (addObject getFunc workers) next = .ok env := by
  rw [List.foldlM_cons] at h
  exact bind_eq_ok_iff.mp h

theorem addObject_ok {before env : InitObjects r A} {init : InitJson}
    (h : addObject getFunc workers before init = .ok env) :
    ∃ values, initObject getFunc workers before init = .ok values ∧
      env = ⟨(init.name, before.objCounter) :: before.objIdMap, before.objects ++ [values],
        (before.objCounter + 1) % 2 ^ 16⟩ := by
  obtain ⟨values, hvalues, henv⟩ := bind_eq_ok_iff.mp h
  exact ⟨values, hvalues, (Except.ok.inj henv).symm⟩

theorem Built.add {inits : List InitJson} {before env : InitObjects r A} {init : InitJson}
    (h : Built inits before) (hadd : addObject getFunc workers before init = .ok env) :
    Built (inits ++ [init]) env := by
  obtain ⟨values, -, rfl⟩ := addObject_ok hadd
  refine ⟨?_, ?_, ?_⟩
  · rw [List.map_append, List.map_singleton, numbers_concat, List.map_cons, ← h.ids, h.counter,
      List.length_map]
  · rw [List.length_append, h.count, List.length_append]
    rfl
  · show (before.objCounter + 1) % 2 ^ 16 = _
    rw [h.counter, List.length_append, List.length_singleton, Nat.mod_add_mod, Nat.add_assoc]

theorem initObjects_built {inits : List InitJson} {env : InitObjects r A}
    (h : initObjects getFunc workers inits = .ok env) : Built inits env := by
  induction inits using List.reverseRecOn generalizing env with
  | nil =>
    obtain rfl := Except.ok.inj h
    exact ⟨rfl, rfl, rfl⟩
  | append_singleton inits init ih =>
    obtain ⟨before, hbefore, hrest⟩ := initObjects_append h
    obtain ⟨next, hnext, hnil⟩ := foldlM_cons_ok hrest
    obtain rfl := Except.ok.inj hnil
    exact (ih hbefore).add hnext

/-- Later objects leave earlier ones where they are. -/
theorem objects_kept {post : List InitJson} {before env : InitObjects r A}
    (h : post.foldlM (addObject getFunc workers) before = .ok env) :
    ∃ later, env.objects = before.objects ++ later := by
  induction post generalizing before with
  | nil =>
    obtain rfl := Except.ok.inj h
    exact ⟨[], (List.append_nil _).symm⟩
  | cons init post ih =>
    obtain ⟨next, hnext, hrest⟩ := foldlM_cons_ok h
    obtain ⟨values, -, rfl⟩ := addObject_ok hnext
    obtain ⟨later, hlater⟩ := ih hrest
    exact ⟨values :: later, by rw [hlater, List.append_assoc]; rfl⟩

theorem Built.lookup {inits : List InitJson} {env : InitObjects r A} (h : Built inits env)
    (text : Text) :
    env.objIdMap.lookup text = (number (inits.map (·.name)) text).map (· % 2 ^ 16) := by
  rw [h.ids]
  exact lookup_map_snd (· % 2 ^ 16) _ text

theorem Built.lookup_eq {inits : List InitJson} {env : InitObjects r A} (h : Built inits env)
    (hfits : inits.length ≤ 65534) (text : Text) :
    env.objIdMap.lookup text = number (inits.map (·.name)) text := by
  rw [h.lookup]
  cases hnumber : number (inits.map (·.name)) text with
  | none => rfl
  | some id =>
    have hlt : id < 2 ^ 16 := by
      have hcases := number_cases hnumber
      rw [List.length_map] at hcases
      omega
    rw [Option.map_some, Nat.mod_eq_of_lt hlt]

/-- The object that is built at a place, in the end. -/
theorem own_object {pre post : List InitJson} {init : InitJson} {before env : InitObjects r A}
    {values : List (Value r A)} (h : initObjects getFunc workers (pre ++ init :: post) = .ok env)
    (hbefore : initObjects getFunc workers pre = .ok before)
    (hvalues : initObject getFunc workers before init = .ok values) :
    env.objects[2 + pre.length]? = some values := by
  obtain ⟨before', hbefore', hrest⟩ := initObjects_append h
  obtain rfl := Except.ok.inj (hbefore.symm.trans hbefore')
  obtain ⟨next, hnext, hrest⟩ := foldlM_cons_ok hrest
  obtain ⟨values', hvalues', rfl⟩ := addObject_ok hnext
  obtain rfl := Except.ok.inj (hvalues.symm.trans hvalues')
  obtain ⟨later, hlater⟩ := objects_kept hrest
  have hcount := (initObjects_built hbefore).count
  rw [hlater, List.append_assoc, List.getElem?_append_right hcount.le, hcount, Nat.sub_self]
  rfl

end Loads

/-! ## One argument of an object -/

section InitArgs

variable {workers i : ℕ} {names : List Text} {env : InitObjects r A} {arg : ArgInit}
  {w : Value r A}

/-- An argument that is evaluated is captured, or is its literal. -/
theorem initArg_cases (hlookup : env.objIdMap.lookup arg.value = number names arg.value)
    (h : initArg env workers i arg = .ok w) :
    captured workers names env i arg.value = some w ∨
      number names arg.value = none ∧ captured workers names env i arg.value = none ∧
        literalArg arg = .ok w := by
  unfold initArg at h
  unfold captured
  split at h
  · next hworkers => exact .inl (by rw [if_pos hworkers, Except.ok.inj h])
  · next hworkers =>
    rw [if_neg hworkers]
    split at h
    · next hindex => exact .inl (by rw [if_pos hindex, Except.ok.inj h])
    · next hindex =>
      rw [if_neg hindex]
      rw [hlookup] at h
      cases hnumber : number names arg.value with
      | none =>
        rw [hnumber] at h
        exact .inr ⟨rfl, rfl, h⟩
      | some id =>
        rw [hnumber] at h
        simp only [orPanic] at h
        cases hfirst : env.firstValue id with
        | none =>
          rw [hfirst] at h
          cases h
        | some v =>
          rw [hfirst] at h
          rw [Option.bind_some, hfirst]
          exact .inl (congrArg some (Except.ok.inj h))

theorem literalArg_ok (h : literalArg (A := A) arg = .ok w) :
    ∃ u, stringToCmtype r arg.type arg.value = .ok u ∧ w = .read u := by
  unfold literalArg at h
  split at h
  · next v hv => exact ⟨v, hv, (Except.ok.inj h).symm⟩
  · cases h

theorem literal_kept_iff (hlookup : env.objIdMap.lookup arg.value = number names arg.value)
    (h : initArg env workers i arg = .ok w) :
    (∃ v, stringToCmtype r arg.type arg.value = .ok v ∧ initArg env workers i arg = .ok (.read v)) ↔
      ∀ v, captured workers names env i arg.value = some v →
        ∃ u, stringToCmtype r arg.type arg.value = .ok u ∧ v = .read u := by
  rw [h]
  rcases initArg_cases hlookup h with hcaptured | ⟨-, hfree, hliteral⟩
  · rw [hcaptured]
    constructor
    · rintro ⟨u, hu, hw⟩ v hv
      exact ⟨u, hu, (Option.some.inj hv).symm.trans (Except.ok.inj hw)⟩
    · intro hall
      obtain ⟨u, hu, rfl⟩ := hall w rfl
      exact ⟨u, hu, rfl⟩
  · rw [hfree]
    obtain ⟨u, hu, rfl⟩ := literalArg_ok hliteral
    exact iff_of_true ⟨u, hu, rfl⟩ fun v hv => by cases hv

theorem ref_kept_iff (hlookup : env.objIdMap.lookup arg.value = number names arg.value)
    (h : initArg env workers i arg = .ok w) :
    (∃ v, refMeaning names env workers i arg.value = some v ∧
        initArg env workers i arg = .ok v) ↔
      ∃ v, refMeaning names env workers i arg.value = some v ∧
        captured workers names env i arg.value = some v := by
  rw [h]
  rcases initArg_cases hlookup h with hcaptured | ⟨hnone, -, -⟩
  · rw [hcaptured]
    exact exists_congr fun v => and_congr_right fun _ =>
      ⟨fun hv => congrArg some (Except.ok.inj hv), fun hv => congrArg Except.ok (Option.some.inj hv)⟩
  · have hmeaning : refMeaning names env workers i arg.value = none := by
      rw [refMeaning, hnone]
    rw [hmeaning]
    exact iff_of_false (fun ⟨_, hv, _⟩ => by cases hv) (fun ⟨_, hv, _⟩ => by cases hv)

theorem stringToCmtype_ref (s : Text) :
    stringToCmtype r "$ref".toList s = parser r "ref".toList (parseInt .usize) .ref s := rfl

/-- A reference without a function is read as a number. -/
theorem direct_ref_kept_iff (htype : arg.type = "$ref".toList)
    (h : literalArg (A := A) arg = .ok w) :
    (∃ v, refMeaning names env workers i arg.value = some v ∧ literalArg (A := A) arg = .ok v) ↔
      ∃ n, parseInt .usize arg.value = some n ∧
        refMeaning names env workers i arg.value = some (.read (.ref n)) := by
  obtain ⟨u, hu, rfl⟩ := literalArg_ok h
  rw [h]
  rw [htype, stringToCmtype_ref, parser] at hu
  cases hparse : parseInt .usize arg.value with
  | none =>
    rw [hparse] at hu
    cases hu
  | some n =>
    rw [hparse] at hu
    obtain rfl := Except.ok.inj hu
    constructor
    · rintro ⟨v, hv, hw⟩
      exact ⟨n, rfl, by rw [hv, ← Except.ok.inj hw]⟩
    · rintro ⟨m, hm, hv⟩
      obtain rfl := Option.some.inj hm
      exact ⟨_, hv, rfl⟩

end InitArgs

theorem orPanic_eq_ok_iff {α : Type} {x : Option α} {a : α} : orPanic x = .ok a ↔ x = some a := by
  cases x with
  | none => exact ⟨fun h => (nomatch h), fun h => (nomatch h)⟩
  | some b => exact ⟨fun h => congrArg some (Except.ok.inj h), fun h => congrArg _ h⟩

/-- Every argument of an object that is built has been evaluated. -/
theorem evalArg_ok {getFunc : Text → Option (InitFn r A)} {workers i n : ℕ}
    {before : InitObjects r A} {init : InitJson} {values : List (Value r A)} {arg : ArgInit}
    (h : initObject getFunc workers before init = .ok values)
    (hfactor : factorOf before workers init.factor = some n) (hi : i < n)
    (harg : arg ∈ evaluatedArgs init) : ∃ w, evalArg before workers init i arg = .ok w := by
  obtain ⟨factor, hresolved, h⟩ := bind_eq_ok_iff.mp h
  obtain rfl := Option.some.inj ((orPanic_eq_ok_iff.mp hresolved).symm.trans hfactor)
  unfold evaluatedArgs at harg
  unfold evalArg
  cases hfunction : init.function with
  | none =>
    simp only [hfunction] at h harg ⊢
    obtain ⟨first, hfirst, h⟩ := bind_eq_ok_iff.mp h
    obtain ⟨w, hw, -⟩ := bind_eq_ok_iff.mp h
    rw [orPanic_eq_ok_iff.mp hfirst, Option.toList_some, List.mem_singleton] at harg
    exact ⟨w, harg ▸ hw⟩
  | some funcName =>
    simp only [hfunction] at h harg ⊢
    cases hfunc : getFunc funcName with
    | none =>
      simp only [hfunc] at h
      cases h
    | some func =>
      simp only [hfunc] at h
      have hinstances := mapM_eq_ok_iff.mp h
      obtain ⟨value, hvalue⟩ := forall₂_left hinstances i (List.mem_range.mpr hi)
      obtain ⟨args, hargs, -⟩ := bind_eq_ok_iff.mp hvalue
      exact forall₂_left (mapM_eq_ok_iff.mp hargs) arg harg

theorem argKept_iff {getFunc : Text → Option (InitFn r A)} {workers i n : ℕ} {names : List Text}
    {before : InitObjects r A} {init : InitJson} {values : List (Value r A)} {arg : ArgInit}
    (hlookup : before.objIdMap.lookup arg.value = number names arg.value)
    (h : initObject getFunc workers before init = .ok values)
    (hfactor : factorOf before workers init.factor = some n) (hi : i < n)
    (harg : arg ∈ evaluatedArgs init) :
    ArgKept names before workers i arg (evalArg before workers init i arg) ↔
      ArgFree workers names before init i arg := by
  obtain ⟨w, hw⟩ := evalArg_ok h hfactor hi harg
  cases hfunction : init.function with
  | none =>
    have heval : evalArg before workers init i arg = literalArg arg := by
      rw [evalArg, hfunction]
    rw [heval] at hw ⊢
    constructor
    · intro hkept
      refine ⟨fun hsome => ?_, fun hsome => ?_, fun _ htype => ?_⟩
      · rw [hfunction] at hsome
        cases hsome
      · rw [hfunction] at hsome
        cases hsome
      · exact (direct_ref_kept_iff htype hw).mp (hkept.ref htype)
    · intro hfree
      refine ⟨fun _ => ?_, fun htype => ?_⟩
      · obtain ⟨u, hu, rfl⟩ := literalArg_ok hw
        exact ⟨u, hu, hw⟩
      · exact (direct_ref_kept_iff htype hw).mpr (hfree.direct hfunction htype)
  | some funcName =>
    have heval : evalArg before workers init i arg = initArg before workers i arg := by
      rw [evalArg, hfunction]
    rw [heval] at hw ⊢
    constructor
    · intro hkept
      refine ⟨fun _ htype => ?_, fun _ htype => ?_, fun hnone => ?_⟩
      · exact (literal_kept_iff hlookup hw).mp (hkept.literal htype)
      · exact (ref_kept_iff hlookup hw).mp (hkept.ref htype)
      · rw [hfunction] at hnone
        cases hnone
    · intro hfree
      have hsome : init.function.isSome := by rw [hfunction]; rfl
      exact ⟨fun htype => (literal_kept_iff hlookup hw).mpr (hfree.literal hsome htype),
        fun htype => (ref_kept_iff hlookup hw).mpr (hfree.ref hsome htype)⟩

/-! ## One argument of a node -/

section NodeArgs

variable {workers : ℕ} {names : List Text} {nameToId : List (Text × ℕ)} {env : InitObjects r A}
  {arg : ArgJson} {a : Arg r}

theorem cmtypeOf_eq_ok_iff {tp text : Text} {v : Types.CmTypes r} :
    cmtypeOf tp text = .ok v ↔ stringToCmtype r tp text = .ok v := by
  unfold cmtypeOf
  cases stringToCmtype r tp text with
  | ok u => exact ⟨fun h => congrArg _ (Except.ok.inj h), fun h => congrArg _ (Except.ok.inj h)⟩
  | error e => exact ⟨fun h => (nomatch h), fun h => (nomatch h)⟩

theorem parsePredecessor_id {pred : PredJson} {read : Predecessor}
    (h : parsePredecessor env nameToId workers pred = .ok read) :
    nameToId.lookup pred.name = some read.id := by
  obtain ⟨before, hbefore, h⟩ := bind_eq_ok_iff.mp h
  have hid : read.id = before.id := by
    cases hgroup : pred.groupBy with
    | none =>
      simp only [hgroup] at h
      rw [← Except.ok.inj h]
    | some factor =>
      simp only [hgroup] at h
      obtain ⟨groupBy, -, h⟩ := bind_eq_ok_iff.mp h
      rw [← Except.ok.inj h]
  unfold Indexes.parsePredecessor at hbefore
  cases hlookup : nameToId.lookup pred.name with
  | none =>
    rw [hlookup] at hbefore
    cases hbefore
  | some id =>
    rw [hlookup] at hbefore
    obtain ⟨indexes, -, hpred⟩ := bind_eq_ok_iff.mp hbefore
    rw [hid, ← Except.ok.inj hpred]

/-- What is read instead of the text, or else the text. -/
theorem parseArg_type (hlookup : ∀ text, env.objIdMap.lookup text = number names text)
    (h : parseArg env nameToId workers arg = .ok a) {text : Text} (htext : arg.value = some text) :
    stringToCmtype r arg.type
      ((replacement names nameToId arg text).elim text fun k => showInt k) = .ok a.type := by
  obtain ⟨condition, -, h⟩ := bind_eq_ok_iff.mp h
  obtain ⟨predecessor, hpred, h⟩ := bind_eq_ok_iff.mp h
  obtain ⟨type, htype, h⟩ := bind_eq_ok_iff.mp h
  rw [← Except.ok.inj h]
  unfold argCmtype at htype
  unfold replacement
  cases hjson : arg.predecessor with
  | none =>
    rw [hjson] at hpred
    obtain rfl := Except.ok.inj hpred
    simp only [htext, hlookup] at htype ⊢
    cases hnumber : number names text with
    | none =>
      rw [hnumber] at htype
      exact cmtypeOf_eq_ok_iff.mp htype
    | some id =>
      rw [hnumber] at htype
      exact cmtypeOf_eq_ok_iff.mp htype
  | some pred =>
    rw [hjson] at hpred
    obtain ⟨read, hread, hsome⟩ := bind_eq_ok_iff.mp hpred
    obtain rfl := Except.ok.inj hsome
    simp only [parsePredecessor_id hread] at htype ⊢
    exact cmtypeOf_eq_ok_iff.mp htype

/-- Where the text itself is read, it is no name. -/
theorem number_of_replacement_none (h : parseArg env nameToId workers arg = .ok a) {text : Text}
    (hnone : replacement names nameToId arg text = none) : number names text = none := by
  obtain ⟨condition, -, h⟩ := bind_eq_ok_iff.mp h
  obtain ⟨predecessor, hpred, -⟩ := bind_eq_ok_iff.mp h
  unfold replacement at hnone
  cases hjson : arg.predecessor with
  | none =>
    rw [hjson] at hnone
    exact hnone
  | some pred =>
    rw [hjson] at hnone hpred
    obtain ⟨read, hread, -⟩ := bind_eq_ok_iff.mp hpred
    exact absurd ((parsePredecessor_id hread).symm.trans hnone) (Option.some_ne_none _)

theorem usizeValue_inj {m n : ℕ} (hm : m < 2 ^ 64) (hn : n < 2 ^ 64)
    (h : usizeValue m = usizeValue n) : m = n := by
  have hval := congrArg (fun v => v.val) h
  simp only [usizeValue, Nat.cast_inj] at hval
  rwa [Nat.mod_eq_of_lt hm, Nat.mod_eq_of_lt hn] at hval

/-- The digits of a number are the reference with that number. -/
theorem ref_showInt {k : ℕ} {v : Types.CmTypes r}
    (h : stringToCmtype r "$ref".toList (showInt k) = .ok v) :
    v = .ref (usizeValue k) ∧ k < 2 ^ 64 := by
  rw [stringToCmtype_ref, parser, parseInt, readInt_showInt (.inr (Int.natCast_nonneg k)),
    Option.bind_some] at h
  by_cases hrange : IntType.usize.min ≤ (k : ℤ) ∧ (k : ℤ) ≤ IntType.usize.max
  · rw [dif_pos hrange] at h
    have hlt : k < 2 ^ 64 := by
      have hmax : (k : ℤ) ≤ 2 ^ 64 - 1 := hrange.2
      omega
    refine ⟨(Except.ok.inj h).symm.trans (congrArg Types.CmTypes.ref (Subtype.ext ?_)), hlt⟩
    show (k : ℤ) = ((k % 2 ^ 64 : ℕ) : ℤ)
    rw [Nat.mod_eq_of_lt hlt]
  · rw [dif_neg hrange] at h
    cases h

theorem nodeArgKept_iff (hlookup : ∀ text, env.objIdMap.lookup text = number names text)
    (hsmall : ∀ text id, number names text = some id → id < 2 ^ 64)
    (h : parseArg env nameToId workers arg = .ok a) :
    NodeArgKept names arg a ↔ NodeArgFree r names nameToId arg := by
  constructor
  · intro hkept
    refine ⟨fun text htext hliteral k hk => ?_, fun text htext href => ?_⟩
    · have hread := parseArg_type hlookup h htext
      rw [hk] at hread
      exact hread.trans (hkept.literal text htext hliteral).symm
    · obtain ⟨id, hid, htype⟩ := hkept.ref text htext href
      refine ⟨id, hid, ?_⟩
      have hread := parseArg_type hlookup h htext
      cases hreplaced : replacement names nameToId arg text with
      | none =>
        rw [number_of_replacement_none h hreplaced] at hid
        cases hid
      | some k =>
        rw [hreplaced, href] at hread
        obtain ⟨hk, hlt⟩ := ref_showInt hread
        have heq : usizeValue id = usizeValue k := by
          injection htype.symm.trans hk
        rw [usizeValue_inj (hsmall text id hid) hlt heq]
  · intro hfree
    refine ⟨fun text htext hliteral => ?_, fun text htext href => ?_⟩
    · have hread := parseArg_type hlookup h htext
      cases hreplaced : replacement names nameToId arg text with
      | none =>
        rw [hreplaced] at hread
        exact hread
      | some k =>
        rw [hreplaced] at hread
        exact (hfree.literal text htext hliteral k hreplaced).symm.trans hread
    · obtain ⟨id, hid, hreplaced⟩ := hfree.ref text htext href
      have hread := parseArg_type hlookup h htext
      rw [hreplaced, href] at hread
      exact ⟨id, hid, (ref_showInt hread).1⟩

end NodeArgs

/-! ## The whole file -/

theorem forall₂_iff_of {α β : Type} {R S : α → β → Prop} {P : α → Prop} {xs : List α} {ys : List β}
    (h : List.Forall₂ S xs ys) (hiff : ∀ x y, S x y → (R x y ↔ P x)) :
    List.Forall₂ R xs ys ↔ ∀ x ∈ xs, P x := by
  induction h with
  | nil => exact iff_of_true .nil fun x hx => absurd hx List.not_mem_nil
  | cons hxy _ ih => rw [List.forall₂_cons, List.forall_mem_cons, hiff _ _ hxy, ih]

/-- The last object has an id of its own only if the counter has not wrapped around. -/
theorem length_of_ids {getFunc : Text → Option (InitFn r A)} {workers : ℕ} {inits : List InitJson}
    {env : InitObjects r A} {args : List ArgJson} {parsed : List (Arg r)}
    (hload : initObjects getFunc workers inits = .ok env)
    (hkept : Kept getFunc workers inits env args parsed) : inits.length ≤ 65534 := by
  rcases List.eq_nil_or_concat' inits with rfl | ⟨pre, init, rfl⟩
  · exact Nat.zero_le _
  · obtain ⟨before, hbefore, hrest⟩ := initObjects_append hload
    obtain ⟨next, hnext, -⟩ := foldlM_cons_ok hrest
    obtain ⟨values, hvalues, -⟩ := addObject_ok hnext
    obtain ⟨hid, -⟩ := hkept.ids pre init [] before values rfl
      (fun later hlater => absurd hlater List.not_mem_nil) hbefore hvalues
    rw [(initObjects_built hload).lookup, List.map_append, List.map_singleton, number_concat,
      if_pos rfl, Option.map_some, List.length_map] at hid
    have hmod := Option.some.inj hid
    have hlt : (2 + pre.length) % 2 ^ 16 < 2 ^ 16 := Nat.mod_lt _ (by decide)
    rw [List.length_append, List.length_singleton]
    omega

/-- Literals and references keep their meaning exactly where nothing is captured and the counter does
not wrap around. -/
theorem literals_kept_iff {getFunc : Text → Option (InitFn r A)} {workers : ℕ}
    {inits : List InitJson} {env : InitObjects r A} {nameToId : List (Text × ℕ)}
    {args : List ArgJson} {parsed : List (Arg r)}
    (hload : initObjects getFunc workers inits = .ok env)
    (hargs : args.mapM (parseArg env nameToId workers) = .ok parsed) :
    Kept getFunc workers inits env args parsed ↔
      Free getFunc workers nameToId inits args := by
  have hevaluated : inits.length ≤ 65534 → ∀ pre init post before n i,
      inits = pre ++ init :: post → initObjects getFunc workers pre = .ok before →
      factorOf before workers init.factor = some n → i < n → ∀ arg ∈ evaluatedArgs init,
        (ArgKept (pre.map (·.name)) before workers i arg (evalArg before workers init i arg) ↔
          ArgFree workers (pre.map (·.name)) before init i arg) := by
    rintro hfits pre init post before n i rfl hbefore hfactor hi arg harg
    obtain ⟨before', hbefore', hrest⟩ := initObjects_append hload
    obtain rfl := Except.ok.inj (hbefore.symm.trans hbefore')
    obtain ⟨next, hnext, -⟩ := foldlM_cons_ok hrest
    obtain ⟨values, hvalues, -⟩ := addObject_ok hnext
    rw [List.length_append] at hfits
    exact argKept_iff ((initObjects_built hbefore).lookup_eq (by omega) _) hvalues hfactor hi harg
  have hnodes : inits.length ≤ 65534 →
      (List.Forall₂ (NodeArgKept (inits.map (·.name))) args parsed ↔
        ∀ arg ∈ args, NodeArgFree r (inits.map (·.name)) nameToId arg) := by
    intro hfits
    refine forall₂_iff_of (mapM_eq_ok_iff.mp hargs) fun arg a ha => ?_
    refine nodeArgKept_iff ((initObjects_built hload).lookup_eq hfits) (fun text id hid => ?_) ha
    have hcases := number_cases hid
    rw [List.length_map] at hcases
    omega
  constructor
  · intro hkept
    have hfits := length_of_ids hload hkept
    refine ⟨?_, hfits, (hnodes hfits).mp hkept.nodes⟩
    intro pre init post before n i hsplit hbefore hfactor hi arg harg
    exact (hevaluated hfits pre init post before n i hsplit hbefore hfactor hi arg harg).mp
      (hkept.evaluated pre init post before n i hsplit hbefore hfactor hi arg harg)
  · intro hfree
    refine ⟨?_, ?_, (hnodes hfree.fits).mpr hfree.nodes⟩
    · intro pre init post before n i hsplit hbefore hfactor hi arg harg
      exact (hevaluated hfree.fits pre init post before n i hsplit hbefore hfactor hi arg harg).mpr
        (hfree.evaluated pre init post before n i hsplit hbefore hfactor hi arg harg)
    · rintro pre init post before values rfl hlater hbefore hvalues
      refine ⟨?_, own_object hload hbefore hvalues⟩
      rw [(initObjects_built hload).lookup_eq hfree.fits, List.map_append, List.map_cons]
      have hlater' : ∀ name ∈ post.map (·.name), name ≠ init.name :=
        List.forall_mem_map.mpr hlater
      rw [number_of_last hlater', List.length_map]

/-- An object that a function builds of another one, and a node that takes it. -/
theorem literals_kept_iff_plan :
    let getFunc : Text → Option (InitFn wholeFloats Unit) := fun _ => some List.head?
    let inits : List InitJson :=
      [⟨"size".toList, none, [⟨"usize".toList, "7".toList⟩], none⟩,
        ⟨"plan".toList, some (.number 2),
          [⟨"$ref".toList, "size".toList⟩, ⟨"usize".toList, "3".toList⟩], some "plan".toList⟩]
    let args : List ArgJson :=
      [⟨"$ref".toList, some "plan".toList, none, none⟩,
        ⟨"String".toList, some "result.txt".toList, none, none⟩]
    ∃ env parsed, initObjects getFunc 4 inits = .ok env ∧
      args.mapM (parseArg env [] 4) = .ok parsed ∧
      Free getFunc 4 [] inits args ∧ Kept getFunc 4 inits env args parsed := by
  intro getFunc inits args
  have hfree : Free getFunc 4 [] inits args := by
    refine ⟨?_, by decide, ?_⟩
    · intro pre init post before n i hsplit hbefore hfactor hi arg harg
      cases pre with
      | nil =>
        -- the size, which no function builds
        obtain ⟨rfl, -⟩ := List.cons.inj hsplit
        obtain rfl := List.mem_singleton.mp harg
        exact ⟨fun hsome => (by cases hsome), fun hsome => (by cases hsome),
          fun _ href => absurd href (by decide)⟩
      | cons size pre =>
        obtain ⟨rfl, hrest⟩ := List.cons.inj hsplit
        cases pre with
        | nil =>
          obtain ⟨rfl, -⟩ := List.cons.inj hrest
          obtain rfl := Except.ok.inj hbefore
          rcases List.mem_cons.mp harg with rfl | harg
          · exact ⟨fun _ hliteral => absurd hliteral not_isLiteral_ref, fun _ _ => ⟨_, rfl, rfl⟩,
              fun hnone => (by cases hnone)⟩
          · obtain rfl := List.mem_singleton.mp harg
            exact ⟨fun _ _ v hv => (by cases hv), fun _ href => absurd href (by decide),
              fun hnone => (by cases hnone)⟩
        | cons plan pre =>
          exact absurd (List.cons.inj hrest).2.symm (List.append_ne_nil_of_right_ne_nil pre
            (List.cons_ne_nil init post))
    · intro arg harg
      rcases List.mem_cons.mp harg with rfl | harg
      · refine ⟨fun text _ hliteral => absurd hliteral not_isLiteral_ref, fun text htext _ => ?_⟩
        obtain rfl := Option.some.inj htext
        exact ⟨3, rfl, rfl⟩
      · obtain rfl := List.mem_singleton.mp harg
        refine ⟨fun text htext _ k hk => ?_, fun _ _ href => absurd href (by decide)⟩
        obtain rfl := Option.some.inj htext
        cases hk
  exact ⟨_, _, rfl, rfl, hfree, (literals_kept_iff rfl rfl).mpr hfree⟩

/-- A text that is the name of an object becomes the number of the object. -/
theorem literal_captured :
    let getFunc : Text → Option (InitFn wholeFloats Unit) := fun _ => none
    let inits : List InitJson := [⟨"x".toList, none, [⟨"usize".toList, "7".toList⟩], none⟩]
    let args : List ArgJson := [⟨"String".toList, some "x".toList, none, none⟩]
    ∃ env parsed, initObjects getFunc 4 inits = .ok env ∧
      args.mapM (parseArg env [] 4) = .ok parsed ∧
      parsed.map (·.type) = [.string "2".toList] ∧ ¬ Kept getFunc 4 inits env args parsed := by
  refine ⟨_, _, rfl, rfl, rfl, fun hkept => ?_⟩
  obtain ⟨harg, -⟩ := List.forall₂_cons.mp hkept.nodes
  have hread := harg.literal "x".toList rfl ⟨.string, .inl rfl⟩
  injection hread with hread
  injection hread with htext
  exact absurd htext (by decide)

end Tomii.Loading
