import Tomii.Runtime.UncheckedTwins
import Tomii.Types.LiteralParsers

/-! # Bulk companions (`build_bulk_companion`, `execute_bulk_task`)

The kernel that `#[tomii_export(bulk)]` emits takes its arguments from the template once and runs
over the range by itself; the per-cell loop fills a buffer for each instance and calls the wrapper.
Both are told by the values that the exported function receives. -/
namespace Tomii
open Tomii.Exports (Ty ItemFn PrimKind classify inferCmParamKind)
open Tomii.Types (IntType)
set_option autoImplicit false
set_option maxHeartbeats 250000

variable {α : Type}

/-! ## Received values -/

/-- A parameter of the exported function as it is called. -/
inductive ParamValue (α : Type) where
  | int (type : IntType) (n : ℤ)
  /-- A truth value, a character or a float. -/
  | scalar (v : CmTypes α)
  | str (s : Text)
  | string (s : Text)
  | shared (a : α)
  | exclusive (a : α)
  | owned (a : α)
deriving DecidableEq

/-- What stands in the allocations that values hold, and how a float is cast to an integer. -/
structure Heap (α : Type) where
  wide : α → ℤ
  text : α → Text
  /-- `downcast_ref::<T>()` succeeds. -/
  isType : α → Ty → Bool
  floatAs : IntType → CmTypes α → ℤ

/-- `x as T` between integers. -/
def wrapInt (t : IntType) (n : ℤ) : ℤ :=
  if t.signed then Int.bmod n (2 ^ t.bits) else n % 2 ^ t.bits

namespace Heap

variable (heap : Heap α)

def asInt : CmTypes α → Option (IntType × ℤ)
  | .i8 v => some (.i8, v.toInt)
  | .i16 v => some (.i16, v.toInt)
  | .i32 v => some (.i32, v.toInt)
  | .i64 v => some (.i64, v.toInt)
  | .isize v => some (.isize, v.toInt)
  | .u8 v => some (.u8, v.toNat)
  | .u16 v => some (.u16, v.toNat)
  | .u32 v => some (.u32, v.toNat)
  | .u64 v => some (.u64, v.toNat)
  | .usize v => some (.usize, v.toNat)
  | .i128 a => some (.i128, heap.wide a)
  | .u128 a => some (.u128, heap.wide a)
  | _ => none

/-- `with_any`, `with_any_mut` and `with_any` with a clone. -/
def object (ty : Ty) (wrap : α → ParamValue α) : CmTypes α → Option (ParamValue α)
  | .any a => if heap.isType a ty then some (wrap a) else none
  | .anyHeld a => if heap.isType a ty then some (wrap a) else none
  | _ => none

/-- The closures of both companions. -/
def access : Exports.ParamKind → CmTypes α → Option (ParamValue α)
  | .sharedRef ty => heap.object ty .shared
  | .mutRef ty => heap.object ty .exclusive
  | .ownedNonPrim ty => heap.object ty .owned
  | _ => fun _ => none

/-! ### Through the wrapper and `f_cm` -/

/-- The wrapper takes a primitive from its own variant only. -/
def primitive (k : PrimKind) (v : CmTypes α) : Option (ParamValue α) :=
  match heap.asInt v with
  | some (t, n) => if t.name = k.rustType then some (.int t n) else none
  | none => if v.variantTag = k.variantName then some (.scalar v) else none

/-- One parameter of the per-cell call; `none` is a panic. -/
def cellArg (ty : Ty) (v : CmTypes α) : Option (ParamValue α) :=
  match inferCmParamKind ty, classify ty, v with
  | .primitive k, .passthrough, v => heap.primitive k v
  | .strRef, .passthrough, .string a => some (.str (heap.text a))
  | .ownedString, .passthrough, .string a => some (.string (heap.text a))
  | .cmTypesRef, kind, v => heap.access kind v
  | _, _, _ => none

/-- The parameters that `f` receives from a call of the wrapper. -/
def cellParams (func : ItemFn) (call : List (CmTypes α)) : Option (List (ParamValue α)) :=
  func.params.zipIdx.mapM fun p => (call[p.2]?).bind (heap.cellArg p.1.2)

/-! ### Through the bulk companion -/

/-- The integer types: the others to which not all arms of the `match` can be cast do not compile. -/
def intTypes : List IntType :=
  [.i8, .i16, .i32, .i64, .i128, .u8, .u16, .u32, .u64, .u128, .usize, .isize]

def intTypeOf : Ty → Option IntType
  | .path _ [segment] => intTypes.find? fun t => t.name = segment.ident
  | _ => none

/-- `*x as ty` over the arms of the `match`, which has none for 128 bits. -/
def cast (t : IntType) : CmTypes α → Option (ParamValue α)
  | .bool b => some (.int t (if b then 1 else 0))
  | .f32 bits => some (.int t (heap.floatAs t (.f32 bits)))
  | .f64 bits => some (.int t (heap.floatAs t (.f64 bits)))
  | .i128 _ => none
  | .u128 _ => none
  | v => (heap.asInt v).map fun p => .int t (wrapInt t p.2)

/-- One parameter taken from the template; `none` is a panic. -/
def bulkArg (ty : Ty) (v : CmTypes α) : Option (ParamValue α) :=
  match classify ty with
  | .passthrough =>
    match ty, v with
    | .reference _ _ _, .string a => some (.str (heap.text a))
    | .reference _ _ _, _ => none
    | ty, v => (intTypeOf ty).bind fun t => heap.cast t v
  | kind => heap.access kind v

end Heap

/-- `matches!(name, "idx" | "index" | "i")` -/
def isIndexParam (name : Text) : Bool :=
  name = "idx".toList || name = "index".toList || name = "i".toList

/-- The argument slot of each parameter, counted from `slot`; the loop variable has none. -/
def bulkSlots : ℕ → List (Text × Ty) → List (Ty × Option ℕ)
  | _, [] => []
  | slot, (name, ty) :: params =>
    if isIndexParam name then (ty, none) :: bulkSlots slot params
    else (ty, some slot) :: bulkSlots (slot + 1) params

namespace Heap

variable (heap : Heap α)

/-- What is taken out before the loop. -/
def hoist (args : List (CmTypes α)) : Ty × Option ℕ → Option (Option (ParamValue α))
  | (_, none) => some none
  | (ty, some slot) => ((args[slot]?).bind (heap.bulkArg ty)).map some

/-- `f_bulk_cm(start, end, args)`: the parameters of each call of `f`; `none` is a panic. -/
def bulkCompanion (func : ItemFn) (start stop : ℕ) (args : List (CmTypes α)) :
    Option (List (List (ParamValue α))) :=
  ((bulkSlots 0 func.params).mapM (heap.hoist args)).map fun hoisted =>
    (List.range' start (stop - start)).map fun inst => hoisted.map (·.getD (.int .usize inst))

end Heap

/-! ## The two ways of `execute_bulk_task` -/

namespace ArgCacheEntry

variable (entry : ArgCacheEntry α) (heap : Heap α) (func : ItemFn) (cfg : ArgConfig)

/-- The calls of `f` by the per-cell loop, and `bulk_stale`. -/
def perCellCalls (view : ℕ → TaskView α) (index bulkCount : ℕ) :
    Option (List (List (ParamValue α)) × Bool) :=
  (entry.executeBulk cfg view index bulkCount).bind fun r =>
    (r.1.mapM (heap.cellParams func)).map fun invocations => (invocations, r.2)

/-- The calls of `f` by a bulk task: the companion at once, unless results are kept. -/
def bulkTaskCalls (bulkFunc needsResultStore : Bool) (view : ℕ → TaskView α)
    (index bulkCount : ℕ) : Option (List (List (ParamValue α)) × Bool) :=
  if bulkFunc && !needsResultStore then
    (heap.bulkCompanion func index (index + bulkCount) (entry.args.map CmTypes.hold)).map
      fun invocations => (invocations, false)
  else entry.perCellCalls heap func cfg view index bulkCount

end ArgCacheEntry

/-! ## Slots by position -/

/-- The slot that the companion gives to parameter `k`. -/
def slotOf (params : List (Text × Ty)) (k : ℕ) : ℕ :=
  (params.take k).countP fun p => !isIndexParam p.1

theorem getElem?_bulkSlots (params : List (Text × Ty)) (slot k : ℕ) :
    (bulkSlots slot params)[k]? = (params[k]?).map fun p =>
      (p.2, if isIndexParam p.1 then none else some (slot + slotOf params k)) := by
  induction params generalizing slot k with
  | nil => rfl
  | cons p params ih =>
    obtain ⟨name, ty⟩ := p
    unfold bulkSlots
    cases hname : isIndexParam name with
    | true =>
      rw [if_pos rfl]
      cases k with
      | zero => simp [hname]
      | succ k =>
        rw [List.getElem?_cons_succ, List.getElem?_cons_succ, ih]
        simp [slotOf, hname]
    | false =>
      rw [if_neg Bool.false_ne_true]
      cases k with
      | zero => simp [hname, slotOf]
      | succ k =>
        rw [List.getElem?_cons_succ, List.getElem?_cons_succ, ih]
        have hshift : slot + 1 + slotOf params k = slot + slotOf ((name, ty) :: params) (k + 1) := by
          simp only [slotOf, List.take_succ_cons, List.countP_cons, hname, Bool.not_false, if_true]
          omega
        rw [hshift]

theorem length_bulkSlots (slot : ℕ) (params : List (Text × Ty)) :
    (bulkSlots slot params).length = params.length := by
  induction params generalizing slot with
  | nil => rfl
  | cons p params ih =>
    unfold bulkSlots
    split <;> rw [List.length_cons, List.length_cons, ih]

/-! ## Static arguments -/

namespace LoadedArg

variable (initObjects : List (List (CmTypes α))) (a : LoadedArg α)

def isBarrier : Bool :=
  match a.type with
  | .barrier _ => true
  | _ => false

/-- A literal or a `$ref` on an object with one value: the template holds the argument itself. -/
def isStatic : Bool := !a.isPatched initObjects && a.resSlot.isNone && !a.isBarrier

theorem placeholder_of_not_isStatic {a : LoadedArg α} (h : a.isStatic initObjects = false) :
    a.placeholder initObjects = .none := by
  obtain ⟨type, cond, pred⟩ := a
  cases type with
  | ref objId =>
    by_cases h0 : objId = 0
    · exact if_pos h0
    · by_cases h1 : objId = 1
      · simp [placeholder, h1]
      · cases hobj : initObjects[objId]? with
        | none => simp [placeholder, h0, h1, hobj]
        | some objVec =>
          rcases objVec with - | ⟨v, - | ⟨w, rest⟩⟩
          · simp [placeholder, h0, h1, hobj]
          · simp [isStatic, isPatched, rtIndex, rtWorkers, rotation, resSlot, isBarrier, h0,
              h1, hobj] at h
          · simp [placeholder, h0, h1, hobj]
  | res _ => rfl
  | dep _ => rfl
  | barrier _ => rfl
  | _ => cases h

end LoadedArg

namespace Heap

variable {heap : Heap α}

theorem bulkArg_none (ty : Ty) : heap.bulkArg ty .none = none := by
  unfold bulkArg
  cases classify ty with
  | passthrough =>
    cases ty with
    | reference l m e => rfl
    | path l segments =>
      dsimp only
      cases intTypeOf (.path l segments) with
      | none => rfl
      | some t => rfl
    | _ => rfl
  | _ => rfl

end Heap

/-! ## Rows of results -/

theorem mapM_eq_some_iff {A B : Type} {f : A → Option B} {xs : List A} {ys : List B} :
    xs.mapM f = some ys ↔ xs.map f = ys.map some := by
  induction xs generalizing ys with
  | nil => cases ys <;> simp
  | cons x xs ih =>
    simp only [List.mapM_cons, Option.bind_eq_bind, Option.bind_eq_some_iff, Option.pure_def,
      Option.some.injEq]
    cases ys with
    | nil =>
      constructor
      · rintro ⟨_, -, _, -, h⟩
        cases h
      · intro h
        cases h
    | cons y ys =>
      simp only [List.map_cons, List.cons.injEq, ← ih]
      constructor
      · rintro ⟨_, hx, _, hxs, rfl, rfl⟩
        exact ⟨hx, hxs⟩
      · rintro ⟨hx, hxs⟩
        exact ⟨_, hx, _, hxs, rfl, rfl⟩

/-- A row of results, place by place. -/
theorem mapM_eq_some_iff_getElem? {A B : Type} {f : A → Option B} {xs : List A} {ys : List B} :
    xs.mapM f = some ys ↔ ys.length = xs.length ∧ ∀ (k : ℕ) (x : A), xs[k]? = some x → ∃ y, ys[k]? = some y ∧
      f x = some y := by
  rw [mapM_eq_some_iff]
  constructor
  · intro h
    have hlen : ys.length = xs.length := by simpa using congrArg List.length h.symm
    refine ⟨hlen, fun k x hx => ?_⟩
    have hk := congrArg (·[k]?) h
    simp only [List.getElem?_map, hx, Option.map_some] at hk
    exact (Option.map_eq_some_iff.mp hk.symm).imp fun y hy => ⟨hy.1, hy.2.symm⟩
  · rintro ⟨hlen, h⟩
    apply List.ext_getElem?
    intro k
    simp only [List.getElem?_map]
    cases hx : xs[k]? with
    | none =>
      have hk : ys[k]? = none := List.getElem?_eq_none (by
        have := List.getElem?_eq_none_iff.mp hx
        omega)
      rw [hk]
      rfl
    | some x =>
      obtain ⟨y, hy, hf⟩ := h k x hx
      simp [hy, hf]

theorem exists_mapM_eq_some {A B : Type} {f : A → Option B} {xs : List A}
    (h : ∀ x ∈ xs, (f x).isSome = true) : ∃ ys, xs.mapM f = some ys := by
  induction xs with
  | nil => exact ⟨[], rfl⟩
  | cons x xs ih =>
    obtain ⟨hx, hxs⟩ := List.forall_mem_cons.mp h
    obtain ⟨y, hy⟩ := Option.isSome_iff_exists.mp hx
    obtain ⟨ys, hys⟩ := ih hxs
    exact ⟨y :: ys, by rw [List.mapM_cons, hy, hys]; rfl⟩

theorem Heap.cellParams_eq_some_iff {heap : Heap α} {func : ItemFn} {call : List (CmTypes α)}
    {ps : List (ParamValue α)} : heap.cellParams func call = some ps ↔
      ps.length = func.params.length ∧ ∀ (k : ℕ) (p : Text × Ty), func.params[k]? = some p →
        ∃ y, ps[k]? = some y ∧ (call[k]?).bind (heap.cellArg p.2) = some y := by
  rw [Heap.cellParams, mapM_eq_some_iff_getElem?, List.length_zipIdx]
  have hzip : ∀ k : ℕ, func.params.zipIdx[k]? = (func.params[k]?).map fun p => (p, k) := by
    intro k
    rw [List.getElem?_zipIdx, Nat.zero_add]
  simp only [hzip]
  constructor
  · rintro ⟨hlen, h⟩
    exact ⟨hlen, fun k p hp => h k (p, k) (by rw [hp]; rfl)⟩
  · rintro ⟨hlen, h⟩
    refine ⟨hlen, fun k q hq => ?_⟩
    obtain ⟨p, hp, rfl⟩ := Option.map_eq_some_iff.mp hq
    exact h k p hp

/-! ## What stands at a place of the loop's buffer -/

namespace ArgCacheEntry

/-- The values that the `$res` and `$dep` slots of a task find, each with its place. -/
def foundFrom (cfg : ArgConfig) (task : TaskView α) :
    List (ℕ × ResPredCache) → ℕ → List (ℕ × List (CmTypes α))
  | [], _ => []
  | (slot, rp) :: rest, arg =>
    match rp.collectResFromCache cfg task arg with
    | some (.values vs) => (slot, vs) :: foundFrom cfg task rest (arg + 1)
    | _ => foundFrom cfg task rest (arg + 1)

section Places

variable (entry : ArgCacheEntry α) (initObjects : List (List (CmTypes α)))
  (layout : List (LoadedArg α)) (cfg : ArgConfig)

/-- A place of the buffer after one more task: `$index`, `$workers` and a `$ref` on several values
put their value in their own place, results and what a `$dep` leaves are put in place of one
value each, and everything else stays. -/
def refilled (task : TaskView α) (before : ℕ → Option (CmTypes α)) : ℕ → Option (CmTypes α) :=
  standing
    (fun k =>
      match layout[k]? with
      | some a =>
        if a.isPatched initObjects then some (a.value initObjects cfg.workers task.nodeIndex)
        else before k
      | none => before k)
    (foundFrom cfg task (entry.resIndexes.zip entry.resPredecessors) 0).reverse

/-- Place `k` of the buffer for the instance `index + i`, from a buffer with `before`. -/
def placeFrom (view : ℕ → TaskView α) (before : ℕ → Option (CmTypes α)) (index : ℕ) :
    ℕ → ℕ → Option (CmTypes α)
  | 0 => entry.refilled initObjects layout cfg (view index) before
  | i + 1 => entry.refilled initObjects layout cfg (view (index + (i + 1)))
      (placeFrom view before index i)

/-- What the loop passes at place `k` to the instance `index + i`, by the arguments of the node
and the results that they find. -/
def place (view : ℕ → TaskView α) (index : ℕ) : ℕ → ℕ → Option (CmTypes α) :=
  entry.placeFrom initObjects layout cfg view (fun k => (entry.args.map CmTypes.hold)[k]?) index

/-- No wait of the instances `index .. index + count` is given up as stale. -/
def Finishes (view : ℕ → TaskView α) (index count : ℕ) : Prop :=
  ∀ i < count, ∀ (arg : ℕ) (w : ℕ × ResPredCache),
    (entry.resIndexes.zip entry.resPredecessors)[arg]? = some w →
      w.2.collectResFromCache cfg (view (index + i)) arg ≠ some .stale

end Places

variable {entry : ArgCacheEntry α} {cfg : ArgConfig}

theorem placeFrom_succ (initObjects : List (List (CmTypes α))) (layout : List (LoadedArg α))
    (view : ℕ → TaskView α) (before : ℕ → Option (CmTypes α)) (index i : ℕ) :
    entry.placeFrom initObjects layout cfg view before index (i + 1) =
      entry.placeFrom initObjects layout cfg view
        (entry.refilled initObjects layout cfg (view index) before) (index + 1) i := by
  induction i with
  | zero => rfl
  | succ i ih =>
    rw [placeFrom, ih, placeFrom]
    congr 2
    omega

/-- Filling leaves at each place what stands there after the writes of the slots. -/
theorem fillResults_standing {task : TaskView α} {rs : List (ℕ × ResPredCache)} {arg : ℕ}
    {buf buf' : List (CmTypes α)} (hlt : ∀ w ∈ rs, w.1 < buf.length)
    (h : fillResults cfg task rs arg buf = some (buf', false)) :
    buf.length ≤ buf'.length ∧ ∀ k, buf'[k]? =
      standing (fun k => buf[k]?) (foundFrom cfg task rs arg).reverse k := by
  induction rs generalizing arg buf with
  | nil =>
    obtain ⟨rfl, -⟩ := Prod.mk.inj (Option.some.inj h)
    exact ⟨le_rfl, fun k => rfl⟩
  | cons w rest ih =>
    obtain ⟨slot, rp⟩ := w
    rw [List.forall_mem_cons] at hlt
    have hslot : slot < buf.length := hlt.1
    -- one write, then the others on the buffer it leaves
    have hwrite : ∀ vs, rp.collectResFromCache cfg task arg = some (.values vs) →
        fillResults cfg task rest (arg + 1) (splice buf slot vs) = some (buf', false) →
        buf.length ≤ buf'.length ∧ ∀ k, buf'[k]? =
          standing (fun k => buf[k]?) (foundFrom cfg task ((slot, rp) :: rest) arg).reverse k := by
      intro vs hres hrest
      have hpos : 0 < vs.length := by
        rw [ResPredCache.length_collect hres]
        cases hs : rp.isSingle with
        | true => exact Nat.one_pos
        | false => exact lt_of_lt_of_le Nat.two_pos (ResPredCache.two_le_of_not_isSingle hs)
      have hlen := length_splice hslot vs
      obtain ⟨hgrow, hstand⟩ := ih (fun v hv => by have := hlt.2 v hv; omega) hrest
      refine ⟨by omega, fun k => ?_⟩
      rw [hstand k, foundFrom, hres]
      dsimp only
      rw [List.reverse_cons, standing_append]
      congr 1
      funext k
      exact getElem?_splice hslot vs k
    cases fillResults_cons h with
    | stale hstale => cases hstale
    | missing hres hrest =>
      obtain ⟨hgrow, hstand⟩ := ih hlt.2 hrest
      refine ⟨hgrow, fun k => ?_⟩
      rw [hstand k, foundFrom, hres]
    | single v hres hrest =>
      rw [← splice_singleton hslot] at hrest
      exact hwrite [v] hres hrest
    | many vs hvs hres hrest => exact hwrite vs hres hrest

/-- A slot gives up if and only if the fill does. -/
theorem fillResults_stale {task : TaskView α} {rs : List (ℕ × ResPredCache)} {arg : ℕ}
    {buf buf' : List (CmTypes α)} (h : fillResults cfg task rs arg buf = some (buf', true)) :
    ∃ (i : ℕ) (w : ℕ × ResPredCache), rs[i]? = some w ∧
      w.2.collectResFromCache cfg task (arg + i) = some .stale := by
  induction rs generalizing arg buf with
  | nil => cases h
  | cons v rest ih =>
    have hlater : ∀ buf, fillResults cfg task rest (arg + 1) buf = some (buf', true) →
        ∃ (i : ℕ) (w : ℕ × ResPredCache), (v :: rest)[i]? = some w ∧
          w.2.collectResFromCache cfg task (arg + i) = some .stale := by
      intro buf hrest
      obtain ⟨i, w, hw, hres⟩ := ih hrest
      refine ⟨i + 1, w, hw, ?_⟩
      rwa [Nat.add_right_comm, Nat.add_assoc] at hres
    cases fillResults_cons h with
    | stale _ _ hres => exact ⟨0, v, rfl, hres⟩
    | missing _ hrest => exact hlater _ hrest
    | single _ _ hrest => exact hlater _ hrest
    | many _ _ _ hrest => exact hlater _ hrest

end ArgCacheEntry

namespace Laid

variable {initObjects : List (List (CmTypes α))} {layout : List (LoadedArg α)}
  {preds : LoadedArg α → Option ResPredCache} {entry : ArgCacheEntry α} {cfg : ArgConfig}

/-- One instance of the loop, place by place. -/
theorem populate_refilled (h : Laid initObjects layout preds entry) {task : TaskView α}
    {buf buf' : List (CmTypes α)} (hlen : layout.length ≤ buf.length)
    (hfill : entry.populateDynamicArgsInto cfg task buf = some (buf', false)) :
    layout.length ≤ buf'.length ∧
      (fun k => buf'[k]?) = entry.refilled initObjects layout cfg task fun k => buf[k]? := by
  have hlt : ∀ w ∈ entry.resIndexes.zip entry.resPredecessors,
      w.1 < (entry.patchRefs cfg task.nodeIndex buf).length := by
    intro w hw
    rw [h.results] at hw
    rw [length_patchRefs]
    exact lt_of_lt_of_le (lt_of_mem_slotsOf hw) hlen
  obtain ⟨hgrow, hstand⟩ := ArgCacheEntry.fillResults_standing hlt hfill
  rw [length_patchRefs] at hgrow
  refine ⟨hlen.trans hgrow, funext fun k => ?_⟩
  rw [hstand k, ArgCacheEntry.refilled]
  congr 1
  funext k
  cases ha : layout[k]? with
  | none => exact h.getElem?_patchRefs_of_le cfg _ buf (List.getElem?_eq_none_iff.mp ha)
  | some a =>
    have hk : k < buf.length := lt_of_lt_of_le (List.getElem?_eq_some_iff.mp ha).1 hlen
    exact h.getElem?_patchRefs cfg _ hk ha

/-- The calls of the loop, place by place, and whether it is given up. -/
theorem bulkCalls_places (h : Laid initObjects layout preds entry) {view : ℕ → TaskView α}
    {inst count : ℕ} {buf : List (CmTypes α)} (hlen : layout.length ≤ buf.length)
    {calls : List (List (CmTypes α))} {stale : Bool}
    (hcalls : entry.bulkCalls cfg view inst count buf = some (calls, stale)) :
    (stale = false ↔ entry.Finishes cfg view inst count) ∧
      ∀ (i : ℕ) (call : List (CmTypes α)), calls[i]? = some call → ∀ k, call[k]? =
        entry.placeFrom initObjects layout cfg view (fun k => buf[k]?) inst i k := by
  induction count generalizing inst buf calls with
  | zero =>
    obtain ⟨rfl, rfl⟩ := Prod.mk.inj (Option.some.inj hcalls)
    exact ⟨iff_of_true rfl fun i hi => absurd hi (Nat.not_lt_zero i), fun i call hcall => by cases hcall⟩
  | succ count ih =>
    rw [ArgCacheEntry.bulkCalls_succ] at hcalls
    split at hcalls
    · cases hcalls
    · next hfill =>
      obtain ⟨rfl, rfl⟩ := Prod.mk.inj (Option.some.inj hcalls)
      obtain ⟨arg, w, hw, hres⟩ := ArgCacheEntry.fillResults_stale hfill
      rw [Nat.zero_add] at hres
      refine ⟨iff_of_false (by decide) fun hfin => ?_, fun i call hcall => by cases hcall⟩
      exact hfin 0 (Nat.succ_pos count) arg w hw hres
    · next buf' hfill =>
      obtain ⟨⟨rest, stale'⟩, hrest, heq⟩ := Option.map_eq_some_iff.mp hcalls
      obtain ⟨rfl, rfl⟩ := Prod.mk.inj heq
      obtain ⟨hlen', hfilled⟩ := h.populate_refilled hlen hfill
      obtain ⟨hstale, hplaces⟩ := ih hlen' hrest
      refine ⟨hstale.trans ⟨fun hfin i hi => ?_, fun hfin i hi => ?_⟩, fun i call hcall => ?_⟩
      · cases i with
        | zero =>
          intro arg w hw hres
          obtain ⟨res, hout, hne⟩ := ArgCacheEntry.fillResults_outcome hfill hw
          rw [Nat.zero_add] at hout
          rw [Nat.add_zero, hout] at hres
          exact hne (Option.some.inj hres)
        | succ i =>
          have hlater := hfin i (Nat.lt_of_succ_lt_succ hi)
          rwa [show inst + 1 + i = inst + (i + 1) by omega] at hlater
      · have hlater := hfin (i + 1) (Nat.succ_lt_succ hi)
        rwa [show inst + (i + 1) = inst + 1 + i by omega] at hlater
      · cases i with
        | zero =>
          obtain rfl := Option.some.inj hcall
          exact fun k => congrFun hfilled k
        | succ i =>
          rw [ArgCacheEntry.placeFrom_succ, ← hfilled]
          exact hplaces i call hcall

end Laid

/-! ## The companion against the loop -/

namespace ArgCacheEntry

variable {entry : ArgCacheEntry α} {cfg : ArgConfig}

/-- The loop is given up before its end or makes a call for each instance. -/
theorem length_bulkCalls {view : ℕ → TaskView α} {inst count : ℕ} {buf : List (CmTypes α)}
    {calls : List (List (CmTypes α))} {stale : Bool}
    (h : entry.bulkCalls cfg view inst count buf = some (calls, stale)) :
    if stale then calls.length < count else calls.length = count := by
  induction count generalizing inst buf calls with
  | zero =>
    obtain ⟨rfl, rfl⟩ := Prod.mk.inj (Option.some.inj h)
    rfl
  | succ count ih =>
    rw [bulkCalls_succ] at h
    split at h
    · cases h
    · obtain ⟨rfl, rfl⟩ := Prod.mk.inj (Option.some.inj h)
      exact Nat.succ_pos count
    · obtain ⟨⟨rest, stale'⟩, hrest, heq⟩ := Option.map_eq_some_iff.mp h
      obtain ⟨rfl, rfl⟩ := Prod.mk.inj heq
      have hlen := ih hrest
      cases stale' <;> simp only [List.length_cons] <;> simpa using hlen

end ArgCacheEntry

/-- Each parameter with the name of an index finds its instance at its place, and each other has
in its slot a static argument that is cast to what every instance finds at its place. -/
def Hoistable (heap : Heap α) (initObjects : List (List (CmTypes α))) (layout : List (LoadedArg α))
    (func : ItemFn) (index count : ℕ) (place : ℕ → ℕ → Option (CmTypes α)) : Prop :=
  ∀ (k : ℕ) (name : Text) (ty : Ty), func.params[k]? = some (name, ty) →
    (isIndexParam name = true → ∀ i < count,
      (place i k).bind (heap.cellArg ty) = some (.int .usize ((index + i : ℕ) : ℤ))) ∧
    (isIndexParam name = false → ∃ a x, layout[slotOf func.params k]? = some a ∧
      a.isStatic initObjects = true ∧
      heap.bulkArg ty (a.placeholder initObjects).hold = some x ∧
      ∀ i < count, (place i k).bind (heap.cellArg ty) = some x)

namespace Laid

variable {initObjects : List (List (CmTypes α))} {layout : List (LoadedArg α)}
  {preds : LoadedArg α → Option ResPredCache} {entry : ArgCacheEntry α} {cfg : ArgConfig}
  {heap : Heap α} {func : ItemFn}

/-- A value can be taken from the template only where a static argument stands. -/
theorem hoist_eq_some_iff (h : Laid initObjects layout preds entry) (ty : Ty) (m : ℕ)
    {x : ParamValue α} : ((entry.args.map CmTypes.hold)[m]?).bind (heap.bulkArg ty) = some x ↔
      ∃ a, layout[m]? = some a ∧ a.isStatic initObjects = true ∧
        heap.bulkArg ty (a.placeholder initObjects).hold = some x := by
  obtain ⟨more, hargs⟩ := h.args
  rw [hargs, List.map_append, List.map_map, List.map_replicate]
  cases ha : layout[m]? with
  | none =>
    have hlen := List.getElem?_eq_none_iff.mp ha
    have hempty : ((layout.map (CmTypes.hold ∘ (·.placeholder initObjects)) ++
        List.replicate more (CmTypes.hold .none))[m]?).bind (heap.bulkArg ty) = none := by
      rw [List.getElem?_append_right (by simpa using hlen), List.getElem?_replicate]
      split
      · exact Heap.bulkArg_none ty
      · rfl
    rw [hempty]
    constructor
    · intro hbad
      cases hbad
    · rintro ⟨a, hbad, -⟩
      cases hbad
  | some a =>
    have hlt := (List.getElem?_eq_some_iff.mp ha).1
    rw [List.getElem?_append_left (by simpa using hlt), List.getElem?_map, ha]
    constructor
    · intro hx
      refine ⟨a, rfl, ?_, hx⟩
      by_contra hdynamic
      have hnone := LoadedArg.placeholder_of_not_isStatic initObjects
        (Bool.eq_false_of_not_eq_true hdynamic)
      simp only [Option.map_some, Option.bind_some, Function.comp_apply, hnone] at hx
      cases (Heap.bulkArg_none ty).symm.trans hx
    · rintro ⟨_, hsome, -, hx⟩
      obtain rfl := Option.some.inj hsome
      exact hx

theorem bulkCompanion_eq_iff (h : Laid initObjects layout preds entry) {view : ℕ → TaskView α}
    {index bulkCount : ℕ} {calls : List (List (CmTypes α))} {stale : Bool}
    {invocations : List (List (ParamValue α))}
    (hcalls : entry.executeBulk cfg view index bulkCount = some (calls, stale))
    (hinvocations : calls.mapM (heap.cellParams func) = some invocations) :
    heap.bulkCompanion func index (index + bulkCount) (entry.args.map CmTypes.hold) =
        some invocations ↔
      entry.Finishes cfg view index bulkCount ∧
        Hoistable heap initObjects layout func index bulkCount
          (entry.place initObjects layout cfg view index) := by
  have hlength := ArgCacheEntry.length_bulkCalls hcalls
  obtain ⟨hrows, hcells⟩ := mapM_eq_some_iff_getElem?.mp hinvocations
  have hrange : index + bulkCount - index = bulkCount := by omega
  obtain ⟨hfinishes, hplaces⟩ := h.bulkCalls_places (by
    rw [List.length_map]
    exact h.length_layout_le) hcalls
  have hplace : ∀ (i k : ℕ) (call : List (CmTypes α)), calls[i]? = some call →
      entry.place initObjects layout cfg view index i k = call[k]? :=
    fun i k call hcall => (hplaces i call hcall k).symm
  unfold Heap.bulkCompanion
  rw [hrange, ← hfinishes]
  constructor
  · intro hbulk
    obtain ⟨hoisted, hhoist, rfl⟩ := Option.map_eq_some_iff.mp hbulk
    obtain ⟨-, hslots⟩ := mapM_eq_some_iff_getElem?.mp hhoist
    have hstale : stale = false := by
      cases stale with
      | false => rfl
      | true =>
        rw [if_pos rfl] at hlength
        simp only [List.length_map, List.length_range'] at hrows
        omega
    rw [hstale, if_neg Bool.false_ne_true] at hlength
    -- what a call of the loop passes at a place of the hoisted row
    have hpassed : ∀ (i k : ℕ) (call : List (CmTypes α)) (name : Text) (ty : Ty)
        (y : Option (ParamValue α)), calls[i]? = some call → func.params[k]? = some (name, ty) →
        hoisted[k]? = some y → (call[k]?).bind (heap.cellArg ty) =
          some (y.getD (.int .usize ((index + i : ℕ) : ℤ))) := by
      intro i k call name ty y hcall hparam hy
      obtain ⟨ps, hps, hcell⟩ := hcells i call hcall
      obtain ⟨-, hparams⟩ := Heap.cellParams_eq_some_iff.mp hcell
      obtain ⟨z, hz, hbind⟩ := hparams k (name, ty) hparam
      have hi : i < bulkCount := hlength ▸ (List.getElem?_eq_some_iff.mp hcall).1
      rw [List.getElem?_map, List.getElem?_range' hi, Nat.one_mul] at hps
      obtain rfl := Option.some.inj hps
      rw [List.getElem?_map, hy, Option.map_some] at hz
      rw [hbind, ← hz]
    have hmade : ∀ i < bulkCount, ∃ call, calls[i]? = some call :=
      fun i hi => ⟨_, List.getElem?_eq_getElem (by omega)⟩
    refine ⟨hstale, fun k name ty hparam => ⟨fun hname i hi => ?_, fun hname => ?_⟩⟩
    · have hslot : (bulkSlots 0 func.params)[k]? = some (ty, none) := by
        rw [getElem?_bulkSlots, hparam, Option.map_some, if_pos hname]
      obtain ⟨y, hy, heq⟩ := hslots k _ hslot
      obtain rfl := Option.some.inj heq
      obtain ⟨call, hcall⟩ := hmade i hi
      rw [hplace i k call hcall]
      exact hpassed i k call name ty _ hcall hparam hy
    · have hslot : (bulkSlots 0 func.params)[k]? = some (ty, some (slotOf func.params k)) := by
        rw [getElem?_bulkSlots, hparam, Option.map_some, hname, if_neg Bool.false_ne_true,
          Nat.zero_add]
      obtain ⟨y, hy, heq⟩ := hslots k _ hslot
      obtain ⟨x, hx, rfl⟩ := Option.map_eq_some_iff.mp heq
      obtain ⟨a, ha, hstatic, harg⟩ := (h.hoist_eq_some_iff ty _).mp hx
      refine ⟨a, x, ha, hstatic, harg, fun i hi => ?_⟩
      obtain ⟨call, hcall⟩ := hmade i hi
      rw [hplace i k call hcall]
      exact hpassed i k call name ty _ hcall hparam hy
  · rintro ⟨hstale, hhoistable⟩
    rw [hstale, if_neg Bool.false_ne_true] at hlength
    have hsome : ∀ s ∈ bulkSlots 0 func.params,
        (heap.hoist (entry.args.map CmTypes.hold) s).isSome = true := by
      intro s hs
      obtain ⟨k, hk⟩ := List.mem_iff_getElem?.mp hs
      rw [getElem?_bulkSlots, Nat.zero_add] at hk
      obtain ⟨⟨name, ty⟩, hparam, rfl⟩ := Option.map_eq_some_iff.mp hk
      cases hname : isIndexParam name with
      | true => rfl
      | false =>
        obtain ⟨a, x, ha, hstatic, harg, -⟩ := (hhoistable k name ty hparam).2 hname
        have hx := (h.hoist_eq_some_iff ty _).mpr ⟨a, ha, hstatic, harg⟩
        simp only [Bool.false_eq_true, if_false, Heap.hoist, hx]
        rfl
    obtain ⟨hoisted, hhoist⟩ := exists_mapM_eq_some hsome
    obtain ⟨hwidth, hslots⟩ := mapM_eq_some_iff_getElem?.mp hhoist
    rw [length_bulkSlots] at hwidth
    rw [hhoist, Option.map_some, Option.some.injEq]
    apply List.ext_getElem?
    intro i
    cases hcall : calls[i]? with
    | none =>
      have hout := List.getElem?_eq_none_iff.mp hcall
      rw [List.getElem?_eq_none (by simpa [hlength] using hout),
        List.getElem?_eq_none (by omega)]
    | some call =>
      obtain ⟨ps, hps, hcell⟩ := hcells i call hcall
      obtain ⟨hcount, hparams⟩ := Heap.cellParams_eq_some_iff.mp hcell
      have hi : i < bulkCount := hlength ▸ (List.getElem?_eq_some_iff.mp hcall).1
      rw [hps, List.getElem?_map, List.getElem?_range' hi, Nat.one_mul, Option.map_some,
        Option.some.injEq]
      apply List.ext_getElem?
      intro k
      cases hparam : func.params[k]? with
      | none =>
        have hout := List.getElem?_eq_none_iff.mp hparam
        rw [List.getElem?_eq_none (by simpa [hwidth] using hout),
          List.getElem?_eq_none (by omega)]
      | some p =>
        obtain ⟨name, ty⟩ := p
        obtain ⟨z, hz, hbind⟩ := hparams k (name, ty) hparam
        have hslot := getElem?_bulkSlots func.params 0 k
        rw [hparam, Option.map_some, Nat.zero_add] at hslot
        obtain ⟨y, hy, heq⟩ := hslots k _ hslot
        rw [hz, List.getElem?_map, hy, Option.map_some]
        obtain ⟨hindex, hother⟩ := hhoistable k name ty hparam
        cases hname : isIndexParam name with
        | true =>
          rw [hname, if_pos rfl] at heq
          obtain rfl := Option.some.inj heq
          rw [← hplace i k call hcall] at hbind
          exact (hindex hname i hi).symm.trans hbind
        | false =>
          obtain ⟨a, x, ha, hstatic, harg, hall⟩ := hother hname
          have hx := (h.hoist_eq_some_iff ty _).mpr ⟨a, ha, hstatic, harg⟩
          rw [hname, if_neg Bool.false_ne_true, Heap.hoist, hx] at heq
          obtain rfl := Option.some.inj heq
          rw [← hplace i k call hcall] at hbind
          exact (hall i hi).symm.trans hbind

end Laid

/-- For every exported function, every node that calls it by its bulk kernel and keeps no result, and
every range on which the per-cell loop does not panic, the bulk task calls the function as the loop
does if and only if no wait of the range is given up and the arguments are hoistable. -/
theorem bulkTaskCalls_eq_iff (heap : Heap α) (func : ItemFn) (initObjects : List (List (CmTypes α)))
    (nodes : List (LoadedNode α)) (node : LoadedNode α) (cfg : ArgConfig) {entry : ArgCacheEntry α}
    (hmain : mainArgCache initObjects nodes node = some entry) {bulkFunc needsResultStore : Bool}
    (hfast : (bulkFunc && !needsResultStore) = true) (view : ℕ → TaskView α)
    (index bulkCount : ℕ)
    (hruns : (entry.perCellCalls heap func cfg view index bulkCount).isSome = true) :
    entry.bulkTaskCalls heap func cfg bulkFunc needsResultStore view index bulkCount =
        entry.perCellCalls heap func cfg view index bulkCount ↔
      entry.Finishes cfg view index bulkCount ∧
        Hoistable heap initObjects (argLayout true node.args) func index bulkCount
          (entry.place initObjects (argLayout true node.args) cfg view index) := by
  have h : Laid initObjects (argLayout true node.args) (resPred nodes node) entry :=
    laid_argCacheOf hmain
  obtain ⟨⟨invocations, stale⟩, hloop⟩ := Option.isSome_iff_exists.mp hruns
  obtain ⟨⟨calls, stale'⟩, hcalls, hinvoked⟩ := Option.bind_eq_some_iff.mp hloop
  obtain ⟨invocations', hinvocations, heq⟩ := Option.map_eq_some_iff.mp hinvoked
  obtain ⟨rfl, rfl⟩ := Prod.mk.inj heq
  have hcompanion := @Laid.bulkCompanion_eq_iff _ _ _ _ _ cfg heap func h view index bulkCount
    calls stale' invocations' hcalls hinvocations
  have hfinishes := (h.bulkCalls_places (by
    rw [List.length_map]
    exact h.length_layout_le) hcalls).1
  rw [hloop, ArgCacheEntry.bulkTaskCalls, if_pos hfast, Option.map_eq_some_iff, ← hcompanion]
  constructor
  · rintro ⟨_, hbulk, hsame⟩
    obtain ⟨rfl, -⟩ := Prod.mk.inj hsame
    exact hbulk
  · intro hbulk
    refine ⟨invocations', hbulk, ?_⟩
    rw [hfinishes.mpr (hcompanion.mp hbulk).1]

/-! ## Places in front of the results -/

namespace Laid

variable {initObjects : List (List (CmTypes α))} {layout : List (LoadedArg α)}
  {preds : LoadedArg α → Option ResPredCache} {entry : ArgCacheEntry α} {cfg : ArgConfig}

theorem foundFrom_places {task : TaskView α} {rs : List (ℕ × ResPredCache)} {arg : ℕ}
    {w : ℕ × List (CmTypes α)} (hw : w ∈ ArgCacheEntry.foundFrom cfg task rs arg) :
    ∃ v ∈ rs, v.1 = w.1 := by
  induction rs generalizing arg with
  | nil => cases hw
  | cons v rest ih =>
    have hlater : w ∈ ArgCacheEntry.foundFrom cfg task rest (arg + 1) →
        ∃ u ∈ v :: rest, u.1 = w.1 := by
      intro hmem
      obtain ⟨u, hu, heq⟩ := ih hmem
      exact ⟨u, List.mem_cons_of_mem _ hu, heq⟩
    rw [ArgCacheEntry.foundFrom] at hw
    split at hw
    · rcases List.mem_cons.mp hw with rfl | hmem
      · exact ⟨v, List.mem_cons_self, rfl⟩
      · exact hlater hmem
    · exact hlater hw

/-- In front of the results the loop passes what the argument of the place has for the instance. -/
theorem place_of_lt (h : Laid initObjects layout preds entry) {view : ℕ → TaskView α}
    (index i : ℕ) {k : ℕ} {a : LoadedArg α} (ha : layout[k]? = some a)
    (hk : ∀ w ∈ entry.resIndexes.zip entry.resPredecessors, k < w.1) :
    entry.place initObjects layout cfg view index i k =
      if a.isPatched initObjects then
        some (a.value initObjects cfg.workers (view (index + i)).nodeIndex)
      else some (a.placeholder initObjects).hold := by
  have hrefilled : ∀ (task : TaskView α) (before : ℕ → Option (CmTypes α)),
      entry.refilled initObjects layout cfg task before k =
        if a.isPatched initObjects then some (a.value initObjects cfg.workers task.nodeIndex)
        else before k := by
    intro task before
    rw [ArgCacheEntry.refilled, standing_of_lt]
    · simp only [ha]
    · intro w hw
      obtain ⟨v, hv, heq⟩ := foundFrom_places (List.mem_reverse.mp hw)
      rw [← heq]
      exact hk v hv
  have htemplate : (entry.args.map CmTypes.hold)[k]? = some (a.placeholder initObjects).hold := by
    obtain ⟨more, hargs⟩ := h.args
    have hlt := (List.getElem?_eq_some_iff.mp ha).1
    rw [hargs, List.map_append, List.getElem?_append_left (by simpa using hlt), List.getElem?_map,
      List.getElem?_map, ha]
    rfl
  unfold ArgCacheEntry.place
  induction i with
  | zero => rw [ArgCacheEntry.placeFrom, hrefilled, htemplate, Nat.add_zero]
  | succ i ih =>
    rw [ArgCacheEntry.placeFrom, hrefilled, ih]
    split
    · rfl
    · rfl

/-- A node whose parameters stand in front of its results and in their own slots, the index on
`$index`, is hoistable. -/
theorem hoistable_of_own_slots (h : Laid initObjects layout preds entry) {heap : Heap α}
    {func : ItemFn} {view : ℕ → TaskView α} (hview : ∀ j, (view j).nodeIndex = j)
    {index bulkCount : ℕ} (hrange : index + bulkCount ≤ 2 ^ 64)
    (hresults : ∀ k < func.params.length, ∀ w ∈ entry.resIndexes.zip entry.resPredecessors, k < w.1)
    (hindex : ∀ (k : ℕ) (name : Text) (ty : Ty), func.params[k]? = some (name, ty) →
      isIndexParam name = true → ty = .bare "usize".toList ∧
        ∃ a, layout[k]? = some a ∧ a.rtIndex.isSome = true)
    (hother : ∀ (k : ℕ) (name : Text) (ty : Ty), func.params[k]? = some (name, ty) →
      isIndexParam name = false → slotOf func.params k = k ∧
        ∃ a x, layout[k]? = some a ∧ a.isStatic initObjects = true ∧
          heap.cellArg ty (a.placeholder initObjects).hold = some x ∧
          heap.bulkArg ty (a.placeholder initObjects).hold = some x) :
    Hoistable heap initObjects layout func index bulkCount
      (entry.place initObjects layout cfg view index) := by
  intro k name ty hparam
  have hfront := hresults k (List.getElem?_eq_some_iff.mp hparam).1
  constructor
  · intro hname i hi
    obtain ⟨rfl, a, ha, hrt⟩ := hindex k name ty hparam hname
    have hlt : index + i < 2 ^ 64 := by omega
    have hpatched : a.isPatched initObjects = true := by simp [LoadedArg.isPatched, hrt]
    rw [h.place_of_lt index i ha hfront, if_pos hpatched, LoadedArg.value_of_rtIndex _ hrt, hview]
    have hvalue : heap.cellArg (.bare "usize".toList) (.usize (UInt64.ofNat (index + i))) =
        some (.int .usize (((UInt64.ofNat (index + i)).toNat : ℕ) : ℤ)) := rfl
    rw [Option.bind_some, hvalue, UInt64.toNat_ofNat_of_lt' hlt]
  · intro hname
    obtain ⟨hown, a, x, ha, hstatic, hcell, hbulk⟩ := hother k name ty hparam hname
    refine ⟨a, x, by rw [hown]; exact ha, hstatic, hbulk, fun i hi => ?_⟩
    have hplain : ¬ a.isPatched initObjects = true := by
      intro hbad
      simp [LoadedArg.isStatic, hbad] at hstatic
    rw [h.place_of_lt index i ha hfront, if_neg hplain, Option.bind_some, hcell]

end Laid

/-! ## The index first or last -/

def usizeParam (name : Text) : Exports.FnArg := .typed (.ident name) (.bare "usize".toList)

/-- `fn shift(idx: usize, by: usize)` -/
def shiftFn : ItemFn :=
  ⟨[], "shift".toList, [usizeParam "idx".toList, usizeParam "by".toList], .default⟩

/-- `fn scale(by: usize, idx: usize)` -/
def scaleFn : ItemFn :=
  ⟨[], "scale".toList, [usizeParam "by".toList, usizeParam "idx".toList], .default⟩

def literalFive : LoadedArg ℕ := ⟨.usize 5, false, none⟩

def indexRef : LoadedArg ℕ := ⟨.ref 0, false, none⟩

def shiftNode : LoadedNode ℕ := ⟨"shift", 0, "shift", [indexRef, literalFive], none, 2, none⟩

def scaleNode : LoadedNode ℕ := ⟨"scale", 0, "scale", [literalFive, indexRef], none, 2, none⟩

def shiftCache : ArgCacheEntry ℕ := ⟨[.none, .usize 5], [], [], [0], [], [], []⟩

def scaleCache : ArgCacheEntry ℕ := ⟨[.usize 5, .none], [], [], [1], [], [], []⟩

def plainHeap : Heap ℕ := ⟨fun _ => 0, fun _ => [], fun _ _ => false, fun _ _ => 0⟩

def noResults : ℕ → TaskView ℕ := storedView (fun _ => none) 0 0

theorem hoistable_scale : Hoistable plainHeap [] (argLayout true scaleNode.args) scaleFn 0 2
    (scaleCache.place [] (argLayout true scaleNode.args) plainConfig noResults 0) := by
  have h : Laid [] (argLayout true scaleNode.args) (resPred [scaleNode] scaleNode) scaleCache :=
    laid_argCacheOf rfl
  refine h.hoistable_of_own_slots (fun _ => rfl) (by decide) (fun k _ w hw => by cases hw) ?_ ?_
  · intro k name ty hparam hname
    match k with
    | 0 =>
      obtain ⟨rfl, rfl⟩ := Prod.mk.inj (Option.some.inj hparam)
      exact absurd hname (by decide)
    | 1 =>
      obtain ⟨rfl, rfl⟩ := Prod.mk.inj (Option.some.inj hparam)
      exact ⟨rfl, indexRef, rfl, rfl⟩
    | _ + 2 => cases hparam
  · intro k name ty hparam hname
    match k with
    | 0 =>
      obtain ⟨rfl, rfl⟩ := Prod.mk.inj (Option.some.inj hparam)
      exact ⟨rfl, literalFive, .int .usize 5, rfl, rfl, by decide +kernel, by decide +kernel⟩
    | 1 =>
      obtain ⟨rfl, rfl⟩ := Prod.mk.inj (Option.some.inj hparam)
      exact absurd hname (by decide)
    | _ + 2 => cases hparam

theorem scale_bulkTaskCalls :
    scaleCache.bulkTaskCalls plainHeap scaleFn plainConfig true false noResults 0 2 =
      scaleCache.perCellCalls plainHeap scaleFn plainConfig noResults 0 2 :=
  (@bulkTaskCalls_eq_iff ℕ plainHeap scaleFn [] [scaleNode] scaleNode plainConfig scaleCache rfl
    true false rfl noResults 0 2 (by decide +kernel)).mpr
    ⟨fun _ _ _ _ hw => (by cases hw), hoistable_scale⟩

/-- With the index first the companion reads `by` from the empty slot of the index. -/
theorem shift_bulkTaskCalls :
    mainArgCache [] [shiftNode] shiftNode = some shiftCache ∧
      shiftCache.perCellCalls plainHeap shiftFn plainConfig noResults 0 2 =
        some ([[.int .usize 0, .int .usize 5], [.int .usize 1, .int .usize 5]], false) ∧
      shiftCache.bulkTaskCalls plainHeap shiftFn plainConfig true false noResults 0 2 = none := by
  refine ⟨rfl, by decide +kernel, by decide +kernel⟩

end Tomii
