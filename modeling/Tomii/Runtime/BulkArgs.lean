import Tomii.Runtime.ArgTemplates
import Tomii.Runtime.ArgPositions
import Mathlib.Algebra.Order.BigOperators.Group.List

/-! # Arguments of bulk tasks (`execute_bulk_task`)

One buffer serves all instances of a bulk task. Its calls against those of the single tasks that
it stands for. -/
namespace Tomii
set_option autoImplicit false
set_option maxHeartbeats 250000

variable {α : Type}

namespace CmTypes

/-- The upgrade of the bulk prologue. -/
def hold : CmTypes α → CmTypes α
  | .any a => .anyHeld a
  | v => v

/-- The value without its guard. -/
def unheld : CmTypes α → CmTypes α
  | .anyHeld a => .any a
  | v => v

@[simp] theorem unheld_hold (v : CmTypes α) : v.hold.unheld = v.unheld := by
  cases v <;> rfl

end CmTypes

/-- A task of instance `j` that finds what is stored. -/
def storedView (stored : ResultCell → Option (CmTypes α)) (slot : ℕ) (gen : UInt32) (j : ℕ) :
    TaskView α where
  nodeIndex := j
  slot := slot
  predIndex := j
  execGen := some gen
  looks _ _ cell := ⟨stored cell, []⟩

namespace ArgCacheEntry

variable (entry : ArgCacheEntry α) (cfg : ArgConfig)

/-- The per-cell loop: the buffers of the calls of `func`, and `bulk_stale`. -/
def bulkCalls (view : ℕ → TaskView α) :
    ℕ → ℕ → List (CmTypes α) → Option (List (List (CmTypes α)) × Bool)
  | _, 0, _ => some ([], false)
  | instIdx, count + 1, buf =>
    match if entry.hasDynamic then entry.populateDynamicArgsInto cfg (view instIdx) buf
      else some (buf, false) with
    | none => none
    | some (_, true) => some ([], true)
    | some (buf, false) =>
      (bulkCalls view (instIdx + 1) count buf).map fun r => (buf :: r.1, r.2)

/-- `execute_bulk_task` on the range of `bulkCount` instances from `index`. -/
def executeBulk (view : ℕ → TaskView α) (index bulkCount : ℕ) :
    Option (List (List (CmTypes α)) × Bool) :=
  entry.bulkCalls cfg view index bulkCount (entry.args.map CmTypes.hold)

/-- The call of `execute_single_task`: with the thread's template, whatever tasks it has seen, or
with a fresh buffer. -/
inductive SingleCall (templateStable : Bool) (task : TaskView α) (call : List (CmTypes α)) : Prop
  | template (hstable : templateStable = true) (tasks : List (TaskView α))
      (template : List (CmTypes α)) (hrun : entry.TemplateRun cfg entry.args tasks template)
      (hfill : entry.populateDynamicArgsInto cfg task template = some (call, false)) :
      SingleCall templateStable task call
  | buffer (hstable : templateStable = false)
      (hfill : entry.populateCachedArgsInto cfg task [] = some (call, false)) :
      SingleCall templateStable task call

/-- All results that the instances of the range read are stored. -/
def AllStored (stored : ResultCell → Option (CmTypes α)) (slot index bulkCount : ℕ) : Prop :=
  ∀ j, index ≤ j → j < index + bulkCount → ∀ rp ∈ entry.resPredecessors, rp.isDep = false →
    ∃ cells, rp.depIndexes cfg j j = some cells ∧
      ∀ cell ∈ cells, (stored ⟨slot, rp.resNodeId, cell⟩).isSome = true

/-- The bulk task makes the calls of the single ones, up to held guards. -/
def SameCalls (templateStable : Bool) (view : ℕ → TaskView α) (index bulkCount : ℕ) : Prop :=
  ∃ calls, entry.executeBulk cfg view index bulkCount = some (calls, false) ∧
    calls.length = bulkCount ∧
      ∀ i < bulkCount, (∃ call, entry.SingleCall cfg templateStable (view (index + i)) call) ∧
        ∀ call, entry.SingleCall cfg templateStable (view (index + i)) call →
          ∃ bulk, calls[i]? = some bulk ∧ bulk.map CmTypes.unheld = call.map CmTypes.unheld

theorem bulkCalls_succ (view : ℕ → TaskView α) (instIdx count : ℕ) (buf : List (CmTypes α)) :
    entry.bulkCalls cfg view instIdx (count + 1) buf =
      match entry.populateDynamicArgsInto cfg (view instIdx) buf with
      | none => none
      | some (_, true) => some ([], true)
      | some (buf, false) =>
        (entry.bulkCalls cfg view (instIdx + 1) count buf).map fun r => (buf :: r.1, r.2) := by
  have hstep : (if entry.hasDynamic then entry.populateDynamicArgsInto cfg (view instIdx) buf
      else some (buf, false)) = entry.populateDynamicArgsInto cfg (view instIdx) buf := by
    split
    · rfl
    · next h => rw [entry.populateDynamicArgsInto_of_static _ _ (Bool.eq_false_iff.mpr h)]
  rw [bulkCalls, hstep]

/-! ## Buffers that look the same -/

variable {entry cfg}

/-- Filling keeps buffers the same up to `f`. -/
theorem fillResults_congr {γ : Type} {f : CmTypes α → γ} {task : TaskView α}
    {rs : List (ℕ × ResPredCache)} {arg : ℕ} {xs ys xs' : List (CmTypes α)} {stale : Bool}
    (hxy : xs.map f = ys.map f) (h : fillResults cfg task rs arg xs = some (xs', stale)) :
    ∃ ys', fillResults cfg task rs arg ys = some (ys', stale) ∧ xs'.map f = ys'.map f := by
  induction rs generalizing arg xs ys with
  | nil =>
    obtain ⟨rfl, rfl⟩ := Prod.mk.inj (Option.some.inj h)
    exact ⟨ys, rfl, hxy⟩
  | cons w rest ih =>
    unfold fillResults
    cases fillResults_cons h with
    | stale hstale hbuf hres =>
      rw [hres, hstale, hbuf]
      exact ⟨ys, rfl, hxy⟩
    | missing hres hrest =>
      rw [hres]
      exact ih hxy hrest
    | single v hres hrest =>
      rw [hres]
      refine ih ?_ hrest
      rw [List.map_set, List.map_set, hxy]
    | many vs hvs hres hrest =>
      rw [hres]
      have hsplice : (splice xs w.1 vs).map f = (splice ys w.1 vs).map f := by
        rw [map_splice, map_splice, hxy]
      rcases vs with - | ⟨v, - | ⟨x, vs⟩⟩
      · exact ih hsplice hrest
      · exact absurd rfl hvs
      · exact ih hsplice hrest

theorem map_patchRefs_congr {γ : Type} {f : CmTypes α → γ} {xs ys : List (CmTypes α)}
    (hxy : xs.map f = ys.map f) (j : ℕ) :
    (entry.patchRefs cfg j xs).map f = (entry.patchRefs cfg j ys).map f := by
  have hbuf : (entry.processBufferRefs j xs).map f = (entry.processBufferRefs j ys).map f :=
    map_setAll_congr hxy _
  unfold patchRefs processRuntimeRefs
  dsimp only
  split
  · exact map_setPairs_congr hbuf _ _ _
  · exact map_setAll_congr (map_setAll_congr hbuf _) _

theorem populate_congr {γ : Type} {f : CmTypes α → γ} {task : TaskView α}
    {xs ys xs' : List (CmTypes α)} {stale : Bool} (hxy : xs.map f = ys.map f)
    (h : entry.populateDynamicArgsInto cfg task xs = some (xs', stale)) :
    ∃ ys', entry.populateDynamicArgsInto cfg task ys = some (ys', stale) ∧
      xs'.map f = ys'.map f :=
  fillResults_congr (map_patchRefs_congr hxy _) h

/-- The values that a slot adds beyond its own place. -/
def growth (w : ℕ × ResPredCache) : ℕ := if w.2.isSingle then 0 else w.2.indexes.length - 1

/-- Filling makes room for all values of the references that expand. -/
theorem length_fillResults_add {task : TaskView α} {rs : List (ℕ × ResPredCache)} {arg : ℕ}
    {buf buf' : List (CmTypes α)} (hlt : ∀ w ∈ rs, w.1 < buf.length)
    (hvalues : ∀ w ∈ rs, w.2.isSingle = false → ∀ i,
      ∃ vs, w.2.collectResFromCache cfg task i = some (.values vs))
    (h : fillResults cfg task rs arg buf = some (buf', false)) :
    buf'.length = buf.length + (rs.map growth).sum := by
  induction rs generalizing arg buf with
  | nil =>
    obtain ⟨rfl, -⟩ := Prod.mk.inj (Option.some.inj h)
    rfl
  | cons w rest ih =>
    rw [List.forall_mem_cons] at hlt hvalues
    rw [List.map_cons, List.sum_cons]
    cases fillResults_cons h with
    | stale hstale => cases hstale
    | missing hres hrest =>
      have hsingle : w.2.isSingle = true := by
        by_contra hwide
        obtain ⟨vs, hvs⟩ := hvalues.1 (Bool.eq_false_iff.mpr hwide) arg
        rw [hres] at hvs
        cases hvs
      rw [ih hlt.2 hvalues.2 hrest, growth, if_pos hsingle, Nat.zero_add]
    | single v hres hrest =>
      have hsingle : w.2.isSingle = true := by
        by_contra hwide
        have hlen := ResPredCache.length_collect hres
        have htwo := ResPredCache.two_le_of_not_isSingle (Bool.eq_false_iff.mpr hwide)
        rw [if_neg hwide, List.length_singleton] at hlen
        omega
      rw [ih (fun v hv => by rw [List.length_set]; exact hlt.2 v hv) hvalues.2 hrest,
        List.length_set, growth, if_pos hsingle, Nat.zero_add]
    | many vs hvs hres hrest =>
      have hwide : ¬ w.2.isSingle = true := by
        intro hsingle
        obtain ⟨v, rfl⟩ := ResPredCache.exists_of_isSingle hsingle hres
        exact hvs rfl
      have hlen := ResPredCache.length_collect hres
      have htwo := ResPredCache.two_le_of_not_isSingle (Bool.eq_false_iff.mpr hwide)
      rw [if_neg hwide] at hlen
      have hroom := length_splice hlt.1 vs
      rw [ih (fun v hv => by have := hlt.2 v hv; omega) hvalues.2 hrest, growth, if_neg hwide]
      omega

end ArgCacheEntry

/-! ## Stored results -/

namespace ResPredCache

variable {rp : ResPredCache} {cfg : ArgConfig} {stored : ResultCell → Option (CmTypes α)}
  {slot j : ℕ} {gen : UInt32}

theorem collectCells_stored (cfg : ArgConfig) (gen : UInt32) (j : ℕ) {cells : List ℕ}
    (h : ∀ cell ∈ cells, (stored ⟨slot, rp.resNodeId, cell⟩).isSome = true) (arg n : ℕ) :
    ∃ vs, rp.collectCells cfg (storedView stored slot gen j) arg cells n = some (.values vs) := by
  induction cells generalizing n with
  | nil => exact ⟨[], rfl⟩
  | cons cell cells ih =>
    rw [List.forall_mem_cons] at h
    obtain ⟨v, hv⟩ := Option.isSome_iff_exists.mp h.1
    obtain ⟨vs, hvs⟩ := ih h.2 (n + 1)
    refine ⟨v :: vs, ?_⟩
    have hread : readCell cfg (storedView stored slot gen j)
        ((storedView stored slot gen j).looks arg n ⟨slot, rp.resNodeId, cell⟩) = some (.found v) := by
      simp only [readCell, storedView, hv]
    unfold collectCells
    rw [show (storedView stored slot gen j).slot = slot from rfl, hread, hvs]

/-- With its cells stored a reference has values, unless it has no index. -/
theorem collect_stored (h : rp.isDep = false → ∃ cells, rp.depIndexes cfg j j = some cells ∧
      ∀ cell ∈ cells, (stored ⟨slot, rp.resNodeId, cell⟩).isSome = true) (arg : ℕ) :
    (∃ vs, rp.collectResFromCache cfg (storedView stored slot gen j) arg = some (.values vs)) ∨
      rp.indexes = [] ∧
        rp.collectResFromCache cfg (storedView stored slot gen j) arg = some .missing := by
  by_cases hdep : rp.isDep = true
  · exact .inl ⟨[.none], by rw [collectResFromCache, if_pos hdep]⟩
  · rw [Bool.not_eq_true] at hdep
    by_cases hnil : rp.indexes = []
    · exact .inr ⟨hnil, collect_of_nil hdep hnil arg⟩
    · obtain ⟨cells, hcells, hstored⟩ := h hdep
      obtain ⟨vs, hvs⟩ := collectCells_stored cfg gen j hstored arg 0
      refine .inl ⟨vs, ?_⟩
      unfold collectResFromCache
      rw [if_neg (by rw [hdep]; decide), if_neg hnil]
      show (rp.depIndexes cfg j j).bind _ = _
      rw [hcells]
      exact hvs

end ResPredCache

namespace ArgCacheEntry

variable {entry : ArgCacheEntry α} {cfg : ArgConfig} {stored : ResultCell → Option (CmTypes α)}
  {slot index bulkCount : ℕ} {gen : UInt32}

theorem AllStored.collect (h : entry.AllStored cfg stored slot index bulkCount) (gen : UInt32) {j : ℕ}
    (hj : index ≤ j) (hj' : j < index + bulkCount) {w : ℕ × ResPredCache}
    (hw : w ∈ entry.resIndexes.zip entry.resPredecessors) (arg : ℕ) :
    (∃ vs, w.2.collectResFromCache cfg (storedView stored slot gen j) arg = some (.values vs)) ∨
      w.2.indexes = [] ∧
        w.2.collectResFromCache cfg (storedView stored slot gen j) arg = some .missing :=
  ResPredCache.collect_stored (h j hj hj' w.2 (List.of_mem_zip hw).2) arg

/-- No instance waits, so every buffer is filled. -/
theorem AllStored.populate (h : entry.AllStored cfg stored slot index bulkCount) (gen : UInt32) {j : ℕ}
    (hj : index ≤ j) (hj' : j < index + bulkCount) (buf : List (CmTypes α)) :
    ∃ buf', entry.populateDynamicArgsInto cfg (storedView stored slot gen j) buf =
      some (buf', false) := by
  refine fillResults_total (fun w hw arg => ?_) 0 _
  rcases h.collect gen hj hj' hw arg with ⟨vs, hvs⟩ | ⟨-, hmissing⟩
  · exact ⟨_, hvs, nofun⟩
  · exact ⟨_, hmissing, nofun⟩

theorem AllStored.noLeak (h : entry.AllStored cfg stored slot index bulkCount) {j : ℕ}
    (hj : index ≤ j) (hj' : j < index + bulkCount) (template : List (CmTypes α)) :
    entry.NoLeak cfg (storedView stored slot gen j) template := by
  intro i w hw hdep depIdx hidx hgive
  obtain ⟨cells, hcells, hstored⟩ :=
    h j hj hj' w.2 (List.of_mem_zip (List.mem_of_getElem? hw)).2 hdep
  rw [show w.2.depIndexes cfg j j = some [depIdx] from hidx, Option.some.injEq] at hcells
  obtain ⟨v, hv⟩ := Option.isSome_iff_exists.mp (hstored depIdx (hcells ▸ List.mem_singleton_self _))
  have hnone : stored ⟨slot, w.2.resNodeId, depIdx⟩ = none := hgive.2.1
  rw [hv] at hnone
  cases hnone

end ArgCacheEntry

namespace Laid

variable {initObjects : List (List (CmTypes α))} {layout : List (LoadedArg α)}
  {preds : LoadedArg α → Option ResPredCache} {entry : ArgCacheEntry α} {cfg : ArgConfig}
  {stored : ResultCell → Option (CmTypes α)} {slot index bulkCount : ℕ} {gen : UInt32}

theorem blank_hold (h : Laid initObjects layout preds entry) :
    Blank layout preds entry (entry.args.map CmTypes.hold) := by
  refine ⟨List.length_map _, fun w hw => ?_⟩
  rw [List.getElem?_map, h.getElem?_args_of_res hw]
  rfl

/-- The loop on a buffer that earlier cells have patched makes the calls of fresh buffers. -/
theorem bulkCalls_fresh (h : Laid initObjects layout preds entry) (gen : UInt32)
    (hsingle : ∀ a ∈ layout, ∀ rp, preds a = some rp → rp.isSingle = true)
    {start buf : List (CmTypes α)} (hstart : Blank layout preds entry start)
    {tasks : List (TaskView α)} (hrun : entry.TemplateRun cfg start tasks buf) {inst count : ℕ}
    (hlow : index ≤ inst) (hhigh : inst + count ≤ index + bulkCount)
    (hstored : entry.AllStored cfg stored slot index bulkCount) :
    ∃ calls, entry.bulkCalls cfg (storedView stored slot gen) inst count buf = some (calls, false) ∧
      calls.length = count ∧ ∀ i < count, ∃ bulk, calls[i]? = some bulk ∧
        entry.populateDynamicArgsInto cfg (storedView stored slot gen (inst + i)) start =
          some (bulk, false) := by
  induction count generalizing inst buf tasks with
  | zero => exact ⟨[], rfl, rfl, fun i hi => absurd hi (Nat.not_lt_zero i)⟩
  | succ count ih =>
    obtain ⟨buf', hfill⟩ := hstored.populate gen hlow (by omega) buf
    obtain ⟨fresh, hfresh⟩ := hstored.populate gen hlow (by omega) start
    have heq : buf' = fresh :=
      (h.template_eq_fresh_iff hsingle hstart hrun hfill hfresh).mpr
        (hstored.noLeak hlow (by omega) buf)
    obtain ⟨calls, hcalls, hlen, hall⟩ := @ih _ _ (hrun.task _ hfill) (inst + 1) (by omega)
      (by omega)
    refine ⟨buf' :: calls, ?_, by rw [List.length_cons, hlen], fun i hi => ?_⟩
    · rw [ArgCacheEntry.bulkCalls_succ, hfill]
      simp only [hcalls, Option.map_some]
    · cases i with
      | zero => exact ⟨buf', rfl, by rw [heq]; exact hfresh⟩
      | succ i =>
        obtain ⟨bulk, hbulk, hrest⟩ := hall i (by omega)
        refine ⟨bulk, hbulk, ?_⟩
        rwa [show inst + (i + 1) = inst + 1 + i by omega]

/-- A single task with stored results calls with a fresh buffer, template or not. -/
theorem singleCall_fresh (h : Laid initObjects layout preds entry) {templatesDisabled : Bool}
    {name : String} (hstored : entry.AllStored cfg stored slot index bulkCount) {j : ℕ}
    (hj : index ≤ j) (hj' : j < index + bulkCount) {call : List (CmTypes α)} :
    entry.SingleCall cfg (entry.templateStable templatesDisabled name) (storedView stored slot gen j)
        call ↔
      entry.populateDynamicArgsInto cfg (storedView stored slot gen j) entry.args =
        some (call, false) := by
  obtain ⟨fresh, hfresh⟩ := hstored.populate gen hj hj' entry.args
  constructor
  · intro hcall
    cases hcall with
    | buffer _ hfill => rwa [ArgCacheEntry.populateCachedArgsInto_nil] at hfill
    | template hstable tasks template hrun hfill =>
      have heq := (h.template_eq_fresh_iff (h.single_of_templateStable hstable) h.blank_args hrun
        hfill hfresh).mpr (hstored.noLeak hj hj' template)
      rwa [heq]
  · intro hfill
    cases hstable : entry.templateStable templatesDisabled name with
    | true => exact .template rfl [] entry.args .fresh hfill
    | false => exact .buffer rfl (by rwa [ArgCacheEntry.populateCachedArgsInto_nil])

/-- Calls that start over from the upgraded template are those of the single tasks. -/
theorem sameCalls_of_fresh (h : Laid initObjects layout preds entry) (templatesDisabled : Bool)
    (name : String) (hstored : entry.AllStored cfg stored slot index bulkCount)
    {calls : List (List (CmTypes α))}
    (hcalls : entry.executeBulk cfg (storedView stored slot gen) index bulkCount =
      some (calls, false)) (hlen : calls.length = bulkCount)
    (hfresh : ∀ i < bulkCount, ∃ bulk, calls[i]? = some bulk ∧
      entry.populateDynamicArgsInto cfg (storedView stored slot gen (index + i))
        (entry.args.map CmTypes.hold) = some (bulk, false)) :
    entry.SameCalls cfg (entry.templateStable templatesDisabled name) (storedView stored slot gen)
      index bulkCount := by
  have hheld : (entry.args.map CmTypes.hold).map CmTypes.unheld = entry.args.map CmTypes.unheld := by
    rw [List.map_map]
    exact List.map_congr_left fun v _ => v.unheld_hold
  refine ⟨calls, hcalls, hlen, fun i hi => ?_⟩
  obtain ⟨bulk, hbulk, hfill⟩ := hfresh i hi
  obtain ⟨call, hcall, hmap⟩ := ArgCacheEntry.populate_congr hheld hfill
  have hsingle : ∀ call', entry.SingleCall cfg (entry.templateStable templatesDisabled name)
      (storedView stored slot gen (index + i)) call' ↔
        entry.populateDynamicArgsInto cfg (storedView stored slot gen (index + i)) entry.args =
          some (call', false) := fun _ =>
    h.singleCall_fresh hstored (by omega) (by omega)
  refine ⟨⟨call, (hsingle call).mpr hcall⟩, fun call' hcall' => ⟨bulk, hbulk, ?_⟩⟩
  rw [hsingle call', hcall, Option.some.injEq, Prod.mk.injEq] at hcall'
  rw [hmap, hcall'.1]

/-- A reference that expands makes the second call longer than that of its single task. -/
theorem not_sameCalls (h : Laid initObjects layout preds entry) {templatesDisabled : Bool}
    {name : String} (hstored : entry.AllStored cfg stored slot index bulkCount)
    (htwo : 2 ≤ bulkCount) {wide : ResPredCache} (hwide : wide ∈ entry.resPredecessors)
    (hexp : wide.isSingle = false) (hzip : entry.resIndexes.length = entry.resPredecessors.length) :
    ¬ entry.SameCalls cfg (entry.templateStable templatesDisabled name)
      (storedView stored slot gen) index bulkCount := by
  rintro ⟨calls, hcalls, -, hall⟩
  obtain ⟨count, rfl⟩ : ∃ count, bulkCount = count + 2 := ⟨bulkCount - 2, by omega⟩
  obtain ⟨first, hfirst⟩ := hstored.populate gen (j := index) le_rfl (by omega)
    (entry.args.map CmTypes.hold)
  obtain ⟨second, hsecond⟩ := hstored.populate gen (j := index + 1) (by omega) (by omega)
    first
  -- every fill adds the same number of slots
  have hgrow : ∀ {j : ℕ} {buf buf' : List (CmTypes α)}, index ≤ j → j < index + (count + 2) →
      entry.args.length ≤ buf.length →
      entry.populateDynamicArgsInto cfg (storedView stored slot gen j) buf = some (buf', false) →
        buf'.length = buf.length + ((slotsOf preds layout).map ArgCacheEntry.growth).sum := by
    intro j buf buf' hj hj' hbuf hfill
    rw [ArgCacheEntry.populateDynamicArgsInto] at hfill
    rw [ArgCacheEntry.length_fillResults_add (fun w hw => ?_) (fun w hw hsingle arg => ?_) hfill,
      length_patchRefs, h.results]
    · rw [h.results] at hw
      rw [length_patchRefs]
      have hlt := lt_of_mem_slotsOf hw
      have hargs := h.length_layout_le
      omega
    · rcases hstored.collect gen hj hj' hw arg with hvalues | ⟨hnil, -⟩
      · exact hvalues
      · have hlen := ResPredCache.two_le_of_not_isSingle hsingle
        rw [hnil] at hlen
        cases hlen
  have hpos : 0 < ((slotsOf preds layout).map ArgCacheEntry.growth).sum := by
    obtain ⟨i, hi⟩ := List.mem_iff_getElem?.mp hwide
    have hlt : i < entry.resIndexes.length := hzip ▸ (List.getElem?_eq_some_iff.mp hi).1
    have hmem : (entry.resIndexes[i], wide) ∈ slotsOf preds layout := by
      rw [← h.results]
      exact List.mem_of_getElem? (List.getElem?_zip_eq_some.mpr
        ⟨List.getElem?_eq_getElem hlt, hi⟩)
    refine lt_of_lt_of_le ?_ (List.single_le_sum (fun _ _ => Nat.zero_le _) _
      (List.mem_map_of_mem hmem))
    have hlen := ResPredCache.two_le_of_not_isSingle hexp
    simp only [ArgCacheEntry.growth, hexp, Bool.false_eq_true, if_false]
    omega
  obtain ⟨⟨call, hcall⟩, hmatch⟩ := hall 1 (by omega)
  obtain ⟨bulk, hbulk, hmap⟩ := hmatch call hcall
  rw [h.singleCall_fresh hstored (by omega) (by omega)] at hcall
  have hbulk' : bulk = second := by
    rw [ArgCacheEntry.executeBulk, ArgCacheEntry.bulkCalls_succ, hfirst] at hcalls
    obtain ⟨r, hr, hcons⟩ := Option.map_eq_some_iff.mp hcalls
    rw [ArgCacheEntry.bulkCalls_succ, hsecond] at hr
    obtain ⟨r', -, hcons'⟩ := Option.map_eq_some_iff.mp hr
    rw [← (Prod.mk.inj hcons).1, ← hcons'] at hbulk
    exact (Option.some.inj hbulk).symm
  have hlen1 := hgrow le_rfl (by omega) (by rw [List.length_map]) hfirst
  have hlen2 := hgrow (by omega) (by omega) (by rw [hlen1, List.length_map]; omega) hsecond
  have hlen3 := hgrow (by omega) (by omega) le_rfl hcall
  have hsame : bulk.length = call.length := by simpa using congrArg List.length hmap
  rw [hbulk', hlen2, hlen1, hlen3, List.length_map] at hsame
  omega

end Laid

/-- The index formulas of every instance of the range have a value. -/
def ArgCacheEntry.RangeResolves (entry : ArgCacheEntry α) (cfg : ArgConfig)
    (index bulkCount : ℕ) : Prop :=
  ∀ j, index ≤ j → j < index + bulkCount → ∀ rp ∈ entry.resPredecessors, rp.isDep = false →
    (rp.depIndexes cfg j j).isSome = true

/-- For every node and every range, with all results stored, the per-cell loop makes the calls of
the single tasks if and only if the range is one instance or every reference of the node has one
value at most. Where an index formula panics no result is read. -/
theorem bulk_calls_match_iff (initObjects : List (List (CmTypes α)))
    (nodes : List (LoadedNode α)) (node : LoadedNode α) (cfg : ArgConfig) (templatesDisabled : Bool)
    {entry : ArgCacheEntry α} (hmain : mainArgCache initObjects nodes node = some entry)
    (index : ℕ) {bulkCount : ℕ} (hcount : 1 ≤ bulkCount) :
    (∀ stored slot gen, entry.AllStored cfg stored slot index bulkCount →
        entry.SameCalls cfg (entry.templateStable templatesDisabled node.name)
          (storedView stored slot gen) index bulkCount) ↔
      (entry.RangeResolves cfg index bulkCount →
        bulkCount = 1 ∨ ∀ rp ∈ entry.resPredecessors, rp.isSingle = true) := by
  have h : Laid initObjects (argLayout true node.args) (resPred nodes node) entry :=
    laid_argCacheOf hmain
  constructor
  · intro hall hrange
    by_contra hne
    push Not at hne
    obtain ⟨hmany, wide, hwide, hexp⟩ := hne
    have hstored : entry.AllStored cfg (fun _ => some (.usize 0 : CmTypes α)) 0 index bulkCount := by
      intro j hj hj' rp hrp hdep
      obtain ⟨cells, hcells⟩ := Option.isSome_iff_exists.mp (hrange j hj hj' rp hrp hdep)
      exact ⟨cells, hcells, fun _ _ => rfl⟩
    exact h.not_sameCalls hstored (by omega) hwide (Bool.eq_false_iff.mpr hexp)
      (length_resIndexes hmain) (hall _ _ 0 hstored)
  · intro hcond stored slot gen hstored
    have hrange : entry.RangeResolves cfg index bulkCount := by
      intro j hj hj' rp hrp hdep
      obtain ⟨cells, hcells, -⟩ := hstored j hj hj' rp hrp hdep
      rw [hcells]
      rfl
    rcases hcond hrange with rfl | hsingle
    · obtain ⟨bulk, hbulk⟩ := hstored.populate gen (j := index) le_rfl (by omega)
        (entry.args.map CmTypes.hold)
      refine @Laid.sameCalls_of_fresh _ _ _ _ _ _ _ _ _ _ _ h templatesDisabled node.name hstored
        [bulk] ?_ rfl ?_
      · rw [ArgCacheEntry.executeBulk, ArgCacheEntry.bulkCalls_succ, hbulk]
        rfl
      · intro i hi
        obtain rfl : i = 0 := by omega
        exact ⟨bulk, rfl, hbulk⟩
    · have hlayout : ∀ a ∈ argLayout true node.args, ∀ rp, resPred nodes node a = some rp →
          rp.isSingle = true := by
        intro a ha rp hpred
        obtain ⟨k, hk⟩ := List.mem_iff_getElem?.mp ha
        have hmem : (k, rp) ∈ entry.resIndexes.zip entry.resPredecessors := by
          rw [h.results]
          exact mem_slotsOf.mpr ⟨a, hk, hpred⟩
        exact hsingle rp (List.of_mem_zip hmem).2
      obtain ⟨calls, hcalls, hlen, hfresh⟩ := h.bulkCalls_fresh gen hlayout h.blank_hold .fresh
        le_rfl le_rfl hstored
      exact h.sameCalls_of_fresh templatesDisabled node.name hstored hcalls hlen hfresh

/-- `merge` reads two cells of `split` at a time. -/
def merge : LoadedNode ℕ where
  name := "merge"
  id := 1
  funcName := "merge"
  args := [⟨.res 0, false, some ⟨0, [0, 1], none⟩⟩]
  condArgs := none
  factor := 3
  groupSize := none

def mergeNodes : List (LoadedNode ℕ) := [⟨"split", 0, "split", [], none, 4, none⟩, merge]

def mergeCache : ArgCacheEntry ℕ where
  args := [.none]
  bufferRefIndexes := []
  bufferValues := []
  rtIdxsIndexes := []
  rtWorkersIndexes := []
  resIndexes := [0]
  resPredecessors := [⟨1, 0, [0, 1], 4, none, none, 3, false, false⟩]

theorem bulk_calls_match_iff_at_merge :
    (∀ stored slot gen, mergeCache.AllStored plainConfig stored slot 0 3 →
        mergeCache.SameCalls plainConfig (mergeCache.templateStable false merge.name)
          (storedView stored slot gen) 0 3) ↔
      (mergeCache.RangeResolves plainConfig 0 3 →
        3 = 1 ∨ ∀ rp ∈ mergeCache.resPredecessors, rp.isSingle = true) :=
  bulk_calls_match_iff [] mergeNodes merge plainConfig false rfl 0 (by decide)

theorem allStored_merge :
    mergeCache.AllStored plainConfig (fun cell => some (.usize (UInt64.ofNat cell.index))) 0 0 2 := by
  intro j _ hj rp hrp _
  rw [List.mem_singleton.mp hrp]
  match j with
  | 0 => exact ⟨[0, 1], by decide, fun _ _ => rfl⟩
  | 1 => exact ⟨[1, 2], by decide, fun _ _ => rfl⟩

theorem executeBulk_merge :
    mergeCache.executeBulk plainConfig
        (storedView (fun cell => some (.usize (UInt64.ofNat cell.index))) 0 0) 0 2 =
      some ([[.usize 0, .usize 1], [.usize 1, .usize 2, .usize 1]], false) := by
  decide +kernel

theorem singleCall_merge :
    mergeCache.SingleCall plainConfig (mergeCache.templateStable false merge.name)
      (storedView (fun cell => some (.usize (UInt64.ofNat cell.index))) 0 0 1)
      [.usize 1, .usize 2] :=
  .buffer (by decide) (by decide +kernel)

/-- The call for instance 1 has a third argument, left from instance 0. -/
theorem bulk_call_grows :
    ¬ ∀ (initObjects : List (List (CmTypes ℕ))) (nodes : List (LoadedNode ℕ)) (node : LoadedNode ℕ)
      (cfg : ArgConfig) (entry : ArgCacheEntry ℕ),
      mainArgCache initObjects nodes node = some entry →
      ∀ index bulkCount, 1 ≤ bulkCount → ∀ stored slot gen,
        entry.AllStored cfg stored slot index bulkCount →
          entry.SameCalls cfg (entry.templateStable false node.name)
            (storedView stored slot gen) index bulkCount := by
  intro h
  obtain ⟨calls, hcalls, -, hall⟩ := h [] mergeNodes merge plainConfig mergeCache rfl 0 2 (by decide)
    _ 0 0 allStored_merge
  rw [executeBulk_merge, Option.some.injEq, Prod.mk.injEq] at hcalls
  have hbulk := hcalls.1.symm
  obtain ⟨bulk, hsecond, hmap⟩ := (hall 1 (by decide)).2 _ singleCall_merge
  rw [hbulk] at hsecond
  obtain rfl := Option.some.inj hsecond
  cases hmap

end Tomii
