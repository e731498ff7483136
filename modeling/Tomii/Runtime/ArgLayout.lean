import Tomii.Runtime.ArgBuffers
import Mathlib.Data.List.ReduceOption

/-! # Where the arguments of a node are

The lists of `build_arg_cache` in closed form over the arguments, and what filling leaves in
each slot. -/
namespace Tomii
set_option autoImplicit false
set_option maxHeartbeats 250000

variable {α : Type}

namespace LoadedArg

variable (initObjects : List (List (CmTypes α))) (a : LoadedArg α)

/-- A `$ref` on the instance index. -/
def rtIndex : Option Unit :=
  match a.type with
  | .ref objId => if objId = 0 then some () else none
  | _ => none

/-- A `$ref` on the number of workers. -/
def rtWorkers : Option Unit :=
  match a.type with
  | .ref objId => if objId = 1 then some () else none
  | _ => none

/-- A `$ref` on an object with several values, which instances take in turn. -/
def rotation : Option (List (CmTypes α)) :=
  match a.type with
  | .ref objId =>
    if objId = 0 then none else if objId = 1 then none
    else
      match initObjects[objId]? with
      | some (v :: w :: rest) => some (v :: w :: rest)
      | _ => none
  | _ => none

/-- A `$res` or `$dep`. -/
def resSlot : Option Unit :=
  match a.type with
  | .res _ => some ()
  | .dep _ => some ()
  | _ => none

/-- What the template holds in the slot. -/
def placeholder : CmTypes α :=
  match a.type with
  | .ref objId =>
    if objId = 0 then .none else if objId = 1 then .none
    else
      match initObjects[objId]? with
      | some [v] => v
      | _ => .none
  | .res _ => .none
  | .dep _ => .none
  | .barrier _ => .none
  | t => t

/-- What a kernel finds in the slot of an argument without a result: `collect_arg_result`. -/
def value (workers nodeIndex : ℕ) : CmTypes α :=
  match a.type with
  | .ref objId =>
    if objId = 0 then .usize (UInt64.ofNat nodeIndex)
    else if objId = 1 then .usize (UInt64.ofNat workers)
    else getObjectValue ((initObjects[objId]?).getD []) nodeIndex
  | .res _ => .none
  | .dep _ => .none
  | .barrier _ => .none
  | t => t

end LoadedArg

/-! ## The cache in closed form -/

/-- The lists of an argument cache, read off the arguments that have a slot. -/
structure Laid (initObjects : List (List (CmTypes α))) (layout : List (LoadedArg α))
    (preds : LoadedArg α → Option ResPredCache) (entry : ArgCacheEntry α) : Prop where
  args : ∃ m, entry.args = layout.map (·.placeholder initObjects) ++ List.replicate m .none
  indexes : entry.rtIdxsIndexes = (slotsOf LoadedArg.rtIndex layout).map Prod.fst
  workers : entry.rtWorkersIndexes = (slotsOf LoadedArg.rtWorkers layout).map Prod.fst
  buffers : entry.bufferRefIndexes.zip entry.bufferValues =
    slotsOf (LoadedArg.rotation initObjects) layout
  results : entry.resIndexes.zip entry.resPredecessors = slotsOf preds layout
  isSome : ∀ a ∈ layout, (preds a).isSome = a.resSlot.isSome

namespace ArgCacheEntry

/-- `build_arg_cache` after the arguments `done` of `n`. -/
structure Building (initObjects : List (List (CmTypes α))) (n : ℕ) (done : List (LoadedArg α))
    (st : ArgCacheEntry α × ℕ) : Prop where
  count : st.2 = done.length
  args : st.1.args = done.map (·.placeholder initObjects) ++ List.replicate (n - done.length) .none
  indexes : st.1.rtIdxsIndexes = (slotsOf LoadedArg.rtIndex done).map Prod.fst
  workers : st.1.rtWorkersIndexes = (slotsOf LoadedArg.rtWorkers done).map Prod.fst
  bufferRefs : st.1.bufferRefIndexes =
    (slotsOf (LoadedArg.rotation initObjects) done).map Prod.fst
  bufferValues : st.1.bufferValues = (slotsOf (LoadedArg.rotation initObjects) done).map Prod.snd
  results : st.1.resIndexes = (slotsOf LoadedArg.resSlot done).map Prod.fst

/-- What one argument adds. -/
structure Added (initObjects : List (List (CmTypes α))) (a : LoadedArg α)
    (st st' : ArgCacheEntry α × ℕ) : Prop where
  count : st'.2 = st.2 + 1
  args : st'.1.args = st.1.args.set st.2 (a.placeholder initObjects) ∨
    st'.1.args = st.1.args ∧ a.placeholder initObjects = .none
  indexes : st'.1.rtIdxsIndexes = st.1.rtIdxsIndexes ++ (a.rtIndex.map fun _ => st.2).toList
  workers : st'.1.rtWorkersIndexes = st.1.rtWorkersIndexes ++ (a.rtWorkers.map fun _ => st.2).toList
  bufferRefs : st'.1.bufferRefIndexes =
    st.1.bufferRefIndexes ++ ((a.rotation initObjects).map fun _ => st.2).toList
  bufferValues : st'.1.bufferValues = st.1.bufferValues ++ (a.rotation initObjects).toList
  results : st'.1.resIndexes = st.1.resIndexes ++ (a.resSlot.map fun _ => st.2).toList

theorem addArg_spec {initObjects : List (List (CmTypes α))} {a : LoadedArg α}
    {st st' : ArgCacheEntry α × ℕ} (h : addArg initObjects st a = some st') :
    Added initObjects a st st' := by
  obtain ⟨c, i⟩ := st
  obtain ⟨type, cond, pred⟩ := a
  cases type with
  | ref objId =>
    simp only [addArg] at h
    by_cases h0 : objId = 0
    · rw [if_pos h0] at h
      obtain rfl := Option.some.inj h
      constructor <;> simp [LoadedArg.placeholder, LoadedArg.rtIndex, LoadedArg.rtWorkers,
        LoadedArg.rotation, LoadedArg.resSlot, h0]
    · rw [if_neg h0] at h
      by_cases h1 : objId = 1
      · rw [if_pos h1] at h
        obtain rfl := Option.some.inj h
        constructor <;> simp [LoadedArg.placeholder, LoadedArg.rtIndex, LoadedArg.rtWorkers,
          LoadedArg.rotation, LoadedArg.resSlot, h1]
      · rw [if_neg h1] at h
        cases hobj : initObjects[objId]? with
        | none =>
          rw [hobj] at h
          cases h
        | some objVec =>
          rw [hobj] at h
          match objVec with
          | [] => cases h
          | [v] =>
            obtain rfl := Option.some.inj h
            constructor <;> simp [LoadedArg.placeholder, LoadedArg.rtIndex, LoadedArg.rtWorkers,
              LoadedArg.rotation, LoadedArg.resSlot, h0, h1, hobj]
          | v :: w :: rest =>
            obtain rfl := Option.some.inj h
            constructor <;> simp [LoadedArg.placeholder, LoadedArg.rtIndex, LoadedArg.rtWorkers,
              LoadedArg.rotation, LoadedArg.resSlot, h0, h1, hobj]
  | _ =>
    obtain rfl := Option.some.inj h
    constructor <;> simp [LoadedArg.placeholder, LoadedArg.rtIndex, LoadedArg.rtWorkers,
      LoadedArg.rotation, LoadedArg.resSlot]

theorem map_fst_concat {β : Type} (f : LoadedArg α → Option β) (done : List (LoadedArg α))
    (a : LoadedArg α) : (slotsOf f (done ++ [a])).map Prod.fst =
      (slotsOf f done).map Prod.fst ++ ((f a).map fun _ => done.length).toList := by
  rw [slotsOf_concat, List.map_append]
  cases f a <;> rfl

theorem Building.step {initObjects : List (List (CmTypes α))} {n : ℕ} {done : List (LoadedArg α)}
    {a : LoadedArg α} {st st' : ArgCacheEntry α × ℕ} (h : Building initObjects n done st)
    (hn : done.length < n) (hadd : Added initObjects a st st') :
    Building initObjects n (done ++ [a]) st' := by
  constructor
  · rw [hadd.count, h.count, List.length_append, List.length_singleton]
  · have hlen : (done.map (·.placeholder initObjects)).length = done.length := List.length_map _
    obtain ⟨m, hm⟩ : ∃ m, n - done.length = m + 1 := ⟨n - done.length - 1, by omega⟩
    have hm' : n - (done ++ [a]).length = m := by
      rw [List.length_append, List.length_singleton]
      omega
    rw [hm', List.map_append, List.append_assoc]
    have hold := h.args
    rw [hm, List.replicate_succ] at hold
    rcases hadd.args with hset | ⟨hsame, hnone⟩
    · rw [hset, hold, h.count, List.set_append_right _ _ hlen.le, hlen, Nat.sub_self]
      rfl
    · rw [hsame, hold, List.map_singleton, hnone]
      rfl
  · rw [hadd.indexes, h.indexes, h.count, map_fst_concat]
  · rw [hadd.workers, h.workers, h.count, map_fst_concat]
  · rw [hadd.bufferRefs, h.bufferRefs, h.count, map_fst_concat]
  · rw [hadd.bufferValues, h.bufferValues, slotsOf_concat, List.map_append]
    cases a.rotation initObjects <;> rfl
  · rw [hadd.results, h.results, h.count, map_fst_concat]

theorem building_foldlM {initObjects : List (List (CmTypes α))} {n : ℕ}
    (layout : List (LoadedArg α)) (hn : layout.length ≤ n) {st : ArgCacheEntry α × ℕ}
    (h : layout.foldlM (addArg initObjects) (.blank n, 0) = some st) :
    Building initObjects n layout st := by
  induction layout using List.reverseRecOn generalizing st with
  | nil =>
    obtain rfl := Option.some.inj h
    constructor <;> simp [blank]
  | append_singleton done a ih =>
    rw [List.length_append, List.length_singleton] at hn
    rw [List.foldlM_append] at h
    obtain ⟨mid, hmid, hlast⟩ := Option.bind_eq_some_iff.mp h
    simp only [List.foldlM_cons, List.foldlM_nil, bind_pure] at hlast
    exact (ih (by omega) hmid).step (by omega) (addArg_spec hlast)

end ArgCacheEntry

/-- The predecessor entry of an argument. -/
def resPred (nodes : List (LoadedNode α)) (node : LoadedNode α) (a : LoadedArg α) :
    Option ResPredCache := (resPredOf nodes node a).join

theorem resPred_isSome {nodes : List (LoadedNode α)} {node : LoadedNode α} {a : LoadedArg α}
    (h : (resPredOf nodes node a).isSome = true) :
    (resPred nodes node a).isSome = a.resSlot.isSome := by
  obtain ⟨type, cond, pred⟩ := a
  cases type with
  | res resNid =>
    obtain ⟨o, ho⟩ := Option.isSome_iff_exists.mp h
    obtain ⟨p, -, rfl⟩ := Option.map_eq_some_iff.mp ho
    rw [resPred, ho]
    rfl
  | _ => rfl

theorem mapM_resPredOf {nodes : List (LoadedNode α)} {node : LoadedNode α}
    {layout : List (LoadedArg α)} {os : List (Option ResPredCache)}
    (h : layout.mapM (resPredOf nodes node) = some os) :
    os.reduceOption = layout.filterMap (resPred nodes node) ∧
      ∀ a ∈ layout, (resPredOf nodes node a).isSome = true := by
  induction layout generalizing os with
  | nil =>
    obtain rfl := Option.some.inj h
    exact ⟨rfl, by simp⟩
  | cons a layout ih =>
    rw [List.mapM_cons] at h
    obtain ⟨o, ho, hrest⟩ := Option.bind_eq_some_iff.mp h
    obtain ⟨os', hos', hcons⟩ := Option.bind_eq_some_iff.mp hrest
    obtain rfl := Option.some.inj hcons
    obtain ⟨heq, hall⟩ := ih hos'
    refine ⟨?_, List.forall_mem_cons.mpr ⟨by rw [ho]; rfl, hall⟩⟩
    have hpred : resPred nodes node a = o := by rw [resPred, ho]; rfl
    rw [List.filterMap_cons, hpred]
    cases o with
    | none => exact heq
    | some rp => rw [List.reduceOption_cons_of_some, heq]

/-- The two passes behind an argument cache. -/
theorem exists_building {initObjects : List (List (CmTypes α))} {nodes : List (LoadedNode α)}
    {node : LoadedNode α} {args : List (LoadedArg α)} {skip : Bool} {entry : ArgCacheEntry α}
    (h : argCacheOf initObjects nodes node args skip = some entry) :
    ∃ st : ArgCacheEntry α × ℕ,
      ArgCacheEntry.Building initObjects args.length (argLayout skip args) st ∧
        entry = { st.1 with resPredecessors :=
          (argLayout skip args).filterMap (resPred nodes node) } ∧
        ∀ a ∈ argLayout skip args, (resPred nodes node a).isSome = a.resSlot.isSome := by
  obtain ⟨built, hbuilt, hrest⟩ := Option.bind_eq_some_iff.mp h
  obtain ⟨preds, hpreds, hentry⟩ := Option.bind_eq_some_iff.mp hrest
  obtain rfl := Option.some.inj hentry
  obtain ⟨st, hst, rfl⟩ := Option.map_eq_some_iff.mp hbuilt
  obtain ⟨os, hos, rfl⟩ := Option.map_eq_some_iff.mp hpreds
  obtain ⟨hreduce, hsome⟩ := mapM_resPredOf hos
  refine ⟨st, ArgCacheEntry.building_foldlM _ (List.length_filter_le _ _) hst, ?_,
    fun a ha => resPred_isSome (hsome a ha)⟩
  rw [hreduce]

/-- `res_predecessors` is aligned with `res_indexes`. -/
theorem length_resIndexes {initObjects : List (List (CmTypes α))} {nodes : List (LoadedNode α)}
    {node : LoadedNode α} {args : List (LoadedArg α)} {skip : Bool} {entry : ArgCacheEntry α}
    (h : argCacheOf initObjects nodes node args skip = some entry) :
    entry.resIndexes.length = entry.resPredecessors.length := by
  obtain ⟨st, hb, rfl, hsome⟩ := exists_building h
  have hkeys := slotsOf_map_fst_congr hsome
  show st.1.resIndexes.length = _
  rw [hb.results, ← slotsOf_map_snd, ← hkeys, List.length_map, List.length_map]

/-- `buffer_values` is aligned with `buffer_ref_indexes`. -/
theorem length_bufferRefIndexes {initObjects : List (List (CmTypes α))}
    {nodes : List (LoadedNode α)} {node : LoadedNode α} {args : List (LoadedArg α)} {skip : Bool}
    {entry : ArgCacheEntry α} (h : argCacheOf initObjects nodes node args skip = some entry) :
    entry.bufferRefIndexes.length = entry.bufferValues.length := by
  obtain ⟨st, hb, rfl, -⟩ := exists_building h
  show st.1.bufferRefIndexes.length = st.1.bufferValues.length
  rw [hb.bufferRefs, hb.bufferValues, List.length_map, List.length_map]

/-- Every argument cache that is built is laid out by its arguments. -/
theorem laid_argCacheOf {initObjects : List (List (CmTypes α))} {nodes : List (LoadedNode α)}
    {node : LoadedNode α} {args : List (LoadedArg α)} {skip : Bool} {entry : ArgCacheEntry α}
    (h : argCacheOf initObjects nodes node args skip = some entry) :
    Laid initObjects (argLayout skip args) (resPred nodes node) entry := by
  obtain ⟨st, hb, rfl, hsome⟩ := exists_building h
  refine ⟨⟨_, hb.args⟩, hb.indexes, hb.workers, ?_, ?_, hsome⟩
  · show st.1.bufferRefIndexes.zip st.1.bufferValues = _
    rw [hb.bufferRefs, hb.bufferValues]
    exact zip_slots _
  · show st.1.resIndexes.zip _ = _
    rw [hb.results, ← slotsOf_map_snd, ← slotsOf_map_fst_congr hsome]
    exact zip_slots _

/-! ## Resolutions -/

namespace ResPredCache

variable {rp : ResPredCache} {cfg : ArgConfig} {task : TaskView α}

/-- The width test of `template_stable`: one value at most. -/
def isSingle (rp : ResPredCache) : Bool :=
  rp.isDep || decide (rp.indexes.length ≤ 1) || decide (rp.indexes.length = rp.nodeFactor)

theorem length_collectCells {arg : ℕ} {cells : List ℕ} {n : ℕ} {vs : List (CmTypes α)}
    (h : rp.collectCells cfg task arg cells n = some (.values vs)) : vs.length = cells.length := by
  induction cells generalizing n vs with
  | nil =>
    obtain rfl := ArgResolution.values.inj (Option.some.inj h)
    rfl
  | cons cell cells ih =>
    unfold collectCells at h
    split at h
    · cases h
    · cases h
    · cases h
    · split at h
      · next v _ vs' hrest =>
        obtain rfl := ArgResolution.values.inj (Option.some.inj h)
        rw [List.length_cons, ih hrest, List.length_cons]
      · next hother => exact absurd h (hother vs)

theorem length_mapM {ι β : Type} {f : ι → Option β} {l : List ι} {l' : List β}
    (h : l.mapM f = some l') : l'.length = l.length := by
  induction l generalizing l' with
  | nil =>
    obtain rfl := Option.some.inj h
    rfl
  | cons i l ih =>
    rw [List.mapM_cons] at h
    obtain ⟨b, -, hrest⟩ := Option.bind_eq_some_iff.mp h
    obtain ⟨l'', hl, hcons⟩ := Option.bind_eq_some_iff.mp hrest
    obtain rfl := Option.some.inj hcons
    rw [List.length_cons, ih hl, List.length_cons]

/-- One instance for a single reference, each of the listed ones for any other. -/
theorem length_depIndexes {j t : ℕ} {cells : List ℕ} (hne : rp.indexes ≠ [])
    (hdep : rp.isDep = false) (h : rp.depIndexes cfg j t = some cells) :
    cells.length = if rp.isSingle then 1 else rp.indexes.length := by
  unfold depIndexes at h
  match hindexes : rp.indexes with
  | [] => exact absurd hindexes hne
  | [declared] =>
    rw [hindexes] at h
    obtain ⟨cell, -, rfl⟩ := Option.map_eq_some_iff.mp h
    simp [isSingle, hindexes]
  | i :: i' :: rest =>
    simp only [hindexes] at h
    have hmany : ¬ (i :: i' :: rest).length ≤ 1 := by simp
    by_cases hlen : (i :: i' :: rest).length = rp.nodeFactor
    · rw [if_pos hlen] at h
      obtain ⟨cell, -, rfl⟩ := Option.map_eq_some_iff.mp h
      rw [if_pos (by simp only [isSingle, hindexes, hlen, decide_true, Bool.or_true])]
      rfl
    · rw [if_neg hlen] at h
      rw [length_mapM h, if_neg]
      simp only [isSingle, hdep, hindexes, hmany, hlen, decide_false, Bool.or_false,
        Bool.false_eq_true, not_false_eq_true]

theorem length_collect {arg : ℕ} {vs : List (CmTypes α)}
    (h : rp.collectResFromCache cfg task arg = some (.values vs)) :
    vs.length = if rp.isSingle then 1 else rp.indexes.length := by
  unfold collectResFromCache at h
  by_cases hdep : rp.isDep = true
  · rw [if_pos hdep] at h
    obtain rfl := ArgResolution.values.inj (Option.some.inj h)
    simp [isSingle, hdep]
  · rw [if_neg hdep] at h
    by_cases hne : rp.indexes = []
    · rw [if_pos hne] at h
      cases h
    · rw [if_neg hne] at h
      obtain ⟨cells, hcells, hcollect⟩ := Option.bind_eq_some_iff.mp h
      rw [length_collectCells hcollect, length_depIndexes hne (Bool.eq_false_iff.mpr hdep) hcells]

/-- A single reference that resolves gives one value. -/
theorem exists_of_isSingle (hs : rp.isSingle = true) {arg : ℕ} {vs : List (CmTypes α)}
    (h : rp.collectResFromCache cfg task arg = some (.values vs)) : ∃ v, vs = [v] := by
  have hlen := length_collect h
  rw [if_pos hs] at hlen
  exact List.length_eq_one_iff.mp hlen

theorem two_le_of_not_isSingle (hs : rp.isSingle = false) : 2 ≤ rp.indexes.length := by
  simp only [isSingle, Bool.or_eq_false_iff, decide_eq_false_iff_not, not_le] at hs
  exact hs.1.2

end ResPredCache

/-! ## Filled slots -/

namespace LoadedArg

variable (initObjects : List (List (CmTypes α))) (a : LoadedArg α)

/-- A `$ref` whose value depends on the instance or on the settings. -/
def isPatched : Bool :=
  a.rtIndex.isSome || a.rtWorkers.isSome || (a.rotation initObjects).isSome

theorem value_of_rtIndex {a : LoadedArg α} (h : a.rtIndex.isSome = true) (workers j : ℕ) :
    a.value initObjects workers j = .usize (UInt64.ofNat j) := by
  obtain ⟨type, cond, pred⟩ := a
  cases type with
  | ref objId =>
    by_cases h0 : objId = 0
    · exact if_pos h0
    · simp [rtIndex, h0] at h
  | _ => cases h

theorem value_of_rtWorkers {a : LoadedArg α} (h : a.rtWorkers.isSome = true) (workers j : ℕ) :
    a.value initObjects workers j = .usize (UInt64.ofNat workers) := by
  obtain ⟨type, cond, pred⟩ := a
  cases type with
  | ref objId =>
    by_cases h1 : objId = 1
    · subst h1
      rfl
    · simp [rtWorkers, h1] at h
  | _ => cases h

theorem value_of_rotation {initObjects : List (List (CmTypes α))} {a : LoadedArg α}
    {objVec : List (CmTypes α)} (h : a.rotation initObjects = some objVec) (workers j : ℕ) :
    a.value initObjects workers j = getObjectValue objVec j := by
  obtain ⟨type, cond, pred⟩ := a
  cases type with
  | ref objId =>
    simp only [rotation] at h
    split at h
    · cases h
    · next h0 =>
      split at h
      · cases h
      · next h1 =>
        split at h
        · next hobj =>
          obtain rfl := Option.some.inj h
          simp only [value, if_neg h0, if_neg h1, hobj, Option.getD_some]
        · cases h
  | _ => cases h

/-- The template holds the value of an argument that is neither patched nor resolved. -/
theorem value_of_not_isPatched {initObjects : List (List (CmTypes α))} {a : LoadedArg α}
    (h : ¬ a.isPatched initObjects = true) (workers j : ℕ) :
    a.value initObjects workers j = a.placeholder initObjects := by
  obtain ⟨type, cond, pred⟩ := a
  cases type with
  | ref objId =>
    by_cases h0 : objId = 0
    · subst h0
      exact absurd rfl h
    · by_cases h1 : objId = 1
      · subst h1
        exact absurd rfl h
      · simp only [value, placeholder, if_neg h0, if_neg h1]
        cases hobj : initObjects[objId]? with
        | none => rfl
        | some objVec =>
          match objVec with
          | [] => rfl
          | [v] => rfl
          | v :: w :: rest =>
            refine absurd ?_ h
            simp [isPatched, rotation, h0, h1, hobj]
  | _ => rfl

theorem value_of_resSlot {initObjects : List (List (CmTypes α))} {a : LoadedArg α}
    (h : a.resSlot.isSome = true) (workers j : ℕ) : a.value initObjects workers j = .none := by
  obtain ⟨type, cond, pred⟩ := a
  cases type with
  | res _ => rfl
  | dep _ => rfl
  | _ => cases h

theorem not_isPatched_of_resSlot {a : LoadedArg α} (h : a.resSlot.isSome = true) :
    a.isPatched initObjects = false := by
  obtain ⟨type, cond, pred⟩ := a
  cases type with
  | res _ => rfl
  | dep _ => rfl
  | _ => cases h

theorem not_rtIndex_of_rtWorkers {a : LoadedArg α} (h : a.rtWorkers.isSome = true) :
    a.rtIndex.isSome = false := by
  obtain ⟨type, cond, pred⟩ := a
  cases type with
  | ref objId =>
    by_cases h1 : objId = 1
    · subst h1
      rfl
    · simp [rtWorkers, h1] at h
  | _ => cases h

end LoadedArg

namespace Laid

variable {initObjects : List (List (CmTypes α))} {layout : List (LoadedArg α)}
  {preds : LoadedArg α → Option ResPredCache} {entry : ArgCacheEntry α}

theorem getElem?_processBufferRefs (h : Laid initObjects layout preds entry) (j : ℕ)
    {buf : List (CmTypes α)} {k : ℕ} (hk : k < buf.length) {a : LoadedArg α}
    (ha : layout[k]? = some a) : (entry.processBufferRefs j buf)[k]? =
      match a.rotation initObjects with
      | some objVec => some (getObjectValue objVec j)
      | none => buf[k]? := by
  unfold ArgCacheEntry.processBufferRefs
  rw [h.buffers]
  have hkeys : ((slotsOf (LoadedArg.rotation initObjects) layout).map fun p =>
      (p.1, getObjectValue p.2 j)).map Prod.fst =
        (slotsOf (LoadedArg.rotation initObjects) layout).map Prod.fst := by
    rw [List.map_map]
    rfl
  cases hrot : a.rotation initObjects with
  | some objVec =>
    exact getElem?_setAll_of_mem (hkeys ▸ slotsOf_keys_nodup layout)
      (List.mem_map.mpr ⟨(k, objVec), mem_slotsOf.mpr ⟨a, ha, hrot⟩, rfl⟩) hk
  | none =>
    apply getElem?_setAll_of_not_mem
    rintro w hw rfl
    have hmem := (mem_slotsOf_keys ha).mp (hkeys ▸ List.mem_map_of_mem (f := Prod.fst) hw)
    rw [hrot] at hmem
    cases hmem

theorem getElem?_processRuntimeRefs (h : Laid initObjects layout preds entry) (j workers : ℕ)
    {buf : List (CmTypes α)} {k : ℕ} (hk : k < buf.length) {a : LoadedArg α}
    (ha : layout[k]? = some a) : (entry.processRuntimeRefs j workers buf)[k]? =
      if a.rtWorkers.isSome = true then some (.usize (UInt64.ofNat workers))
      else if a.rtIndex.isSome = true then some (.usize (UInt64.ofNat j)) else buf[k]? := by
  have hidx : k ∈ entry.rtIdxsIndexes ↔ a.rtIndex.isSome = true := by
    rw [h.indexes]
    exact mem_slotsOf_keys ha
  have hworkers : k ∈ entry.rtWorkersIndexes ↔ a.rtWorkers.isSome = true := by
    rw [h.workers]
    exact mem_slotsOf_keys ha
  have hdisj : k ∈ entry.rtWorkersIndexes → k ∉ entry.rtIdxsIndexes := by
    intro hw hi
    have hnot := LoadedArg.not_rtIndex_of_rtWorkers (hworkers.mp hw)
    rw [hidx.mp hi] at hnot
    cases hnot
  unfold ArgCacheEntry.processRuntimeRefs
  dsimp only
  split
  · next hlen => simp only [getElem?_setPairs hlen hk hdisj, hidx, hworkers]
  · rw [getElem?_setAll_const (by rwa [length_setAll]), getElem?_setAll_const hk]
    simp only [hidx, hworkers]

theorem length_patchRefs (cfg : ArgConfig) (j : ℕ) (buf : List (CmTypes α)) :
    (entry.patchRefs cfg j buf).length = buf.length := by
  unfold ArgCacheEntry.patchRefs ArgCacheEntry.processRuntimeRefs ArgCacheEntry.processBufferRefs
  dsimp only
  split <;> simp

theorem getElem?_patchRefs (h : Laid initObjects layout preds entry) (cfg : ArgConfig) (j : ℕ)
    {buf : List (CmTypes α)} {k : ℕ} (hk : k < buf.length) {a : LoadedArg α}
    (ha : layout[k]? = some a) : (entry.patchRefs cfg j buf)[k]? =
      if a.isPatched initObjects then some (a.value initObjects cfg.workers j) else buf[k]? := by
  have hlen : k < (entry.processBufferRefs j buf).length := by
    rwa [ArgCacheEntry.processBufferRefs, length_setAll]
  unfold ArgCacheEntry.patchRefs
  rw [h.getElem?_processRuntimeRefs j _ hlen ha, h.getElem?_processBufferRefs j hk ha]
  by_cases hworkers : a.rtWorkers.isSome = true
  · have hne : entry.rtWorkersIndexes ≠ [] := by
      rw [h.workers]
      exact List.ne_nil_of_mem ((mem_slotsOf_keys ha).mpr hworkers)
    rw [if_pos hworkers, if_pos (by simp [LoadedArg.isPatched, hworkers]),
      LoadedArg.value_of_rtWorkers _ hworkers, ArgCacheEntry.workerCount, if_pos hne]
  · rw [if_neg hworkers]
    by_cases hindex : a.rtIndex.isSome = true
    · rw [if_pos hindex, if_pos (by simp [LoadedArg.isPatched, hindex]),
        LoadedArg.value_of_rtIndex _ hindex]
    · rw [if_neg hindex]
      cases hrot : a.rotation initObjects with
      | some objVec =>
        rw [if_pos (by simp [LoadedArg.isPatched, hrot]), LoadedArg.value_of_rotation hrot]
      | none => rw [if_neg (by simp [LoadedArg.isPatched, hworkers, hindex, hrot])]

/-- The slots behind the layout are not touched. -/
theorem getElem?_patchRefs_of_le (h : Laid initObjects layout preds entry) (cfg : ArgConfig)
    (j : ℕ) (buf : List (CmTypes α)) {k : ℕ} (hk : layout.length ≤ k) :
    (entry.patchRefs cfg j buf)[k]? = buf[k]? := by
  by_cases hlt : k < buf.length
  · have hnot : ∀ {β : Type} (f : LoadedArg α → Option β),
        k ∉ (slotsOf f layout).map Prod.fst := fun f hmem =>
      absurd (lt_of_mem_slotsOf_keys hmem) (by omega)
    have hbuf : (entry.processBufferRefs j buf)[k]? = buf[k]? := by
      unfold ArgCacheEntry.processBufferRefs
      rw [h.buffers]
      apply getElem?_setAll_of_not_mem
      rintro w hw rfl
      obtain ⟨p, hp, rfl⟩ := List.mem_map.mp hw
      exact hnot _ (List.mem_map.mpr ⟨p, hp, rfl⟩)
    have hlen : k < (entry.processBufferRefs j buf).length := by
      rwa [ArgCacheEntry.processBufferRefs, length_setAll]
    have hidx : k ∉ entry.rtIdxsIndexes := h.indexes ▸ hnot _
    have hworkers : k ∉ entry.rtWorkersIndexes := h.workers ▸ hnot _
    unfold ArgCacheEntry.patchRefs ArgCacheEntry.processRuntimeRefs
    dsimp only
    split
    · next heq =>
      rw [getElem?_setPairs heq hlen (fun hw => absurd hw hworkers), if_neg hworkers, if_neg hidx,
        hbuf]
    · rw [getElem?_setAll_const (by rwa [length_setAll]), getElem?_setAll_const hlen,
        if_neg hworkers, if_neg hidx, hbuf]
  · rw [List.getElem?_eq_none (by rw [length_patchRefs]; omega),
      List.getElem?_eq_none (by omega)]

/-- Slots without a patched reference keep what they have. -/
theorem getElem?_patchRefs_of_not_written (h : Laid initObjects layout preds entry)
    (cfg : ArgConfig) (j : ℕ) (buf : List (CmTypes α)) {k : ℕ}
    (hk : ∀ a, layout[k]? = some a → ¬ a.isPatched initObjects = true) :
    (entry.patchRefs cfg j buf)[k]? = buf[k]? := by
  cases ha : layout[k]? with
  | none => exact h.getElem?_patchRefs_of_le cfg j buf (List.getElem?_eq_none_iff.mp ha)
  | some a =>
    by_cases hlt : k < buf.length
    · rw [h.getElem?_patchRefs cfg j hlt ha, if_neg (hk a ha)]
    · rw [List.getElem?_eq_none (by rw [length_patchRefs]; omega),
        List.getElem?_eq_none (by omega)]

theorem length_layout_le (h : Laid initObjects layout preds entry) :
    layout.length ≤ entry.args.length := by
  obtain ⟨m, hm⟩ := h.args
  rw [hm, List.length_append, List.length_map]
  omega

/-- Before the results are filled in, a fresh buffer holds every argument's value. -/
theorem getElem?_patchRefs_args (h : Laid initObjects layout preds entry) (cfg : ArgConfig) (j : ℕ)
    {k : ℕ} {a : LoadedArg α} (ha : layout[k]? = some a) :
    (entry.patchRefs cfg j entry.args)[k]? = some (a.value initObjects cfg.workers j) := by
  obtain ⟨m, hm⟩ := h.args
  have hk : k < layout.length := (List.getElem?_eq_some_iff.mp ha).1
  have hslot : entry.args[k]? = some (a.placeholder initObjects) := by
    rw [hm, List.getElem?_append_left (by rwa [List.length_map]), List.getElem?_map, ha]
    rfl
  rw [h.getElem?_patchRefs cfg j (List.getElem?_eq_some_iff.mp hslot).1 ha]
  split
  · rfl
  · next hpatched => rw [hslot, LoadedArg.value_of_not_isPatched hpatched]

end Laid

/-! ## Filled results -/

namespace ArgCacheEntry

variable {cfg : ArgConfig} {task : TaskView α}

/-- What a slot holds when its argument was resolved to `res`; one without a value keeps what it
had. -/
def Holds (res : Option (ArgResolution α)) (buf buf' : List (CmTypes α)) (idx : ℕ) : Prop :=
  match res with
  | some (.values vs) => vs <+: buf'.drop idx
  | _ => buf'[idx]? = buf[idx]?

theorem singleton_prefix_drop {β : Type} {v : β} {l : List β} {k : ℕ} (h : l[k]? = some v) :
    [v] <+: l.drop k := by
  obtain ⟨hlt, hget⟩ := List.getElem?_eq_some_iff.mp h
  rw [List.drop_eq_getElem_cons hlt, hget]
  exact ⟨_, rfl⟩

theorem getElem?_of_prefix_drop {β : Type} {v : β} {vs l : List β} {k : ℕ}
    (h : v :: vs <+: l.drop k) : l[k]? = some v := by
  obtain ⟨tail, htail⟩ := h
  have hget := congrArg (·[0]?) htail
  simpa using hget.symm

/-- Filling keeps every value in its slot when only the last slot of the layout takes several. -/
theorem fillResults_holds {L : ℕ} {rs : List (ℕ × ResPredCache)} {arg : ℕ}
    {buf buf' : List (CmTypes α)} (hsorted : rs.Pairwise fun v w => v.1 < w.1)
    (hlt : ∀ w ∈ rs, w.1 < L) (hL : L ≤ buf.length)
    (hwide : ∀ w ∈ rs, w.2.isSingle = false → w.1 + 1 = L)
    (h : fillResults cfg task rs arg buf = some (buf', false)) :
    (∀ k < L, (∀ w ∈ rs, w.1 ≠ k) → buf'[k]? = buf[k]?) ∧
      ∀ (i : ℕ) (w : ℕ × ResPredCache), rs[i]? = some w →
        Holds (w.2.collectResFromCache cfg task (arg + i)) buf buf' w.1 := by
  induction rs generalizing arg buf with
  | nil =>
    obtain ⟨rfl, -⟩ := Prod.mk.inj (Option.some.inj h)
    exact ⟨fun _ _ _ => rfl, fun _ _ hw => by cases hw⟩
  | cons w rest ih =>
    obtain ⟨hfirst, hsorted⟩ := List.pairwise_cons.mp hsorted
    rw [List.forall_mem_cons] at hlt hwide
    have hlater : ∀ v ∈ rest, v.1 ≠ w.1 := fun v hv => (hfirst v hv).ne'
    have hshift : ∀ i, arg + (i + 1) = arg + 1 + i := fun i => by omega
    cases fillResults_cons h with
    | stale hstale => cases hstale
    | missing hres hrest =>
      obtain ⟨hframe, hholds⟩ := ih hsorted hlt.2 hL hwide.2 hrest
      refine ⟨fun k hk hne => hframe k hk fun v hv => hne v (List.mem_cons_of_mem _ hv), ?_⟩
      intro i v hv
      cases i with
      | zero =>
        obtain rfl := Option.some.inj hv
        rw [Nat.add_zero, hres]
        exact hframe _ hlt.1 hlater
      | succ i =>
        rw [hshift]
        exact hholds i v hv
    | single x hres hrest =>
      obtain ⟨hframe, hholds⟩ := ih hsorted hlt.2 (by rwa [List.length_set]) hwide.2 hrest
      have hset : ∀ k, k ≠ w.1 → (buf.set w.1 x)[k]? = buf[k]? := fun k hk =>
        List.getElem?_set_ne hk.symm
      refine ⟨fun k hk hne => ?_, ?_⟩
      · rw [List.forall_mem_cons] at hne
        rw [hframe k hk hne.2, hset k hne.1.symm]
      · intro i v hv
        cases i with
        | zero =>
          obtain rfl := Option.some.inj hv
          rw [Nat.add_zero, hres]
          apply singleton_prefix_drop
          rw [hframe _ hlt.1 hlater, List.getElem?_set_self (by omega)]
        | succ i =>
          have hv' : v ∈ rest := List.mem_of_getElem? hv
          have hrow := hholds i v hv
          rw [hshift]
          unfold Holds at hrow ⊢
          rw [hset v.1 (hlater v hv')] at hrow
          exact hrow
    | many vs hvs hres hrest =>
      have hsingle : w.2.isSingle = false := by
        by_contra hne
        obtain ⟨v, rfl⟩ := ResPredCache.exists_of_isSingle (Bool.not_eq_false _ ▸ hne) hres
        exact hvs rfl
      have hlast := hwide.1 hsingle
      have hnil : rest = [] := by
        refine List.eq_nil_iff_forall_not_mem.mpr fun v hv => ?_
        have hgt := hfirst v hv
        have hle := hlt.2 v hv
        omega
      subst hnil
      obtain ⟨rfl, -⟩ := Prod.mk.inj (Option.some.inj hrest)
      refine ⟨fun k hk hne => ?_, ?_⟩
      · have hk' : w.1 ≠ k := hne w List.mem_cons_self
        exact getElem?_splice_of_lt (by omega) (by omega) vs
      · intro i v hv
        cases i with
        | zero =>
          obtain rfl := Option.some.inj hv
          rw [Nat.add_zero, hres]
          exact prefix_drop_splice (by omega) vs
        | succ i => cases hv

end ArgCacheEntry

end Tomii
