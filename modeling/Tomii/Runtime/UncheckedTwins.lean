import Tomii.Exports.Agreement
import Tomii.Runtime.BulkArgs

/-! # Unchecked wrapper twins (`select_unchecked_wrappers`)

A node calls the twin of its wrapper when a static analysis of its argument cache gives every slot
the variant that the wrapper takes. Against the buffers that the twin is called with. -/
namespace Tomii
set_option autoImplicit false
set_option maxHeartbeats 250000

variable {α : Type}

/-! ## Tables -/

/-- `variant_tag` -/
def CmTypes.variantTag : CmTypes α → Text
  | .bool _ => "Bool".toList
  | .i8 _ => "I8".toList
  | .i16 _ => "I16".toList
  | .i32 _ => "I32".toList
  | .i64 _ => "I64".toList
  | .u8 _ => "U8".toList
  | .u16 _ => "U16".toList
  | .u32 _ => "U32".toList
  | .u64 _ => "U64".toList
  | .f32 _ => "F32".toList
  | .f64 _ => "F64".toList
  | .char _ => "Char".toList
  | .usize _ => "Usize".toList
  | .isize _ => "Isize".toList
  | .i128 _ => "I128".toList
  | .u128 _ => "U128".toList
  | .string _ => "String".toList
  | .complex32 _ => "Complex32".toList
  | .complex64 _ => "Complex64".toList
  | .vecCmt _ => "VecCmt".toList
  | .ref _ => "Ref".toList
  | .res _ => "Res".toList
  | .dep _ => "Dep".toList
  | .barrier _ => "Barrier".toList
  | .none => "None".toList
  | .init => "Init".toList
  | .any _ => "Any".toList
  | .anySliced _ => "AnySliced".toList
  | .vecAny _ => "VecAny".toList
  | .bytes _ => "Bytes".toList
  | .anyHeld _ => "AnyHeld".toList

/-- What the selection reads of a registered kernel (`dynamic_registry::Kernel`). -/
structure Kernel where
  unchecked : Bool
  argspec : Option (List Text)
  retVariant : Option Text

/-- The registry; argument specs are rendered by the converter. -/
structure FuncReg where
  kernel : String → Option Kernel
  rendered : ∀ name k spec, kernel name = some k → k.argspec = some spec →
    ∃ entry : Exports.ExportedFn, spec = Exports.entryArgspec entry

namespace FuncReg

variable (reg : FuncReg) (name : String)

/-- `get_unchecked_func`, as far as there is one. -/
def getUncheckedFunc : Bool := (reg.kernel name).any (·.unchecked)

def getFuncArgspec : Option (List Text) := (reg.kernel name).bind (·.argspec)

def getFuncRetVariant : Option Text := (reg.kernel name).bind (·.retVariant)

end FuncReg

/-! ## Selection -/

namespace ArgCacheEntry

variable (reg : FuncReg) (nodes : List (LoadedNode α)) (cfg : ArgConfig) (entry : ArgCacheEntry α)

/-- The `$res` branch of `provable_variant`. -/
def provableResult (rp : ResPredCache) : Option Text :=
  if rp.isDep then some "None".toList
  else if rp.nodeGroupSize.isSome || rp.predGroupSize.isSome then none
  else if (cfg.predGroupBy rp.nodeId rp.resNodeId).isSome then none
  else (nodes[rp.resNodeId]?).bind fun pred => reg.getFuncRetVariant pred.funcName

/-- The tag that all values of a rotation share. -/
def commonTag (values : List (CmTypes α)) : Option Text :=
  match values.map CmTypes.variantTag with
  | [] => none
  | first :: tags => if tags.all (· = first) then some first else none

/-- `provable_variant` -/
def provableVariant (argIdx : ℕ) : Option Text :=
  match entry.resIndexes.findIdx? (· = argIdx) with
  | some pos => (entry.resPredecessors[pos]?).bind (provableResult reg nodes cfg)
  | none =>
    if argIdx ∈ entry.rtIdxsIndexes ∨ argIdx ∈ entry.rtWorkersIndexes then some "Usize".toList
    else
      match entry.bufferRefIndexes.findIdx? (· = argIdx) with
      | some bpos => (entry.bufferValues[bpos]?).bind commonTag
      | none => (entry.args[argIdx]?).map CmTypes.variantTag

/-- `spec[..fixed]`: a variadic tail asks nothing. -/
def fixedSpec (spec : List Text) : List Text :=
  spec.take (spec.length - if spec.getLast? = some "...".toList then 1 else 0)

/-- `select_unchecked_wrappers` for one node: what the twin takes, if it is installed. -/
def selectUncheckedWrapper (unchecked templatesDisabled : Bool) (node : LoadedNode α) :
    Option (List Text) :=
  if !unchecked then none
  else if !entry.templateStable templatesDisabled node.name || decide (node.name = "$network") then
    none
  else
    match reg.getFuncArgspec node.funcName with
    | none => none
    | some spec =>
      let fixed := fixedSpec spec
      if entry.args.length < fixed.length then none
      else if !fixed.zipIdx.all fun p =>
          p.1 = "*".toList || entry.provableVariant reg nodes cfg p.2 = some p.1 then none
      else if reg.getUncheckedFunc node.funcName then some fixed
      else none

/-! ## Calls -/

/-- What the twin relies on. -/
def MeetsSpec (fixed : List Text) (call : List (CmTypes α)) : Prop :=
  fixed.length ≤ call.length ∧
    ∀ (i : ℕ) (req : Text), fixed[i]? = some req → req ≠ "*".toList →
      (call[i]?).map CmTypes.variantTag = some req

/-- The task finds results of the variants that the table has for their functions. -/
def Described (task : TaskView α) : Prop :=
  ∀ arg n cell v, ((task.looks arg n cell).first = some v ∨
      ∃ poll ∈ (task.looks arg n cell).polls, poll.result = some v) →
    ∀ pred tag, nodes[cell.id]? = some pred → reg.getFuncRetVariant pred.funcName = some tag →
      v.variantTag = tag

/-- The calls of `func_ptr` on a template-stable node: the buffer before and after it is patched for
the task. -/
inductive TwinCall : List (CmTypes α) → TaskView α → List (CmTypes α) → Prop
  | single {template : List (CmTypes α)} {task : TaskView α} {call : List (CmTypes α)}
      (tasks : List (TaskView α)) (htasks : ∀ t ∈ tasks, Described reg nodes t)
      (hrun : entry.TemplateRun cfg entry.args tasks template) (htask : Described reg nodes task)
      (hfill : entry.populateDynamicArgsInto cfg task template = some (call, false)) :
      TwinCall template task call
  | bulk {before call : List (CmTypes α)} (view : ℕ → TaskView α)
      (hview : ∀ j, Described reg nodes (view j)) (index bulkCount : ℕ)
      (calls : List (List (CmTypes α))) (stale : Bool)
      (hcalls : entry.executeBulk cfg view index bulkCount = some (calls, stale)) (i : ℕ)
      (hbefore : (entry.args.map CmTypes.hold :: calls)[i]? = some before)
      (hcall : calls[i]? = some call) :
      TwinCall before (view (index + i)) call

/-- A slot that the twin relies on is still empty, and the task has nothing for it: no index, or a
wait that it gives up. -/
def Hole (fixed : List Text) (before : List (CmTypes α)) (task : TaskView α) : Prop :=
  ∃ i w req, (entry.resIndexes.zip entry.resPredecessors)[i]? = some w ∧ fixed[w.1]? = some req ∧
    req ≠ "*".toList ∧ before[w.1]? = some .none ∧
      (w.2.indexes = [] ∨
        ∃ depIdx, w.2.depIndexes cfg task.nodeIndex task.predIndex = some [depIdx] ∧
          GivesUp cfg task.execGen (task.looks i 0 ⟨task.slot, w.2.resNodeId, depIdx⟩))

end ArgCacheEntry

/-! ## What is proved of a slot -/

/-- No wrapper takes a placeholder or an object. -/
theorem argspec_ne (kind : Exports.CmParamKind) :
    kind.argspec ≠ "None".toList ∧ kind.argspec ≠ "Any".toList := by
  cases kind with
  | primitive k => cases k <;> decide
  | _ => decide

namespace ArgCacheEntry

variable {reg : FuncReg} {nodes : List (LoadedNode α)} {cfg : ArgConfig} {entry : ArgCacheEntry α}

/-- What an installed twin says of the node. -/
structure Selected (reg : FuncReg) (nodes : List (LoadedNode α)) (cfg : ArgConfig)
    (entry : ArgCacheEntry α) (fixed : List Text) : Prop where
  length : fixed.length ≤ entry.args.length
  proved : ∀ i req, fixed[i]? = some req → req ≠ "*".toList →
    entry.provableVariant reg nodes cfg i = some req
  vocabulary : ∀ req ∈ fixed, req ≠ "None".toList ∧ req ≠ "Any".toList

theorem selected_of_selectUncheckedWrapper {unchecked templatesDisabled : Bool}
    {node : LoadedNode α} {fixed : List Text}
    (h : entry.selectUncheckedWrapper reg nodes cfg unchecked templatesDisabled node = some fixed) :
    entry.templateStable templatesDisabled node.name = true ∧
      Selected reg nodes cfg entry fixed := by
  unfold selectUncheckedWrapper at h
  split at h
  · cases h
  · split at h
    · cases h
    · next hstable =>
      simp only [Bool.or_eq_true, Bool.not_eq_true', not_or, Bool.not_eq_false] at hstable
      split at h
      · cases h
      · next spec hspec =>
        dsimp only at h
        split at h
        · cases h
        · next hlen =>
          split at h
          · cases h
          · next hall =>
            split at h
            · obtain rfl := Option.some.inj h
              obtain ⟨k, hk, hargspec⟩ := Option.bind_eq_some_iff.mp hspec
              obtain ⟨e, rfl⟩ := reg.rendered _ _ _ hk hargspec
              refine ⟨hstable.1, not_lt.mp hlen, fun i req hi hreq => ?_, fun req hreq => ?_⟩
              · simp only [Bool.not_eq_true', Bool.not_eq_false, List.all_eq_true] at hall
                have hrow := hall (req, i) (List.mk_mem_zipIdx_iff_getElem?.mpr hi)
                rw [Bool.or_eq_true, decide_eq_true_eq, decide_eq_true_eq] at hrow
                exact hrow.resolve_left hreq
              · obtain ⟨p, -, rfl⟩ := List.mem_map.mp (List.mem_of_mem_take hreq)
                exact argspec_ne p.kind
            · cases h

end ArgCacheEntry

/-! ## Filled results -/

namespace ResPredCache

variable {reg : FuncReg} {nodes : List (LoadedNode α)} {rp : ResPredCache} {cfg : ArgConfig}
  {task : TaskView α}

theorem spinWait_found {singleSlotMode : Bool} {execGen : Option UInt32} {polls : List (Poll α)}
    {v : CmTypes α} (h : spinWaitForResult singleSlotMode execGen polls = some (.found v)) :
    ∃ poll ∈ polls, poll.result = some v := by
  induction polls with
  | nil => cases h
  | cons p polls ih =>
    unfold spinWaitForResult at h
    cases hresult : p.result with
    | some w =>
      rw [hresult] at h
      obtain rfl := CellRead.found.inj (Option.some.inj h)
      exact ⟨p, List.mem_cons_self, hresult⟩
    | none =>
      rw [hresult] at h
      dsimp only at h
      split at h
      · cases h
      · split at h
        · split at h <;> cases h
        · obtain ⟨poll, hpoll, hv⟩ := ih h
          exact ⟨poll, List.mem_cons_of_mem _ hpoll, hv⟩

/-- A value that a reference finds is of the variant that the table has for its node. -/
theorem collect_described (htask : ArgCacheEntry.Described reg nodes task) (hdep : rp.isDep = false)
    {arg : ℕ} {v : CmTypes α} (h : rp.collectResFromCache cfg task arg = some (.values [v]))
    {pred : LoadedNode α} (hpred : nodes[rp.resNodeId]? = some pred) {tag : Text}
    (htag : reg.getFuncRetVariant pred.funcName = some tag) : v.variantTag = tag := by
  unfold collectResFromCache at h
  rw [if_neg (by rw [hdep]; decide)] at h
  split at h
  · cases h
  · obtain ⟨cells, -, hcells⟩ := Option.bind_eq_some_iff.mp h
    cases cells with
    | nil => cases hcells
    | cons depIdx rest =>
      unfold collectCells at hcells
      cases hread : readCell cfg task (task.looks arg 0 ⟨task.slot, rp.resNodeId, depIdx⟩) with
      | none =>
        rw [hread] at hcells
        cases hcells
      | some read =>
        rw [hread] at hcells
        cases read with
        | stale => cases hcells
        | abandoned => cases hcells
        | found w =>
          have hw : w = v := by
            dsimp only at hcells
            split at hcells
            · exact (List.cons.inj (ArgResolution.values.inj (Option.some.inj hcells))).1
            · next hother => exact absurd hcells (hother _)
          subst hw
          refine htask arg 0 ⟨task.slot, rp.resNodeId, depIdx⟩ w ?_ pred tag hpred htag
          unfold readCell at hread
          cases hfirst : (task.looks arg 0 ⟨task.slot, rp.resNodeId, depIdx⟩).first with
          | some x =>
            rw [hfirst] at hread
            obtain rfl := CellRead.found.inj (Option.some.inj hread)
            exact .inl rfl
          | none =>
            rw [hfirst] at hread
            exact .inr (spinWait_found hread)

end ResPredCache

namespace ArgCacheEntry

variable {cfg : ArgConfig} {task : TaskView α}

/-- A slot keeps its value or gets one that its reference found, stale or not. -/
theorem fillResults_slot {rs : List (ℕ × ResPredCache)} {arg : ℕ} {buf buf' : List (CmTypes α)}
    {stale : Bool} (hsingle : ∀ w ∈ rs, w.2.isSingle = true)
    (h : fillResults cfg task rs arg buf = some (buf', stale)) (k : ℕ) :
    buf'[k]? = buf[k]? ∨ ∃ w ∈ rs, w.1 = k ∧ ∃ i v,
      w.2.collectResFromCache cfg task i = some (.values [v]) ∧ buf'[k]? = some v := by
  induction rs generalizing arg buf with
  | nil =>
    obtain ⟨rfl, -⟩ := Prod.mk.inj (Option.some.inj h)
    exact .inl rfl
  | cons w rest ih =>
    rw [List.forall_mem_cons] at hsingle
    have hlift : ∀ {mid : List (CmTypes α)},
        fillResults cfg task rest (arg + 1) mid = some (buf', stale) →
          buf'[k]? = mid[k]? ∨ ∃ v ∈ w :: rest, v.1 = k ∧ ∃ i x,
            v.2.collectResFromCache cfg task i = some (.values [x]) ∧ buf'[k]? = some x := by
      intro mid hmid
      rcases ih hsingle.2 hmid with hkeep | ⟨v, hv, hrest⟩
      · exact .inl hkeep
      · exact .inr ⟨v, List.mem_cons_of_mem _ hv, hrest⟩
    cases fillResults_cons h with
    | stale _ hbuf => exact .inl (by rw [hbuf])
    | missing _ hrest => exact hlift hrest
    | single x hres hrest =>
      rcases hlift hrest with hkeep | hfound
      · by_cases hkey : w.1 = k
        · by_cases hlt : k < buf.length
          · refine .inr ⟨w, List.mem_cons_self, hkey, arg, x, hres, ?_⟩
            rw [hkeep, hkey, List.getElem?_set_self hlt]
          · left
            rw [hkeep, List.getElem?_eq_none (by rw [List.length_set]; omega),
              List.getElem?_eq_none (by omega)]
        · exact .inl (by rw [hkeep, List.getElem?_set_ne hkey])
      · exact .inr hfound
    | many vs hvs hres =>
      obtain ⟨v, rfl⟩ := ResPredCache.exists_of_isSingle hsingle.1 hres
      exact absurd rfl hvs

end ArgCacheEntry

/-! ## Slots -/

/-- What the analysis says of a slot, by the argument that has it. -/
inductive SlotProof (reg : FuncReg) (nodes : List (LoadedNode α)) (cfg : ArgConfig)
    (initObjects : List (List (CmTypes α))) (layout : List (LoadedArg α))
    (preds : LoadedArg α → Option ResPredCache) (entry : ArgCacheEntry α) (k : ℕ) (req : Text) :
    Prop
  | result (rp : ResPredCache) (hslot : (k, rp) ∈ slotsOf preds layout)
      (hreq : ArgCacheEntry.provableResult reg nodes cfg rp = some req)
  | patched (a : LoadedArg α) (ha : layout[k]? = some a) (hpatched : a.isPatched initObjects = true)
      (hvalue : ∀ workers j, (a.value initObjects workers j).variantTag = req)
  | static (hkeep : ¬ WrittenSlot initObjects layout preds k)
      (hargs : (entry.args[k]?).map CmTypes.variantTag = some req)

theorem ArgCacheEntry.variantTag_of_commonTag {values : List (CmTypes α)} {tag : Text}
    (h : commonTag values = some tag) : ∀ v ∈ values, v.variantTag = tag := by
  unfold commonTag at h
  cases values with
  | nil => cases h
  | cons first rest =>
    rw [List.map_cons] at h
    dsimp only at h
    split at h
    · next hall =>
      obtain rfl := Option.some.inj h
      rw [List.forall_mem_cons]
      refine ⟨rfl, fun v hv => ?_⟩
      simpa using List.all_eq_true.mp hall _ (List.mem_map_of_mem hv)
    · cases h

theorem getObjectValue_mem {objVec : List (CmTypes α)} (h : 1 < objVec.length) (j : ℕ) :
    getObjectValue objVec j ∈ objVec := by
  have hlt : j % objVec.length < objVec.length := Nat.mod_lt _ (by omega)
  rw [getObjectValue, if_pos h, List.getD_eq_getElem _ _ hlt]
  exact List.getElem_mem hlt

theorem LoadedArg.one_lt_of_rotation {initObjects : List (List (CmTypes α))} {a : LoadedArg α}
    {objVec : List (CmTypes α)} (h : a.rotation initObjects = some objVec) : 1 < objVec.length := by
  obtain ⟨type, cond, pred⟩ := a
  cases type with
  | ref objId =>
    simp only [rotation] at h
    split at h
    · cases h
    · split at h
      · cases h
      · split at h
        · obtain rfl := Option.some.inj h
          simp
        · cases h
  | _ => cases h

/-- The first position of a key and what is stored there. -/
theorem mem_zip_of_findIdx? {β : Type} {is : List ℕ} {js : List β} {k pos : ℕ} {b : β}
    (hpos : is.findIdx? (· = k) = some pos) (hb : js[pos]? = some b) : (k, b) ∈ is.zip js := by
  obtain ⟨hlt, hkey, -⟩ := List.findIdx?_eq_some_iff_getElem.mp hpos
  refine List.mem_of_getElem? (i := pos) (List.getElem?_zip_eq_some.mpr ⟨?_, hb⟩)
  rw [List.getElem?_eq_getElem hlt, of_decide_eq_true hkey]

theorem not_mem_of_findIdx? {β : Type} {is : List ℕ} {js : List β} {k : ℕ}
    (hnone : is.findIdx? (· = k) = none) (b : β) : (k, b) ∉ is.zip js := by
  intro hmem
  have hkey := List.findIdx?_eq_none_iff.mp hnone k (List.of_mem_zip hmem).1
  exact absurd hkey (by simp)

namespace Laid

variable {initObjects : List (List (CmTypes α))} {layout : List (LoadedArg α)}
  {preds : LoadedArg α → Option ResPredCache} {entry : ArgCacheEntry α} {cfg : ArgConfig}
  {reg : FuncReg} {nodes : List (LoadedNode α)}

theorem slotProof (h : Laid initObjects layout preds entry) {k : ℕ} {req : Text}
    (hreq : entry.provableVariant reg nodes cfg k = some req) :
    SlotProof reg nodes cfg initObjects layout preds entry k req := by
  unfold ArgCacheEntry.provableVariant at hreq
  split at hreq
  · next pos hpos =>
    obtain ⟨rp, hrp, hproved⟩ := Option.bind_eq_some_iff.mp hreq
    exact .result rp (h.results ▸ mem_zip_of_findIdx? hpos hrp) hproved
  · next hnone =>
    have hres : ∀ rp, (k, rp) ∉ slotsOf preds layout := fun rp =>
      h.results ▸ not_mem_of_findIdx? hnone rp
    split at hreq
    · next hruntime =>
      obtain rfl := Option.some.inj hreq
      rw [h.indexes, h.workers] at hruntime
      obtain ⟨a, ha⟩ : ∃ a, layout[k]? = some a := by
        rcases hruntime with hmem | hmem
        · exact ⟨_, List.getElem?_eq_getElem (lt_of_mem_slotsOf_keys hmem)⟩
        · exact ⟨_, List.getElem?_eq_getElem (lt_of_mem_slotsOf_keys hmem)⟩
      rw [mem_slotsOf_keys ha, mem_slotsOf_keys ha] at hruntime
      refine .patched a ha ?_ fun workers j => ?_
      · rcases hruntime with hindex | hworkers
        · simp [LoadedArg.isPatched, hindex]
        · simp [LoadedArg.isPatched, hworkers]
      · rcases hruntime with hindex | hworkers
        · rw [LoadedArg.value_of_rtIndex _ hindex]
          rfl
        · rw [LoadedArg.value_of_rtWorkers _ hworkers]
          rfl
    · next hruntime =>
      split at hreq
      · next bpos hbpos =>
        obtain ⟨values, hvalues, htag⟩ := Option.bind_eq_some_iff.mp hreq
        have hmem := mem_zip_of_findIdx? hbpos hvalues
        rw [h.buffers] at hmem
        obtain ⟨a, ha, hrot⟩ := mem_slotsOf.mp hmem
        refine .patched a ha (by simp [LoadedArg.isPatched, hrot]) fun workers j => ?_
        rw [LoadedArg.value_of_rotation hrot]
        exact ArgCacheEntry.variantTag_of_commonTag htag _
          (getObjectValue_mem (LoadedArg.one_lt_of_rotation hrot) j)
      · next hbuffer =>
        refine .static ?_ hreq
        rintro ⟨a, ha, hpatched | ⟨rp, hpred, -⟩⟩
        · rw [not_or, h.indexes, h.workers, mem_slotsOf_keys ha, mem_slotsOf_keys ha] at hruntime
          cases hrot : a.rotation initObjects with
          | some objVec =>
            have hmem : (k, objVec) ∈ entry.bufferRefIndexes.zip entry.bufferValues := by
              rw [h.buffers]
              exact mem_slotsOf.mpr ⟨a, ha, hrot⟩
            exact not_mem_of_findIdx? hbuffer objVec hmem
          | none => simp [LoadedArg.isPatched, hruntime, hrot] at hpatched
        · exact hres rp (mem_slotsOf.mpr ⟨a, ha, hpred⟩)

variable {start template call : List (CmTypes α)} {tasks : List (TaskView α)} {task : TaskView α}

/-- On every history of tasks a `$res` slot is empty or has the variant of its table entry. -/
theorem templateRun_result (h : Laid initObjects layout preds entry)
    (hsingle : ∀ a ∈ layout, ∀ rp, preds a = some rp → rp.isSingle = true)
    (hstart : Blank layout preds entry start)
    (htasks : ∀ t ∈ tasks, ArgCacheEntry.Described reg nodes t)
    (hrun : entry.TemplateRun cfg start tasks template) {w : ℕ × ResPredCache}
    (hw : w ∈ slotsOf preds layout) (hdep : w.2.isDep = false) {pred : LoadedNode α}
    (hpred : nodes[w.2.resNodeId]? = some pred) {req : Text}
    (hreq : reg.getFuncRetVariant pred.funcName = some req) :
    template[w.1]? = some .none ∨ (template[w.1]?).map CmTypes.variantTag = some req := by
  induction hrun with
  | fresh => exact .inl (hstart.results w hw)
  | @task tasks template template' stale hrun task hfill ih =>
    have ih := ih fun t ht => htasks t (List.mem_append_left _ ht)
    have htask := htasks task (List.mem_append_right _ List.mem_cons_self)
    rw [ArgCacheEntry.populateDynamicArgsInto, h.results] at hfill
    rcases ArgCacheEntry.fillResults_slot (h.single_of_mem hsingle) hfill w.1 with
      hkeep | ⟨v, hv, hkey, i, x, hres, hslot⟩
    · rwa [hkeep, h.getElem?_patchRefs_of_res cfg task.nodeIndex template hw]
    · obtain rfl : v = w := by
        obtain ⟨a, ha, hva⟩ := mem_slotsOf.mp hv
        obtain ⟨b, hb, hwb⟩ := mem_slotsOf.mp hw
        rw [hkey, hb, Option.some.injEq] at ha
        rw [← ha, hwb, Option.some.injEq] at hva
        exact Prod.ext hkey hva.symm
      right
      rw [hslot, Option.map_some, ResPredCache.collect_described htask hdep hres hpred hreq]

/-- What a call finds in a slot that the analysis has proved: the variant, or the placeholder where
the slot was empty and the task has nothing for it. -/
theorem call_slot (h : Laid initObjects layout preds entry)
    (hsingle : ∀ a ∈ layout, ∀ rp, preds a = some rp → rp.isSingle = true)
    (hstart : start = entry.args ∨ start = entry.args.map CmTypes.hold)
    (htasks : ∀ t ∈ tasks, ArgCacheEntry.Described reg nodes t)
    (hrun : entry.TemplateRun cfg start tasks template)
    (htask : ArgCacheEntry.Described reg nodes task)
    (hfill : entry.populateDynamicArgsInto cfg task template = some (call, false)) {k : ℕ}
    {req : Text} (hnone : req ≠ "None".toList) (hany : req ≠ "Any".toList)
    (hproof : SlotProof reg nodes cfg initObjects layout preds entry k req) :
    (call[k]?).map CmTypes.variantTag = some req ∨
      ∃ (i : ℕ) (w : ℕ × ResPredCache), (slotsOf preds layout)[i]? = some w ∧ w.1 = k ∧
        template[k]? = some .none ∧ w.2.collectResFromCache cfg task i = some .missing := by
  have hblank : Blank layout preds entry start := by
    rcases hstart with rfl | rfl
    · exact h.blank_args
    · exact h.blank_hold
  obtain ⟨hlen, hframe⟩ := h.templateRun_frame hsingle hrun
  cases hproof with
  | static hkeep hargs =>
    left
    rw [h.populate_frame hsingle hfill hkeep, hframe k hkeep]
    rcases hstart with rfl | rfl
    · exact hargs
    · obtain ⟨v, hv, rfl⟩ := Option.map_eq_some_iff.mp hargs
      rw [List.getElem?_map, hv]
      cases v with
      | any a => exact absurd rfl hany
      | _ => rfl
  | patched a ha hpatched hvalue =>
    left
    have hk : k < template.length := by
      have hlt := (List.getElem?_eq_some_iff.mp ha).1
      have hargs := h.length_layout_le
      have hsame := hblank.length
      omega
    rw [ArgCacheEntry.populateDynamicArgsInto, h.results] at hfill
    rw [ArgCacheEntry.fillResults_frame (h.single_of_mem hsingle) (fun w hw hkey => ?_) hfill,
      h.getElem?_patchRefs cfg _ hk ha, if_pos hpatched, Option.map_some, hvalue]
    obtain ⟨b, hb, hpred⟩ := mem_slotsOf.mp hw
    rw [hkey, ha, Option.some.injEq] at hb
    rw [hb, LoadedArg.not_isPatched_of_resSlot _ (by
      rw [← h.isSome b (List.mem_of_getElem? (hb ▸ ha)), hpred]
      rfl)] at hpatched
    cases hpatched
  | result rp hslot hproved =>
    unfold ArgCacheEntry.provableResult at hproved
    split at hproved
    · exact absurd (Option.some.inj hproved).symm hnone
    · next hdep =>
      rw [Bool.not_eq_true] at hdep
      split at hproved
      · cases hproved
      · split at hproved
        · cases hproved
        · obtain ⟨pred, hpred, hreq⟩ := Option.bind_eq_some_iff.mp hproved
          obtain ⟨i, hi⟩ := List.mem_iff_getElem?.mp hslot
          have hold := h.templateRun_result hsingle hblank htasks hrun hslot hdep hpred hreq
          rcases h.call_result hsingle (hlen.trans hblank.length) hfill hi with
            ⟨v, hres, hcall⟩ | ⟨hres, hcall⟩
          · left
            rw [hcall, Option.map_some, ResPredCache.collect_described htask hdep hres hpred hreq]
          · rcases hold with hempty | htag
            · exact .inr ⟨i, (k, rp), hi, rfl, hempty, hres⟩
            · exact .inl (by rwa [hcall])

end Laid

/-! ## Calls of the twin -/

namespace ArgCacheEntry

variable {reg : FuncReg} {nodes : List (LoadedNode α)} {cfg : ArgConfig} {entry : ArgCacheEntry α}

/-- The buffers of the per-cell loop are those of a run. -/
theorem bulkCalls_run {view : ℕ → TaskView α} {start buf before call : List (CmTypes α)}
    {tasks : List (TaskView α)} {inst count i : ℕ} {calls : List (List (CmTypes α))} {stale : Bool}
    (hrun : entry.TemplateRun cfg start tasks buf)
    (h : entry.bulkCalls cfg view inst count buf = some (calls, stale))
    (hbefore : (buf :: calls)[i]? = some before) (hcall : calls[i]? = some call) :
    ∃ done, entry.TemplateRun cfg start done before ∧ (∀ t ∈ done, t ∈ tasks ∨ ∃ j, t = view j) ∧
      entry.populateDynamicArgsInto cfg (view (inst + i)) before = some (call, false) := by
  induction count generalizing inst buf tasks calls i with
  | zero =>
    obtain ⟨rfl, -⟩ := Prod.mk.inj (Option.some.inj h)
    cases hcall
  | succ count ih =>
    rw [bulkCalls_succ] at h
    split at h
    · cases h
    · obtain ⟨rfl, -⟩ := Prod.mk.inj (Option.some.inj h)
      cases hcall
    · next buf' hfill =>
      obtain ⟨⟨rest, stale'⟩, hrest, hcons⟩ := Option.map_eq_some_iff.mp h
      obtain ⟨rfl, rfl⟩ := Prod.mk.inj hcons
      cases i with
      | zero =>
        obtain rfl := Option.some.inj hbefore
        obtain rfl := Option.some.inj hcall
        exact ⟨tasks, hrun, fun t ht => .inl ht, hfill⟩
      | succ i =>
        obtain ⟨done, hdone, hmem, hlast⟩ := ih (hrun.task _ hfill) hrest hbefore hcall
        refine ⟨done, hdone, fun t ht => ?_, ?_⟩
        · rcases hmem t ht with hold | hview
          · rcases List.mem_append.mp hold with hold | hnew
            · exact .inl hold
            · exact .inr ⟨inst, List.mem_singleton.mp hnew⟩
          · exact .inr hview
        · rwa [show inst + (i + 1) = inst + 1 + i by omega]

/-- Every call patches a buffer that tasks have patched before, from the template or its upgrade. -/
theorem TwinCall.exists_run {before call : List (CmTypes α)} {task : TaskView α}
    (h : entry.TwinCall reg nodes cfg before task call) :
    Described reg nodes task ∧
      entry.populateDynamicArgsInto cfg task before = some (call, false) ∧
        ∃ start tasks, (start = entry.args ∨ start = entry.args.map CmTypes.hold) ∧
          (∀ t ∈ tasks, Described reg nodes t) ∧ entry.TemplateRun cfg start tasks before := by
  cases h with
  | single tasks htasks hrun htask hfill =>
    exact ⟨htask, hfill, entry.args, tasks, .inl rfl, htasks, hrun⟩
  | bulk view hview index bulkCount calls stale hcalls i hbefore hcall =>
    obtain ⟨done, hdone, hmem, hfill⟩ := bulkCalls_run .fresh hcalls hbefore hcall
    refine ⟨hview _, hfill, _, done, .inr rfl, fun t ht => ?_, hdone⟩
    rcases hmem t ht with hnil | ⟨j, rfl⟩
    · cases hnil
    · exact hview j

end ArgCacheEntry

/-- For every node with an installed twin and every call of it, on whatever history of its buffer,
the twin has the variants that it relies on if and only if no slot of them is still empty while the
task has nothing for it. -/
theorem twin_call_meets_spec_iff (initObjects : List (List (CmTypes α)))
    (nodes : List (LoadedNode α)) (node : LoadedNode α) (cfg : ArgConfig) (reg : FuncReg)
    (unchecked templatesDisabled : Bool) {entry : ArgCacheEntry α}
    (hmain : mainArgCache initObjects nodes node = some entry) {fixed : List Text}
    (hselect : entry.selectUncheckedWrapper reg nodes cfg unchecked templatesDisabled node =
      some fixed) {before call : List (CmTypes α)} {task : TaskView α}
    (hcall : entry.TwinCall reg nodes cfg before task call) :
    ArgCacheEntry.MeetsSpec fixed call ↔ ¬ entry.Hole cfg fixed before task := by
  have h : Laid initObjects (argLayout true node.args) (resPred nodes node) entry :=
    laid_argCacheOf hmain
  obtain ⟨hstable, hlength, hproved, hvocabulary⟩ :=
    ArgCacheEntry.selected_of_selectUncheckedWrapper hselect
  have hsingle := h.single_of_templateStable hstable
  obtain ⟨htask, hfill, start, tasks, hstart, htasks, hrun⟩ := hcall.exists_run
  have hbefore : before.length = entry.args.length := by
    rw [(h.templateRun_frame hsingle hrun).1]
    rcases hstart with rfl | rfl
    · rfl
    · exact List.length_map _
  constructor
  · rintro ⟨-, hspec⟩ ⟨i, w, req, hw, hreq, hstar, hempty, hnothing⟩
    rw [h.results] at hw
    have hrp := h.single_of_mem hsingle w (List.mem_of_getElem? hw)
    have htag := hspec w.1 req hreq hstar
    have hslot : call[w.1]? = some .none := by
      rcases h.call_result hsingle hbefore hfill hw with ⟨v, hres, hcall⟩ | ⟨-, hcall⟩
      · cases hdep : w.2.isDep with
        | true =>
          rw [ResPredCache.collectResFromCache, if_pos hdep] at hres
          rw [hcall, (List.cons.inj (ArgResolution.values.inj (Option.some.inj hres))).1]
        | false =>
          rw [(ResPredCache.collect_nothing_iff hrp).mpr ⟨hdep, hnothing⟩] at hres
          cases hres
      · rw [hcall, hempty]
    rw [hslot] at htag
    exact (hvocabulary req (List.mem_of_getElem? hreq)).1 (Option.some.inj htag).symm
  · intro hhole
    refine ⟨?_, fun k req hreq hstar => ?_⟩
    · rw [ArgCacheEntry.populateDynamicArgsInto, h.results] at hfill
      rw [ArgCacheEntry.length_fillResults (h.single_of_mem hsingle) hfill, Laid.length_patchRefs,
        hbefore]
      exact hlength
    · obtain ⟨hnone, hany⟩ := hvocabulary req (List.mem_of_getElem? hreq)
      have hproof := h.slotProof (hproved k req hreq hstar)
      rcases h.call_slot hsingle hstart htasks hrun htask hfill hnone hany hproof with
        htag | ⟨i, w, hw, rfl, hempty, hres⟩
      · exact htag
      · have hrp := h.single_of_mem hsingle w (List.mem_of_getElem? hw)
        exact absurd ⟨i, w, req, h.results ▸ hw, hreq, hstar, hempty,
          ((ResPredCache.collect_nothing_iff hrp).mp hres).2⟩ hhole

/-- `gap` reads the cells `5-3` of `source`: none. -/
def gap : LoadedNode ℕ where
  name := "gap"
  id := 1
  funcName := "gap"
  args := [⟨.res 0, false, some ⟨0, [], none⟩⟩]
  condArgs := none
  factor := 1
  groupSize := none

def gapNodes : List (LoadedNode ℕ) := [⟨"source", 0, "source", [], none, 1, none⟩, gap]

def gapCache : ArgCacheEntry ℕ where
  args := [.none]
  bufferRefIndexes := []
  bufferValues := []
  rtIdxsIndexes := []
  rtWorkersIndexes := []
  resIndexes := [0]
  resPredecessors := [⟨1, 0, [], 1, none, none, 1, false, false⟩]

/-- Both functions are on `usize`: `source() -> usize` and `gap(x: usize) -> usize`. -/
def usizeReg : FuncReg where
  kernel name :=
    if name = "source" then some ⟨true, some [], some "Usize".toList⟩
    else if name = "gap" then some ⟨true, some ["Usize".toList], some "Usize".toList⟩
    else none
  rendered := by
    intro name k spec hk hspec
    split at hk
    · obtain rfl := Option.some.inj hk
      obtain rfl := Option.some.inj hspec
      exact ⟨⟨[], [], [], .void, none⟩, rfl⟩
    · split at hk
      · obtain rfl := Option.some.inj hk
        obtain rfl := Option.some.inj hspec
        exact ⟨⟨[], [], [⟨[], .primitive .usize⟩], .void, none⟩, rfl⟩
      · cases hk

theorem described_finding : ArgCacheEntry.Described usizeReg gapNodes (finding (.usize 5)) := by
  rintro arg n cell v (hv | ⟨poll, hpoll, -⟩) pred tag hpred htag
  · obtain rfl := Option.some.inj hv
    have hnode : pred = ⟨"source", 0, "source", [], none, 1, none⟩ ∨ pred = gap := by
      simpa [gapNodes] using List.mem_of_getElem? hpred
    rcases hnode with rfl | rfl
    · exact Option.some.inj htag
    · exact Option.some.inj htag
  · cases hpoll

theorem twinCall_gap :
    gapCache.TwinCall usizeReg gapNodes plainConfig [.none] (finding (.usize 5)) [.none] :=
  .single [] (by simp) .fresh described_finding rfl

theorem twin_call_meets_spec_iff_at_gap :
    ArgCacheEntry.MeetsSpec ["Usize".toList] ([.none] : List (CmTypes ℕ)) ↔
      ¬ gapCache.Hole plainConfig ["Usize".toList] [.none] (finding (.usize 5)) :=
  twin_call_meets_spec_iff [] gapNodes gap plainConfig usizeReg true false rfl
    (by decide +kernel) twinCall_gap

/-- The twin of `gap` takes the placeholder for a `usize`. -/
theorem twin_reads_placeholder :
    ¬ ∀ (initObjects : List (List (CmTypes ℕ))) (nodes : List (LoadedNode ℕ)) (node : LoadedNode ℕ)
      (cfg : ArgConfig) (reg : FuncReg) (entry : ArgCacheEntry ℕ),
      mainArgCache initObjects nodes node = some entry → ∀ fixed,
        entry.selectUncheckedWrapper reg nodes cfg true false node = some fixed →
          ∀ before task call, entry.TwinCall reg nodes cfg before task call →
            ArgCacheEntry.MeetsSpec fixed call := by
  intro h
  have hspec := h [] gapNodes gap plainConfig usizeReg gapCache rfl ["Usize".toList]
    (by decide +kernel) _ _ _ twinCall_gap
  have htag := hspec.2 0 "Usize".toList rfl (by decide)
  exact absurd htag (by decide)

end Tomii
