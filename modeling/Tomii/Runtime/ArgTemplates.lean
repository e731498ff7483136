import Tomii.Runtime.ArgLayout

/-! # Persistent argument templates (`execute_single_task`)

A worker thread keeps one buffer for each template-stable node and patches it task after task.
Against a buffer filled from scratch. -/
namespace Tomii
set_option autoImplicit false
set_option maxHeartbeats 250000

variable {α : Type}

namespace ArgCacheEntry

/-- `template_stable` -/
def templateStable (entry : ArgCacheEntry α) (templatesDisabled : Bool) (name : String) : Bool :=
  !templatesDisabled && entry.resPredecessors.all (·.isSingle) && decide (name ≠ "$network")

/-- A buffer that tasks on a node patch one after the other; those that go stale patch it, too. -/
inductive TemplateRun (entry : ArgCacheEntry α) (cfg : ArgConfig) (start : List (CmTypes α)) :
    List (TaskView α) → List (CmTypes α) → Prop
  | fresh : TemplateRun entry cfg start [] start
  | task {tasks : List (TaskView α)} {template template' : List (CmTypes α)} {stale : Bool}
      (hrun : TemplateRun entry cfg start tasks template) (task : TaskView α)
      (hfill : entry.populateDynamicArgsInto cfg task template = some (template', stale)) :
      TemplateRun entry cfg start (tasks ++ [task]) template'

end ArgCacheEntry

/-! ## Waits that give up -/

/-- In single-slot mode the generation changes before the wait sees a result or a shutdown. -/
def GivesUp (cfg : ArgConfig) (execGen : Option UInt32) (history : CellHistory α) : Prop :=
  cfg.singleSlotMode = true ∧ history.first = none ∧
    ∃ before poll after, history.polls = before ++ poll :: after ∧
      (∀ p ∈ before, p.result = none ∧ p.shutdown = false ∧ execGen.any (· ≠ p.gen) = false) ∧
      poll.result = none ∧ poll.shutdown = false ∧ execGen.any (· ≠ poll.gen) = true

theorem spinWait_abandoned_iff {singleSlotMode : Bool} {execGen : Option UInt32}
    {polls : List (Poll α)} :
    spinWaitForResult singleSlotMode execGen polls = some .abandoned ↔
      singleSlotMode = true ∧ ∃ before poll after, polls = before ++ poll :: after ∧
        (∀ p ∈ before, p.result = none ∧ p.shutdown = false ∧ execGen.any (· ≠ p.gen) = false) ∧
        poll.result = none ∧ poll.shutdown = false ∧ execGen.any (· ≠ poll.gen) = true := by
  induction polls with
  | nil =>
    constructor
    · intro h
      cases h
    · rintro ⟨-, before, poll, after, hpolls, -⟩
      exact absurd hpolls (by simp)
  | cons p polls ih =>
    unfold spinWaitForResult
    cases hresult : p.result with
    | some v =>
      refine iff_of_false (by simp) ?_
      rintro ⟨-, before, poll, after, hpolls, hbefore, hnone, -⟩
      cases before with
      | nil =>
        obtain ⟨rfl, -⟩ := List.cons.inj hpolls
        rw [hresult] at hnone
        cases hnone
      | cons q before =>
        obtain ⟨rfl, -⟩ := List.cons.inj hpolls
        rw [(hbefore p List.mem_cons_self).1] at hresult
        cases hresult
    | none =>
      dsimp only
      cases hdown : p.shutdown with
      | true =>
        refine iff_of_false (by simp) ?_
        rintro ⟨-, before, poll, after, hpolls, hbefore, -, hup, -⟩
        cases before with
        | nil =>
          obtain ⟨rfl, -⟩ := List.cons.inj hpolls
          rw [hdown] at hup
          cases hup
        | cons q before =>
          obtain ⟨rfl, -⟩ := List.cons.inj hpolls
          rw [(hbefore p List.mem_cons_self).2.1] at hdown
          cases hdown
      | false =>
        cases hgen : execGen.any (· ≠ p.gen) with
        | true =>
          simp only [Bool.false_eq_true, if_false, if_true]
          constructor
          · intro h
            cases hmode : singleSlotMode with
            | true => exact ⟨rfl, [], p, polls, rfl, by simp, hresult, hdown, hgen⟩
            | false =>
              rw [hmode] at h
              cases h
          · rintro ⟨hmode, -⟩
            rw [hmode]
            rfl
        | false =>
          simp only [Bool.false_eq_true, if_false]
          rw [ih]
          constructor
          · rintro ⟨hmode, before, poll, after, rfl, hbefore, hpoll⟩
            exact ⟨hmode, p :: before, poll, after, rfl,
              List.forall_mem_cons.mpr ⟨⟨hresult, hdown, hgen⟩, hbefore⟩, hpoll⟩
          · rintro ⟨hmode, before, poll, after, hpolls, hbefore, hpoll⟩
            cases before with
            | nil =>
              obtain ⟨rfl, -⟩ := List.cons.inj hpolls
              rw [hpoll.2.2] at hgen
              cases hgen
            | cons q before =>
              obtain ⟨-, rfl⟩ := List.cons.inj hpolls
              exact ⟨hmode, before, poll, after, rfl, (List.forall_mem_cons.mp hbefore).2, hpoll⟩

namespace ResPredCache

variable {rp : ResPredCache} {cfg : ArgConfig} {task : TaskView α}

theorem readCell_abandoned_iff {history : CellHistory α} :
    readCell cfg task history = some .abandoned ↔ GivesUp cfg task.execGen history := by
  unfold readCell GivesUp
  cases hfirst : history.first with
  | some v => exact iff_of_false (by simp) fun h => by cases h.2.1
  | none =>
    dsimp only
    rw [spinWait_abandoned_iff]
    simp

/-- A single reference with an index is missing when its one fetch gives up. -/
theorem collect_missing_iff (hs : rp.isSingle = true) (hdep : rp.isDep = false)
    (hne : rp.indexes ≠ []) {arg : ℕ} :
    rp.collectResFromCache cfg task arg = some .missing ↔
      ∃ depIdx, rp.depIndexes cfg task.nodeIndex task.predIndex = some [depIdx] ∧
        GivesUp cfg task.execGen (task.looks arg 0 ⟨task.slot, rp.resNodeId, depIdx⟩) := by
  unfold collectResFromCache
  rw [if_neg (by rw [hdep]; decide), if_neg hne]
  show (rp.depIndexes cfg task.nodeIndex task.predIndex).bind _ = _ ↔ _
  cases hcells : rp.depIndexes cfg task.nodeIndex task.predIndex with
  | none => simp
  | some cells =>
    have hlen := length_depIndexes hne hdep hcells
    rw [if_pos hs] at hlen
    obtain ⟨depIdx, rfl⟩ := List.length_eq_one_iff.mp hlen
    simp only [Option.bind_some, Option.some.injEq, List.cons.injEq, and_true, exists_eq_left']
    rw [← readCell_abandoned_iff]
    unfold collectCells
    cases readCell cfg task (task.looks arg 0 ⟨task.slot, rp.resNodeId, depIdx⟩) with
    | none => simp
    | some read => cases read <;> simp [collectCells]

/-- A reference without an index never has a value. -/
theorem collect_of_nil (hdep : rp.isDep = false) (hnil : rp.indexes = []) (arg : ℕ) :
    rp.collectResFromCache cfg task arg = some .missing := by
  rw [collectResFromCache, if_neg (by rw [hdep]; decide), if_pos hnil]

/-- A task has nothing for a single reference. -/
theorem collect_nothing_iff (hs : rp.isSingle = true) {arg : ℕ} :
    rp.collectResFromCache cfg task arg = some .missing ↔ rp.isDep = false ∧
      (rp.indexes = [] ∨ ∃ depIdx, rp.depIndexes cfg task.nodeIndex task.predIndex = some [depIdx] ∧
        GivesUp cfg task.execGen (task.looks arg 0 ⟨task.slot, rp.resNodeId, depIdx⟩)) := by
  cases hdep : rp.isDep with
  | true =>
    refine iff_of_false (fun h => ?_) fun h => Bool.noConfusion h.1
    rw [collectResFromCache, if_pos hdep] at h
    cases h
  | false =>
    by_cases hnil : rp.indexes = []
    · exact iff_of_true (collect_of_nil hdep hnil arg) ⟨rfl, .inl hnil⟩
    · rw [collect_missing_iff hs hdep hnil]
      exact ⟨fun h => ⟨rfl, .inr h⟩, fun h => h.2.resolve_left hnil⟩

end ResPredCache

/-! ## Patching -/

namespace ArgCacheEntry

variable {cfg : ArgConfig} {task : TaskView α}

theorem length_fillResults {rs : List (ℕ × ResPredCache)} {arg : ℕ} {buf buf' : List (CmTypes α)}
    {stale : Bool} (hsingle : ∀ w ∈ rs, w.2.isSingle = true)
    (h : fillResults cfg task rs arg buf = some (buf', stale)) : buf'.length = buf.length := by
  induction rs generalizing arg buf with
  | nil =>
    obtain ⟨rfl, -⟩ := Prod.mk.inj (Option.some.inj h)
    rfl
  | cons w rest ih =>
    rw [List.forall_mem_cons] at hsingle
    cases fillResults_cons h with
    | stale _ hbuf => rw [hbuf]
    | missing _ hrest => exact ih hsingle.2 hrest
    | single v _ hrest => rw [ih hsingle.2 hrest, List.length_set]
    | many vs hvs hres =>
      obtain ⟨v, rfl⟩ := ResPredCache.exists_of_isSingle hsingle.1 hres
      exact absurd rfl hvs

/-- A slot whose reference never has a value is not filled, stale or not. -/
theorem fillResults_frame {rs : List (ℕ × ResPredCache)} {arg : ℕ} {buf buf' : List (CmTypes α)}
    {stale : Bool} (hsingle : ∀ w ∈ rs, w.2.isSingle = true) {k : ℕ}
    (hk : ∀ w ∈ rs, w.1 = k → w.2.isDep = false ∧ w.2.indexes = [])
    (h : fillResults cfg task rs arg buf = some (buf', stale)) : buf'[k]? = buf[k]? := by
  induction rs generalizing arg buf with
  | nil =>
    obtain ⟨rfl, -⟩ := Prod.mk.inj (Option.some.inj h)
    rfl
  | cons w rest ih =>
    rw [List.forall_mem_cons] at hsingle hk
    cases fillResults_cons h with
    | stale _ hbuf => rw [hbuf]
    | missing _ hrest => exact ih hsingle.2 hk.2 hrest
    | single v hres hrest =>
      rw [ih hsingle.2 hk.2 hrest]
      refine List.getElem?_set_ne fun heq => ?_
      obtain ⟨hdep, hnil⟩ := hk.1 heq
      rw [ResPredCache.collect_of_nil hdep hnil] at hres
      cases hres
    | many vs hvs hres =>
      obtain ⟨v, rfl⟩ := ResPredCache.exists_of_isSingle hsingle.1 hres
      exact absurd rfl hvs

/-- Every slot whose wait the task gives up still has the placeholder in the template. -/
def NoLeak (entry : ArgCacheEntry α) (cfg : ArgConfig) (task : TaskView α)
    (template : List (CmTypes α)) : Prop :=
  ∀ i w, (entry.resIndexes.zip entry.resPredecessors)[i]? = some w → w.2.isDep = false →
    ∀ depIdx, w.2.depIndexes cfg task.nodeIndex task.predIndex = some [depIdx] →
      GivesUp cfg task.execGen (task.looks i 0 ⟨task.slot, w.2.resNodeId, depIdx⟩) →
        template[w.1]? = some .none

end ArgCacheEntry

/-- The slots that tasks write: patched references, and results that have a value. -/
def WrittenSlot (initObjects : List (List (CmTypes α))) (layout : List (LoadedArg α))
    (preds : LoadedArg α → Option ResPredCache) (k : ℕ) : Prop :=
  ∃ a, layout[k]? = some a ∧
    (a.isPatched initObjects = true ∨ ∃ rp, preds a = some rp ∧ (rp.isDep = true ∨ rp.indexes ≠ []))

namespace Laid

variable {initObjects : List (List (CmTypes α))} {layout : List (LoadedArg α)}
  {preds : LoadedArg α → Option ResPredCache} {entry : ArgCacheEntry α} {cfg : ArgConfig}

theorem single_of_mem (_ : Laid initObjects layout preds entry)
    (hsingle : ∀ a ∈ layout, ∀ rp, preds a = some rp → rp.isSingle = true) :
    ∀ w ∈ slotsOf preds layout, w.2.isSingle = true := by
  rintro ⟨i, rp⟩ hw
  obtain ⟨a, ha, hpred⟩ := mem_slotsOf.mp hw
  exact hsingle a (List.mem_of_getElem? ha) rp hpred

theorem single_of_templateStable (h : Laid initObjects layout preds entry)
    {templatesDisabled : Bool} {name : String}
    (hstable : entry.templateStable templatesDisabled name = true) :
    ∀ a ∈ layout, ∀ rp, preds a = some rp → rp.isSingle = true := by
  intro a ha rp hpred
  simp only [ArgCacheEntry.templateStable, Bool.and_eq_true, List.all_eq_true] at hstable
  obtain ⟨k, hk⟩ := List.mem_iff_getElem?.mp ha
  have hmem : (k, rp) ∈ entry.resIndexes.zip entry.resPredecessors := by
    rw [h.results]
    exact mem_slotsOf.mpr ⟨a, hk, hpred⟩
  exact hstable.1.2 rp (List.of_mem_zip hmem).2

/-- Patching and filling change written slots only. -/
theorem populate_frame (h : Laid initObjects layout preds entry)
    (hsingle : ∀ a ∈ layout, ∀ rp, preds a = some rp → rp.isSingle = true) {task : TaskView α}
    {buf buf' : List (CmTypes α)} {stale : Bool}
    (hfill : entry.populateDynamicArgsInto cfg task buf = some (buf', stale)) {k : ℕ}
    (hk : ¬ WrittenSlot initObjects layout preds k) : buf'[k]? = buf[k]? := by
  rw [ArgCacheEntry.populateDynamicArgsInto, h.results] at hfill
  have hkeys : ∀ w ∈ slotsOf preds layout, w.1 = k → w.2.isDep = false ∧ w.2.indexes = [] := by
    rintro ⟨i, rp⟩ hw rfl
    obtain ⟨a, ha, hpred⟩ := mem_slotsOf.mp hw
    by_contra hne
    refine hk ⟨a, ha, .inr ⟨rp, hpred, ?_⟩⟩
    cases hdep : rp.isDep with
    | true => exact .inl rfl
    | false => exact .inr fun hnil => hne ⟨hdep, hnil⟩
  rw [ArgCacheEntry.fillResults_frame (h.single_of_mem hsingle) hkeys hfill]
  exact h.getElem?_patchRefs_of_not_written cfg task.nodeIndex buf fun a ha hpatched =>
    hk ⟨a, ha, .inl hpatched⟩

/-- What tasks leave of a template: its length and the slots that none of them writes. -/
theorem templateRun_frame (h : Laid initObjects layout preds entry)
    (hsingle : ∀ a ∈ layout, ∀ rp, preds a = some rp → rp.isSingle = true)
    {start template : List (CmTypes α)} {tasks : List (TaskView α)}
    (hrun : entry.TemplateRun cfg start tasks template) :
    template.length = start.length ∧
      ∀ k, ¬ WrittenSlot initObjects layout preds k → template[k]? = start[k]? := by
  induction hrun with
  | fresh => exact ⟨rfl, fun _ _ => rfl⟩
  | @task tasks template template' stale hrun task hfill ih =>
    refine ⟨?_, fun k hk => (h.populate_frame hsingle hfill hk).trans (ih.2 k hk)⟩
    rw [ArgCacheEntry.populateDynamicArgsInto, h.results] at hfill
    rw [ArgCacheEntry.length_fillResults (h.single_of_mem hsingle) hfill, length_patchRefs, ih.1]

/-- A `$res` slot of the template has the placeholder. -/
theorem getElem?_args_of_res (h : Laid initObjects layout preds entry) {k : ℕ} {rp : ResPredCache}
    (hk : (k, rp) ∈ slotsOf preds layout) : entry.args[k]? = some .none := by
  obtain ⟨a, ha, hpred⟩ := mem_slotsOf.mp hk
  have hslot : a.resSlot.isSome = true := by
    rw [← h.isSome a (List.mem_of_getElem? ha), hpred]
    rfl
  have hvalue := h.getElem?_patchRefs_args ⟨false, 0, fun _ _ => none⟩ 0 ha
  rw [LoadedArg.value_of_resSlot hslot] at hvalue
  rw [← hvalue]
  refine (h.getElem?_patchRefs_of_not_written _ _ _ fun b hb => ?_).symm
  rw [ha, Option.some.injEq] at hb
  rw [← hb, LoadedArg.not_isPatched_of_resSlot _ hslot]
  exact Bool.false_ne_true

/-- A buffer of the template's length, with placeholders in the `$res` slots. -/
structure Blank (layout : List (LoadedArg α)) (preds : LoadedArg α → Option ResPredCache)
    (entry : ArgCacheEntry α) (start : List (CmTypes α)) : Prop where
  length : start.length = entry.args.length
  results : ∀ w ∈ slotsOf preds layout, start[w.1]? = some .none

theorem blank_args (h : Laid initObjects layout preds entry) : Blank layout preds entry entry.args :=
  ⟨rfl, fun _ hw => h.getElem?_args_of_res hw⟩

variable {start template template' fresh : List (CmTypes α)} {tasks : List (TaskView α)}
  {task : TaskView α}

/-- Outside the `$res` slots the patched template is the fresh buffer. -/
theorem patched_eq_fresh (h : Laid initObjects layout preds entry)
    (hsingle : ∀ a ∈ layout, ∀ rp, preds a = some rp → rp.isSingle = true)
    (hstart : Blank layout preds entry start) (hrun : entry.TemplateRun cfg start tasks template)
    {k : ℕ} (j : ℕ) (hk : ∀ w ∈ slotsOf preds layout, w.1 ≠ k) :
    (entry.patchRefs cfg j template)[k]? = (entry.patchRefs cfg j start)[k]? := by
  obtain ⟨hlen, hframe⟩ := h.templateRun_frame hsingle hrun
  by_cases hpatched : ∃ a, layout[k]? = some a ∧ a.isPatched initObjects = true
  · obtain ⟨a, ha, hpatch⟩ := hpatched
    have hlt : k < layout.length := (List.getElem?_eq_some_iff.mp ha).1
    have hargs := h.length_layout_le
    have hblank := hstart.length
    rw [h.getElem?_patchRefs cfg j (by omega) ha, h.getElem?_patchRefs cfg j (by omega) ha,
      if_pos hpatch, if_pos hpatch]
  · push Not at hpatched
    rw [h.getElem?_patchRefs_of_not_written cfg j _ hpatched,
      h.getElem?_patchRefs_of_not_written cfg j _ hpatched]
    refine hframe k ?_
    rintro ⟨a, ha, hpatch | ⟨rp, hpred, -⟩⟩
    · exact hpatched a ha hpatch
    · exact hk (k, rp) (mem_slotsOf.mpr ⟨a, ha, hpred⟩) rfl

/-- Patching leaves `$res` slots to the results. -/
theorem getElem?_patchRefs_of_res (h : Laid initObjects layout preds entry) (cfg : ArgConfig)
    (j : ℕ) (buf : List (CmTypes α)) {w : ℕ × ResPredCache} (hw : w ∈ slotsOf preds layout) :
    (entry.patchRefs cfg j buf)[w.1]? = buf[w.1]? := by
  obtain ⟨a, ha, hpred⟩ := mem_slotsOf.mp hw
  have hslot : a.resSlot.isSome = true := by
    rw [← h.isSome a (List.mem_of_getElem? ha), hpred]
    rfl
  refine h.getElem?_patchRefs_of_not_written cfg j buf fun b hb => ?_
  rw [ha, Option.some.injEq] at hb
  rw [← hb, LoadedArg.not_isPatched_of_resSlot _ hslot]
  exact Bool.false_ne_true

/-- A `$res` slot of a call: the value that was found, or what the buffer had. -/
theorem call_result (h : Laid initObjects layout preds entry)
    (hsingle : ∀ a ∈ layout, ∀ rp, preds a = some rp → rp.isSingle = true)
    (hlen : template.length = entry.args.length)
    (hfill : entry.populateDynamicArgsInto cfg task template = some (template', false)) {i : ℕ}
    {w : ℕ × ResPredCache} (hw : (slotsOf preds layout)[i]? = some w) :
    (∃ v, w.2.collectResFromCache cfg task i = some (.values [v]) ∧ template'[w.1]? = some v) ∨
      w.2.collectResFromCache cfg task i = some .missing ∧ template'[w.1]? = template[w.1]? := by
  have hmem : w ∈ slotsOf preds layout := List.mem_of_getElem? hw
  rw [ArgCacheEntry.populateDynamicArgsInto, h.results] at hfill
  obtain ⟨res, hres, hstale⟩ := ArgCacheEntry.fillResults_outcome hfill hw
  have hrow := (ArgCacheEntry.fillResults_holds (L := entry.args.length) (slotsOf_pairwise layout)
    (fun v hv => (lt_of_mem_slotsOf hv).trans_le h.length_layout_le)
    (by rw [length_patchRefs, hlen])
    (fun v hv hwide => absurd (h.single_of_mem hsingle v hv) (by rw [hwide]; decide)) hfill).2 i w hw
  rw [Nat.zero_add] at hres hrow
  rw [hres] at hrow
  cases res with
  | stale => exact absurd rfl hstale
  | values vs =>
    obtain ⟨v, rfl⟩ := ResPredCache.exists_of_isSingle (h.single_of_mem hsingle w hmem) hres
    exact .inl ⟨v, hres, ArgCacheEntry.getElem?_of_prefix_drop hrow⟩
  | missing =>
    exact .inr ⟨hres, Eq.trans hrow (h.getElem?_patchRefs_of_res cfg task.nodeIndex template hmem)⟩

/-- In a `$res` slot it differs when the wait gives up and an earlier value is left. -/
theorem result_eq_fresh_iff (h : Laid initObjects layout preds entry)
    (hsingle : ∀ a ∈ layout, ∀ rp, preds a = some rp → rp.isSingle = true)
    (hstart : Blank layout preds entry start) (hrun : entry.TemplateRun cfg start tasks template)
    (hfill : entry.populateDynamicArgsInto cfg task template = some (template', false))
    (hfresh : entry.populateDynamicArgsInto cfg task start = some (fresh, false))
    {i : ℕ} {w : ℕ × ResPredCache} (hw : (slotsOf preds layout)[i]? = some w) :
    template'[w.1]? = fresh[w.1]? ↔
      (w.2.isDep = false → ∀ depIdx,
        w.2.depIndexes cfg task.nodeIndex task.predIndex = some [depIdx] →
          GivesUp cfg task.execGen (task.looks i 0 ⟨task.slot, w.2.resNodeId, depIdx⟩) →
            template[w.1]? = some .none) := by
  have hmem : w ∈ slotsOf preds layout := List.mem_of_getElem? hw
  have hrp := h.single_of_mem hsingle w hmem
  obtain ⟨hlen, hframe⟩ := h.templateRun_frame hsingle hrun
  rcases h.call_result hsingle (hlen.trans hstart.length) hfill hw with ⟨v, hres, hslot⟩ | ⟨hres, hold⟩
  · refine iff_of_true ?_ fun hdep depIdx hidx hgive => ?_
    · rcases h.call_result hsingle hstart.length hfresh hw with ⟨v', hres', hslot'⟩ | ⟨hres', -⟩
      · rw [hres, Option.some.injEq] at hres'
        rw [hslot, hslot', (List.cons.inj (ArgResolution.values.inj hres')).1]
      · rw [hres] at hres'
        cases hres'
    · have hne : w.2.indexes ≠ [] := fun hnil => by
        rw [ResPredCache.depIndexes, hnil] at hidx
        cases hidx
      rw [(ResPredCache.collect_missing_iff hrp hdep hne).mpr ⟨depIdx, hidx, hgive⟩] at hres
      cases hres
  · have hnone : fresh[w.1]? = some .none := by
      rcases h.call_result hsingle hstart.length hfresh hw with ⟨v', hres', -⟩ | ⟨-, hslot'⟩
      · rw [hres] at hres'
        cases hres'
      · rw [hslot', hstart.results w hmem]
    obtain ⟨hdep, hnothing⟩ := (ResPredCache.collect_nothing_iff hrp).mp hres
    rw [hold, hnone]
    rcases hnothing with hnil | ⟨depIdx, hidx, hgive⟩
    · -- a reference without indexes leaves its slot alone in every task
      refine iff_of_true ?_ fun _ depIdx hidx _ => ?_
      · rw [hframe, hstart.results w hmem]
        obtain ⟨a, ha, hpred⟩ := mem_slotsOf.mp hmem
        rintro ⟨b, hb, hpatch | ⟨rp, hbpred, hwritten⟩⟩
        · rw [ha, Option.some.injEq] at hb
          have hslot : a.resSlot.isSome = true := by
            rw [← h.isSome a (List.mem_of_getElem? ha), hpred]
            rfl
          rw [← hb, LoadedArg.not_isPatched_of_resSlot _ hslot] at hpatch
          cases hpatch
        · rw [ha, Option.some.injEq] at hb
          rw [← hb, hpred, Option.some.injEq] at hbpred
          rw [← hbpred, hdep, hnil] at hwritten
          rcases hwritten with hbad | hbad
          · cases hbad
          · exact hbad rfl
      · rw [ResPredCache.depIndexes, hnil] at hidx
        cases hidx
    · exact ⟨fun hslot _ _ _ _ => hslot, fun hall => hall hdep depIdx hidx hgive⟩

/-- The patched buffer against one that starts over. -/
theorem template_eq_fresh_iff (h : Laid initObjects layout preds entry)
    (hsingle : ∀ a ∈ layout, ∀ rp, preds a = some rp → rp.isSingle = true)
    (hstart : Blank layout preds entry start) (hrun : entry.TemplateRun cfg start tasks template)
    (hfill : entry.populateDynamicArgsInto cfg task template = some (template', false))
    (hfresh : entry.populateDynamicArgsInto cfg task start = some (fresh, false)) :
    template' = fresh ↔ entry.NoLeak cfg task template := by
  have hslot := fun i w hw =>
    h.result_eq_fresh_iff hsingle hstart hrun hfill hfresh (i := i) (w := w) hw
  rw [ArgCacheEntry.NoLeak, h.results]
  constructor
  · rintro rfl i w hw
    exact (hslot i w hw).mp rfl
  · intro hleak
    apply List.ext_getElem?
    intro k
    by_cases hkey : ∃ w ∈ slotsOf preds layout, w.1 = k
    · obtain ⟨w, hw, rfl⟩ := hkey
      obtain ⟨i, hi⟩ := List.mem_iff_getElem?.mp hw
      exact (hslot i w hi).mpr (hleak i w hi)
    · push Not at hkey
      rw [ArgCacheEntry.populateDynamicArgsInto, h.results] at hfill hfresh
      have hframe : ∀ w ∈ slotsOf preds layout, w.1 = k → w.2.isDep = false ∧ w.2.indexes = [] :=
        fun w hw heq => absurd heq (hkey w hw)
      rw [ArgCacheEntry.fillResults_frame (h.single_of_mem hsingle) hframe hfill,
        ArgCacheEntry.fillResults_frame (h.single_of_mem hsingle) hframe hfresh]
      exact h.patched_eq_fresh hsingle hstart hrun task.nodeIndex hkey

end Laid

/-- On every history of tasks the template keeps its length, and whenever a task is run with it,
it equals a buffer filled from scratch if and only if each slot whose wait the task gives up has
not been filled before. -/
theorem template_matches_fresh_iff (initObjects : List (List (CmTypes α)))
    (nodes : List (LoadedNode α)) (node : LoadedNode α) (cfg : ArgConfig) (templatesDisabled : Bool)
    {entry : ArgCacheEntry α} (hmain : mainArgCache initObjects nodes node = some entry)
    (hstable : entry.templateStable templatesDisabled node.name = true)
    {tasks : List (TaskView α)} {template : List (CmTypes α)}
    (hrun : entry.TemplateRun cfg entry.args tasks template) :
    template.length = entry.args.length ∧
      ∀ task template', entry.populateDynamicArgsInto cfg task template = some (template', false) →
        ∃ fresh, entry.populateCachedArgsInto cfg task [] = some (fresh, false) ∧
          (template' = fresh ↔ entry.NoLeak cfg task template) := by
  have h : Laid initObjects (argLayout true node.args) (resPred nodes node) entry :=
    laid_argCacheOf hmain
  have hsingle := h.single_of_templateStable hstable
  refine ⟨(h.templateRun_frame hsingle hrun).1, fun task template' hfill => ?_⟩
  obtain ⟨fresh, hfresh⟩ := ArgCacheEntry.exists_fillResults hfill
    (entry.patchRefs cfg task.nodeIndex entry.args)
  refine ⟨fresh, by rw [ArgCacheEntry.populateCachedArgsInto_nil]; exact hfresh, ?_⟩
  exact h.template_eq_fresh_iff hsingle h.blank_args hrun hfill hfresh

/-- `relay` hands on the result of `source`. -/
def relay : LoadedNode ℕ where
  name := "relay"
  id := 1
  funcName := "relay"
  args := [⟨.res 0, false, some ⟨0, [0], none⟩⟩]
  condArgs := none
  factor := 1
  groupSize := none

def relayNodes : List (LoadedNode ℕ) := [⟨"source", 0, "source", [], none, 1, none⟩, relay]

def relayCache : ArgCacheEntry ℕ where
  args := [.none]
  bufferRefIndexes := []
  bufferValues := []
  rtIdxsIndexes := []
  rtWorkersIndexes := []
  resIndexes := [0]
  resPredecessors := [⟨1, 0, [0], 1, none, none, 1, false, false⟩]

def singleSlotConfig : ArgConfig := ⟨true, 4, fun _ _ => none⟩

/-- A task of generation 0 that finds a result. -/
def finding (v : CmTypes ℕ) : TaskView ℕ := ⟨0, 0, 0, some 0, fun _ _ _ => ⟨some v, []⟩⟩

/-- A task of generation 1 that waits until the generation changes. -/
def givingUp : TaskView ℕ := ⟨0, 0, 0, some 1, fun _ _ _ => ⟨none, [⟨none, false, 2⟩]⟩⟩

theorem templateRun_relay :
    relayCache.TemplateRun singleSlotConfig relayCache.args [finding (.usize 5)] [.usize 5] :=
  .task .fresh (finding (.usize 5)) rfl

theorem template_matches_fresh_iff_at_relay :
    ([.usize 5] : List (CmTypes ℕ)).length = relayCache.args.length ∧
      ∀ task template', relayCache.populateDynamicArgsInto singleSlotConfig task [.usize 5] =
          some (template', false) →
        ∃ fresh, relayCache.populateCachedArgsInto singleSlotConfig task [] = some (fresh, false) ∧
          (template' = fresh ↔ relayCache.NoLeak singleSlotConfig task [.usize 5]) :=
  template_matches_fresh_iff [] relayNodes relay singleSlotConfig false rfl rfl templateRun_relay

/-- The second task runs with the first one's result. -/
theorem template_leaks :
    ¬ ∀ (initObjects : List (List (CmTypes ℕ))) (nodes : List (LoadedNode ℕ)) (node : LoadedNode ℕ)
      (cfg : ArgConfig) (entry : ArgCacheEntry ℕ),
      mainArgCache initObjects nodes node = some entry →
      entry.templateStable false node.name = true →
      ∀ tasks template, entry.TemplateRun cfg entry.args tasks template →
        ∀ task template', entry.populateDynamicArgsInto cfg task template = some (template', false) →
          entry.populateCachedArgsInto cfg task [] = some (template', false) := by
  intro h
  have hfresh := h [] relayNodes relay singleSlotConfig relayCache rfl rfl _ _ templateRun_relay
    givingUp [.usize 5] rfl
  have hnone : relayCache.populateCachedArgsInto singleSlotConfig givingUp [] =
      some ([.none], false) := rfl
  rw [hnone] at hfresh
  cases hfresh

end Tomii
