import Tomii.Runtime.ArgLayout

/-! # Arguments in their places (`validate_res_arg_layout`)

The loader rejects nodes whose buffers would overrun. What it lets through, against what filling
does with it. -/
namespace Tomii
set_option autoImplicit false
set_option maxHeartbeats 250000

variable {α : Type}

/-! ## The check of the loader -/

/-- `multi_value`, whatever the grouping of the edge. -/
def LoadedArg.expands (factor : ℕ) (a : LoadedArg α) : Bool :=
  a.isResult && a.predecessor.any fun pred =>
    decide (1 < pred.indexes.length) && decide (pred.indexes.length ≠ factor)

/-- `pred.group_by.is_some()` -/
def LoadedArg.isGrouped (a : LoadedArg α) : Bool := a.predecessor.any fun pred => pred.groupBy.isSome

def overrunText (nodeName : String) (pos n factor trailing : ℕ) : String :=
  "node '" ++ nodeName ++ "': dependency argument at position " ++ toString pos ++ " lists " ++
    toString n ++ " predecessor indexes, which does not match the node factor " ++
    toString factor ++ ", so it resolves to " ++ toString n ++ " values that overrun the " ++
    toString trailing ++ " argument(s) after it in the arg buffer (they would hold predecessor " ++
    "results instead of their own values). A multi-value dependency must be the last argument. " ++
    "For a 1:1 per-instance dependency the index count must equal the node factor (" ++
    toString factor ++ ") — e.g. an exclusive range of " ++ toString factor ++ " indexes, not " ++
    toString n ++ " (a literal inclusive range end is the common off-by-one; see #45)."

/-- The loop of `validate_res_arg_layout` from position `pos` on, in a layout of `total`. -/
def checkResArgs (nodeName : String) (factor total : ℕ) :
    ℕ → List (LoadedArg α) → Except String Unit
  | _, [] => .ok ()
  | pos, a :: rest =>
    if a.expands factor ∧ a.isGrouped = false ∧ pos + 1 ≠ total then
      .error (overrunText nodeName pos ((a.predecessor.map (·.indexes.length)).getD 0) factor
        (total - pos - 1))
    else checkResArgs nodeName factor total (pos + 1) rest

/-- `validate_res_arg_layout` -/
def validateResArgLayout (nodeName : String) (args : List (LoadedArg α)) (factor : ℕ) :
    Except String Unit :=
  checkResArgs nodeName factor (argLayout true args).length 0 (argLayout true args)

theorem checkResArgs_ok {nodeName : String} {factor total : ℕ} {rest : List (LoadedArg α)} {pos : ℕ}
    (h : checkResArgs nodeName factor total pos rest = .ok ()) {i : ℕ} {a : LoadedArg α}
    (ha : rest[i]? = some a) (hexp : a.expands factor = true) (hgroup : a.isGrouped = false) :
    pos + i + 1 = total := by
  induction rest generalizing pos i with
  | nil => cases ha
  | cons b rest ih =>
    unfold checkResArgs at h
    split at h
    · cases h
    · next hpass =>
      cases i with
      | zero =>
        obtain rfl := Option.some.inj ha
        by_contra hne
        exact hpass ⟨hexp, hgroup, hne⟩
      | succ i =>
        have htail := ih h ha
        omega

/-! ## Places -/

/-- The values of argument `k`: those of its result, or its own. -/
def ownValues (initObjects : List (List (CmTypes α))) (preds : LoadedArg α → Option ResPredCache)
    (layout : List (LoadedArg α)) (cfg : ArgConfig) (task : TaskView α) (k : ℕ) (a : LoadedArg α) :
    List (CmTypes α) :=
  match preds a with
  | none => [a.value initObjects cfg.workers task.nodeIndex]
  | some rp =>
    match rp.collectResFromCache cfg task (slotsOf preds (layout.take k)).length with
    | some (.values vs) => vs
    | _ => [.none]

section Places

variable (initObjects : List (List (CmTypes α))) (preds : LoadedArg α → Option ResPredCache)
  (layout : List (LoadedArg α)) (cfg : ArgConfig) (factor : ℕ)

/-- Every buffer that is filled for an instance has the values of each argument from the
argument's position on. -/
def KeepsPositions (entry : ArgCacheEntry α) : Prop :=
  ∀ task : TaskView α, task.nodeIndex < factor → ∀ buf,
    entry.populateCachedArgsInto cfg task [] = some (buf, false) →
      ∀ k a, layout[k]? = some a → ownValues initObjects preds layout cfg task k a <+: buf.drop k

/-- Arguments with several values come last. -/
def ExpandsLast : Prop :=
  ∀ (k : ℕ) (a : LoadedArg α), layout[k]? = some a → a.expands factor = true → k + 1 = layout.length

/-- The same of grouped edges, which the loader leaves out. -/
def GroupedExpandsLast : Prop :=
  ∀ (k : ℕ) (a : LoadedArg α), layout[k]? = some a → a.expands factor = true →
    a.isGrouped = true → k + 1 = layout.length

/-- Some instance's index formulas all have a value. -/
def Resolves : Prop :=
  ∃ j < factor, ∃ t, ∀ a ∈ layout, ∀ rp, preds a = some rp → rp.isDep = false →
    (rp.depIndexes cfg j t).isSome = true

end Places

theorem isSingle_resPred {nodes : List (LoadedNode α)} {node : LoadedNode α} {a : LoadedArg α}
    {rp : ResPredCache} (h : resPred nodes node a = some rp) :
    rp.isSingle = !a.expands node.factor := by
  obtain ⟨type, cond, pred⟩ := a
  cases type with
  | res resNid =>
    obtain ⟨p, -, hrp⟩ := Option.map_eq_some_iff.mp (Option.join_eq_some_iff.mp h)
    obtain rfl := Option.some.inj hrp
    cases pred with
    | none => rfl
    | some p =>
      simp only [ResPredCache.isSingle, LoadedArg.expands, LoadedArg.isResult, Option.map_some,
        Option.getD_some, Option.any_some, Bool.false_or, Bool.true_and, Bool.not_and]
      congr 1
      · rw [← decide_not]
        simp only [Nat.not_lt]
      · simp
  | dep resNid =>
    obtain rfl := Option.some.inj h
    rfl
  | _ => cases h

theorem ResPredCache.depIndexes_isSome {rp : ResPredCache} {cfg : ArgConfig} {task : TaskView α}
    {arg : ℕ} {res : ArgResolution α} (hdep : rp.isDep = false)
    (h : rp.collectResFromCache cfg task arg = some res) :
    (rp.depIndexes cfg task.nodeIndex task.predIndex).isSome = true := by
  unfold collectResFromCache at h
  rw [if_neg (by rw [hdep]; decide)] at h
  split at h
  · next hnil =>
    rw [depIndexes, hnil]
    rfl
  · obtain ⟨cells, hcells, -⟩ := Option.bind_eq_some_iff.mp h
    rw [hcells]
    rfl

theorem fillResults_resolves {cfg : ArgConfig} {task : TaskView α} {rs : List (ℕ × ResPredCache)}
    {arg : ℕ} {buf buf' : List (CmTypes α)}
    (h : ArgCacheEntry.fillResults cfg task rs arg buf = some (buf', false)) :
    ∀ w ∈ rs, w.2.isDep = false →
      (w.2.depIndexes cfg task.nodeIndex task.predIndex).isSome = true := by
  intro w hw hdep
  obtain ⟨i, hi⟩ := List.mem_iff_getElem?.mp hw
  obtain ⟨res, hres, -⟩ := ArgCacheEntry.fillResults_outcome h hi
  exact ResPredCache.depIndexes_isSome hdep hres

namespace Laid

variable {initObjects : List (List (CmTypes α))} {layout : List (LoadedArg α)}
  {nodes : List (LoadedNode α)} {node : LoadedNode α} {entry : ArgCacheEntry α} {cfg : ArgConfig}

/-- A buffer that is filled has its results resolved. -/
theorem resolves (h : Laid initObjects layout (resPred nodes node) entry) {task : TaskView α}
    {buf buf' : List (CmTypes α)} (hj : task.nodeIndex < node.factor)
    (hfill : entry.populateDynamicArgsInto cfg task buf = some (buf', false)) :
    Resolves (resPred nodes node) layout cfg node.factor := by
  rw [ArgCacheEntry.populateDynamicArgsInto, h.results] at hfill
  refine ⟨task.nodeIndex, hj, task.predIndex, fun a ha rp hpred hdep => ?_⟩
  obtain ⟨k, hk⟩ := List.mem_iff_getElem?.mp ha
  exact fillResults_resolves hfill (k, rp) (mem_slotsOf.mpr ⟨a, hk, hpred⟩) hdep

/-- With the expanding arguments last, every buffer is in order. -/
theorem keepsPositions (h : Laid initObjects layout (resPred nodes node) entry)
    (hlast : Resolves (resPred nodes node) layout cfg node.factor →
      ExpandsLast layout node.factor) :
    KeepsPositions initObjects (resPred nodes node) layout cfg node.factor entry := by
  intro task hj buf hfill k a ha
  rw [ArgCacheEntry.populateCachedArgsInto_nil] at hfill
  have hlast := hlast (h.resolves hj hfill)
  rw [ArgCacheEntry.populateDynamicArgsInto, h.results] at hfill
  have hk : k < layout.length := (List.getElem?_eq_some_iff.mp ha).1
  have hwide : ∀ w ∈ slotsOf (resPred nodes node) layout, w.2.isSingle = false →
      w.1 + 1 = layout.length := by
    rintro ⟨i, rp⟩ hw hsingle
    obtain ⟨b, hb, hpred⟩ := mem_slotsOf.mp hw
    rw [isSingle_resPred hpred, Bool.not_eq_false'] at hsingle
    exact hlast i b hb hsingle
  obtain ⟨hframe, hholds⟩ := ArgCacheEntry.fillResults_holds (slotsOf_pairwise layout)
    (fun w hw => lt_of_mem_slotsOf hw) (by rw [length_patchRefs]; exact h.length_layout_le) hwide hfill
  have hvalue := h.getElem?_patchRefs_args cfg task.nodeIndex ha
  unfold ownValues
  cases hpred : resPred nodes node a with
  | none =>
    apply ArgCacheEntry.singleton_prefix_drop
    rw [hframe k hk, hvalue]
    rintro ⟨i, rp⟩ hw rfl
    obtain ⟨b, hb, hrp⟩ := mem_slotsOf.mp hw
    rw [ha, Option.some.injEq] at hb
    rw [hb, hrp] at hpred
    cases hpred
  | some rp =>
    have hrow := hholds _ _ (getElem?_slotsOf ha hpred)
    rw [Nat.zero_add] at hrow
    have hslot : a.resSlot.isSome = true := by
      rw [← h.isSome a (List.mem_of_getElem? ha), hpred]
      rfl
    rw [LoadedArg.value_of_resSlot hslot] at hvalue
    dsimp only at hrow ⊢
    cases hres : rp.collectResFromCache cfg task (slotsOf (resPred nodes node) (layout.take k)).length with
    | none =>
      rw [hres] at hrow
      exact ArgCacheEntry.singleton_prefix_drop (hrow.trans hvalue)
    | some res =>
      rw [hres] at hrow
      cases res with
      | values vs => exact hrow
      | missing => exact ArgCacheEntry.singleton_prefix_drop (hrow.trans hvalue)
      | stale => exact ArgCacheEntry.singleton_prefix_drop (hrow.trans hvalue)

end Laid

/-! ## Overruns -/

/-- A task that finds `v` for argument `i₀` and `w` for all others. -/
def probe (j t i₀ : ℕ) (v w : CmTypes α) : TaskView α where
  nodeIndex := j
  slot := 0
  predIndex := t
  execGen := none
  looks i _ _ := ⟨some (if i = i₀ then v else w), []⟩

theorem collectCells_probe {rp : ResPredCache} {cfg : ArgConfig} {j t i₀ : ℕ} {v w : CmTypes α}
    {i : ℕ} (cells : List ℕ) (n : ℕ) :
    rp.collectCells cfg (probe j t i₀ v w) i cells n =
      some (.values (List.replicate cells.length (if i = i₀ then v else w))) := by
  induction cells generalizing n with
  | nil => rfl
  | cons cell cells ih =>
    unfold ResPredCache.collectCells
    rw [ih]
    rfl

theorem collect_probe {rp : ResPredCache} {cfg : ArgConfig} {j t : ℕ} (hdep : rp.isDep = false)
    (hne : rp.indexes ≠ []) (hcells : (rp.depIndexes cfg j t).isSome = true) (i₀ : ℕ)
    (v w : CmTypes α) (i : ℕ) :
    rp.collectResFromCache cfg (probe j t i₀ v w) i =
      some (.values (List.replicate (if rp.isSingle then 1 else rp.indexes.length)
        (if i = i₀ then v else w))) := by
  obtain ⟨cells, hc⟩ := Option.isSome_iff_exists.mp hcells
  unfold ResPredCache.collectResFromCache
  rw [if_neg (by rw [hdep]; decide), if_neg hne, ← ResPredCache.length_depIndexes hne hdep hc]
  show (rp.depIndexes cfg j t).bind _ = _
  rw [hc]
  exact collectCells_probe cells 0

theorem collect_probe_total {rp : ResPredCache} {cfg : ArgConfig} {j t : ℕ}
    (hcells : rp.isDep = false → (rp.depIndexes cfg j t).isSome = true) (i₀ : ℕ)
    (v w : CmTypes α) (i : ℕ) :
    ∃ res, rp.collectResFromCache cfg (probe j t i₀ v w) i = some res ∧ res ≠ .stale := by
  by_cases hdep : rp.isDep = true
  · exact ⟨.values [.none], by rw [ResPredCache.collectResFromCache, if_pos hdep], nofun⟩
  · rw [Bool.not_eq_true] at hdep
    by_cases hne : rp.indexes = []
    · refine ⟨.missing, ?_, nofun⟩
      rw [ResPredCache.collectResFromCache, if_neg (by rw [hdep]; decide), if_pos hne]
    · exact ⟨_, collect_probe hdep hne (hcells hdep) i₀ v w i, nofun⟩

/-- The first value of an argument does not depend on what another one finds. -/
theorem head_ownValues (initObjects : List (List (CmTypes α))) (layout : List (LoadedArg α))
    {preds : LoadedArg α → Option ResPredCache} {cfg : ArgConfig}
    {j t : ℕ} {k : ℕ} {a : LoadedArg α}
    (hcells : ∀ rp, preds a = some rp → rp.isDep = false → (rp.depIndexes cfg j t).isSome = true)
    {i₀ : ℕ} (hi : (slotsOf preds (layout.take k)).length ≠ i₀) (w : CmTypes α) :
    ∃ u, ∀ v, ∃ us, ownValues initObjects preds layout cfg (probe j t i₀ v w) k a = u :: us := by
  unfold ownValues
  cases hpred : preds a with
  | none => exact ⟨a.value initObjects cfg.workers j, fun _ => ⟨[], rfl⟩⟩
  | some rp =>
    by_cases hdep : rp.isDep = true
    · refine ⟨.none, fun v => ⟨[], ?_⟩⟩
      simp only [ResPredCache.collectResFromCache, if_pos hdep]
    · by_cases hne : rp.indexes = []
      · refine ⟨.none, fun v => ⟨[], ?_⟩⟩
        simp only [ResPredCache.collectResFromCache, if_neg hdep, if_pos hne]
      · rw [Bool.not_eq_true] at hdep
        refine ⟨w, fun v => ⟨List.replicate ((if rp.isSingle then 1 else rp.indexes.length) - 1) w, ?_⟩⟩
        simp only [collect_probe hdep hne (hcells rp hpred hdep), if_neg hi]
        have hpos : 0 < if rp.isSingle then 1 else rp.indexes.length := by
          split
          · exact Nat.one_pos
          · exact List.length_pos_iff.mpr hne
        rw [← List.replicate_succ, Nat.sub_add_cancel hpos]

theorem Laid.expandsLast {initObjects : List (List (CmTypes α))} {layout : List (LoadedArg α)}
    {nodes : List (LoadedNode α)} {node : LoadedNode α} {entry : ArgCacheEntry α} {cfg : ArgConfig}
    (h : Laid initObjects layout (resPred nodes node) entry)
    (hresolves : Resolves (resPred nodes node) layout cfg node.factor)
    (hkeeps : KeepsPositions initObjects (resPred nodes node) layout cfg node.factor entry) :
    ExpandsLast layout node.factor := by
  obtain ⟨j, hj, t, hcells⟩ := hresolves
  intro k a ha hexp
  by_contra hne
  have hk : k < layout.length := (List.getElem?_eq_some_iff.mp ha).1
  have hk1 : k + 1 < layout.length := by omega
  have hb := List.getElem?_eq_getElem hk1
  -- argument `k` takes two slots, the second of which is that of argument `k + 1`
  obtain ⟨rp, hpred⟩ : ∃ rp, resPred nodes node a = some rp := by
    have hres : a.resSlot.isSome = true := by
      obtain ⟨type, cond, pred⟩ := a
      cases type with
      | res _ => rfl
      | _ => cases hexp
    rw [← h.isSome a (List.mem_of_getElem? ha)] at hres
    exact Option.isSome_iff_exists.mp hres
  have hsingle : rp.isSingle = false := by rw [isSingle_resPred hpred, hexp]; rfl
  have hdep : rp.isDep = false := by
    simp only [ResPredCache.isSingle, Bool.or_eq_false_iff] at hsingle
    exact hsingle.1.1
  have htwo := ResPredCache.two_le_of_not_isSingle hsingle
  have hnil : rp.indexes ≠ [] := by
    intro hnil
    rw [hnil] at htwo
    cases htwo
  have hnum : (slotsOf (resPred nodes node) (layout.take (k + 1))).length ≠
      (slotsOf (resPred nodes node) (layout.take k)).length := by
    rw [List.take_add_one, ha, Option.toList_some, slotsOf_concat, hpred]
    simp
  obtain ⟨u, hu⟩ := head_ownValues initObjects layout (a := layout[k + 1])
    (fun rp' hrp' => hcells _ (List.getElem_mem hk1) rp' hrp') hnum (.usize 1 : CmTypes α)
  -- let argument `k` find something else than what argument `k + 1` holds
  obtain ⟨v, hv⟩ : ∃ v : CmTypes α, v ≠ u := by
    by_cases hu0 : u = .usize 0
    · exact ⟨.usize 2, by rw [hu0]; simp⟩
    · exact ⟨.usize 0, Ne.symm hu0⟩
  obtain ⟨us, hus⟩ := hu v
  obtain ⟨buf, hbuf⟩ := ArgCacheEntry.fillResults_total (fun w hw i => by
    obtain ⟨b, hmem, hrp⟩ := mem_slotsOf.mp hw
    exact collect_probe_total (hcells b (List.mem_of_getElem? hmem) w.2 hrp)
      (slotsOf (resPred nodes node) (layout.take k)).length v (.usize 1) i) 0
    (entry.patchRefs cfg j entry.args)
  have hfill : entry.populateCachedArgsInto cfg
      (probe j t (slotsOf (resPred nodes node) (layout.take k)).length v (.usize 1)) [] =
        some (buf, false) := by
    rw [ArgCacheEntry.populateCachedArgsInto_nil, ArgCacheEntry.populateDynamicArgsInto, h.results]
    exact hbuf
  have hown := hkeeps _ hj buf hfill k a ha
  have hnext := hkeeps _ hj buf hfill (k + 1) _ hb
  rw [hus] at hnext
  unfold ownValues at hown
  rw [hpred] at hown
  simp only [collect_probe hdep hnil (hcells a (List.mem_of_getElem? ha) rp hpred hdep), hsingle,
    if_true, Bool.false_eq_true, if_false] at hown
  obtain ⟨m, hm⟩ : ∃ m, rp.indexes.length = m + 2 := ⟨rp.indexes.length - 2, by omega⟩
  rw [hm, List.replicate_succ, List.replicate_succ] at hown
  have h1 : buf[k + 1]? = some v := by
    obtain ⟨tail, htail⟩ := hown
    have hget := congrArg (·[1]?) htail
    simpa using hget.symm
  have h2 : buf[k + 1]? = some u := ArgCacheEntry.getElem?_of_prefix_drop hnext
  rw [h1, Option.some.injEq] at h2
  exact hv h2

/-- For every node that passes the loader's check, buffers for main arguments and for condition
arguments keep every argument in its place if and only if grouped main arguments and condition
arguments that take several values come last, too. Where the index formulas of a node panic no
buffer is filled. -/
theorem arguments_in_place_iff (initObjects : List (List (CmTypes α)))
    (nodes : List (LoadedNode α)) (node : LoadedNode α) (cfg : ArgConfig) {main : ArgCacheEntry α}
    (hvalid : validateResArgLayout node.name node.args node.factor = .ok ())
    (hmain : mainArgCache initObjects nodes node = some main) :
    (KeepsPositions initObjects (resPred nodes node) (argLayout true node.args) cfg node.factor
        main ∧
      ∀ args cond, node.condArgs = some args →
        argCacheOf initObjects nodes node args false = some cond →
          KeepsPositions initObjects (resPred nodes node) (argLayout false args) cfg node.factor
            cond) ↔
    (Resolves (resPred nodes node) (argLayout true node.args) cfg node.factor →
        GroupedExpandsLast (argLayout true node.args) node.factor) ∧
      ∀ args cond, node.condArgs = some args →
        argCacheOf initObjects nodes node args false = some cond →
          Resolves (resPred nodes node) (argLayout false args) cfg node.factor →
            ExpandsLast (argLayout false args) node.factor := by
  have hlaid : Laid initObjects (argLayout true node.args) (resPred nodes node) main :=
    laid_argCacheOf hmain
  constructor
  · rintro ⟨hkeeps, hconds⟩
    refine ⟨fun hres k a ha hexp _ => hlaid.expandsLast hres hkeeps k a ha hexp, ?_⟩
    intro args cond hargs hcond hres
    exact (laid_argCacheOf hcond).expandsLast hres (hconds args cond hargs hcond)
  · rintro ⟨hgrouped, hconds⟩
    refine ⟨hlaid.keepsPositions fun hres k a ha hexp => ?_, ?_⟩
    · cases hgroup : a.isGrouped with
      | true => exact hgrouped hres k a ha hexp hgroup
      | false =>
        have hpos := checkResArgs_ok hvalid ha hexp hgroup
        omega
    · intro args cond hargs hcond
      exact (laid_argCacheOf hcond).keepsPositions (hconds args cond hargs hcond)

/-- `tag` has a grouped result of four cells before a `$ref` on its instance. -/
def grouped : LoadedNode ℕ where
  name := "tag"
  id := 1
  funcName := "tag"
  args := [⟨.res 0, false, some ⟨0, [0, 1, 2, 3], some 2⟩⟩, ⟨.ref 0, false, none⟩]
  condArgs := none
  factor := 2
  groupSize := none

def groupedNodes : List (LoadedNode ℕ) := [⟨"split", 0, "split", [], none, 4, none⟩, grouped]

def groupedCache : ArgCacheEntry ℕ where
  args := [.none, .none]
  bufferRefIndexes := []
  bufferValues := []
  rtIdxsIndexes := [1]
  rtWorkersIndexes := []
  resIndexes := [0]
  resPredecessors := [⟨1, 0, [0, 1, 2, 3], 4, none, none, 2, false, false⟩]

def plainConfig : ArgConfig := ⟨false, 4, fun _ _ => none⟩

theorem arguments_in_place_iff_at_grouped :
    (KeepsPositions [] (resPred groupedNodes grouped) (argLayout true grouped.args) plainConfig 2
        groupedCache ∧
      ∀ args cond, grouped.condArgs = some args →
        argCacheOf [] groupedNodes grouped args false = some cond →
          KeepsPositions [] (resPred groupedNodes grouped) (argLayout false args) plainConfig 2
            cond) ↔
    (Resolves (resPred groupedNodes grouped) (argLayout true grouped.args) plainConfig 2 →
        GroupedExpandsLast (argLayout true grouped.args) 2) ∧
      ∀ args cond, grouped.condArgs = some args →
        argCacheOf [] groupedNodes grouped args false = some cond →
          Resolves (resPred groupedNodes grouped) (argLayout false args) plainConfig 2 →
            ExpandsLast (argLayout false args) 2 :=
  arguments_in_place_iff [] groupedNodes grouped plainConfig rfl rfl

/-- The kernel of `tag` finds the second cell where its index belongs. -/
theorem argument_overwritten :
    ¬ ∀ (initObjects : List (List (CmTypes ℕ))) (nodes : List (LoadedNode ℕ)) (node : LoadedNode ℕ)
      (cfg : ArgConfig) (main : ArgCacheEntry ℕ),
      validateResArgLayout node.name node.args node.factor = .ok () →
      mainArgCache initObjects nodes node = some main →
        KeepsPositions initObjects (resPred nodes node) (argLayout true node.args) cfg node.factor
          main := by
  intro h
  have hkeeps := h [] groupedNodes grouped plainConfig groupedCache rfl rfl
  have hlead := hkeeps (probe 0 0 0 (.usize 7) (.usize 7)) (by decide)
    [.usize 7, .usize 7, .usize 7, .usize 7, .usize 0] rfl 1 ⟨.ref 0, false, none⟩ rfl
  revert hlead
  decide

end Tomii
