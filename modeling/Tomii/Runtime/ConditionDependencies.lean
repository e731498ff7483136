import Tomii.Runtime.Overtaking
import Mathlib.Data.Fintype.EquivFin

/-! # Condition arguments as dependencies

Successor lists, dependency counts and `needs_result_store` each look at arguments of their own;
a condition reads its predecessors through arguments of a third kind. It is evaluated on the
batch path, when the counter lets an instance of its node go, and fetches the cells of its
references as the main arguments do. -/
namespace Tomii
set_option autoImplicit false
set_option maxHeartbeats 250000

/-- The arguments of the node-level conditions, by node. The loader looks up the name of every
predecessor. -/
structure NodeConditions (nodes : List Node) where
  args : ℕ → List Arg
  declared : ∀ id, args id ≠ [] → ∃ h : id < nodes.length, (nodes[id]).condition = true
  preds_exist : ∀ id, ∀ a ∈ args id, ∀ p, a.predecessor = some p → p.id < nodes.length

namespace NodeConditions

variable {nodes : List Node} (conds : NodeConditions nodes)

/-- A `$res` on `id` in the node-level condition of `s`. -/
def reads (s id : ℕ) : Bool := (conds.args s).any fun a => a.isResult && a.reads id

/-- What the caches know of the conditions: `cond_reads` of `needs_result_store`. -/
def kernels (bulkFunc : ℕ → Bool) : Kernels := ⟨bulkFunc, conds.reads⟩

end NodeConditions

namespace Compiled

variable (c : Compiled)

/-! ## References of conditions -/

/-- A condition of `v` reads `p`: an argument that carries a condition, or one of the node-level
condition. -/
def ConditionReads {nodes : List Node} (conds : NodeConditions nodes) (v : ℕ) (p : Predecessor) :
    Prop :=
  ∃ a, (a ∈ (c.nodeAt v).args ∧ a.isCondition = true ∨ a ∈ conds.args v) ∧ a.isResult = true ∧
    a.predecessor = some p

/-- Whenever the counter of `v` lets an instance go to the condition, the cells that the condition
fetches for `p` have completed. -/
def ReadsPresent (v : ℕ) (p : Predecessor) : Prop :=
  ∀ (cfg : Config) (rs : List Resolution) (s : SlotState),
    c.deps s.cells v = EntryState.initial (c.entry v) →
    (∀ r ∈ rs, r.task.gen = s.cells.slotGen) → c.PredRun v rs →
    ∀ pre eval ni post, rs = pre ++ .batch eval ni :: post →
      ∀ j ∈ c.returned cfg (.batch eval ni) (runOps (c.resolve cfg) pre s).2 v,
        ∃ cells, c.fetchResResults v p j ni.index = some cells ∧
          ∀ i ∈ cells, (p.id, i) ∈ completedCells (pre ++ [.batch eval ni])

/-- `p` is a dependency of `v` in full: listed, stored and awaited. -/
structure IsDependency (k : Kernels) (v : ℕ) (p : Predecessor) : Prop where
  successor : v ∈ c.graph.successors p.id
  stored : c.needsResultStore k p.id = true
  present : c.ReadsPresent v p

/-- The arguments of `v` let instance `j` go in some order of completions. -/
def CanGo (v j : ℕ) : Prop := ∃ x ∉ c.predCells v, c.Bypasses v j x

/-- No order of completions lets an instance of `v` go past a cell that a condition fetches for
`p`. Where the fetch goes by the completed task, no task of another node makes the instance
ready first. -/
def Awaited (v : ℕ) (p : Predecessor) : Prop :=
  if c.Trusts v p then
    ∀ j, ¬ c.NamedByOther v j p.id ∧ ∀ q t, ¬ c.CountedPast v j p.id (t % c.factor v) q t t
  else
    ∀ j, c.CanGo v j →
      ∃ cells, c.fetchResResults v p j 0 = some cells ∧ ∀ i ∈ cells, ¬ c.Bypasses v j (p.id, i)

variable {c}

theorem needsResultStore_of_reads {nodes : List Node} {conds : NodeConditions nodes}
    (bulkFunc : ℕ → Bool) {v : ℕ} {p : Predecessor} (hreads : c.ConditionReads conds v p)
    (hsucc : v ∈ c.graph.successors p.id) :
    c.needsResultStore (conds.kernels bulkFunc) p.id = true := by
  obtain ⟨a, hwhere, hres, hp⟩ := hreads
  have hreads : (a.isResult && a.reads p.id) = true := by
    simp [hres, Arg.reads, hp]
  refine List.any_eq_true.mpr ⟨v, hsucc, ?_⟩
  rw [Bool.or_eq_true]
  refine hwhere.imp (fun hmain => ?_) fun hnode => ?_
  · exact List.any_eq_true.mpr ⟨a, hmain.1, hreads⟩
  · exact List.any_eq_true.mpr ⟨a, hnode, hreads⟩

/-- An instance that a run makes ready can go. -/
theorem canGo_of_ready {nodes : List Node} (h : BuiltFrom nodes c) {cfg : Config} {v : ℕ}
    {pre : List Resolution} {r : Resolution} {s : SlotState}
    (hfresh : c.deps s.cells v = EntryState.initial (c.entry v))
    (hgen : ∀ r' ∈ pre ++ [r], r'.task.gen = s.cells.slotGen) (hrun : c.PredRun v (pre ++ [r]))
    {j : ℕ} (hj : j ∈ c.returned cfg r (runOps (c.resolve cfg) pre s).2 v) : c.CanGo v j := by
  obtain ⟨x, hx⟩ := Infinite.exists_notMem_finset
    (c.predCells v ++ completedCells (pre ++ [r])).toFinset
  rw [List.mem_toFinset, List.mem_append, not_or] at hx
  exact ⟨x, hx.1, h.bypasses_of_ready hfresh hgen hrun hj hx.2⟩

/-- On a way past `x` that ends on the batch path, the condition fetches other cells than `x`. -/
theorem fetched_of_readsPresent {v : ℕ} {p : Predecessor} (hpresent : c.ReadsPresent v p)
    {cfg : Config} {j : ℕ} {x : ℕ × ℕ} {pre : List Resolution} {eval : NodeInfo → Bool}
    {ni : NodeInfo} (hway : c.TakesWay cfg v j x pre (.batch eval ni)) :
    ∃ cells, c.fetchResResults v p j ni.index = some cells ∧ ∀ i ∈ cells, (p.id, i) ≠ x := by
  obtain ⟨cells, hcells, hdone⟩ := hpresent cfg (pre ++ [.batch eval ni]) (SlotState.fresh c 0)
    (SlotState.fresh_deps c 0 v) hway.gen hway.run pre eval ni [] rfl j hway.ready
  exact ⟨cells, hcells, fun i hi heq => hway.misses (heq ▸ hdone i hi)⟩

theorem asU32_ne_zero {n : ℕ} (hpos : 0 < n) (hsmall : n < 2 ^ 32) : asU32 n ≠ 0 := by
  intro hzero
  have hcast := asU32_toNat_of_lt hsmall
  rw [hzero] at hcast
  exact absurd hcast (Nat.ne_of_lt hpos)

/-! ## What the counter waits for -/

section Awaiting

variable {nodes : List Node} (h : BuiltFrom nodes c) {v : ℕ} (hv : v < nodes.length)
  {p : Predecessor}

include h hv

theorem readsPresent_of_awaited (hpred : p.id ∈ (c.nodeAt v).predIds) (haw : c.Awaited v p) :
    c.ReadsPresent v p := by
  intro cfg rs s hfresh hgen hrun pre eval ni post heq j hj
  have hsplit : rs = (pre ++ [.batch eval ni]) ++ post := by simp [heq]
  rw [hsplit] at hgen hrun
  have hgen' : ∀ r' ∈ pre ++ [.batch eval ni], r'.task.gen = s.cells.slotGen :=
    fun r' hr' => hgen r' (List.mem_append_left _ hr')
  have hrun' := hrun.before
  unfold Awaited at haw
  split at haw
  · next htrust =>
    obtain ⟨hother, hnever⟩ := haw j
    obtain ⟨hmany, hlen, hfactor, hbar⟩ := htrust
    refine ⟨_, Trusts.fetch ⟨hmany, hlen, hfactor, hbar⟩ j ni.index, fun i hi => ?_⟩
    rw [List.mem_singleton] at hi
    have hlast : .batch eval ni ∈ pre ++ [.batch eval ni] :=
      List.mem_append_right _ (List.mem_singleton_self _)
    by_contra hmiss
    by_cases hid : ni.id = p.id
    · -- the completed task is one of the predecessor itself
      have hfirst : ni.index ∈ ni.instances := by
        have := hrun'.chunks _ hlast
        rw [NodeInfo.instances, List.mem_range'_1]
        exact ⟨le_rfl, Nat.lt_add_of_pos_right this⟩
      have hlt := hrun'.instances_lt hlast (hid ▸ hpred) _ hfirst
      simp only [Resolution.task] at hlt
      rw [hid, hfactor] at hlt
      rw [hi, Nat.mod_eq_of_lt hlt, ← hid] at hmiss
      exact hmiss (mem_completedCells hlast hfirst)
    · obtain ⟨k, -, hcounted, hbatch⟩ := countedPast_of_ready h hv hbar
        (pred_exists h hv hpred) hfactor hother hfresh hgen' hrun' hid hj hmiss
      rw [hbatch eval ni rfl, hi] at hcounted
      exact hnever _ _ hcounted
  · next htrust =>
    obtain ⟨cells, hcells, hkept⟩ := haw j (canGo_of_ready h hfresh hgen' hrun' hj)
    refine ⟨cells, (fetch_congr htrust j ni.index 0).trans hcells, fun i hi => ?_⟩
    by_contra hmiss
    exact hkept i hi (h.bypasses_of_ready hfresh hgen' hrun' hj hmiss)

variable (hsmall : c.factor v < 2 ^ 32)

include hsmall

theorem awaited_of_readsPresent (hpred : p.id ∈ (c.nodeAt v).predIds)
    (hpresent : c.ReadsPresent v p) : c.Awaited v p := by
  unfold Awaited
  split
  · next htrust =>
    obtain ⟨hmany, hlen, hfactor, hbar⟩ := htrust
    have hpos : 0 < c.factor v := by omega
    have hspawns : c.isCondition v = true → asU32 (c.factor v) ≠ 0 :=
      fun _ => asU32_ne_zero hpos hsmall
    -- a way on which the completed task's own index is missing
    have hnoway : ∀ {j : ℕ} {pre : List Resolution} {ni : NodeInfo} {eval : NodeInfo → Bool},
        ¬ c.TakesWay ⟨1, false, false, false⟩ v j (p.id, ni.index % c.factor v) pre
          (.batch eval ni) := by
      intro j pre ni eval hway
      obtain ⟨cells, hcells, hdone⟩ := fetched_of_readsPresent hpresent hway
      rw [Trusts.fetch ⟨hmany, hlen, hfactor, hbar⟩, Option.some.injEq] at hcells
      exact hdone _ (hcells ▸ List.mem_singleton_self _) rfl
    intro j
    have hother : ¬ c.NamedByOther v j p.id := by
      intro hnamed
      obtain ⟨ni, -, -, hway⟩ := exists_named_way h hv hbar hsmall hpos hnamed
      exact hnoway ((hway _ _).2 hspawns fun _ => true)
    refine ⟨hother, fun q t hcounted => ?_⟩
    obtain ⟨pre, ni, -, hindex, -, hway⟩ := exists_counting_way h hv hbar
      (pred_exists h hv hpred) hfactor hsmall hother le_rfl hcounted
      ⟨1, false, false, false⟩
    have hway := hway rfl hspawns fun _ => true
    rw [← hindex] at hway
    exact hnoway hway
  · next htrust =>
    intro j hgo
    obtain ⟨x, -, hby⟩ := hgo
    have hway : ∀ {y : ℕ × ℕ}, c.Bypasses v j y → ∃ cells,
        c.fetchResResults v p j 0 = some cells ∧ ∀ i ∈ cells, (p.id, i) ≠ y := by
      intro y hby
      have hspawns : c.isCondition v = true → asU32 (c.factor v) ≠ 0 :=
        fun _ => asU32_ne_zero (Nat.zero_lt_of_lt hby.lt) hsmall
      obtain ⟨pre, ni, -, hway⟩ := h.exists_way ⟨1, false, false, false⟩ hv hby
      obtain ⟨cells, hcells, hdone⟩ := fetched_of_readsPresent hpresent
        (hway hspawns fun _ => true)
      exact ⟨cells, (fetch_congr htrust j 0 ni.index).trans hcells, hdone⟩
    obtain ⟨cells, hcells, -⟩ := hway hby
    refine ⟨cells, hcells, fun i hi hpast => ?_⟩
    obtain ⟨cells', hcells', hdone⟩ := hway hpast
    rw [hcells, Option.some.injEq] at hcells'
    exact hdone i (hcells' ▸ hi) rfl

/-- A predecessor that a condition reads is a dependency when some argument names it and no order
of completions passes by what the condition fetches. -/
theorem isDependency_iff {conds : NodeConditions nodes} (bulkFunc : ℕ → Bool)
    (hreads : c.ConditionReads conds v p) : c.IsDependency (conds.kernels bulkFunc) v p ↔
      p.id ∈ (c.nodeAt v).predIds ∧ c.Awaited v p := by
  constructor
  · intro hdep
    have hpred := (h.mem_successors.mp hdep.successor).2
    exact ⟨hpred, awaited_of_readsPresent h hv hsmall hpred hdep.present⟩
  · intro hcond
    have hsucc := h.mem_successors.mpr ⟨hv, hcond.1⟩
    exact ⟨hsucc, needsResultStore_of_reads bulkFunc hreads hsucc,
      readsPresent_of_awaited h hv hcond.1 hcond.2⟩

end Awaiting

end Compiled

/-- Every predecessor that conditions read is a dependency of its reader if and only if an argument of
the reader names it, and no order of completions lets an instance go to its condition past a cell
that the condition fetches. -/
theorem condition_args_are_dependencies_iff {nodes : List Node} {c : Compiled}
    (h : BuiltFrom nodes c) (conds : NodeConditions nodes) (bulkFunc : ℕ → Bool)
    (hfit : ∀ v < nodes.length, ∀ p, c.ConditionReads conds v p → c.factor v < 2 ^ 32) :
    (∀ v < nodes.length, ∀ p, c.ConditionReads conds v p →
        c.IsDependency (conds.kernels bulkFunc) v p) ↔
      ∀ v < nodes.length, ∀ p, c.ConditionReads conds v p →
        p.id ∈ (c.nodeAt v).predIds ∧ c.Awaited v p := by
  have hone := fun v hv p hreads =>
    Compiled.isDependency_iff h hv (hfit v hv p hreads) bulkFunc hreads
  constructor
  · intro hall v hv p hreads
    exact (hone v hv p hreads).mp (hall v hv p hreads)
  · intro hall v hv p hreads
    exact (hone v hv p hreads).mpr (hall v hv p hreads)

/-- `smooth` reads `frames`, and `classify` in its condition only. -/
def smoothed : List Node :=
  [⟨false, 0, [], 1, none, false⟩, ⟨false, 1, [], 1, none, false⟩,
    ⟨false, 2, [⟨.res, false, some ⟨0, [0], none⟩⟩], 1, none, true⟩]

def smoothedConditions : NodeConditions smoothed where
  args id := if id = 2 then [⟨.res, false, some ⟨1, [0], none⟩⟩] else []
  declared := by
    intro id h
    split at h
    · next hid =>
      subst hid
      exact ⟨by decide, rfl⟩
    · exact absurd rfl h
  preds_exist := by
    intro id a ha p hp
    split at ha
    · rw [List.mem_singleton.mp ha] at hp
      obtain rfl := Option.some.inj hp
      decide
    · cases ha

theorem builtFrom_smoothed : BuiltFrom smoothed (Compiled.ofNodes smoothed) :=
  builtFrom_ofNodes (by decide) (by decide)

theorem smoothed_fits : ∀ v < smoothed.length, ∀ p,
    (Compiled.ofNodes smoothed).ConditionReads smoothedConditions v p →
      (Compiled.ofNodes smoothed).factor v < 2 ^ 32 := by
  have hall : ∀ v < smoothed.length, (Compiled.ofNodes smoothed).factor v < 2 ^ 32 := by
    decide +kernel
  exact fun v hv _ _ => hall v hv

theorem condition_args_are_dependencies_iff_at_smoothed :
    (∀ v < smoothed.length, ∀ p,
        (Compiled.ofNodes smoothed).ConditionReads smoothedConditions v p →
        (Compiled.ofNodes smoothed).IsDependency (smoothedConditions.kernels fun _ => false) v p) ↔
      ∀ v < smoothed.length, ∀ p,
        (Compiled.ofNodes smoothed).ConditionReads smoothedConditions v p →
        p.id ∈ ((Compiled.ofNodes smoothed).nodeAt v).predIds ∧
          (Compiled.ofNodes smoothed).Awaited v p :=
  condition_args_are_dependencies_iff builtFrom_smoothed smoothedConditions (fun _ => false)
    smoothed_fits

/-- `classify` neither counts for `smooth` nor is its result stored. -/
theorem condition_arg_not_awaited :
    ¬ ∀ nodes c, BuiltFrom nodes c → ∀ conds : NodeConditions nodes, ∀ bulkFunc,
      ∀ v < nodes.length, ∀ p, c.ConditionReads conds v p →
        c.IsDependency (conds.kernels bulkFunc) v p := by
  intro h
  have hreads : (Compiled.ofNodes smoothed).ConditionReads smoothedConditions 2
      ⟨1, [0], none⟩ :=
    ⟨⟨.res, false, some ⟨1, [0], none⟩⟩, .inr (List.mem_singleton_self _), rfl, rfl⟩
  have hdep := h smoothed _ builtFrom_smoothed smoothedConditions (fun _ => false) 2 (by decide)
    ⟨1, [0], none⟩ hreads
  have hmem := (builtFrom_smoothed.mem_successors.mp hdep.successor).2
  revert hmem
  decide

end Tomii
