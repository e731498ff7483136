import Tomii.Runtime.WalkSpec

/-! # What a batch does to a slot

The batch path beyond the entries: which instances it dispatches, one by one or as the whole
factor of a fanout-bulk node once all of its instances have arrived. A slot's `SlotEffect` says
all of it in terms of the calls made on each node. -/
namespace Tomii
set_option autoImplicit false
set_option maxHeartbeats 250000

/-- Instance `j` of node `v` goes out in slot `slot`. -/
def Trace.Dispatches (t : Trace) (slot v j : ℕ) : Prop :=
  ∃ task ∈ t.sched, task.slot = slot ∧ task.id = v ∧ j ∈ task.instances

theorem Trace.dispatches_append (a b : Trace) (slot v j : ℕ) :
    (a.append b).Dispatches slot v j ↔ a.Dispatches slot v j ∨ b.Dispatches slot v j := by
  simp only [Dispatches, append, List.mem_append, or_and_right, exists_or]

theorem Trace.not_dispatches_empty (slot v j : ℕ) : ¬ Trace.empty.Dispatches slot v j := by
  intro ⟨task, htask, _⟩
  cases htask

theorem dispatches_chunkTasks {ready : List (ℕ × ℕ)} {id slot predIndex : ℕ} {gen : UInt32}
    {cs : List (ℕ × ℕ)} {σ v j : ℕ} :
    (Trace.mk ready (chunkTasks id slot predIndex gen cs)).Dispatches σ v j ↔
      σ = slot ∧ v = id ∧ j ∈ (chunkTasks id slot predIndex gen cs).flatMap NodeInfo.instances := by
  have hself : ∀ task ∈ chunkTasks id slot predIndex gen cs, task.slot = slot ∧ task.id = id := by
    intro task htask
    obtain ⟨ch, -, heq⟩ := List.mem_map.mp htask
    subst heq
    exact ⟨rfl, rfl⟩
  rw [List.mem_flatMap]
  constructor
  · intro ⟨task, htask, hslot, hid, hj⟩
    obtain ⟨h1, h2⟩ := hself task htask
    exact ⟨by rw [← hslot, h1], by rw [← hid, h2], task, htask, hj⟩
  · intro ⟨hσ, hv, task, htask, hj⟩
    obtain ⟨h1, h2⟩ := hself task htask
    exact ⟨task, htask, by rw [h1, hσ], by rw [h2, hv], hj⟩

theorem dispatches_singles {marked : List (ℕ × ℕ)} {id slot predIndex : ℕ} {ready : List ℕ}
    {σ v j : ℕ} :
    (Trace.mk marked (ready.map fun idx => NodeInfo.new id slot idx predIndex)).Dispatches σ v j ↔
      σ = slot ∧ v = id ∧ j ∈ ready := by
  constructor
  · rintro ⟨task, htask, hslot, hid, hj⟩
    obtain ⟨idx, hidx, heq⟩ := List.mem_map.mp htask
    subst heq
    have hjidx : j = idx := by
      simp only [NodeInfo.instances, NodeInfo.new, List.mem_range'_1] at hj
      omega
    subst hjidx
    exact ⟨hslot.symm, hid.symm, hidx⟩
  · rintro ⟨hσ, hv, hj⟩
    refine ⟨NodeInfo.new id slot j predIndex, List.mem_map.mpr ⟨j, hj, rfl⟩, hσ.symm, hv.symm, ?_⟩
    simp [NodeInfo.instances, NodeInfo.new]

namespace Compiled

variable (c : Compiled) (cfg : Config)

/-- `v` goes out as a whole; every edge into `v` says the same. -/
def goesOutWhole (v : ℕ) : Bool :=
  c.isFanoutBulk v && !cfg.noFanoutBulk && (!cfg.inlineContinuation || cfg.workers = 1)

theorem fanoutBulkEligible_edge (p v : ℕ) :
    cfg.fanoutBulkEligible (c.edge p v) = c.goesOutWhole cfg v := rfl

/-- The factor as the edges carry it. -/
def edgeFactor (v : ℕ) : ℕ := (asU32 (c.factor v)).toNat

theorem edgeFactor_lt (v : ℕ) : c.edgeFactor v < 2 ^ 32 := (asU32 (c.factor v)).toNat_lt

/-- Arrivals counted at a fanout-bulk node in the current generation. -/
def arrived (s : LazySlot) (v : ℕ) : ℕ := (s.view c.layout).fanoutBulkArrived v

theorem arrived_lt (s : LazySlot) (v : ℕ) : c.arrived s v < 2 ^ 32 := UInt32.toNat_lt _

/-- The instances of `v` that `n` arrivals after `before` send out, when `ready` came back. -/
def Sends (v before : ℕ) (ready : List ℕ) (j : ℕ) : Prop :=
  if c.goesOutWhole cfg v then
    0 < ready.length ∧ c.edgeFactor v ≤ before + ready.length ∧ j < c.edgeFactor v
  else j ∈ ready

/-- `calls v` is what happened to the entry of each node; `sent v j` says what was dispatched.
The arrival counter is exact while it fits its 32 bits. -/
structure SlotEffect (calls : ℕ → List DepCall) (s s' : LazySlot) (sent : ℕ → ℕ → Prop) : Prop where
  generation : s'.generation = s.generation
  deps : ∀ v, c.deps s' v = (c.runOn v (calls v) s).2
  arrived_le : ∀ v, c.goesOutWhole cfg v = true →
    c.arrived s' v ≤ c.arrived s v + (c.runOn v (calls v) s).1.length
  arrived_eq : ∀ v, c.goesOutWhole cfg v = true →
    c.arrived s v + (c.runOn v (calls v) s).1.length < 2 ^ 32 →
      c.arrived s' v = c.arrived s v + (c.runOn v (calls v) s).1.length
  sent_iff : ∀ v j, sent v j ↔ c.Sends cfg v (c.arrived s v) (c.runOn v (calls v) s).1 j

variable {c cfg}

theorem SlotEffect.refl (s : LazySlot) : c.SlotEffect cfg (fun _ => []) s s (fun _ _ => False) := by
  refine ⟨rfl, fun _ => rfl, fun _ _ => le_rfl, fun _ _ _ => rfl, fun v j => ?_⟩
  unfold Sends
  split
  · simp [runOn]
  · simp [runOn]

theorem SlotEffect.congr {calls calls' : ℕ → List DepCall} {s s' : LazySlot}
    {sent sent' : ℕ → ℕ → Prop} (h : c.SlotEffect cfg calls s s' sent)
    (hcalls : ∀ v, calls v = calls' v) (hsent : ∀ v j, sent v j ↔ sent' v j) :
    c.SlotEffect cfg calls' s s' sent' := by
  have h1 : calls = calls' := funext hcalls
  have h2 : sent = sent' := funext fun v => funext fun j => propext (hsent v j)
  subst h1 h2
  exact h

/-- Arrivals in two steps send what they send in one. -/
theorem sends_append {v before mid : ℕ} {r1 r2 : List ℕ} (hbefore : before < 2 ^ 32)
    (hle : c.goesOutWhole cfg v = true → mid ≤ before + r1.length)
    (heq : c.goesOutWhole cfg v = true → before + r1.length < 2 ^ 32 → mid = before + r1.length)
    (j : ℕ) :
    c.Sends cfg v before (r1 ++ r2) j ↔ c.Sends cfg v before r1 j ∨ c.Sends cfg v mid r2 j := by
  unfold Sends
  by_cases hw : c.goesOutWhole cfg v = true
  · have hlt := c.edgeFactor_lt v
    have hle := hle hw
    have heq := heq hw
    simp only [hw, if_true, List.length_append]
    constructor
    · intro ⟨hpos, hfull, hj⟩
      by_cases hfirst : c.edgeFactor v ≤ before + r1.length
      · by_cases hr1 : 0 < r1.length
        · exact .inl ⟨hr1, hfirst, hj⟩
        · have hmid := heq (by omega)
          exact .inr ⟨by omega, by omega, hj⟩
      · have hmid := heq (by omega)
        exact .inr ⟨by omega, by omega, hj⟩
    · intro h
      cases h with
      | inl h => exact ⟨by omega, by omega, h.2.2⟩
      | inr h => exact ⟨by omega, by omega, h.2.2⟩
  · simp only [hw, Bool.false_eq_true, if_false, List.mem_append]

theorem SlotEffect.append {calls calls' : ℕ → List DepCall} {s s' s'' : LazySlot}
    {sent sent' : ℕ → ℕ → Prop} (h : c.SlotEffect cfg calls s s' sent)
    (h' : c.SlotEffect cfg calls' s' s'' sent') :
    c.SlotEffect cfg (fun v => calls v ++ calls' v) s s'' (fun v j => sent v j ∨ sent' v j) := by
  have hrun : ∀ v, c.runOn v (calls' v) s' =
      runCalls (EntryState.call (c.entry v)) (calls' v) (c.runOn v (calls v) s).2 := by
    intro v
    rw [runOn, h.deps]
  have happend : ∀ v, c.runOn v (calls v ++ calls' v) s =
      ((c.runOn v (calls v) s).1 ++ (c.runOn v (calls' v) s').1, (c.runOn v (calls' v) s').2) := by
    intro v
    rw [hrun, runOn, runOn, runCalls_append]
  refine ⟨h'.generation.trans h.generation, fun v => ?_, fun v hw => ?_, fun v hw => ?_,
    fun v j => ?_⟩
  · rw [happend, h'.deps]
  · have h1 := h.arrived_le v hw
    have h2 := h'.arrived_le v hw
    rw [happend, List.length_append]
    omega
  · rw [happend, List.length_append]
    intro hlt
    have h1 := h.arrived_eq v hw (by omega)
    have h2 := h'.arrived_eq v hw (by omega)
    omega
  · rw [happend, h.sent_iff, h'.sent_iff]
    exact (sends_append (c.arrived_lt s v) (h.arrived_le v) (h.arrived_eq v) j).symm

/-! ## One edge -/

theorem runCalls_fanout (L : SlotLayout) (v : ℕ) (cs : List DepCall) (s : LazySlot) :
    (runCalls (LazySlot.decrease L v) cs s).2.fanoutBulkArrived = s.fanoutBulkArrived := by
  induction cs generalizing s with
  | nil => rfl
  | cons call cs ih =>
    rw [runCalls_cons, ih]
    unfold LazySlot.decrease
    split <;> rfl

theorem arrived_of_fields {s s' : LazySlot} (hgen : s'.generation = s.generation)
    (hfan : s'.fanoutBulkArrived = s.fanoutBulkArrived) (v : ℕ) : c.arrived s' v = c.arrived s v := by
  simp only [arrived, LazySlot.view, LazySlot.slotGen, hgen, hfan]

theorem arrived_fanoutBulkIncrement (s : LazySlot) (v n w : ℕ) :
    c.arrived (s.fanoutBulkIncrement v n).2 w =
      if w = v then min (c.arrived s v + n % 2 ^ 32) (2 ^ 32 - 1) else c.arrived s w := by
  simp only [LazySlot.fanoutBulkIncrement, arrived, LazySlot.view_setFanout, EagerSlot.setFanout]
  by_cases hw : w = v
  · subst hw
    rw [if_pos rfl, Function.update_self, saturatingAdd_toNat, asU32_toNat]
    rfl
  · rw [if_neg hw, Function.update_of_ne hw]

theorem dispatches_arriveFanout (ni : NodeInfo) (e : SuccEdge) (ready : List ℕ) (s : LazySlot)
    (marked : List (ℕ × ℕ)) (σ v j : ℕ) :
    (Trace.mk marked (arriveFanout cfg ni e ready s).1).Dispatches σ v j ↔
      σ = ni.slot ∧ v = e.succId ∧
        e.succFactor.toNat ≤ c.arrived s e.succId + ready.length ∧ j < e.succFactor.toNat := by
  have hold : (s.fanoutBulkIncrement e.succId ready.length).1 =
      c.arrived s e.succId + ready.length := rfl
  simp only [arriveFanout, hold]
  split
  · next hfull =>
    have hcover := fanoutTasks_instances e.succId ni.slot e.succFactor.toNat ni.index cfg.workers
      s.slotGen
    unfold fanoutTasks at hcover ⊢
    rw [dispatches_chunkTasks, hcover, List.mem_range]
    simp [hfull]
  · next hfull =>
    constructor
    · intro ⟨task, htask, _⟩
      cases htask
    · intro h
      exact absurd h.2.2.1 hfull

/-- What the calls on one node leave, before any dispatch. -/
theorem decrementEdge_effect {e : SuccEdge} (he : e.succId < c.graph.nodes.length) (i n : ℕ)
    (s : LazySlot) :
    (c.decrementEdge e i n s).1 = (c.runOn e.succId (e.calls i n) s).1 ∧
      (c.decrementEdge e i n s).2.generation = s.generation ∧
      (∀ v, c.deps (c.decrementEdge e i n s).2 v = (c.runOn v (callsTo e (e.calls i n) v) s).2) ∧
      ∀ v, c.arrived (c.decrementEdge e i n s).2 v = c.arrived s v := by
  obtain ⟨hready, hgen, hdeps⟩ := runCalls_deps he (e.calls i n) s
  refine ⟨hready, hgen, fun v => (hdeps v).trans ?_, fun v => ?_⟩
  · unfold callsTo
    by_cases hv : v = e.succId
    · subst hv
      rw [if_pos rfl, if_pos rfl]
    · rw [if_neg hv, if_neg hv]
      rfl
  · exact arrived_of_fields hgen (runCalls_fanout c.layout e.succId (e.calls i n) s) v

/-- An edge changes one node, so its effect is told by what came back for that node. -/
theorem edge_effect {e : SuccEdge} {cs : List DepCall} {s s' : LazySlot} {sent : ℕ → ℕ → Prop}
    (hgen : s'.generation = s.generation)
    (hdeps : ∀ v, c.deps s' v = (c.runOn v (callsTo e cs v) s).2)
    (harrived : ∀ v, c.goesOutWhole cfg v = true → c.arrived s' v =
      if v = e.succId then
        min (c.arrived s v + (c.runOn v cs s).1.length % 2 ^ 32) (2 ^ 32 - 1)
      else c.arrived s v)
    (hsent : ∀ v j, sent v j ↔ v = e.succId ∧
      c.Sends cfg e.succId (c.arrived s e.succId) (c.runOn e.succId cs s).1 j) :
    c.SlotEffect cfg (callsTo e cs) s s' sent := by
  have hnone : ∀ v, ¬ v = e.succId → (c.runOn v (callsTo e cs v) s).1 = [] := by
    intro v hv
    rw [callsTo, if_neg hv]
    rfl
  have hself : ∀ v, v = e.succId → callsTo e cs v = cs := fun v hv => if_pos hv
  refine ⟨hgen, hdeps, fun v hw => ?_, fun v hw hlt => ?_, fun v j => ?_⟩
  · rw [harrived v hw]
    by_cases hv : v = e.succId
    · rw [if_pos hv, hself v hv]
      have := Nat.mod_le (c.runOn v cs s).1.length (2 ^ 32)
      omega
    · rw [if_neg hv]
      omega
  · rw [harrived v hw]
    by_cases hv : v = e.succId
    · rw [hself v hv] at hlt ⊢
      rw [if_pos hv, Nat.mod_eq_of_lt (by omega)]
      omega
    · rw [if_neg hv, hnone v hv, List.length_nil, Nat.add_zero]
  · rw [hsent]
    by_cases hv : v = e.succId
    · subst hv
      rw [hself _ rfl]
      simp
    · rw [hnone v hv]
      unfold Sends
      split <;> simp [hv]

variable (cfg) in
theorem batchEdge_effect (eval : NodeInfo → Bool) (ni : NodeInfo) {p v₀ : ℕ}
    (hv₀ : v₀ < c.graph.nodes.length) (hcond : c.isCondition v₀ = false) (s : SlotState) :
    c.SlotEffect cfg (callsTo (c.edge p v₀) (batchCalls ni.index ni.bulkCount (c.edge p v₀))) s.cells
        (c.batchEdge cfg eval ni (c.edge p v₀) s).2.cells
        (fun v j => (c.batchEdge cfg eval ni (c.edge p v₀) s).1.Dispatches ni.slot v j) ∧
      (∀ σ v j, (c.batchEdge cfg eval ni (c.edge p v₀) s).1.Dispatches σ v j → σ = ni.slot) := by
  by_cases hpass : (c.edge p v₀).passesFilter ni.index = true
  · obtain ⟨hready, hgen, hdeps, harr⟩ := decrementEdge_effect (c := c) (e := c.edge p v₀) hv₀
      ni.index ni.bulkCount s.cells
    rw [edge_succId] at hready
    simp only [batchEdge, batchCalls, hpass, edge_hasCondition, hcond, Bool.not_true,
      Bool.false_eq_true, if_false, Bool.false_and, Bool.not_false, Bool.true_and, if_true,
      fanoutBulkEligible_edge]
    by_cases hwhole : (c.goesOutWhole cfg v₀ && !(c.decrementEdge (c.edge p v₀) ni.index
        ni.bulkCount s.cells).1.isEmpty) = true
    · simp only [if_pos hwhole]
      rw [Bool.and_eq_true] at hwhole
      obtain ⟨hw, hne⟩ := hwhole
      have hpos : 0 < (c.runOn v₀ ((c.edge p v₀).calls ni.index ni.bulkCount) s.cells).1.length := by
        rw [← hready]
        simpa [List.length_pos_iff] using hne
      refine ⟨edge_effect hgen hdeps (fun v _ => ?_) (fun v j => ?_), fun σ v j h => ?_⟩
      · rw [arriveFanout, arrived_fanoutBulkIncrement, hready, harr, harr, edge_succId]
        by_cases hv : v = v₀
        · rw [if_pos hv, if_pos hv, hv]
        · rw [if_neg hv, if_neg hv]
      · rw [dispatches_arriveFanout (c := c), harr, hready, Sends, edge_succId, if_pos hw]
        simp only [edge_succFactor, edgeFactor, true_and]
        constructor
        · rintro ⟨hv, h⟩
          exact ⟨hv, hpos, h⟩
        · rintro ⟨hv, -, h⟩
          exact ⟨hv, h⟩
      · exact ((dispatches_arriveFanout (c := c) ni _ _ _ _ σ v j).mp h).1
    · simp only [if_neg hwhole]
      refine ⟨edge_effect hgen hdeps (fun v hw => ?_) (fun v j => ?_), fun σ v j h => ?_⟩
      · rw [harr, edge_succId]
        by_cases hv : v = v₀
        · subst hv
          rw [hw, Bool.true_and, Bool.not_eq_true', Bool.not_eq_false, List.isEmpty_iff,
            hready] at hwhole
          have hlt := c.arrived_lt s.cells v
          rw [if_pos rfl, hwhole, List.length_nil, Nat.zero_mod]
          omega
        · rw [if_neg hv]
      · rw [dispatches_singles, hready, Sends, edge_succId]
        by_cases hw : c.goesOutWhole cfg v₀ = true
        · rw [hw, Bool.true_and, Bool.not_eq_true', Bool.not_eq_false, List.isEmpty_iff,
            hready] at hwhole
          simp [hwhole, hw]
        · simp [hw]
      · exact (dispatches_singles.mp h).1
  · have hfail : (c.edge p v₀).passesFilter ni.index = false := Bool.eq_false_iff.mpr hpass
    simp only [batchEdge, batchCalls, hfail, Bool.not_false, if_true, Bool.false_eq_true, if_false]
    refine ⟨(SlotEffect.refl s.cells).congr (fun v => ?_) fun v j => ?_, fun σ v j h => ?_⟩
    · unfold callsTo
      split <;> rfl
    · exact ⟨False.elim, fun h => Trace.not_dispatches_empty _ _ _ h⟩
    · exact absurd h (Trace.not_dispatches_empty _ _ _)

/-! ## One entry -/

variable (cfg) in
theorem batchWalk_effect (eval : NodeInfo → Bool) (ni : NodeInfo) (p : ℕ) (vs : List ℕ)
    (hvs : ∀ v ∈ vs, v < c.graph.nodes.length ∧ c.isCondition v = false) (s : SlotState) :
    c.SlotEffect cfg (callsOver (batchCalls ni.index ni.bulkCount) (vs.map (c.edge p))) s.cells
        (c.batchWalk cfg eval ni (vs.map (c.edge p)) s).2.cells
        (fun v j => (c.batchWalk cfg eval ni (vs.map (c.edge p)) s).1.Dispatches ni.slot v j) ∧
      (∀ σ v j, (c.batchWalk cfg eval ni (vs.map (c.edge p)) s).1.Dispatches σ v j → σ = ni.slot) := by
  induction vs generalizing s with
  | nil =>
    refine ⟨(SlotEffect.refl s.cells).congr (fun v => rfl) fun v j => ?_, fun σ v j h => ?_⟩
    · exact ⟨False.elim, fun h => Trace.not_dispatches_empty _ _ _ h⟩
    · exact absurd h (Trace.not_dispatches_empty _ _ _)
  | cons v₀ vs ih =>
    obtain ⟨hlt, hcond⟩ := hvs v₀ List.mem_cons_self
    obtain ⟨h1, hslot1⟩ := batchEdge_effect cfg eval ni (p := p) hlt hcond s
    obtain ⟨h2, hslot2⟩ := ih (fun v hv => hvs v (List.mem_cons_of_mem _ hv))
      (c.batchEdge cfg eval ni (c.edge p v₀) s).2
    simp only [List.map_cons, batchWalk]
    refine ⟨(h1.append h2).congr (fun v => ?_) fun v j => ?_, fun σ v j h => ?_⟩
    · rw [callsOver_cons]
    · rw [Trace.dispatches_append]
    · rw [Trace.dispatches_append] at h
      exact h.elim (hslot1 σ v j) (hslot2 σ v j)

/-! ## A whole batch -/

variable {V : Type}

/-- What the entries of `batch` in slot `σ` do along the edges of `p`. -/
def slotCalls (c : Compiled) (p : ℕ) (batch : List (NodeInfo × Option V)) (σ v : ℕ) :
    List DepCall :=
  (batch.filter (·.1.slot = σ)).flatMap fun entry =>
    callsOver (batchCalls entry.1.index entry.1.bulkCount) (c.edgesFor p) v

/-- How many instances the entries of `batch` complete in slot `σ`. -/
def slotTotal (batch : List (NodeInfo × Option V)) (σ : ℕ) : ℕ :=
  ((batch.filter (·.1.slot = σ)).map (·.1.bulkCount)).sum

/-- Completions of `p` lower the counter of its kind by `n`. -/
structure Retires (c : Compiled) (p n : ℕ) (s s' : SlotState) : Prop where
  pendingTasks : s'.pendingTasks = s.pendingTasks - UInt64.ofNat (if c.isCondition p then 0 else n)
  pendingCondTasks : s'.pendingCondTasks =
    s.pendingCondTasks - UInt64.ofNat (if c.isCondition p then n else 0)

theorem Retires.zero (p : ℕ) (s : SlotState) : c.Retires p 0 s s := by
  refine ⟨?_, ?_⟩
  · simp
  · simp

theorem Retires.add {p m n : ℕ} {s s' s'' : SlotState} (h : c.Retires p m s s')
    (h' : c.Retires p n s' s'') : c.Retires p (m + n) s s'' := by
  refine ⟨?_, ?_⟩
  · rw [h'.pendingTasks, h.pendingTasks, ← ofNat_add_sub]
    split <;> rfl
  · rw [h'.pendingCondTasks, h.pendingCondTasks, ← ofNat_add_sub]
    split <;> rfl

theorem retire_retires (ni : NodeInfo) (s : SlotState) :
    c.Retires ni.id ni.bulkCount s (c.retire ni s) := by
  unfold retire
  split
  · next h => exact ⟨by simp [h], by simp [h]⟩
  · next h => exact ⟨by simp [h], by simp [h]⟩

theorem setResult_slots (entry : NodeInfo × Option V) (s : BatchState V) :
    (entry.2.elim s (s.setResult entry.1)).slots = s.slots := by
  cases entry.2 <;> rfl

variable (cfg) in
theorem processEntry_effect (eval : NodeInfo → Bool) {p : ℕ}
    (hvs : ∀ v ∈ c.graph.successors p, v < c.graph.nodes.length ∧ c.isCondition v = false)
    {entry : NodeInfo × Option V} (hid : entry.1.id = p) (s : BatchState V) (σ : ℕ) :
    c.SlotEffect cfg (slotCalls c p [entry] σ) (s.slots σ).cells
        ((c.processEntry cfg eval entry s).2.slots σ).cells
        (fun v j => (c.processEntry cfg eval entry s).1.Dispatches σ v j) ∧
      c.Retires p (slotTotal [entry] σ) (s.slots σ) ((c.processEntry cfg eval entry s).2.slots σ) := by
  obtain ⟨hwalk, hslot⟩ := batchWalk_effect cfg eval entry.1 p (c.graph.successors p) hvs
    (c.retire entry.1 (s.slots entry.1.slot))
  obtain ⟨-, hpending, hpendingCond⟩ := batchWalk_walks cfg eval entry.1
    ((c.graph.successors p).map (c.edge p))
    (fun e he => by
      obtain ⟨v, hv, heq⟩ := List.mem_map.mp he
      subst heq
      exact (hvs v hv).1)
    (fun e he => by
      obtain ⟨v, hv, heq⟩ := List.mem_map.mp he
      subst heq
      exact (hvs v hv).2)
    (c.retire entry.1 (s.slots entry.1.slot))
  have hretire := retire_retires (c := c) entry.1 (s.slots entry.1.slot)
  have hcells : (c.retire entry.1 (s.slots entry.1.slot)).cells = (s.slots entry.1.slot).cells := by
    unfold retire
    split <;> rfl
  simp only [processEntry, batchEntry, setResult_slots, BatchState.setSlot, hid, edgesFor]
  by_cases hσ : σ = entry.1.slot
  · subst hσ
    rw [Function.update_self]
    rw [hcells] at hwalk
    refine ⟨hwalk.congr (fun v => ?_) fun v j => Iff.rfl, ?_⟩
    · simp [slotCalls, edgesFor]
    · have htotal : slotTotal [entry] entry.1.slot = entry.1.bulkCount := by simp [slotTotal]
      rw [htotal]
      rw [hid] at hretire
      exact ⟨hpending.trans hretire.pendingTasks, hpendingCond.trans hretire.pendingCondTasks⟩
  · rw [Function.update_of_ne hσ]
    have hne : ¬ entry.1.slot = σ := fun h => hσ h.symm
    refine ⟨(SlotEffect.refl _).congr (fun v => ?_) fun v j => ?_, ?_⟩
    · simp [slotCalls, hne]
    · exact ⟨False.elim, fun h => hσ (hslot σ v j h)⟩
    · have htotal : slotTotal [entry] σ = 0 := by simp [slotTotal, hne]
      rw [htotal]
      exact Retires.zero p _

theorem slotCalls_cons (p : ℕ) (entry : NodeInfo × Option V) (batch : List (NodeInfo × Option V))
    (σ v : ℕ) :
    slotCalls c p (entry :: batch) σ v = slotCalls c p [entry] σ v ++ slotCalls c p batch σ v := by
  by_cases hσ : entry.1.slot = σ <;> simp [slotCalls, hσ]

theorem slotTotal_cons (entry : NodeInfo × Option V) (batch : List (NodeInfo × Option V)) (σ : ℕ) :
    slotTotal (entry :: batch) σ = slotTotal [entry] σ + slotTotal batch σ := by
  by_cases hσ : entry.1.slot = σ <;> simp [slotTotal, hσ]

variable (cfg) in
theorem processBatch_effect (eval : NodeInfo → Bool) {p : ℕ}
    (hvs : ∀ v ∈ c.graph.successors p, v < c.graph.nodes.length ∧ c.isCondition v = false)
    (batch : List (NodeInfo × Option V)) (hid : ∀ entry ∈ batch, entry.1.id = p)
    (s : BatchState V) (σ : ℕ) :
    c.SlotEffect cfg (slotCalls c p batch σ) (s.slots σ).cells
        ((c.processBatchInner cfg eval batch s).2.slots σ).cells
        (fun v j => (c.processBatchInner cfg eval batch s).1.Dispatches σ v j) ∧
      c.Retires p (slotTotal batch σ) (s.slots σ)
        ((c.processBatchInner cfg eval batch s).2.slots σ) := by
  induction batch generalizing s with
  | nil =>
    refine ⟨(SlotEffect.refl _).congr (fun v => rfl) fun v j => ?_, ?_⟩
    · exact ⟨False.elim, fun h => Trace.not_dispatches_empty _ _ _ h⟩
    · exact Retires.zero p _
  | cons entry batch ih =>
    obtain ⟨h1, hp1⟩ := processEntry_effect cfg eval hvs
      (hid entry List.mem_cons_self) s σ
    obtain ⟨h2, hp2⟩ := ih (fun e he => hid e (List.mem_cons_of_mem _ he))
      (c.processEntry cfg eval entry s).2
    simp only [processBatchInner]
    refine ⟨(h1.append h2).congr (fun v => ?_) fun v j => ?_, ?_⟩
    · rw [← slotCalls_cons]
    · rw [Trace.dispatches_append]
    · rw [slotTotal_cons entry batch]
      exact hp1.add hp2

/-! ## Stored results -/

/-- `results` after the payloads of `batch`, each cell of which occurs once, were stored. -/
structure StoredBy (batch : List (NodeInfo × Option V)) (before after : ℕ → ℕ → ℕ → Option V) :
    Prop where
  stored : ∀ entry ∈ batch, ∀ w, entry.2 = some w →
    after entry.1.id entry.1.slot entry.1.index = some w
  kept : ∀ id σ i, (∀ entry ∈ batch, entry.1.id = id → entry.1.slot = σ → entry.1.index = i →
    entry.2 = none) → after id σ i = before id σ i

theorem StoredBy.unique {batch batch' : List (NodeInfo × Option V)}
    {before after after' : ℕ → ℕ → ℕ → Option V} (h : StoredBy batch before after)
    (h' : StoredBy batch' before after') (hmem : ∀ entry, entry ∈ batch ↔ entry ∈ batch') :
    after = after' := by
  funext id σ i
  by_cases hnone : ∀ entry ∈ batch, entry.1.id = id → entry.1.slot = σ → entry.1.index = i →
      entry.2 = none
  · rw [h.kept id σ i hnone, h'.kept id σ i fun entry he => hnone entry ((hmem entry).mpr he)]
  · push Not at hnone
    obtain ⟨entry, he, hid, hslot, hindex, hsome⟩ := hnone
    obtain ⟨w, hw⟩ := Option.ne_none_iff_exists'.mp hsome
    subst hid hslot hindex
    rw [h.stored entry he w hw, h'.stored entry ((hmem entry).mp he) w hw]

/-- No two entries of a batch are for the same instance. -/
def DistinctCells (batch : List (NodeInfo × Option V)) : Prop :=
  (batch.map fun entry => (entry.1.id, entry.1.slot, entry.1.index)).Nodup

/-- Store every payload of a list of entries. -/
def storeAll : List (NodeInfo × Option V) → BatchState V → BatchState V
  | [], s => s
  | entry :: batch, s => storeAll batch (entry.2.elim s (s.setResult entry.1))

theorem storeAll_slots (batch : List (NodeInfo × Option V)) (s : BatchState V) :
    (storeAll batch s).slots = s.slots := by
  induction batch generalizing s with
  | nil => rfl
  | cons entry batch ih => rw [storeAll, ih, setResult_slots]

theorem setResult_stored (entry : NodeInfo × Option V) (s : BatchState V) :
    StoredBy [entry] s.results (entry.2.elim s (s.setResult entry.1)).results := by
  refine ⟨fun e he w hw => ?_, fun id σ i h => ?_⟩
  · rw [List.mem_singleton.mp he] at hw ⊢
    simp [hw, BatchState.setResult]
  · cases hw : entry.2 with
    | none => rfl
    | some w =>
      have hne : ¬ (id = entry.1.id ∧ σ = entry.1.slot ∧ i = entry.1.index) := by
        intro ⟨hid, hslot, hindex⟩
        have := h entry (List.mem_singleton_self _) hid.symm hslot.symm hindex.symm
        rw [hw] at this
        cases this
      simp [BatchState.setResult, hne]

theorem StoredBy.append {xs ys : List (NodeInfo × Option V)} {a b d : ℕ → ℕ → ℕ → Option V}
    (hx : StoredBy xs a b) (hy : StoredBy ys b d) (hdist : DistinctCells (xs ++ ys)) :
    StoredBy (xs ++ ys) a d := by
  unfold DistinctCells at hdist
  rw [List.map_append, List.nodup_append] at hdist
  refine ⟨fun e he w hw => ?_, fun id σ i h => ?_⟩
  · rcases List.mem_append.mp he with hex | hey
    · rw [hy.kept]
      · exact hx.stored e hex w hw
      · intro e' he' hid hslot hindex
        have hkey := hdist.2.2 _ (List.mem_map_of_mem hex) _ (List.mem_map_of_mem he')
        rw [hid, hslot, hindex] at hkey
        exact absurd rfl hkey
    · exact hy.stored e hey w hw
  · rw [hy.kept id σ i fun e he => h e (List.mem_append_right _ he),
      hx.kept id σ i fun e he => h e (List.mem_append_left _ he)]

theorem storeAll_stored (batch : List (NodeInfo × Option V)) (hdist : DistinctCells batch)
    (s : BatchState V) : StoredBy batch s.results (storeAll batch s).results := by
  induction batch generalizing s with
  | nil => exact ⟨by simp, fun _ _ _ _ => rfl⟩
  | cons entry batch ih =>
    have hrest : DistinctCells batch := (List.nodup_cons.mp hdist).2
    exact (setResult_stored entry s).append (ih hrest _) hdist

/-- A batch stores what phase 1 stores for each entry. -/
theorem processBatch_results (eval : NodeInfo → Bool) (batch : List (NodeInfo × Option V))
    (s s' : BatchState V) (hs : s'.results = s.results) :
    (c.processBatchInner cfg eval batch s').2.results = (storeAll batch s).results := by
  induction batch generalizing s s' with
  | nil => exact hs
  | cons entry batch ih =>
    simp only [processBatchInner, storeAll]
    refine ih _ _ ?_
    simp only [processEntry, BatchState.setSlot]
    cases entry.2 with
    | none => exact hs
    | some w => simp [BatchState.setResult, hs]

end Compiled

end Tomii
