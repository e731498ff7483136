import Tomii.Runtime.FrameClaims

/-! # Pending counters and instances

A pending counter is the number of instances of the frame whose completion has not been counted. An
instance is counted once, after it has run or was discharged. -/
namespace Tomii
set_option autoImplicit false
set_option maxHeartbeats 250000

variable {nodes : List Node} {c : Compiled} {opts : Options} {threads : UInt64} {cfg : Config}
  {guarded clean : Prop} {w : World atomics Shared} {σ : Shared} {ls : List Phase} {slot : ℕ}
  {cond : Bool}

/-- The instances of the slot's frame, with or without a condition, that are not counted yet. -/
def Shared.uncounted (c : Compiled) (σ : Shared) (slot : ℕ) (cond : Bool) : List Cell :=
  (c.frameCells slot cond).filter (· ∉ σ.ledger.retired)

theorem mem_uncounted {x : Cell} : x ∈ σ.uncounted c slot cond ↔
    x ∈ c.frameCells slot cond ∧ x ∉ σ.ledger.retired := by
  simp [Shared.uncounted]

namespace Accounts

variable (h : Accounts c σ ls)

include h

theorem uncounted_length (slot : ℕ) (cond : Bool) : (σ.uncounted c slot cond).length =
    c.totalOf cond - (retiredOf c σ slot cond).length := by
  have hcounted : ((c.frameCells slot cond).filter (· ∈ σ.ledger.retired)).Perm
      (retiredOf c σ slot cond) := by
    refine (List.perm_ext_iff_of_nodup ((c.frameCells_nodup slot cond).filter _)
      (h.retired_nodup.filter _)).mpr fun x => ?_
    simp only [List.mem_filter, decide_eq_true_eq]
    constructor
    · rintro ⟨hx, hret⟩
      obtain ⟨hslot, -, hcond, -⟩ := c.mem_frameCells.mp hx
      exact ⟨hret, hslot, hcond⟩
    · rintro ⟨hret, hslot, hcond⟩
      obtain ⟨hnode, hidx⟩ := h.bounded x (h.released_of_retired hret)
      exact ⟨c.mem_frameCells.mpr ⟨hslot, hnode, hcond, hidx⟩, hret⟩
  have hsplit := List.length_eq_length_filter_add (l := c.frameCells slot cond)
    (· ∈ σ.ledger.retired)
  have hrest : ((c.frameCells slot cond).filter fun x => !decide (x ∈ σ.ledger.retired)) =
      σ.uncounted c slot cond := by
    simp [Shared.uncounted]
  rw [hcounted.length_eq, hrest, c.frameCells_length] at hsplit
  omega

/-- Instances under way are not counted yet. -/
theorem uncounted_of_outstanding {x : Cell} (hx : x ∈ outstanding σ ls) :
    x ∈ σ.uncounted c x.slot (c.isCondition x.node) := by
  obtain ⟨hnode, hidx⟩ := h.bounded x (h.released_of_outstanding hx)
  exact mem_uncounted.mpr ⟨c.mem_frameCells.mpr ⟨rfl, hnode, rfl, hidx⟩, h.not_retired hx⟩

/-- What is retired has run once or was discharged once. -/
theorem counted_once {x : Cell} (hx : x ∈ σ.ledger.retired) : σ.ledger.retired.count x = 1 ∧
    σ.ledger.executed.count x + σ.ledger.discharged.count x = 1 := by
  have hone : σ.ledger.retired.count x = 1 := List.count_eq_one_of_mem h.retired_nodup hx
  have hout : x ∉ outstanding σ ls := fun hin => h.not_retired hin hx
  have hran : (total Phase.ran ls).count x = 0 := by
    refine Multiset.count_eq_zero.mpr fun hin => hout ?_
    obtain ⟨l, hl, hxl⟩ := mem_total.mp hin
    obtain ⟨p, hp, hxp⟩ := Multiset.mem_bind.mp hxl
    exact mem_outstanding.mpr (.inl ⟨l, hl, mem_live_of_hand hp (List.mem_of_mem_take hxp)⟩)
  have hbatch : (queuedCells σ.batchQueue).count x = 0 := by
    refine Multiset.count_eq_zero.mpr fun hin => hout ?_
    exact mem_outstanding.mpr (.inr (.inr (.inr (mem_queuedCells.mp hin))))
  have hrun := congrArg (Multiset.count x) h.run
  simp only [Multiset.count_add, Multiset.coe_count, hran, hbatch, hone] at hrun
  exact ⟨hone, by omega⟩

end Accounts

namespace Inv

variable (h : Inv c cfg guarded clean σ ls) (htotals : ∀ cond, c.totalOf cond < 2 ^ 64)

include h htotals

/-- A pending counter counts the instances that are not counted yet. -/
theorem pending_toNat (slot : ℕ) (cond : Bool) :
    ((σ.slots slot).load (pendingCounter cond)).toNat = (σ.uncounted c slot cond).length := by
  rw [h.counters.load_toNat h.accounts htotals, h.accounts.uncounted_length]

/-- There is room in a counter for distinct instances under way. -/
theorem le_pending {cells : List Cell} (hnodup : cells.Nodup)
    (hcells : ∀ x ∈ cells, x ∈ outstanding σ ls ∧ x.slot = slot ∧ c.isCondition x.node = cond) :
    cells.length ≤ ((σ.slots slot).load (pendingCounter cond)).toNat := by
  rw [h.pending_toNat htotals]
  refine (hnodup.subperm fun x hx => ?_).length_le
  obtain ⟨hout, rfl, rfl⟩ := hcells x hx
  exact h.accounts.uncounted_of_outstanding hout

end Inv

/-- The completion of a task is subtracted from a counter that is large enough. -/
theorem Inv.retire_le (h : Inv c cfg guarded clean w.shared ls)
    (hfol : Machine.Follows (resolutionDiscipline c cfg guarded) (· = .idle) w.threads ls)
    (htotals : ∀ cond, c.totalOf cond < 2 ^ 64) {thread : ℕ} {t : Ticket} {byWorker : Bool}
    (hnext : w.nextAct thread = some (.retire t byWorker)) : t.info.bulkCount ≤
      ((w.shared.slots t.slot).load (pendingCounter (c.isCondition t.info.id))).toNat := by
  obtain ⟨l, hl, hpermits⟩ := hfol.phase hnext
  have hmem := List.mem_of_getElem? hl
  have hworks := Phase.works_of_cause hpermits rfl
  rw [← t.cells_length]
  refine h.le_pending htotals t.info.cells_nodup fun x hx => ?_
  obtain ⟨hslot, hnode, -⟩ := Ticket.mem_cells.mp hx
  exact ⟨mem_outstanding.mpr (.inl ⟨l, hmem, mem_live_of_hand hworks.1 hx⟩), hslot, hnode ▸ rfl⟩

/-! ## Graphs without conditions -/

/-- Only a discharge adds to the discharged instances. -/
theorem Shared.discharged_perform (choice : ℕ) (a : Act) (σ : Shared) {x : Cell}
    (hx : x ∈ (σ.perform c choice a).2.ledger.discharged) :
    x ∈ σ.ledger.discharged ∨ ∃ t task, a = .discharge t task := by
  cases a with
  | discharge t task => exact .inr ⟨t, task, rfl⟩
  | storePendingTasks s => exact .inl (List.mem_of_mem_filter hx)
  | storePendingCondTasks s => exact .inl (List.mem_of_mem_filter hx)
  | enqueue cause task =>
    cases cause <;> exact .inl hx
  | trySend t gen node idx =>
    simp only [perform, trySend] at hx
    split at hx <;> exact .inl hx
  | arriveFanout t gen node ready =>
    simp only [perform, arriveFanout, Ledger.arrive, setLedger] at hx
    split at hx <;> exact .inl hx
  | _ => exact .inl hx

theorem BuiltFrom.isCondition_eq_false (h : BuiltFrom nodes c)
    (hplain : ∀ v ∈ nodes, v.carriesCondition = false) (n : ℕ) : c.isCondition n = false := by
  have hmem : n ∉ c.graph.conditionNodes := by
    intro hn
    obtain ⟨hlt, hcond⟩ := (h.rows.conditions n).mp hn
    rw [hplain _ (h.nodes_eq ▸ List.getElem_mem hlt)] at hcond
    cases hcond
  simp [Compiled.isCondition, hmem]

section Plain

variable (hfits : Fits nodes c) (hplain : ∀ n, c.isCondition n = false)
  (hreach : (runtimeMachine c opts).Reaches (fun σ _ a => SourcesOnce c σ a)
    (World.initial c threads) w)

include hfits hplain hreach

/-- Without conditions the steps are orderly, and nothing is discharged. -/
theorem plain_reached : ∃ ls, Inv c opts.config False False w.shared ls ∧
    Machine.Follows (resolutionDiscipline c opts.config False) (· = .idle) w.threads ls ∧
      w.shared.ledger.discharged = [] := by
  have horderly : (runtimeMachine c opts).Reaches (Orderly c False False) (World.initial c threads) w := by
    refine hreach.mono fun σ choice a hsources => ⟨hsources, ?_, False.elim, False.elim⟩
    cases a with
    | fetchDec t gen node g count =>
      intro hcond
      rw [hplain] at hcond
      cases hcond
    | trySend t gen node idx =>
      intro hcond
      rw [hplain] at hcond
      cases hcond
    | _ => trivial
  have hmaintains := (runtime_maintains hfits.runnable opts False False).and
    (fun σ => σ.ledger.discharged = []) ?_
  · obtain ⟨ls, ⟨hinv, hnone⟩, hfol⟩ := hmaintains.reached horderly
      ⟨Inv.initial c opts.config False False threads.toNat_lt, rfl⟩
      (Machine.follows_idle (· = Phase.idle) rfl threads.toNat)
    exact ⟨ls, hinv, hfol, hnone⟩
  · intro σ pre post l choice a hinv hpermits hok hnone
    refine List.eq_nil_iff_forall_not_mem.mpr fun x hx => ?_
    rcases Shared.discharged_perform choice a σ hx with hold | ⟨t, task, rfl⟩
    · rw [hnone] at hold
      cases hold
    · have hworks := Phase.works_of_cause hpermits rfl
      have hcond := hworks.2.2.2.1
      rw [hplain] at hcond
      cases hcond

end Plain

/-- In a graph without conditions whose sources enter once, after the bump of an activation,
`pending_tasks` counts the instances of the frame that are not completed. It never underflows, and at
zero every instance of every node has run exactly once. -/
theorem tasks_accounted (hfits : Fits nodes c) (hplain : ∀ v ∈ nodes, v.carriesCondition = false)
    (hreach : (runtimeMachine c opts).Reaches (fun σ _ a => SourcesOnce c σ a)
      (World.initial c threads) w) (slot : ℕ) :
    (w.shared.slots slot).pendingTasks.toNat = (w.shared.uncounted c slot false).length ∧
      (∀ thread t byWorker, w.nextAct thread = some (.retire t byWorker) → t.slot = slot →
        t.info.bulkCount ≤ (w.shared.slots slot).pendingTasks.toNat) ∧
      ((w.shared.slots slot).pendingTasks = 0 → ∀ n < nodes.length, ∀ i < c.factor n,
        w.shared.ledger.executed.count ⟨slot, n, i⟩ = 1) := by
  have hcond := hfits.built.isCondition_eq_false hplain
  obtain ⟨ls, hinv, hfol, hnone⟩ := plain_reached hfits hcond hreach
  refine ⟨hinv.pending_toNat hfits.totals slot false, ?_, fun hzero n hn i hi => ?_⟩
  · rintro thread t byWorker hnext rfl
    have hle := hinv.retire_le hfol hfits.totals hnext
    rwa [hcond] at hle
  · have hall := (hinv.counters.zero_iff hinv.accounts hfits.totals slot false).mp hzero
    have hret := hall n (hfits.built.nodes_eq ▸ hn) (hcond n) i hi
    have honce := (hinv.accounts.counted_once hret).2
    rwa [hnone, List.count_nil, add_zero] at honce

/-- Four packets; every two of them let an instance run, which reads none of their results. -/
def packetPairs : List Node :=
  [⟨true, 0, [], 4, none, false⟩,
    ⟨false, 1, [⟨.dep, false, some ⟨0, [0, 1, 2, 3], none⟩⟩], 2, none, false⟩]

def packetGraph : Compiled := .ofNodes packetPairs

theorem fits_packetPairs : Fits packetPairs packetGraph where
  built := builtFrom_ofNodes (by decide) (by decide)
  network := by decide
  fanout := by decide +kernel
  totals := by decide +kernel

/-- A batch of two packets goes through resolution, and a worker runs the instance it releases. -/
def pairArrives (first steps : ℕ) : List (Move Job) :=
  .begin 1 (.packets [(0, first), (0, first + 1)]) :: stepsOf 1 steps ++ .begin 1 .work :: stepsOf 1 10

theorem tasks_accounted_packetPairs : ∃ w : World atomics Shared,
    (runtimeMachine packetGraph twoWorkers).fireAllowed (fun σ _ a => SourcesOnce packetGraph σ a)
        (.begin 0 (.activate 0) :: stepsOf 0 3 ++ pairArrives 0 12 ++ pairArrives 2 13)
          (World.initial packetGraph 2) = some w ∧
      (w.shared.slots 0).pendingTasks = 0 ∧ w.shared.ledger.executed.count ⟨0, 1, 1⟩ = 1 := by
  have hrun : ((runtimeMachine packetGraph twoWorkers).fireAllowed
      (fun σ _ a => SourcesOnce packetGraph σ a)
        (.begin 0 (.activate 0) :: stepsOf 0 3 ++ pairArrives 0 12 ++ pairArrives 2 13)
          (World.initial packetGraph 2)).any (fun w => (w.shared.slots 0).pendingTasks = 0) = true := by
    decide +kernel
  obtain ⟨w, hw, hdone⟩ := (Option.any_eq_true _ _).mp hrun
  have hzero : (w.shared.slots 0).pendingTasks = 0 := of_decide_eq_true hdone
  exact ⟨w, hw, hzero, (tasks_accounted fits_packetPairs (by decide)
    (Machine.reaches_of_fireAllowed hw) 0).2.2 hzero 1 (by decide) 1 (by decide)⟩

/-! ## A bump after the first packets -/

/-- `SourcesOnce` for the tasks and packets, whenever the bump of an activation comes. -/
def EntersOnce (c : Compiled) (σ : Shared) : Act → Prop
  | .bumpSlotGeneration _ false => True
  | a => SourcesOnce c σ a

instance (c : Compiled) (σ : Shared) : (a : Act) → Decidable (EntersOnce c σ a) := by
  intro a
  induction a using Act.casesOn with
  | enqueue cause task => exact inferInstanceAs (Decidable (SourcesOnce c σ (.enqueue cause task)))
  | deliver ni => exact inferInstanceAs (Decidable (SourcesOnce c σ (.deliver ni)))
  | bumpSlotGeneration slot reset => induction reset using Bool.casesOn <;> exact .isTrue trivial
  | _ => exact .isTrue trivial

/-- The slot is active before its generation is bumped. Two packets come before the bump, which makes
the dependency counter start over, and two after it. -/
def bumpedBetween : List (Move Job) :=
  .begin 0 (.activate 0) :: stepsOf 0 1 ++ pairArrives 0 12 ++ stepsOf 0 2 ++ pairArrives 2 12

/-- All packets were delivered once, and `pending_tasks` is at zero, but one instance never ran. -/
theorem frame_complete_without_instance :
    ¬ ∀ (nodes : List Node) (c : Compiled) (opts : Options) (threads : UInt64)
        (w : World atomics Shared) (slot : ℕ), Fits nodes c →
      (∀ v ∈ nodes, v.carriesCondition = false) →
      (runtimeMachine c opts).Reaches (fun σ _ a => EntersOnce c σ a) (World.initial c threads) w →
        (w.shared.slots slot).pendingTasks = 0 → ∀ n < nodes.length, ∀ i < c.factor n,
          w.shared.ledger.executed.count ⟨slot, n, i⟩ = 1 := by
  intro h
  have hrun : ((runtimeMachine packetGraph twoWorkers).fireAllowed
      (fun σ _ a => EntersOnce packetGraph σ a) bumpedBetween (World.initial packetGraph 2)).any
        (fun w => (w.shared.slots 0).pendingTasks = 0 ∧
          w.shared.ledger.executed.count ⟨0, 1, 1⟩ = 0) = true := by
    decide +kernel
  obtain ⟨w, hw, hstate⟩ := (Option.any_eq_true _ _).mp hrun
  obtain ⟨hzero, hnever⟩ := of_decide_eq_true hstate
  have honce := h _ _ twoWorkers 2 w 0 fits_packetPairs (by decide)
    (Machine.reaches_of_fireAllowed hw) hzero 1 (by decide) 1 (by decide)
  omega

end Tomii
