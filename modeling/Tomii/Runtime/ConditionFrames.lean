import Tomii.Runtime.FrameAccounts

/-! # Conditions within a frame

Each instance of a condition node is settled once in a frame, by its execution or by its discharge,
and it is executed only where its conditions held. -/
namespace Tomii
set_option autoImplicit false
set_option maxHeartbeats 250000

variable {nodes : List Node} {c : Compiled} {opts : Options} {threads : UInt64}
  {w : World atomics Shared}

/-! ## Settled once -/

/-- While sources enter once and no failed condition releases an instance again, `pending_cond_tasks`
counts the condition instances that are not settled. It never underflows, it is zero exactly when
all are settled, and each one settled has been executed or discharged, once. -/
theorem condition_instances_settled_once (hfits : Fits nodes c)
    (hreach : (runtimeMachine c opts).Reaches (Orderly c False False) (World.initial c threads) w)
    (slot : ℕ) :
    (w.shared.slots slot).pendingCondTasks.toNat = (w.shared.uncounted c slot true).length ∧
      ((w.shared.slots slot).pendingCondTasks = 0 ↔
        ∀ x ∈ c.frameCells slot true, x ∈ w.shared.ledger.retired) ∧
      (∀ x ∈ w.shared.ledger.retired, w.shared.ledger.retired.count x = 1 ∧
        w.shared.ledger.executed.count x + w.shared.ledger.discharged.count x = 1) ∧
      (∀ thread t byWorker, w.nextAct thread = some (.retire t byWorker) → t.slot = slot →
        c.isCondition t.info.id = true →
          t.info.bulkCount ≤ (w.shared.slots slot).pendingCondTasks.toNat) ∧
      ∀ thread t task, w.nextAct thread = some (.discharge t task) → task.slot = slot →
        1 ≤ (w.shared.slots slot).pendingCondTasks.toNat := by
  obtain ⟨ls, hinv, hfol⟩ := runtime_reached hfits.runnable hreach
  have hcount := hinv.pending_toNat hfits.totals slot true
  refine ⟨hcount, ⟨fun hzero x hx => ?_, fun hall => ?_⟩, fun x hx => hinv.accounts.counted_once hx,
    ?_, ?_⟩
  · obtain ⟨hslot, hnode, hcond, hidx⟩ := c.mem_frameCells.mp hx
    have hret := (hinv.counters.zero_iff hinv.accounts hfits.totals slot true).mp hzero
      x.node hnode hcond x.idx hidx
    rwa [← hslot] at hret
  · have hnone : w.shared.uncounted c slot true = [] :=
      List.eq_nil_iff_forall_not_mem.mpr fun x hx =>
        (mem_uncounted.mp hx).2 (hall x (mem_uncounted.mp hx).1)
    rw [hnone] at hcount
    exact UInt64.toNat_inj.mp hcount
  · rintro thread t byWorker hnext rfl hcond
    have hle := hinv.retire_le hfol hfits.totals hnext
    rwa [hcond] at hle
  · rintro thread t task hnext rfl
    obtain ⟨l, hl, hpermits⟩ := hfol.phase hnext
    obtain ⟨-, -, hone, hcond, hready⟩ := Phase.works_of_cause hpermits rfl
    have hlen : task.cells.length = 1 := by rw [task.cells_length, hone]
    rw [← hlen]
    show _ ≤ ((w.shared.slots task.slot).load (pendingCounter true)).toNat
    refine hinv.le_pending hfits.totals task.cells_nodup fun x hx => ?_
    obtain ⟨hslot, hnode, -⟩ := NodeInfo.mem_cells.mp hx
    refine ⟨mem_outstanding.mpr (.inl ⟨l, List.mem_of_getElem? hl, ?_⟩), hslot, hnode ▸ hcond⟩
    exact Multiset.mem_add.mpr (.inl (Multiset.mem_add.mpr (.inl (Multiset.mem_of_le hready hx))))

theorem condition_instances_settled_once_claimedInTime : ∃ w : World atomics Shared,
    (runtimeMachine pairedGraph twoWorkers).fireAllowed (Orderly pairedGraph False False)
        claimedInTime (World.initial pairedGraph 2) = some w ∧
      (w.shared.slots 0).pendingCondTasks = 0 ∧
        ∀ x ∈ pairedGraph.frameCells 0 true, x ∈ w.shared.ledger.retired := by
  have hrun : ((runtimeMachine pairedGraph twoWorkers).fireAllowed (Orderly pairedGraph False False)
      claimedInTime (World.initial pairedGraph 2)).any
        (fun w => (w.shared.slots 0).pendingCondTasks = 0) = true := by
    decide +kernel
  obtain ⟨w, hw, hstate⟩ := (Option.any_eq_true _ _).mp hrun
  have hzero : (w.shared.slots 0).pendingCondTasks = 0 := of_decide_eq_true hstate
  exact ⟨w, hw, hzero, ((condition_instances_settled_once fits_pairedSources
    (Machine.reaches_of_fireAllowed hw) 0).2.1).mp hzero⟩

/-- One instance is discharged twice, the counter is at zero, and the other one is still queued. -/
theorem condition_instance_discharged_twice :
    ¬ ∀ (nodes : List Node) (c : Compiled) (opts : Options) (threads : UInt64)
        (w : World atomics Shared) (slot : ℕ), Fits nodes c →
      (runtimeMachine c opts).Reaches (fun σ _ a => SourcesOnce c σ a) (World.initial c threads) w →
        (∀ x ∈ w.shared.ledger.retired,
          w.shared.ledger.executed.count x + w.shared.ledger.discharged.count x = 1) ∧
        ((w.shared.slots slot).pendingCondTasks = 0 →
          ∀ x ∈ c.frameCells slot true, x ∈ w.shared.ledger.retired) := by
  intro h
  have hrun : ((runtimeMachine pairedGraph twoWorkers).fireAllowed
      (fun σ _ a => SourcesOnce pairedGraph σ a) dischargedTwice (World.initial pairedGraph 2)).any
        (fun w => (w.shared.slots 0).pendingCondTasks = 0 ∧ ⟨0, 2, 1⟩ ∉ w.shared.ledger.retired) =
          true := by
    decide +kernel
  obtain ⟨w, hw, hstate⟩ := (Option.any_eq_true _ _).mp hrun
  obtain ⟨hzero, hqueued⟩ := of_decide_eq_true hstate
  have hsettled := (h _ _ twoWorkers 2 w 0 fits_pairedSources
    (Machine.reaches_of_fireAllowed hw)).2 hzero
  exact hqueued (hsettled ⟨0, 2, 1⟩ (by decide +kernel))

/-! ## Executed where the conditions held -/

/-- While condition nodes are dispatched by the batch path alone, which evaluates all their
conditions, an instance of one is executed only if they all held for it in this frame. -/
theorem executed_conditions_held (hfits : Fits nodes c)
    (hreach : (runtimeMachine c opts).Reaches (Orderly c True False) (World.initial c threads) w)
    {x : Cell} (hx : x ∈ w.shared.ledger.executed) (hcond : c.isCondition x.node = true) :
    Granted c w.shared x := by
  obtain ⟨ls, hinv, -⟩ := runtime_reached hfits.runnable hreach
  exact (hinv.grants trivial).executed x hx hcond

theorem executed_conditions_held_claimedInTime : ∃ w : World atomics Shared,
    (runtimeMachine pairedGraph twoWorkers).fireAllowed (Orderly pairedGraph True False)
        claimedInTime (World.initial pairedGraph 2) = some w ∧
      ⟨0, 2, 1⟩ ∈ w.shared.ledger.executed ∧ Granted pairedGraph w.shared ⟨0, 2, 1⟩ := by
  have hrun : ((runtimeMachine pairedGraph twoWorkers).fireAllowed (Orderly pairedGraph True False)
      claimedInTime (World.initial pairedGraph 2)).any
        (fun w => ⟨0, 2, 1⟩ ∈ w.shared.ledger.executed) = true := by
    decide +kernel
  obtain ⟨w, hw, hstate⟩ := (Option.any_eq_true _ _).mp hrun
  have hx : (⟨0, 2, 1⟩ : Cell) ∈ w.shared.ledger.executed := of_decide_eq_true hstate
  exact ⟨w, hw, hx, executed_conditions_held fits_pairedSources
    (Machine.reaches_of_fireAllowed hw) hx (by decide +kernel)⟩

/-- A source that two workers run in chunks, and a node with a condition that reads it. -/
def chunkedSource : List Node :=
  [⟨false, 0, [], 4, none, false⟩,
    ⟨false, 1, [⟨.res, false, some ⟨0, [0], none⟩⟩], 4, none, true⟩]

def chunkedGraph : Compiled := .ofNodes chunkedSource

theorem fits_chunkedSource : Fits chunkedSource chunkedGraph where
  built := builtFrom_ofNodes (by decide) (by decide)
  network := by decide
  fanout := by decide +kernel
  totals := by decide +kernel

/-- The worker that runs a chunk of the source resolves its successors itself, and the next task it
takes is an instance of the condition node. -/
def resolvedByWorker : List (Move Job) :=
  .begin 0 (.restart 0) :: stepsOf 0 1 ++ .begin 0 (.spawnInitial [0]) :: stepsOf 0 4 ++
    .begin 1 .work :: stepsOf 1 19 ++ .begin 1 .work :: stepsOf 1 4

theorem condition_never_evaluated :
    ¬ ∀ (nodes : List Node) (c : Compiled) (opts : Options) (threads : UInt64)
        (w : World atomics Shared) (x : Cell), Fits nodes c →
      (runtimeMachine c opts).Reaches (fun σ _ a => SourcesOnce c σ a) (World.initial c threads) w →
        x ∈ w.shared.ledger.executed → c.isCondition x.node = true → Granted c w.shared x := by
  intro h
  have hrun : ((runtimeMachine chunkedGraph twoWorkers).fireAllowed
      (fun σ _ a => SourcesOnce chunkedGraph σ a) resolvedByWorker
        (World.initial chunkedGraph 2)).any
        (fun w => ⟨0, 1, 1⟩ ∈ w.shared.ledger.executed ∧ w.shared.ledger.granted = []) = true := by
    decide +kernel
  obtain ⟨w, hw, hstate⟩ := (Option.any_eq_true _ _).mp hrun
  obtain ⟨hx, hnever⟩ := of_decide_eq_true hstate
  have hgranted := h _ _ twoWorkers 2 w ⟨0, 1, 1⟩ fits_chunkedSource
    (Machine.reaches_of_fireAllowed hw) hx (by decide +kernel) .node (by decide +kernel)
  rw [hnever] at hgranted
  cases hgranted

end Tomii
