import Tomii.Runtime.ThreadActions

/-! # What a walk over successors brings to the thread

From a phase in which the thread serves a task, the counter calls make instances ready, a walk over
the edges makes them into tasks, and every task of the walk can be dispatched: its instances are with
the thread. -/
namespace Tomii
set_option autoImplicit false
set_option maxHeartbeats 250000

/-! ## Tasks of a walk -/

theorem chunks_nonempty {start total numChunks : ℕ} (h : numChunks ≤ total) :
    ∀ ch ∈ chunks start total numChunks, 1 ≤ ch.2 := by
  have hcounts : ∀ n ∈ chunkCounts total numChunks, 1 ≤ n := by
    intro n hn
    obtain ⟨k, hk, rfl⟩ := List.mem_map.mp hn
    have hpos : 0 < numChunks := by
      have hlt := List.mem_range.mp hk
      omega
    have hdiv := Nat.div_pos h hpos
    omega
  unfold chunks
  generalize chunkCounts total numChunks = counts at hcounts
  induction counts generalizing start with
  | nil => exact fun _ hch => (nomatch hch)
  | cons n counts ih =>
    intro ch hch
    rcases List.mem_cons.mp hch with rfl | hch
    · exact hcounts _ List.mem_cons_self
    · exact ih (fun m hm => hcounts m (List.mem_cons_of_mem _ hm)) ch hch

theorem chunks_bounded {start total numChunks : ℕ} (h : 0 < numChunks) {ch : ℕ × ℕ}
    (hch : ch ∈ chunks start total numChunks) {i : ℕ} (hi : i ∈ List.range' ch.1 ch.2) :
    start ≤ i ∧ i < start + total := by
  have hmem : i ∈ (chunks start total numChunks).flatMap fun ch => List.range' ch.1 ch.2 :=
    List.mem_flatMap.mpr ⟨ch, hch, hi⟩
  rw [chunks_cover start total numChunks h] at hmem
  simpa using hmem

/-- A task over instances of `node` in `slot`. -/
structure NodeInfo.Covers (ni : NodeInfo) (slot node : ℕ) : Prop where
  id : ni.id = node
  slot : ni.slot = slot
  nonempty : 1 ≤ ni.bulkCount

theorem pushReadyChunked_covers (ready : List ℕ) (succId slot predIndex numWorkers : ℕ)
    (coalesce : Bool) :
    ∀ ni ∈ pushReadyChunked ready succId slot predIndex numWorkers coalesce,
      ni.Covers slot succId := by
  intro ni hni
  unfold pushReadyChunked at hni
  split at hni
  · cases hni
  · simp only at hni
    split at hni
    · next hc =>
      obtain ⟨ch, hch, rfl⟩ := List.mem_map.mp hni
      exact ⟨rfl, rfl, chunks_nonempty (by omega) ch hch⟩
    · obtain ⟨idx, -, rfl⟩ := List.mem_map.mp hni
      exact ⟨rfl, rfl, le_refl 1⟩

theorem fanoutTasks_covers {succId slot factor predIndex workers : ℕ} {gen : UInt32}
    (hfactor : 0 < factor) :
    ∀ ni ∈ fanoutTasks succId slot factor predIndex workers gen, ni.Covers slot succId := by
  intro ni hni
  obtain ⟨ch, hch, rfl⟩ := List.mem_map.mp hni
  exact ⟨rfl, rfl, chunks_nonempty (by omega) ch hch⟩

/-- The instances of tasks. -/
def taskCells (tasks : List NodeInfo) : Multiset Cell := (tasks.flatMap NodeInfo.cells : List Cell)

@[simp] theorem taskCells_nil : taskCells [] = 0 := rfl

@[simp] theorem taskCells_cons (ni : NodeInfo) (tasks : List NodeInfo) :
    taskCells (ni :: tasks) = (ni.cells : Multiset Cell) + taskCells tasks := by
  simp [taskCells]

@[simp] theorem taskCells_append (xs ys : List NodeInfo) :
    taskCells (xs ++ ys) = taskCells xs + taskCells ys := by
  simp [taskCells]

/-- Tasks over one node have the cells of their instances. -/
theorem taskCells_of_covers {tasks : List NodeInfo} {slot node : ℕ}
    (h : ∀ ni ∈ tasks, ni.Covers slot node) :
    taskCells tasks =
      ((tasks.flatMap NodeInfo.instances).map (Cell.mk slot node) : Multiset Cell) := by
  induction tasks with
  | nil => rfl
  | cons ni tasks ih =>
    have hni := h ni List.mem_cons_self
    rw [taskCells_cons, ih fun m hm => h m (List.mem_cons_of_mem _ hm), List.flatMap_cons,
      List.map_append, ← Multiset.coe_add, NodeInfo.cells, hni.id, hni.slot]

namespace Phase

variable (c : Compiled) (cfg : Config) (guarded : Prop) (l : Phase)

/-- The thread comes by the instances of tasks that it is to dispatch. -/
def gain (tasks : List NodeInfo) : Phase :=
  { l with
    ready := l.ready + taskCells (tasks.filter fun ni => !c.fans cfg ni.id)
    outgoing := l.outgoing + taskCells (tasks.filter fun ni => c.fans cfg ni.id) }

/-- A task that can go out on behalf of `t`, once its instances are with the thread. -/
structure Sends (t : Ticket) (ni : NodeInfo) : Prop where
  served : t ∈ l.served
  slot : ni.slot = t.slot
  nonempty : 1 ≤ ni.bulkCount
  compute : c.isNetworkNode ni.id = false
  passed : guarded → c.isCondition ni.id = true → ∀ x ∈ ni.cells, x ∈ l.passed

variable {c cfg guarded l}

@[simp] theorem gain_nil : l.gain c cfg [] = l := by
  ext1 <;> simp [gain]

theorem gain_append (xs ys : List NodeInfo) :
    l.gain c cfg (xs ++ ys) = (l.gain c cfg xs).gain c cfg ys := by
  ext1 <;> simp [gain, add_assoc]

theorem gain_perm {xs ys : List NodeInfo} (h : xs.Perm ys) : l.gain c cfg xs = l.gain c cfg ys := by
  have hcells : ∀ p : NodeInfo → Bool, taskCells (xs.filter p) = taskCells (ys.filter p) := fun p =>
    Multiset.coe_eq_coe.mpr ((h.filter p).flatMap_right _)
  simp only [gain, hcells]

/-- The instances of a task that was gained can be spent. -/
theorem pool_gain_cons (ni : NodeInfo) (tasks : List NodeInfo) :
    (ni.cells : Multiset Cell) ≤ (l.gain c cfg (ni :: tasks)).pool c cfg ni.id := by
  unfold pool gain
  split
  · next hf =>
    simp only [List.filter_cons, hf, if_true, taskCells_cons]
    rw [add_left_comm]
    exact Multiset.le_add_right _ _
  · next hf =>
    simp only [List.filter_cons, Bool.eq_false_of_not_eq_true hf, Bool.not_false, if_true,
      taskCells_cons]
    rw [add_left_comm]
    exact Multiset.le_add_right _ _

theorem spend_gain_cons (ni : NodeInfo) (tasks : List NodeInfo) :
    (l.gain c cfg (ni :: tasks)).spend c cfg ni = l.gain c cfg tasks := by
  unfold spend gain
  split
  · next hf =>
    have hcancel := add_tsub_cancel_left (ni.cells : Multiset Cell)
      (l.outgoing + taskCells (tasks.filter fun ni => c.fans cfg ni.id))
    rw [add_left_comm] at hcancel
    ext1 <;> simp [hf, hcancel]
  · next hf =>
    have hcancel := add_tsub_cancel_left (ni.cells : Multiset Cell)
      (l.ready + taskCells (tasks.filter fun ni => !c.fans cfg ni.id))
    rw [add_left_comm] at hcancel
    ext1 <;> simp [Bool.eq_false_of_not_eq_true hf, hcancel]

/-- Tasks of a node without fanout-bulk are gained as ready instances. -/
theorem gain_ready {tasks : List NodeInfo} {slot node : ℕ}
    (h : ∀ ni ∈ tasks, ni.Covers slot node) (hfans : c.fans cfg node = false) :
    l.gain c cfg tasks = { l with ready := l.ready + taskCells tasks } := by
  have hall : ∀ ni ∈ tasks, c.fans cfg ni.id = false := fun ni hni => by rw [(h ni hni).id, hfans]
  have hkeep : tasks.filter (fun ni => !c.fans cfg ni.id) = tasks :=
    List.filter_eq_self.mpr fun ni hni => by rw [hall ni hni]; rfl
  have hnone : tasks.filter (fun ni => c.fans cfg ni.id) = [] :=
    List.filter_eq_nil_iff.mpr fun ni hni => by rw [hall ni hni]; simp
  ext1 <;> simp [gain, hkeep, hnone]

theorem gain_outgoing {tasks : List NodeInfo} {slot node : ℕ}
    (h : ∀ ni ∈ tasks, ni.Covers slot node) (hfans : c.fans cfg node = true) :
    l.gain c cfg tasks = { l with outgoing := l.outgoing + taskCells tasks } := by
  have hall : ∀ ni ∈ tasks, c.fans cfg ni.id = true := fun ni hni => by rw [(h ni hni).id, hfans]
  have hkeep : tasks.filter (fun ni => c.fans cfg ni.id) = tasks :=
    List.filter_eq_self.mpr fun ni hni => hall ni hni
  have hnone : tasks.filter (fun ni => !c.fans cfg ni.id) = [] :=
    List.filter_eq_nil_iff.mpr fun ni hni => by rw [hall ni hni]; simp
  ext1 <;> simp [gain, hkeep, hnone]

end Phase

/-! ## Counter calls -/

section Calls

variable {c : Compiled} {cfg : Config} {guarded : Prop} {l : Phase} {t : Ticket} {gen : UInt32}
  {node : ℕ}

/-- One action, from a phase in which it is permitted. -/
theorem obeys_atomic {a : Act} {post : a.Reply → Phase → Prop} (hpermits : l.permits c cfg guarded a)
    (hpost : ∀ r, l.knows c guarded a r → post r (l.next c cfg a r)) :
    (atomic a).Obeys (resolutionDiscipline c cfg guarded) post l :=
  ⟨hpermits, hpost⟩

theorem obeys_act {β : Type} {a : Act} {f : a.Reply → Thread β} {post : β → Phase → Prop}
    (hpermits : l.permits c cfg guarded a)
    (hrest : ∀ r, l.knows c guarded a r →
      (f r).Obeys (resolutionDiscipline c cfg guarded) post (l.next c cfg a r)) :
    (atomic a >>= f).Obeys (resolutionDiscipline c cfg guarded) post l :=
  ⟨hpermits, hrest⟩

theorem Phase.permits_of_works {a : Act} (hfree : l.focus = .free) (h : l.works c cfg guarded a) :
    l.permits c cfg guarded a := by
  unfold Phase.permits
  rw [hfree]
  exact h

theorem addReady_nil (slot : ℕ) : l.addReady slot node [] = l := by
  ext1 <;> simp [Phase.addReady]

theorem addReady_append (slot : ℕ) (is js : List ℕ) :
    (l.addReady slot node is).addReady slot node js = l.addReady slot node (is ++ js) := by
  ext1 <;> simp [Phase.addReady, add_assoc]

/-- The thread serves `t` under `gen`, and has nothing else to settle. -/
structure Phase.Walks (l : Phase) (t : Ticket) (gen : UInt32) : Prop where
  free : l.focus = .free
  serves : l.Serves t gen

theorem Phase.Walks.addReady (h : l.Walks t gen) (slot node : ℕ) (is : List ℕ) :
    (l.addReady slot node is).Walks t gen := ⟨h.free, h.serves⟩

variable (hnode : node ∈ c.graph.successors t.info.id)

include hnode

theorem obeys_sendEach (hw : l.Walks t gen) {is : List ℕ} (hidx : ∀ i ∈ is, i < c.factor node)
    (hflags : (c.entry node).hasBarrier = true → (c.entry node).isCondition = true) :
    (Threads.sendEach t gen node is).Obeys (resolutionDiscipline c cfg guarded)
      (fun ready l' => l' = l.addReady t.slot node ready) l := by
  induction is generalizing l with
  | nil => exact (addReady_nil t.slot).symm
  | cons i is ih =>
    refine obeys_act (Phase.permits_of_works hw.free
      ⟨hw.serves, hnode, hidx i List.mem_cons_self, hflags⟩) fun fired _ => ?_
    cases fired with
    | true =>
      refine (ih (hw.addReady t.slot node [i]) fun j hj => hidx j (List.mem_cons_of_mem _ hj)).bind ?_
      rintro rest l2 rfl
      exact addReady_append t.slot [i] rest
    | false =>
      refine (ih hw fun j hj => hidx j (List.mem_cons_of_mem _ hj)).bind ?_
      rintro rest l2 rfl
      rfl

theorem obeys_decreaseGroup (hw : l.Walks t gen) (g count : ℕ) (specific : Option ℕ) :
    (Threads.decreaseGroup t gen node (c.entry node) g count specific).Obeys
      (resolutionDiscipline c cfg guarded) (fun ready l' => l' = l.addReady t.slot node ready) l := by
  refine obeys_act (Phase.permits_of_works hw.free ⟨hw.serves, hnode⟩) ?_
  rintro ⟨oldRemaining, newRemaining⟩ -
  have hnext : l.next c cfg (.fetchDec t gen node g count) (oldRemaining, newRemaining) =
      l.addReady t.slot node (c.publishedBy node g (oldRemaining, newRemaining)) := rfl
  have hunpublished : (c.entry node).hasBarrier = false ∨ (c.entry node).isCondition = true ∨
      ¬ (0 < oldRemaining ∧ newRemaining = 0) →
        l.next c cfg (.fetchDec t gen node g count) (oldRemaining, newRemaining) = l := by
    intro hor
    rw [hnext, Compiled.publishedBy, if_neg, addReady_nil]
    rintro ⟨hbar, hcond, hpos, hdown⟩
    rcases hor with h | h | h
    · rw [hbar] at h
      cases h
    · rw [hcond] at h
      cases h
    · exact h ⟨hpos, hdown⟩
  have hrange : ∀ i ∈ (c.entry node).groupRange g, i < c.factor node := fun i hi =>
    (c.entry node).groupRange_lt_factor hi
  simp only
  split
  · next hbar =>
    split
    · next hdown =>
      split
      · next hcond =>
        rw [hunpublished (.inr (.inl hcond))]
        exact obeys_sendEach hnode hw hrange fun _ => hcond
      · next hcond =>
        rw [Prog.obeys_pure, hnext, Compiled.publishedBy, if_pos]
        exact ⟨hbar, Bool.eq_false_of_not_eq_true hcond, hdown⟩
    · next hdown =>
      rw [Prog.obeys_pure, hunpublished (.inr (.inr hdown)), addReady_nil]
  · next hbar =>
    rw [hunpublished (.inl (Bool.eq_false_of_not_eq_true hbar))]
    have hflags : (c.entry node).hasBarrier = true → (c.entry node).isCondition = true := fun h =>
      absurd h hbar
    split
    · next idx =>
      split
      · next hlt =>
        refine obeys_sendEach hnode hw (fun i hi => ?_) hflags
        rw [List.mem_singleton.mp hi]
        exact hlt
      · exact (addReady_nil t.slot).symm
    · split
      · exact obeys_sendEach hnode hw (fun i hi => hrange i (List.mem_filter.mp hi).1) hflags
      · exact (addReady_nil t.slot).symm

theorem obeys_decreaseGroups (hw : l.Walks t gen) (count : ℕ) (specific : Option ℕ) (gs : List ℕ) :
    (Threads.decreaseGroups t gen node (c.entry node) count specific gs).Obeys
      (resolutionDiscipline c cfg guarded) (fun ready l' => l' = l.addReady t.slot node ready) l := by
  induction gs generalizing l with
  | nil => exact (addReady_nil t.slot).symm
  | cons g gs ih =>
    refine (obeys_decreaseGroup hnode hw g count specific).bind ?_
    rintro ready l1 rfl
    refine (ih (hw.addReady t.slot node ready)).bind ?_
    rintro rest l2 rfl
    exact addReady_append t.slot ready rest

theorem obeys_runCalls (hw : l.Walks t gen) (calls : List DepCall) :
    (Threads.runCalls t gen node c calls).Obeys (resolutionDiscipline c cfg guarded)
      (fun ready l' => l' = l.addReady t.slot node ready) l := by
  induction calls generalizing l with
  | nil => exact (addReady_nil t.slot).symm
  | cons call calls ih =>
    have hcall : (Threads.decreaseAndGetReadyInto t gen node c call).Obeys
        (resolutionDiscipline c cfg guarded)
        (fun ready l' => l' = l.addReady t.slot node ready) l := by
      unfold Threads.decreaseAndGetReadyInto
      simp only
      split
      · split
        · split
          · exact obeys_decreaseGroups hnode hw ..
          · exact (addReady_nil t.slot).symm
        · exact obeys_decreaseGroups hnode hw ..
      · exact (addReady_nil t.slot).symm
    refine hcall.bind ?_
    rintro ready l1 rfl
    refine (ih (hw.addReady t.slot node ready)).bind ?_
    rintro rest l2 rfl
    exact addReady_append t.slot ready rest

end Calls

/-! ## Edges -/

namespace Phase

variable (c : Compiled) (cfg : Config) (guarded : Prop)

/-- From `l` the thread came by the tasks `sched`, which it can send on behalf of `t`. -/
structure Collects (l l' : Phase) (t : Ticket) (sched : List NodeInfo) : Prop where
  gained : l' = { l.gain c cfg sched with passed := l'.passed }
  kept : ∀ x ∈ l.passed, x ∈ l'.passed
  here : ∀ x ∈ l'.passed, x ∈ l.passed ∨ x.slot = t.slot
  sends : ∀ ni ∈ sched, l'.Sends c guarded t ni

variable {c cfg guarded} {l l1 l2 : Phase} {t : Ticket} {gen : UInt32}

theorem Sends.keep {ni : NodeInfo} (h : l.Sends c guarded t ni) (hserved : l1.served = l.served)
    (hpassed : ∀ x ∈ l.passed, x ∈ l1.passed) : l1.Sends c guarded t ni where
  served := hserved ▸ h.served
  slot := h.slot
  nonempty := h.nonempty
  compute := h.compute
  passed := fun hg hcond x hx => hpassed x (h.passed hg hcond x hx)

theorem Collects.served {sched : List NodeInfo} (h : l.Collects c cfg guarded l1 t sched) :
    l1.served = l.served := by
  rw [h.gained]
  rfl

theorem Collects.walks {sched : List NodeInfo} (h : l.Collects c cfg guarded l1 t sched)
    (hw : l.Walks t gen) : l1.Walks t gen := by
  rw [h.gained]
  exact ⟨hw.free, hw.serves⟩

theorem Collects.nil (l : Phase) (t : Ticket) : l.Collects c cfg guarded l t [] where
  gained := by rw [gain_nil]
  kept := fun _ hx => hx
  here := fun _ hx => .inl hx
  sends := fun _ hni => (nomatch hni)

theorem Collects.append {xs ys : List NodeInfo} (h : l.Collects c cfg guarded l1 t xs)
    (h' : l1.Collects c cfg guarded l2 t ys) : l.Collects c cfg guarded l2 t (xs ++ ys) where
  gained := by
    rw [gain_append, h'.gained, h.gained]
    rfl
  kept := fun x hx => h'.kept x (h.kept x hx)
  here := fun x hx => by
    rcases h'.here x hx with hx | hx
    · exact h.here x hx
    · exact .inr hx
  sends := fun ni hni => by
    rcases List.mem_append.mp hni with hni | hni
    · exact (h.sends ni hni).keep h'.served h'.kept
    · exact h'.sends ni hni

end Phase

section Edges

variable {c : Compiled} {cfg : Config} {guarded : Prop} {l : Phase} {t : Ticket} {gen : UInt32}
  {e : SuccEdge}

/-- A successor in the graph computes. -/
theorem Runnable.compute (hrun : Runnable c) {p node : ℕ} (hnode : node ∈ c.graph.successors p) :
    c.isNetworkNode node = false := by
  by_contra hnet
  exact (hrun.successors hnode).2 (hrun.network (Bool.eq_true_of_not_eq_false hnet)).2

/-- The edges of a node lead to its successors. -/
theorem Compiled.edge_of_mem {p : ℕ} (he : e ∈ c.edgesFor p) :
    e.succId ∈ c.graph.successors p ∧ e = c.edge p e.succId := by
  obtain ⟨s, hs, rfl⟩ := (c.mem_edgesFor).mp he
  exact ⟨hs, rfl⟩

theorem Compiled.fans_edge {p : ℕ} (he : e ∈ c.edgesFor p) :
    c.fans cfg e.succId = cfg.fanoutBulkEligible e := by
  rw [(Compiled.edge_of_mem he).2]
  rfl

theorem Compiled.hasCondition_edge {p : ℕ} (he : e ∈ c.edgesFor p) :
    e.hasCondition = c.isCondition e.succId := by
  rw [(Compiled.edge_of_mem he).2]
  rfl

theorem Compiled.not_condition_of_fans {node : ℕ} (h : c.fans cfg node = true) :
    c.isCondition node = false := by
  have hbulk := fans_isFanoutBulk h
  simp only [Compiled.isFanoutBulk, Bool.and_eq_true, Bool.not_eq_true'] at hbulk
  exact hbulk.1.1.1.2

theorem Compiled.factor_of_fans {node : ℕ} (h : c.fans cfg node = true) : 1 < c.factor node := by
  have hbulk := fans_isFanoutBulk h
  simp only [Compiled.isFanoutBulk, Bool.and_eq_true] at hbulk
  have hres := hbulk.2
  split at hres
  · split at hres
    · simp only [Bool.and_eq_true, decide_eq_true_eq] at hres
      exact hres.1.2
    · cases hres
  · cases hres

/-- Tasks over a successor can be sent, unless they wait for a condition. -/
theorem NodeInfo.Covers.sends {ni : NodeInfo} (h : ni.Covers t.slot e.succId) (hrun : Runnable c)
    (he : e ∈ c.edgesFor t.info.id) (hserved : t ∈ l.served)
    (hcond : guarded → c.isCondition e.succId = true → ∀ x ∈ ni.cells, x ∈ l.passed) :
    l.Sends c guarded t ni where
  served := hserved
  slot := h.slot
  nonempty := h.nonempty
  compute := by
    rw [h.id]
    exact hrun.compute (Compiled.edge_of_mem he).1
  passed := by
    rw [h.id]
    exact hcond

/-- Ready instances at a fanout-bulk edge: the thread whose arrival is the last has all of them. -/
theorem obeys_arriveFanout (hrun : Runnable c) (hw : l.Walks t gen) (he : e ∈ c.edgesFor t.info.id)
    {ready : List ℕ} (hfans : c.fans cfg e.succId = true) (hne : ready ≠ []) :
    (Threads.arriveFanout cfg t gen e ready).Obeys (resolutionDiscipline c cfg guarded)
      (fun sched l' => l.Collects c cfg guarded l' t sched) (l.addReady t.slot e.succId ready) := by
  obtain ⟨hnode, hedge⟩ := Compiled.edge_of_mem he
  have hready : (ready.map (Cell.mk t.slot e.succId) : Multiset Cell) ≤
      (l.addReady t.slot e.succId ready).ready := Multiset.le_add_left _ _
  refine obeys_act (Phase.permits_of_works hw.free ⟨hw.serves, hnode, hfans, hne, hready⟩) ?_
  intro arrived _
  have hfactor : e.succFactor = asU32 (c.factor e.succId) := by
    rw [hedge]
    rfl
  have hsize : (asU32 (c.factor e.succId)).toNat = c.factor e.succId := by
    rw [asU32_toNat]
    exact Nat.mod_eq_of_lt (hrun.fanout (fans_isFanoutBulk hfans))
  have hback : (l.addReady t.slot e.succId ready).ready -
      (ready.map (Cell.mk t.slot e.succId) : Multiset Cell) = l.ready := add_tsub_cancel_right _ _
  rw [Prog.obeys_pure, hfactor]
  simp only [Phase.next, hback]
  split
  · have hone := Compiled.factor_of_fans hfans
    have hcovers : ∀ ni ∈ fanoutTasks e.succId t.slot (asU32 (c.factor e.succId)).toNat
        t.info.index cfg.workers gen, ni.Covers t.slot e.succId := fanoutTasks_covers (by omega)
    refine ⟨?_, fun x hx => hx, fun x hx => .inl hx, fun ni hni => ?_⟩
    · rw [Phase.gain_outgoing hcovers hfans, taskCells_of_covers hcovers, fanoutTasks_instances,
        hsize]
      rfl
    · refine (hcovers ni hni).sends hrun he hw.serves.1 fun _ hcond => ?_
      rw [Compiled.not_condition_of_fans hfans] at hcond
      cases hcond
  · refine ⟨?_, fun x hx => hx, fun x hx => .inl hx, fun _ hni => (by cases hni)⟩
    rw [Phase.gain_nil]
    rfl

/-- Ready instances that go out as tasks of their own. -/
theorem collects_ready {ready : List ℕ} {tasks : List NodeInfo}
    (hcovers : ∀ ni ∈ tasks, ni.Covers t.slot e.succId)
    (hinstances : tasks.flatMap NodeInfo.instances = ready) (hrun : Runnable c)
    (he : e ∈ c.edgesFor t.info.id) (hserved : t ∈ l.served)
    (hcond : guarded → c.isCondition e.succId = false)
    (hfans : c.fans cfg e.succId = true → ready = []) (htasks : ready = [] → tasks = []) :
    l.Collects c cfg guarded (l.addReady t.slot e.succId ready) t tasks where
  gained := by
    cases hf : c.fans cfg e.succId with
    | true =>
      rw [htasks (hfans hf), hfans hf, Phase.gain_nil, addReady_nil]
    | false =>
      rw [Phase.gain_ready hcovers hf, taskCells_of_covers hcovers, hinstances]
      rfl
  kept := fun _ hx => hx
  here := fun _ hx => .inl hx
  sends := fun ni hni => by
    refine (hcovers ni hni).sends hrun he hserved fun hg hc => ?_
    rw [hcond hg] at hc
    cases hc

theorem obeys_workerEdge (hrun : Runnable c) (hw : l.Walks t gen) (he : e ∈ c.edgesFor t.info.id)
    (hcond : guarded → e.hasCondition = false) :
    (Threads.workerEdge c cfg t gen e).Obeys (resolutionDiscipline c cfg guarded)
      (fun sched l' => l.Collects c cfg guarded l' t sched) l := by
  refine (obeys_runCalls (Compiled.edge_of_mem he).1 hw _).bind ?_
  rintro ready l1 rfl
  split
  · next hb =>
    simp only [Bool.and_eq_true, Bool.not_eq_true', List.isEmpty_eq_false_iff] at hb
    exact obeys_arriveFanout hrun hw he ((Compiled.fans_edge he).trans hb.1) hb.2
  · next hb =>
    rw [Prog.obeys_pure]
    refine collects_ready (fun ni hni => pushReadyChunked_covers _ _ _ _ _ _ ni hni)
      (pushReadyChunked_instances ..) hrun he
      hw.serves.1 (fun hg => ?_) (fun hf => ?_) fun hnil => ?_
    · rw [← Compiled.hasCondition_edge he]
      exact hcond hg
    · rw [Compiled.fans_edge he] at hf
      simpa [hf] using hb
    · rw [hnil]
      rfl

theorem obeys_workerWalk (hrun : Runnable c) {es : List SuccEdge}
    (hes : ∀ e ∈ es, e ∈ c.edgesFor t.info.id)
    (hcond : guarded → ∀ e ∈ c.edgesFor t.info.id, e.hasCondition = false) {l : Phase}
    (hw : l.Walks t gen) :
    (Threads.workerWalk c cfg t gen es).Obeys (resolutionDiscipline c cfg guarded)
      (fun sched l' => l.Collects c cfg guarded l' t sched) l := by
  induction es generalizing l with
  | nil => exact .nil l t
  | cons e es ih =>
    have he := hes e List.mem_cons_self
    refine (obeys_workerEdge hrun hw he fun hg => hcond hg e he).bind fun sched l1 h1 => ?_
    refine (ih (fun e' he' => hes e' (List.mem_cons_of_mem _ he')) (h1.walks hw)).bind
      fun rest l2 h2 => ?_
    exact h1.append h2

/-! ## Conditions -/

/-- Evaluated tasks keep their instances if all conditions hold, and give them up otherwise. -/
theorem obeys_dispatchConditionSuccessor (hw : l.Walks t gen) {task : NodeInfo}
    (hslot : task.slot = t.slot) (hone : task.bulkCount = 1) (hcond : c.isCondition task.id = true)
    {rest : Multiset Cell} (hready : l.ready = rest + (task.cells : Multiset Cell)) :
    (Threads.dispatchConditionSuccessor c t gen task).Obeys (resolutionDiscipline c cfg guarded)
      (fun out l' => l' = { l with ready := rest + taskCells out, passed := l'.passed } ∧
        (∀ x ∈ l.passed, x ∈ l'.passed) ∧ (∀ x ∈ l'.passed, x ∈ l.passed ∨ x.slot = t.slot) ∧
          ∀ ni ∈ out, ni = task ∧ (guarded → ∀ x ∈ ni.cells, x ∈ l'.passed)) l := by
  unfold Threads.dispatchConditionSuccessor
  split
  · exact hw.free
  · next parts _ =>
    refine obeys_act (Phase.permits_of_works hw.free ⟨hw.serves.1, hslot⟩) fun passed hparts => ?_
    -- what the evaluation adds to the record
    obtain ⟨ps, hnext, hkept, hhere, hnew⟩ : ∃ ps,
        l.next c cfg (.evaluate t task parts) passed = { l with passed := ps } ∧
          (∀ x ∈ l.passed, x ∈ ps) ∧ (∀ x ∈ ps, x ∈ l.passed ∨ x.slot = t.slot) ∧
            (passed = true → guarded → ∀ x ∈ task.cells, x ∈ ps) := by
      simp only [Phase.next]
      split
      · refine ⟨_, rfl, fun x hx => List.mem_append_right _ hx, fun x hx => ?_,
          fun _ _ x hx => List.mem_append_left _ hx⟩
        rcases List.mem_append.mp hx with hx | hx
        · exact .inr ((NodeInfo.mem_cells.mp hx).1.trans hslot)
        · exact .inl hx
      · next hnot =>
        exact ⟨l.passed, rfl, fun x hx => hx, fun x hx => .inl hx,
          fun hp hg => absurd ⟨hp, hparts hg⟩ hnot⟩
    rw [hnext]
    cases passed with
    | true =>
      refine obeys_act (Phase.permits_of_works hw.free hw.serves) fun _ _ => ?_
      rw [Prog.obeys_pure]
      refine ⟨?_, hkept, hhere, fun ni hni => ?_⟩
      · rw [taskCells_cons, taskCells_nil, add_zero, ← hready]
        rfl
      · obtain rfl := List.mem_singleton.mp hni
        exact ⟨rfl, hnew rfl⟩
    | false =>
      refine obeys_act (Phase.permits_of_works hw.free ⟨hw.serves.1, hslot, hone, hcond, ?_⟩)
        fun _ _ => obeys_act (Phase.permits_of_works hw.free ⟨hw.serves, hslot, hcond⟩)
          fun _ _ => obeys_act (Phase.permits_of_works hw.free ⟨hw.serves, hslot, hcond⟩)
            fun _ _ => ?_
      · rw [hready]
        exact Multiset.le_add_left _ _
      · rw [Prog.obeys_pure]
        refine ⟨?_, hkept, hhere, fun _ hni => (by cases hni)⟩
        simp only [Phase.next, hready, taskCells_nil, add_zero, add_tsub_cancel_right]

theorem obeys_dispatchEach {tasks : List NodeInfo}
    (htasks : ∀ task ∈ tasks, task.slot = t.slot ∧ task.bulkCount = 1 ∧ c.isCondition task.id = true)
    {l : Phase} (hw : l.Walks t gen) {rest : Multiset Cell}
    (hready : l.ready = rest + taskCells tasks) :
    (Threads.dispatchEach c t gen tasks).Obeys (resolutionDiscipline c cfg guarded)
      (fun out l' => l' = { l with ready := rest + taskCells out, passed := l'.passed } ∧
        (∀ x ∈ l.passed, x ∈ l'.passed) ∧ (∀ x ∈ l'.passed, x ∈ l.passed ∨ x.slot = t.slot) ∧
          ∀ ni ∈ out, ni ∈ tasks ∧ (guarded → ∀ x ∈ ni.cells, x ∈ l'.passed)) l := by
  induction tasks generalizing l rest with
  | nil =>
    refine ⟨?_, fun x hx => hx, fun x hx => .inl hx, fun _ hni => (nomatch hni)⟩
    rw [← hready]
  | cons task tasks ih =>
    obtain ⟨hslot, hone, hcond⟩ := htasks task List.mem_cons_self
    rw [taskCells_cons, add_left_comm, add_comm] at hready
    refine (obeys_dispatchConditionSuccessor hw hslot hone hcond hready).bind ?_
    rintro out l1 ⟨hl1, hkept1, hhere1, hout1⟩
    have hw1 : l1.Walks t gen := by
      rw [hl1]
      exact ⟨hw.free, hw.serves⟩
    have hready1 : l1.ready = (rest + taskCells out) + taskCells tasks := by
      rw [hl1, add_right_comm]
    refine (ih (fun m hm => htasks m (List.mem_cons_of_mem _ hm)) hw1 hready1).bind ?_
    rintro outs l2 ⟨hl2, hkept2, hhere2, hout2⟩
    rw [Prog.obeys_pure]
    refine ⟨?_, fun x hx => hkept2 x (hkept1 x hx), fun x hx => ?_, fun ni hni => ?_⟩
    · rw [taskCells_append, ← add_assoc, hl2, hl1]
    · rcases hhere2 x hx with hx | hx
      · exact hhere1 x hx
      · exact .inr hx
    · rcases List.mem_append.mp hni with hni | hni
      · obtain ⟨rfl, hg⟩ := hout1 ni hni
        exact ⟨List.mem_cons_self, fun g x hx => hkept2 x (hg g x hx)⟩
      · obtain ⟨hmem, hg⟩ := hout2 ni hni
        exact ⟨List.mem_cons_of_mem _ hmem, hg⟩

theorem obeys_batchEdge (hrun : Runnable c) (hw : l.Walks t gen) (he : e ∈ c.edgesFor t.info.id) :
    (Threads.batchEdge c t gen cfg e).Obeys (resolutionDiscipline c cfg guarded)
      (fun sched l' => l.Collects c cfg guarded l' t sched) l := by
  unfold Threads.batchEdge
  split
  · exact .nil l t
  · have hleft : (Threads.spawnsLeft t gen e).Obeys (resolutionDiscipline c cfg guarded)
        (fun _ l' => l' = l) l := by
      unfold Threads.spawnsLeft
      split
      · exact obeys_act (Phase.permits_of_works hw.free trivial) fun _ _ => rfl
      · exact rfl
    refine hleft.bind ?_
    rintro left l1 rfl
    split
    · exact .nil l1 t
    · refine (obeys_runCalls (Compiled.edge_of_mem he).1 hw _).bind ?_
      rintro ready l2 rfl
      have hcovers : ∀ ni ∈ ready.map fun idx => NodeInfo.new e.succId t.slot idx t.info.index,
          ni.Covers t.slot e.succId := by
        intro ni hni
        obtain ⟨idx, -, rfl⟩ := List.mem_map.mp hni
        exact ⟨rfl, rfl, le_refl 1⟩
      have hinstances : (ready.map fun idx =>
          NodeInfo.new e.succId t.slot idx t.info.index).flatMap NodeInfo.instances = ready := by
        simp [List.flatMap_map, NodeInfo.new, NodeInfo.instances]
      split
      · next hb =>
        simp only [Bool.and_eq_true, Bool.not_eq_true', List.isEmpty_eq_false_iff] at hb
        exact obeys_arriveFanout hrun hw he ((Compiled.fans_edge he).trans hb.1.2) hb.2
      · next hb =>
        simp only
        split
        · next hcond =>
          have hfans : c.fans cfg e.succId = false := by
            by_contra hf
            have hno := Compiled.not_condition_of_fans (Bool.eq_true_of_not_eq_false hf)
            rw [← Compiled.hasCondition_edge he, hcond] at hno
            cases hno
          rw [Compiled.hasCondition_edge he] at hcond
          have hready : (l1.addReady t.slot e.succId ready).ready = l1.ready +
              taskCells (ready.map fun idx => NodeInfo.new e.succId t.slot idx t.info.index) := by
            rw [taskCells_of_covers hcovers, hinstances]
            rfl
          refine (obeys_dispatchEach (fun task htask => ?_) (hw.addReady t.slot e.succId ready)
            hready).mono ?_
          · obtain ⟨idx, -, rfl⟩ := List.mem_map.mp htask
            exact ⟨rfl, rfl, hcond⟩
          · rintro out l' ⟨hl', hkept, hhere, hout⟩
            have hcovers' : ∀ ni ∈ out, ni.Covers t.slot e.succId := fun ni hni =>
              hcovers ni (hout ni hni).1
            refine ⟨?_, hkept, hhere, fun ni hni => ?_⟩
            · rw [Phase.gain_ready hcovers' hfans]
              exact hl'
            · have hserved : t ∈ l'.served := by
                rw [hl']
                exact hw.serves.1
              exact (hcovers' ni hni).sends hrun he hserved fun hg _ => (hout ni hni).2 hg
        · next hcond =>
          rw [Prog.obeys_pure]
          refine collects_ready hcovers hinstances hrun he hw.serves.1 (fun _ => ?_) (fun hf => ?_)
            fun hnil => by rw [hnil]; rfl
          · rw [← Compiled.hasCondition_edge he]
            exact Bool.eq_false_of_not_eq_true hcond
          · rw [Compiled.fans_edge he] at hf
            simpa [hf, Bool.eq_false_of_not_eq_true hcond] using hb

theorem obeys_batchWalk (hrun : Runnable c) {es : List SuccEdge}
    (hes : ∀ e ∈ es, e ∈ c.edgesFor t.info.id) {l : Phase} (hw : l.Walks t gen) :
    (Threads.batchWalk c t gen cfg es).Obeys (resolutionDiscipline c cfg guarded)
      (fun sched l' => l.Collects c cfg guarded l' t sched) l := by
  induction es generalizing l with
  | nil => exact .nil l t
  | cons e es ih =>
    refine (obeys_batchEdge hrun hw (hes e List.mem_cons_self)).bind fun sched l1 h1 => ?_
    refine (ih (fun e' he' => hes e' (List.mem_cons_of_mem _ he')) (h1.walks hw)).bind
      fun rest l2 h2 => ?_
    exact h1.append h2

end Edges

/-! ## Dispatch -/

section Dispatch

variable {c : Compiled} {cfg : Config} {guarded : Prop}

/-- Tasks that the thread can send, with their instances, all go out. -/
theorem obeys_sendToScheduler {out : List (Option Ticket × NodeInfo)} {l : Phase}
    (hfree : l.focus = .free)
    (hout : ∀ p ∈ out, ∃ t, p.1 = some t ∧ t.slot ∈ l.inside ∧ l.Sends c guarded t p.2) :
    (Threads.sendToScheduler out).Obeys (resolutionDiscipline c cfg guarded)
      (fun _ l' => l' = { l with stamp := l'.stamp }) (l.gain c cfg (out.map (·.2))) := by
  induction out generalizing l with
  | nil => rw [List.map_nil, Phase.gain_nil]; rfl
  | cons p out ih =>
    obtain ⟨cause, ni⟩ := p
    obtain ⟨t, hcause, hin, hs⟩ := hout _ List.mem_cons_self
    obtain rfl : cause = some t := hcause
    have hin' : ni.slot ∈ l.inside := hs.slot ▸ hin
    refine obeys_act (Phase.permits_of_works hfree trivial) fun st _ => ?_
    have hnext : (l.gain c cfg (ni :: out.map (·.2))).next c cfg (.loadGeneration ni.slot) st =
        ({ l with stamp := some (ni.slot, st) } : Phase).gain c cfg (ni :: out.map (·.2)) :=
      if_pos hin'
    simp only [List.map_cons]
    rw [hnext]
    refine obeys_act (Phase.permits_of_works hfree ⟨hs.served, hs.slot, ?_⟩) fun _ _ => ?_
    · exact ⟨hs.nonempty, hs.compute, rfl, Phase.pool_gain_cons ni _, hs.passed⟩
    · have hspend : (({ l with stamp := some (ni.slot, st) } : Phase).gain c cfg
          (ni :: out.map (·.2))).next c cfg (.enqueue (some t) (.stamped ni st)) () =
            ({ l with stamp := some (ni.slot, st) } : Phase).gain c cfg (out.map (·.2)) :=
        Phase.spend_gain_cons ni _
      rw [hspend]
      refine (ih (l := { l with stamp := some (ni.slot, st) }) hfree fun q hq => ?_).mono
        fun _ l' hl' => hl'
      obtain ⟨u, hu, hinu, hsu⟩ := hout q (List.mem_cons_of_mem _ hq)
      exact ⟨u, hu, hinu, hsu.keep rfl fun _ => id⟩

end Dispatch

end Tomii
