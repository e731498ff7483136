import Tomii.Runtime.ThreadJobs

/-! # Completions in flight at a fanout-bulk node

Workers and resolution threads resolve completions of one generation at the same time, step by
step. For one node of one slot a thread is where its instances are: ready and not yet arrived at
the counter of the node, or due to be dispatched. -/
namespace Tomii
set_option autoImplicit false
set_option maxHeartbeats 250000

/-! ## Completions -/

/-- A completed task that its worker resolves, or a batch of them. -/
inductive CompletionJob where
  | worker (t : Ticket)
  | batch (ts : List Ticket)

namespace CompletionJob

/-- An inline continuation is put back as in `work`. -/
def program (c : Compiled) (opts : Options) : CompletionJob → Thread Unit
  | .worker t => do
    match ← Threads.workerResolveSuccessors c opts.config t with
    | none => pure ()
    | some next => atomic (.resume next)
  | .batch ts => Threads.processBatchResolution c opts ts

end CompletionJob

/-- Any number of threads that resolve completions; no slot is reset or activated, and no task runs:
a completed task is given to the threads at any time, also before the results it would read. -/
def completionMachine (c : Compiled) (opts : Options) : Machine atomics Shared CompletionJob where
  perform := Shared.perform c
  program := CompletionJob.program c opts

/-! ## Instances of one node in one slot -/

/-- The instances among `tasks` of the node. -/
def sentTo (slot node : ℕ) (tasks : List NodeInfo) : List ℕ :=
  (tasks.filter fun ni => ni.slot = slot ∧ ni.id = node).flatMap NodeInfo.instances

section SentTo

variable {slot node : ℕ}

@[simp] theorem sentTo_nil : sentTo slot node [] = [] := rfl

@[simp] theorem sentTo_append (xs ys : List NodeInfo) :
    sentTo slot node (xs ++ ys) = sentTo slot node xs ++ sentTo slot node ys := by
  simp [sentTo]

theorem sentTo_cons (ni : NodeInfo) (tasks : List NodeInfo) :
    sentTo slot node (ni :: tasks) = sentTo slot node [ni] ++ sentTo slot node tasks :=
  sentTo_append [ni] tasks

theorem sentTo_here {tasks : List NodeInfo} (h : ∀ ni ∈ tasks, ni.slot = slot ∧ ni.id = node) :
    sentTo slot node tasks = tasks.flatMap NodeInfo.instances := by
  rw [sentTo, List.filter_eq_self.mpr fun ni hni => decide_eq_true (h ni hni)]

theorem sentTo_apart {tasks : List NodeInfo} (h : ∀ ni ∈ tasks, ¬ (ni.slot = slot ∧ ni.id = node)) :
    sentTo slot node tasks = [] := by
  rw [sentTo, List.filter_eq_nil_iff.mpr fun ni hni => by simpa using h ni hni]
  rfl

theorem sentTo_stamped (ni : NodeInfo) (st : Stamp) :
    sentTo slot node [(Ticket.stamped ni st).info] = sentTo slot node [ni] := by
  by_cases h : ni.slot = slot ∧ ni.id = node
  · rw [sentTo_here fun m hm => ?_, sentTo_here fun m hm => ?_]
    · rfl
    · rw [List.mem_singleton.mp hm]
      exact h
    · rw [List.mem_singleton.mp hm]
      exact h
  · rw [sentTo_apart fun m hm => ?_, sentTo_apart fun m hm => ?_]
    · rw [List.mem_singleton.mp hm]
      exact h
    · rw [List.mem_singleton.mp hm]
      exact h

end SentTo

namespace Shared

variable (σ : Shared) (slot node : ℕ)

/-- The instances that `decrease_and_get_ready_into` has returned in the generation. -/
def readied : List ℕ :=
  (σ.ledger.released.filter fun x => x.slot = slot ∧ x.node = node).map Cell.idx

/-- The instances in the tasks that went out. -/
def dispatched : List ℕ := sentTo slot node (σ.queue.map Ticket.info)

variable {σ slot node}

end Shared

/-! ## The discipline -/

/-- What a thread has of the node's instances. -/
@[ext] structure Arriving where
  /-- Ready, and to arrive at the fanout-bulk counter. -/
  held : List ℕ
  /-- To be dispatched. -/
  outgoing : Multiset ℕ

namespace Arriving

def idle : Arriving := ⟨[], 0⟩

variable (c : Compiled) (cfg : Config) (slot node : ℕ) (gen : UInt32) (l : Arriving)

/-- Ready instances arrive at the counter first where the node is dispatched as a whole. -/
def gain (ready : List ℕ) : Arriving :=
  if c.fans cfg node then { l with held := l.held ++ ready }
  else { l with outgoing := l.outgoing + (ready : Multiset ℕ) }

/-- The same for the ready instances of any node in any slot. -/
def gains (t : Ticket) (n : ℕ) (ready : List ℕ) : Arriving :=
  if t.slot = slot ∧ n = node then l.gain c cfg node ready else l

def owes (tasks : List NodeInfo) : Arriving :=
  { l with outgoing := l.outgoing + (sentTo slot node tasks : Multiset ℕ) }

def permits : Act → Prop
  | .fetchDec t g n _ _ => t.slot = slot ∧ n = node → g = gen
  | .trySend t g n idx => t.slot = slot ∧ n = node →
      g = gen ∧ idx < c.factor n ∧ (c.entry n).hasBarrier = false
  | .arriveFanout t g n ready => t.slot = slot ∧ n = node →
      g = gen ∧ c.fans cfg n = true ∧ ready = l.held ∧ ready ≠ []
  | .incrementDependency t _ task => ¬ (t.slot = slot ∧ task.id = node)
  | .resetSent t _ task => ¬ (t.slot = slot ∧ task.id = node)
  | .enqueue (some _) task => (sentTo slot node [task.info] : Multiset ℕ) ≤ l.outgoing
  | .resume task => (sentTo slot node [task.info] : Multiset ℕ) ≤ l.outgoing
  | .loadGeneration _ => True
  | .enter _ => True
  | .leave _ => True
  | .retire _ _ => True
  | .remainingSpawns _ _ _ => True
  | .evaluate _ _ _ => True
  | .spawnOne _ _ _ => True
  | .discharge _ _ => True
  | .reserve _ _ => True
  | .setNeedsCheck _ _ => True
  | _ => False

def knows : (a : Act) → a.Reply → Prop
  | .loadGeneration s, st => s = slot → st.gen = gen
  | _, _ => True

def next : (a : Act) → a.Reply → Arriving
  | .fetchDec t _ n g _, counts => l.gains c cfg slot node t n (c.publishedBy n g counts)
  | .trySend t _ n idx, fired => if fired then l.gains c cfg slot node t n [idx] else l
  | .arriveFanout t _ n _, arrived =>
    if t.slot = slot ∧ n = node then
      ⟨[], l.outgoing + if (asU32 (c.factor n)).toNat ≤ arrived
        then (List.range (asU32 (c.factor n)).toNat : Multiset ℕ) else 0⟩
    else l
  | .enqueue _ task, _ =>
    { l with outgoing := l.outgoing - (sentTo slot node [task.info] : Multiset ℕ) }
  | .resume task, _ =>
    { l with outgoing := l.outgoing - (sentTo slot node [task.info] : Multiset ℕ) }
  | _, _ => l

end Arriving

/-- The completions of a generation `gen`, seen from one node of one slot. -/
def arrivalDiscipline (c : Compiled) (cfg : Config) (slot node : ℕ) (gen : UInt32) :
    Discipline atomics Arriving where
  fails := fun _ => True
  permits := Arriving.permits c cfg slot node gen
  knows := fun _ => Arriving.knows slot gen
  next := Arriving.next c cfg slot node

/-! ## The programs keep to it -/

/-- An action after which the thread is where it was. -/
theorem arrives_still {c : Compiled} {cfg : Config} {slot node : ℕ} {gen : UInt32} {β : Type}
    {a : Act} {f : a.Reply → Thread β} {post : β → Arriving → Prop} {l : Arriving}
    (hpermits : l.permits c cfg slot node gen a) (hsame : ∀ r, l.next c cfg slot node a r = l)
    (hrest : ∀ r, Arriving.knows slot gen a r →
      (f r).Obeys (arrivalDiscipline c cfg slot node gen) post l) :
    (atomic a >>= f).Obeys (arrivalDiscipline c cfg slot node gen) post l := by
  refine Prog.Obeys.call_bind hpermits fun r hr => ?_
  show (f r).Obeys _ _ (l.next c cfg slot node a r)
  rw [hsame]
  exact hrest r hr

section Calls

variable {c : Compiled} {cfg : Config} {slot node : ℕ} {gen : UInt32} {t : Ticket} {g : UInt32}
  {n : ℕ} {l : Arriving}

theorem Arriving.gain_nil : l.gain c cfg node [] = l := by
  unfold gain
  split
  · rw [List.append_nil]
  · rw [Multiset.coe_nil, add_zero]

theorem Arriving.gain_append (xs ys : List ℕ) :
    (l.gain c cfg node xs).gain c cfg node ys = l.gain c cfg node (xs ++ ys) := by
  unfold gain
  split
  · rw [List.append_assoc]
  · rw [← Multiset.coe_add, add_assoc]

@[simp] theorem Arriving.gains_nil : l.gains c cfg slot node t n [] = l := by
  unfold gains
  split
  · exact gain_nil
  · rfl

theorem Arriving.gains_append (xs ys : List ℕ) :
    (l.gains c cfg slot node t n xs).gains c cfg slot node t n ys =
      l.gains c cfg slot node t n (xs ++ ys) := by
  unfold gains
  split
  · exact gain_append xs ys
  · rfl

variable (hgen : t.slot = slot → g = gen)

include hgen

theorem sendEach_arrives {is : List ℕ} (hidx : ∀ i ∈ is, i < c.factor n)
    (hbar : t.slot = slot ∧ n = node → (c.entry n).hasBarrier = false) :
    (Threads.sendEach t g n is).Obeys (arrivalDiscipline c cfg slot node gen)
      (fun ready l' => l' = l.gains c cfg slot node t n ready) l := by
  induction is generalizing l with
  | nil => exact Arriving.gains_nil.symm
  | cons i is ih =>
    refine Prog.Obeys.call_bind (fun hat => ⟨hgen hat.1, hidx i List.mem_cons_self, hbar hat⟩)
      fun fired _ => ?_
    have hrest := fun l => ih (l := l) fun j hj => hidx j (List.mem_cons_of_mem _ hj)
    cases fired with
    | true =>
      refine (hrest _).bind ?_
      rintro rest l' rfl
      exact Arriving.gains_append [i] rest
    | false =>
      refine (hrest _).bind ?_
      rintro rest l' rfl
      rfl

variable (hplain : (c.entry node).isCondition = false)

include hplain

theorem decreaseGroup_arrives (group count : ℕ) (specific : Option ℕ) :
    (Threads.decreaseGroup t g n (c.entry n) group count specific).Obeys
      (arrivalDiscipline c cfg slot node gen)
      (fun ready l' => l' = l.gains c cfg slot node t n ready) l := by
  refine Prog.Obeys.call_bind (fun hat => hgen hat.1) ?_
  rintro ⟨oldRemaining, newRemaining⟩ -
  have hnext : (arrivalDiscipline c cfg slot node gen).next l (.fetchDec t g n group count)
      (oldRemaining, newRemaining) =
        l.gains c cfg slot node t n (c.publishedBy n group (oldRemaining, newRemaining)) := rfl
  have hrange : ∀ i ∈ (c.entry n).groupRange group, i < c.factor n := fun i hi =>
    (c.entry n).groupRange_lt_factor hi
  have hunpublished : ¬ ((c.entry n).hasBarrier = true ∧ (c.entry n).isCondition = false ∧
      0 < oldRemaining ∧ newRemaining = 0) →
        (arrivalDiscipline c cfg slot node gen).next l (.fetchDec t g n group count)
          (oldRemaining, newRemaining) = l := by
    intro hnot
    rw [hnext, Compiled.publishedBy, if_neg hnot, Arriving.gains_nil]
  simp only
  split
  · next hbar =>
    split
    · next hdown =>
      split
      · next hcond =>
        rw [hunpublished fun h => Bool.false_ne_true (h.2.1.symm.trans hcond)]
        refine sendEach_arrives hgen hrange fun hat => ?_
        rw [hat.2, hplain] at hcond
        cases hcond
      · next hcond =>
        rw [Prog.obeys_pure, hnext, Compiled.publishedBy,
          if_pos ⟨hbar, Bool.eq_false_of_not_eq_true hcond, hdown⟩]
    · next hdown =>
      rw [Prog.obeys_pure, hunpublished fun h => hdown h.2.2, Arriving.gains_nil]
  · next hbar =>
    rw [hunpublished fun h => hbar h.1]
    have hfree : t.slot = slot ∧ n = node → (c.entry n).hasBarrier = false := fun _ =>
      Bool.eq_false_of_not_eq_true hbar
    split
    · split
      · next hlt =>
        refine sendEach_arrives hgen (fun i hi => ?_) hfree
        rw [List.mem_singleton.mp hi]
        exact hlt
      · exact Arriving.gains_nil.symm
    · split
      · exact sendEach_arrives hgen (fun i hi => hrange i (List.mem_filter.mp hi).1) hfree
      · exact Arriving.gains_nil.symm

theorem decreaseGroups_arrives (count : ℕ) (specific : Option ℕ) (groups : List ℕ) :
    (Threads.decreaseGroups t g n (c.entry n) count specific groups).Obeys
      (arrivalDiscipline c cfg slot node gen)
      (fun ready l' => l' = l.gains c cfg slot node t n ready) l := by
  induction groups generalizing l with
  | nil => exact Arriving.gains_nil.symm
  | cons group groups ih =>
    refine (decreaseGroup_arrives hgen hplain group count specific).bind ?_
    rintro ready l' rfl
    refine ih.bind ?_
    rintro rest l' rfl
    exact Arriving.gains_append ready rest

theorem runCalls_arrives (calls : List DepCall) :
    (Threads.runCalls t g n c calls).Obeys (arrivalDiscipline c cfg slot node gen)
      (fun ready l' => l' = l.gains c cfg slot node t n ready) l := by
  induction calls generalizing l with
  | nil => exact Arriving.gains_nil.symm
  | cons call calls ih =>
    have hcall : (Threads.decreaseAndGetReadyInto t g n c call).Obeys
        (arrivalDiscipline c cfg slot node gen)
        (fun ready l' => l' = l.gains c cfg slot node t n ready) l := by
      unfold Threads.decreaseAndGetReadyInto
      simp only
      split
      · split
        · split
          · exact decreaseGroups_arrives hgen hplain ..
          · exact Arriving.gains_nil.symm
        · exact decreaseGroups_arrives hgen hplain ..
      · exact Arriving.gains_nil.symm
    refine hcall.bind ?_
    rintro ready l' rfl
    refine ih.bind ?_
    rintro rest l' rfl
    exact Arriving.gains_append ready rest

end Calls

section Edges

variable {c : Compiled} {cfg : Config} {slot node : ℕ} {gen : UInt32} {t : Ticket} {g : UInt32}
  {e : SuccEdge} {l : Arriving} {ready : List ℕ}

@[simp] theorem Arriving.owes_nil : l.owes slot node [] = l := by
  unfold owes
  rw [sentTo_nil, Multiset.coe_nil, add_zero]

theorem Arriving.owes_append (xs ys : List NodeInfo) :
    l.owes slot node (xs ++ ys) = (l.owes slot node xs).owes slot node ys := by
  unfold owes
  rw [sentTo_append, ← Multiset.coe_add, add_assoc]

theorem Arriving.owes_comm (xs ys : List NodeInfo) :
    l.owes slot node (xs ++ ys) = (l.owes slot node ys).owes slot node xs := by
  unfold owes
  rw [sentTo_append, ← Multiset.coe_add, add_right_comm, add_assoc]

/-- Ready instances that go out as tasks of their own are owed at once. -/
theorem Arriving.gains_eq_owes {n : ℕ} {tasks : List NodeInfo}
    (htasks : ∀ ni ∈ tasks, ni.slot = t.slot ∧ ni.id = n)
    (hready : tasks.flatMap NodeInfo.instances = ready) (hfans : c.fans cfg n = true → ready = []) :
    l.gains c cfg slot node t n ready = l.owes slot node tasks := by
  unfold gains owes
  by_cases hat : t.slot = slot ∧ n = node
  · obtain ⟨rfl, rfl⟩ := hat
    rw [if_pos ⟨rfl, rfl⟩, sentTo_here htasks, hready, gain]
    split
    · next hf => rw [hfans hf, List.append_nil, Multiset.coe_nil, add_zero]
    · rfl
  · rw [if_neg hat, sentTo_apart fun ni hni heq => hat ?_, Multiset.coe_nil, add_zero]
    obtain ⟨hslot, hid⟩ := htasks ni hni
    exact ⟨hslot.symm.trans heq.1, hid.symm.trans heq.2⟩

variable (hgen : t.slot = slot → g = gen)

include hgen

/-- The ready instances arrive; the last arrival owes the whole factor. -/
theorem arriveFanout_arrives (he : e ∈ c.edgesFor t.info.id) (hfans : c.fans cfg e.succId = true)
    (hheld : l.held = []) (hne : ready ≠ []) :
    (Threads.arriveFanout cfg t g e ready).Obeys (arrivalDiscipline c cfg slot node gen)
      (fun sched l' => l' = l.owes slot node sched) (l.gains c cfg slot node t e.succId ready) := by
  have hfactor : e.succFactor = asU32 (c.factor e.succId) := by
    rw [(Compiled.edge_of_mem he).2]
    rfl
  have hcovers : ∀ ni ∈ fanoutTasks e.succId t.slot e.succFactor.toNat t.info.index cfg.workers g,
      ni.slot = t.slot ∧ ni.id = e.succId := by
    intro ni hni
    obtain ⟨ch, -, rfl⟩ := List.mem_map.mp hni
    exact ⟨rfl, rfl⟩
  by_cases hat : t.slot = slot ∧ e.succId = node
  · have hgained : l.gains c cfg slot node t e.succId ready = ⟨ready, l.outgoing⟩ := by
      rw [Arriving.gains, if_pos hat, Arriving.gain, ← hat.2, if_pos hfans, hheld, List.nil_append]
    rw [hgained]
    refine Prog.Obeys.call_bind (fun _ => ⟨hgen hat.1, hfans, rfl, hne⟩) fun arrived _ => ?_
    rw [Prog.obeys_pure]
    simp only [arrivalDiscipline, Arriving.next, if_pos hat, hfactor, Arriving.owes, hheld]
    split
    · rw [sentTo_here fun ni hni => ?_, fanoutTasks_instances]
      rw [← hfactor] at hni
      exact ⟨(hcovers ni hni).1.trans hat.1, (hcovers ni hni).2.trans hat.2⟩
    · rfl
  · rw [Arriving.gains, if_neg hat]
    refine Prog.Obeys.call_bind (fun h => absurd h hat) fun arrived _ => ?_
    rw [Prog.obeys_pure]
    simp only [arrivalDiscipline, Arriving.next, if_neg hat, Arriving.owes]
    rw [sentTo_apart fun ni hni heq => hat ?_, Multiset.coe_nil, add_zero]
    split at hni
    · obtain ⟨hslot, hid⟩ := hcovers ni hni
      exact ⟨hslot.symm.trans heq.1, hid.symm.trans heq.2⟩
    · cases hni

variable (hplain : (c.entry node).isCondition = false)

include hplain

theorem workerEdge_arrives (he : e ∈ c.edgesFor t.info.id) (hheld : l.held = []) :
    (Threads.workerEdge c cfg t g e).Obeys (arrivalDiscipline c cfg slot node gen)
      (fun sched l' => l' = l.owes slot node sched) l := by
  refine (runCalls_arrives hgen hplain _).bind ?_
  rintro ready l' rfl
  split
  · next hb =>
    simp only [Bool.and_eq_true, Bool.not_eq_true', List.isEmpty_eq_false_iff] at hb
    exact arriveFanout_arrives hgen he ((Compiled.fans_edge he).trans hb.1) hheld hb.2
  · next hb =>
    rw [Prog.obeys_pure]
    refine Arriving.gains_eq_owes (fun ni hni => ?_) (pushReadyChunked_instances ..) fun hf => ?_
    · have hcovers := pushReadyChunked_covers _ _ _ _ _ _ ni hni
      exact ⟨hcovers.slot, hcovers.id⟩
    · rw [Compiled.fans_edge he] at hf
      simpa [hf] using hb

theorem workerWalk_arrives {es : List SuccEdge} (hes : ∀ e ∈ es, e ∈ c.edgesFor t.info.id)
    (hheld : l.held = []) :
    (Threads.workerWalk c cfg t g es).Obeys (arrivalDiscipline c cfg slot node gen)
      (fun sched l' => l' = l.owes slot node sched) l := by
  induction es generalizing l with
  | nil => exact Arriving.owes_nil.symm
  | cons e es ih =>
    refine (workerEdge_arrives hgen hplain (hes e List.mem_cons_self) hheld).bind ?_
    rintro sched l' rfl
    have howed : (l.owes slot node sched).held = [] := hheld
    refine (ih (fun e' he' => hes e' (List.mem_cons_of_mem _ he')) howed).bind ?_
    rintro rest l' rfl
    exact (Arriving.owes_append sched rest).symm

omit hgen hplain in
/-- Tasks of another node are evaluated without a trace. -/
theorem dispatchEach_arrives {tasks : List NodeInfo} (htasks : ∀ task ∈ tasks, task.id ≠ node) :
    (Threads.dispatchEach c t g tasks).Obeys (arrivalDiscipline c cfg slot node gen)
      (fun out l' => l' = l ∧ ∀ ni ∈ out, ni ∈ tasks) l := by
  induction tasks with
  | nil => exact ⟨rfl, fun _ hni => (nomatch hni)⟩
  | cons task tasks ih =>
    have hother : ¬ (t.slot = slot ∧ task.id = node) := fun h => htasks task List.mem_cons_self h.2
    have hone : (Threads.dispatchConditionSuccessor c t g task).Obeys
        (arrivalDiscipline c cfg slot node gen) (fun out l' => l' = l ∧ ∀ ni ∈ out, ni = task) l := by
      unfold Threads.dispatchConditionSuccessor
      split
      · trivial
      · refine Prog.Obeys.call_bind trivial fun passed _ => ?_
        cases passed with
        | true =>
          exact Prog.Obeys.call_bind trivial fun _ _ => ⟨rfl, fun ni hni => List.mem_singleton.mp hni⟩
        | false =>
          exact Prog.Obeys.call_bind trivial fun _ _ => Prog.Obeys.call_bind hother fun _ _ =>
            Prog.Obeys.call_bind hother fun _ _ => ⟨rfl, fun _ hni => (nomatch hni)⟩
    refine hone.bind ?_
    rintro out l' ⟨rfl, hout⟩
    refine (ih fun m hm => htasks m (List.mem_cons_of_mem _ hm)).bind ?_
    rintro outs l' ⟨rfl, houts⟩
    refine ⟨rfl, fun ni hni => ?_⟩
    rcases List.mem_append.mp hni with hni | hni
    · exact hout ni hni ▸ List.mem_cons_self
    · exact List.mem_cons_of_mem _ (houts ni hni)

theorem batchEdge_arrives (hcond : c.isCondition node = false) (he : e ∈ c.edgesFor t.info.id)
    (hheld : l.held = []) :
    (Threads.batchEdge c t g cfg e).Obeys (arrivalDiscipline c cfg slot node gen)
      (fun sched l' => l' = l.owes slot node sched) l := by
  unfold Threads.batchEdge
  split
  · exact Arriving.owes_nil.symm
  · have hleft : (Threads.spawnsLeft t g e).Obeys (arrivalDiscipline c cfg slot node gen)
        (fun _ l' => l' = l) l := by
      unfold Threads.spawnsLeft
      split
      · exact Prog.Obeys.call_bind trivial fun _ _ => rfl
      · exact rfl
    refine hleft.bind ?_
    rintro left l' rfl
    split
    · exact Arriving.owes_nil.symm
    refine (runCalls_arrives hgen hplain _).bind ?_
    rintro ready l' rfl
    have htasks : ∀ ni ∈ ready.map fun idx => NodeInfo.new e.succId t.slot idx t.info.index,
        ni.slot = t.slot ∧ ni.id = e.succId := by
      intro ni hni
      obtain ⟨idx, -, rfl⟩ := List.mem_map.mp hni
      exact ⟨rfl, rfl⟩
    split
    · next hb =>
      simp only [Bool.and_eq_true, Bool.not_eq_true', List.isEmpty_eq_false_iff] at hb
      exact arriveFanout_arrives hgen he ((Compiled.fans_edge he).trans hb.1.2) hheld hb.2
    · next hb =>
      split
      · next hc =>
        have hother : e.succId ≠ node := by
          rintro rfl
          rw [Compiled.hasCondition_edge he, hcond] at hc
          cases hc
        rw [Arriving.gains, if_neg fun h => hother h.2]
        refine (dispatchEach_arrives fun task htask => ?_).mono ?_
        · rw [(htasks task htask).2]
          exact hother
        · rintro out l' ⟨rfl, hout⟩
          rw [Arriving.owes, sentTo_apart fun ni hni heq => ?_, Multiset.coe_nil, add_zero]
          exact hother ((htasks ni (hout ni hni)).2.symm.trans heq.2)
      · next hc =>
        rw [Prog.obeys_pure]
        refine Arriving.gains_eq_owes htasks ?_ fun hf => ?_
        · simp [List.flatMap_map, NodeInfo.new, NodeInfo.instances]
        · rw [Compiled.fans_edge he] at hf
          simpa [hf, Bool.eq_false_of_not_eq_true hc] using hb

theorem batchWalk_arrives (hcond : c.isCondition node = false) {es : List SuccEdge}
    (hes : ∀ e ∈ es, e ∈ c.edgesFor t.info.id) (hheld : l.held = []) :
    (Threads.batchWalk c t g cfg es).Obeys (arrivalDiscipline c cfg slot node gen)
      (fun sched l' => l' = l.owes slot node sched) l := by
  induction es generalizing l with
  | nil => exact Arriving.owes_nil.symm
  | cons e es ih =>
    refine (batchEdge_arrives hgen hplain hcond (hes e List.mem_cons_self) hheld).bind ?_
    rintro sched l' rfl
    have howed : (l.owes slot node sched).held = [] := hheld
    refine (ih (fun e' he' => hes e' (List.mem_cons_of_mem _ he')) howed).bind ?_
    rintro rest l' rfl
    exact (Arriving.owes_append sched rest).symm

end Edges

section Jobs

variable {c : Compiled} {slot node : ℕ} {gen : UInt32} {l : Arriving}

/-- Owed tasks go out one by one. -/
theorem sendToScheduler_arrives {cfg : Config} {out : List (Option Ticket × NodeInfo)}
    (hout : ∀ p ∈ out, p.1.isSome = true) :
    (Threads.sendToScheduler out).Obeys (arrivalDiscipline c cfg slot node gen)
      (fun _ l' => l' = l) (l.owes slot node (out.map (·.2))) := by
  induction out with
  | nil => exact Arriving.owes_nil
  | cons p out ih =>
    obtain ⟨cause, ni⟩ := p
    obtain ⟨t, rfl⟩ := Option.isSome_iff_exists.mp (hout _ List.mem_cons_self)
    have hsplit : (l.owes slot node (((some t, ni) :: out).map (·.2))).outgoing =
        (sentTo slot node [ni] : Multiset ℕ) + (l.owes slot node (out.map (·.2))).outgoing := by
      simp only [List.map_cons, Arriving.owes]
      rw [sentTo_cons, ← Multiset.coe_add, add_left_comm]
    have hspent : (⟨l.held, (l.owes slot node (((some t, ni) :: out).map (·.2))).outgoing -
        (sentTo slot node [ni] : Multiset ℕ)⟩ : Arriving) = l.owes slot node (out.map (·.2)) := by
      rw [hsplit, add_tsub_cancel_left]
      rfl
    refine arrives_still trivial (fun _ => rfl) fun st _ => Prog.Obeys.call_bind ?_ fun _ _ => ?_
    · show (sentTo slot node [(Ticket.stamped ni st).info] : Multiset ℕ) ≤ _
      rw [sentTo_stamped, hsplit]
      exact Multiset.le_add_right _ _
    · show (Threads.sendToScheduler out).Obeys _ _ (⟨l.held, _ -
        (sentTo slot node [(Ticket.stamped ni st).info] : Multiset ℕ)⟩ : Arriving)
      rw [sentTo_stamped, hspent]
      exact ih fun p hp => hout p (List.mem_cons_of_mem _ hp)

variable (hplain : (c.entry node).isCondition = false)

include hplain

/-- A worker is left with its inline continuation. -/
theorem workerResolveSuccessors_arrives {cfg : Config} (t : Ticket) :
    (Threads.workerResolveSuccessors c cfg t).Obeys (arrivalDiscipline c cfg slot node gen)
      (fun inline l' => l' = Arriving.idle.owes slot node (inline.toList.map Ticket.info)) .idle := by
  refine arrives_still trivial (fun _ => rfl) fun _ _ =>
    arrives_still trivial (fun _ => rfl) fun current _ => ?_
  split
  · exact Prog.Obeys.call_bind trivial fun _ _ => Prog.Obeys.call_bind trivial fun _ _ =>
      Arriving.owes_nil.symm
  refine arrives_still trivial (fun _ => rfl) fun _ _ =>
    arrives_still trivial (fun _ => rfl) fun st hst => ?_
  have hgen : t.slot = slot → st.gen = gen := hst
  refine (workerWalk_arrives hgen hplain (fun e he => he) rfl).bind ?_
  rintro sched l rfl
  have hsplit := sched_split sched cfg.inlineContinuation
  have howed : Arriving.idle.owes slot node sched =
      (Arriving.idle.owes slot node
        (if cfg.inlineContinuation then sched.getLast? else none).toList).owes slot node
          (if cfg.inlineContinuation then sched.dropLast else sched) := by
    rw [← Arriving.owes_comm, ← hsplit]
  rw [howed]
  simp only
  generalize (if cfg.inlineContinuation then sched.getLast? else none) = inline
  generalize (if cfg.inlineContinuation then sched.dropLast else sched) = rest
  have hreserve : ∀ l : Arriving, (Threads.reserveInline t st inline).Obeys
      (arrivalDiscipline c cfg slot node gen) (fun _ l' => l' = l) l := by
    intro l
    cases inline with
    | none => exact rfl
    | some ni => exact Prog.Obeys.call_bind trivial fun _ _ => rfl
  refine (hreserve _).bind ?_
  rintro _ l rfl
  have hrest : (rest.map fun ni => (some t, ni)).map (·.2) = rest := by
    rw [List.map_map]
    exact List.map_id rest
  have hsent := @sendToScheduler_arrives c slot node gen
    (Arriving.idle.owes slot node inline.toList) cfg (rest.map (some t, ·)) fun p hp => by
      obtain ⟨ni, -, rfl⟩ := List.mem_map.mp hp
      rfl
  rw [hrest] at hsent
  refine hsent.bind ?_
  rintro _ l rfl
  refine arrives_still trivial (fun _ => rfl) fun _ _ =>
    arrives_still trivial (fun _ => rfl) fun _ _ => ?_
  rw [Prog.obeys_pure]
  cases inline with
  | none => rfl
  | some ni =>
    have hinfo : (sentTo slot node [(Ticket.stamped ni st).info] : Multiset ℕ) =
        (sentTo slot node [ni] : Multiset ℕ) := congrArg _ (sentTo_stamped ni st)
    exact congrArg (fun more => (⟨[], 0 + more⟩ : Arriving)) hinfo.symm

theorem processBatchInner_arrives {opts : Options} (hcond : c.isCondition node = false)
    {batch : List Ticket} {batchSched : List (Option Ticket × NodeInfo)}
    (hsched : ∀ p ∈ batchSched, p.1.isSome = true) :
    (Threads.processBatchInner c opts batch batchSched).Obeys
      (arrivalDiscipline c opts.config slot node gen) (fun _ l => l = .idle)
        (Arriving.idle.owes slot node (batchSched.map (·.2))) := by
  induction batch generalizing batchSched with
  | nil => exact sendToScheduler_arrives hsched
  | cons t batch ih =>
    refine arrives_still trivial (fun _ => rfl) fun _ _ =>
      arrives_still trivial (fun _ => rfl) fun st hst => ?_
    have hgen : t.slot = slot → st.gen = gen := hst
    refine (batchWalk_arrives hgen hplain hcond (fun e he => he) rfl).bind ?_
    rintro sched l rfl
    have hmap : (batchSched ++ sched.map (some t, ·)).map (·.2) = batchSched.map (·.2) ++ sched := by
      rw [List.map_append, List.map_map]
      exact congrArg (_ ++ ·) (List.map_id sched)
    have hall : ∀ p ∈ batchSched ++ sched.map (some t, ·), p.1.isSome = true := by
      intro p hp
      rcases List.mem_append.mp hp with hp | hp
      · exact hsched p hp
      · obtain ⟨ni, -, rfl⟩ := List.mem_map.mp hp
        rfl
    rw [← Arriving.owes_append, ← hmap]
    simp only
    split
    · refine (sendToScheduler_arrives hall).bind ?_
      rintro _ l rfl
      have hrest := @ih [] fun p hp => (nomatch hp)
      rwa [List.map_nil, Arriving.owes_nil] at hrest
    · exact ih hall

omit hplain in
theorem enterAll_arrives {cfg : Config} (slots : List ℕ) :
    (Threads.enterAll slots).Obeys (arrivalDiscipline c cfg slot node gen) (fun _ l' => l' = l) l := by
  induction slots with
  | nil => exact rfl
  | cons s slots ih => exact Prog.Obeys.call_bind trivial fun _ _ => ih

omit hplain in
theorem leaveAll_arrives {cfg : Config} (slots : List ℕ) :
    (Threads.leaveAll slots).Obeys (arrivalDiscipline c cfg slot node gen) (fun _ l' => l' = l) l := by
  induction slots with
  | nil => exact rfl
  | cons s slots ih =>
    exact Prog.Obeys.call_bind trivial fun _ _ => Prog.Obeys.call_bind trivial fun _ _ => ih

/-- A job begins and ends with nothing of the node. -/
theorem completionJob_arrives (opts : Options) (hcond : c.isCondition node = false)
    (job : CompletionJob) : (job.program c opts).Obeys (arrivalDiscipline c opts.config slot node gen)
      (fun _ l => l = .idle) .idle := by
  cases job with
  | worker t =>
    refine (workerResolveSuccessors_arrives hplain t).bind ?_
    rintro inline l rfl
    cases inline with
    | none => exact Arriving.owes_nil
    | some next =>
      refine Prog.Obeys.call_bind ?_ fun _ _ => ?_
      · exact Multiset.le_add_left _ _
      · show (⟨[], 0 + (sentTo slot node [next.info] : Multiset ℕ) -
          (sentTo slot node [next.info] : Multiset ℕ)⟩ : Arriving) = .idle
        rw [add_tsub_cancel_right]
        rfl
  | batch ts =>
    show (Threads.processBatchResolution c opts ts).Obeys _ _ _
    unfold Threads.processBatchResolution
    split
    · exact rfl
    · refine (enterAll_arrives _).bind ?_
      rintro _ l rfl
      have hinner := @processBatchInner_arrives c slot node gen hplain opts hcond ts [] fun p hp =>
        (nomatch hp)
      rw [List.map_nil, Arriving.owes_nil] at hinner
      refine hinner.bind ?_
      rintro _ l rfl
      exact leaveAll_arrives _

end Jobs

end Tomii
