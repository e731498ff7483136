import Tomii.Runtime.ThreadJobs

/-! # Completions stay in their frame

A thread that acts on behalf of a completed task acts in the frame of that task: the slot has
not been bumped since. A thread resets a slot only when everything of the frame is done, and one thread
does so for each frame. -/
namespace Tomii
set_option autoImplicit false
set_option maxHeartbeats 250000

/-! ## Graphs within their words -/

/-- `c` is built from `nodes`, the network node takes no arguments, and the factors fit into the
words that count them. -/
structure Fits (nodes : List Node) (c : Compiled) : Prop where
  built : BuiltFrom nodes c
  network : ∀ v ∈ nodes, v.isNetwork = true → v.args = []
  fanout : ∀ n < nodes.length, c.isFanoutBulk n = true → c.factor n < 2 ^ 32
  totals : ∀ cond, c.totalOf cond < 2 ^ 64

theorem Fits.runnable {nodes : List Node} {c : Compiled} (h : Fits nodes c) : Runnable c where
  successors := by
    intro p s hs
    obtain ⟨hlt, hp⟩ := h.built.mem_successors.mp hs
    exact ⟨h.built.nodes_eq ▸ hlt, List.ne_nil_of_mem hp⟩
  initial := by
    intro n hn
    obtain ⟨hlt, hpreds, hnet⟩ := (h.built.rows.initial n).mp hn
    have hat : c.nodeAt n = c.graph.nodes[n] := by simp [Compiled.nodeAt, hlt]
    exact ⟨hlt, hat ▸ hpreds, (congrArg Node.isNetwork hat).trans hnet⟩
  network := by
    intro n hn
    by_cases hlt : n < c.graph.nodes.length
    · refine ⟨hlt, ?_⟩
      have hat : c.nodeAt n = c.graph.nodes[n] := by simp [Compiled.nodeAt, hlt]
      have hmem : c.nodeAt n ∈ nodes := by
        rw [hat, ← h.built.nodes_eq]
        exact List.getElem_mem hlt
      rw [Node.predIds, h.network _ hmem hn]
      rfl
    · rw [Compiled.isNetworkNode, Compiled.nodeAt_of_le (Nat.not_lt.mp hlt)] at hn
      cases hn
  conditions := fun hcond hnet => h.built.isCondition_of_condition hcond hnet
  fanout := by
    intro n hfan
    by_cases hlt : n < nodes.length
    · exact h.fanout n hlt hfan
    · have hle : c.graph.nodes.length ≤ n := h.built.nodes_eq ▸ Nat.not_lt.mp hlt
      rw [Compiled.factor, Compiled.nodeAt_of_le hle]
      exact Nat.two_pow_pos 32
  totals := h.totals

/-! ## Steps on behalf of a task -/

/-- The completed task on whose behalf a step changes a counter of its slot or dispatches. -/
def Act.cause : Act → Option Ticket
  | .retire t _ => some t
  | .fetchDec t _ _ _ _ => some t
  | .trySend t _ _ _ => some t
  | .arriveFanout t _ _ _ => some t
  | .spawnOne t _ _ => some t
  | .discharge t _ => some t
  | .incrementDependency t _ _ => some t
  | .resetSent t _ _ => some t
  | .enqueue cause _ => cause
  | .reserve t _ => some t
  | _ => none

namespace World

variable (w : World atomics Shared)

/-- No thread is about to act for a task of an earlier frame of its slot. -/
def StaysInFrame : Prop :=
  ∀ thread a t, w.nextAct thread = some a → a.cause = some t →
    t.epoch = (w.shared.slots t.slot).epoch

end World

namespace Phase

variable {c : Compiled} {cfg : Config} {guarded : Prop} {l : Phase}

/-- A step on behalf of a task is not one of a claim. -/
theorem works_of_cause {a : Act} {t : Ticket} (h : l.permits c cfg guarded a)
    (hcause : a.cause = some t) : l.works c cfg guarded a := by
  have hload : ∀ (look : Look) (slot : ℕ) (last : Act), last.cause = none →
      a ≠ look.counter.elim last (Act.load · slot) := by
    rintro look slot last hlast rfl
    cases look with
    | quiet => exact absurd (hlast.symm.trans hcause) (by simp)
    | _ => cases hcause
  unfold permits at h
  split at h
  · exact h
  · subst h
    cases hcause
  · exact absurd h (hload _ _ _ rfl)
  · exact absurd h (hload _ _ _ rfl)
  · rcases h with rfl | ⟨counter, rfl⟩ <;> cases hcause
  all_goals
    subst h
    cases hcause

end Phase

/-- The task of such a step is in hand, or the thread is inside the bracket it was retired in. -/
theorem Phase.works.task {c : Compiled} {cfg : Config} {guarded : Prop} {l : Phase} {a : Act}
    {t : Ticket} (h : l.works c cfg guarded a) (hcause : a.cause = some t) :
    t ∈ l.served ∨ ∃ p ∈ l.hand, p.1 = t := by
  cases a with
  | retire u byWorker =>
    obtain rfl := Option.some.inj hcause
    exact .inr ⟨_, h.1, rfl⟩
  | enqueue cause task =>
    cases cause with
    | none => cases hcause
    | some u =>
      obtain rfl := Option.some.inj hcause
      exact .inl h.1
  | reserve u task =>
    obtain rfl := Option.some.inj hcause
    exact .inl h.1
  | discharge u task =>
    obtain rfl := Option.some.inj hcause
    exact .inl h.1
  | spawnOne u =>
    obtain rfl := Option.some.inj hcause
    exact .inl h.1
  | fetchDec u =>
    obtain rfl := Option.some.inj hcause
    exact .inl h.1.1
  | trySend u =>
    obtain rfl := Option.some.inj hcause
    exact .inl h.1.1
  | arriveFanout u =>
    obtain rfl := Option.some.inj hcause
    exact .inl h.1.1
  | incrementDependency u =>
    obtain rfl := Option.some.inj hcause
    exact .inl h.1.1
  | resetSent u =>
    obtain rfl := Option.some.inj hcause
    exact .inl h.1.1
  | _ => cases hcause

section Runs

variable {nodes : List Node} {c : Compiled} {opts : Options} {threads : UInt64}
  {w : World atomics Shared}

/-- While sources enter once in a generation and no failed condition releases an instance again, nobody
counts, dispatches or discharges for a task whose frame is over. -/
theorem completions_stay_in_frame (hfits : Fits nodes c)
    (hreach : (runtimeMachine c opts).Reaches (Orderly c False False) (World.initial c threads) w) :
    w.StaysInFrame := by
  intro thread a t hnext hcause
  obtain ⟨ls, hinv, hfol⟩ := runtime_reached hfits.runnable hreach
  obtain ⟨pre, l, post, rfl, hpermits⟩ := hfol.permits hnext
  have hl : PhaseTickets c w.shared l := hinv.tickets.phases l (by simp)
  rcases (Phase.works_of_cause hpermits hcause).task hcause with hserved | ⟨p, hp, rfl⟩
  · exact (hl.served t hserved).2.1
  · exact (hl.hand p hp).epoch

end Runs

/-! ## A frame that ends early -/

/-- Two sources of two instances, and a node with a condition that reads both one to one. -/
def pairedSources : List Node :=
  [⟨false, 0, [], 2, none, false⟩, ⟨false, 1, [], 2, none, false⟩,
    ⟨false, 2, [⟨.res, false, some ⟨0, [0], none⟩⟩, ⟨.res, false, some ⟨1, [0], none⟩⟩], 2, none,
      true⟩]

def pairedGraph : Compiled := .ofNodes pairedSources

theorem fits_pairedSources : Fits pairedSources pairedGraph where
  built := builtFrom_ofNodes (by decide) (by decide)
  network := by decide
  fanout := by decide +kernel
  totals := by decide +kernel

def twoWorkers : Options := ⟨⟨2, true, false, false⟩, 8, 8⟩

/-- `n` steps of a thread, whose choices are all the first. -/
def stepsOf (thread n : ℕ) : List (Move Job) := List.replicate n (.step thread 0)

/-- The four instances of the sources run and wait for resolution. -/
def sourcesRun : List (Move Job) :=
  .begin 0 (.restart 0) :: stepsOf 0 1 ++ .begin 0 (.spawnInitial [0]) :: stepsOf 0 8 ++
    (List.replicate 4 (.begin 1 .work :: stepsOf 1 5)).flatten

/-- One batch resolves them. The condition fails for the first instance after each of its
predecessors, and holds for the second one, which is queued. -/
def dischargedTwice : List (Move Job) :=
  sourcesRun ++ .begin 0 .drain :: stepsOf 0 21 ++ .step 0 1 :: stepsOf 0 19

/-- The condition holds for both instances. -/
def passedBoth : List (Move Job) :=
  sourcesRun ++ .begin 0 .drain :: stepsOf 0 12 ++ .step 0 1 :: stepsOf 0 6 ++
    .step 0 1 :: stepsOf 0 13

/-- A resolution thread claims the frame of `dischargedTwice`. -/
def claimedEarly : List (Move Job) := dischargedTwice ++ .begin 0 (.check [0]) :: stepsOf 0 8

/-- A worker is past the check of its generation before the reset begins. -/
def resetEarly : List (Move Job) := claimedEarly ++ .begin 1 .work :: stepsOf 1 6 ++ stepsOf 0 1

theorem completions_stay_in_frame_passedBoth : ∃ w : World atomics Shared,
    (runtimeMachine pairedGraph twoWorkers).fireAllowed (Orderly pairedGraph False False)
        (passedBoth ++ .begin 1 .work :: stepsOf 1 6) (World.initial pairedGraph 2) = some w ∧
      (w.nextAct 1).isSome = true ∧ w.StaysInFrame := by
  have hrun : ((runtimeMachine pairedGraph twoWorkers).fireAllowed (Orderly pairedGraph False False)
      (passedBoth ++ .begin 1 .work :: stepsOf 1 6) (World.initial pairedGraph 2)).any
        (fun w => (w.nextAct 1).isSome) = true := by
    decide +kernel
  obtain ⟨w, hw, hnext⟩ := (Option.any_eq_true _ _).mp hrun
  exact ⟨w, hw, hnext, completions_stay_in_frame fits_pairedSources
    (Machine.reaches_of_fireAllowed hw)⟩

theorem completion_acts_in_next_frame :
    ¬ ∀ (nodes : List Node) (c : Compiled) (opts : Options) (threads : UInt64)
        (w : World atomics Shared), Fits nodes c →
      (runtimeMachine c opts).Reaches (fun σ _ a => SourcesOnce c σ a) (World.initial c threads) w →
        w.StaysInFrame := by
  intro h
  have hrun : ((runtimeMachine pairedGraph twoWorkers).fireAllowed
      (fun σ _ a => SourcesOnce pairedGraph σ a) resetEarly (World.initial pairedGraph 2)).any
        (fun w => (w.nextAct 1).any fun a => a.cause.any fun t =>
          t.epoch ≠ (w.shared.slots t.slot).epoch) = true := by
    decide +kernel
  obtain ⟨w, hw, hlate⟩ := (Option.any_eq_true _ _).mp hrun
  obtain ⟨a, ha, hcause⟩ := (Option.any_eq_true _ _).mp hlate
  obtain ⟨t, ht, hepoch⟩ := (Option.any_eq_true _ _).mp hcause
  have hstays := h _ _ twoWorkers 2 w fits_pairedSources (Machine.reaches_of_fireAllowed hw)
  exact of_decide_eq_true hepoch (hstays 1 a t ha ht)

end Tomii
