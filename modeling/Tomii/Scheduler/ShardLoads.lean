import Tomii.Scheduler.WorkOrder

/-! # The shard with the least to do

Where a node task without a group of its own goes, while no other thread interferes. -/
namespace Tomii.Scheduler
set_option autoImplicit false
set_option maxHeartbeats 250000

variable {groups : ℕ} {α : Type} {cfg : Config groups} {run : ℕ → Job α → Outcome α} {choice : ℕ}
  {s s' : Shared groups α} {g best : Fin groups} {gs : List (Fin groups)}

/-- The jobs in the channels of a shard, and those that its workers are counted for. -/
def Shared.load (s : Shared groups α) (g : Fin groups) : ℕ :=
  (s.queues (some g, .high)).length + (s.queues (some g, .normal)).length +
    (s.queues (some g, .low)).length + (s.inFlight g).toNat

/-- `g` is the first of `gs` where `f` is least. -/
def FirstLeast {ι : Type} (f : ι → ℕ) (gs : List ι) (g : ι) : Prop :=
  ∃ before after, gs = before ++ g :: after ∧ (∀ h ∈ before, f g < f h) ∧ ∀ h ∈ after, f g ≤ f h

theorem FirstLeast.le {ι : Type} {f : ι → ℕ} {gs : List ι} {g h : ι} (hleast : FirstLeast f gs g)
    (hh : h ∈ gs) : f g ≤ f h := by
  obtain ⟨before, after, rfl, hbefore, hafter⟩ := hleast
  rcases List.mem_append.mp hh with hh | hh
  · exact (hbefore h hh).le
  · rcases List.mem_cons.mp hh with rfl | hh
    · exact le_refl _
    · exact hafter h hh

/-- A shard with less to do than the best so far takes its place. -/
theorem FirstLeast.skip_head {ι : Type} {f : ι → ℕ} {gs : List ι} {best g r : ι}
    (hless : f g < f best) (h : FirstLeast f (g :: gs) r) : FirstLeast f (best :: g :: gs) r := by
  have hle := h.le List.mem_cons_self
  obtain ⟨before, after, heq, hbefore, hafter⟩ := h
  refine ⟨best :: before, after, congrArg (best :: ·) heq, fun k hk => ?_, hafter⟩
  rcases List.mem_cons.mp hk with rfl | hk
  · exact hle.trans_lt hless
  · exact hbefore k hk

/-- One with no less to do does not. -/
theorem FirstLeast.skip_second {ι : Type} {f : ι → ℕ} {gs : List ι} {best g r : ι}
    (hle : f best ≤ f g) (h : FirstLeast f (best :: gs) r) : FirstLeast f (best :: g :: gs) r := by
  obtain ⟨before, after, heq, hbefore, hafter⟩ := h
  cases before with
  | nil =>
    obtain ⟨rfl, rfl⟩ := List.cons.inj heq
    refine ⟨[], g :: gs, rfl, fun _ hk => absurd hk List.not_mem_nil, fun k hk => ?_⟩
    rcases List.mem_cons.mp hk with rfl | hk
    · exact hle
    · exact hafter k hk
  | cons b before =>
    obtain ⟨rfl, rfl⟩ := List.cons.inj heq
    have hbest := hbefore best List.mem_cons_self
    refine ⟨best :: g :: before, after, rfl, fun k hk => ?_, hafter⟩
    rcases List.mem_cons.mp hk with rfl | hk
    · exact hbest
    · rcases List.mem_cons.mp hk with rfl | hk
      · exact hbest.trans_le hle
      · exact hbefore k (List.mem_cons_of_mem _ hk)

theorem loadOf_ends (g : Fin groups) : (loadOf g : Thread groups α ℕ).Ends (perform run choice)
    (fun r s' => r = s.load g ∧ s' = s) s := ⟨rfl, rfl⟩

/-- Stopping at a shard with nothing to do loses nothing. -/
theorem leastLoaded_ends (gs : List (Fin groups)) (best : Fin groups) :
    (leastLoaded best (s.load best) gs : Thread groups α _).Ends (perform run choice)
      (fun r s' => FirstLeast s.load (best :: gs) r ∧ s' = s) s := by
  induction gs generalizing best with
  | nil =>
    exact ⟨⟨[], [], rfl, fun _ hk => absurd hk List.not_mem_nil,
      fun _ hk => absurd hk List.not_mem_nil⟩, rfl⟩
  | cons g gs ih =>
    unfold leastLoaded
    by_cases hzero : s.load best = 0
    · rw [if_pos hzero]
      exact ⟨⟨[], g :: gs, rfl, fun _ hk => absurd hk List.not_mem_nil,
        fun k _ => hzero ▸ Nat.zero_le _⟩, rfl⟩
    · rw [if_neg hzero]
      refine (loadOf_ends g).bind ?_
      rintro load s1 ⟨rfl, rfl⟩
      by_cases hless : s1.load g < s1.load best
      · rw [if_pos hless]
        exact (ih g).mono fun r s' h => ⟨h.1.skip_head hless, h.2⟩
      · rw [if_neg hless]
        exact (ih best).mono fun r s' h => ⟨h.1.skip_second (Nat.le_of_not_lt hless), h.2⟩

/-- All shards from one on. -/
def shardsFrom (start : Fin groups) : List (Fin groups) :=
  (List.range groups).map fun k => shardAt start.pos (start + k)

theorem mem_shardsFrom (start g : Fin groups) : g ∈ shardsFrom start := by
  refine List.mem_map.mpr ⟨(g + groups - start) % groups,
    List.mem_range.mpr (Nat.mod_lt _ start.pos), Fin.ext ?_⟩
  show (start + (g + groups - start) % groups) % groups = g
  rw [Nat.add_mod_mod, show (start : ℕ) + (g + groups - start) = g + groups by omega,
    Nat.add_mod_right, Nat.mod_eq_of_lt g.isLt]

theorem shardsFrom_eq (start : Fin groups) : shardsFrom start =
    start :: (List.range' 1 (groups - 1)).map fun k => shardAt start.pos (start + k) := by
  obtain ⟨n, rfl⟩ : ∃ n, groups = n + 1 := Nat.exists_eq_succ_of_ne_zero start.pos.ne'
  have hself : shardAt start.pos (start + 0) = start := Fin.ext (Nat.mod_eq_of_lt start.isLt)
  rw [shardsFrom, List.range_eq_range', List.range'_succ, List.map_cons, hself]
  rfl

/-- Where the cursor stands. A single shard needs none. -/
def Shared.cursor (s : Shared groups α) (hpos : 0 < groups) : Fin groups :=
  shardAt hpos s.nextShard.toNat

theorem shardFor_ends (hpos : 0 < groups) :
    (shardFor hpos : Thread groups α _).Ends (perform run choice)
      (fun r s' => FirstLeast s.load (shardsFrom (s.cursor hpos)) r ∧
        s' = { s with nextShard := if groups = 1 then s.nextShard else s.nextShard + 1 }) s := by
  unfold shardFor
  by_cases hone : groups = 1
  · rw [if_pos hone]
    subst hone
    have hzero : s.cursor hpos = ⟨0, hpos⟩ := Subsingleton.elim _ _
    refine ⟨⟨[], [], ?_, fun _ hk => absurd hk List.not_mem_nil,
      fun _ hk => absurd hk List.not_mem_nil⟩, ?_⟩
    · rw [hzero]
      rfl
    · rw [if_pos rfl]
  · rw [if_neg hone]
    refine Prog.ends_call_bind.mpr ((loadOf_ends _).bind ?_)
    rintro load s1 ⟨rfl, rfl⟩
    refine (leastLoaded_ends _ _).mono fun r s' h => ?_
    rw [shardsFrom_eq, if_neg hone]
    exact h

/-- A node task without a group of its own goes to the end of a channel of its priority, at the shard
that has least to do; among several, at the first one from the cursor on. -/
theorem spawn_node_least_loaded (hsharded : cfg.sharded = true) {group : ℕ}
    (hdefault : group = 0 ∨ groups ≤ group) (priority : Priority) (body : α) :
    (spawnNode cfg group priority body).Ends (perform run choice) (fun _ s' =>
      ∃ g, (∀ h, s.load g ≤ s.load h) ∧
        FirstLeast s.load (shardsFrom (s.cursor (cfg.groups_pos hsharded))) g ∧
        s'.queues = Function.update s.queues (some g, priority)
          (s.queues (some g, priority) ++ [⟨s.spawned, s.totalSpawned, .node, body⟩]) ∧
        s'.totalSpawned = s.totalSpawned + 1 ∧ s'.pendingTasks = s.pendingTasks + 1) s := by
  have hnot : ¬ (0 < group ∧ group < groups) := by omega
  have hpos := cfg.groups_pos hsharded
  have hroute : ∀ t : Shared groups α,
      (do let shard ← shardFor hpos; pure (some shard) : Thread groups α _).Ends (perform run choice)
        (fun r t' => ∃ g, r = some g ∧ FirstLeast t.load (shardsFrom (t.cursor hpos)) g ∧
          t' = { t with nextShard := if groups = 1 then t.nextShard else t.nextShard + 1 }) t :=
    fun t => (shardFor_ends hpos).bind fun g t' hg => ⟨g, rfl, hg⟩
  unfold spawnNode enqueue
  rw [dif_neg hnot, dif_pos hsharded]
  refine Prog.ends_call_bind.mpr (Prog.ends_call_bind.mpr ((hroute _).bind ?_))
  rintro r t' ⟨g, rfl, hleast, rfl⟩
  exact ⟨g, fun h => hleast.le (mem_shardsFrom _ h), hleast, rfl, rfl, rfl⟩

/-- The cursor stands at shard 0, which has two jobs; shard 1 runs one, shard 2 as well. -/
def threeShards : Config 3 := ⟨true, fun _ => true, 1, fun _ => Nat.zero_lt_succ 2⟩

def unevenShards : Shared 3 ℕ :=
  { ((Shared.fresh true).send (some 0, .low) ⟨0, 0, .node, 5⟩).send (some 0, .high) ⟨1, 1, .boxed, 6⟩
    with inFlight := fun g => if g = 0 then 0 else 1 }

theorem spawn_node_least_loaded_unevenShards :
    (spawnNode threeShards 0 .normal 7).Ends (perform (fun _ _ => ⟨[], false⟩) 0) (fun _ s' =>
      ∃ g, (∀ h, unevenShards.load g ≤ unevenShards.load h) ∧
        FirstLeast unevenShards.load
          (shardsFrom (unevenShards.cursor (threeShards.groups_pos rfl))) g ∧
        s'.queues = Function.update unevenShards.queues (some g, .normal)
          (unevenShards.queues (some g, .normal) ++ [⟨0, 0, .node, 7⟩]) ∧
        s'.totalSpawned = 1 ∧ s'.pendingTasks = 1) unevenShards :=
  @spawn_node_least_loaded 3 ℕ threeShards (fun _ _ => ⟨[], false⟩) 0 unevenShards rfl 0 (.inl rfl)
    .normal 7

end Tomii.Scheduler
