import Tomii.Runtime.Overtaking
import Tomii.Runtime.WholeArrivals

/-! # Dispatch against declared predecessors

Which predecessor instances an instance of a node needs, and in which graphs no order of
completions, whole or in chunks, lets an instance go before one that it needs. -/
namespace Tomii
set_option autoImplicit false
set_option maxHeartbeats 250000

namespace Compiled

variable (c : Compiled)

/-! ## Needed instances -/

/-- `i` is a declared index of a barrier, and in the group of `j` when the barrier is grouped. -/
def DeclaredByBarrier (v : ℕ) (p : Predecessor) (j i : ℕ) : Prop :=
  (i : ℤ) ∈ p.indexes ∧ ∀ gb, p.groupBy = some gb → gb ≠ 0 → ∀ lo, p.indexes.min? = some lo →
    (i - isizeAsUsize lo) / gb = (c.entry v).groupOf j

/-- Instance `j` of `v`, whose task lets the resolver go by index `t`, needs instance `x.2` of
node `x.1`: the resolver reads it for a `$res` or `$dep`, or a barrier declares it. -/
def Needs (v j t : ℕ) (x : ℕ × ℕ) : Prop :=
  x.2 < c.factor x.1 ∧ ∃ a ∈ (c.nodeAt v).args, ∃ p, a.predecessor = some p ∧ p.id = x.1 ∧
    match a.type with
    | .res | .dep => ∃ cells, c.fetchResResults v p j t = some cells ∧ x.2 ∈ cells
    | .barrier => c.DeclaredByBarrier v p j x.2
    | .ref | .value => False

/-- Instance `j` of `v` needs `x` by whatever index the resolver goes. -/
def Declares (v j : ℕ) (x : ℕ × ℕ) : Prop := ∀ t, c.Needs v j t x

/-- A `$res` or `$dep` for which the resolver goes by the index of the completed task. -/
def TrustedRef (v : ℕ) (p : Predecessor) : Prop :=
  c.Trusts v p ∧ ∃ a ∈ (c.nodeAt v).args, (a.type = .res ∨ a.type = .dep) ∧ a.predecessor = some p

variable {c}

/-- The instances needed are declared by the index lists, or go by the completed task. -/
theorem Needs.declared {v j t : ℕ} {x : ℕ × ℕ} (h : c.Needs v j t x) :
    c.Declares v j x ∨ ∃ p, c.TrustedRef v p ∧ x = (p.id, t % c.factor v) := by
  obtain ⟨hlt, a, ha, p, hp, hid, hkind⟩ := h
  have hfetch : (a.type = .res ∨ a.type = .dep) →
      (∃ cells, c.fetchResResults v p j t = some cells ∧ x.2 ∈ cells) →
      (∀ t', ∃ cells, c.fetchResResults v p j t' = some cells ∧ x.2 ∈ cells) ∨
        c.TrustedRef v p ∧ x = (p.id, t % c.factor v) := by
    intro htype hcells
    by_cases htrust : c.Trusts v p
    · right
      obtain ⟨cells, hfetch, hmem⟩ := hcells
      rw [htrust.fetch, Option.some.injEq] at hfetch
      rw [← hfetch, List.mem_singleton] at hmem
      exact ⟨⟨htrust, a, ha, htype, hp⟩, Prod.ext hid.symm hmem⟩
    · left
      intro t'
      rwa [fetch_congr htrust j t' t]
  cases htype : a.type with
  | res =>
    rw [htype] at hkind
    refine (hfetch (.inl htype) hkind).imp (fun hall t' => ?_) fun htrusted => ⟨p, htrusted⟩
    exact ⟨hlt, a, ha, p, hp, hid, by rw [htype]; exact hall t'⟩
  | dep =>
    rw [htype] at hkind
    refine (hfetch (.inr htype) hkind).imp (fun hall t' => ?_) fun htrusted => ⟨p, htrusted⟩
    exact ⟨hlt, a, ha, p, hp, hid, by rw [htype]; exact hall t'⟩
  | barrier =>
    rw [htype] at hkind
    exact .inl fun t' => ⟨hlt, a, ha, p, hp, hid, by rw [htype]; exact hkind⟩
  | ref =>
    rw [htype] at hkind
    exact hkind.elim
  | value =>
    rw [htype] at hkind
    exact hkind.elim

theorem TrustedRef.needs {v : ℕ} {p : Predecessor} (h : c.TrustedRef v p) (j t : ℕ) :
    c.Needs v j t (p.id, t % c.factor v) := by
  obtain ⟨htrust, a, ha, htype, hp⟩ := h
  have hfetch : ∃ cells, c.fetchResResults v p j t = some cells ∧ t % c.factor v ∈ cells :=
    ⟨_, htrust.fetch j t, List.mem_singleton_self _⟩
  obtain ⟨hmany, hlen, hfactor, -⟩ := htrust
  refine ⟨?_, a, ha, p, hp, rfl, ?_⟩
  · rw [hfactor]
    exact Nat.mod_lt t (by omega)
  · cases htype with
    | inl hres => rwa [hres]
    | inr hdep => rwa [hdep]

theorem TrustedRef.mem_predIds {v : ℕ} {p : Predecessor} (h : c.TrustedRef v p) :
    p.id ∈ (c.nodeAt v).predIds := by
  obtain ⟨-, a, ha, -, hp⟩ := h
  exact (c.nodeAt v).mem_predIds.mpr ⟨a, ha, p, hp, rfl⟩

/-! ## Safe runs -/

variable (c)

/-- The index by which the resolver goes when instance `j` of `v`, made ready by step `r`, goes
out: its own in a task of several instances, that of the completed task otherwise. -/
def ReadAt (cfg : Config) (r : Resolution) (v : ℕ) (ready : List ℕ) (j t : ℕ) : Prop :=
  (c.SharesTask cfg r v ready j → t = j) ∧ (¬ c.SharesTask cfg r v ready j → t = r.task.index)

/-- Step `r`, with which the instances `done` have completed, makes no instance of `v` ready
before all that it needs. Where `v` goes out as a whole, its instances are held back, and what
they need by index is due when their tasks are handed out. -/
def SafeStep (cfg : Config) (v : ℕ) (done : List (ℕ × ℕ)) (r : Resolution) (s : SlotState) : Prop :=
  if c.goesOutWhole cfg v then
    (∀ j ∈ c.returned cfg r s v, ∀ x, c.Declares v j x → x ∈ done) ∧
      ∀ task ∈ c.handedOut cfg r s, task.id = v → ∀ j ∈ task.instances,
        ∀ x, c.Needs v j (if 1 < task.bulkCount then j else task.predIndex) x → x ∈ done
  else ∀ j ∈ c.returned cfg r s v, ∀ t, c.ReadAt cfg r v (c.returned cfg r s v) j t →
    ∀ x, c.Needs v j t x → x ∈ done

/-- Every step of every run from a fresh entry of `v` is safe. -/
def DispatchesSafely (cfg : Config) (v : ℕ) : Prop :=
  ∀ (rs : List Resolution) (s : SlotState), c.deps s.cells v = EntryState.initial (c.entry v) →
    c.arrived s.cells v = 0 → (∀ r ∈ rs, r.task.gen = s.cells.slotGen) → c.PredRun v rs →
    ∀ pre r post, rs = pre ++ r :: post →
      c.SafeStep cfg v (completedCells (pre ++ [r])) r (runOps (c.resolve cfg) pre s).2

/-- A worker cuts consecutive ready instances of `v` in chunks. -/
def Coalesces (cfg : Config) (v : ℕ) : Prop :=
  c.goesOutWhole cfg v = false ∧ cfg.coalesceBarriers = true ∧ 0 < cfg.workers

/-- Nothing that an instance of `v` needs can be missing when it goes. What it declares cannot
be bypassed. What the resolver takes by the completed task cannot be overtaken by another
predecessor; where instances share tasks, it cannot be bypassed by those that share. -/
structure Awaits (cfg : Config) (v : ℕ) : Prop where
  declared : ∀ j x, c.Declares v j x → ¬ c.Bypasses v j x
  alone : c.goesOutWhole cfg v = false → ∀ p, c.TrustedRef v p → ∀ j,
    ¬ c.NamedByOther v j p.id ∧
      ∀ q t k, t ≤ k → ¬ c.CountedPast v j p.id (t % c.factor v) q t k
  chunked : c.Coalesces cfg v → ∀ p, c.TrustedRef v p → ∀ j, ¬ c.Bypasses v j (p.id, j)
  whole : c.goesOutWhole cfg v = true → ∀ p, c.TrustedRef v p → ∀ i < c.factor v,
    ∃ j < c.factor v, ¬ c.Bypasses v j (p.id, i)

variable {c}

/-! ## Which tasks are shared -/

theorem goesOutWhole_plain {cfg : Config} {v : ℕ} (h : c.goesOutWhole cfg v = true) :
    c.isCondition v = false := by
  unfold goesOutWhole isFanoutBulk at h
  simp only [Bool.and_eq_true, Bool.not_eq_true'] at h
  exact h.1.1.1.1.1.2

theorem sendsWhole_of_not {cfg : Config} {v : ℕ} (h : c.goesOutWhole cfg v = false)
    (r : Resolution) : c.sendsWhole cfg r v = false := by
  cases r with
  | worker ni => exact h
  | batch eval ni =>
    have heligible : cfg.fanoutBulkEligible (c.edge ni.id v) = false := h
    rw [sendsWhole, heligible, Bool.and_false]

/-- Instances share a task only where a worker coalesces. -/
theorem coalesces_of_shares {cfg : Config} {v : ℕ} (h : c.goesOutWhole cfg v = false)
    {r : Resolution} {ready : List ℕ} {j : ℕ} (hshare : c.SharesTask cfg r v ready j) :
    c.Coalesces cfg v := by
  unfold SharesTask at hshare
  rw [if_neg (by rw [sendsWhole_of_not h]; exact Bool.false_ne_true)] at hshare
  cases r with
  | worker ni => exact ⟨h, hshare.1, hshare.2.1⟩
  | batch eval ni => exact hshare.elim

theorem readAt_alone {cfg : Config} {r : Resolution} {v : ℕ} {ready : List ℕ} {j : ℕ}
    (halone : ¬ c.SharesTask cfg r v ready j) : c.ReadAt cfg r v ready j r.task.index :=
  ⟨fun hshare => absurd hshare halone, fun _ => rfl⟩

theorem exists_readAt (cfg : Config) (r : Resolution) (v : ℕ) (ready : List ℕ) (j : ℕ) :
    ∃ t, c.ReadAt cfg r v ready j t := by
  by_cases hshare : c.SharesTask cfg r v ready j
  · exact ⟨j, fun _ => rfl, fun halone => absurd hshare halone⟩
  · exact ⟨_, readAt_alone hshare⟩

end Compiled

section Safety

theorem SlotState.fresh_arrived (c : Compiled) (total v : ℕ) :
    c.arrived (SlotState.fresh c total).cells v = 0 := by
  have hview := (LazySlot.initial_simulates c.layout).1
  simp only [Compiled.arrived, SlotState.fresh, hview]
  rfl

variable {nodes : List Node} {c : Compiled} (h : BuiltFrom nodes c) {v : ℕ} (cfg : Config)

include h

/-- When tasks of `v` are handed out as a whole, every instance of `v` has become ready. -/
theorem BuiltFrom.whole_ready (hwhole : c.goesOutWhole cfg v = true)
    (hfit : c.factor v < 2 ^ 32) {pre : List Resolution} {r : Resolution} {s : SlotState}
    (hfresh : c.deps s.cells v = EntryState.initial (c.entry v)) (hnone : c.arrived s.cells v = 0)
    (hgen : ∀ r' ∈ pre ++ [r], r'.task.gen = s.cells.slotGen) {task : NodeInfo}
    (htask : task ∈ c.handedOut cfg r (runOps (c.resolve cfg) pre s).2) (hid : task.id = v) {j : ℕ}
    (hj : j < c.factor v) : ∃ pre' r' post', pre ++ [r] = pre' ++ r' :: post' ∧
      j ∈ c.returned cfg r' (runOps (c.resolve cfg) pre' s).2 v := by
  have hpre : ∀ r' ∈ pre, r'.task.gen = s.cells.slotGen :=
    fun r' hr' => hgen r' (List.mem_append_left _ hr')
  have hgenr : r.task.gen = (runOps (c.resolve cfg) pre s).2.cells.slotGen := by
    rw [LazySlot.slotGen, h.run_generation cfg pre s hpre]
    exact hgen r (List.mem_append_right _ (List.mem_singleton_self r))
  have hbefore := h.run_arrives cfg hwhole pre s hpre
  have hfull := (h.resolve_arrives cfg hwhole r hgenr).2 task htask hid
  have hall : (c.readies cfg v (pre ++ [r]) s).flatten =
      (c.readies cfg v pre s).flatten ++ c.returned cfg r (runOps (c.resolve cfg) pre s).2 v := by
    rw [Compiled.readies_append, List.flatten_append]
    simp [Compiled.readies, Compiled.returned]
  have hcalls := h.run_calls cfg (v := v) (pre ++ [r]) s
    (fun _ _ => .inl (Compiled.goesOutWhole_plain hwhole)) hgen
  have hreturns := EntryState.runCalls_returns (c.entry v) (c.runCallsOn v (pre ++ [r]))
  rw [Compiled.runOn, hfresh] at hcalls
  have hsub : (c.readies cfg v (pre ++ [r]) s).flatten ⊆ List.range (c.factor v) := by
    intro i hi
    rw [hcalls] at hi
    exact List.mem_range.mpr (EntryState.runCalls_ready_lt (c.entry v) _ _ hi)
  have hnd : (c.readies cfg v (pre ++ [r]) s).flatten.Nodup := by
    rw [hcalls]
    exact hreturns.nodup
  have hperm := (List.subperm_of_subset hnd hsub).perm_of_length_le (by
    have hfactor : c.edgeFactor v = c.factor v := asU32_toNat_of_lt hfit
    rw [List.length_range, hall, List.length_append]
    omega)
  exact Compiled.exists_step_of_readies cfg (pre ++ [r]) s
    (hperm.mem_iff.mpr (List.mem_range.mpr hj))

variable (hv : v < nodes.length)
  (hsmall : (c.goesOutWhole cfg v = true ∨ ∃ p, c.TrustedRef v p) → c.factor v < 2 ^ 32)

include hv hsmall

theorem BuiltFrom.safe_of_awaits (haw : c.Awaits cfg v) : c.DispatchesSafely cfg v := by
  intro rs s hfresh hnone hgen hrun pre r post heq
  have hsplit : rs = (pre ++ [r]) ++ post := by simp [heq]
  rw [hsplit] at hgen hrun
  have hgen' : ∀ r' ∈ pre ++ [r], r'.task.gen = s.cells.slotGen :=
    fun r' hr' => hgen r' (List.mem_append_left _ hr')
  have hrun' := hrun.before
  -- an instance that has become ready bypassed whatever is still missing
  have hpast : ∀ pre' r' post', pre ++ [r] = pre' ++ r' :: post' →
      ∀ j ∈ c.returned cfg r' (runOps (c.resolve cfg) pre' s).2 v,
        ∀ x, x ∉ Compiled.completedCells (pre ++ [r]) → c.Bypasses v j x := by
    intro pre' r' post' hcut j hj x hmiss
    rw [hcut] at hgen' hrun' hmiss
    refine h.bypasses_of_ready hfresh hgen' hrun' hj fun hin => hmiss ?_
    have hcells : pre' ++ r' :: post' = (pre' ++ [r']) ++ post' := by simp
    rw [hcells, Compiled.completedCells_append]
    exact List.mem_append_left _ hin
  unfold Compiled.SafeStep
  by_cases hwhole : c.goesOutWhole cfg v = true
  · rw [if_pos hwhole]
    refine ⟨fun j hj x hdecl => ?_, fun task htask hid j hj x hneeds => ?_⟩
    · by_contra hmiss
      exact haw.declared j x hdecl (hpast pre r [] rfl j hj x hmiss)
    · by_contra hmiss
      have hready := fun {j : ℕ} (hlt : j < c.factor v) => h.whole_ready cfg hwhole
        (hsmall (.inl hwhole)) hfresh hnone hgen' htask hid hlt
      cases hneeds.declared with
      | inl hdecl =>
        have hlt := (h.follows htask).instances_lt j hj
        rw [hid] at hlt
        obtain ⟨pre', r', post', hcut, hmem⟩ := hready hlt
        exact haw.declared j x hdecl (hpast pre' r' post' hcut j hmem x hmiss)
      | inr htrusted =>
        obtain ⟨p, hp, hx⟩ := htrusted
        have hmany := hp.1.1
        have hlen := hp.1.2.1
        obtain ⟨j', hlt, hno⟩ := haw.whole hwhole p hp
          ((if 1 < task.bulkCount then j else task.predIndex) % c.factor v)
          (Nat.mod_lt _ (by omega))
        obtain ⟨pre', r', post', hcut, hmem⟩ := hready hlt
        exact hno (hx ▸ hpast pre' r' post' hcut j' hmem x hmiss)
  · rw [if_neg hwhole]
    have hsingly := Bool.eq_false_of_not_eq_true hwhole
    intro j hj t hread x hneeds
    by_contra hmiss
    have hby := hpast pre r [] rfl j hj x hmiss
    cases hneeds.declared with
    | inl hdecl => exact haw.declared j x hdecl hby
    | inr htrusted =>
      obtain ⟨p, hp, hx⟩ := htrusted
      by_cases hshare : c.SharesTask cfg r v
          (c.returned cfg r (runOps (c.resolve cfg) pre s).2 v) j
      · rw [hx, hread.1 hshare, Nat.mod_eq_of_lt hby.lt] at hby
        exact haw.chunked (Compiled.coalesces_of_shares hsingly hshare) p hp j hby
      · obtain ⟨hother, hnever⟩ := haw.alone hsingly p hp j
        obtain ⟨-, -, hfactor, hbar⟩ := hp.1
        rw [hread.2 hshare] at hx
        have hlast : r ∈ pre ++ [r] := List.mem_append_right _ (List.mem_singleton_self r)
        have hfirst : r.task.index ∈ r.task.instances := by
          have := hrun'.chunks r hlast
          rw [NodeInfo.instances, List.mem_range'_1]
          omega
        by_cases hid : r.task.id = p.id
        · -- the completed task is one of the predecessor itself
          have hlt := hrun'.instances_lt hlast (hid ▸ hp.mem_predIds) _ hfirst
          rw [hid, hfactor] at hlt
          rw [hx, Nat.mod_eq_of_lt hlt, ← hid] at hmiss
          exact hmiss (Compiled.mem_completedCells hlast hfirst)
        · rw [hx] at hmiss
          obtain ⟨k, hk, hcounted, -⟩ := Compiled.countedPast_of_ready h hv hbar
            (Compiled.pred_exists h hv hp.mem_predIds) hfactor hother hfresh hgen' hrun' hid hj hmiss
          exact hnever _ _ k hk hcounted

theorem BuiltFrom.awaits_of_safe
    (halone : ∀ p, c.TrustedRef v p → c.goesOutWhole cfg v = false ∧ ¬ c.Coalesces cfg v)
    (hsafe : c.DispatchesSafely cfg v) : c.Awaits cfg v := by
  have hstep : ∀ {j : ℕ} {x : ℕ × ℕ} {pre : List Resolution} {ni : NodeInfo},
      c.TakesWay cfg v j x pre (.worker ni) →
      c.SafeStep cfg v (Compiled.completedCells (pre ++ [.worker ni])) (.worker ni)
        (runOps (c.resolve cfg) pre (SlotState.fresh c 0)).2 := fun {j x pre ni} hway =>
    hsafe (pre ++ [.worker ni]) (SlotState.fresh c 0) (SlotState.fresh_deps c 0 v)
      (SlotState.fresh_arrived c 0 v) hway.gen hway.run pre _ [] rfl
  -- a way on which instance `t` of the predecessor is missing when the resolver goes by it
  have hovertaken : ∀ {p : Predecessor} {j : ℕ} {pre : List Resolution} {ni : NodeInfo},
      c.TrustedRef v p →
      ¬ c.TakesWay cfg v j (p.id, ni.index % c.factor v) pre (.worker ni) := by
    intro p j pre ni hp hway
    obtain ⟨hsingly, hchunks⟩ := halone p hp
    have hdone := hstep hway
    unfold Compiled.SafeStep at hdone
    rw [if_neg (by rw [hsingly]; exact Bool.false_ne_true)] at hdone
    refine hway.misses (hdone j hway.ready _ (Compiled.readAt_alone fun hshare => ?_) _
      (hp.needs j ni.index))
    exact hchunks (Compiled.coalesces_of_shares hsingly hshare)
  refine ⟨fun j x hdecl hby => ?_, fun hsingly p hp j => ?_, fun hchunks p hp => ?_,
    fun hwhole p hp => ?_⟩
  · obtain ⟨pre, ni, hway, -⟩ := h.exists_way cfg hv hby
    have hdone := hstep hway
    unfold Compiled.SafeStep at hdone
    split at hdone
    · exact hway.misses (hdone.1 j hway.ready x hdecl)
    · obtain ⟨t, hread⟩ := c.exists_readAt cfg (.worker ni) v
        (c.returned cfg (.worker ni) (runOps (c.resolve cfg) pre (SlotState.fresh c 0)).2 v) j
      exact hway.misses (hdone j hway.ready t hread x (hdecl t))
  · have hfit := hsmall (.inr ⟨p, hp⟩)
    obtain ⟨hmany, hlen, hfactor, hbar⟩ := hp.1
    have hother : ¬ c.NamedByOther v j p.id := by
      intro hnamed
      obtain ⟨ni, -, -, hway⟩ := Compiled.exists_named_way h hv hbar hfit (by omega) hnamed
      exact hovertaken hp (hway (ni.index % c.factor v) cfg).1
    refine ⟨hother, fun q t k hstart hcounted => ?_⟩
    obtain ⟨pre, ni, -, hindex, hway, -⟩ := Compiled.exists_counting_way h hv hbar
      (Compiled.pred_exists h hv hp.mem_predIds) hfactor hfit hother hstart hcounted cfg
    rw [← hindex] at hway
    exact hovertaken hp hway
  · exact absurd hchunks (halone p hp).2
  · rw [(halone p hp).1] at hwhole
    cases hwhole

end Safety

/-- An instance of factor 2 that reads one root and is ordered after another. -/
def readAndOrdered : List Node :=
  [⟨false, 0, [], 2, none, false⟩, ⟨false, 1, [], 2, none, false⟩,
    ⟨false, 2, [⟨.res, false, some ⟨0, [0], none⟩⟩, ⟨.dep, false, some ⟨1, [0], none⟩⟩], 2, none,
      false⟩]

theorem builtFrom_readAndOrdered : BuiltFrom readAndOrdered (Compiled.ofNodes readAndOrdered) :=
  builtFrom_ofNodes (by decide) (by decide)

/-- Whatever completed, instance 0 of the reader is ordered after instance 0 of the second root. -/
theorem readAndOrdered_declares : (Compiled.ofNodes readAndOrdered).Declares 2 0 (1, 0) := by
  intro t
  have hno : ¬ (Compiled.ofNodes readAndOrdered).Trusts 2 ⟨1, [0], none⟩ :=
    fun htrust => absurd htrust.1 (by decide)
  have hfetch : (Compiled.ofNodes readAndOrdered).fetchResResults 2 ⟨1, [0], none⟩ 0 t = some [0] :=
    (Compiled.fetch_congr hno 0 t 0).trans (by decide +kernel)
  exact ⟨by decide +kernel, ⟨.dep, false, some ⟨1, [0], none⟩⟩, by decide +kernel, ⟨1, [0], none⟩,
    rfl, rfl, [0], hfetch, List.mem_singleton_self 0⟩

end Tomii
