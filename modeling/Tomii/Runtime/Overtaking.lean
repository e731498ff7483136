import Tomii.Runtime.ArgResolution
import Tomii.Runtime.Bypasses
import Tomii.Runtime.CountingRouting

/-! # Cells that the trigger decides

A `$res` with one index for each instance, on a predecessor of equal factor and without a
barrier, is fetched by the index of the completion that made the instance ready. That cell is
there when the completion is one of the predecessor itself; another predecessor may overtake
it. -/
namespace Tomii
set_option autoImplicit false
set_option maxHeartbeats 250000

namespace Compiled

variable (c : Compiled)

/-! ## The index that is trusted -/

/-- `fetch_res_results` goes by the triggering index for `p`. -/
def Trusts (v : ℕ) (p : Predecessor) : Prop :=
  1 < p.indexes.length ∧ p.indexes.length = c.factor v ∧ c.factor p.id = c.factor v ∧
    (c.nodeAt v).hasBarrier = false

instance (v : ℕ) (p : Predecessor) : Decidable (c.Trusts v p) := inferInstanceAs (Decidable (_ ∧ _))

variable {c}

theorem Trusts.fetch {v : ℕ} {p : Predecessor} (h : c.Trusts v p) (j t : ℕ) :
    c.fetchResResults v p j t = some [t % c.factor v] := by
  obtain ⟨hmany, hlen, hfactor, hbar⟩ := h
  have hpos : ¬ c.factor v = 0 := by omega
  unfold fetchResResults
  split
  · next hnil =>
    rw [hnil] at hmany
    simp at hmany
  · next hone =>
    rw [hone] at hmany
    simp at hmany
  · rw [if_pos hlen, perInstanceDepIdx, if_pos ⟨hfactor, hbar⟩, hfactor, if_neg hpos]
    rfl

/-- Any other reference is fetched by the index list alone. -/
theorem fetch_congr {v : ℕ} {p : Predecessor} (h : ¬ c.Trusts v p) (j t t' : ℕ) :
    c.fetchResResults v p j t = c.fetchResResults v p j t' := by
  unfold fetchResResults
  split
  · rfl
  · rfl
  · next hnil hone =>
    by_cases hlen : p.indexes.length = c.factor v
    · have hmany : 1 < p.indexes.length := by
        match hindexes : p.indexes with
        | [] => exact absurd hindexes hnil
        | [d] => exact absurd hindexes (hone d)
        | _ :: _ :: _ => simp
      have hno : ¬ (c.factor p.id = c.factor v ∧ (c.nodeAt v).hasBarrier = false) :=
        fun htrust => h ⟨hmany, hlen, htrust.1, htrust.2⟩
      rw [if_pos hlen, if_pos hlen, perInstanceDepIdx, perInstanceDepIdx, if_neg hno, if_neg hno]
    · rw [if_neg hlen, if_neg hlen]

/-! ## Edges into a node without a barrier -/

theorem predGroup_none {v : ℕ} (hbar : (c.nodeAt v).hasBarrier = false) (p i : ℕ) :
    (c.edge p v).predGroup i = none := if_pos (edge_ungrouped hbar p)

theorem drawsOn_eq {v : ℕ} (hbar : (c.nodeAt v).hasBarrier = false) (g : ℕ) (y : ℕ × ℕ) :
    c.drawsOn v g y = (c.edge y.1 v).passesFilter y.2 := by
  simp [drawsOn, predGroup_none hbar]

/-- A 1:1 edge between equal factors has no window. -/
theorem filterBounds_of_equal {p v : ℕ} (hp : p < c.graph.nodes.length)
    (hfactor : c.factor p = c.factor v) (h11 : (c.edge p v).hasOneToOne = true) :
    (c.edge p v).filterBounds = none := by
  have hplace : c.graph.factorOf p = (c.nodeAt v).factor := (c.factor_eq p hp).symm.trans hfactor
  have hnone : (c.graph.route c.range1to1Enabled (c.nodeAt v) p).filter = none := by
    have hoffset : (c.graph.route c.range1to1Enabled (c.nodeAt v) p).oneToOneOffset.isSome = true := h11
    unfold Graph.route at hoffset ⊢
    split at hoffset
    · cases hoffset
    · split at hoffset
      · cases hoffset
      · next arg first rest hargs =>
        dsimp only
        split at hoffset
        · next hsame =>
          rw [if_pos hsame]
          simp only [Graph.routeSingle] at hoffset ⊢
          split at hoffset
          · next hcond =>
            obtain ⟨-, hgroup, hshape, hmany⟩ := hcond
            unfold Predecessor.indexFilter
            split
            · dsimp only
              rw [if_neg]
              intro hfilter
              rw [hgroup] at hfilter
              cases hfilter with
              | inl hbad => cases hbad
              | inr hrange =>
                rw [hplace] at hrange hshape
                cases hshape with
                | inl hsingle => omega
                | inr hcontiguous => omega
            · rfl
          · cases hoffset
        · split at hoffset <;> cases hoffset
  unfold SuccEdge.filterBounds
  rw [if_pos]
  simp [edge, SuccEdge.ofRoute, hnone]

theorem oneToOneSuccIdx_eq {p v : ℕ} (h11 : (c.edge p v).hasOneToOne = true)
    (hsmall : c.factor v < 2 ^ 32) (i : ℕ) : (c.edge p v).oneToOneSuccIdx i =
      some ((i - (c.edge p v).oneToOneOffset) % (c.factor v : ℤ)).toNat := by
  rw [SuccEdge.oneToOneSuccIdx, if_pos h11, edge_succFactor, asU32_toNat_of_lt hsmall]

/-- A 1:1 edge names existing instances. -/
theorem exists_named {p v : ℕ} (h11 : (c.edge p v).hasOneToOne = true)
    (hsmall : c.factor v < 2 ^ 32) (hpos : 0 < c.factor v) (i : ℕ) :
    ∃ j < c.factor v, (c.edge p v).oneToOneSuccIdx i = some j := by
  have hlt := Int.emod_lt_of_pos (i - (c.edge p v).oneToOneOffset) (b := (c.factor v : ℤ)) (by omega)
  have hnn := Int.emod_nonneg (i - (c.edge p v).oneToOneOffset) (b := (c.factor v : ℤ)) (by omega)
  exact ⟨_, by omega, oneToOneSuccIdx_eq h11 hsmall i⟩

/-- Between equal factors it names each of them once. -/
theorem oneToOneSuccIdx_inj {p v : ℕ} (hsmall : c.factor v < 2 ^ 32) {i k j : ℕ}
    (hi : i < c.factor v) (hk : k < c.factor v) (hij : (c.edge p v).oneToOneSuccIdx i = some j)
    (hkj : (c.edge p v).oneToOneSuccIdx k = some j) : i = k := by
  have h11 : (c.edge p v).hasOneToOne = true := by
    by_contra hno
    rw [SuccEdge.oneToOneSuccIdx, if_neg hno] at hij
    cases hij
  rw [oneToOneSuccIdx_eq h11 hsmall, Option.some.injEq] at hij hkj
  have hi0 := Int.emod_nonneg (i - (c.edge p v).oneToOneOffset) (b := (c.factor v : ℤ)) (by omega)
  have hk0 := Int.emod_nonneg (k - (c.edge p v).oneToOneOffset) (b := (c.factor v : ℤ)) (by omega)
  have heq : (i - (c.edge p v).oneToOneOffset) % (c.factor v : ℤ) =
      (k - (c.edge p v).oneToOneOffset) % (c.factor v : ℤ) := by omega
  have hdvd := Int.dvd_of_emod_eq_zero (Int.emod_eq_emod_iff_emod_sub_eq_zero.mp heq)
  have hzero := Int.eq_zero_of_dvd_of_natAbs_lt_natAbs hdvd (by omega)
  omega

/-! ## Draws that keep an instance back -/

variable (c)

/-- `y` can be drawn while `x` is missing without `j` going by it: it does not name `j`, or it
can complete in one task with a neighbour. -/
def Silent (v j : ℕ) (x y : ℕ × ℕ) : Prop :=
  y ≠ x ∧ (c.edge y.1 v).passesFilter y.2 = true ∧
    ((c.edge y.1 v).oneToOneSuccIdx y.2 ≠ some j ∨
      ∃ z ∈ c.predCells v, z ≠ x ∧ z.1 = y.1 ∧ (z.2 = y.2 + 1 ∨ y.2 = z.2 + 1))

instance (v j : ℕ) (x y : ℕ × ℕ) : Decidable (c.Silent v j x y) :=
  inferInstanceAs (Decidable (_ ∧ _ ∧ (_ ∨ _)))

/-- Decrements that the group of `j` can receive while `x` is missing and `j` is kept back. -/
def drawnSilently (v j : ℕ) (x : ℕ × ℕ) : ℕ := (c.predCells v).countP fun y => c.Silent v j x y

/-- An instance of another predecessor than `p` names `j` on a 1:1 edge. -/
def NamedByOther (v j p : ℕ) : Prop :=
  ∃ y ∈ c.predCells v, y.1 ≠ p ∧ (c.edge y.1 v).passesFilter y.2 = true ∧
    (c.edge y.1 v).oneToOneSuccIdx y.2 = some j

/-- A task of `q` that starts at its instance `t` and covers instance `k` can make a call that
names no instance and lets `j` go, before instance `i` of `p` has completed. -/
def CountedPast (v j p i q t k : ℕ) : Prop :=
  q ∈ (c.nodeAt v).predIds ∧ q ≠ p ∧ k < c.factor q ∧ (c.edge q v).passesFilter k = true ∧
    ((c.edge q v).hasOneToOne = false ∨
      (c.edge q v).filterBounds = none ∧ t + 1 < c.factor q) ∧
    ∃ g < (c.entry v).numGroups, j ∈ (c.entry v).groupRange g ∧
      (c.entry v).depsPerGroup.toNat ≤ c.drawnSilently v j (p, i) +
        (c.entry v).thresholdForInstanceInGroup (j - g * (c.entry v).groupSize)

variable {c}

end Compiled

namespace EntryState

variable {sh : EntryShape}

/-! ## Calls that do not name an instance -/

theorem groupOf_of_mem {g j : ℕ} (hg : g < sh.numGroups) (hj : j ∈ sh.groupRange g) :
    sh.groupOf j = g := by
  have hrange := (sh.mem_groupRange hg).mp hj
  have hdiv : j / sh.groupSize = g := Nat.div_eq_of_lt_le hrange.1 hrange.2
  rw [EntryShape.groupOf, hdiv]
  omega

/-- What calls that do not name `j` return of it, the counter of its group pays for. -/
theorem paid_of_ready (hb : sh.hasBarrier = false) {g j : ℕ} (hg : g < sh.numGroups)
    (hj : j ∈ sh.groupRange g) (calls : List DepCall) (hno : ∀ d ∈ calls, d.specific ≠ some j)
    (x : EntryState) (hready : j ∈ (runCalls (call sh) calls x).1) :
    x.remaining g ≤ sh.takenBy calls g +
      sh.thresholdForInstanceInGroup (j - g * sh.groupSize) := by
  induction calls generalizing x with
  | nil => cases hready
  | cons d calls ih =>
    rw [runCalls_cons, List.mem_append] at hready
    rw [EntryShape.takenBy_cons]
    cases hready with
    | inl hfirst =>
      obtain ⟨-, g', hhit, hcand⟩ := ((call_effect sh d x).mem_ready j).mp hfirst
      have hd := hno d List.mem_cons_self
      unfold EntryShape.candidates at hcand
      rw [if_neg (by simp [hb])] at hcand
      cases hspec : d.specific with
      | some i =>
        simp only [hspec] at hcand
        split at hcand
        · rw [List.mem_singleton] at hcand
          exact absurd (hcand ▸ hspec) hd
        · cases hcand
      | none =>
        simp only [hspec, List.mem_filter, decide_eq_true_eq] at hcand
        have hsame := sh.groupRange_disjoint hhit.1 hg hcand.1 hj
        subst hsame
        rw [EntryShape.taken, if_pos hhit]
        omega
    | inr hrest =>
      have hpaid := ih (fun e he => hno e (List.mem_cons_of_mem _ he)) _ hrest
      rw [call_remaining] at hpaid
      omega

/-- Calls that do not name `j` return it by a call on its group that names no instance. -/
theorem unnamed_of_ready (hb : sh.hasBarrier = false) {j : ℕ} (calls : List DepCall)
    (hno : ∀ d ∈ calls, d.specific ≠ some j) (x : EntryState)
    (hready : j ∈ (runCalls (call sh) calls x).1) :
    ∃ d ∈ calls, d.specific = none ∧ ∃ g, sh.Hits d g ∧ j ∈ sh.groupRange g := by
  induction calls generalizing x with
  | nil => cases hready
  | cons d calls ih =>
    rw [runCalls_cons, List.mem_append] at hready
    cases hready with
    | inl hfirst =>
      obtain ⟨-, g, hhit, hcand⟩ := ((call_effect sh d x).mem_ready j).mp hfirst
      have hd := hno d List.mem_cons_self
      unfold EntryShape.candidates at hcand
      rw [if_neg (by simp [hb])] at hcand
      cases hspec : d.specific with
      | some i =>
        simp only [hspec] at hcand
        split at hcand
        · rw [List.mem_singleton] at hcand
          exact absurd (hcand ▸ hspec) hd
        · cases hcand
      | none =>
        simp only [hspec, List.mem_filter] at hcand
        exact ⟨d, List.mem_cons_self, hspec, g, hhit, hcand.1⟩
    | inr hrest =>
      obtain ⟨e, he, hrest⟩ := ih (fun e he => hno e (List.mem_cons_of_mem _ he)) _ hrest
      exact ⟨e, List.mem_cons_of_mem _ he, hrest⟩

/-- A flag that is set stays set, and its instance is not returned. -/
theorem sent_stays (hf : sh.flagged = true) {j : ℕ} (calls : List DepCall) (x : EntryState)
    (hsent : x.sent j = true) : (runCalls (call sh) calls x).2.sent j = true ∧
      j ∉ (runCalls (call sh) calls x).1 := by
  induction calls generalizing x with
  | nil => exact ⟨hsent, List.not_mem_nil⟩
  | cons d calls ih =>
    have heff := call_effect sh d x
    obtain ⟨hlast, hno⟩ := ih (call sh d x).2 ((heff.sent_iff j).mpr (.inl hsent))
    rw [runCalls_cons, List.mem_append, not_or]
    refine ⟨hlast, fun hfirst => ?_, hno⟩
    have hclear := ((heff.mem_ready j).mp hfirst).1 hf
    rw [hsent] at hclear
    cases hclear

/-- A call that names `j` sets its flag. -/
theorem sent_of_named (hb : sh.hasBarrier = false) {d : DepCall} {j : ℕ}
    (hd : d.specific = some j) (hlt : j < sh.factor) {g : ℕ} (hhit : sh.Hits d g) (x : EntryState) :
    (call sh d x).2.sent j = true := by
  rw [(call_effect sh d x).sent_iff]
  refine .inr ⟨by simp [EntryShape.flagged, hb], g, hhit, ?_⟩
  unfold EntryShape.candidates
  rw [if_neg (by simp [hb])]
  simp [hd, hlt]

/-- `j` is out, or its counter and the silent draws `drawn` still cover the initial value. -/
def Covered (sh : EntryShape) (g j drawn : ℕ) (x : EntryState) : Prop :=
  x.sent j = true ∨ sh.depsPerGroup.toNat ≤ x.remaining g + drawn

theorem Covered.mono {g j drawn drawn' : ℕ} {x : EntryState} (h : Covered sh g j drawn x)
    (hle : drawn ≤ drawn') : Covered sh g j drawn' x := by
  refine h.imp_right fun h => ?_
  omega

/-- Conditions that fail take a flag back for a raised counter. -/
theorem Covered.raise {g j drawn : ℕ} {ready : List ℕ} {x y : EntryState}
    (h : Covered sh g j drawn x) (hraise : RaisedBy sh ready x y) (hgroup : sh.groupOf j = g)
    (hback : j ∈ ready → sh.depsPerGroup.toNat ≤ x.remaining g + 1 + drawn) :
    Covered sh g j drawn y := by
  have hmore := hraise.remaining g
  cases hraise.sent j with
  | inl hsame =>
    refine h.imp (fun hsent => hsame.trans hsent) fun hle => ?_
    omega
  | inr hreset =>
    right
    have hle := hback hreset.1
    have hbound := hreset.2
    rw [hgroup] at hbound
    have hword := sh.depsPerGroup.toNat_lt
    omega

end EntryState

namespace Compiled

variable (c : Compiled)

/-! ## A step seen from one instance -/

/-- What a step takes off group `g` of `v` when it does not name `j`. -/
def quietDraws (v j g : ℕ) (r : Resolution) : ℕ :=
  if ∀ d ∈ r.callsOn c v, d.specific ≠ some j then (c.entry v).takenBy (r.callsOn c v) g else 0

variable {c}

theorem callsOn_pred {nodes : List Node} (h : BuiltFrom nodes c) {v : ℕ} {r : Resolution}
    {d : DepCall} (hd : d ∈ r.callsOn c v) : r.task.id ∈ (c.nodeAt v).predIds ∧
      d ∈ (c.edge r.task.id v).calls r.task.index r.task.bulkCount := by
  cases r with
  | worker ni =>
    simp only [Resolution.callsOn] at hd
    split at hd
    · next hv => exact ⟨(h.mem_successors.mp hv).2, hd⟩
    · cases hd
  | batch eval ni =>
    simp only [Resolution.callsOn, batchCalls] at hd
    split at hd
    · next hv =>
      split at hd
      · exact ⟨(h.mem_successors.mp hv).2, hd⟩
      · cases hd
    · cases hd

section Step

variable {nodes : List Node} (h : BuiltFrom nodes c) (cfg : Config) {v p j : ℕ}
  (hp : p < c.graph.nodes.length) (hfactor : c.factor p = c.factor v)
  (hother : ¬ c.NamedByOther v j p)

include h hp hfactor hother

/-- A call that names `j` is the only one of its step, and completes one instance of `p`. -/
theorem named_alone {r : Resolution} (hchunk : 0 < r.task.bulkCount)
    (hexist : r.task.id ∈ (c.nodeAt v).predIds → ∀ i ∈ r.task.instances, i < c.factor r.task.id)
    {d : DepCall} (hd : d ∈ r.callsOn c v) (hspec : d.specific = some j) :
    r.task.id = p ∧ r.callsOn c v = [d] ∧ d.count = 1 := by
  obtain ⟨hpred, hcall⟩ := callsOn_pred h hd
  obtain ⟨k, hk⟩ := exists_fromCell hchunk hcall
  have hid : r.task.id = p := by
    by_contra hne
    exact hother ⟨(r.task.id, k), mem_predCells.mpr ⟨hpred, hexist hpred k hk.mem⟩, hne,
      hk.passes, hk.named j hspec⟩
  have h11 : (c.edge p v).hasOneToOne = true := by
    have hname := hk.named j hspec
    rw [hid] at hname
    by_contra hno
    rw [SuccEdge.oneToOneSuccIdx, if_neg hno] at hname
    cases hname
  have hopen := filterBounds_of_equal hp hfactor h11
  have hcalls : (c.edge r.task.id v).calls r.task.index r.task.bulkCount = [d] := by
    rw [hid] at hcall ⊢
    simp only [SuccEdge.calls, hopen] at hcall ⊢
    rw [List.mem_singleton.mp hcall]
  have hcount : d.count = 1 := by
    rw [hid] at hcall
    simp only [SuccEdge.calls, hopen] at hcall
    rw [List.mem_singleton.mp hcall] at hspec ⊢
    dsimp only at hspec ⊢
    split at hspec
    · cases hspec
    · omega
  refine ⟨hid, ?_, hcount⟩
  rw [Resolution.callsOn_eq] at hd ⊢
  cases he : r.edgeTo c v with
  | none =>
    rw [he] at hd
    cases hd
  | some e =>
    rw [r.edgeTo_eq c v he]
    exact hcalls

variable (hb : (c.entry v).hasBarrier = false) {g : ℕ} (hg : g < (c.entry v).numGroups)
  (hj : j ∈ (c.entry v).groupRange g)

include hb hg hj

/-- A step keeps the account of `j`; when it makes `j` ready without naming it, the account pays
for that. -/
theorem covered_step {r : Resolution} {s : SlotState} (hgen : r.task.gen = s.cells.slotGen)
    (hchunk : 0 < r.task.bulkCount)
    (hexist : r.task.id ∈ (c.nodeAt v).predIds → ∀ i ∈ r.task.instances, i < c.factor r.task.id)
    {drawn : ℕ} (hcov : EntryState.Covered (c.entry v) g j drawn (c.deps s.cells v)) :
    EntryState.Covered (c.entry v) g j (drawn + c.quietDraws v j g r)
        (c.deps (c.resolve cfg r s).2.cells v) ∧
      (c.resolve cfg r s).2.cells.generation = s.cells.generation ∧
      (j ∈ c.returned cfg r s v → (∀ d ∈ r.callsOn c v, d.specific ≠ some j) →
        (c.entry v).depsPerGroup.toNat ≤ drawn + (c.entry v).takenBy (r.callsOn c v) g +
          (c.entry v).thresholdForInstanceInGroup (j - g * (c.entry v).groupSize)) := by
  have hflag : (c.entry v).flagged = true := by simp [EntryShape.flagged, hb]
  have hgroup := EntryState.groupOf_of_mem hg hj
  cases h.resolve_touches cfg r hgen v with
  | inr hskip =>
    obtain ⟨-, hgeneration, hready, hdeps⟩ := hskip
    refine ⟨?_, hgeneration, fun hmem => ?_⟩
    · rw [hdeps]
      exact hcov.mono (Nat.le_add_right _ _)
    · have hnone : c.returned cfg r s v = [] := hready
      rw [hnone] at hmem
      cases hmem
  | inl ht =>
    have hready : c.returned cfg r s v = (c.runOn v (r.callsOn c v) s.cells).1 := ht.ready_eq
    have hstays := EntryState.sent_stays hflag (j := j) (r.callsOn c v) (c.deps s.cells v)
    have hrem := runCalls_remaining (c.entry v) (r.callsOn c v) (c.deps s.cells v) g
    -- the account after the calls, and what a condition that fails may give back
    obtain ⟨hafter, hback⟩ : EntryState.Covered (c.entry v) g j (drawn + c.quietDraws v j g r)
          (c.runOn v (r.callsOn c v) s.cells).2 ∧
        (j ∈ (c.runOn v (r.callsOn c v) s.cells).1 → (c.entry v).depsPerGroup.toNat ≤
          (c.runOn v (r.callsOn c v) s.cells).2.remaining g + 1 +
            (drawn + c.quietDraws v j g r)) := by
      unfold runOn
      cases hcov with
      | inl hsent =>
        obtain ⟨hlast, hno⟩ := hstays hsent
        exact ⟨.inl hlast, fun hmem => absurd hmem hno⟩
      | inr hle =>
        by_cases hquiet : ∀ d ∈ r.callsOn c v, d.specific ≠ some j
        · have hdraws : c.quietDraws v j g r = (c.entry v).takenBy (r.callsOn c v) g :=
            if_pos hquiet
          refine ⟨.inr ?_, fun _ => ?_⟩ <;> omega
        · push Not at hquiet
          obtain ⟨d, hd, hspec⟩ := hquiet
          obtain ⟨-, hcalls, hcount⟩ := named_alone h hp hfactor hother hchunk hexist hd hspec
          have hlt : j < (c.entry v).factor := (c.entry v).groupRange_lt_factor hj
          have hhit := named_hits hd hspec hg
          have htaken : (c.entry v).takenBy (r.callsOn c v) g = 1 := by
            rw [hcalls, EntryShape.takenBy_cons, EntryShape.takenBy_nil, EntryShape.taken,
              if_pos hhit, hcount]
            rfl
          refine ⟨.inl ?_, fun _ => by omega⟩
          rw [hcalls, runCalls_cons, runCalls_nil]
          exact EntryState.sent_of_named hb hspec hlt hhit _
    refine ⟨?_, ht.generation, fun hmem hquiet => ?_⟩
    · cases ht.raised with
      | inl heq =>
        rw [heq]
        exact hafter
      | inr hraise =>
        refine hafter.raise hraise.2 hgroup fun hmem => ?_
        exact hback (ht.ready_eq ▸ hmem)
    · rw [hready] at hmem
      have hpaid := EntryState.paid_of_ready hb hg hj (r.callsOn c v) hquiet _ hmem
      cases hcov with
      | inl hsent => exact absurd hmem (hstays hsent).2
      | inr hle => omega

/-- The account over a run. -/
theorem covered_run (rs : List Resolution) (s : SlotState)
    (hgen : ∀ r ∈ rs, r.task.gen = s.cells.slotGen) (hchunks : ∀ r ∈ rs, 0 < r.task.bulkCount)
    (hexist : ∀ r ∈ rs, r.task.id ∈ (c.nodeAt v).predIds →
      ∀ i ∈ r.task.instances, i < c.factor r.task.id)
    {drawn : ℕ} (hcov : EntryState.Covered (c.entry v) g j drawn (c.deps s.cells v)) :
    EntryState.Covered (c.entry v) g j (drawn + (rs.map (c.quietDraws v j g)).sum)
      (c.deps (runOps (c.resolve cfg) rs s).2.cells v) := by
  induction rs generalizing s drawn with
  | nil => exact hcov
  | cons r rs ih =>
    obtain ⟨hstep, hsame, -⟩ := covered_step h cfg hp hfactor hother hb hg hj
      (hgen r List.mem_cons_self) (hchunks r List.mem_cons_self) (hexist r List.mem_cons_self) hcov
    rw [runOps_cons, List.map_cons, List.sum_cons, ← Nat.add_assoc]
    refine ih (c.resolve cfg r s).2 (fun r' hr' => ?_)
      (fun r' hr' => hchunks r' (List.mem_cons_of_mem _ hr'))
      (fun r' hr' => hexist r' (List.mem_cons_of_mem _ hr')) hstep
    rw [LazySlot.slotGen, hsame]
    exact hgen r' (List.mem_cons_of_mem _ hr')

end Step

/-! ## A run that misses an instance -/

theorem PredRun.instances_lt {v : ℕ} {rs : List Resolution} (hrun : c.PredRun v rs)
    {r : Resolution} (hr : r ∈ rs) (hpred : r.task.id ∈ (c.nodeAt v).predIds) :
    ∀ i ∈ r.task.instances, i < c.factor r.task.id :=
  fun _ hi => hrun.exist _ (mem_completedCells hr hi) hpred

section Missing

variable {nodes : List Node} (h : BuiltFrom nodes c) {v : ℕ} (hv : v < nodes.length) {j : ℕ}
  (hbar : (c.nodeAt v).hasBarrier = false)

include h hv hbar

/-- What a step draws without naming `j`, it draws silently. -/
theorem quietDraws_le {rs : List Resolution} (hrun : c.PredRun v rs) {x : ℕ × ℕ}
    (hx : x ∉ completedCells rs) {r : Resolution} (hr : r ∈ rs) {g : ℕ}
    (hg : g < (c.entry v).numGroups) : c.quietDraws v j g r ≤
      (r.task.instances.map (r.task.id, ·)).countP
        fun y => y.1 ∈ (c.nodeAt v).predIds && c.Silent v j x y := by
  unfold quietDraws
  split
  · next hquiet =>
    refine le_trans (takenBy_callsOn_le h (f := c.drawsOn v g) fun _ =>
      takenBy_calls_le (edge_ungrouped hbar _) _ (hrun.chunks r hr) hg) ?_
    apply List.countP_mono_left
    intro y hy hdraw
    obtain ⟨k, hk, heq⟩ := List.mem_map.mp hy
    subst heq
    rw [Bool.and_eq_true, decide_eq_true_eq, drawsOn_eq hbar] at hdraw
    obtain ⟨hpred, hpass⟩ := hdraw
    have hcell := mem_completedCells hr hk
    have hlt := hrun.instances_lt hr hpred
    refine Bool.and_eq_true_iff.mpr ⟨decide_eq_true hpred, decide_eq_true ⟨?_, hpass, ?_⟩⟩
    · exact fun heq => hx (heq ▸ hcell)
    · by_cases hname : (c.edge r.task.id v).oneToOneSuccIdx k = some j
      · -- a cell that names `j` comes in a task of several, or its call would name `j`
        right
        have hlong : 1 < r.task.bulkCount := by
          by_contra hshort
          have hone : r.task.bulkCount = 1 := by
            have := hrun.chunks r hr
            omega
          have hstart : k = r.task.index := by
            rw [NodeInfo.instances, List.mem_range'_1, hone] at hk
            omega
          subst hstart
          have hmem : v ∈ c.graph.successors r.task.id :=
            h.mem_successors.mpr ⟨hv, hpred⟩
          have hcall : (c.edge r.task.id v).cellCall r.task.index ∈ r.callsOn c v := by
            cases r with
            | worker ni =>
              simp only [Resolution.callsOn, Resolution.task] at hone hpass hmem ⊢
              rw [if_pos hmem, hone, (c.edge ni.id v).calls_single, if_pos hpass]
              exact List.mem_singleton_self _
            | batch eval ni =>
              simp only [Resolution.callsOn, Resolution.task, batchCalls] at hone hpass hmem ⊢
              rw [if_pos hmem, if_pos hpass, hone, (c.edge ni.id v).calls_single, if_pos hpass]
              exact List.mem_singleton_self _
          exact hquiet _ hcall hname
        rw [NodeInfo.instances, List.mem_range'_1] at hk
        by_cases hlast : k + 1 < r.task.index + r.task.bulkCount
        · have hin : k + 1 ∈ r.task.instances := by
            rw [NodeInfo.instances, List.mem_range'_1]
            omega
          exact ⟨(r.task.id, k + 1), mem_predCells.mpr ⟨hpred, hlt _ hin⟩,
            fun heq => hx (heq ▸ mem_completedCells hr hin), rfl, .inl rfl⟩
        · have hin : k - 1 ∈ r.task.instances := by
            rw [NodeInfo.instances, List.mem_range'_1]
            omega
          have hstep : k = k - 1 + 1 := by omega
          exact ⟨(r.task.id, k - 1), mem_predCells.mpr ⟨hpred, hlt _ hin⟩,
            fun heq => hx (heq ▸ mem_completedCells hr hin), rfl, .inr hstep⟩
      · exact .inl hname
  · exact Nat.zero_le _

/-- A run that misses `x` draws no more than all silent instances do. -/
theorem quietDraws_sum_le {rs : List Resolution} (hrun : c.PredRun v rs) {x : ℕ × ℕ}
    (hx : x ∉ completedCells rs) {g : ℕ} (hg : g < (c.entry v).numGroups) :
    (rs.map (c.quietDraws v j g)).sum ≤ c.drawnSilently v j x := by
  refine le_trans ?_ (hrun.countP_le fun y => c.Silent v j x y)
  have hsteps : ∀ r ∈ rs, c.quietDraws v j g r ≤ (r.task.instances.map (r.task.id, ·)).countP
      fun y => y.1 ∈ (c.nodeAt v).predIds && c.Silent v j x y :=
    fun r hr => quietDraws_le h hv hbar hrun hx hr hg
  clear hrun hx
  induction rs with
  | nil => exact Nat.zero_le _
  | cons r rs ih =>
    have hfirst := hsteps r List.mem_cons_self
    have hrest := ih fun r' hr' => hsteps r' (List.mem_cons_of_mem _ hr')
    simp only [completedCells, List.map_cons, List.sum_cons, List.flatMap_cons,
      List.countP_append] at hrest ⊢
    omega

/-- A completion of another predecessor than `p` that makes `j` ready while instance `i` of `p`
is missing has counted past it. -/
theorem countedPast_of_ready {p : ℕ} (hp : p < c.graph.nodes.length)
    (hfactor : c.factor p = c.factor v) (hother : ¬ c.NamedByOther v j p) {cfg : Config}
    {pre : List Resolution} {r : Resolution} {s : SlotState}
    (hfresh : c.deps s.cells v = EntryState.initial (c.entry v))
    (hgen : ∀ r' ∈ pre ++ [r], r'.task.gen = s.cells.slotGen) (hrun : c.PredRun v (pre ++ [r]))
    (hid : r.task.id ≠ p) (hready : j ∈ c.returned cfg r (runOps (c.resolve cfg) pre s).2 v) {i : ℕ}
    (hmiss : (p, i) ∉ completedCells (pre ++ [r])) :
    ∃ k, r.task.index ≤ k ∧ c.CountedPast v j p i r.task.id r.task.index k ∧
      ∀ eval ni, r = .batch eval ni → k = r.task.index := by
  have hb : (c.entry v).hasBarrier = false := hbar
  have hlast : r ∈ pre ++ [r] := List.mem_append_right _ (List.mem_singleton_self r)
  have hchunk := hrun.chunks r hlast
  have hexist := fun r' hr' => hrun.instances_lt (r := r') hr'
  have hquiet : ∀ d ∈ r.callsOn c v, d.specific ≠ some j := fun d hd hspec =>
    hid (named_alone h hp hfactor hother hchunk (hexist r hlast) hd hspec).1
  have hgenr : r.task.gen = (runOps (c.resolve cfg) pre s).2.cells.slotGen := by
    rw [LazySlot.slotGen, (h.run_generation cfg pre s fun r' hr' =>
      hgen r' (List.mem_append_left _ hr'))]
    exact hgen r hlast
  -- the account of `j` up to the step, and at the step
  have haccount : ∀ g < (c.entry v).numGroups, j ∈ (c.entry v).groupRange g →
      (c.entry v).depsPerGroup.toNat ≤ c.drawnSilently v j (p, i) +
        (c.entry v).thresholdForInstanceInGroup (j - g * (c.entry v).groupSize) := by
    intro g hg hj
    have hstart : EntryState.Covered (c.entry v) g j 0 (c.deps s.cells v) := by
      rw [hfresh]
      exact .inr le_rfl
    have hcov := covered_run h cfg hp hfactor hother hb hg hj pre s
      (fun r' hr' => hgen r' (List.mem_append_left _ hr'))
      (fun r' hr' => hrun.chunks r' (List.mem_append_left _ hr'))
      (fun r' hr' => hexist r' (List.mem_append_left _ hr')) hstart
    obtain ⟨-, -, hpaid⟩ := covered_step h cfg hp hfactor hother hb hg hj hgenr hchunk
      (hexist r hlast) hcov
    have htotal := quietDraws_sum_le h hv (j := j) hbar hrun hmiss hg
    rw [List.map_append, List.sum_append, List.map_singleton, List.sum_singleton] at htotal
    have hdraws : c.quietDraws v j g r = (c.entry v).takenBy (r.callsOn c v) g := if_pos hquiet
    have := hpaid hready hquiet
    omega
  obtain ⟨d, hd, hnone, g, hhit, hj⟩ : ∃ d ∈ r.callsOn c v, d.specific = none ∧
      ∃ g, (c.entry v).Hits d g ∧ j ∈ (c.entry v).groupRange g := by
    cases h.resolve_touches cfg r hgenr v with
    | inl ht =>
      have heq : c.returned cfg r (runOps (c.resolve cfg) pre s).2 v =
          (c.runOn v (r.callsOn c v) (runOps (c.resolve cfg) pre s).2.cells).1 := ht.ready_eq
      rw [heq] at hready
      exact EntryState.unnamed_of_ready hb _ hquiet _ hready
    | inr hskip =>
      have heq : c.returned cfg r (runOps (c.resolve cfg) pre s).2 v = [] := hskip.2.ready_eq
      rw [heq] at hready
      cases hready
  obtain ⟨hpred, hcall⟩ := callsOn_pred h hd
  obtain ⟨k, hk⟩ := exists_fromCell hchunk hcall
  have hlt := hexist r hlast hpred
  have hstarts : r.task.index ≤ k := (List.mem_range'_1.mp hk.mem).1
  have hkind : (c.edge r.task.id v).hasOneToOne = false ∨
      (c.edge r.task.id v).filterBounds = none ∧ r.task.index + 1 < c.factor r.task.id := by
    refine (hk.unnamed hnone).imp_right fun hnext => ⟨hnext.1, ?_⟩
    have := hlt (k + 1) hnext.2
    omega
  have hpast : ∀ k', k' ∈ r.task.instances → (c.edge r.task.id v).passesFilter k' = true →
      c.CountedPast v j p i r.task.id r.task.index k' := fun k' hk' hpass =>
    ⟨hpred, hid, hlt k' hk', hpass, hkind, g, hhit.1, hj, haccount g hhit.1 hj⟩
  cases r with
  | worker ni => exact ⟨k, hstarts, hpast k hk.mem hk.passes, fun eval ni' heq => by cases heq⟩
  | batch eval ni =>
    refine ⟨ni.index, le_rfl, hpast ni.index ?_ ?_, fun _ _ _ => rfl⟩
    · rw [NodeInfo.instances, List.mem_range'_1]
      simp only [Resolution.task] at hchunk ⊢
      omega
    · simp only [Resolution.callsOn, batchCalls] at hd
      split at hd
      · split at hd
        · next hpass => exact hpass
        · cases hd
      · cases hd

end Missing

/-! ## Silent runs -/

/-- Workers complete `cells`, one draw on every group for each, and no call names `j`. -/
structure SilentRun (c : Compiled) (v j : ℕ) (gen : UInt32) (cells : List (ℕ × ℕ))
    (rs : List Resolution) : Prop where
  worker : ∀ r ∈ rs, ∃ ni, r = .worker ni
  gen : ∀ r ∈ rs, r.task.gen = gen
  chunks : ∀ r ∈ rs, 0 < r.task.bulkCount
  completes : completedCells rs = cells
  nameless : ∀ d ∈ c.runCallsOn v rs, d.specific ≠ some j
  taken : ∀ g < (c.entry v).numGroups, (c.entry v).takenBy (c.runCallsOn v rs) g = cells.length

theorem SilentRun.append {v j : ℕ} {gen : UInt32} {ys zs : List (ℕ × ℕ)} {rs rs' : List Resolution}
    (h : c.SilentRun v j gen ys rs) (h' : c.SilentRun v j gen zs rs') :
    c.SilentRun v j gen (ys ++ zs) (rs ++ rs') := by
  have hcalls : c.runCallsOn v (rs ++ rs') = c.runCallsOn v rs ++ c.runCallsOn v rs' :=
    List.flatMap_append
  refine ⟨fun r hr => ?_, fun r hr => ?_, fun r hr => ?_, ?_, fun d hd => ?_, fun g hg => ?_⟩
  · exact (List.mem_append.mp hr).elim (h.worker r) (h'.worker r)
  · exact (List.mem_append.mp hr).elim (h.gen r) (h'.gen r)
  · exact (List.mem_append.mp hr).elim (h.chunks r) (h'.chunks r)
  · rw [completedCells_append, h.completes, h'.completes]
  · rw [hcalls] at hd
    exact (List.mem_append.mp hd).elim (h.nameless d) (h'.nameless d)
  · rw [hcalls, EntryShape.takenBy_append, h.taken g hg, h'.taken g hg, List.length_append]

/-- Steps that complete nothing are no steps. -/
theorem SilentRun.eq_nil {v j : ℕ} {gen : UInt32} {rs : List Resolution}
    (h : c.SilentRun v j gen [] rs) : rs = [] := by
  by_contra hne
  obtain ⟨r, hr⟩ := List.exists_mem_of_ne_nil rs hne
  have hfirst : r.task.index ∈ r.task.instances := by
    have := h.chunks r hr
    rw [NodeInfo.instances, List.mem_range'_1]
    omega
  have hcell := mem_completedCells hr hfirst
  rw [h.completes] at hcell
  cases hcell

section Silence

variable {nodes : List Node} (h : BuiltFrom nodes c) {v : ℕ} (hv : v < nodes.length) (gen : UInt32)
  {j : ℕ} (hbar : (c.nodeAt v).hasBarrier = false)

include h hv hbar

theorem silentRun_singles {ys : List (ℕ × ℕ)} (hys : ys ⊆ c.predCells v)
    (hpass : ∀ y ∈ ys, (c.edge y.1 v).passesFilter y.2 = true)
    (hno : ∀ y ∈ ys, (c.edge y.1 v).oneToOneSuccIdx y.2 ≠ some j) :
    c.SilentRun v j gen ys (singleSteps gen ys) := by
  refine ⟨fun r hr => ?_, fun r hr => ?_, singleSteps_chunks gen ys,
    completedCells_singleSteps gen ys, fun d hd => ?_, fun g hg => ?_⟩
  · obtain ⟨y, -, hy⟩ := List.mem_map.mp hr
    exact ⟨_, hy.symm⟩
  · obtain ⟨y, -, hy⟩ := List.mem_map.mp hr
    rw [← hy]
    rfl
  · rw [runCallsOn_singleSteps h hv gen hys, List.mem_flatMap] at hd
    obtain ⟨y, hy, hcall⟩ := hd
    rw [(c.edge y.1 v).calls_single, if_pos (hpass y hy), List.mem_singleton] at hcall
    rw [hcall]
    exact hno y hy
  · rw [takenBy_singleSteps h hv gen hys hg, List.countP_eq_length]
    intro y hy
    rw [drawsOn_eq hbar]
    exact hpass y hy

/-- Two neighbours in one task, on an edge without a window. -/
theorem silentRun_pair {p m : ℕ} (hopen : (c.edge p v).filterBounds = none)
    (hpred : p ∈ (c.nodeAt v).predIds) :
    c.SilentRun v j gen [(p, m), (p, m + 1)] [.worker ⟨p, gen, 0, m, 2, 0⟩] := by
  have hcalls : c.runCallsOn v [.worker ⟨p, gen, 0, m, 2, 0⟩] = [⟨none, 2, none⟩] := by
    simp only [runCallsOn, List.flatMap_singleton, Resolution.callsOn,
      if_pos (h.mem_successors.mpr ⟨hv, hpred⟩),
      (c.edge p v).calls_unfiltered hopen m 2 Nat.one_lt_two, predGroup_none hbar]
  refine ⟨fun r hr => ⟨_, List.mem_singleton.mp hr⟩, fun r hr => ?_, fun r hr => ?_, rfl,
    fun d hd => ?_, fun g hg => ?_⟩
  · rw [List.mem_singleton.mp hr]
    rfl
  · rw [List.mem_singleton.mp hr]
    exact Nat.two_pos
  · rw [hcalls, List.mem_singleton] at hd
    rw [hd]
    exact fun heq => by cases heq
  · rw [hcalls, EntryShape.takenBy_cons, EntryShape.takenBy_nil, EntryShape.taken,
      if_pos ⟨hg, .inl rfl⟩]
    rfl

end Silence

/-- The silent instances outside `ys`. -/
def silentCells (c : Compiled) (v j : ℕ) (x : ℕ × ℕ) (ys : List (ℕ × ℕ)) : List (ℕ × ℕ) :=
  (c.predCells v).filter fun y => decide (c.Silent v j x y) && ys.all fun z => decide (z ≠ y)

theorem all_ne_eq_decide (y : ℕ × ℕ) (ys : List (ℕ × ℕ)) :
    (ys.all fun z => decide (z ≠ y)) = decide (y ∉ ys) := by
  rw [Bool.eq_iff_iff, List.all_eq_true, decide_eq_true_eq]
  constructor
  · intro hall hy
    exact of_decide_eq_true (hall y hy) rfl
  · intro hy z hz
    exact decide_eq_true fun heq => hy (heq ▸ hz)

theorem mem_silentCells {v j : ℕ} {x y : ℕ × ℕ} {ys : List (ℕ × ℕ)} :
    y ∈ c.silentCells v j x ys ↔ y ∈ c.predCells v ∧ c.Silent v j x y ∧ y ∉ ys := by
  rw [silentCells, List.mem_filter, all_ne_eq_decide, ← Bool.decide_and, decide_eq_true_eq]

/-- Only one silent instance can name `j`: one of `p`. -/
theorem named_unique {v j p : ℕ} (hfactor : c.factor p = c.factor v) (hsmall : c.factor v < 2 ^ 32)
    (hother : ¬ c.NamedByOther v j p) {y z : ℕ × ℕ} (hy : y ∈ c.predCells v) (hz : z ∈ c.predCells v)
    (hypass : (c.edge y.1 v).passesFilter y.2 = true)
    (hzpass : (c.edge z.1 v).passesFilter z.2 = true)
    (hyname : (c.edge y.1 v).oneToOneSuccIdx y.2 = some j)
    (hzname : (c.edge z.1 v).oneToOneSuccIdx z.2 = some j) : y.1 = p ∧ y = z := by
  have hyp : y.1 = p := by
    by_contra hne
    exact hother ⟨y, hy, hne, hypass, hyname⟩
  have hzp : z.1 = p := by
    by_contra hne
    exact hother ⟨z, hz, hne, hzpass, hzname⟩
  have hylt := (mem_predCells.mp hy).2
  have hzlt := (mem_predCells.mp hz).2
  rw [hyp, hfactor] at hylt
  rw [hzp, hfactor] at hzlt
  rw [hyp] at hyname
  rw [hzp] at hzname
  exact ⟨hyp, Prod.ext (hyp.trans hzp.symm) (oneToOneSuccIdx_inj hsmall hylt hzlt hyname hzname)⟩

/-- The silent instances outside a chunk, and those of the chunk that pass, are all of them. -/
theorem drawnSilently_le (v j : ℕ) (x : ℕ × ℕ) (q : ℕ) (ks : List ℕ) : c.drawnSilently v j x ≤
    (c.silentCells v j x (ks.map (q, ·))).length +
      (ks.filter (c.edge q v).passesFilter).length := by
  have hsplit := List.length_eq_length_filter_add
    (l := (c.predCells v).filter fun y => c.Silent v j x y) fun y => y ∉ ks.map (q, ·)
  have houtside : (((c.predCells v).filter fun y => c.Silent v j x y).filter
      fun y => y ∉ ks.map (q, ·)) = c.silentCells v j x (ks.map (q, ·)) := by
    rw [List.filter_filter, silentCells]
    apply List.filter_congr
    intro y _
    rw [all_ne_eq_decide, Bool.and_comm]
  have hinside : (((c.predCells v).filter fun y => c.Silent v j x y).filter
      fun y => !decide (y ∉ ks.map (q, ·))).length ≤
      (ks.filter (c.edge q v).passesFilter).length := by
    have hnd := ((predCells_nodup (c := c) v).filter fun y => c.Silent v j x y).filter
      fun y => !decide (y ∉ ks.map (q, ·))
    have hsub : (((c.predCells v).filter fun y => c.Silent v j x y).filter
        fun y => !decide (y ∉ ks.map (q, ·))) ⊆
        (ks.filter (c.edge q v).passesFilter).map (q, ·) := by
      intro y hy
      obtain ⟨hsilent, hin⟩ := List.mem_filter.mp hy
      rw [Bool.not_eq_true', decide_eq_false_iff_not, not_not] at hin
      obtain ⟨m, hm, heq⟩ := List.mem_map.mp hin
      have hpass := (of_decide_eq_true (List.mem_filter.mp hsilent).2).2.1
      rw [← heq] at hpass ⊢
      exact List.mem_map.mpr ⟨m, List.mem_filter.mpr ⟨hm, hpass⟩, rfl⟩
    have hle := (List.subperm_of_subset hnd hsub).length_le
    rwa [List.length_map] at hle
  rw [drawnSilently, List.countP_eq_length_filter, hsplit, houtside]
  omega

section Choice

variable {nodes : List Node} (h : BuiltFrom nodes c) {v : ℕ} (hv : v < nodes.length) (gen : UInt32)
  {j : ℕ} (hbar : (c.nodeAt v).hasBarrier = false) {p : ℕ} (hp : p < c.graph.nodes.length)
  (hfactor : c.factor p = c.factor v) (hsmall : c.factor v < 2 ^ 32)
  (hother : ¬ c.NamedByOther v j p)

include h hv hbar hp hfactor hsmall hother

/-- Any number of silent instances can be drawn in some run. -/
theorem exists_silentRun {i : ℕ} {ys : List (ℕ × ℕ)} (hys : ∀ y ∈ ys, y.1 ≠ p) {n : ℕ}
    (hn : n ≤ (c.silentCells v j (p, i) ys).length) :
    ∃ cells rs, c.SilentRun v j gen cells rs ∧ cells.length = n ∧ cells.Nodup ∧
      cells ⊆ c.predCells v ∧ (p, i) ∉ cells ∧ ∀ y ∈ ys, y ∉ cells := by
  have hnd : (c.silentCells v j (p, i) ys).Nodup := (predCells_nodup v).filter _
  have hmem {y : ℕ × ℕ} : y ∈ c.silentCells v j (p, i) ys ↔
      y ∈ c.predCells v ∧ c.Silent v j (p, i) y ∧ y ∉ ys := mem_silentCells
  generalize hcells : c.silentCells v j (p, i) ys = cells at hn hnd hmem
  have hsplit := List.length_eq_length_filter_add (l := cells)
    fun y => (c.edge y.1 v).oneToOneSuccIdx y.2 ≠ some j
  generalize hfree : (cells.filter fun y => (c.edge y.1 v).oneToOneSuccIdx y.2 ≠ some j) = free
    at hsplit
  have hfreemem : ∀ y, y ∈ free ↔ y ∈ cells ∧ (c.edge y.1 v).oneToOneSuccIdx y.2 ≠ some j := by
    intro y
    rw [← hfree, List.mem_filter, decide_eq_true_eq]
  have hfreend : free.Nodup := by
    rw [← hfree]
    exact hnd.filter _
  have hsingles : ∀ zs : List (ℕ × ℕ), zs ⊆ free → c.SilentRun v j gen zs (singleSteps gen zs) := by
    intro zs hzs
    refine silentRun_singles h hv gen hbar (fun y hy => ?_) (fun y hy => ?_) fun y hy => ?_
    · exact (hmem.mp ((hfreemem y).mp (hzs hy)).1).1
    · exact (hmem.mp ((hfreemem y).mp (hzs hy)).1).2.1.2.1
    · exact ((hfreemem y).mp (hzs hy)).2
  by_cases hfew : n ≤ free.length
  · -- instances that name nobody, or another one, are enough
    have hsub : free.take n ⊆ free := List.take_subset n free
    refine ⟨free.take n, singleSteps gen (free.take n), hsingles _ hsub, ?_, hfreend.sublist
      (List.take_sublist n free), fun y hy => ?_, fun hy => ?_, fun y hy hin => ?_⟩
    · rw [List.length_take]
      omega
    · exact (hmem.mp ((hfreemem y).mp (hsub hy)).1).1
    · exact (hmem.mp ((hfreemem _).mp (hsub hy)).1).2.1.1 rfl
    · exact (hmem.mp ((hfreemem y).mp (hsub hin)).1).2.2 hy
  · -- the one that names `j` is needed too: it goes in one task with its neighbour
    rw [not_le] at hfew
    generalize hnamed : (cells.filter fun y =>
      !decide ((c.edge y.1 v).oneToOneSuccIdx y.2 ≠ some j)) = named at hsplit
    have hnamedmem : ∀ y, y ∈ named ↔ y ∈ cells ∧ (c.edge y.1 v).oneToOneSuccIdx y.2 = some j := by
      intro y
      rw [← hnamed, List.mem_filter, Bool.not_eq_true', decide_eq_false_iff_not, not_not]
    have hunique := fun {y z : ℕ × ℕ} (hy : y ∈ named) (hz : z ∈ c.predCells v)
        (hzpass : (c.edge z.1 v).passesFilter z.2 = true)
        (hzname : (c.edge z.1 v).oneToOneSuccIdx z.2 = some j) =>
      named_unique hfactor hsmall hother (hmem.mp ((hnamedmem y).mp hy).1).1 hz
        (hmem.mp ((hnamedmem y).mp hy).1).2.1.2.1 hzpass ((hnamedmem y).mp hy).2 hzname
    obtain ⟨y, hone⟩ : ∃ y, named = [y] := by
      have hnamednd : named.Nodup := by
        rw [← hnamed]
        exact hnd.filter _
      cases named with
      | nil =>
        rw [List.length_nil] at hsplit
        omega
      | cons y rest =>
        cases rest with
        | nil => exact ⟨y, rfl⟩
        | cons z rest =>
          have hz : z ∈ y :: z :: rest := by simp
          have hzcell := hmem.mp ((hnamedmem z).mp hz).1
          have hsame := (hunique List.mem_cons_self hzcell.1 hzcell.2.1.2.1
            ((hnamedmem z).mp hz).2).2
          rw [hsame] at hnamednd
          simp at hnamednd
    have hyin : y ∈ named := by
      rw [hone]
      exact List.mem_singleton_self y
    rw [hone, List.length_singleton] at hsplit
    obtain ⟨hycell, hyname⟩ := (hnamedmem y).mp hyin
    obtain ⟨hypred, ⟨hyx, hypass, hykind⟩, hyys⟩ := hmem.mp hycell
    obtain ⟨z, hzpred, hzx, hzid, hnext⟩ := hykind.resolve_left fun hno => hno hyname
    have hyp : y.1 = p := (hunique hyin hypred hypass hyname).1
    have hzp : z.1 = p := hzid.trans hyp
    have h11 : (c.edge p v).hasOneToOne = true := by
      rw [hyp] at hyname
      by_contra hno
      rw [SuccEdge.oneToOneSuccIdx, if_neg hno] at hyname
      cases hyname
    have hopen := filterBounds_of_equal hp hfactor h11
    have hzpass : (c.edge z.1 v).passesFilter z.2 = true := by
      rw [hzp]
      exact (c.edge p v).passesFilter_of_none hopen z.2
    have hzfree : z ∈ free := by
      have hzname : (c.edge z.1 v).oneToOneSuccIdx z.2 ≠ some j := by
        intro hzname
        have hsame := (hunique hyin hzpred hzpass hzname).2
        have := congrArg Prod.snd hsame
        omega
      rw [hfreemem, hmem]
      exact ⟨⟨hzpred, ⟨hzx, hzpass, .inl hzname⟩, fun hin => hys z hin hzp⟩, hzname⟩
    have hyfree : y ∉ free := fun hin => ((hfreemem y).mp hin).2 hyname
    have hrest := hsingles (free.erase z) (List.erase_subset)
    have hppred : p ∈ (c.nodeAt v).predIds := hyp ▸ (mem_predCells.mp hypred).1
    obtain ⟨m, hpair⟩ : ∃ m, [(p, m), (p, m + 1)].Perm [y, z] := by
      have hy : y = (p, y.2) := Prod.ext hyp rfl
      have hz : z = (p, z.2) := Prod.ext hzp rfl
      cases hnext with
      | inl hnext =>
        refine ⟨y.2, ?_⟩
        rw [← hnext, ← hy, ← hz]
      | inr hnext =>
        refine ⟨z.2, ?_⟩
        rw [← hnext, ← hy, ← hz]
        exact List.Perm.swap _ _ _
    have hperm : ([(p, m), (p, m + 1)] ++ free.erase z).Perm (y :: free) := by
      refine (hpair.append_right _).trans ?_
      exact (List.perm_cons_erase hzfree).symm.cons y
    have hin : ∀ w, w ∈ [(p, m), (p, m + 1)] ++ free.erase z → w ∈ cells := by
      intro w hw
      cases List.mem_cons.mp (hperm.mem_iff.mp hw) with
      | inl hw => rwa [hw]
      | inr hw => exact ((hfreemem w).mp hw).1
    refine ⟨_, _, (silentRun_pair h hv gen hbar (m := m) hopen hppred).append hrest, ?_, ?_, fun w hw => ?_,
      fun hw => ?_, fun w hw hin' => ?_⟩
    · rw [hperm.length_eq, List.length_cons]
      omega
    · exact hperm.nodup_iff.mpr (List.nodup_cons.mpr ⟨hyfree, hfreend⟩)
    · exact (hmem.mp (hin w hw)).1
    · exact (hmem.mp (hin _ hw)).2.1.1 rfl
    · exact (hmem.mp (hin w hin')).2.2 hw

end Choice

/-! ## Ways to overtake -/

/-- The chunk that counts past: it starts at `t`, its last call names no instance, and it draws
on every group the instances that pass. -/
theorem exists_last_chunk {v j p i q t k : ℕ} (hbar : (c.nodeAt v).hasBarrier = false)
    (hstart : t ≤ k) (h : c.CountedPast v j p i q t k) :
    ∃ n, 0 < n ∧ (t = k → n = 1 ∨ (c.edge q v).filterBounds = none) ∧
      (∀ m ∈ List.range' t n, m < c.factor q) ∧
      (∃ before last, (c.edge q v).calls t n = before ++ [last] ∧ last.specific = none ∧
        last.group = none) ∧
      0 < ((List.range' t n).filter (c.edge q v).passesFilter).length ∧
      ∀ g < (c.entry v).numGroups, (c.entry v).takenBy ((c.edge q v).calls t n) g =
        ((List.range' t n).filter (c.edge q v).passesFilter).length := by
  obtain ⟨-, -, hk, hpass, hkind, -⟩ := h
  have hgroup := (c.edge q v).calls_ungrouped (edge_ungrouped hbar q)
  cases hopen : (c.edge q v).filterBounds with
  | none =>
    have hall := (c.edge q v).passesFilter_of_none hopen
    have hfilter : ∀ n, ((List.range' t n).filter (c.edge q v).passesFilter).length = n := by
      intro n
      rw [List.filter_eq_self.mpr fun m _ => hall m, List.length_range']
    cases hkind with
    | inl h11 =>
      have hcalls : (c.edge q v).calls t 1 = [(c.edge q v).cellCall t] := by
        rw [(c.edge q v).calls_single, if_pos (hall t)]
      have hin : (c.edge q v).cellCall t ∈ (c.edge q v).calls t 1 := by
        rw [hcalls]
        exact List.mem_singleton_self _
      refine ⟨1, Nat.one_pos, fun _ => .inl rfl, fun m hm => ?_,
        ⟨[], _, hcalls, (c.edge q v).calls_unaimed h11 t 1 _ hin, hgroup t 1 _ hin⟩, ?_, fun g hg => ?_⟩
      · rw [List.mem_range'_1] at hm
        omega
      · rw [hfilter]
        exact Nat.one_pos
      · rw [takenBy_single q v t hg, drawsOn_eq hbar, if_pos (hall t), hfilter]
    | inr hnext =>
      refine ⟨2, Nat.two_pos, fun _ => .inr rfl, fun m hm => ?_, ⟨[], _,
        (c.edge q v).calls_unfiltered hopen t 2 Nat.one_lt_two, rfl, predGroup_none hbar q t⟩, ?_,
        fun g hg => ?_⟩
      · have := hnext.2
        rw [List.mem_range'_1] at hm
        omega
      · rw [hfilter]
        exact Nat.two_pos
      · rw [(c.edge q v).calls_unfiltered hopen t 2 Nat.one_lt_two, EntryShape.takenBy_cons,
          EntryShape.takenBy_nil, EntryShape.taken,
          if_pos ⟨hg, .inl (predGroup_none hbar q t)⟩, hfilter]
        rfl
  | some b =>
    have h11 : (c.edge q v).hasOneToOne = false := by
      refine hkind.resolve_right fun hnext => ?_
      rw [hopen] at hnext
      cases hnext.1
    have hn : 0 < k - t + 1 := Nat.succ_pos _
    have hlast : k ∈ (List.range' t (k - t + 1)).filter (c.edge q v).passesFilter := by
      rw [List.mem_filter, List.mem_range'_1]
      exact ⟨by omega, hpass⟩
    have htaken : ∀ g < (c.entry v).numGroups,
        (c.entry v).takenBy ((c.edge q v).calls t (k - t + 1)) g =
          ((List.range' t (k - t + 1)).filter (c.edge q v).passesFilter).length := by
      intro g hg
      rw [(c.edge q v).calls_filtered hopen t _ hn, takenBy_singles_eq q v _ hg, List.countP_map,
        ← List.countP_eq_length_filter]
      apply List.countP_congr
      intro m _
      rw [Function.comp_apply, drawsOn_eq hbar]
    have hcall : (c.edge q v).cellCall k ∈ (c.edge q v).calls t (k - t + 1) := by
      rw [(c.edge q v).calls_filtered hopen t _ hn, List.mem_flatMap]
      refine ⟨k, (List.mem_filter.mp hlast).1, ?_⟩
      rw [(c.edge q v).calls_single, if_pos hpass]
      exact List.mem_singleton_self _
    refine ⟨k - t + 1, hn, fun heq => .inl (by omega), fun m hm => ?_, ?_,
      List.length_pos_of_mem hlast, htaken⟩
    · rw [List.mem_range'_1] at hm
      omega
    · have hunaimed := (c.edge q v).calls_unaimed h11 t (k - t + 1)
      have hgroup' := hgroup t (k - t + 1)
      cases (List.eq_nil_or_concat ((c.edge q v).calls t (k - t + 1))) with
      | inl hnil =>
        rw [hnil] at hcall
        cases hcall
      | inr hsnoc =>
        obtain ⟨before, last, hcalls⟩ := hsnoc
        rw [List.concat_eq_append] at hcalls
        have hin : last ∈ (c.edge q v).calls t (k - t + 1) := by
          rw [hcalls]
          simp
        exact ⟨before, last, hcalls, hunaimed last hin, hgroup' last hin⟩

/-- Calls that do not name `j` and draw too little on its group do not release it. -/
theorem not_releases_of_few {sh : EntryShape} (hb : sh.hasBarrier = false) {g j : ℕ}
    (hg : g < sh.numGroups) (hj : j ∈ sh.groupRange g) {calls : List DepCall}
    (hno : ∀ d ∈ calls, d.specific ≠ some j)
    (hfew : sh.takenBy calls g + sh.thresholdForInstanceInGroup (j - g * sh.groupSize) <
      sh.depsPerGroup.toNat) : ¬ sh.Releases calls j := by
  unfold EntryShape.Releases
  rw [if_neg (by simp [hb])]
  rintro ⟨before, d, after, hcalls, hfree⟩
  unfold EntryShape.Frees at hfree
  cases hspec : d.specific with
  | some i =>
    simp only [hspec] at hfree
    refine hno d (by simp [hcalls]) ?_
    rw [hspec, hfree.1]
  | none =>
    simp only [hspec] at hfree
    obtain ⟨g', hhit, hj', hle⟩ := hfree
    have hsame := sh.groupRange_disjoint hhit.1 hg hj' hj
    subst hsame
    have hsplit : calls = (before ++ [d]) ++ after := by simp [hcalls]
    rw [hsplit, EntryShape.takenBy_append] at hfew
    omega

theorem silentRun_nil (v j : ℕ) (gen : UInt32) : c.SilentRun v j gen [] [] :=
  ⟨fun _ hr => (List.not_mem_nil hr).elim, fun _ hr => (List.not_mem_nil hr).elim,
    fun _ hr => (List.not_mem_nil hr).elim, rfl, fun _ hd => (List.not_mem_nil hd).elim,
    fun _ _ => rfl⟩

section Overtaking

variable {nodes : List Node} (h : BuiltFrom nodes c) {v : ℕ} (hv : v < nodes.length) {j : ℕ}

include h hv

/-- A silent run and a task after it that is the first to release `j`, on either path. -/
theorem takesWay_after (cfg : Config) {cells : List (ℕ × ℕ)} {pre : List Resolution}
    {ni : NodeInfo} {x : ℕ × ℕ}
    (hsilent : c.SilentRun v j (SlotState.fresh c 0).cells.slotGen cells pre)
    (hgen : ni.gen = (SlotState.fresh c 0).cells.slotGen) (hchunk : 0 < ni.bulkCount)
    (hnd : (cells ++ ni.instances.map (ni.id, ·)).Nodup)
    (hsub : cells ++ ni.instances.map (ni.id, ·) ⊆ c.predCells v)
    (hmiss : x ∉ cells ++ ni.instances.map (ni.id, ·))
    (hpred : ni.id ∈ (c.nodeAt v).predIds)
    (hrel : (c.entry v).Releases
      (c.runCallsOn v pre ++ (c.edge ni.id v).calls ni.index ni.bulkCount) j)
    (hno : ¬ (c.entry v).Releases (c.runCallsOn v pre) j) :
    c.TakesWay cfg v j x pre (.worker ni) ∧
      ((ni.bulkCount = 1 ∨ (c.edge ni.id v).filterBounds = none) →
        (c.isCondition v = true → asU32 (c.factor v) ≠ 0) → ∀ eval,
          c.TakesWay cfg v j x pre (.batch eval ni)) := by
  have hworker : (Resolution.worker ni).callsOn c v =
      (c.edge ni.id v).calls ni.index ni.bulkCount := by
    simp only [Resolution.callsOn, if_pos (h.mem_successors.mpr ⟨hv, hpred⟩)]
  have hway : ∀ r : Resolution, r.task = ni →
      r.callsOn c v = (c.edge ni.id v).calls ni.index ni.bulkCount →
      ((∃ ni', r = .worker ni') ∨ (c.isCondition v = true → asU32 (c.factor v) ≠ 0)) →
      c.TakesWay cfg v j x pre r := by
    intro r hr hcalls hspawns
    have hcells : completedCells (pre ++ [r]) = cells ++ ni.instances.map (ni.id, ·) := by
      rw [completedCells_append, hsilent.completes]
      simp only [completedCells, List.flatMap_singleton, hr]
    have hgens : ∀ r' ∈ pre ++ [r], r'.task.gen = (SlotState.fresh c 0).cells.slotGen := by
      intro r' hr'
      cases List.mem_append.mp hr' with
      | inl hr' => exact hsilent.gen r' hr'
      | inr hr' => rw [List.mem_singleton.mp hr', hr, hgen]
    have hall : c.runCallsOn v (pre ++ [r]) =
        c.runCallsOn v pre ++ (c.edge ni.id v).calls ni.index ni.bulkCount := by
      simp only [runCallsOn, List.flatMap_append, List.flatMap_singleton, hcalls]
    refine ⟨hgens, predRun_of_cells (fun r' hr' => ?_) ?_ ?_, ?_, ?_⟩
    · cases List.mem_append.mp hr' with
      | inl hr' => exact hsilent.chunks r' hr'
      | inr hr' => rwa [List.mem_singleton.mp hr', hr]
    · rwa [hcells]
    · rwa [hcells]
    · rwa [hcells]
    · exact h.returned_first cfg hsilent.worker hgens hspawns (hall ▸ hrel) hno
  refine ⟨hway _ rfl hworker (.inl ⟨ni, rfl⟩), fun hstart hspawns eval => ?_⟩
  exact hway _ rfl ((callsOn_alike v hstart eval).trans hworker) (.inr hspawns)

/-- An instance of another predecessor that names `j` makes it ready first of all. -/
theorem exists_named_way (hbar : (c.nodeAt v).hasBarrier = false) (hsmall : c.factor v < 2 ^ 32)
    (hpos : 0 < c.factor v) {p : ℕ} (hnamed : c.NamedByOther v j p) :
    ∃ ni : NodeInfo, ni.id ∈ (c.nodeAt v).predIds ∧ ni.id ≠ p ∧
      ∀ i cfg, c.TakesWay cfg v j (p, i) [] (.worker ni) ∧
        ((c.isCondition v = true → asU32 (c.factor v) ≠ 0) → ∀ eval,
          c.TakesWay cfg v j (p, i) [] (.batch eval ni)) := by
  obtain ⟨⟨q, k⟩, hcell, hne, hpass, hname⟩ := hnamed
  have hpred := (mem_predCells.mp hcell).1
  have h11 : (c.edge q v).hasOneToOne = true := by
    by_contra hno
    rw [SuccEdge.oneToOneSuccIdx, if_neg hno] at hname
    cases hname
  obtain ⟨j', hlt, hj'⟩ := exists_named h11 hsmall hpos k
  have hj : j' = j := Option.some.inj (hj'.symm.trans hname)
  subst hj
  have hcalls : (c.edge q v).calls k 1 = [(c.edge q v).cellCall k] := by
    rw [(c.edge q v).calls_single, if_pos hpass]
  refine ⟨⟨q, (SlotState.fresh c 0).cells.slotGen, 0, k, 1, 0⟩, hpred, hne, fun i cfg => ?_⟩
  have hgen : (⟨q, (SlotState.fresh c 0).cells.slotGen, 0, k, 1, 0⟩ : NodeInfo).gen =
      (SlotState.fresh c 0).cells.slotGen := rfl
  have hway := takesWay_after h hv (j := j') cfg (x := (p, i)) (silentRun_nil v j' _) hgen Nat.one_pos
    (List.nodup_singleton (q, k)) (List.cons_subset.mpr ⟨hcell, List.nil_subset _⟩)
    (fun hin => hne (Prod.mk.inj (List.mem_singleton.mp hin)).1.symm) hpred ?_
    ((c.entry v).not_releases_nil j')
  · exact ⟨hway.1, hway.2 (.inl rfl)⟩
  · have hb : (c.entry v).hasBarrier = false := hbar
    unfold EntryShape.Releases
    rw [if_neg (by simp [hb])]
    refine ⟨[], _, [], hcalls, ?_⟩
    have hspec : ((c.edge q v).cellCall k).specific = some j' := hname
    unfold EntryShape.Frees
    simp only [hspec]
    exact ⟨trivial, hlt, 0, (c.entry v).groups_pos, .inl (predGroup_none hbar q k)⟩

/-- A task that counts past instance `i` of `p` makes `j` ready after some silent run. -/
theorem exists_counting_way (hbar : (c.nodeAt v).hasBarrier = false) {p : ℕ}
    (hp : p < c.graph.nodes.length) (hfactor : c.factor p = c.factor v)
    (hsmall : c.factor v < 2 ^ 32) (hother : ¬ c.NamedByOther v j p) {i q t k : ℕ} (hstart : t ≤ k)
    (hpast : c.CountedPast v j p i q t k) (cfg : Config) :
    ∃ pre, ∃ ni : NodeInfo, ni.id = q ∧ ni.index = t ∧
      c.TakesWay cfg v j (p, i) pre (.worker ni) ∧
      (t = k → (c.isCondition v = true → asU32 (c.factor v) ≠ 0) → ∀ eval,
        c.TakesWay cfg v j (p, i) pre (.batch eval ni)) := by
  obtain ⟨n, hn, halike, hlt, hcalls, hpos, htaken⟩ := exists_last_chunk hbar hstart hpast
  obtain ⟨before, last, hlast, hnone, hgroup⟩ := hcalls
  obtain ⟨hpred, hne, -, -, -, g, hg, hj, hle⟩ := hpast
  have hb : (c.entry v).hasBarrier = false := hbar
  have hchunkpred : (List.range' t n).map (q, ·) ⊆ c.predCells v := by
    intro y hy
    obtain ⟨m, hm, heq⟩ := List.mem_map.mp hy
    rw [← heq]
    exact mem_predCells.mpr ⟨hpred, hlt m hm⟩
  have houtside : ∀ y ∈ (List.range' t n).map (q, ·), y.1 ≠ p := by
    intro y hy
    obtain ⟨m, -, heq⟩ := List.mem_map.mp hy
    rw [← heq]
    exact hne
  -- the silent instances are those outside the chunk and those of it that pass
  have hmany := drawnSilently_le (c := c) v j (p, i) q (List.range' t n)
  obtain ⟨cells, pre, hsilent, hlength, hnd, hsub, hmiss, haway⟩ := exists_silentRun h hv
    (SlotState.fresh c 0).cells.slotGen hbar hp hfactor hsmall hother (i := i) houtside
    (Nat.min_le_left _ ((c.entry v).depsPerGroup.toNat -
      (c.entry v).thresholdForInstanceInGroup (j - g * (c.entry v).groupSize) - 1))
  refine ⟨pre, ⟨q, (SlotState.fresh c 0).cells.slotGen, 0, t, n, 0⟩, rfl, rfl, ?_⟩
  have hgen : (⟨q, (SlotState.fresh c 0).cells.slotGen, 0, t, n, 0⟩ : NodeInfo).gen =
      (SlotState.fresh c 0).cells.slotGen := rfl
  have hway := takesWay_after h hv (j := j) cfg (x := (p, i)) hsilent hgen hn ?_ ?_ ?_ hpred ?_ ?_
  · exact ⟨hway.1, fun heq => hway.2 (halike heq)⟩
  · rw [List.nodup_append]
    refine ⟨hnd, (List.nodup_range' ..).map fun a b hab => (Prod.mk.inj hab).2, ?_⟩
    intro a ha b hb' hab
    rw [hab] at ha
    exact haway b hb' ha
  · exact List.append_subset.mpr ⟨hsub, hchunkpred⟩
  · rw [List.mem_append, not_or]
    exact ⟨hmiss, fun hin => houtside _ hin rfl⟩
  · have hrun := hsilent.taken g hg
    have hchunk := htaken g hg
    rw [hlast] at hchunk
    unfold EntryShape.Releases
    rw [if_neg (by simp [hb])]
    refine ⟨c.runCallsOn v pre ++ before, last, [], ?_, ?_⟩
    · rw [hlast, List.append_assoc]
    · unfold EntryShape.Frees
      simp only [hnone]
      refine ⟨g, ⟨hg, .inl hgroup⟩, hj, ?_⟩
      rw [List.append_assoc, EntryShape.takenBy_append, hrun, hchunk, hlength]
      omega
  · cases hcells : cells with
    | nil =>
      rw [hcells] at hsilent
      rw [hsilent.eq_nil]
      exact (c.entry v).not_releases_nil j
    | cons y ys =>
      refine not_releases_of_few hb hg hj hsilent.nameless ?_
      rw [hsilent.taken g hg]
      have hlen : 0 < cells.length := by
        rw [hcells]
        exact Nat.succ_pos _
      omega

end Overtaking

end Compiled

end Tomii
