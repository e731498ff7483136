import Tomii.Runtime.ArgResolution
import Mathlib.Tactic.Linarith

/-! # Cells that the resolver asks for

`fetch_res_results` waits until the cell it computed is stored. The four index forms against
the cells that the predecessor has. -/
namespace Tomii
set_option autoImplicit false
set_option maxHeartbeats 250000

/-! ## Relative indexes -/

/-- Instance `j` plus the offset `d`, taken as an `isize`, is no negative number that the
truncated remainder would keep negative, and wrapping did not change its residue. -/
def ReachesCell (predFactor j : ℕ) (d : ℤ) : Prop :=
  (0 ≤ wrapIsize (j + d) ∨ (predFactor : ℤ) ∣ wrapIsize (j + d)) ∧
    (predFactor : ℤ) ∣ wrapIsize (j + d) - (j + d)

instance (predFactor j : ℕ) (d : ℤ) : Decidable (ReachesCell predFactor j d) :=
  inferInstanceAs (Decidable (_ ∧ _))

theorem isizeAsUsize_of_neg {i : ℤ} (h : i < 0) (hlow : -2 ^ 63 < i) : 2 ^ 63 < isizeAsUsize i := by
  unfold isizeAsUsize
  omega

/-- The truncated remainder is a cell exactly when it is the Euclidean one. -/
theorem tmod_cell_iff {w : ℤ} {predFactor : ℕ} (hpos : 0 < predFactor)
    (hsize : predFactor < 2 ^ 63) :
    (isizeAsUsize (w.tmod predFactor) < predFactor ↔ 0 ≤ w ∨ (predFactor : ℤ) ∣ w) ∧
      (0 ≤ w ∨ (predFactor : ℤ) ∣ w → isizeAsUsize (w.tmod predFactor) = (w % predFactor).toNat) := by
  have hP : (0 : ℤ) < predFactor := by omega
  have hlt := Int.emod_lt_of_pos w hP
  have hnonneg := Int.emod_nonneg w hP.ne'
  by_cases hgood : 0 ≤ w ∨ (predFactor : ℤ) ∣ w
  · have hmod : w.tmod predFactor = w % predFactor := by
      rcases hgood with h | h
      · exact Int.tmod_eq_emod_of_nonneg h
      · rw [Int.tmod_eq_zero_of_dvd h, Int.emod_eq_zero_of_dvd h]
    have hcast : isizeAsUsize (w.tmod predFactor) = (w % predFactor).toNat := by
      rw [hmod, isizeAsUsize_of_nonneg hnonneg (by omega)]
    refine ⟨iff_of_true ?_ hgood, fun _ => hcast⟩
    rw [hcast]
    omega
  · refine ⟨iff_of_false ?_ hgood, fun h => absurd h hgood⟩
    have hmod : w.tmod predFactor = w % predFactor - predFactor := by
      rw [Int.tmod_eq_emod, if_neg hgood, Int.natAbs_natCast]
    have hne : w % predFactor ≠ 0 := fun h => hgood (.inr (Int.dvd_of_emod_eq_zero h))
    have hbig := isizeAsUsize_of_neg (i := w.tmod predFactor) (by omega) (by omega)
    omega

theorem findPredIndex_cell_iff {predFactor : ℕ} (hsize : predFactor < 2 ^ 63) (j : ℕ) (d : ℤ) :
    (∃ cell, findPredIndex j d predFactor = some cell ∧ cell < predFactor ∧
        cell = ((j + d) % (predFactor : ℤ)).toNat) ↔
      0 < predFactor ∧ ReachesCell predFactor j d := by
  by_cases hpos : 0 < predFactor
  · obtain ⟨hcell, heq⟩ := tmod_cell_iff (w := wrapIsize (j + d)) hpos hsize
    have hP : (predFactor : ℤ) ≠ 0 := by omega
    have h1 := Int.emod_nonneg (wrapIsize (j + d)) hP
    have h2 := Int.emod_nonneg ((j : ℤ) + d) hP
    have hres : ((wrapIsize (j + d)) % (predFactor : ℤ)).toNat = ((j + d) % (predFactor : ℤ)).toNat ↔
        (predFactor : ℤ) ∣ wrapIsize (j + d) - (j + d) := by
      rw [Int.dvd_iff_emod_eq_zero, ← Int.emod_eq_emod_iff_emod_sub_eq_zero]
      omega
    simp only [findPredIndex, if_neg hpos.ne', Option.some.injEq, exists_eq_left', hcell, hpos,
      true_and, ReachesCell]
    constructor
    · rintro ⟨hgood, hval⟩
      rw [heq hgood] at hval
      exact ⟨hgood, hres.mp hval⟩
    · rintro ⟨hgood, hdvd⟩
      rw [heq hgood]
      exact ⟨hgood, hres.mpr hdvd⟩
  · have hzero : predFactor = 0 := by omega
    simp [findPredIndex, hzero]

/-- A list of offsets is resolved as a whole when each of them is. -/
theorem mapM_findPredIndex_iff {predFactor : ℕ} (hsize : predFactor < 2 ^ 63) (j : ℕ)
    (ds : List ℤ) : (∃ cells, ds.mapM (fun d => findPredIndex j d predFactor) = some cells ∧
        (∀ cell ∈ cells, cell < predFactor) ∧
        cells = ds.map fun d => ((j + d) % (predFactor : ℤ)).toNat) ↔
      ∀ d ∈ ds, 0 < predFactor ∧ ReachesCell predFactor j d := by
  induction ds with
  | nil => simp
  | cons d ds ih =>
    rw [List.forall_mem_cons, ← ih, ← findPredIndex_cell_iff hsize]
    constructor
    · rintro ⟨cells, hcells, hlt, heq⟩
      rw [List.mapM_cons] at hcells
      obtain ⟨cell, hcell, hrest⟩ := Option.bind_eq_some_iff.mp hcells
      obtain ⟨rest, hmap, hcons⟩ := Option.bind_eq_some_iff.mp hrest
      obtain rfl := Option.some.inj hcons
      obtain ⟨hhead, htail⟩ := List.cons.inj heq
      rw [List.forall_mem_cons] at hlt
      exact ⟨⟨cell, hcell, hlt.1, hhead⟩, rest, hmap, hlt.2, htail⟩
    · rintro ⟨⟨cell, hcell, hlt, hhead⟩, rest, hmap, hrest, htail⟩
      refine ⟨cell :: rest, ?_, List.forall_mem_cons.mpr ⟨hlt, hrest⟩, ?_⟩
      · rw [List.mapM_cons, hcell, hmap]
        rfl
      · rw [List.map_cons, hhead, ← htail]

/-! ## The four forms -/

namespace Compiled

variable (c : Compiled) (id : ℕ) (p : Predecessor)

/-- `pred_eff_gs` -/
def predEffGroupSize : Option ℕ :=
  (c.nodeAt p.id).groupSize.or (c.graph.route c.range1to1Enabled (c.nodeAt id) p.id).groupBy

/-- The forms whose indexes are offsets: one index in a node without groups, and a list that
does not have one index for each instance. -/
def IsRelative : Prop :=
  if p.indexes.length = 1 then (c.nodeAt id).groupSize = none
  else p.indexes.length ≠ c.factor id

instance : Decidable (c.IsRelative id p) := by
  unfold IsRelative
  infer_instance

/-- Instance `j` asks for cells that the predecessor has: the offsets of a relative form, modulo
the number of instances. An empty list asks for nothing. -/
def AsksForCells (j predIndex : ℕ) : Prop :=
  p.indexes = [] ∨ ∃ cells, c.fetchResResults id p j predIndex = some cells ∧
    (∀ cell ∈ cells, cell < c.factor p.id) ∧
    (c.IsRelative id p → cells = p.indexes.map fun d => ((j + d) % (c.factor p.id : ℤ)).toNat)

/-- The declared indexes stay within the predecessor: offsets from every instance, and in a node
with groups the index within the chunk of every group. -/
def FitsPredecessor : Prop :=
  0 < c.factor p.id ∧
    match p.indexes with
    | [] => True
    | [d] =>
      match (c.nodeAt id).groupSize, c.predEffGroupSize id p with
      | some ngs, some effGs =>
        0 < ngs ∧ ∀ group ≤ (c.factor id - 1) / ngs,
          (group * effGs + isizeAsUsize d) % 2 ^ 64 < c.factor p.id
      | some _, none => True
      | none, _ => ∀ j < c.factor id, ReachesCell (c.factor p.id) j d
    | ds => ds.length = c.factor id ∨
      ∀ j < c.factor id, ∀ d ∈ ds, ReachesCell (c.factor p.id) j d

variable {c id p}

theorem remEuclid_lt {declared : ℤ} {predFactor cell : ℕ}
    (h : remEuclid declared predFactor = some cell) : cell < predFactor := by
  unfold remEuclid at h
  split at h
  · cases h
  · obtain rfl := Option.some.inj h
    have := Int.emod_lt_of_pos declared (b := predFactor) (by omega)
    have := Int.emod_nonneg declared (b := predFactor) (by omega)
    omega

theorem perInstanceDepIdx_lt {indexes : List ℤ} {j predIndex predFactor nodeFactor cell : ℕ}
    {bar : Bool} (h : perInstanceDepIdx indexes j predIndex predFactor nodeFactor bar = some cell) :
    cell < predFactor := by
  unfold perInstanceDepIdx at h
  split at h
  · split at h
    · cases h
    · obtain rfl := Option.some.inj h
      exact Nat.mod_lt _ (by omega)
  · obtain ⟨declared, -, hrem⟩ := Option.bind_eq_some_iff.mp h
    exact remEuclid_lt hrem

theorem perInstanceDepIdx_isSome {indexes : List ℤ} {j predFactor : ℕ}
    (predIndex nodeFactor : ℕ) (bar : Bool) (hpos : 0 < predFactor) (hj : j < indexes.length) :
    ∃ cell, perInstanceDepIdx indexes j predIndex predFactor nodeFactor bar = some cell := by
  unfold perInstanceDepIdx
  split
  · rw [if_neg hpos.ne']
    exact ⟨_, rfl⟩
  · rw [List.getElem?_eq_getElem hj, Option.bind_some, remEuclid_pos hpos]
    exact ⟨_, rfl⟩

/-- The groups of the instances below `factor` are the numbers up to that of the last one. -/
theorem forall_group_iff {factor ngs : ℕ} (hpos : 0 < factor) (hngs : 0 < ngs) {P : ℕ → Prop} :
    (∀ j < factor, P (j / ngs)) ↔ ∀ group ≤ (factor - 1) / ngs, P group := by
  constructor
  · intro h group hgroup
    have hle : group * ngs ≤ factor - 1 := (Nat.le_div_iff_mul_le hngs).mp hgroup
    have hP := h (group * ngs) (by omega)
    rwa [Nat.mul_div_cancel _ hngs] at hP
  · intro h j hj
    exact h _ (Nat.div_le_div_right (by omega))

/-- One index: relative, within the group's chunk, or the same cell for all. -/
theorem asksForCells_single_iff {d : ℤ} (hp : p.indexes = [d]) (hsize : c.factor p.id < 2 ^ 63)
    (hpos : 0 < c.factor id) :
    (∀ j < c.factor id, ∀ t, c.AsksForCells id p j t) ↔ c.FitsPredecessor id p := by
  have hfetch : ∀ j t, c.fetchResResults id p j t =
      (singleIndexDepIdx j d (c.factor p.id) (c.nodeAt id).groupSize
        (c.predEffGroupSize id p)).map ([·]) := by
    intro j t
    simp only [fetchResResults, hp]
    rfl
  have hasks : ∀ j t, c.AsksForCells id p j t ↔
      ∃ cell, singleIndexDepIdx j d (c.factor p.id) (c.nodeAt id).groupSize
          (c.predEffGroupSize id p) = some cell ∧ cell < c.factor p.id ∧
        ((c.nodeAt id).groupSize = none → cell = ((j + d) % (c.factor p.id : ℤ)).toNat) := by
    intro j t
    unfold AsksForCells IsRelative
    rw [hfetch, hp]
    simp
  simp only [hasks, FitsPredecessor, hp]
  cases hgs : (c.nodeAt id).groupSize with
  | none =>
    simp only [singleIndexDepIdx, forall_const, findPredIndex_cell_iff hsize]
    constructor
    · intro h
      exact ⟨(h 0 hpos).1, fun j hj => (h j hj).2⟩
    · rintro ⟨hP, h⟩ j hj
      exact ⟨hP, h j hj⟩
  | some ngs =>
    cases heff : c.predEffGroupSize id p with
    | none =>
      simp only [singleIndexDepIdx, reduceCtorEq, false_implies, and_true]
      constructor
      · intro h
        obtain ⟨cell, -, hlt⟩ := h 0 hpos 0
        omega
      · intro hP j _ _
        exact ⟨_, remEuclid_pos hP d, remEuclid_lt (remEuclid_pos hP d)⟩
    | some effGs =>
      simp only [singleIndexDepIdx, reduceCtorEq, false_implies, and_true]
      constructor
      · intro h
        obtain ⟨cell, hcell, hlt⟩ := h 0 hpos 0
        have hngs : 0 < ngs := by
          by_contra hzero
          rw [if_pos (by omega)] at hcell
          cases hcell
        refine ⟨by omega, hngs, (forall_group_iff hpos hngs (P := fun group =>
          (group * effGs + isizeAsUsize d) % 2 ^ 64 < c.factor p.id)).mp fun j hj => ?_⟩
        obtain ⟨cell, hcell, hlt⟩ := h j hj 0
        rw [if_neg hngs.ne', Option.some.injEq] at hcell
        rwa [hcell]
      · rintro ⟨-, hngs, h⟩ j hj _
        rw [if_neg hngs.ne']
        exact ⟨_, rfl, (forall_group_iff hpos hngs (P := fun group =>
          (group * effGs + isizeAsUsize d) % 2 ^ 64 < c.factor p.id)).mpr h j hj⟩

/-- Two indexes or more: one for each instance, or all of them for every instance. -/
theorem asksForCells_list_iff (hp : 1 < p.indexes.length) (hsize : c.factor p.id < 2 ^ 63)
    (hpos : 0 < c.factor id) :
    (∀ j < c.factor id, ∀ t, c.AsksForCells id p j t) ↔ c.FitsPredecessor id p := by
  have hne : p.indexes ≠ [] := by
    intro h
    rw [h] at hp
    cases hp
  have hone : p.indexes.length ≠ 1 := by omega
  have hfits : c.FitsPredecessor id p ↔ 0 < c.factor p.id ∧ (p.indexes.length = c.factor id ∨
      ∀ j < c.factor id, ∀ d ∈ p.indexes, ReachesCell (c.factor p.id) j d) := by
    unfold FitsPredecessor
    match hindexes : p.indexes with
    | [] => exact absurd hindexes hne
    | [_] => exact absurd (by rw [hindexes]; rfl) hone
    | _ :: _ :: _ => rfl
  rw [hfits]
  by_cases hlen : p.indexes.length = c.factor id
  · have hrel : ¬ c.IsRelative id p := by
      unfold IsRelative
      rw [if_neg hone]
      exact fun h => h hlen
    have hfetch := fetchResResults_of_length hlen (hlen ▸ hp)
    simp only [hlen, true_or, and_true, AsksForCells, hne, false_or, hrel, false_implies, hfetch]
    constructor
    · intro h
      obtain ⟨cells, hcells, hlt⟩ := h 0 hpos 0
      obtain ⟨cell, -, rfl⟩ := Option.map_eq_some_iff.mp hcells
      have := hlt cell (List.mem_singleton_self _)
      omega
    · intro hP j hj t
      obtain ⟨cell, hcell⟩ := perInstanceDepIdx_isSome t (c.factor id) (c.nodeAt id).hasBarrier hP
        (hlen.symm ▸ hj : j < p.indexes.length)
      refine ⟨[cell], by rw [hcell]; rfl, fun x hx => ?_⟩
      rw [List.mem_singleton.mp hx]
      exact perInstanceDepIdx_lt hcell
  · have hrel : c.IsRelative id p := by
      unfold IsRelative
      rw [if_neg hone]
      exact hlen
    have hfetch : ∀ j t, c.fetchResResults id p j t =
        p.indexes.mapM fun d => findPredIndex j d (c.factor p.id) := by
      intro j t
      unfold fetchResResults
      match hindexes : p.indexes with
      | [] => exact absurd hindexes hne
      | [_] => exact absurd (by rw [hindexes]; rfl) hone
      | _ :: _ :: _ =>
        rw [hindexes] at hlen
        simp only [hlen, if_false]
    simp only [hlen, false_or, AsksForCells, hne, hrel, true_implies, hfetch,
      mapM_findPredIndex_iff hsize]
    obtain ⟨first, hfirst⟩ := List.exists_mem_of_ne_nil _ hne
    constructor
    · intro h
      exact ⟨(h 0 hpos 0 first hfirst).1, fun j hj d hd => (h j hj 0 d hd).2⟩
    · rintro ⟨hP, h⟩ j hj _ d hd
      exact ⟨hP, h j hj d hd⟩

end Compiled

/-- For every node and every index list that one of its arguments or conditions may declare, the
resolver asks for cells of the predecessor only, whatever index the task carries, if and only if
the list stays within the predecessor. A predecessor's cells fit in memory. -/
theorem fetched_cells_exist_iff (c : Compiled) (id : ℕ) (p : Predecessor)
    (hsize : c.factor p.id < 2 ^ 63) :
    (∀ j < c.factor id, ∀ predIndex, c.AsksForCells id p j predIndex) ↔
      (0 < c.factor id → p.indexes ≠ [] → c.FitsPredecessor id p) := by
  by_cases hpos : 0 < c.factor id
  · match hindexes : p.indexes with
    | [] => exact iff_of_true (fun _ _ _ => .inl hindexes) fun _ h => absurd rfl h
    | [d] =>
      rw [Compiled.asksForCells_single_iff hindexes hsize hpos]
      exact ⟨fun h _ _ => h, fun h => h hpos (by simp)⟩
    | d₀ :: d₁ :: rest =>
      rw [Compiled.asksForCells_list_iff (by rw [hindexes]; simp) hsize hpos]
      exact ⟨fun h _ _ => h, fun h => h hpos (by simp)⟩
  · exact iff_of_true (fun j hj => absurd hj (by omega)) fun h => absurd h hpos

/-- A node of factor 3 that reads two neighbours of each instance from a source of factor 8. -/
def neighbours : List Node :=
  [⟨false, 0, [], 8, none, false⟩,
    ⟨false, 1, [⟨.res, false, some ⟨0, [-1, 0], none⟩⟩], 3, none, false⟩]

theorem builtFrom_neighbours : BuiltFrom neighbours (Compiled.ofNodes neighbours) :=
  builtFrom_ofNodes (by decide) (by decide)

theorem fetched_cells_exist_iff_at_neighbours :
    (∀ j < (Compiled.ofNodes neighbours).factor 1, ∀ predIndex,
        (Compiled.ofNodes neighbours).AsksForCells 1 ⟨0, [-1, 0], none⟩ j predIndex) ↔
      (0 < (Compiled.ofNodes neighbours).factor 1 → ([-1, 0] : List ℤ) ≠ [] →
        (Compiled.ofNodes neighbours).FitsPredecessor 1 ⟨0, [-1, 0], none⟩) :=
  fetched_cells_exist_iff (Compiled.ofNodes neighbours) 1 ⟨0, [-1, 0], none⟩ (by decide)

/-- Instance 0 asks for cell `usize::MAX`, its left neighbour. -/
theorem fetched_cell_missing :
    ¬ ∀ nodes c, BuiltFrom nodes c → ∀ id < nodes.length, ∀ a ∈ (c.nodeAt id).args,
      ∀ p, a.isResult = true → a.predecessor = some p → c.factor p.id < 2 ^ 63 →
        ∀ j < c.factor id, ∀ predIndex, c.AsksForCells id p j predIndex := by
  intro h
  have hasks := h neighbours _ builtFrom_neighbours 1 (by decide)
    ⟨.res, false, some ⟨0, [-1, 0], none⟩⟩ (by decide) ⟨0, [-1, 0], none⟩ rfl rfl (by decide) 0
    (by decide) 0
  rcases hasks with hnil | ⟨cells, hcells, hlt, -⟩
  · cases hnil
  · have hfetch : (Compiled.ofNodes neighbours).fetchResResults 1 ⟨0, [-1, 0], none⟩ 0 0 =
        some [2 ^ 64 - 1, 0] := by decide
    rw [hfetch, Option.some.injEq] at hcells
    have hbad := hlt (2 ^ 64 - 1) (hcells ▸ List.mem_cons_self)
    revert hbad
    decide

end Tomii
