import Tomii.Foundations.FlatRows
import Tomii.Runtime.NodeCache
import Tomii.Runtime.CountingRouting
import Mathlib.Data.List.Nodup

/-! # The successor arena against the routing tables (`runtime/successor_arena.rs`)

The edges of all nodes in one array with 32-bit windows, each edge the narrowed row of the
tables; and what the tables say when they are read directly. -/
namespace Tomii
set_option autoImplicit false
set_option maxHeartbeats 250000

/-! ## Building the arena -/

/-- `n as u32` on a place of the edge array, read back as a place. -/
def edgePlace (n : ℕ) : ℕ := (asU32 n).toNat

namespace Compiled

variable (c : Compiled)

/-- `SuccessorArena::build`: one row of edges for each node id. -/
def successorArena : FlatRows SuccEdge :=
  FlatRows.ofRows edgePlace
    ((List.range c.graph.nodes.length).map fun predId =>
      (c.graph.successors predId).map (c.edge predId))

end Compiled

/-- The nodes the loader adds: ids are `u16`, and a reference names a node declared before. -/
structure Loaded (nodes : List Node) (c : Compiled) : Prop extends BuiltFrom nodes c where
  ids : ∀ v ∈ nodes, v.id < 2 ^ 16
  earlier : ∀ v ∈ nodes, ∀ p ∈ v.predIds, p < v.id

/-- The nodes that read `predId`, in the order of their declaration. -/
def declaredSuccessors (nodes : List Node) (predId : ℕ) : List ℕ :=
  (nodes.filter (predId ∈ ·.predIds)).map (·.id)

namespace Graph

theorem addNode_successors {g g' : Graph} {node : Node} (h : g.addNode node = some g') (p : ℕ) :
    g'.successors p = g.successors p ++ declaredSuccessors [node] p := by
  unfold addNode at h
  split at h
  · obtain rfl := Option.some.inj h
    by_cases hp : p ∈ node.predIds
    · simp [declaredSuccessors, hp]
    · simp [declaredSuccessors, hp]
  · cases h

theorem addNodes_successors {nodes : List Node} {g g' : Graph} (h : addNodes nodes g = some g')
    (p : ℕ) : g'.successors p = g.successors p ++ declaredSuccessors nodes p := by
  induction nodes generalizing g with
  | nil =>
    obtain rfl := Option.some.inj h
    exact (List.append_nil _).symm
  | cons n ns ih =>
    obtain ⟨g1, hg1, hrest⟩ := Option.bind_eq_some_iff.mp h
    rw [ih hrest, addNode_successors hg1, List.append_assoc]
    congr 1
    rw [declaredSuccessors, declaredSuccessors, declaredSuccessors, ← List.map_append,
      ← List.filter_append, List.singleton_append]

end Graph

namespace Loaded

variable {nodes : List Node} {c : Compiled} (h : Loaded nodes c)

include h

theorem successors_eq (p : ℕ) : c.graph.successors p = declaredSuccessors nodes p := by
  rw [Graph.addNodes_successors h.built]
  rfl

theorem length_le : nodes.length ≤ 2 ^ 16 := by
  rcases Nat.eq_zero_or_pos nodes.length with hzero | hpos
  · omega
  · have hlast : nodes.length - 1 < c.graph.nodes.length := by rw [h.nodes_eq]; omega
    have hid := h.rows.ids _ hlast
    have hlast' : nodes.length - 1 < nodes.length := by omega
    have hsmall := h.ids nodes[nodes.length - 1] (List.getElem_mem hlast')
    simp only [h.nodes_eq] at hid
    omega

/-- A node has fewer successors than there are nodes. -/
theorem length_successors_le (p : ℕ) :
    (c.graph.successors p).length ≤ nodes.length - 1 := by
  have hsub : (c.graph.successors p).Subperm (List.range' 1 (nodes.length - 1)) := by
    apply (h.rows.successors_nodup p).subperm
    intro s hs
    obtain ⟨hlt, hmem⟩ := h.mem_successors.mp hs
    rw [h.nodeAt_eq hlt] at hmem
    have hearlier := h.earlier _ (List.getElem_mem hlt) p hmem
    have hid := h.rows.ids s (by rw [h.nodes_eq]; exact hlt)
    simp only [h.nodes_eq] at hid
    rw [List.mem_range'_1]
    omega
  simpa using hsub.length_le

/-- All places of the edge array fit 32 bits. -/
theorem edges_fit {n : ℕ} (hn : n ≤ ((List.range c.graph.nodes.length).map fun predId =>
      (c.graph.successors predId).map (c.edge predId)).flatten.length) : edgePlace n = n := by
  have hrow : ∀ row ∈ (List.range c.graph.nodes.length).map fun predId =>
      (c.graph.successors predId).map (c.edge predId), row.length ≤ nodes.length - 1 := by
    intro row hmem
    obtain ⟨p, -, rfl⟩ := List.mem_map.mp hmem
    rw [List.length_map]
    exact h.length_successors_le p
  have hflat := length_flatten_le hrow
  rw [List.length_map, List.length_range, h.nodes_eq] at hflat
  have hbound : nodes.length * (nodes.length - 1) ≤ 2 ^ 16 * (2 ^ 16 - 1) :=
    Nat.mul_le_mul h.length_le (by have := h.length_le; omega)
  exact asU32_toNat_of_lt (by rw [h.nodes_eq] at hn; omega)

/-- `edges_for` reads back the edges of its node. -/
theorem arena_row (p : ℕ) : c.successorArena.row p = some (c.edgesFor p) := by
  rw [Compiled.successorArena, FlatRows.row_ofRows edgePlace fun n hn => h.edges_fit hn]
  by_cases hp : p < nodes.length
  · have hrange : (List.range c.graph.nodes.length)[p]? = some p := by
      rw [h.nodes_eq]
      exact List.getElem?_range hp
    rw [List.getElem?_map, hrange]
    rfl
  · have hrange : (List.range c.graph.nodes.length)[p]? = none := by
      rw [h.nodes_eq]
      exact List.getElem?_eq_none (by simp; omega)
    have hempty : c.graph.successors p = [] := by
      rw [List.eq_nil_iff_forall_not_mem]
      intro s hs
      obtain ⟨hlt, hmem⟩ := h.mem_successors.mp hs
      rw [h.nodeAt_eq hlt] at hmem
      exact hp (h.preds_exist _ (List.getElem_mem hlt) p hmem)
    rw [List.getElem?_map, hrange, Compiled.edgesFor, hempty]
    rfl

end Loaded

/-! ## The tables read directly -/

namespace Route

variable (r : Route)

/-- Range membership in `pred_index_filter`. -/
def passes (i : ℕ) : Bool := r.filter.all fun b => b.1 ≤ i && i < b.2

def rangeStart : ℕ := (r.filter.map (·.1)).getD 0

/-- `(pred_index - range start) / group_by`, or the global counter; `none` where the
subtraction or the division has no result. -/
def groupOf (i : ℕ) : Option (Option ℕ) :=
  match r.groupBy with
  | none => some none
  | some gb => if r.rangeStart ≤ i ∧ gb ≠ 0 then some (some ((i - r.rangeStart) / gb)) else none

/-- `(pred_index - offset) mod factor` -/
def succIdxOf (factor i : ℕ) : Option ℕ :=
  r.oneToOneOffset.map fun k => ((i - k) % (factor : ℤ)).toNat

/-- How many of the first `predFactor` instances pass. -/
def width (predFactor : ℕ) : ℕ :=
  match r.filter with
  | none => predFactor
  | some b => min b.2 predFactor - b.1

/-- The row keeps its meaning in 32-bit fields. -/
structure Fits (predFactor factor : ℕ) : Prop where
  filter : ∀ b ∈ r.filter, b.1 < 2 ^ 32 ∧ b.2 < 2 ^ 32 - 1
  groupBy : ∀ gb ∈ r.groupBy, 0 < gb ∧ gb < 2 ^ 32 ∨ r.width predFactor ≤ gb % 2 ^ 32
  offset : ∀ k ∈ r.oneToOneOffset, 0 < predFactor →
    factor % 2 ^ 32 ≠ 0 ∧
      (-k) % (factor : ℤ) = (-isizeAsI32 k) % ((factor % 2 ^ 32 : ℕ) : ℤ) ∧
      (factor < 2 ^ 32 ∨ ((-k) % (factor : ℤ)).toNat + predFactor ≤ factor % 2 ^ 32)

theorem passes_iff {predFactor i : ℕ} (hi : i < predFactor) :
    r.passes i = true ↔ r.rangeStart ≤ i ∧ i - r.rangeStart < r.width predFactor := by
  unfold passes rangeStart width
  cases r.filter with
  | none => simp [hi]
  | some b =>
    simp only [Option.all_some, Bool.and_eq_true, decide_eq_true_eq, Option.map_some,
      Option.getD_some]
    omega

end Route

/-- Edge `e` answers every question about the instances of its predecessor as row `r` does. -/
structure SuccEdge.AnswersAs (e : SuccEdge) (r : Route) (predFactor factor : ℕ) : Prop where
  bounds : e.filterBounds = r.filter
  passes : ∀ i < predFactor, e.passesFilter i = r.passes i
  no_underflow : ∀ i < predFactor, e.passesFilter i = true → e.groupBy ≠ noGroup →
    e.filterStart.toNat ≤ i
  group : ∀ i < predFactor, e.passesFilter i = true → r.groupOf i = some (e.predGroup i)
  divides : ∀ i < predFactor, e.isOneToOne = true → e.succFactor ≠ 0
  succIdx : ∀ i < predFactor, e.oneToOneSuccIdx i = r.succIdxOf factor i

/-! ## The bounds of a filter -/

namespace SuccEdge

variable (succId factor : ℕ) (isCondition isFanoutBulk : Bool) (r : Route)

theorem filterBounds_ofRoute :
    (ofRoute succId factor isCondition isFanoutBulk r).filterBounds = r.filter ↔
      ∀ b ∈ r.filter, b.1 < 2 ^ 32 ∧ b.2 < 2 ^ 32 - 1 := by
  cases hf : r.filter with
  | none =>
    have hend : (ofRoute succId factor isCondition isFanoutBulk r).filterEnd = noFilter := by
      simp [ofRoute, hf]
    simp [filterBounds, hend]
  | some b =>
    obtain ⟨lo, hi⟩ := b
    have hmax : noFilter.toNat = 2 ^ 32 - 1 := by decide
    have hsentinel : asU32 hi = noFilter ↔ hi % 2 ^ 32 = 2 ^ 32 - 1 := by
      rw [← UInt32.toNat_inj, asU32_toNat, hmax]
    simp only [filterBounds_eq_some, ofRoute, hf, Option.map_some, Option.getD_some, asU32_toNat,
      ne_eq, hsentinel, Option.mem_def, Option.some.injEq, forall_eq']
    omega

/-! ## Groups -/

/-- Two quotients agree on an initial segment. -/
theorem quotients_agree_iff {gb n : ℕ} :
    (∀ j < n, (if gb ≠ 0 then some (some (j / gb)) else none) =
      some (if gb % 2 ^ 32 = 0 then none else some (j / (gb % 2 ^ 32)))) ↔
      0 < gb ∧ gb < 2 ^ 32 ∨ n ≤ gb % 2 ^ 32 := by
  constructor
  · intro hall
    by_contra hcon
    have hlt : gb % 2 ^ 32 < n := by omega
    have hat := hall _ hlt
    by_cases hzero : gb % 2 ^ 32 = 0
    · have hfirst := hall 0 (by omega)
      rw [if_pos hzero] at hfirst
      split at hfirst <;> simp at hfirst
    · have hpos : gb ≠ 0 := by rintro rfl; exact hzero rfl
      rw [if_neg hzero, if_pos hpos, Nat.div_self (by omega)] at hat
      have hbig : gb % 2 ^ 32 < gb := by omega
      rw [Nat.div_eq_of_lt hbig] at hat
      cases hat
  · rintro (⟨hpos, hsmall⟩ | hle) j hj
    · have hmod : gb % 2 ^ 32 = gb := Nat.mod_eq_of_lt hsmall
      rw [hmod, if_pos (by omega), if_neg (by omega)]
    · have hne : gb % 2 ^ 32 ≠ 0 := by omega
      have hpos : gb ≠ 0 := by rintro rfl; exact hne rfl
      have hmod := Nat.mod_le gb (2 ^ 32)
      rw [if_pos hpos, if_neg hne, Nat.div_eq_of_lt (by omega), Nat.div_eq_of_lt (by omega)]

variable {succId factor isCondition isFanoutBulk r}

theorem filterStart_ofRoute (hfilter : ∀ b ∈ r.filter, b.1 < 2 ^ 32 ∧ b.2 < 2 ^ 32 - 1) :
    (ofRoute succId factor isCondition isFanoutBulk r).filterStart.toNat = r.rangeStart := by
  cases hf : r.filter with
  | none => simp [ofRoute, Route.rangeStart, hf]
  | some b =>
    simp only [ofRoute, Route.rangeStart, hf, Option.map_some, Option.getD_some, asU32_toNat]
    exact Nat.mod_eq_of_lt (hfilter b hf).1

theorem passesFilter_ofRoute (hfilter : ∀ b ∈ r.filter, b.1 < 2 ^ 32 ∧ b.2 < 2 ^ 32 - 1) (i : ℕ) :
    (ofRoute succId factor isCondition isFanoutBulk r).passesFilter i = r.passes i := by
  have hbounds := (filterBounds_ofRoute succId factor isCondition isFanoutBulk r).mpr hfilter
  cases hf : r.filter with
  | none => rw [passesFilter_of_none _ (hbounds.trans hf), Route.passes, hf, Option.all_none]
  | some b =>
    rw [Bool.eq_iff_iff, passesFilter_of_some _ (hbounds.trans hf), Route.passes, hf]
    simp

theorem groupBy_ofRoute {gb : ℕ} (hgb : r.groupBy = some gb) :
    (ofRoute succId factor isCondition isFanoutBulk r).groupBy.toNat = gb % 2 ^ 32 := by
  simp [ofRoute, hgb]

/-- With the bounds of the filter kept, the groups agree exactly under `Fits.groupBy`. -/
theorem predGroup_ofRoute {predFactor : ℕ}
    (hfilter : ∀ b ∈ r.filter, b.1 < 2 ^ 32 ∧ b.2 < 2 ^ 32 - 1) :
    (∀ i < predFactor, (ofRoute succId factor isCondition isFanoutBulk r).passesFilter i = true →
      r.groupOf i = some ((ofRoute succId factor isCondition isFanoutBulk r).predGroup i)) ↔
      ∀ gb ∈ r.groupBy, 0 < gb ∧ gb < 2 ^ 32 ∨ r.width predFactor ≤ gb % 2 ^ 32 := by
  cases hg : r.groupBy with
  | none =>
    have hnone : (ofRoute succId factor isCondition isFanoutBulk r).groupBy = noGroup := by
      simp [ofRoute, hg]
    simp [Route.groupOf, hg, predGroup, hnone]
  | some gb =>
    have hstored := @groupBy_ofRoute succId factor isCondition isFanoutBulk r gb hg
    have hno : (ofRoute succId factor isCondition isFanoutBulk r).groupBy = noGroup ↔
        gb % 2 ^ 32 = 0 := by
      rw [← UInt32.toNat_inj, hstored]
      rfl
    have hanswer : ∀ i, r.rangeStart ≤ i →
        (r.groupOf i = some ((ofRoute succId factor isCondition isFanoutBulk r).predGroup i) ↔
          (if gb ≠ 0 then some (some ((i - r.rangeStart) / gb)) else none) =
            some (if gb % 2 ^ 32 = 0 then none
              else some ((i - r.rangeStart) / (gb % 2 ^ 32)))) := by
      intro i hi
      simp only [Route.groupOf, hg, hi, true_and, predGroup, hno, hstored,
        filterStart_ofRoute hfilter, wrappingSub_of_le hi]
    simp only [Option.mem_def, Option.some.injEq, forall_eq', passesFilter_ofRoute hfilter]
    rw [← quotients_agree_iff]
    constructor
    · intro hall j hj
      have hin : r.rangeStart + j < predFactor := by
        unfold Route.width at hj
        unfold Route.rangeStart
        cases hf : r.filter with
        | none => simpa [hf] using hj
        | some b =>
          simp only [hf] at hj
          simp only [Option.map_some, Option.getD_some]
          omega
      have hpass : r.passes (r.rangeStart + j) = true :=
        (r.passes_iff hin).mpr ⟨by omega, by rwa [Nat.add_sub_cancel_left]⟩
      have := (hanswer _ (by omega)).mp (hall _ hin hpass)
      rwa [Nat.add_sub_cancel_left] at this
    · intro hall i hi hpass
      obtain ⟨hstart, hwidth⟩ := (r.passes_iff hi).mp hpass
      exact (hanswer i hstart).mpr (hall _ hwidth)

/-! ## Offsets -/

/-- Two shifted residues agree on an initial segment when they start together and neither
wraps before its end. -/
theorem residues_agree_iff {f f' n : ℕ} {k k' : ℤ} (hn : 0 < n) (hf' : 0 < f') (hle : f' ≤ f) :
    (∀ i < n, (((i : ℕ) - k) % (f : ℤ)).toNat = ((i - k') % (f' : ℤ)).toNat) ↔
      (-k) % (f : ℤ) = (-k') % (f' : ℤ) ∧ (f' = f ∨ ((-k) % (f : ℤ)).toNat + n ≤ f') := by
  have hnonneg : ∀ (m : ℤ) {d : ℕ}, 0 < d → 0 ≤ m % (d : ℤ) ∧ m % (d : ℤ) < d := fun m d hd =>
    ⟨Int.emod_nonneg _ (by omega), Int.emod_lt_of_pos _ (by omega)⟩
  have hshift : ∀ (i : ℕ) (m : ℤ) (d : ℕ), ((i : ℤ) - m) % d = (i + (-m) % d) % d := by
    intro i m d
    rw [Int.add_emod_emod, ← sub_eq_add_neg]
  have ha := hnonneg (-k) (Nat.lt_of_lt_of_le hf' hle)
  have ha' := hnonneg (-k') hf'
  constructor
  · intro hall
    have hstart : (-k) % (f : ℤ) = (-k') % (f' : ℤ) := by
      have h0 := hall 0 hn
      simp only [Nat.cast_zero, Int.zero_sub] at h0
      omega
    refine ⟨hstart, ?_⟩
    by_contra hcon
    -- the narrow residue wraps first, at the instance that closes its first turn
    obtain ⟨a, hak⟩ : ∃ a : ℕ, (-k) % (f : ℤ) = a := ⟨_, (Int.toNat_of_nonneg ha.1).symm⟩
    rw [hak] at hcon hstart
    have hwrap := hall (f' - a) (by omega)
    have hwide : (((f' - a : ℕ) : ℤ) + a) = f' := by omega
    rw [hshift, hshift (f' - a) k', hak, ← hstart, hwide, Int.emod_self,
      Int.emod_eq_of_lt (by omega) (by omega)] at hwrap
    omega
  · rintro ⟨hstart, hrange⟩ i hi
    rw [hshift, hshift i k', ← hstart]
    rcases hrange with rfl | hbound
    · rfl
    · have hstay : ∀ {d : ℕ}, f' ≤ d →
          ((i : ℤ) + (-k) % (f : ℤ)) % (d : ℤ) = i + (-k) % (f : ℤ) :=
        fun hd => Int.emod_eq_of_lt (by omega) (by omega)
      rw [hstay hle, hstay (Nat.le_refl f')]

theorem succIdx_ofRoute {predFactor : ℕ} :
    ((∀ i < predFactor, (ofRoute succId factor isCondition isFanoutBulk r).isOneToOne = true →
        (ofRoute succId factor isCondition isFanoutBulk r).succFactor ≠ 0) ∧
      ∀ i < predFactor, (ofRoute succId factor isCondition isFanoutBulk r).oneToOneSuccIdx i =
        r.succIdxOf factor i) ↔
      ∀ k ∈ r.oneToOneOffset, 0 < predFactor →
        factor % 2 ^ 32 ≠ 0 ∧
          (-k) % (factor : ℤ) = (-isizeAsI32 k) % ((factor % 2 ^ 32 : ℕ) : ℤ) ∧
          (factor < 2 ^ 32 ∨
            ((-k) % (factor : ℤ)).toNat + predFactor ≤ factor % 2 ^ 32) := by
  cases hk : r.oneToOneOffset with
  | none => simp [isOneToOne, ofRoute, oneToOneSuccIdx, Route.succIdxOf, hk]
  | some k =>
    have hdiv : (ofRoute succId factor isCondition isFanoutBulk r).succFactor ≠ 0 ↔
        factor % 2 ^ 32 ≠ 0 := by
      rw [ne_eq, ← UInt32.toNat_inj]
      simp [ofRoute]
    have hone : (ofRoute succId factor isCondition isFanoutBulk r).isOneToOne = true := by
      simp [isOneToOne, ofRoute, hk]
    have hedge : ∀ i, (ofRoute succId factor isCondition isFanoutBulk r).oneToOneSuccIdx i =
        some ((i - isizeAsI32 k) % ((factor % 2 ^ 32 : ℕ) : ℤ)).toNat := by
      intro i
      simp [oneToOneSuccIdx, ofRoute, hk]
    simp only [hdiv, hone, hedge, Route.succIdxOf, hk, Option.map_some, Option.mem_def,
      Option.some.injEq, forall_eq', forall_const]
    rcases Nat.eq_zero_or_pos predFactor with rfl | hpos
    · simp
    · by_cases hzero : factor % 2 ^ 32 = 0
      · constructor
        · rintro ⟨hall, -⟩
          exact absurd hzero (hall 0 hpos)
        · intro hall
          exact absurd hzero (hall hpos).1
      · have hle := Nat.mod_le factor (2 ^ 32)
        have hsame : factor % 2 ^ 32 = factor ↔ factor < 2 ^ 32 := by omega
        have hagree := @residues_agree_iff factor (factor % 2 ^ 32) predFactor k (isizeAsI32 k)
          hpos (by omega) hle
        rw [hsame] at hagree
        rw [← hagree]
        constructor
        · rintro ⟨-, hall⟩ -
          exact ⟨hzero, fun i hi => (hall i hi).symm⟩
        · intro hall
          exact ⟨fun _ _ => hzero, fun i hi => ((hall hpos).2 i hi).symm⟩

theorem answersAs_iff {predFactor : ℕ} :
    (ofRoute succId factor isCondition isFanoutBulk r).AnswersAs r predFactor factor ↔
      r.Fits predFactor factor := by
  constructor
  · intro h
    have hfilter := (filterBounds_ofRoute succId factor isCondition isFanoutBulk r).mp h.bounds
    exact ⟨hfilter, (predGroup_ofRoute hfilter).mp h.group, succIdx_ofRoute.mp ⟨h.divides, h.succIdx⟩⟩
  · intro h
    have hoffset :=
      (@succIdx_ofRoute succId factor isCondition isFanoutBulk r predFactor).mpr h.offset
    refine ⟨(filterBounds_ofRoute _ _ _ _ _).mpr h.filter, ?_, ?_, ?_, hoffset.1, hoffset.2⟩
    · intro i _
      exact passesFilter_ofRoute h.filter i
    · intro i hi hpass _
      rw [filterStart_ofRoute h.filter]
      rw [passesFilter_ofRoute h.filter] at hpass
      exact ((r.passes_iff hi).mp hpass).1
    · exact (predGroup_ofRoute h.filter).mpr h.groupBy

end SuccEdge

/-! ## The arena of a loaded graph -/

/-- `edges_for(predId)` lists the declared successors in order, and each edge answers as the
row of the tables at `[succ][predId]` does. -/
def ArenaRefines (nodes : List Node) (c : Compiled) (predId : ℕ) : Prop :=
  ∃ edges, c.successorArena.row predId = some edges ∧
    edges.map (·.succId) = declaredSuccessors nodes predId ∧
    ∀ e ∈ edges, e.AnswersAs
      (c.graph.route c.range1to1Enabled (c.nodeAt e.succId) predId) (c.factor predId)
      (c.factor e.succId)

/-- The arena refines the tables at a predecessor exactly when the rows of its successors keep
their meaning in 32-bit fields. -/
theorem arenaRefines_iff_fits {nodes : List Node} {c : Compiled} (h : Loaded nodes c)
    (predId : ℕ) :
    ArenaRefines nodes c predId ↔ ∀ v ∈ declaredSuccessors nodes predId,
      (c.graph.route c.range1to1Enabled (c.nodeAt v) predId).Fits (c.factor predId)
        (c.factor v) := by
  have hids : (c.edgesFor predId).map (·.succId) = declaredSuccessors nodes predId := by
    rw [Compiled.edgesFor, List.map_map, ← h.successors_eq]
    exact List.map_id _
  constructor
  · rintro ⟨edges, hrow, -, hanswers⟩ v hv
    obtain rfl := Option.some.inj (hrow.symm.trans (h.arena_row predId))
    rw [← h.successors_eq] at hv
    exact SuccEdge.answersAs_iff.mp (hanswers _ (c.mem_edgesFor.mpr ⟨v, hv, rfl⟩))
  · intro hfits
    refine ⟨c.edgesFor predId, h.arena_row predId, hids, ?_⟩
    intro e he
    obtain ⟨v, hv, rfl⟩ := c.mem_edgesFor.mp he
    rw [h.successors_eq] at hv
    exact SuccEdge.answersAs_iff.mpr (hfits v hv)

/-! ## References that fit -/

/-- Declared indexes are small and not negative, and a divisor is positive and small. -/
def OrdinaryReferences (v : Node) (predId : ℕ) : Prop :=
  ∀ q ∈ v.argsOnPred predId,
    (∀ i ∈ q.2.indexes, 0 ≤ i ∧ i < 2 ^ 31) ∧ ∀ gb ∈ q.2.groupBy, 0 < gb ∧ gb < 2 ^ 32

theorem Predecessor.indexFilter_lt {p : Predecessor} (h : ∀ i ∈ p.indexes, 0 ≤ i ∧ i < 2 ^ 31)
    (predFactor succFactor : ℕ) :
    ∀ b ∈ p.indexFilter predFactor succFactor, b.1 < 2 ^ 32 ∧ b.2 < 2 ^ 32 - 1 := by
  intro b hb
  unfold indexFilter at hb
  split at hb
  · next lo hi hmin hmax =>
    obtain ⟨hlo, hlo'⟩ := h lo (List.min?_mem hmin)
    obtain ⟨hhi, hhi'⟩ := h hi (List.max?_mem hmax)
    simp only [isizeAsUsize_of_nonneg hlo (by omega), isizeAsUsize_of_nonneg hhi (by omega)] at hb
    split at hb
    · obtain rfl := Option.some.inj hb
      simp only
      omega
    · cases hb
  · cases hb

namespace Graph

variable {g : Graph} {v : Node} {p : ℕ} (h : OrdinaryReferences v p)

include h

theorem windowPred_ordinary {q : Predecessor} (hq : g.windowPred v p = some q) :
    ∀ i ∈ q.indexes, 0 ≤ i ∧ i < 2 ^ 31 := by
  unfold windowPred at hq
  split at hq
  · next r gb hgrouped =>
    obtain rfl := Option.some.inj hq
    obtain ⟨a, ha, hsome⟩ := List.exists_of_findSome?_eq_some hgrouped
    split at hsome
    · obtain ⟨gb', -, heq⟩ := Option.map_eq_some_iff.mp hsome
      obtain ⟨rfl, -⟩ := Prod.mk.injEq .. ▸ heq
      exact (h a ha).1
    · cases hsome
  · split at hq
    · cases hq
    · next arg first rest hargs =>
      split at hq
      · obtain rfl := Option.some.inj hq
        exact (h _ (hargs ▸ List.mem_cons_self)).1
      · split at hq
        · obtain rfl := Option.some.inj hq
          intro i hi
          obtain ⟨a, ha, hia⟩ := List.mem_flatMap.mp (List.mem_dedup.mp hi)
          exact (h a ha).1 i hia
        · cases hq

theorem groupedBarrier_ordinary {q : Predecessor × ℕ} (hq : g.groupedBarrier v p = some q) :
    0 < q.2 ∧ q.2 < 2 ^ 32 := by
  obtain ⟨a, ha, hsome⟩ := List.exists_of_findSome?_eq_some hq
  split at hsome
  · obtain ⟨gb, hgb, rfl⟩ := Option.map_eq_some_iff.mp hsome
    unfold barrierGroupByForDependency at hgb
    split at hgb
    · cases hgb
    · exact (h a ha).2 gb hgb
  · cases hsome

theorem route_offset_ordinary {enabled : Bool} {k : ℤ}
    (hk : (g.route enabled v p).oneToOneOffset = some k) :
    0 ≤ k ∧ k < 2 ^ 31 ∧ 1 < v.factor := by
  unfold route at hk
  split at hk
  · cases hk
  · split at hk
    · cases hk
    · next arg first rest hargs =>
      split at hk
      · simp only [routeSingle] at hk
        split at hk
        · next hcond =>
          have hmem : (arg, first) ∈ v.argsOnPred p := hargs ▸ List.mem_cons_self
          obtain ⟨hk0, hk1⟩ := (h _ hmem).1 k (List.mem_of_mem_head? hk)
          exact ⟨hk0, hk1, hcond.2.2.2⟩
        · cases hk
      · split at hk <;> cases hk

end Graph

/-- The row of ordinary references keeps its meaning. -/
theorem OrdinaryReferences.fits {c : Compiled} {v : Node} {p : ℕ} (h : OrdinaryReferences v p)
    (hfactor : v.factor < 2 ^ 32) (predFactor : ℕ) :
    (c.graph.route c.range1to1Enabled v p).Fits predFactor v.factor where
  filter := by
    intro b hb
    rw [c.route_filter] at hb
    obtain ⟨q, hq, hfilter⟩ := Option.bind_eq_some_iff.mp hb
    exact Predecessor.indexFilter_lt (Graph.windowPred_ordinary h hq) _ _ b hfilter
  groupBy := by
    intro gb hgb
    rw [c.route_groupBy] at hgb
    obtain ⟨q, hq, rfl⟩ := Option.map_eq_some_iff.mp hgb
    exact .inl (Graph.groupedBarrier_ordinary h hq)
  offset := by
    intro k hk _
    obtain ⟨hk0, hk1, hmany⟩ := Graph.route_offset_ordinary h hk
    have hsame : isizeAsI32 k = k := by
      rw [isizeAsI32, Int.bmod_eq_of_le (by omega) (by omega)]
    rw [Nat.mod_eq_of_lt hfactor, hsame]
    exact ⟨by omega, rfl, .inl hfactor⟩

instance (v : Node) (predId : ℕ) : Decidable (OrdinaryReferences v predId) :=
  inferInstanceAs (Decidable (∀ q ∈ v.argsOnPred predId, _ ∧ _))

/-- A producer of four cells with a grouped barrier and a shifted 1:1 reader behind it. -/
def producerAndReaders : List Node :=
  [⟨false, 0, [], 4, none, false⟩,
    ⟨false, 1, [⟨.barrier, false, some ⟨0, [0, 1, 2, 3], some 2⟩⟩], 2, none, false⟩,
    ⟨false, 2, [⟨.res, false, some ⟨0, [1], none⟩⟩], 4, none, false⟩]

theorem loaded_producerAndReaders : Loaded producerAndReaders (.ofNodes producerAndReaders) where
  toBuiltFrom := builtFrom_ofNodes (by decide) (by decide)
  ids := by decide
  earlier := by decide

theorem producerAndReaders_refines :
    ArenaRefines producerAndReaders (.ofNodes producerAndReaders) 0 := by
  apply (arenaRefines_iff_fits loaded_producerAndReaders 0).mpr
  have hordinary : ∀ v ∈ declaredSuccessors producerAndReaders 0,
      OrdinaryReferences ((Compiled.ofNodes producerAndReaders).nodeAt v) 0 ∧
        ((Compiled.ofNodes producerAndReaders).nodeAt v).factor < 2 ^ 32 := by
    decide
  intro v hv
  obtain ⟨href, hfactor⟩ := hordinary v hv
  exact href.fits hfactor _

/-! ## A sentinel in the tables -/

/-- Two nodes: `b` waits with a grouped barrier for the instances `-3` and `-2` of `a`. -/
def groupedOnNegatives : List Node :=
  [⟨false, 0, [], 4, none, false⟩,
    ⟨false, 1, [⟨.barrier, false, some ⟨0, [-3, -2], some 2⟩⟩], 1, none, false⟩]

theorem loaded_groupedOnNegatives : Loaded groupedOnNegatives (.ofNodes groupedOnNegatives) where
  toBuiltFrom := builtFrom_ofNodes (by decide) (by decide)
  ids := by decide
  earlier := by decide

/-- The declared bound `-2 + 1` narrows to the sentinel for an edge without a filter: an
instance that the table turns away passes, and its group lies below the start of the range. -/
theorem groupedOnNegatives_unfiltered :
    ∃ e, (Compiled.ofNodes groupedOnNegatives).successorArena.row 0 = some [e] ∧
      e.passesFilter 0 = true ∧ ¬ e.filterStart.toNat ≤ 0 ∧
      ¬ ArenaRefines groupedOnNegatives (.ofNodes groupedOnNegatives) 0 := by
  have hrow := loaded_groupedOnNegatives.arena_row 0
  have hedges : (Compiled.ofNodes groupedOnNegatives).edgesFor 0 =
      [(Compiled.ofNodes groupedOnNegatives).edge 0 1] := rfl
  rw [hedges] at hrow
  refine ⟨_, hrow, by decide +kernel, by decide +kernel, ?_⟩
  rintro ⟨edges, hedges', -, hanswers⟩
  obtain rfl := Option.some.inj (hrow.symm.trans hedges')
  have hpasses := (hanswers _ List.mem_cons_self).passes 0 (by decide +kernel)
  revert hpasses
  decide +kernel

end Tomii
