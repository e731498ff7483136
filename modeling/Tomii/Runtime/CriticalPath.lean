import Tomii.Foundations.LongestPaths
import Tomii.Foundations.Texts
import Mathlib.Algebra.Order.Ring.Nat
import Mathlib.Data.List.Forall2
import Mathlib.Data.List.Chain

/-! # The critical path of a report

The edge list names the successors of every node. Nodes are the indices into the list while the path
is looked for, and names again in the report. -/
namespace Tomii
set_option autoImplicit false
set_option maxHeartbeats 250000

variable {W : Type} [AddCommMonoid W] [LinearOrder W]

structure ReportCriticalPath (W : Type) where
  lengthNodes : ℕ
  estimatedLatencyUs : W
  nodes : List Text
  deriving DecidableEq

def insertName (m : Text → Option ℕ) (entry : (Text × List Text) × ℕ) : Text → Option ℕ :=
  Function.update m entry.1.1 (some entry.2)

section Edges

variable (graphEdges : List (Text × List Text)) (meanExecUs : Text → Option W)

/-- A name that is listed twice stands for its last entry. -/
def nameToIdx : Text → Option ℕ :=
  graphEdges.zipIdx.foldl insertName fun _ => none

def nameAt (i : ℕ) : Option Text := graphEdges[i]?.map Prod.fst

/-- Successors that are not listed are passed over. -/
def adj (i : ℕ) : List ℕ :=
  (graphEdges[i]?.elim [] Prod.snd).filterMap (nameToIdx graphEdges)

def meanOf (name : Text) : W := (meanExecUs name).getD 0

def weightAt (i : ℕ) : W := (nameAt graphEdges i).elim 0 (meanOf meanExecUs)

/-- Nothing is returned when the fuel is used up, when a degree underflows and when an index is out of
bounds. -/
def computeCriticalPathReport (fuel : ℕ) : Option (Option (ReportCriticalPath W)) :=
  if graphEdges.isEmpty then some none else
    let n := graphEdges.length
    (topoOrder (adj graphEdges) n fuel).bind fun topo =>
      let e := estimate (adj graphEdges) (weightAt graphEdges meanExecUs) topo
      let (endNode, maxDist) := (argMax e.dist n).elim (0, 0) fun i => (i, e.dist i)
      (backTrace e.prev fuel endNode).bind fun back =>
        let path := back.reverse
        (path.mapM (nameAt graphEdges)).map fun pathNames =>
          some ⟨path.length, maxDist, pathNames⟩

/-! ## Paths -/

/-- An edge between two nodes of the list. -/
def Follows (a b : Text) : Prop :=
  ∃ succs, (a, succs) ∈ graphEdges ∧ b ∈ succs ∧ b ∈ graphEdges.map Prod.fst

structure IsPath (path : List Text) : Prop where
  nonempty : path ≠ []
  listed : ∀ name ∈ path, name ∈ graphEdges.map Prod.fst
  follows : path.IsChain (Follows graphEdges)

def pathWeight (path : List Text) : W := (path.map (meanOf meanExecUs)).sum

def Acyclic : Prop := ∀ name, ¬ Relation.TransGen (Follows graphEdges) name name

end Edges

variable {graphEdges : List (Text × List Text)} {meanExecUs : Text → Option W}

/-! ## Names and indices -/

theorem nameAt_of_nameToIdx {name : Text} {i : ℕ} (h : nameToIdx graphEdges name = some i) :
    nameAt graphEdges i = some name := by
  have hfold : ∀ (entries : List ((Text × List Text) × ℕ)) (m : Text → Option ℕ),
      (∀ name i, m name = some i → nameAt graphEdges i = some name) →
      (∀ entry ∈ entries, graphEdges[entry.2]? = some entry.1) →
      ∀ name i, entries.foldl insertName m name = some i → nameAt graphEdges i = some name := by
    intro entries
    induction entries with
    | nil => exact fun m hm _ => hm
    | cons entry entries ih =>
      intro m hm hentries
      obtain ⟨hentry, hrest⟩ := List.forall_mem_cons.mp hentries
      refine ih _ (fun name i hi => ?_) hrest
      by_cases hname : name = entry.1.1
      · subst hname
        rw [insertName, Function.update_self] at hi
        obtain rfl := Option.some.inj hi
        rw [nameAt, hentry, Option.map_some]
      · rw [insertName, Function.update_of_ne hname] at hi
        exact hm name i hi
  refine hfold graphEdges.zipIdx _ (fun name i hi => by cases hi) (fun entry hentry => ?_) name i h
  exact List.mem_zipIdx_iff_getElem?.mp hentry

theorem nameToIdx_of_mem {name : Text} (h : name ∈ graphEdges.map Prod.fst) :
    ∃ i, nameToIdx graphEdges name = some i := by
  have hfold : ∀ (entries : List ((Text × List Text) × ℕ)) (m : Text → Option ℕ),
      (m name).isSome ∨ name ∈ entries.map (Prod.fst ∘ Prod.fst) →
      (entries.foldl insertName m name).isSome := by
    intro entries
    induction entries with
    | nil => exact fun m hm => hm.resolve_right List.not_mem_nil
    | cons entry entries ih =>
      intro m hm
      refine ih _ ?_
      by_cases hname : name = entry.1.1
      · left
        rw [insertName, hname, Function.update_self]
        rfl
      · rw [insertName, Function.update_of_ne hname]
        exact hm.imp_right fun hin => (List.mem_cons.mp hin).resolve_left hname
  refine Option.isSome_iff_exists.mp (hfold graphEdges.zipIdx _ (.inr ?_))
  rwa [← List.map_map, List.zipIdx_map_fst]

theorem nameAt_lt {i : ℕ} {name : Text} (h : nameAt graphEdges i = some name) :
    i < graphEdges.length := by
  obtain ⟨entry, hentry, -⟩ := Option.map_eq_some_iff.mp h
  exact (List.getElem?_eq_some_iff.mp hentry).1

theorem exists_nameAt {i : ℕ} (h : i < graphEdges.length) :
    ∃ name, nameAt graphEdges i = some name :=
  ⟨graphEdges[i].1, by rw [nameAt, List.getElem?_eq_getElem h, Option.map_some]⟩

theorem adj_lt {i j : ℕ} (h : j ∈ adj graphEdges i) : j < graphEdges.length := by
  obtain ⟨name, -, hname⟩ := List.mem_filterMap.mp h
  exact nameAt_lt (nameAt_of_nameToIdx hname)

/-- Names that can be numbered along the edges. -/
theorem acyclic_of_rank (rank : Text → ℕ)
    (h : ∀ entry ∈ graphEdges, ∀ succ ∈ entry.2, succ ∈ graphEdges.map Prod.fst →
      rank entry.1 < rank succ) : Acyclic graphEdges := by
  have hless : ∀ a b, Relation.TransGen (Follows graphEdges) a b → rank a < rank b := by
    intro a b hab
    induction hab with
    | single hedge =>
      obtain ⟨succs, hmem, hsucc, hlisted⟩ := hedge
      exact h _ hmem _ hsucc hlisted
    | tail _ hedge ih =>
      obtain ⟨succs, hmem, hsucc, hlisted⟩ := hedge
      exact ih.trans (h _ hmem _ hsucc hlisted)
  exact fun name hcycle => (hless name name hcycle).false

section Distinct

variable (hdistinct : (graphEdges.map Prod.fst).Nodup)
include hdistinct

theorem nameAt_inj {i j : ℕ} {name : Text} (hi : nameAt graphEdges i = some name)
    (hj : nameAt graphEdges j = some name) : i = j := by
  rw [nameAt, ← List.getElem?_map] at hi hj
  obtain ⟨hlt, -⟩ := List.getElem?_eq_some_iff.mp hi
  exact (List.getElem?_inj hlt hdistinct).mp (hi.trans hj.symm)

theorem nameToIdx_eq {i : ℕ} {name : Text} (h : nameAt graphEdges i = some name) :
    nameToIdx graphEdges name = some i := by
  have hmem : name ∈ graphEdges.map Prod.fst := by
    obtain ⟨entry, hentry, rfl⟩ := Option.map_eq_some_iff.mp h
    exact List.mem_map_of_mem (List.mem_of_getElem? hentry)
  obtain ⟨j, hj⟩ := nameToIdx_of_mem hmem
  rw [hj, nameAt_inj hdistinct h (nameAt_of_nameToIdx hj)]

theorem mem_adj_iff {i j : ℕ} {a b : Text} (ha : nameAt graphEdges i = some a)
    (hb : nameAt graphEdges j = some b) : j ∈ adj graphEdges i ↔ Follows graphEdges a b := by
  obtain ⟨⟨a', succs⟩, hentry, rfl⟩ := Option.map_eq_some_iff.mp ha
  rw [adj, hentry, List.mem_filterMap]
  constructor
  · rintro ⟨name, hname, hj⟩
    obtain rfl := Option.some.inj ((nameAt_of_nameToIdx hj).symm.trans hb)
    refine ⟨succs, List.mem_of_getElem? hentry, hname, ?_⟩
    obtain ⟨entry, hentry, rfl⟩ := Option.map_eq_some_iff.mp hb
    exact List.mem_map_of_mem (List.mem_of_getElem? hentry)
  · rintro ⟨succs', hmem, hname, -⟩
    refine ⟨b, ?_, nameToIdx_eq hdistinct hb⟩
    obtain ⟨k, hk⟩ := List.mem_iff_getElem?.mp hmem
    have hik : i = k := nameAt_inj hdistinct ha (by rw [nameAt, hk, Option.map_some])
    subst hik
    obtain rfl : succs = succs' := congrArg Prod.snd (Option.some.inj (hentry.symm.trans hk))
    exact hname

/-- Indices and names of one path, both with the last node first. -/
theorem isTrace_iff {topo path : List ℕ} {names : List Text}
    (hcomplete : ∀ i < graphEdges.length, i ∈ topo)
    (h : List.Forall₂ (fun i name => nameAt graphEdges i = some name) path names) :
    IsTrace (adj graphEdges) topo path ↔ names.IsChain fun b a => Follows graphEdges a b := by
  induction h with
  | nil => exact iff_of_true .nil .nil
  | cons hb htail ih =>
    cases htail with
    | nil => exact iff_of_true (.singleton _) (.singleton _)
    | cons ha htail =>
      rw [IsTrace, List.isChain_cons_cons, List.isChain_cons_cons, mem_adj_iff hdistinct ha hb]
      exact and_congr (and_iff_right (hcomplete _ (nameAt_lt ha))) ih

theorem acyclic_indices (hacyclic : Acyclic graphEdges) (v : ℕ) :
    ¬ Relation.TransGen
      (fun u v => u < graphEdges.length ∧ v < graphEdges.length ∧ v ∈ adj graphEdges u) v v := by
  intro hcycle
  refine hacyclic _ (Relation.TransGen.lift (fun i => (nameAt graphEdges i).getD []) ?_ v v hcycle)
  rintro i j ⟨hi, hj, hedge⟩
  obtain ⟨a, ha⟩ := exists_nameAt hi
  obtain ⟨b, hb⟩ := exists_nameAt hj
  show Follows graphEdges ((nameAt graphEdges i).getD []) ((nameAt graphEdges j).getD [])
  rw [ha, hb]
  exact (mem_adj_iff hdistinct ha hb).mp hedge

end Distinct

omit [LinearOrder W] in
theorem sum_weightAt {path : List ℕ} {names : List Text}
    (h : List.Forall₂ (fun i name => nameAt graphEdges i = some name) path names) :
    (path.map (weightAt graphEdges meanExecUs)).sum = pathWeight meanExecUs names := by
  induction h with
  | nil => rfl
  | cons hname _ ih =>
    rw [List.map_cons, List.sum_cons, ih, weightAt, hname, pathWeight, pathWeight, List.map_cons,
      List.sum_cons]
    rfl

theorem exists_names {path : List ℕ} (h : ∀ i ∈ path, i < graphEdges.length) :
    ∃ names, path.mapM (nameAt graphEdges) = some names ∧
      List.Forall₂ (fun i name => nameAt graphEdges i = some name) path names := by
  induction path with
  | nil => exact ⟨[], rfl, .nil⟩
  | cons i path ih =>
    obtain ⟨hi, hrest⟩ := List.forall_mem_cons.mp h
    obtain ⟨name, hname⟩ := exists_nameAt hi
    obtain ⟨names, hnames, hall⟩ := ih hrest
    refine ⟨name :: names, ?_, .cons hname hall⟩
    rw [List.mapM_cons, hname, hnames]
    rfl

/-- Listed names are those that have indices. -/
theorem listed_iff {names : List Text} :
    (∀ name ∈ names, name ∈ graphEdges.map Prod.fst) ↔
      ∃ path, List.Forall₂ (fun i name => nameAt graphEdges i = some name) path names := by
  induction names with
  | nil => exact iff_of_true (fun _ h => absurd h List.not_mem_nil) ⟨[], .nil⟩
  | cons name names ih =>
    rw [List.forall_mem_cons, ih]
    constructor
    · rintro ⟨hname, path, hpath⟩
      obtain ⟨i, hi⟩ := nameToIdx_of_mem hname
      exact ⟨i :: path, .cons (nameAt_of_nameToIdx hi) hpath⟩
    · rintro ⟨_, hall⟩
      cases hall with
      | cons hi hpath =>
        obtain ⟨entry, hentry, rfl⟩ := Option.map_eq_some_iff.mp hi
        exact ⟨List.mem_map_of_mem (List.mem_of_getElem? hentry), _, hpath⟩

/-! ## The report -/

/-- What the report is put together from. -/
structure IsReport (graphEdges : List (Text × List Text)) (meanExecUs : Text → Option W)
    (topo path : List ℕ) (e : Estimate W) (report : ReportCriticalPath W) : Prop where
  sorted : IsTopoOrder (adj graphEdges) graphEdges.length topo
  estimated : Estimated (adj graphEdges) (weightAt graphEdges meanExecUs) topo 0 [] e
  traced : IsTrace (adj graphEdges) topo path
  named : List.Forall₂ (fun i name => nameAt graphEdges i = some name) path report.nodes.reverse
  weighed : (path.map (weightAt graphEdges meanExecUs)).sum = report.estimatedLatencyUs
  greatest : ∀ i < graphEdges.length, e.dist i ≤ report.estimatedLatencyUs
  counted : report.lengthNodes = report.nodes.length
  nonempty : path ≠ []

/-- A report is made of every edge list, with or without cycles, and of the same one with all fuel
beyond the number of nodes. -/
theorem computeCriticalPathReport_returns (hne : graphEdges ≠ []) :
    ∃ topo path e report, IsReport graphEdges meanExecUs topo path e report ∧
      ∀ fuel, graphEdges.length < fuel →
        computeCriticalPathReport graphEdges meanExecUs fuel = some (some report) := by
  obtain ⟨topo, htopo, hsort⟩ := @topoOrder_spec (adj graphEdges) graphEdges.length
    fun u _ v hv => adj_lt hv
  have hestimated : Estimated (adj graphEdges) (weightAt graphEdges meanExecUs) topo 0 []
      (estimate (adj graphEdges) (weightAt graphEdges meanExecUs) topo) := estimated_topo htopo 0
  set e := estimate (adj graphEdges) (weightAt graphEdges meanExecUs) topo with he
  have hlength : topo.length ≤ graphEdges.length := by
    have hsub : topo.Subperm (List.range graphEdges.length) :=
      htopo.nodup.subperm fun v hv => List.mem_range.mpr (htopo.bounded v hv)
    simpa using hsub.length_le
  rcases argMax_spec e.dist graphEdges.length with ⟨-, hzero⟩ | ⟨v, hargmax, hv, hgreatest⟩
  · exact absurd (List.length_eq_zero_iff.mp hzero) hne
  · obtain ⟨rest, hback, htrace, hsum⟩ := hestimated.backTrace htopo v
    have hbounded : ∀ i ∈ v :: rest, i < graphEdges.length := by
      have hrest : ∀ i ∈ rest, i ∈ topo := by
        intro i hi
        obtain ⟨pre, post, rfl⟩ := List.append_of_mem hi
        rcases List.eq_nil_or_concat' pre with rfl | ⟨pre, w, rfl⟩
        · exact (List.isChain_cons_cons.mp htrace).1.1
        · have htail := htrace.tail
          rw [List.tail_cons, List.append_assoc] at htail
          exact (List.isChain_cons_cons.mp (List.IsChain.right_of_append htail)).1.1
      exact List.forall_mem_cons.mpr ⟨hv, fun i hi => htopo.bounded i (hrest i hi)⟩
    obtain ⟨names, hnames, hall⟩ := exists_names
      (show ∀ i ∈ (v :: rest).reverse, i < graphEdges.length from
        fun i hi => hbounded i (List.mem_reverse.mp hi))
    refine ⟨topo, v :: rest, e, ⟨(v :: rest).reverse.length, e.dist v, names⟩,
      ⟨htopo, hestimated, htrace, ?_, hsum, hgreatest, hall.length_eq, List.cons_ne_nil v rest⟩, ?_⟩
    · rw [← List.forall₂_reverse_iff, List.reverse_reverse]
      exact hall
    · intro fuel hfuel
      have hback' : backTrace e.prev fuel v = some (v :: rest) :=
        backTrace_mono (Nat.succ_le_of_lt (hlength.trans_lt hfuel)) hback
      rw [computeCriticalPathReport, if_neg (by simpa using hne)]
      simp only [hsort fuel hfuel, ← he, Option.bind_some, hargmax, Option.elim_some, hback', hnames,
        Option.map_some]

/-- The nodes of the report are a path of the graph, and no path weighs more. -/
structure IsCriticalPath (graphEdges : List (Text × List Text)) (meanExecUs : Text → Option W)
    (report : ReportCriticalPath W) : Prop where
  isPath : IsPath graphEdges report.nodes
  latency : report.estimatedLatencyUs = pathWeight meanExecUs report.nodes
  length : report.lengthNodes = report.nodes.length
  maximal : ∀ path, IsPath graphEdges path →
    pathWeight meanExecUs path ≤ pathWeight meanExecUs report.nodes

theorem IsReport.isCriticalPath [IsOrderedAddMonoid W] {topo path : List ℕ} {e : Estimate W}
    {report : ReportCriticalPath W} (h : IsReport graphEdges meanExecUs topo path e report)
    (hdistinct : (graphEdges.map Prod.fst).Nodup) (hacyclic : Acyclic graphEdges) :
    IsCriticalPath graphEdges meanExecUs report := by
  have hcomplete := h.sorted.complete (acyclic_indices hdistinct hacyclic)
  have hweight : report.estimatedLatencyUs = pathWeight meanExecUs report.nodes := by
    rw [← h.weighed, sum_weightAt h.named, pathWeight, pathWeight, List.map_reverse, List.sum_reverse]
  refine ⟨⟨fun hnil => ?_, fun name hname => ?_, ?_⟩, hweight, h.counted, fun names hpath => ?_⟩
  · have hlength := h.named.length_eq
    rw [hnil] at hlength
    exact h.nonempty (List.length_eq_zero_iff.mp hlength)
  · exact listed_iff.mpr ⟨path, h.named⟩ name (List.mem_reverse.mpr hname)
  · have hchain := (isTrace_iff hdistinct hcomplete h.named).mp h.traced
    rwa [List.isChain_reverse] at hchain
  · obtain ⟨back, hback⟩ := listed_iff.mp fun name hname =>
      hpath.listed name (List.mem_reverse.mp hname)
    have htrace : IsTrace (adj graphEdges) topo back := by
      refine (isTrace_iff hdistinct hcomplete hback).mpr ?_
      rw [List.isChain_reverse]
      exact hpath.follows
    have hsum : (back.map (weightAt graphEdges meanExecUs)).sum = pathWeight meanExecUs names := by
      rw [sum_weightAt hback, pathWeight, pathWeight, List.map_reverse, List.sum_reverse]
    cases hback' : back with
    | nil =>
      rw [hback', List.forall₂_nil_left_iff, List.reverse_eq_nil_iff] at hback
      exact absurd hback hpath.nonempty
    | cons v rest =>
      rw [hback'] at htrace hsum hback
      obtain ⟨_, _, hv, -, -⟩ := List.forall₂_cons_left_iff.mp hback
      rw [← hweight, ← hsum]
      exact (h.estimated.sum_le htrace).trans (h.greatest v (nameAt_lt hv))

/-- A report is made of every edge list. On an acyclic one over distinct names, it tells a path of the
greatest weight. -/
theorem computeCriticalPathReport_spec {W : Type} [AddCommMonoid W] [LinearOrder W]
    [IsOrderedAddMonoid W] (graphEdges : List (Text × List Text)) (meanExecUs : Text → Option W) :
    ∃ result, (∀ fuel, graphEdges.length < fuel →
        computeCriticalPathReport graphEdges meanExecUs fuel = some result) ∧
      (graphEdges = [] ∧ result = none ∨ ∃ report, result = some report ∧
        ((graphEdges.map Prod.fst).Nodup → Acyclic graphEdges →
          IsCriticalPath graphEdges meanExecUs report)) := by
  by_cases hne : graphEdges = []
  · subst hne
    exact ⟨none, fun _ _ => rfl, .inl ⟨rfl, rfl⟩⟩
  · obtain ⟨topo, path, e, report, hreport, hrun⟩ :=
      @computeCriticalPathReport_returns W _ _ graphEdges meanExecUs hne
    exact ⟨some report, hrun, .inr ⟨report, rfl, hreport.isCriticalPath⟩⟩

def diamond : List (Text × List Text) :=
  [("in".toList, ["left".toList, "right".toList]), ("left".toList, ["out".toList]),
    ("right".toList, ["out".toList]), ("out".toList, ["elsewhere".toList])]

/-- The heavier way through a diamond, with an edge to a node that is not listed. -/
theorem computeCriticalPathReport_diamond :
    computeCriticalPathReport diamond (fun name => some name.length) 5 =
        some (some ⟨3, 10, ["in".toList, "right".toList, "out".toList]⟩) ∧
      IsCriticalPath diamond (fun name => some name.length)
        ⟨3, 10, ["in".toList, "right".toList, "out".toList]⟩ := by
  have hrun : computeCriticalPathReport diamond (fun name => some name.length) 5 =
      some (some ⟨3, 10, ["in".toList, "right".toList, "out".toList]⟩) := by
    decide +kernel
  refine ⟨hrun, ?_⟩
  obtain ⟨result, hall, hnil | ⟨report, rfl, hspec⟩⟩ :=
    computeCriticalPathReport_spec diamond fun name => some name.length
  · exact absurd hnil.1 (by decide)
  · obtain rfl := Option.some.inj (Option.some.inj ((hall 5 (by decide)).symm.trans hrun))
    exact hspec (by decide)
      (acyclic_of_rank (fun name => (nameToIdx diamond name).getD 0) (by decide +kernel))

end Tomii
