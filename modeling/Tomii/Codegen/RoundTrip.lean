import Tomii.Codegen.ProgramLines
import Tomii.Types.ValueSurvival

/-! # The program gives the file back

The scope after a list of definitions agrees with them, so every definition adds its part to the
graph. At the end the graph is serialized as the file, without its network receiver. -/
namespace Tomii.Codegen
open Types (FloatParsers)
open Python
open Loading (InitJson NodeJson GraphFile)
set_option autoImplicit false
set_option maxHeartbeats 250000

variable {r : FloatParsers} (I : Interpreter r)

/-! ## The scope of the body -/

/-- What the body assigns. -/
def localsOf (d : GraphFile) : List Text := "app".toList :: (namesOf d).map pyname

def scopeOf (defs : Defined) : List (Text × Val r) :=
  (defs.map fun p => (pyname p.1, p.2.val p.1)) ++ [("app".toList, .graph)]

theorem lookup_map_snd {α β γ : Type} [BEq α] (f : β → γ) (xs : List (α × β)) (k : α) :
    (xs.map fun p => (p.1, f p.2)).lookup k = (xs.lookup k).map f := by
  induction xs with
  | nil => rfl
  | cons x xs ih =>
    rw [List.map_cons, List.lookup_cons, List.lookup_cons, ih]
    cases k == x.1 with
    | true => rfl
    | false => rfl

theorem lookup_scopeOf {defs : Defined} {name : Text} {k : Kind} (h : Means defs name k) :
    (scopeOf defs : List (Text × Val r)).lookup (pyname name) = some (k.val name) := by
  have hmap := lookup_map_snd (fun p : Text × Kind => (p.2.val p.1 : Val r))
    (defs.map fun p => (pyname p.1, p)) (pyname name)
  rw [h, List.map_map] at hmap
  rw [scopeOf, List.lookup_append]
  exact congrArg (Option.or · _) hmap

theorem nodePyname_self (names : List Text) (name : Text) :
    nodePyname (names.map fun name => (name, pyname name)) name = pyname name := by
  unfold nodePyname
  induction names with
  | nil => rfl
  | cons n names ih =>
    rw [List.map_cons, List.lookup_cons]
    cases heq : name == n with
    | true => rw [beq_iff_eq.mp heq]; rfl
    | false => exact ih

section Scopes

variable {d : GraphFile} (hnames : NamesKept I d)

include hnames

omit hnames in
theorem get_global {x : Text} {defs : Defined} (happ : x ≠ "app".toList)
    (hx : x ∉ (namesOf d).map pyname) :
    (⟨localsOf d, scopeOf defs⟩ : Scope r).get x = globalName x := by
  refine if_neg ?_
  rw [localsOf, List.mem_cons, not_or]
  exact ⟨happ, hx⟩

theorem get_graph {defs : Defined} (hdefs : ∀ p ∈ defs, p.1 ∈ namesOf d) :
    (⟨localsOf d, scopeOf defs⟩ : Scope r).get "app".toList = some .graph := by
  have hnone : (defs.map fun p => (pyname p.1, (p.2.val p.1 : Val r))).lookup "app".toList =
      none := by
    rw [List.lookup_eq_none_iff]
    intro p hp
    obtain ⟨q, hq, rfl⟩ := List.mem_map.mp hp
    refine bne_iff_ne.mpr ?_
    rintro heq
    exact hnames.graph (heq ▸ List.mem_map_of_mem (hdefs q hq))
  refine (if_pos List.mem_cons_self).trans ?_
  rw [scopeOf, List.lookup_append, hnone]
  rfl

theorem agrees_scopeOf {defs : Defined} (hdefs : ∀ p ∈ defs, p.1 ∈ namesOf d)
    (hvars : ∀ name, (name, Kind.var) ∈ defs → name ∈ varNamesOf d) :
    Agrees I defs (varNamesOf d) (nodePynamesOf d) ⟨localsOf d, scopeOf defs⟩ := by
  refine ⟨fun p hp => hnames.identifiers _ (hdefs p hp), hvars, ?_, ?_, ?_, ?_, ?_⟩
  · exact fun name hname => hnames.identifiers _ (List.mem_append_left _ hname)
  · exact nodePyname_self _
  · intro name k hmeans
    have hlocal : pyname name ∈ localsOf d :=
      List.mem_cons_of_mem _ (List.mem_map_of_mem (hdefs _ hmeans.mem))
    exact (if_pos hlocal).trans (lookup_scopeOf hmeans)
  · exact get_global (by decide) hnames.module
  · exact get_graph I hnames hdefs

end Scopes

/-! ## Definitions in a row -/

/-- Names with their kind, the latest first. -/
def definedAs {α : Type} (name : α → Text) (k : Kind) (xs : List α) : Defined :=
  (xs.map fun x => (name x, k)).reverse

/-- What the lines of a list of definitions do when each of them does its part. -/
theorem defines_all {α : Type} (locals : List Text) (name : α → Text) (k : Kind)
    (lines : α → Option (List Text)) (Built : List α → Graph r → Prop) (defs : Defined) (xs : List α)
    (hstep : ∀ pre x post, xs = pre ++ x :: post → ∀ g, Built pre g → ∃ block g',
      lines x = some block ∧ Defines I ⟨locals, scopeOf (definedAs name k pre ++ defs)⟩ block
        (pyname (name x)) (k.val (name x)) g g' ∧ Built (pre ++ [x]) g')
    {g : Graph r} (hstart : Built [] g) :
    ∃ blocks stmts g', xs.mapM lines = some blocks ∧ LinesRead I.tables blocks.flatten stmts ∧
      (∀ rest, assignedNames (stmts ++ rest) =
        xs.map (fun x => pyname (name x)) ++ assignedNames rest) ∧
      (∀ rest, exec I locals (stmts ++ rest) (scopeOf defs) (some g) =
        exec I locals rest (scopeOf (definedAs name k xs ++ defs)) (some g')) ∧
      Built xs g' := by
  -- the induction is on what is left, from the scope after what is done
  have hall : ∀ (left pre : List α), xs = pre ++ left → ∀ g, Built pre g →
      ∃ blocks stmts g', left.mapM lines = some blocks ∧
        LinesRead I.tables blocks.flatten stmts ∧
        (∀ rest, assignedNames (stmts ++ rest) =
          left.map (fun x => pyname (name x)) ++ assignedNames rest) ∧
        (∀ rest, exec I locals (stmts ++ rest) (scopeOf (definedAs name k pre ++ defs)) (some g) =
          exec I locals rest (scopeOf (definedAs name k xs ++ defs)) (some g')) ∧
        Built xs g' := by
    intro left
    induction left with
    | nil =>
      rintro pre hxs g hbuilt
      rw [List.append_nil] at hxs
      subst hxs
      exact ⟨[], [], g, rfl, linesRead_nil I.tables, fun _ => rfl, fun _ => rfl, hbuilt⟩
    | cons x left ih =>
      intro pre hxs g hbuilt
      obtain ⟨block, g₁, hblock, ⟨e, hread, heval⟩, hbuilt₁⟩ := hstep pre x left hxs g hbuilt
      have hnext : xs = (pre ++ [x]) ++ left := by rw [hxs, List.append_assoc]; rfl
      obtain ⟨blocks, stmts, g', hblocks, hreads, hassigned, hexec, hbuilt'⟩ :=
        ih (pre ++ [x]) hnext g₁ hbuilt₁
      refine ⟨block :: blocks, .assign (pyname (name x)) e :: stmts, g', ?_, ?_, ?_, ?_, hbuilt'⟩
      · rw [List.mapM_cons, hblock, hblocks]
        rfl
      · exact hread.append I.tables hreads
      · intro rest
        exact congrArg (pyname (name x) :: ·) (hassigned rest)
      · intro rest
        rw [List.cons_append, exec, heval, Option.bind_some, ← hexec rest]
        congr 1
        simp [scopeOf, definedAs]
  exact hall xs [] rfl g hstart

/-! ## The graph so far -/

/-- The graph is written as these parts, and it has no other names. -/
structure Built (inits : List InitJson) (ns ps : List NodeJson) (g : Graph r) : Prop where
  vars : g.vars.mapM (initJson I) = some inits
  nodes : g.nodes.mapM (nodeJson I) = some ns
  postNodes : g.postNodes.mapM (nodeJson I) = some ps
  network : g.network = []
  names : ∀ x ∈ g.names, x ∈ inits.map (·.name) ++ (ns.map (·.name) ++ ps.map (·.name))

theorem mapM_concat {α β : Type} {f : α → Option β} {xs : List α} {ys : List β} {x : α} {y : β}
    (hxs : xs.mapM f = some ys) (hx : f x = some y) : (xs ++ [x]).mapM f = some (ys ++ [y]) := by
  rw [List.mapM_append, hxs]
  show ([x].mapM f).bind _ = _
  rw [List.mapM_cons, hx]
  rfl

theorem built_empty : Built I [] [] [] Graph.empty :=
  ⟨rfl, rfl, rfl, rfl, fun _ h => absurd h List.not_mem_nil⟩

section Built

variable {inits : List InitJson} {ns ps : List NodeJson} {g : Graph r}
variable (h : Built I inits ns ps g)

include h

theorem Built.addVar {v : Var r} {init : InitJson} (hname : v.name = init.name)
    (hjson : initJson I v = some init) : Built I (inits ++ [init]) ns ps (g.addVar v) := by
  refine ⟨mapM_concat h.vars hjson, h.nodes, h.postNodes, h.network, ?_⟩
  intro x hx
  simp only [List.map_append, List.map_singleton, List.mem_append]
  rcases List.mem_cons.mp hx with rfl | hx
  · exact .inl (.inr (hname ▸ List.mem_singleton_self _))
  · have hold := h.names x hx
    simp only [List.mem_append] at hold
    exact hold.imp_left .inl

theorem Built.addNode {node : Node r} {n : NodeJson} (hname : node.name = n.name)
    (hjson : nodeJson I node = some n) : Built I inits (ns ++ [n]) ps (g.addNode false node) := by
  refine ⟨h.vars, mapM_concat h.nodes hjson, h.postNodes, h.network, ?_⟩
  intro x hx
  simp only [List.map_append, List.map_singleton, List.mem_append]
  rcases List.mem_cons.mp hx with rfl | hx
  · exact .inr (.inl (.inr (hname ▸ List.mem_singleton_self _)))
  · have hold := h.names x hx
    simp only [List.mem_append] at hold
    exact hold.imp_right fun hold => hold.imp_left .inl

theorem Built.addPostNode {node : Node r} {n : NodeJson} (hname : node.name = n.name)
    (hjson : nodeJson I node = some n) : Built I inits ns (ps ++ [n]) (g.addNode true node) := by
  refine ⟨h.vars, h.nodes, mapM_concat h.postNodes hjson, h.network, ?_⟩
  intro x hx
  simp only [List.map_append, List.map_singleton, List.mem_append]
  rcases List.mem_cons.mp hx with rfl | hx
  · exact .inr (.inr (.inr (hname ▸ List.mem_singleton_self _)))
  · have hold := h.names x hx
    simp only [List.mem_append] at hold
    exact hold.imp_right fun hold => hold.imp_right .inl

end Built

theorem Built.serialize {d : GraphFile} {g : Graph r}
    (h : Built I d.initializations d.nodes (postNodesOf d) g) (hne : d.postNodes ≠ some []) :
    serializeGraph I g = some { d with networkConfig := none } := by
  have hpost : (if postNodesOf d = [] then none else some (postNodesOf d)) = d.postNodes := by
    unfold postNodesOf
    match hgiven : d.postNodes with
    | none => rfl
    | some [] => exact absurd hgiven hne
    | some (n :: ns) => rfl
  unfold serializeGraph
  rw [h.vars, h.nodes, h.postNodes, h.network]
  simp only [Option.bind_eq_bind, Option.bind_some, hpost]
  rfl

/-! ## The three groups -/

section Groups

variable {d : GraphFile} (h : FileKept I d)

include h

/-- No name of the file stands among those in front of it. -/
theorem not_mem_front {front : List Text} {name : Text}
    (hfront : ∃ back, namesOf d = front ++ name :: back) : name ∉ front := by
  obtain ⟨back, hsplit⟩ := hfront
  have hnodup := h.names.distinct
  rw [hsplit] at hnodup
  exact fun hmem => List.disjoint_of_nodup_append hnodup hmem List.mem_cons_self

theorem varLines :
    ∃ stmts g, LinesRead I.tables
        (d.initializations.map fun init => [initLine I (varNamesOf d) init]).flatten stmts ∧
      (∀ rest, assignedNames (stmts ++ rest) =
        d.initializations.map (fun init => pyname init.name) ++ assignedNames rest) ∧
      (∀ rest, exec I (localsOf d) (stmts ++ rest) (scopeOf []) (some .empty) =
        exec I (localsOf d) rest (scopeOf (definedVars d.initializations)) (some g)) ∧
      Built I d.initializations [] [] g := by
  have hstep : ∀ pre init post, d.initializations = pre ++ init :: post → ∀ g : Graph r,
      Built I pre [] [] g → ∃ block g', some [initLine I (varNamesOf d) init] = some block ∧
        Defines I ⟨localsOf d, scopeOf (definedAs (·.name) .var pre ++ [])⟩ block (pyname init.name)
          (Kind.val init.name .var) g g' ∧ Built I (pre ++ [init]) [] [] g' := by
    intro pre init post hsplit g hbuilt
    have hsub : ∀ init ∈ d.initializations, init.name ∈ namesOf d := fun init hmem =>
      List.mem_append_left _ (List.mem_map_of_mem hmem)
    have hpre : ∀ init ∈ pre, init ∈ d.initializations := fun init hmem =>
      hsplit ▸ List.mem_append_left _ hmem
    have hdefs : ∀ p ∈ definedVars pre, p.1 ∈ varNamesOf d := by
      intro p hp
      obtain ⟨init, hinit, rfl⟩ := List.mem_map.mp (List.mem_reverse.mp hp)
      exact List.mem_map_of_mem (hpre init hinit)
    have hagrees := agrees_scopeOf I h.names
      (fun p hp => List.mem_append_left _ (hdefs p hp)) (fun name hname => hdefs (name, .var) hname)
    have hnew : init.name ∉ g.names := by
      intro hmem
      have hfront := hbuilt.names _ hmem
      rw [List.map_nil, List.append_nil, List.append_nil] at hfront
      refine not_mem_front I h ⟨post.map (·.name) ++
        (d.nodes.map (·.name) ++ (postNodesOf d).map (·.name)), ?_⟩ hfront
      rw [namesOf, hsplit, List.map_append, List.map_cons, List.append_assoc, List.cons_append]
    have hmem : init ∈ d.initializations := hsplit ▸ List.mem_append_right _ List.mem_cons_self
    obtain ⟨v, hdefines, hname, hjson⟩ := defines_var I hagrees (h.inits pre init post hsplit)
      (h.names.identifiers _ (hsub init hmem)) hnew
    refine ⟨_, g.addVar v, rfl, ?_, hbuilt.addVar I hname hjson⟩
    rw [List.append_nil]
    exact hdefines
  obtain ⟨blocks, stmts, g, hblocks, hreads, hassigned, hexec, hbuilt⟩ :=
    defines_all I (localsOf d) (fun init : InitJson => init.name) .var
      (fun init => some [initLine I (varNamesOf d) init]) (fun pre g => Built I pre [] [] g) []
      d.initializations hstep (built_empty I)
  have hlines : d.initializations.map (fun init => [initLine I (varNamesOf d) init]) = blocks :=
    Option.some.inj (List.mapM_pure.symm.trans hblocks)
  refine ⟨stmts, g, hlines ▸ hreads, hassigned, ?_, hbuilt⟩
  intro rest
  rw [hexec, List.append_nil]
  rfl

/-- Nodes and post-nodes, by what the graph holds when each of them is added. -/
theorem nodeLines (post : Bool) (xs : List NodeJson) (defs : Defined)
    (B : List NodeJson → Graph r → Prop)
    (hmem : ∀ n ∈ xs, n ∈ d.nodes ++ postNodesOf d)
    (hdefs : ∀ p ∈ defs, p.1 ∈ namesOf d)
    (hvars : ∀ name, (name, Kind.var) ∈ defs → name ∈ varNamesOf d)
    (hkept : ∀ pre n back, xs = pre ++ n :: back → NodeKept I (definedNodes pre ++ defs) n)
    (hnew : ∀ pre n back g, xs = pre ++ n :: back → B pre g → n.name ∉ g.names)
    (hadd : ∀ pre n g node, B pre g → node.name = n.name → nodeJson I node = some n →
      B (pre ++ [n]) (g.addNode post node)) {g : Graph r} (hstart : B [] g) :
    ∃ blocks stmts g', xs.mapM (appendNode I (nodePynamesOf d) (varNamesOf d) post) = some blocks ∧
      LinesRead I.tables blocks.flatten stmts ∧
      (∀ rest, assignedNames (stmts ++ rest) =
        xs.map (fun n => pyname n.name) ++ assignedNames rest) ∧
      (∀ rest, exec I (localsOf d) (stmts ++ rest) (scopeOf defs) (some g) =
        exec I (localsOf d) rest (scopeOf (definedNodes xs ++ defs)) (some g')) ∧
      B xs g' := by
  refine defines_all I (localsOf d) (fun n : NodeJson => n.name) .node _ B defs xs ?_ hstart
  intro pre n back hsplit g hbuilt
  have hname : ∀ n ∈ d.nodes ++ postNodesOf d, n.name ∈ namesOf d := by
    intro n hn
    rw [namesOf, ← List.map_append]
    exact List.mem_append_right _ (List.mem_map_of_mem hn)
  have hpre : ∀ n ∈ pre, n ∈ xs := fun n hn => hsplit ▸ List.mem_append_left _ hn
  have hn : n ∈ d.nodes ++ postNodesOf d :=
    hmem n (hsplit ▸ List.mem_append_right _ List.mem_cons_self)
  have hscope : ∀ p ∈ definedNodes pre ++ defs,
      p.1 ∈ namesOf d ∧ (p.2 = .var → p.1 ∈ varNamesOf d) := by
    intro p hp
    rcases List.mem_append.mp hp with hp | hp
    · obtain ⟨m, hm, rfl⟩ := List.mem_map.mp (List.mem_reverse.mp hp)
      exact ⟨hname m (hmem m (hpre m hm)), nofun⟩
    · refine ⟨hdefs p hp, fun hk => hvars p.1 ?_⟩
      rw [← hk]
      exact hp
  have hagrees := agrees_scopeOf I h.names (fun p hp => (hscope p hp).1)
    (fun name hp => (hscope (name, .var) hp).2 rfl)
  obtain ⟨lines, node, hlines, hdefines, hnodeName, hjson⟩ :=
    defines_node I hagrees post (hkept pre n back hsplit)
      (fun hsome => get_global (by decide) (h.names.condition n hn hsome))
      (fun hsome => get_global (by decide) (h.names.loop n hn hsome))
      (h.names.identifiers _ (hname n hn)) (hnew pre n back g hsplit hbuilt)
  exact ⟨lines, g.addNode post node, hlines, hdefines, hadd pre n g node hbuilt hnodeName hjson⟩

/-- All definitions together. -/
theorem definitions :
    ∃ nodes postNodes stmts₁ stmts₂ stmts₃ g,
      d.nodes.mapM (appendNode I (nodePynamesOf d) (varNamesOf d) false) = some nodes ∧
      (postNodesOf d).mapM (appendNode I (nodePynamesOf d) (varNamesOf d) true) = some postNodes ∧
      LinesRead I.tables
        (d.initializations.map fun init => [initLine I (varNamesOf d) init]).flatten stmts₁ ∧
      LinesRead I.tables nodes.flatten stmts₂ ∧ LinesRead I.tables postNodes.flatten stmts₃ ∧
      (∀ rest, assignedNames (stmts₁ ++ (stmts₂ ++ (stmts₃ ++ rest))) =
        (namesOf d).map pyname ++ assignedNames rest) ∧
      exec I (localsOf d) (stmts₁ ++ (stmts₂ ++ (stmts₃ ++ [.ret (.name "app".toList)])))
        (scopeOf []) (some .empty) = some (.graph, some g) ∧
      Built I d.initializations d.nodes (postNodesOf d) g := by
  have hvarNames : ∀ p ∈ definedVars d.initializations, p.1 ∈ varNamesOf d := by
    intro p hp
    obtain ⟨init, hinit, rfl⟩ := List.mem_map.mp (List.mem_reverse.mp hp)
    exact List.mem_map_of_mem hinit
  have hnodeNames : ∀ p ∈ definedNodes d.nodes, p.1 ∈ namesOf d ∧ p.2 = .node := by
    intro p hp
    obtain ⟨n, hn, rfl⟩ := List.mem_map.mp (List.mem_reverse.mp hp)
    exact ⟨List.mem_append_right _ (List.mem_append_left _ (List.mem_map_of_mem hn)), rfl⟩
  have hdefs : ∀ p ∈ definedNodes d.nodes ++ definedVars d.initializations, p.1 ∈ namesOf d := by
    intro p hp
    rcases List.mem_append.mp hp with hp | hp
    · exact (hnodeNames p hp).1
    · exact List.mem_append_left _ (hvarNames p hp)
  obtain ⟨stmts₁, g₁, hreads₁, hassigned₁, hexec₁, hbuilt₁⟩ := varLines I h
  obtain ⟨nodes, stmts₂, g₂, hnodes, hreads₂, hassigned₂, hexec₂, hbuilt₂⟩ :=
    nodeLines I h false d.nodes (definedVars d.initializations)
      (fun pre g => Built I d.initializations pre [] g)
      (fun n hn => List.mem_append_left _ hn) (fun p hp => List.mem_append_left _ (hvarNames p hp))
      (fun name hp => hvarNames (name, .var) hp) h.nodes
      (fun pre n back g hsplit hbuilt hmem => by
        have hfront := hbuilt.names _ hmem
        rw [List.map_nil, List.append_nil] at hfront
        refine not_mem_front I h ⟨back.map (·.name) ++ (postNodesOf d).map (·.name), ?_⟩ hfront
        rw [namesOf, hsplit]
        simp)
      (fun pre n g node hbuilt hname hjson => hbuilt.addNode I hname hjson) hbuilt₁
  obtain ⟨postNodes, stmts₃, g₃, hpostNodes, hreads₃, hassigned₃, hexec₃, hbuilt₃⟩ :=
    nodeLines I h true (postNodesOf d) (definedNodes d.nodes ++ definedVars d.initializations)
      (fun pre g => Built I d.initializations d.nodes pre g)
      (fun n hn => List.mem_append_right _ hn)
      hdefs
      (fun name hp => (List.mem_append.mp hp).elim
        (fun hp => by cases (hnodeNames (name, .var) hp).2) fun hp => hvarNames (name, .var) hp)
      (fun pre n back hsplit => by
        have hkept := h.postNodes pre n back hsplit
        rw [definedNodes, List.map_append, List.reverse_append, List.append_assoc] at hkept
        exact hkept)
      (fun pre n back g hsplit hbuilt hmem => by
        have hfront := hbuilt.names _ hmem
        refine not_mem_front I h ⟨back.map (·.name), ?_⟩ hfront
        rw [namesOf, hsplit]
        simp)
      (fun pre n g node hbuilt hname hjson => hbuilt.addPostNode I hname hjson) hbuilt₂
  have hall : ∀ p ∈ definedNodes (postNodesOf d) ++
      (definedNodes d.nodes ++ definedVars d.initializations), p.1 ∈ namesOf d := by
    intro p hp
    rcases List.mem_append.mp hp with hp | hp
    · obtain ⟨n, hn, rfl⟩ := List.mem_map.mp (List.mem_reverse.mp hp)
      exact List.mem_append_right _ (List.mem_append_right _ (List.mem_map_of_mem hn))
    · exact hdefs p hp
  refine ⟨nodes, postNodes, stmts₁, stmts₂, stmts₃, g₃, hnodes, hpostNodes, hreads₁, hreads₂,
    hreads₃, ?_, ?_, hbuilt₃⟩
  · intro rest
    rw [hassigned₁, hassigned₂, hassigned₃, namesOf]
    simp [Function.comp_def]
  · have hgraph := get_graph I h.names hall
    rw [hexec₁, hexec₂, hexec₃, exec, eval_name, hgraph]
    rfl

/-! ## The whole program -/

omit h in
theorem linesRead_group {title : Text} {lines : List (List Text)} {stmts : List Stmt}
    (htitle : title.all (fun c => c != '\n' && c != '\r' && c != '\x00') = true)
    (hlines : LinesRead I.tables lines.flatten stmts) :
    LinesRead I.tables (group title lines) stmts := by
  unfold group
  split
  · next hnil =>
    rw [hnil] at hlines
    exact hlines
  · have hcomment := linesRead_comment I.tables (s := ' ' :: title) (by
      rw [List.all_cons, htitle]
      decide)
    have hall := (hcomment.append I.tables hlines).append I.tables (linesRead_empty I.tables)
    rw [List.nil_append, List.append_nil] at hall
    exact hall

/-- `tm.Graph()` -/
def graphCall : Expr := .call (.attr (.name "tm".toList) "Graph".toList) .nil

omit h in
theorem linesRead_first : LinesRead I.tables ["    app = tm.Graph()".toList]
    [.assign "app".toList graphCall] := by
  have hopen : Opens I.tables ("tm".toList ++ '.' :: "Graph".toList)
      (.attr (.name "tm".toList) "Graph".toList) :=
    opens_attr I.tables rfl rfl
  have hitems : ∀ i ∈ ([] : List (Text × Item)), DenotesItem I.tables i.1 i.2 :=
    fun _ h => absurd h List.not_mem_nil
  have hcall := denotes_call I.tables hopen isBlank_nil hitems
  have happ : isIdentifier I.tables "app".toList = true := rfl
  have hline := linesRead_assign I.tables happ hcall
  have htext : margin ++ "app".toList ++ " = ".toList ++ ("tm".toList ++ '.' :: "Graph".toList ++
      '(' :: [','].intercalate (([] : List (Text × Item)).map (·.1)) ++ [')']) =
        "    app = tm.Graph()".toList := by
    decide
  rw [htext] at hline
  exact hline

omit h in
theorem linesRead_last : LinesRead I.tables ["    return app".toList] [.ret (.name "app".toList)] := by
  intro done
  have happ : isIdentifier I.tables "app".toList = true := rfl
  have hline := run_return I.tables done (denotes_name I.tables happ)
  have htext : margin ++ "return ".toList ++ "app".toList ++ ['\n'] =
      linesText ["    return app".toList] := by
    decide
  rw [htext] at hline
  exact hline

/-- The first line makes the graph. -/
theorem exec_first (rest : List Stmt) :
    exec I (localsOf d) (.assign "app".toList graphCall :: rest) [] none =
      exec I (localsOf d) rest (scopeOf []) (some .empty) := by
  have hmodule : (⟨localsOf d, []⟩ : Scope r).get "tm".toList = some .module := by
    refine if_neg ?_
    rw [localsOf, List.mem_cons, not_or]
    exact ⟨by decide, h.names.module⟩
  have hcall : eval I ⟨localsOf d, []⟩ graphCall none = some (.graph, some .empty) := by
    unfold graphCall
    rw [eval_call, eval_attr, eval_name, hmodule]
    rfl
  rw [exec, hcall]
  rfl

/-- What the generator writes is read as a program that gives the file back. -/
theorem givesBack : GivesBack I d { d with networkConfig := none } := by
  obtain ⟨nodes, postNodes, stmts₁, stmts₂, stmts₃, g, hnodes, hpostNodes, hreads₁, hreads₂, hreads₃,
    hassigned, hexec, hbuilt⟩ := definitions I h
  let lines := ["    app = tm.Graph()".toList] ++ ([[]] ++
    (group "Variables".toList (d.initializations.map fun init => [initLine I (varNamesOf d) init]) ++
      (group "Nodes".toList nodes ++ (group "Post-nodes".toList postNodes ++
        ["    return app".toList]))))
  let stmts := .assign "app".toList graphCall ::
    (stmts₁ ++ (stmts₂ ++ (stmts₃ ++ [.ret (.name "app".toList)])))
  have hread : LinesRead I.tables lines stmts :=
    (linesRead_first I).append I.tables ((linesRead_empty I.tables).append I.tables
      ((linesRead_group I (by decide) hreads₁).append I.tables
        ((linesRead_group I (by decide) hreads₂).append I.tables
          ((linesRead_group I (by decide) hreads₃).append I.tables (linesRead_last I)))))
  have hprogram : generatePython I d = some (header ++ linesText lines) := by
    have hjoin : ['\n'].intercalate ((headerLines ++ lines) ++ [[]]) = header ++ linesText lines := by
      rw [intercalate_lines, linesText_append]
      rfl
    unfold generatePython bodyLines
    rw [hnodes, hpostNodes]
    simp only [Option.bind_eq_bind, Option.bind_some, Option.pure_def, Option.map_some]
    rw [← hjoin]
    simp [lines]
  have hlocals : assignedNames stmts = localsOf d := by
    have hall := hassigned [.ret (.name "app".toList)]
    rw [assignedNames, assignedNames, List.append_nil] at hall
    exact congrArg ("app".toList :: ·) hall
  have hrun : Python.read I.tables (linesText lines) = some stmts := by
    unfold Python.read
    rw [hread []]
    rfl
  refine ⟨_, g, hprogram, ?_, hbuilt.serialize I h.nonempty⟩
  have hexecuted : exec I (assignedNames stmts) stmts [] none = some (.graph, some g) := by
    rw [hlocals]
    exact (exec_first I h _).trans hexec
  have hbegins : header.isPrefixOf? (header ++ linesText lines) = some (linesText lines) :=
    List.isPrefixOf?_eq_some_iff_append_eq.mpr rfl
  unfold execute
  rw [hbegins]
  simp only [Option.bind_eq_bind, Option.bind_some, hrun, hexecuted]

end Groups

/-- The network receiver is what does not come back, and there is nothing else. -/
theorem codeGeneration_roundTrip {d : GraphFile} (h : FileKept I d) :
    GivesBack I d { d with networkConfig := none } ∧
      (GivesBack I d d ↔ d.networkConfig = none) := by
  have hback := givesBack I h
  refine ⟨hback, ?_, ?_⟩
  · rintro ⟨program, g, hprogram, hexecute, hserialize⟩
    obtain ⟨program', g', hprogram', hexecute', hserialize'⟩ := hback
    obtain rfl := Option.some.inj (hprogram.symm.trans hprogram')
    obtain rfl := Option.some.inj (hexecute.symm.trans hexecute')
    exact congrArg (·.networkConfig) (Option.some.inj (hserialize.symm.trans hserialize'))
  · intro hnone
    have hsame : { d with networkConfig := none } = d := by
      rw [← hnone]
    rw [hsame] at hback
    exact hback

/-! ## A file of every form -/

/-- Whole numbers for floats, and no letters outside of ASCII. -/
def wholeInterpreter : Interpreter Types.wholeFloats where
  floats := Types.wholePython
  tables := ⟨fun _ => false, fun c => 161 ≤ c.toNat, by simp, by simp⟩
  floatOf := Types.wholeFloats.parseF64
  floatLiteral := Types.wholeFloats.parseF64
  negate := fun x : ℤ => Int.neg x
  digit := fun _ => false

def sampleVars : List InitJson :=
  [⟨"n".toList, none, [⟨"usize".toList, "4".toList⟩], none⟩,
    ⟨"buf-size".toList, some (.ref "n".toList),
      [⟨"$ref".toList, "n".toList⟩, ⟨"Vec<f32>".toList, "1.0,-2.0".toList⟩], some "alloc".toList⟩]

def sampleNode : NodeJson :=
  ⟨"load".toList, some (.ref "n".toList), "load".toList, none, none,
    [⟨"$ref".toList, some "buf-size".toList, none, none⟩,
      ⟨"String".toList, some "it's".toList, none, none⟩], none, none, some "high".toList, none⟩

def sampleSink : NodeJson :=
  ⟨"sink".toList, some (.number 2), "sink".toList, some ⟨"i".toList, some (.ref "n".toList)⟩, none,
    [⟨"$res".toList, none, none, some ⟨"load".toList, "0-n".toList, some (.number 2)⟩⟩],
    some (.number 2), some ⟨"Eq".toList, "true".toList, "bool".toList, "ready".toList, []⟩, none,
    some "0-3".toList⟩

def samplePost : NodeJson :=
  ⟨"report".toList, none, "report".toList, none, none,
    [⟨"$barrier".toList, none, none, some ⟨"sink".toList, "0,1".toList, none⟩⟩], none, none, none,
    none⟩

def sampleFile : GraphFile := ⟨sampleVars, [sampleNode, sampleSink], some [samplePost], none⟩

theorem forall_splits_nil {α : Type} {P : List α → α → Prop} :
    ∀ pre x post, [] = pre ++ x :: post → P pre x := by
  intro pre x post hsplit
  exact absurd hsplit.symm (List.append_ne_nil_of_right_ne_nil _ (List.cons_ne_nil _ _))

theorem forall_splits_cons {α : Type} {P : List α → α → Prop} {y : α} {ys : List α} (hy : P [] y)
    (hys : ∀ pre x post, ys = pre ++ x :: post → P (y :: pre) x) :
    ∀ pre x post, y :: ys = pre ++ x :: post → P pre x := by
  intro pre x post hsplit
  cases pre with
  | nil =>
    obtain ⟨rfl, -⟩ := List.cons.inj hsplit
    exact hy
  | cons z pre =>
    obtain ⟨rfl, hrest⟩ := List.cons.inj hsplit
    exact hys pre x post hrest

theorem sampleVars_kept : ∀ pre init post, sampleVars = pre ++ init :: post →
    InitKept wholeInterpreter (definedVars pre) init := by
  refine forall_splits_cons ?_ (forall_splits_cons ?_ forall_splits_nil)
  · refine ⟨nofun, ?_, nofun, fun _ => rfl⟩
    exact List.forall_mem_singleton.mpr (.literal (.usize 4))
  · refine ⟨?_, ?_, ?_, nofun⟩
    · rintro factor ⟨⟩
      exact .ref (by decide)
    · have hitems : ∀ item ∈ ["1.0".toList, "-2.0".toList], Printed wholeInterpreter item := by
        decide
      exact List.forall_mem_cons.mpr ⟨.ref (by decide),
        List.forall_mem_singleton.mpr (.literal (.vec "f32".toList hitems))⟩
    · rintro func ⟨⟩
      exact ⟨by decide, by decide⟩

theorem sampleNode_kept (defs : Defined) (hn : Means defs "n".toList .var)
    (hbuf : Means defs "buf-size".toList .var) : NodeKept wholeInterpreter defs sampleNode where
  function := by decide
  factor := by
    rintro factor ⟨⟩
    exact .ref hn
  groupSize := nofun
  priority := by decide
  useWorkers := by decide
  loop := nofun
  loopArgs := ⟨by decide, nofun⟩
  condition := nofun
  args := List.forall_mem_cons.mpr ⟨.ref hbuf, List.forall_mem_singleton.mpr
    (.literal (.string "it's".toList))⟩

theorem sampleSink_kept (defs : Defined) (hn : Means defs "n".toList .var)
    (hload : Means defs "load".toList .node) : NodeKept wholeInterpreter defs sampleSink where
  function := by decide
  factor := by
    rintro factor ⟨⟩
    exact .number 2
  groupSize := by
    rintro size ⟨⟩
    exact .number 2
  priority := by decide
  useWorkers := by decide
  loop := by
    rintro loop ⟨⟩
    exact ⟨_, rfl, .ref hn⟩
  loopArgs := ⟨by decide, nofun⟩
  condition := by
    rintro cond ⟨⟩
    exact ⟨.bool true, fun _ h => absurd h List.not_mem_nil⟩
  args := by
    refine List.forall_mem_singleton.mpr (.reference rfl ⟨hload, .rangeTo 0 hn, ?_⟩)
    rintro factor ⟨⟩
    exact .number 2

theorem samplePost_kept (defs : Defined) (hsink : Means defs "sink".toList .node) :
    NodeKept wholeInterpreter defs samplePost where
  function := by decide
  factor := nofun
  groupSize := nofun
  priority := by decide
  useWorkers := by decide
  loop := nofun
  loopArgs := ⟨by decide, nofun⟩
  condition := nofun
  args := by
    have hitems : 2 ≤ ([0, 1] : List ℤ).length := by decide
    exact List.forall_mem_singleton.mpr (.reference rfl ⟨hsink, .many hitems, nofun⟩)

theorem sampleFile_kept : FileKept wholeInterpreter sampleFile where
  names := ⟨by decide, by decide, by decide, by decide, by decide, by decide⟩
  inits := sampleVars_kept
  nodes := forall_splits_cons (sampleNode_kept _ (by decide) (by decide))
    (forall_splits_cons (sampleSink_kept _ (by decide) (by decide)) forall_splits_nil)
  postNodes := forall_splits_cons (samplePost_kept _ (by decide)) forall_splits_nil
  nonempty := by decide

theorem codeGeneration_sample : GivesBack wholeInterpreter sampleFile sampleFile :=
  (codeGeneration_roundTrip wholeInterpreter sampleFile_kept).2.mpr rfl

end Tomii.Codegen
