import Tomii.Codegen.YieldsNodes

/-! # Lines of the program

Every definition is one assignment, on one line or on several. The line for a part that is kept adds
this part to the graph, and the lines of a list of definitions add them in their order. -/
namespace Tomii.Codegen
open Types (FloatParsers)
open Python
open Loading (InitJson NodeJson GraphFile)
set_option autoImplicit false
set_option maxHeartbeats 250000

/-! ## Texts of lines -/

/-- Lines that each end. -/
def linesText (lines : List Text) : Text := (lines.map (· ++ ['\n'])).flatten

theorem linesText_append (xs ys : List Text) : linesText (xs ++ ys) = linesText xs ++ linesText ys := by
  rw [linesText, List.map_append, List.flatten_append]
  rfl

theorem linesText_cons (line : Text) (lines : List Text) :
    linesText (line :: lines) = line ++ ['\n'] ++ linesText lines := rfl

/-- Joined lines, of which the last one is empty. -/
theorem intercalate_lines (lines : List Text) :
    ['\n'].intercalate (lines ++ [[]]) = linesText lines := by
  induction lines with
  | nil => rfl
  | cons line lines ih =>
    rw [List.cons_append, List.intercalate_cons_of_ne_nil (by simp), ih]
    rfl

section Lines

variable (t : CharTables)

/-- The lines are read as the statements. -/
def LinesRead (lines : List Text) (stmts : List Stmt) : Prop :=
  ∀ done, run t (newLine done) (linesText lines) = some (newLine (done ++ stmts))

theorem linesRead_nil : LinesRead t [] [] := by
  intro done
  rw [List.append_nil]
  rfl

theorem LinesRead.append {xs ys : List Text} {stmts stmts' : List Stmt} (h : LinesRead t xs stmts)
    (h' : LinesRead t ys stmts') : LinesRead t (xs ++ ys) (stmts ++ stmts') := by
  intro done
  rw [linesText_append, run_append, h, Option.bind_some, h', List.append_assoc]

theorem linesRead_empty : LinesRead t [[]] [] := by
  intro done
  rw [List.append_nil]
  exact run_emptyLine t done

theorem linesRead_comment {s : Text}
    (h : s.all (fun c => c != '\n' && c != '\r' && c != '\x00') = true) :
    LinesRead t [margin ++ '#' :: s] [] := by
  intro done
  have hline : run t (newLine done) (margin ++ '#' :: s ++ ['\n']) = some (newLine done) :=
    run_comment t h
  rw [List.append_nil, linesText_cons]
  simpa [linesText] using hline

/-! ## Calls on one line and on several -/

/-- A call of a method of the graph. -/
def callText (method : Text) (args : List Text) : Text :=
  "app.".toList ++ method ++ '(' :: commaJoin args ++ [')']

/-- The same call with every argument on its own line. -/
def spreadText (method : Text) (args : List Text) : Text :=
  "app.".toList ++ method ++ '(' ::
    (args.map fun a => '\n' :: (margin ++ margin) ++ a ++ [',']).flatten ++ '\n' :: margin ++ [')']

theorem opens_method {method : Text} (h : isIdentifier t method = true) :
    Opens t ("app.".toList ++ method) (.attr (.name "app".toList) method) :=
  opens_attr t (rfl : isIdentifier t "app".toList = true) h

theorem denotes_callText {method : Text} (h : isIdentifier t method = true)
    {items : List (Text × Item)} (hitems : ∀ i ∈ items, DenotesItem t i.1 i.2) :
    Denotes t (callText method (items.map (·.1)))
      (.call (.attr (.name "app".toList) method) (.ofList (items.map (·.2)))) :=
  denotes_call t (opens_method t h) isBlank_space hitems

theorem denotes_spreadText {method : Text} (h : isIdentifier t method = true)
    {items : List (Text × Item)} (hitems : ∀ i ∈ items, DenotesItem t i.1 i.2) :
    Denotes t (spreadText method (items.map (·.1)))
      (.call (.attr (.name "app".toList) method) (.ofList (items.map (·.2)))) := by
  have hlast : IsBlank ('\n' :: margin) := isBlank_margin.newline
  have hblank : IsBlank ('\n' :: (margin ++ margin)) := (isBlank_margin.append isBlank_margin).newline
  have hcall := denotes_lines t (opens_method t h) hblank hlast hitems
  rw [spreadText, List.map_map]
  exact hcall

theorem linesRead_assign {x s : Text} {e : Expr} (hx : isIdentifier t x = true) (h : Denotes t s e) :
    LinesRead t [margin ++ x ++ " = ".toList ++ s] [.assign x e] := by
  intro done
  have hline := run_assign t done hx h
  rw [linesText_cons]
  simpa [linesText] using hline

/-- The text of a call that is spread over lines. -/
theorem spread_lines (front : Text) (args : List Text) :
    linesText (front :: args.map (fun a => margin ++ margin ++ a ++ [',']) ++ [margin ++ [')']]) =
      front ++ (args.map fun a => '\n' :: (margin ++ margin) ++ a ++ [',']).flatten ++
        '\n' :: margin ++ [')'] ++ ['\n'] := by
  have hargs : ['\n'] ++ linesText (args.map fun a => margin ++ margin ++ a ++ [',']) =
      (args.map fun a => '\n' :: (margin ++ margin) ++ a ++ [',']).flatten ++ ['\n'] := by
    induction args with
    | nil => rfl
    | cons a args ih =>
      have hrest := congrArg (fun s => '\n' :: (margin ++ margin) ++ a ++ [','] ++ s) ih
      rw [List.map_cons, linesText_cons, List.map_cons, List.flatten_cons]
      simpa using hrest
  rw [linesText_append, linesText_cons, List.append_assoc front, hargs]
  simp [linesText]

theorem linesRead_spread {x method : Text} {args : List Text} {e : Expr}
    (hx : isIdentifier t x = true) (h : Denotes t (spreadText method args) e) :
    LinesRead t ((margin ++ x ++ " = app.".toList ++ method ++ ['(']) ::
      args.map (fun a => margin ++ margin ++ a ++ [',']) ++ [margin ++ [')']]) [.assign x e] := by
  intro done
  have hline := run_assign t done hx h
  rw [spread_lines]
  simpa [spreadText] using hline

end Lines

/-! ## Definitions -/

section Definitions

variable {r : FloatParsers} (I : Interpreter r)

/-- Both texts of a call of a method of the graph, and what the call does. -/
theorem exists_call {s : Scope r} (hgraph : s.get "app".toList = some .graph) (method : Text)
    {f : Callable} (hident : isIdentifier I.tables method = true)
    (hattr : getAttr (.graph : Val r) method = some (.fn f)) {ps : List (Text × Val r)}
    {entries : List (Entry r)} (hps : ∀ p ∈ ps, Yields I s p.1 p.2)
    (hentries : EntriesYield I s entries) {g g' : Graph r} {v : Val r}
    (happly : apply I f (callArgs (ps.map (·.2)) (entryValues entries)) (some g) =
      some (v, some g')) :
    ∃ e, Denotes I.tables (callText method (ps.map (·.1) ++ entryTexts entries)) e ∧
      Denotes I.tables (spreadText method (ps.map (·.1) ++ entryTexts entries)) e ∧
      eval I s e (some g) = some (v, some g') := by
  obtain ⟨ks, htexts, hvalues, hks⟩ := exists_entries I s hentries
  obtain ⟨items, hitemTexts, hitems, heval⟩ := exists_keyed I s hps hks
  have hfn : eval I s (.attr (.name "app".toList) method) (some g) = some (.fn f, some g) := by
    rw [eval_attr, eval_name, hgraph, Option.map_some, Option.bind_some, hattr]
    rfl
  rw [← htexts, ← hitemTexts]
  refine ⟨_, denotes_callText I.tables hident hitems, denotes_spreadText I.tables hident hitems, ?_⟩
  rw [eval_call, hfn, Option.bind_some, heval, Option.bind_some, hvalues]
  exact happly

/-- The lines assign the value to the name, and the graph changes. -/
def Defines (s : Scope r) (lines : List Text) (x : Text) (v : Val r) (g g' : Graph r) : Prop :=
  ∃ e, LinesRead I.tables lines [.assign x e] ∧ eval I s e (some g) = some (v, some g')

variable {defs : Defined} {varNames : List Text} {nodePynames : List (Text × Text)} {s : Scope r}
variable (hagrees : Agrees I defs varNames nodePynames s)

include hagrees

theorem defines_var {init : InitJson} (h : InitKept I defs init)
    (hname : isIdentifier I.tables (pyname init.name) = true) {g : Graph r}
    (hnew : init.name ∉ g.names) :
    ∃ v, Defines I s [initLine I varNames init] (pyname init.name) (.arg (.var init.name)) g
        (g.addVar v) ∧ v.name = init.name ∧ initJson I v = some init := by
  have hcall : ∃ ps entries v, VarCall I s varNames init ps entries v := by
    cases hfunc : init.function with
    | none => exact exists_directVar I hagrees h hfunc
    | some func => exact exists_functionVar I hagrees h hfunc
  obtain ⟨ps, entries, v, hcall⟩ := hcall
  have happly : apply I .var (callArgs (ps.map (·.2)) (entryValues entries)) (some g) =
      some (.arg (.var init.name), some (g.addVar v)) := by
    show ((varSignature.bind (callArgs (ps.map (·.2)) (entryValues entries))).bind
      fun b => callVar b g).map _ = _
    rw [hcall.bind, Option.bind_some, hcall.call g hnew]
    rfl
  obtain ⟨e, hdenotes, -, heval⟩ :=
    exists_call I hagrees.graph "var".toList rfl rfl hcall.values hcall.keywords happly
  refine ⟨v, ⟨e, ?_, heval⟩, hcall.name, hcall.json⟩
  have htext : initLine I varNames init = margin ++ pyname init.name ++ " = ".toList ++
      callText "var".toList (pyRepr I.tables init.name :: initKwargs I varNames init) := by
    simp only [initLine, callText, commaJoin, if_neg hcall.given,
      List.intercalate_cons_of_ne_nil hcall.given]
    simp
  rw [htext, hcall.texts]
  exact linesRead_assign I.tables hname hdenotes

theorem defines_node {n : NodeJson} (post : Bool) (h : NodeKept I defs n)
    (hcondition : n.condition.isSome → s.get "Condition".toList = some (.fn .condition))
    (hloop : n.loop.isSome → s.get "Loop".toList = some (.fn .loop))
    (hname : isIdentifier I.tables (pyname n.name) = true) {g : Graph r} (hnew : n.name ∉ g.names) :
    ∃ lines node, appendNode I nodePynames varNames post n = some lines ∧
      Defines I s lines (pyname n.name) (.node n.name) g (g.addNode post node) ∧
      node.name = n.name ∧ nodeJson I node = some n := by
  obtain ⟨entries, node, hkeys, hentries, hne, hkwargs, hnode, hnodeName, hjson⟩ :=
    exists_node I hagrees h hcondition hloop
  have hbind : nodeSignature.bind (callArgs [.str n.name] (entryValues entries)) =
      some (("name".toList, .str n.name) :: entryValues entries) :=
    bind_entries nodeSignature [.str n.name] 1 nodeKeys rfl hkeys (by decide) (by decide)
      (by decide)
  have hcheck : g.checkName node.name = some () := if_neg (hnodeName ▸ hnew)
  have hadd : callNode post (("name".toList, .str n.name) :: entryValues entries) g =
      some (.node n.name, g.addNode post node) := by
    unfold callNode
    rw [hnode]
    simp only [Option.bind_eq_bind, Option.bind_some, hcheck]
    rw [hnodeName]
    unfold Graph.addNode
    rw [hnodeName]
  have happly : apply I (.addNode post) (callArgs [.str n.name] (entryValues entries)) (some g) =
      some (.node n.name, some (g.addNode post node)) := by
    show ((nodeSignature.bind (callArgs [.str n.name] (entryValues entries))).bind
      fun b => callNode post b g).map _ = _
    rw [hbind, Option.bind_some, hadd]
    rfl
  let method := if post then "post_node".toList else "node".toList
  have hident : isIdentifier I.tables method = true := by
    cases post with
    | true => rfl
    | false => rfl
  have hattr : getAttr (.graph : Val r) method = some (.fn (.addNode post)) := by
    cases post with
    | true => rfl
    | false => rfl
  have hps : ∀ p ∈ [(pyRepr I.tables n.name, Val.str n.name)], Yields I s p.1 p.2 :=
    List.forall_mem_singleton.mpr (yields_repr I s _)
  obtain ⟨e, hcall, hspread, heval⟩ :=
    exists_call I hagrees.graph method hident hattr hps hentries happly
  have hline : callLine I (pyname n.name) method n.name (entryTexts entries) =
      margin ++ pyname n.name ++ " = ".toList ++
        callText method (pyRepr I.tables n.name :: entryTexts entries) := by
    simp only [callLine, callText, commaJoin, List.intercalate_cons_of_ne_nil hne]
    simp
  have hkept : appendNode I nodePynames varNames post n = some
      (if (callLine I (pyname n.name) method n.name (entryTexts entries)).length ≤ 88 then
        [callLine I (pyname n.name) method n.name (entryTexts entries)]
      else callLines I (pyname n.name) method n.name (entryTexts entries)) := by
    unfold appendNode
    rw [hkwargs, Option.map_some, hagrees.pynames]
  refine ⟨_, node, hkept, ⟨e, ?_, heval⟩, hnodeName, hjson⟩
  split
  · rw [hline]
    exact linesRead_assign I.tables hname hcall
  · exact linesRead_spread I.tables hname hspread

end Definitions

end Tomii.Codegen
