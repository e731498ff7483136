import Tomii.Foundations.PyTexts

/-! # Calls, lists and lines

What is put together from texts that denote expressions: argument lists on one line and on several,
list displays, the statements of a body. -/
namespace Tomii.Python
set_option autoImplicit false
set_option maxHeartbeats 250000

section Forms

variable (t : CharTables)

/-! ## Items -/

/-- An item in a frame that waits for one. A keyword stands in calls only. -/
def DenotesItem (s : Text) (i : Item) : Prop :=
  ∀ (p : Place) (f : Frame), f.key = none → (i.1.isSome → f.callee.isSome) → ∀ c, IsStop c →
    run t (fresh (p.push f)) (s ++ [c]) = (holding (p.push { f with key := i.1 }) i.2).ready t c

theorem Denotes.item {s : Text} {e : Expr} (h : Denotes t s e) : DenotesItem t s (none, e) := by
  rintro p ⟨callee, done, key⟩ hkey - c hc
  obtain rfl : key = none := hkey
  exact h _ c hc

theorem Denotes.keyword {s x : Text} {e : Expr} (h : Denotes t s e) (hx : isIdentifier t x = true) :
    DenotesItem t (x ++ '=' :: s) (some x, e) := by
  rintro p ⟨callee, done, key⟩ hkey hcallee c hc
  obtain rfl : key = none := hkey
  have hequals : (holding (p.push ⟨callee, done, none⟩) (.name x)).ready t '=' =
      some (fresh (p.push ⟨callee, done, some x⟩)) := by
    rw [Reader.ready_punct t _ (by decide)]
    exact if_pos ⟨hcallee rfl, rfl⟩
  have hkeyword := run_name t (p.push ⟨callee, done, none⟩) hx (c := '=') (by decide)
  rw [hequals] at hkeyword
  have hsplit : x ++ '=' :: s ++ [c] = (x ++ ['=']) ++ (s ++ [c]) := by simp
  rw [hsplit, run_append, hkeyword, Option.bind_some]
  exact h _ c hc

theorem isStop_closer (f : Frame) : IsStop f.closer := by
  unfold Frame.closer
  split
  · exact .inr (.inl rfl)
  · exact .inr (.inr (.inl rfl))

theorem ready_last (p : Place) (f : Frame) (e : Expr) :
    (holding (p.push f) e).ready t f.closer = some (holding p (f.add e).finish) := by
  rw [Reader.ready_closer]
  exact if_pos rfl

theorem ready_end (p : Place) (f : Frame) (hkey : f.key = none) :
    (fresh (p.push f)).ready t f.closer = some (holding p f.finish) := by
  rw [Reader.ready_closer]
  exact (if_pos rfl).trans (if_pos ⟨hkey, rfl⟩)

theorem ready_between (p : Place) (f : Frame) (e : Expr) :
    (holding (p.push f) e).ready t ',' = some (fresh (p.push (f.add e))) :=
  Reader.ready_punct t _ (by decide)

/-! ## Items in a row -/

def IsBlank (s : Text) : Prop := ∀ c ∈ s, c = ' ' ∨ c = '\n'

theorem isBlank_nil : IsBlank [] := fun _ h => absurd h List.not_mem_nil

theorem isBlank_space : IsBlank [' '] := fun _ h => .inl (List.mem_singleton.mp h)

theorem IsBlank.append {s s' : Text} (h : IsBlank s) (h' : IsBlank s') : IsBlank (s ++ s') :=
  List.forall_mem_append.mpr ⟨h, h'⟩

theorem IsBlank.newline {s : Text} (h : IsBlank s) : IsBlank ('\n' :: s) :=
  List.forall_mem_cons.mpr ⟨.inr rfl, h⟩

theorem run_blank (p : Place) (f : Frame) {s : Text} (h : IsBlank s) :
    run t (fresh (p.push f)) s = some (fresh (p.push f)) := by
  induction s with
  | nil => rfl
  | cons c s ih =>
    obtain ⟨hc, hs⟩ := List.forall_mem_cons.mp h
    have hstep : (fresh (p.push f)).step t c = some (fresh (p.push f)) := by
      rcases hc with rfl | rfl
      · exact Reader.ready_punct t _ (by decide)
      · exact Reader.ready_punct t _ (by decide)
    rw [run_cons, hstep, Option.bind_some]
    exact ih hs

/-- The frame with all items. -/
def Frame.fill (f : Frame) (items : List Item) : Frame :=
  { f with done := f.done ++ items, key := none }

theorem Frame.fill_cons (f : Frame) (i : Item) (items : List Item) :
    (({ f with key := i.1 } : Frame).add i.2).fill items = f.fill (i :: items) := by
  simp [Frame.fill, Frame.add]

theorem Frame.fill_nil (f : Frame) (h : f.key = none) : f.fill [] = f := by
  obtain ⟨callee, done, key⟩ := f
  obtain rfl : key = none := h
  simp [Frame.fill]

/-- Texts that each denote an item. Keywords need a call. -/
structure DenoteItems (f : Frame) (items : List (Text × Item)) : Prop where
  each : ∀ i ∈ items, DenotesItem t i.1 i.2
  keyed : ∀ i ∈ items, i.2.1.isSome → f.callee.isSome

/-- Items with commas between them, up to the closing character. -/
theorem run_items (p : Place) (f : Frame) (hkey : f.key = none) {blank : Text} (hblank : IsBlank blank)
    {items : List (Text × Item)} (h : DenoteItems t f items) :
    run t (fresh (p.push f)) ((',' :: blank).intercalate (items.map (·.1)) ++ [f.closer]) =
      some (holding p (f.fill (items.map (·.2))).finish) := by
  induction items generalizing f with
  | nil =>
    rw [List.map_nil, List.map_nil, f.fill_nil hkey]
    exact (run_single t _ _).trans (ready_end t p f hkey)
  | cons i items ih =>
    obtain ⟨hitem, heach⟩ := List.forall_mem_cons.mp h.each
    obtain ⟨hcallee, hkeyed⟩ := List.forall_mem_cons.mp h.keyed
    cases items with
    | nil =>
      have hlast := ready_last t p { f with key := i.2.1 } i.2.2
      have hread := hitem p f hkey hcallee f.closer (isStop_closer f)
      have hfill := Frame.fill_cons f i.2 []
      rw [Frame.fill_nil _ rfl] at hfill
      rw [List.map_singleton, List.map_singleton, List.intercalate_singleton, hread, ← hfill]
      exact hlast
    | cons next items =>
      have hbetween := ready_between t p { f with key := i.2.1 } i.2.2
      have hread := hitem p f hkey hcallee ',' (.inl rfl)
      rw [hbetween] at hread
      have hrest := ih (({ f with key := i.2.1 } : Frame).add i.2.2) rfl ⟨heach, hkeyed⟩
      rw [Frame.fill_cons] at hrest
      have hsplit : (',' :: blank).intercalate ((i :: next :: items).map (·.1)) ++ [f.closer] =
          (i.1 ++ [',']) ++ (blank ++
            ((',' :: blank).intercalate ((next :: items).map (·.1)) ++ [f.closer])) := by
        rw [List.map_cons, List.map_cons, List.intercalate_cons_cons, ← List.map_cons]
        simp
      rw [hsplit, run_append, hread, Option.bind_some, run_append, run_blank t _ _ hblank,
        Option.bind_some]
      exact hrest

/-- Items with a comma after each of them. -/
theorem run_lines (p : Place) (f : Frame) (hkey : f.key = none) {blank : Text} (hblank : IsBlank blank)
    {items : List (Text × Item)} (h : DenoteItems t f items) :
    run t (fresh (p.push f)) ((items.map fun i => blank ++ i.1 ++ [',']).flatten) =
      some (fresh (p.push (f.fill (items.map (·.2))))) := by
  induction items generalizing f with
  | nil =>
    rw [List.map_nil, List.map_nil, f.fill_nil hkey]
    rfl
  | cons i items ih =>
    obtain ⟨hitem, heach⟩ := List.forall_mem_cons.mp h.each
    obtain ⟨hcallee, hkeyed⟩ := List.forall_mem_cons.mp h.keyed
    have hbetween := ready_between t p { f with key := i.2.1 } i.2.2
    have hread := hitem p f hkey hcallee ',' (.inl rfl)
    rw [hbetween] at hread
    have hrest := ih (({ f with key := i.2.1 } : Frame).add i.2.2) rfl ⟨heach, hkeyed⟩
    rw [Frame.fill_cons] at hrest
    have hsplit : ((i :: items).map fun i => blank ++ i.1 ++ [',']).flatten =
        blank ++ ((i.1 ++ [',']) ++ (items.map fun i => blank ++ i.1 ++ [',']).flatten) := by
      simp
    rw [hsplit, run_append, run_blank t _ _ hblank, Option.bind_some, run_append, hread,
      Option.bind_some]
    exact hrest

/-! ## Calls and lists -/

/-- The text of what is called. -/
def Opens (s : Text) (fn : Expr) : Prop :=
  ∀ p, run t (fresh p) (s ++ ['(']) = some (fresh (p.push ⟨some fn, [], none⟩))

theorem opens_name {x : Text} (h : isIdentifier t x = true) : Opens t x (.name x) := by
  intro p
  rw [run_name t p h (by decide), Reader.ready_punct t _ (by decide)]
  rfl

theorem opens_attr {x m : Text} (hx : isIdentifier t x = true) (hm : isIdentifier t m = true) :
    Opens t (x ++ '.' :: m) (.attr (.name x) m) := by
  intro p
  have hdot : (holding p (.name x)).ready t '.' = some ⟨p, .dot (.name x), none, .ready⟩ :=
    Reader.ready_punct t _ (by decide)
  have hpath := run_name t p hx (c := '.') (by decide)
  rw [hdot] at hpath
  have hsplit : x ++ '.' :: m ++ ['('] = (x ++ ['.']) ++ (m ++ ['(']) := by simp
  rw [hsplit, run_append, hpath, Option.bind_some, run_attr t p _ hm (by decide),
    Reader.ready_punct t _ (by decide)]
  rfl

/-- The arguments of a call may be keyed. -/
theorem DenoteItems.ofCall {fn : Expr} {items : List (Text × Item)}
    (h : ∀ i ∈ items, DenotesItem t i.1 i.2) : DenoteItems t ⟨some fn, [], none⟩ items :=
  ⟨h, fun _ _ _ => rfl⟩

theorem denotes_call {s : Text} {fn : Expr} (hfn : Opens t s fn) {blank : Text}
    (hblank : IsBlank blank) {items : List (Text × Item)}
    (h : ∀ i ∈ items, DenotesItem t i.1 i.2) :
    Denotes t (s ++ '(' :: (',' :: blank).intercalate (items.map (·.1)) ++ [')'])
      (.call fn (.ofList (items.map (·.2)))) := by
  intro p c hc
  have hitems := run_items t p ⟨some fn, [], none⟩ rfl hblank (.ofCall t h)
  have hsplit : s ++ '(' :: (',' :: blank).intercalate (items.map (·.1)) ++ [')'] =
      (s ++ ['(']) ++ ((',' :: blank).intercalate (items.map (·.1)) ++ [')']) := by simp
  rw [run_concat, hsplit, run_append, hfn p, Option.bind_some]
  exact congrArg (Option.bind · fun st => st.step t c) hitems

theorem denotes_list {blank : Text} (hblank : IsBlank blank) {items : List (Text × Expr)}
    (h : ∀ i ∈ items, Denotes t i.1 i.2) :
    Denotes t ('[' :: (',' :: blank).intercalate (items.map (·.1)) ++ [']'])
      (.list (.ofList (items.map fun i => (none, i.2)))) := by
  intro p c hc
  have hopen : (fresh p).step t '[' = some (fresh (p.push ⟨none, [], none⟩)) :=
    Reader.ready_punct t _ (by decide)
  have hall : DenoteItems t ⟨none, [], none⟩ (items.map fun i => (i.1, (none, i.2))) := by
    constructor
    · intro i hi
      obtain ⟨j, hj, rfl⟩ := List.mem_map.mp hi
      exact (h j hj).item t
    · intro i hi hkeyed
      obtain ⟨j, hj, rfl⟩ := List.mem_map.mp hi
      cases hkeyed
  have hitems := run_items t p ⟨none, [], none⟩ rfl hblank hall
  rw [List.map_map, List.map_map] at hitems
  rw [run_concat, List.cons_append, run_cons, hopen, Option.bind_some]
  exact congrArg (Option.bind · fun st => st.step t c) hitems

/-- A call with one argument on each line. -/
theorem denotes_lines {s : Text} {fn : Expr} (hfn : Opens t s fn) {blank last : Text}
    (hblank : IsBlank blank) (hlast : IsBlank last) {items : List (Text × Item)}
    (h : ∀ i ∈ items, DenotesItem t i.1 i.2) :
    Denotes t (s ++ '(' :: (items.map fun i => blank ++ i.1 ++ [',']).flatten ++ last ++ [')'])
      (.call fn (.ofList (items.map (·.2)))) := by
  intro p c hc
  have hitems := run_lines t p ⟨some fn, [], none⟩ rfl hblank (.ofCall t h)
  have hend := ready_end t p (Frame.fill ⟨some fn, [], none⟩ (items.map (·.2))) rfl
  have hsplit : s ++ '(' :: (items.map fun i => blank ++ i.1 ++ [',']).flatten ++ last ++ [')'] =
      (s ++ ['(']) ++ ((items.map fun i => blank ++ i.1 ++ [',']).flatten ++ (last ++ [')'])) := by
    simp
  rw [run_concat, hsplit, run_append, hfn p, Option.bind_some, run_append, hitems, Option.bind_some,
    run_append, run_blank t _ _ hlast, Option.bind_some]
  have hclose : run t (fresh (p.push (Frame.fill ⟨some fn, [], none⟩ (items.map (·.2))))) [')'] =
      some (holding p (.call fn (.ofList (items.map (·.2))))) := (run_single t _ _).trans hend
  rw [hclose]
  rfl

/-! ## Lines -/

def margin : Text := [' ', ' ', ' ', ' ']

theorem isBlank_margin : IsBlank margin :=
  ((isBlank_space.append isBlank_space).append isBlank_space).append isBlank_space

theorem run_margin {stmts : List Stmt} {c : Char} (h : c ≠ ' ') (hnl : c ≠ '\n') (hcomment : c ≠ '#')
    (s : Text) : run t (newLine stmts) (margin ++ c :: s) =
      run t (fresh ⟨stmts, .bare, []⟩) (c :: s) := by
  have hstep : Reader.step ⟨⟨stmts, .bare, []⟩, .nothing, none, .indent 4⟩ t c =
      (fresh ⟨stmts, .bare, []⟩).step t c :=
    (if_neg h).trans ((if_neg hnl).trans ((if_neg hcomment).trans (if_pos rfl)))
  show run t ⟨⟨stmts, .bare, []⟩, .nothing, none, .indent 4⟩ (c :: s) = _
  rw [run_cons, run_cons, hstep]

theorem run_emptyLine (stmts : List Stmt) : run t (newLine stmts) ['\n'] = some (newLine stmts) := rfl

theorem run_comment {stmts : List Stmt} {s : Text} (h : s.all (fun c => c != '\n' && c != '\r' && c != '\x00') = true) :
    run t (newLine stmts) (margin ++ '#' :: s ++ ['\n']) = some (newLine stmts) := by
  have hrest : ∀ s : Text, s.all (fun c => c != '\n' && c != '\r' && c != '\x00') = true →
      run t ⟨⟨stmts, .bare, []⟩, .nothing, none, .comment⟩ s =
        some ⟨⟨stmts, .bare, []⟩, .nothing, none, .comment⟩ := by
    intro s
    induction s with
    | nil => exact fun _ => rfl
    | cons c s ih =>
      intro hall
      rw [List.all_cons, Bool.and_eq_true, Bool.and_eq_true, Bool.and_eq_true, bne_iff_ne,
        bne_iff_ne, bne_iff_ne] at hall
      obtain ⟨⟨⟨hnl, hcr⟩, hzero⟩, hs⟩ := hall
      have hstep : Reader.step ⟨⟨stmts, .bare, []⟩, .nothing, none, .comment⟩ t c =
          some ⟨⟨stmts, .bare, []⟩, .nothing, none, .comment⟩ :=
        (if_neg hnl).trans (if_neg (not_or.mpr ⟨hcr, hzero⟩))
      rw [run_cons, hstep, Option.bind_some]
      exact ih hs
  show run t ⟨⟨stmts, .bare, []⟩, .nothing, none, .comment⟩ (s ++ ['\n']) = _
  rw [run_append, hrest s h]
  rfl

theorem run_endStmt {stmts : List Stmt} {s : Text} {e : Expr} {head : Head} {done : Stmt}
    (h : Denotes t s e)
    (hend : Reader.endStmt (holding ⟨stmts, head, []⟩ e) = some (newLine (stmts ++ [done]))) :
    run t (fresh ⟨stmts, head, []⟩) (s ++ ['\n']) = some (newLine (stmts ++ [done])) := by
  rw [h _ '\n' (.inr (.inr (.inr rfl))), Reader.ready_punct t _ (by decide)]
  exact hend

/-- A name stands first on its line. -/
theorem run_firstName {stmts : List Stmt} {x : Text} (hx : isIdentifier t x = true) (s : Text) :
    run t (newLine stmts) (margin ++ (x ++ s)) = run t (fresh ⟨stmts, .bare, []⟩) (x ++ s) := by
  obtain ⟨hne, hstart, -, -⟩ := isIdentifier_parts t hx
  cases x with
  | nil => exact absurd rfl hne
  | cons a x =>
    have hname : ∀ {c : Char}, IsPunct c → a ≠ c := by
      rintro c hc rfl
      have hno := hc.isNameStart t
      rw [hstart a rfl] at hno
      cases hno
    exact run_margin t (hname (by decide)) (hname (by decide)) (hname (by decide)) _

theorem run_assign (stmts : List Stmt) {x s : Text} {e : Expr} (hx : isIdentifier t x = true)
    (h : Denotes t s e) :
    run t (newLine stmts) (margin ++ x ++ " = ".toList ++ s ++ ['\n']) =
      some (newLine (stmts ++ [.assign x e])) := by
  have hsplit : margin ++ x ++ " = ".toList ++ s ++ ['\n'] =
      margin ++ (x ++ ([' '] ++ (['=', ' '] ++ (s ++ ['\n'])))) := by simp
  have hspace : (holding ⟨stmts, .bare, []⟩ (.name x)).ready t ' ' =
      some (holding ⟨stmts, .bare, []⟩ (.name x)) := Reader.ready_punct t _ (by decide)
  have hequals : (holding ⟨stmts, .bare, []⟩ (.name x)).step t '=' =
      some (fresh ⟨stmts, .target x, []⟩) := Reader.ready_punct t _ (by decide)
  have hgap : (fresh ⟨stmts, .target x, []⟩).step t ' ' = some (fresh ⟨stmts, .target x, []⟩) :=
    Reader.ready_punct t _ (by decide)
  rw [hsplit, run_firstName t hx, ← List.append_assoc, run_append,
    run_name t ⟨stmts, .bare, []⟩ hx (c := ' ') (by decide), hspace, Option.bind_some,
    List.cons_append, run_cons, hequals, Option.bind_some, List.singleton_append, run_cons, hgap,
    Option.bind_some]
  exact run_endStmt t h rfl

theorem run_return (stmts : List Stmt) {s : Text} {e : Expr} (h : Denotes t s e) :
    run t (newLine stmts) (margin ++ "return ".toList ++ s ++ ['\n']) =
      some (newLine (stmts ++ [.ret e])) := by
  have hsplit : margin ++ "return ".toList ++ s ++ ['\n'] =
      margin ++ 'r' :: ("eturn".toList ++ ([' '] ++ (s ++ ['\n']))) := by simp
  have hword := run_ends t ⟨stmts, .bare, []⟩ .nothing (w := "return".toList) (c := ' ')
    (fun a ha => by cases ha; rfl) (by decide) rfl (by decide)
  have hgap : (fresh ⟨stmts, .returns, []⟩).ready t ' ' = some (fresh ⟨stmts, .returns, []⟩) :=
    Reader.ready_punct t _ (by decide)
  have hreturn : run t (fresh ⟨stmts, .bare, []⟩) ("return".toList ++ [' ']) =
      some (fresh ⟨stmts, .returns, []⟩) := hword.trans hgap
  have hfront : 'r' :: ("eturn".toList ++ ([' '] ++ (s ++ ['\n']))) =
      ("return".toList ++ [' ']) ++ (s ++ ['\n']) := by simp
  rw [hsplit, run_margin t (by decide) (by decide) (by decide), hfront, run_append, hreturn,
    Option.bind_some]
  exact run_endStmt t h rfl

end Forms

end Tomii.Python
