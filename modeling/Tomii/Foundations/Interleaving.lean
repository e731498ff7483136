import Mathlib.Data.List.Forall2
import Mathlib.Data.List.Basic

/-! # Threads of atomic actions, interleaved

A program is a tree of atomic actions, each answered by a reply of the shared state. Threads
take turns, one action a turn. A `Discipline` follows a thread through its program: what
the thread may do at each point, what the shared state guarantees about the reply, and where the
thread is then. `Maintains.reached` is the rule that makes an invariant of the shared state
and of all threads out of one obligation for each action. -/
namespace Tomii
set_option autoImplicit false
set_option maxHeartbeats 250000

/-- Atomic actions and the type of their replies. -/
structure Interface where
  Act : Type
  Reply : Act → Type

/-- A program that fails takes no further turn. -/
inductive Prog (I : Interface) (α : Type) : Type where
  | done (a : α) : Prog I α
  | fail : Prog I α
  | act (a : I.Act) (next : I.Reply a → Prog I α) : Prog I α

namespace Prog

variable {I : Interface} {α β : Type}

def bind : Prog I α → (α → Prog I β) → Prog I β
  | .done a, f => f a
  | .fail, _ => .fail
  | .act a next, f => .act a fun r => (next r).bind f

instance : Monad (Prog I) where
  pure := .done
  bind := bind

/-- One action. -/
def call (a : I.Act) : Prog I (I.Reply a) := .act a .done

/-- The action that a thread performs next. -/
def nextAct : Prog I α → Option I.Act
  | .act a _ => some a
  | _ => none

def isDone : Prog I α → Bool
  | .done _ => true
  | _ => false

theorem eq_done_of_isDone {p : Prog I Unit} (h : p.isDone = true) : p = .done () := by
  cases p with
  | done u => rfl
  | fail => cases h
  | act a next => cases h

end Prog

/-! ## Disciplines -/

/-- How a thread in phase `l` proceeds by an action, and where it may fail. -/
structure Discipline (I : Interface) (L : Type) where
  fails : L → Prop
  permits : L → I.Act → Prop
  knows : L → (a : I.Act) → I.Reply a → Prop
  next : L → (a : I.Act) → I.Reply a → L

namespace Prog

variable {I : Interface} {L α β : Type} (D : Discipline I L)

/-- From phase `l` every action is permitted, whatever replies are possible, and the program
ends as `post` says. -/
def Obeys : Prog I α → (α → L → Prop) → L → Prop
  | .done a, post, l => post a l
  | .fail, _, l => D.fails l
  | .act a next, post, l =>
    D.permits l a ∧ ∀ r, D.knows l a r → (next r).Obeys post (D.next l a r)

variable {D}

@[simp] theorem obeys_pure {a : α} {post : α → L → Prop} {l : L} :
    (pure a : Prog I α).Obeys D post l ↔ post a l := Iff.rfl

@[simp] theorem obeys_fail {post : α → L → Prop} {l : L} :
    (fail : Prog I α).Obeys D post l ↔ D.fails l := Iff.rfl

theorem obeys_bind {p : Prog I α} {f : α → Prog I β} {post : β → L → Prop} {l : L} :
    (p >>= f).Obeys D post l ↔ p.Obeys D (fun a l' => (f a).Obeys D post l') l := by
  induction p generalizing l with
  | done a => exact Iff.rfl
  | fail => exact Iff.rfl
  | act a next ih => exact and_congr Iff.rfl (forall_congr' fun r => imp_congr Iff.rfl (ih r))

theorem obeys_call {a : I.Act} {post : I.Reply a → L → Prop} {l : L} :
    (call a).Obeys D post l ↔ D.permits l a ∧ ∀ r, D.knows l a r → post r (D.next l a r) :=
  Iff.rfl

/-- An action and the rest of the program. -/
theorem Obeys.call_bind {a : I.Act} {f : I.Reply a → Prog I β} {post : β → L → Prop} {l : L}
    (hpermits : D.permits l a)
    (hrest : ∀ r, D.knows l a r → (f r).Obeys D post (D.next l a r)) :
    (call a >>= f).Obeys D post l :=
  ⟨hpermits, hrest⟩

theorem Obeys.mono {p : Prog I α} {post post' : α → L → Prop} {l : L} (h : p.Obeys D post l)
    (himp : ∀ a l', post a l' → post' a l') : p.Obeys D post' l := by
  induction p generalizing l with
  | done a => exact himp a l h
  | fail => exact h
  | act a next ih => exact ⟨h.1, fun r hr => ih r (h.2 r hr)⟩

theorem Obeys.bind {p : Prog I α} {f : α → Prog I β} {mid : α → L → Prop} {post : β → L → Prop}
    {l : L} (h : p.Obeys D mid l) (hf : ∀ a l', mid a l' → (f a).Obeys D post l') :
    (p >>= f).Obeys D post l :=
  obeys_bind.mpr (h.mono hf)

end Prog

/-! ## Interleaved runs -/

/-- The meaning of the actions, where a choice of the scheduler settles what the shared state
leaves open, and the programs that threads can be given. -/
structure Machine (I : Interface) (S J : Type) where
  perform : ℕ → (a : I.Act) → S → I.Reply a × S
  program : J → Prog I Unit

structure World (I : Interface) (S : Type) where
  shared : S
  threads : List (Prog I Unit)

/-- A turn: an idle thread takes a job, or a thread performs its next action. -/
inductive Move (J : Type) where
  | begin (thread : ℕ) (job : J)
  | step (thread choice : ℕ)

namespace World

variable {I : Interface} {S : Type} (w : World I S)

/-- The next action of a thread. -/
def nextAct (thread : ℕ) : Option I.Act := w.threads[thread]?.bind Prog.nextAct

end World

namespace Machine

variable {I : Interface} {S J : Type} (M : Machine I S J)

def fire (w : World I S) : Move J → Option (World I S)
  | .begin i job =>
    match w.threads[i]? with
    | some (.done _) => some { w with threads := w.threads.set i (M.program job) }
    | _ => none
  | .step i choice =>
    match w.threads[i]? with
    | some (.act a next) =>
      let (r, s) := M.perform choice a w.shared
      some ⟨s, w.threads.set i (next r)⟩
    | _ => none

variable {M} in
/-- A turn leaves the shared state alone, or is the step of a thread that has a next action. -/
theorem shared_fire {w w' : World I S} {mv : Move J} (h : M.fire w mv = some w') :
    w'.shared = w.shared ∨ ∃ i choice a, mv = .step i choice ∧ w.nextAct i = some a ∧
      w'.shared = (M.perform choice a w.shared).2 := by
  cases mv with
  | begin i job =>
    simp only [fire] at h
    split at h
    · obtain rfl := Option.some.inj h
      exact .inl rfl
    · cases h
  | step i choice =>
    simp only [fire] at h
    split at h
    · next a next hp =>
      obtain rfl := Option.some.inj h
      exact .inr ⟨i, choice, a, rfl, by simp [World.nextAct, hp, Prog.nextAct], rfl⟩
    · cases h

variable {M} in
/-- A thread's next action stays its next one until the thread performs it. -/
theorem nextAct_fire {w w' : World I S} {mv : Move J} (h : M.fire w mv = some w') {i : ℕ}
    {a : I.Act} (ha : w.nextAct i = some a) : w'.nextAct i = some a ∨
      ∃ choice, mv = .step i choice ∧ w'.shared = (M.perform choice a w.shared).2 := by
  obtain ⟨p, hp, hpa⟩ := Option.bind_eq_some_iff.mp ha
  cases mv with
  | begin j job =>
    simp only [fire] at h
    split at h
    · next hdone =>
      obtain rfl := Option.some.inj h
      have hne : j ≠ i := by
        rintro rfl
        obtain rfl := Option.some.inj (hp.symm.trans hdone)
        cases hpa
      exact .inl (by rw [World.nextAct, List.getElem?_set_ne hne]; exact ha)
    · cases h
  | step j choice =>
    simp only [fire] at h
    split at h
    · next b next hact =>
      obtain rfl := Option.some.inj h
      by_cases hij : j = i
      · subst hij
        obtain rfl := Option.some.inj (hp.symm.trans hact)
        obtain rfl := Option.some.inj hpa
        exact .inr ⟨choice, rfl, rfl⟩
      · exact .inl (by rw [World.nextAct, List.getElem?_set_ne hij]; exact ha)
    · cases h

/-- Worlds that one thread reaches by its own steps. -/
inductive RunsAlone (i : ℕ) : World I S → World I S → Prop where
  | refl (w : World I S) : RunsAlone i w w
  | step {w w' w'' : World I S} (choice : ℕ) (hfire : M.fire w (.step i choice) = some w')
      (h : RunsAlone i w' w'') : RunsAlone i w w''

variable (ok : S → ℕ → I.Act → Prop)

/-- The action of a turn meets `ok` in the state before it. -/
def Allowed (w : World I S) : Move J → Prop
  | .begin _ _ => True
  | .step i choice => ∀ a, w.nextAct i = some a → ok w.shared choice a

/-- The worlds that runs reach when every turn is allowed. -/
inductive Reaches (start : World I S) : World I S → Prop where
  | refl : Reaches start start
  | turn {w w' : World I S} (mv : Move J) (h : Reaches start w) (hok : Allowed ok w mv)
      (hfire : M.fire w mv = some w') : Reaches start w'

instance (w : World I S) [∀ s choice a, Decidable (ok s choice a)] :
    (mv : Move J) → Decidable (Allowed ok w mv)
  | .begin _ _ => .isTrue trivial
  | .step i choice =>
    inferInstanceAs (Decidable (∀ a ∈ w.nextAct i, ok w.shared choice a))

/-- A sequence of turns that stops at the first one that is not allowed. -/
def fireAllowed [∀ s choice a, Decidable (ok s choice a)] :
    List (Move J) → World I S → Option (World I S)
  | [], w => some w
  | mv :: mvs, w =>
    if Allowed ok w mv then (M.fire w mv).bind (fireAllowed mvs) else none

variable {M ok}

theorem RunsAlone.trans {i : ℕ} {w w' w'' : World I S} (h : M.RunsAlone i w w')
    (h' : M.RunsAlone i w' w'') : M.RunsAlone i w w'' := by
  induction h with
  | refl => exact h'
  | step choice hfire _ ih => exact .step choice hfire (ih h')

theorem Reaches.trans {w w' w'' : World I S} (h : M.Reaches ok w w') (h' : M.Reaches ok w' w'') :
    M.Reaches ok w w'' := by
  induction h' with
  | refl => exact h
  | turn mv _ hok hfire ih => exact .turn mv ih hok hfire

theorem Allowed.mono {ok' : S → ℕ → I.Act → Prop}
    (himp : ∀ s choice a, ok s choice a → ok' s choice a) {w : World I S} {mv : Move J}
    (h : Allowed ok w mv) : Allowed ok' w mv := by
  cases mv with
  | begin i job => trivial
  | step i choice => exact fun a ha => himp _ _ _ (h a ha)

theorem Reaches.mono {ok' : S → ℕ → I.Act → Prop}
    (himp : ∀ s choice a, ok s choice a → ok' s choice a) {w w' : World I S}
    (h : M.Reaches ok w w') : M.Reaches ok' w w' := by
  induction h with
  | refl => exact .refl
  | turn mv _ hok hfire ih => exact .turn mv ih (hok.mono himp) hfire

theorem reaches_of_fireAllowed [∀ s choice a, Decidable (ok s choice a)] {mvs : List (Move J)}
    {w w' : World I S} (h : M.fireAllowed ok mvs w = some w') : M.Reaches ok w w' := by
  induction mvs generalizing w with
  | nil =>
    obtain rfl := Option.some.inj h
    exact .refl
  | cons mv mvs ih =>
    simp only [fireAllowed] at h
    split at h
    · next hok =>
      obtain ⟨w1, hw1, hrest⟩ := Option.bind_eq_some_iff.mp h
      exact (Reaches.turn mv .refl hok hw1).trans (ih hrest)
    · cases h

/-- What every allowed action keeps of the shared state. -/
theorem Reaches.shared {P : S → Prop} {start w : World I S} (hrun : M.Reaches ok start w)
    (hstart : P start.shared)
    (hstep : ∀ s choice a, ok s choice a → P s → P (M.perform choice a s).2) : P w.shared := by
  induction hrun with
  | refl => exact hstart
  | turn mv _ hok hfire ih =>
    rcases shared_fire hfire with hsame | ⟨i, choice, a, rfl, hnext, hshared⟩
    · rwa [hsame]
    · rw [hshared]
      exact hstep _ choice a (hok a hnext) ih

/-! ## Invariants -/

variable {L : Type} {D : Discipline I L} {idle : L} {rest : L → Prop} {Inv : S → List L → Prop}

variable (M ok D idle rest Inv) in
/-- Jobs lead from the idle phase to one of rest, which counts for no more than the idle one, and an
action that is permitted and allowed keeps the invariant of the state and the phases, with the
reply the thread may count on. -/
structure Maintains : Prop where
  jobs : ∀ j, (M.program j).Obeys D (fun _ l => rest l) idle
  forget : ∀ {s : S} {pre post : List L} {l : L},
    rest l → Inv s (pre ++ l :: post) → Inv s (pre ++ idle :: post)
  step : ∀ {s : S} {pre post : List L} {l : L} (choice : ℕ) (a : I.Act),
    Inv s (pre ++ l :: post) → D.permits l a → ok s choice a →
      D.knows l a (M.perform choice a s).1 ∧
        Inv (M.perform choice a s).2 (pre ++ D.next l a (M.perform choice a s).1 :: post)

/-- Each thread is in a phase from which its program obeys the discipline. -/
def Follows (D : Discipline I L) (rest : L → Prop) : List (Prog I Unit) → List L → Prop :=
  List.Forall₂ fun p l => p.Obeys D (fun _ l' => rest l') l

theorem Follows.split {ps : List (Prog I Unit)} {ls : List L} (h : Follows D rest ps ls) {i : ℕ}
    {p : Prog I Unit} (hp : ps[i]? = some p) :
    ∃ pre l post, ls = pre ++ l :: post ∧ p.Obeys D (fun _ l' => rest l') l ∧
      ∀ q l', q.Obeys D (fun _ l'' => rest l'') l' →
        Follows D rest (ps.set i q) (pre ++ l' :: post) := by
  induction h generalizing i with
  | nil => simp at hp
  | @cons q l qs ls hql hrest ih =>
    cases i with
    | zero =>
      obtain rfl : q = p := by simpa using hp
      exact ⟨[], l, ls, rfl, hql, fun q' l' hq' => .cons hq' hrest⟩
    | succ i =>
      obtain ⟨pre, l1, post, rfl, hp1, hset⟩ := ih (i := i) (by simpa using hp)
      exact ⟨l :: pre, l1, post, rfl, hp1, fun q' l' hq' => .cons hql (hset q' l' hq')⟩

/-- Where the order of the threads does not matter, the thread of a step may stand first. -/
theorem Maintains.of_front (hjobs : ∀ j, (M.program j).Obeys D (fun _ l => rest l) idle)
    (hperm : ∀ {s : S} {ls ls' : List L}, Inv s ls → ls.Perm ls' → Inv s ls')
    (hforget : ∀ {s : S} {others : List L} {l : L},
      rest l → Inv s (l :: others) → Inv s (idle :: others))
    (hstep : ∀ {s : S} {others : List L} {l : L} (choice : ℕ) (a : I.Act),
      Inv s (l :: others) → D.permits l a → ok s choice a →
        D.knows l a (M.perform choice a s).1 ∧
          Inv (M.perform choice a s).2 (D.next l a (M.perform choice a s).1 :: others)) :
    Maintains M ok D idle rest Inv where
  jobs := hjobs
  forget := fun hrest h =>
    hperm (hforget hrest (hperm h List.perm_middle)) List.perm_middle.symm
  step := by
    intro s pre post l choice a h hpermits hok
    obtain ⟨hknows, hinv⟩ := hstep choice a (hperm h List.perm_middle) hpermits hok
    exact ⟨hknows, hperm hinv List.perm_middle.symm⟩

theorem Maintains.fire (hm : Maintains M ok D idle rest Inv) {w w' : World I S} {mv : Move J}
    (hok : Allowed ok w mv) (hfire : M.fire w mv = some w') {ls : List L}
    (hinv : Inv w.shared ls) (hfol : Follows D rest w.threads ls) :
    ∃ ls', Inv w'.shared ls' ∧ Follows D rest w'.threads ls' := by
  cases mv with
  | begin i job =>
    simp only [Machine.fire] at hfire
    split at hfire
    · next hp =>
      obtain rfl := Option.some.inj hfire
      obtain ⟨pre, l, post, rfl, hrest, hset⟩ := hfol.split hp
      exact ⟨_, hm.forget hrest hinv, hset _ _ (hm.jobs job)⟩
    · cases hfire
  | step i choice =>
    simp only [Machine.fire] at hfire
    split at hfire
    · next a next hp =>
      obtain rfl := Option.some.inj hfire
      obtain ⟨pre, l, post, rfl, ⟨hpermits, hnext⟩, hset⟩ := hfol.split hp
      have hact : ok w.shared choice a := hok a (by simp [World.nextAct, hp, Prog.nextAct])
      obtain ⟨hknows, hinv'⟩ := hm.step choice a hinv hpermits hact
      exact ⟨_, hinv', hset _ _ (hnext _ hknows)⟩
    · cases hfire

/-- A further invariant of the shared state, which may use the first. -/
theorem Maintains.and (hm : Maintains M ok D idle rest Inv) (Also : S → Prop)
    (halso : ∀ {s : S} {pre post : List L} {l : L} (choice : ℕ) (a : I.Act),
      Inv s (pre ++ l :: post) → D.permits l a → ok s choice a → Also s →
        Also (M.perform choice a s).2) :
    Maintains M ok D idle rest fun s ls => Inv s ls ∧ Also s where
  jobs := hm.jobs
  forget := fun hrest h => ⟨hm.forget hrest h.1, h.2⟩
  step := by
    intro s pre post l choice a h hpermits hok
    obtain ⟨hknows, hinv⟩ := hm.step choice a h.1 hpermits hok
    exact ⟨hknows, hinv, halso choice a h.1 hpermits hok h.2⟩

/-- The invariant holds in every world that a run of allowed turns reaches. -/
theorem Maintains.reached (hm : Maintains M ok D idle rest Inv) {start w : World I S}
    (hrun : M.Reaches ok start w) {ls : List L} (hinv : Inv start.shared ls)
    (hfol : Follows D rest start.threads ls) :
    ∃ ls', Inv w.shared ls' ∧ Follows D rest w.threads ls' := by
  induction hrun with
  | refl => exact ⟨ls, hinv, hfol⟩
  | turn mv _ hok hfire ih =>
    obtain ⟨ls', hinv', hfol'⟩ := ih
    exact hm.fire hok hfire hinv' hfol'

/-- The thread of a phase. -/
theorem Follows.thread {ps : List (Prog I Unit)} {ls : List L} (h : Follows D rest ps ls) {l : L}
    (hl : l ∈ ls) : ∃ p ∈ ps, p.Obeys D (fun _ l' => rest l') l := by
  induction h with
  | nil => cases hl
  | cons hp _ ih =>
    rcases List.mem_cons.mp hl with rfl | hl
    · exact ⟨_, List.mem_cons_self, hp⟩
    · obtain ⟨p, hin, hobeys⟩ := ih hl
      exact ⟨p, List.mem_cons_of_mem _ hin, hobeys⟩

/-- The next action of any thread is one its phase permits. -/
theorem Follows.permits {w : World I S} {ls : List L} (hfol : Follows D rest w.threads ls) {i : ℕ}
    {a : I.Act} (ha : w.nextAct i = some a) :
    ∃ pre l post, ls = pre ++ l :: post ∧ D.permits l a := by
  obtain ⟨p, hp, hpa⟩ := Option.bind_eq_some_iff.mp ha
  obtain ⟨pre, l, post, rfl, hobeys, -⟩ := hfol.split hp
  cases p with
  | done u => cases hpa
  | fail => cases hpa
  | act b next =>
    obtain rfl := Option.some.inj hpa
    exact ⟨pre, l, post, rfl, hobeys.1⟩

/-- The phase of a thread that has a next action. -/
theorem Follows.phase {w : World I S} {ls : List L} (hfol : Follows D rest w.threads ls) {i : ℕ}
    {a : I.Act} (ha : w.nextAct i = some a) : ∃ l, ls[i]? = some l ∧ D.permits l a := by
  obtain ⟨p, hp, hpa⟩ := Option.bind_eq_some_iff.mp ha
  obtain ⟨hi, rfl⟩ := List.getElem?_eq_some_iff.mp hp
  have hlen : i < ls.length := hfol.length_eq ▸ hi
  have hobeys := hfol.get hi hlen
  refine ⟨ls[i], List.getElem?_eq_getElem hlen, ?_⟩
  simp only [List.get_eq_getElem] at hobeys
  cases hthread : w.threads[i] with
  | done u => rw [hthread] at hpa; cases hpa
  | fail => rw [hthread] at hpa; cases hpa
  | act b next =>
    rw [hthread] at hpa hobeys
    obtain rfl := Option.some.inj hpa
    exact hobeys.1

/-- Where the discipline leaves a thread one action, it has a turn with that action. -/
theorem step_alone (choice : ℕ) {w : World I S} {i : ℕ} {p : Prog I Unit} {l : L} {a : I.Act}
    (hp : w.threads[i]? = some p) (hobeys : p.Obeys D (fun _ l' => rest l') l) (hrest : ¬ rest l)
    (hfails : ¬ D.fails l) (honly : ∀ b, D.permits l b → b = a)
    (hknows : D.knows l a (M.perform choice a w.shared).1) :
    w.nextAct i = some a ∧ ∃ w' p', M.fire w (.step i choice) = some w' ∧
      w'.shared = (M.perform choice a w.shared).2 ∧ w'.threads[i]? = some p' ∧
        p'.Obeys D (fun _ l' => rest l') (D.next l a (M.perform choice a w.shared).1) := by
  cases p with
  | done u => exact absurd hobeys hrest
  | fail => exact absurd hobeys hfails
  | act b next =>
    obtain rfl := honly b hobeys.1
    obtain ⟨hi, -⟩ := List.getElem?_eq_some_iff.mp hp
    have hfire : M.fire w (.step i choice) = some ⟨(M.perform choice b w.shared).2,
        w.threads.set i (next (M.perform choice b w.shared).1)⟩ := by
      simp [fire, hp]
    have hthread : (w.threads.set i (next (M.perform choice b w.shared).1))[i]? =
        some (next (M.perform choice b w.shared).1) := by
      simp [hi]
    exact ⟨by simp [World.nextAct, hp, Prog.nextAct], _, _, hfire, rfl, hthread,
      hobeys.2 _ hknows⟩

/-- Idle threads follow the discipline from the idle phase. -/
theorem follows_idle (rest : L → Prop) (hidle : rest idle) (n : ℕ) :
    Follows D rest (List.replicate n (.done ())) (List.replicate n idle) := by
  induction n with
  | zero => exact .nil
  | succ n ih => exact .cons hidle ih

end Machine

/-! ## Interfaces side by side -/

/-- The actions of two interfaces. -/
@[reducible] def Interface.sum (I J : Interface) : Interface :=
  ⟨I.Act ⊕ J.Act, Sum.elim I.Reply J.Reply⟩

namespace Prog

variable {I J : Interface} {L L' α : Type} {D : Discipline I L} {D' : Discipline (I.sum J) L'}

/-- A program that has no action of the second interface. -/
def left : Prog I α → Prog (I.sum J) α
  | .done a => .done a
  | .fail => .fail
  | .act a next => .act (.inl a) fun r => (next r).left

/-- Such a program keeps to a discipline that treats the actions of the first interface as `D` does. -/
theorem Obeys.left (embed : L → L') (hfails : ∀ l, D.fails l → D'.fails (embed l))
    (hpermits : ∀ l a, D.permits l a → D'.permits (embed l) (.inl a))
    (hknows : ∀ l a (r : I.Reply a), D'.knows (embed l) (.inl a) r → D.knows l a r)
    (hnext : ∀ l a (r : I.Reply a), D'.next (embed l) (.inl a) r = embed (D.next l a r))
    {p : Prog I α} {post : α → L → Prop} {l : L} (h : p.Obeys D post l) :
    p.left.Obeys D' (fun a l' => ∃ l0, l' = embed l0 ∧ post a l0) (embed l) := by
  induction p generalizing l with
  | done a => exact ⟨l, rfl, h⟩
  | fail => exact hfails l h
  | act a next ih =>
    refine ⟨hpermits l a h.1, fun r hr => ?_⟩
    have hrest := ih r (h.2 r (hknows l a r hr))
    rwa [← hnext l a r] at hrest

end Prog

end Tomii
