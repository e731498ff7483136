import Tomii.Foundations.Interleaving

/-! # A program that no other thread interrupts -/
namespace Tomii
set_option autoImplicit false
set_option maxHeartbeats 250000

namespace Prog

variable {I : Interface} {S α β : Type} (perform : (a : I.Act) → S → I.Reply a × S)

/-- Alone from the state `s` the program ends, with an answer and in a state as `post` says. -/
def Ends : Prog I α → (α → S → Prop) → S → Prop
  | .done a, post, s => post a s
  | .fail, _, _ => False
  | .act a next, post, s => (next (perform a s).1).Ends post (perform a s).2

instance decidableEnds (post : α → S → Prop) [∀ a s, Decidable (post a s)] :
    (p : Prog I α) → (s : S) → Decidable (p.Ends perform post s)
  | .done a, s => inferInstanceAs (Decidable (post a s))
  | .fail, _ => .isFalse id
  | .act a next, s => decidableEnds post (next (perform a s).1) (perform a s).2

variable {perform}

@[simp] theorem ends_pure {a : α} {post : α → S → Prop} {s : S} :
    (pure a : Prog I α).Ends perform post s ↔ post a s := Iff.rfl

theorem ends_bind {p : Prog I α} {f : α → Prog I β} {post : β → S → Prop} {s : S} :
    (p >>= f).Ends perform post s ↔
      p.Ends perform (fun a s' => (f a).Ends perform post s') s := by
  induction p generalizing s with
  | done a => exact Iff.rfl
  | fail => exact Iff.rfl
  | act a next ih => exact ih (perform a s).1

theorem ends_call {a : I.Act} {post : I.Reply a → S → Prop} {s : S} :
    (call a).Ends perform post s ↔ post (perform a s).1 (perform a s).2 := Iff.rfl

theorem ends_call_bind {a : I.Act} {f : I.Reply a → Prog I β} {post : β → S → Prop} {s : S} :
    (call a >>= f).Ends perform post s ↔
      (f (perform a s).1).Ends perform post (perform a s).2 := Iff.rfl

theorem Ends.mono {p : Prog I α} {post post' : α → S → Prop} {s : S}
    (h : p.Ends perform post s) (himp : ∀ a s', post a s' → post' a s') :
    p.Ends perform post' s := by
  induction p generalizing s with
  | done a => exact himp a s h
  | fail => exact h
  | act a next ih => exact ih (perform a s).1 h

theorem Ends.bind {p : Prog I α} {f : α → Prog I β} {mid : α → S → Prop} {post : β → S → Prop}
    {s : S} (h : p.Ends perform mid s)
    (hf : ∀ a s', mid a s' → (f a).Ends perform post s') : (p >>= f).Ends perform post s :=
  ends_bind.mpr (h.mono hf)

theorem Ends.and {p : Prog I α} {post post' : α → S → Prop} {s : S} (h : p.Ends perform post s)
    (h' : p.Ends perform post' s) : p.Ends perform (fun a s' => post a s' ∧ post' a s') s := by
  induction p generalizing s with
  | done a => exact ⟨h, h'⟩
  | fail => exact h
  | act a next ih => exact ih (perform a s).1 h h'

theorem Ends.exists {p : Prog I α} {post : α → S → Prop} {s : S} (h : p.Ends perform post s) :
    ∃ a s', post a s' := by
  induction p generalizing s with
  | done a => exact ⟨a, s, h⟩
  | fail => exact h.elim
  | act a next ih => exact ih (perform a s).1 h

/-- A program that ends does so in one way, so what its end says of `c` decides `c`. -/
theorem Ends.iff_of {p : Prog I α} {post : α → S → Prop} {c : Prop} {s : S}
    (h : p.Ends perform (fun a s' => post a s' ↔ c) s) : p.Ends perform post s ↔ c := by
  constructor
  · intro hpost
    obtain ⟨a, s', hiff, hend⟩ := (h.and hpost).exists
    exact hiff.mp hend
  · intro hc
    exact h.mono fun a s' hiff => hiff.mpr hc

end Prog

end Tomii
