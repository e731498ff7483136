import Mathlib.Logic.Relation
import Mathlib.Logic.Function.Basic
import Mathlib.Data.List.Basic

/-! # Readers in succession

Streams that one reader after the other consumes. Whoever holds them takes what is pending, and may
pass them on for good; readers are numbered in the order in which they hold the streams. -/
namespace Tomii
set_option autoImplicit false
set_option maxHeartbeats 250000

/-- If related states stay related by some steps of the second system for each step of the first, they
do so along runs. -/
theorem simulates_run {S T : Type} {step : S → S → Prop} {step' : T → T → Prop} {R : S → T → Prop}
    (hstep : ∀ {s t s'}, R s t → step s s' → ∃ t', Relation.ReflTransGen step' t t' ∧ R s' t')
    {s s' : S} {t : T} (hrel : R s t) (hrun : Relation.ReflTransGen step s s') :
    ∃ t', Relation.ReflTransGen step' t t' ∧ R s' t' := by
  induction hrun with
  | refl => exact ⟨t, .refl, hrel⟩
  | tail _ hlast ih =>
    obtain ⟨t1, hrun1, hrel1⟩ := ih
    obtain ⟨t2, hrun2, hrel2⟩ := hstep hrel1 hlast
    exact ⟨t2, hrun1.trans hrun2, hrel2⟩

structure Relay (ι D : Type) where
  holder : ℕ
  arrived : ι → List D
  pending : ι → List D
  /-- Who took what. -/
  reads : ι → List (ℕ × D)

namespace Relay

variable {ι D : Type} [DecidableEq ι]

def arrive (r : Relay ι D) (i : ι) (d : D) : Relay ι D :=
  { r with
    arrived := Function.update r.arrived i (r.arrived i ++ [d])
    pending := Function.update r.pending i (r.pending i ++ [d]) }

def read (r : Relay ι D) (i : ι) (d : D) (rest : List D) : Relay ι D :=
  { r with
    pending := Function.update r.pending i rest
    reads := Function.update r.reads i (r.reads i ++ [(r.holder, d)]) }

def pass (r : Relay ι D) : Relay ι D := { r with holder := r.holder + 1 }

inductive Step : Relay ι D → Relay ι D → Prop where
  | arrive (r : Relay ι D) (i : ι) (d : D) : Step r (r.arrive i d)
  | read (r : Relay ι D) (i : ι) {d : D} {rest : List D} (h : r.pending i = d :: rest) :
    Step r (r.read i d rest)
  | pass (r : Relay ι D) : Step r r.pass

/-- The first reader has the streams, and nothing has arrived. -/
def fresh : Relay ι D := ⟨0, fun _ => [], fun _ => [], fun _ => []⟩

/-- What arrived was taken, each piece once and in order, or is pending; and every reader goes on
where the one before it stopped. -/
structure Continued (r : Relay ι D) : Prop where
  once : ∀ i, r.arrived i = (r.reads i).map Prod.snd ++ r.pending i
  held : ∀ i, ∀ p ∈ r.reads i, p.1 ≤ r.holder
  succession : ∀ i, (r.reads i).Pairwise fun p q => p.1 ≤ q.1

theorem Step.continued {r r' : Relay ι D} (h : r.Continued) (hstep : r.Step r') : r'.Continued := by
  cases hstep with
  | arrive i d =>
    refine ⟨fun j => ?_, h.held, h.succession⟩
    by_cases hj : j = i
    · subst hj
      simp only [Relay.arrive, Function.update_self]
      rw [h.once, List.append_assoc]
    · simp only [Relay.arrive, Function.update_of_ne hj]
      exact h.once j
  | @read i d rest hpending =>
    have hreads : ∀ j, (r.read i d rest).reads j = r.reads j ∨
        (j = i ∧ (r.read i d rest).reads j = r.reads i ++ [(r.holder, d)]) := by
      intro j
      by_cases hj : j = i
      · subst hj
        exact .inr ⟨rfl, Function.update_self _ _ _⟩
      · exact .inl (Function.update_of_ne hj _ _)
    refine ⟨fun j => ?_, fun j p hp => ?_, fun j => ?_⟩
    · by_cases hj : j = i
      · subst hj
        simp only [Relay.read, Function.update_self]
        rw [h.once, hpending, List.map_append, List.append_assoc]
        rfl
      · simp only [Relay.read, Function.update_of_ne hj]
        exact h.once j
    · rcases hreads j with heq | ⟨rfl, heq⟩
      · exact h.held j p (heq ▸ hp)
      · rw [heq] at hp
        rcases List.mem_append.mp hp with hp | hp
        · exact h.held j p hp
        · rw [List.mem_singleton.mp hp]
          exact Nat.le_refl _
    · rcases hreads j with heq | ⟨rfl, heq⟩
      · exact heq ▸ h.succession j
      · rw [heq]
        refine List.pairwise_append.mpr ⟨h.succession j, List.pairwise_singleton _ _, ?_⟩
        intro p hp q hq
        rw [List.mem_singleton.mp hq]
        exact h.held j p hp
  | pass => exact ⟨h.once, fun i p hp => Nat.le_succ_of_le (h.held i p hp), h.succession⟩

theorem continued_reached {r : Relay ι D} (hrun : Relation.ReflTransGen Step fresh r) :
    r.Continued := by
  induction hrun with
  | refl =>
    exact ⟨fun _ => rfl, fun _ _ hp => absurd hp List.not_mem_nil, fun _ => List.Pairwise.nil⟩
  | tail _ hstep ih => exact hstep.continued ih

end Relay

end Tomii
