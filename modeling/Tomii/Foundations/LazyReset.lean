import Mathlib.Order.Basic
import Mathlib.Data.List.Basic
import Mathlib.Order.Lattice

/-! # Cells that are reset lazily

A cell carries the stamp of the epoch that wrote it last. Read in a later epoch it
counts as holding its initial value, so advancing the epoch resets every cell at no
cost. `Stamped.read` is the rule; a stamp bound by the clock (`StampedBy`) is what
keeps it sound when the clock moves on. -/
namespace Tomii
set_option autoImplicit false
set_option maxHeartbeats 250000

structure Stamped (τ α : Type*) where
  stamp : τ
  value : α
deriving DecidableEq

namespace Stamped

variable {τ α β ι : Type*} [DecidableEq τ]

/-- What a cell means at epoch `now`. -/
def read (now : τ) (init : α) (c : Stamped τ α) : α :=
  if c.stamp = now then c.value else init

/-- A read-modify-write at epoch `now`. -/
def modify (now : τ) (init : α) (f : α → α) (c : Stamped τ α) : Stamped τ α :=
  ⟨now, f (c.read now init)⟩

@[simp] theorem read_stamped (now : τ) (init v : α) : read now init ⟨now, v⟩ = v := by
  simp [read]

@[simp] theorem read_modify (now : τ) (init : α) (f : α → α) (c : Stamped τ α) :
    (c.modify now init f).read now init = f (c.read now init) := by
  simp [modify]

theorem read_of_ne {now : τ} {init : α} {c : Stamped τ α} (h : c.stamp ≠ now) :
    c.read now init = init := by
  simp [read, h]

@[simp] theorem read_init (now stamp : τ) (init : α) : read now init ⟨stamp, init⟩ = init := by
  simp [read]

section Clock

variable {κ : Type*} [Preorder κ] {rank : τ → κ}

/-- Every cell of the family was written at or before `now`, as `rank` orders epochs. -/
def StampedBy (rank : τ → κ) (now : τ) (cells : ι → Stamped τ α) : Prop :=
  ∀ i, rank (cells i).stamp ≤ rank now

theorem StampedBy.read_later {now later : τ} {cells : ι → Stamped τ α}
    (h : StampedBy rank now cells) (hlt : rank now < rank later) (init : α) (i : ι) :
    (cells i).read later init = init := by
  apply read_of_ne
  intro heq
  exact absurd (heq ▸ h i) (not_le_of_gt hlt)

omit [DecidableEq τ] in
theorem StampedBy.later {now later : τ} {cells : ι → Stamped τ α}
    (h : StampedBy rank now cells) (hle : rank now ≤ rank later) : StampedBy rank later cells :=
  fun i => le_trans (h i) hle

omit [DecidableEq τ] in
theorem StampedBy.write {now : τ} {cells cells' : ι → Stamped τ α}
    (h : StampedBy rank now cells)
    (hcells : ∀ i, cells' i = cells i ∨ (cells' i).stamp = now) : StampedBy rank now cells' := by
  intro i
  rcases hcells i with heq | hstamp
  · rw [heq]
    exact h i
  · rw [hstamp]

end Clock

end Stamped

/-! ## Operation lists with outputs -/

section Runs

variable {ι ω σ ρ : Type*}

/-- Outputs and final state of a list of operations, first to last. -/
def runOps (step : ι → σ → ω × σ) : List ι → σ → List ω × σ
  | [], s => ([], s)
  | i :: is, s =>
    let (o, s') := step i s
    let (os, s'') := runOps step is s'
    (o :: os, s'')

@[simp] theorem runOps_nil (step : ι → σ → ω × σ) (s : σ) : runOps step [] s = ([], s) := rfl

@[simp] theorem runOps_cons (step : ι → σ → ω × σ) (i : ι) (is : List ι) (s : σ) :
    runOps step (i :: is) s =
      ((step i s).1 :: (runOps step is (step i s).2).1, (runOps step is (step i s).2).2) := rfl

/-- A relation that every operation keeps, with equal outputs, relates whole runs. -/
theorem runOps_refines {step : ι → σ → ω × σ} {spec : ι → ρ → ω × ρ} {R : σ → ρ → Prop}
    (hstep : ∀ i s t, R s t → (step i s).1 = (spec i t).1 ∧ R (step i s).2 (spec i t).2)
    (is : List ι) (s : σ) (t : ρ) (h : R s t) :
    (runOps step is s).1 = (runOps spec is t).1 ∧
      R (runOps step is s).2 (runOps spec is t).2 := by
  induction is generalizing s t with
  | nil => exact ⟨rfl, h⟩
  | cons i is ih =>
    obtain ⟨hout, hnext⟩ := hstep i s t h
    obtain ⟨houts, hend⟩ := ih _ _ hnext
    simp only [runOps_cons]
    exact ⟨by rw [hout, houts], hend⟩

end Runs

end Tomii
