import Tomii.Runtime.ThreadCounters

/-! # Claims and resets

What the loads of completion detection have seen stays true as long as the slot is marked: nothing of
its frame is left to run, and only the thread that marked it can begin another frame. -/
namespace Tomii
set_option autoImplicit false
set_option maxHeartbeats 250000

variable {c : Compiled} {clean : Prop} {σ σ' : Shared} {l l' : Phase} {ls ls' others : List Phase}

/-- What a step may do to a slot that a thread has marked. -/
structure Advances (σ σ' : Shared) (ls ls' : List Phase) (slot : ℕ) : Prop where
  retired : ∀ x, x.slot = slot → x ∈ σ.ledger.retired → x ∈ σ'.ledger.retired
  released : ∀ x, x.slot = slot → x ∈ σ'.ledger.released →
    x ∈ σ.ledger.released ∨ (σ.slots slot).resetting = false
  fired : ∀ n, (slot, n) ∈ σ'.ledger.fired →
    (slot, n) ∈ σ.ledger.fired ∨ (σ.slots slot).resetting = false
  inside : (∀ x ∈ σ.ledger.released, x.slot = slot → x ∈ σ.ledger.retired) →
    NoneInside ls slot → NoneInside ls' slot
  resetting : (σ.slots slot).resetting = true → (σ'.slots slot).resetting = true

theorem AllRetired.keep {slot : ℕ} {cond : Bool} (h : AllRetired c σ slot cond)
    (hadv : Advances σ σ' ls ls' slot) : AllRetired c σ' slot cond :=
  fun n hn hcond j hj => hadv.retired _ rfl (h n hn hcond j hj)

theorem LookOk.keep {slot : ℕ} {look : Look} (h : LookOk c σ ls slot look)
    (hadv : Advances σ σ' ls ls' slot) (hacc : Accounts c σ ls) : LookOk c σ' ls' slot look := by
  cases look with
  | fresh => exact trivial
  | empty => exact AllRetired.keep h hadv
  | drained => exact ⟨h.1.keep hadv, h.2.keep hadv⟩
  | quiet =>
    obtain ⟨htasks, hconds, hnone⟩ := h
    exact ⟨htasks.keep hadv, hconds.keep hadv,
      hadv.inside (hacc.settled_of_allRetired htasks hconds) hnone⟩

theorem ResetOk.keep {slot : ℕ} {stage : Stage} (h : ResetOk c σ ls slot stage)
    (hadv : Advances σ σ' ls ls' slot) : ResetOk c σ' ls' slot stage := by
  have hold : ∀ x ∈ σ'.ledger.released, x.slot = slot → x ∈ σ.ledger.released := by
    intro x hx hslot
    rcases hadv.released x hslot hx with hx | hflag
    · exact hx
    · rw [h.flag] at hflag
      cases hflag
  refine ⟨hadv.inside h.settled h.none, fun x hx hslot => ?_, fun x hx hslot => ?_,
    hadv.resetting h.flag, fun n hn => ?_⟩
  · exact hadv.retired x hslot (h.settled x (hold x hx hslot) hslot)
  · exact h.kept x (hold x hx hslot) hslot
  · rcases hadv.fired n hn with hn | hflag
    · exact h.fired n hn
    · rw [h.flag] at hflag
      cases hflag

theorem PhaseClaims.keep (h : PhaseClaims c clean σ ls l)
    (hadv : ∀ slot, l.focus.marked = some slot → Advances σ σ' ls ls' slot)
    (hacc : Accounts c σ ls) : PhaseClaims c clean σ' ls' l where
  look := fun slot look hl => (h.look slot look hl).keep (hadv slot (by rw [hl]; rfl)) hacc
  reset := fun slot stage hl => (h.reset slot stage hl).keep (hadv slot (by rw [hl]; rfl))
  sure := fun hclean slot look hl =>
    (h.sure hclean slot look hl).keep (hadv slot (by rw [hl]; rfl)) hacc
  fresh := h.fresh

/-- Only the focus of a thread matters to its claim. -/
theorem PhaseClaims.congr (h : PhaseClaims c clean σ ls l) (hfocus : l'.focus = l.focus) :
    PhaseClaims c clean σ ls l' where
  look := by rw [hfocus]; exact h.look
  reset := by rw [hfocus]; exact h.reset
  sure := by rw [hfocus]; exact h.sure
  fresh := by rw [hfocus]; exact h.fresh

/-- A thread that has marked no slot claims nothing. -/
theorem phaseClaims_of_unmarked (h : l.focus.marked = none) : PhaseClaims c clean σ ls l where
  look := fun slot look hl => by rw [hl] at h; cases h
  reset := fun slot stage hl => by rw [hl] at h; cases h
  sure := fun _ slot look hl => by rw [hl] at h; cases h
  fresh := fun _ slot hl => by rw [hl] at h; cases h

namespace Claims

theorem perm (h : Claims c clean σ ls) (hp : ls.Perm ls') : Claims c clean σ ls' := by
  have hnone : ∀ slot, NoneInside ls slot → NoneInside ls' slot := fun slot hn l hl =>
    hn l (hp.mem_iff.mpr hl)
  refine ⟨fun slot => ?_, fun l hl => ?_, fun slot hflag => ?_⟩
  · rw [← total_perm _ hp]
    exact h.bit slot
  · have hl := h.phases l (hp.mem_iff.mpr hl)
    refine ⟨fun slot look hf => ?_, fun slot stage hf => ?_, fun hclean slot look hf => ?_, hl.fresh⟩
    · have hlook := hl.look slot look hf
      cases look with
      | quiet => exact ⟨hlook.1, hlook.2.1, hnone slot hlook.2.2⟩
      | _ => exact hlook
    · have hreset := hl.reset slot stage hf
      exact ⟨hnone slot hreset.none, hreset.settled, hreset.kept, hreset.flag, hreset.fired⟩
    · obtain ⟨htasks, hconds, hn⟩ := hl.sure hclean slot look hf
      exact ⟨htasks, hconds, hnone slot hn⟩
  · obtain ⟨l, hl, hf⟩ := h.flagged slot hflag
    exact ⟨l, hp.mem_iff.mp hl, hf⟩

/-- The number of threads that have marked the slot. -/
theorem marks_zero_iff {slot : ℕ} :
    total (fun l => if l.focus.marked = some slot then 1 else 0) ls = 0 ↔
      ∀ l ∈ ls, l.focus.marked ≠ some slot := by
  induction ls with
  | nil => simp
  | cons l ls ih =>
    rw [total_cons, Nat.add_eq_zero_iff, ih]
    simp

/-- At most one thread marks a slot, and then the bit is set. -/
theorem alone (h : Claims c clean σ (l :: others)) {slot : ℕ} (hl : l.focus.marked = some slot) :
    (σ.slots slot).completed = true ∧ ∀ m ∈ others, m.focus.marked ≠ some slot := by
  have hbit := h.bit slot
  rw [total_cons, if_pos hl] at hbit
  cases hc : (σ.slots slot).completed with
  | false =>
    rw [hc] at hbit
    simp at hbit
  | true =>
    rw [hc, if_pos rfl] at hbit
    exact ⟨rfl, marks_zero_iff.mp (by omega)⟩

/-- Nobody is inside a slot that is being reset. -/
theorem not_resetting (h : Claims c clean σ ls) {slot : ℕ} (hl : l ∈ ls) (hin : slot ∈ l.inside) :
    (σ.slots slot).resetting = false := by
  cases hflag : (σ.slots slot).resetting with
  | false => rfl
  | true =>
    obtain ⟨m, hm, stage, hfocus⟩ := h.flagged slot hflag
    exact absurd hin (((h.phases m hm).reset slot stage hfocus).none l hl)

/-- A step that leaves the thread's focus as it is, or that has to do with no mark. -/
theorem step (h : Claims c clean σ (l :: others)) (hacc : Accounts c σ (l :: others))
    (hfocus : l'.focus = l.focus ∨ l.focus.marked = none ∧ l'.focus.marked = none)
    (hcompleted : ∀ s, (σ'.slots s).completed = (σ.slots s).completed)
    (hresetting : ∀ s, (σ'.slots s).resetting = (σ.slots s).resetting)
    (hadv : ∀ slot, Advances σ σ' (l :: others) (l' :: others) slot) :
    Claims c clean σ' (l' :: others) := by
  have hmarked : l'.focus.marked = l.focus.marked := by
    rcases hfocus with hf | ⟨hf, hf'⟩
    · rw [hf]
    · rw [hf, hf']
  refine ⟨fun slot => ?_, fun m hm => ?_, fun slot hflag => ?_⟩
  · rw [hcompleted, ← h.bit, total_cons, total_cons, hmarked]
  · have hkeep : ∀ m ∈ l :: others, PhaseClaims c clean σ' (l' :: others) m := fun m hm =>
      (h.phases m hm).keep (fun slot _ => hadv slot) hacc
    rcases List.mem_cons.mp hm with rfl | hm
    · rcases hfocus with hf | ⟨-, hf'⟩
      · exact (hkeep l List.mem_cons_self).congr hf
      · exact phaseClaims_of_unmarked hf'
    · exact hkeep m (List.mem_cons_of_mem _ hm)
  · rw [hresetting] at hflag
    obtain ⟨m, hm, stage, hm'⟩ := h.flagged slot hflag
    rcases List.mem_cons.mp hm with rfl | hm
    · rcases hfocus with hf | ⟨hf, -⟩
      · exact ⟨l', List.mem_cons_self, stage, hf.trans hm'⟩
      · rw [hm'] at hf
        cases hf
    · exact ⟨m, List.mem_cons_of_mem _ hm, stage, hm'⟩

/-- A step of the thread's own claim. The other threads have not marked the slot. -/
theorem refocus (h : Claims c clean σ (l :: others)) (hacc : Accounts c σ (l :: others))
    {slot : ℕ} (hown : ∀ s, s ≠ slot → (l'.focus.marked = some s ↔ l.focus.marked = some s))
    (hothers : ∀ m ∈ others, m.focus.marked ≠ some slot)
    (hcompleted : ∀ s, s ≠ slot → (σ'.slots s).completed = (σ.slots s).completed)
    (hbit : (σ'.slots slot).completed = decide (l'.focus.marked = some slot))
    (hresetting : ∀ s, s ≠ slot → (σ'.slots s).resetting = (σ.slots s).resetting)
    (hreset : (σ'.slots slot).resetting = true → ∃ stage, l'.focus = .reset slot stage)
    (hfocus : ∀ s stage, s ≠ slot → l.focus ≠ .reset s stage)
    (hadv : ∀ s, s ≠ slot → Advances σ σ' (l :: others) (l' :: others) s)
    (hl' : PhaseClaims c clean σ' (l' :: others) l') : Claims c clean σ' (l' :: others) := by
  refine ⟨fun s => ?_, fun m hm => ?_, fun s hflag => ?_⟩
  · by_cases hs : s = slot
    · subst hs
      rw [total_cons, marks_zero_iff.mpr hothers, hbit]
      by_cases hm : l'.focus.marked = some s <;> simp [hm]
    · rw [hcompleted s hs, ← h.bit, total_cons, total_cons]
      simp only [hown s hs]
  · rcases List.mem_cons.mp hm with rfl | hm
    · exact hl'
    · refine (h.phases m (List.mem_cons_of_mem _ hm)).keep (fun s hs => hadv s ?_) hacc
      rintro rfl
      exact hothers m hm hs
  · by_cases hs : s = slot
    · subst hs
      obtain ⟨stage, hst⟩ := hreset hflag
      exact ⟨l', List.mem_cons_self, stage, hst⟩
    · rw [hresetting s hs] at hflag
      obtain ⟨m, hm, stage, hst⟩ := h.flagged s hflag
      rcases List.mem_cons.mp hm with rfl | hm
      · exact absurd hst (hfocus s stage hs)
      · exact ⟨m, List.mem_cons_of_mem _ hm, stage, hst⟩

end Claims

/-! ## The wake-up -/

theorem Awake.perm {slot : ℕ} (h : Awake σ ls slot) (hp : ls.Perm ls') : Awake σ ls' slot := by
  rcases h with hflag | ⟨l, hl, hf⟩
  · exact .inl hflag
  · exact .inr ⟨l, hp.mem_iff.mp hl, hf⟩

theorem Unclaimed.perm {slot : ℕ} (h : Unclaimed c σ ls slot) (hp : ls.Perm ls') :
    Unclaimed c σ ls' slot where
  tasks := h.tasks
  conds := h.conds
  none := fun l hl => h.none l (hp.mem_iff.mpr hl)
  ran := h.ran
  before := h.before
  unclaimed := fun l hl => h.unclaimed l (hp.mem_iff.mpr hl)

/-- A step that keeps the flags, and the focus of the thread if it had one. -/
theorem Awake.keep {slot : ℕ} (h : Awake σ (l :: others) slot)
    (hfocus : l.focus = .free ∨ l'.focus = l.focus)
    (hflag : (σ.slots slot).needsCheck = true → (σ'.slots slot).needsCheck = true) :
    Awake σ' (l' :: others) slot := by
  rcases h with hset | ⟨m, hm, hf⟩
  · exact .inl (hflag hset)
  · rcases List.mem_cons.mp hm with rfl | hm
    · rcases hfocus with hfree | hsame
      · rw [hfree] at hf
        rcases hf with hf | ⟨look, hf⟩ | ⟨look, hf⟩ <;> cases hf
      · exact .inr ⟨l', List.mem_cons_self, hsame ▸ hf⟩
    · exact .inr ⟨m, List.mem_cons_of_mem _ hm, hf⟩

/-- A frame that is unclaimed after the step was so before. -/
theorem Unclaimed.before_step {slot : ℕ} (h : Unclaimed c σ' (l' :: others) slot)
    (hretired : ∀ x ∈ σ'.ledger.retired, x.slot = slot → x ∈ σ.ledger.retired)
    (hinside : slot ∉ l'.inside → slot ∉ l.inside)
    (hresetting : (σ'.slots slot).resetting = (σ.slots slot).resetting)
    (hfocus : l.focus = .claim slot .quiet → l'.focus = .claim slot .quiet) :
    Unclaimed c σ (l :: others) slot where
  tasks := fun n hn hcond j hj => hretired _ (h.tasks n hn hcond j hj) rfl
  conds := fun n hn hcond j hj => hretired _ (h.conds n hn hcond j hj) rfl
  none := by
    intro m hm
    rcases List.mem_cons.mp hm with rfl | hm
    · exact hinside (h.none l' List.mem_cons_self)
    · exact h.none m (List.mem_cons_of_mem _ hm)
  ran := by
    obtain ⟨x, hx, hslot⟩ := h.ran
    exact ⟨x, hretired x hx hslot, hslot⟩
  before := hresetting ▸ h.before
  unclaimed := by
    intro m hm hf
    rcases List.mem_cons.mp hm with rfl | hm
    · exact h.unclaimed l' List.mem_cons_self (hfocus hf)
    · exact h.unclaimed m (List.mem_cons_of_mem _ hm) hf

end Tomii
