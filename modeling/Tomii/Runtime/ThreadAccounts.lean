import Tomii.Runtime.ThreadPhases

/-! # Instances are never lost or doubled

Every step moves released instances from one place to another, or releases instances that were
not released before. -/
namespace Tomii
set_option autoImplicit false
set_option maxHeartbeats 250000

/-! ## Sums over threads -/

section Total

variable {M : Type} [AddCommMonoid M] (f : Phase → M)

@[simp] theorem total_nil : total f [] = 0 := rfl

@[simp] theorem total_cons (l : Phase) (ls : List Phase) : total f (l :: ls) = f l + total f ls := by
  simp [total]

theorem total_perm {ls ls' : List Phase} (h : ls.Perm ls') : total f ls = total f ls' :=
  (h.map f).sum_eq

theorem total_replicate_zero {l : Phase} (h : f l = 0) (n : ℕ) :
    total f (List.replicate n l) = 0 := by
  induction n with
  | zero => rfl
  | succ n ih => rw [List.replicate_succ, total_cons, h, ih, add_zero]

end Total

/-! ## Cells of tasks -/

namespace NodeInfo

theorem mem_cells {ni : NodeInfo} {x : Cell} : x ∈ ni.cells ↔
    x.slot = ni.slot ∧ x.node = ni.id ∧ ni.index ≤ x.idx ∧ x.idx < ni.index + ni.bulkCount := by
  obtain ⟨slot, node, idx⟩ := x
  simp only [cells, instances, List.mem_map, List.mem_range'_1, Cell.mk.injEq]
  constructor
  · rintro ⟨i, hi, rfl, rfl, rfl⟩
    exact ⟨rfl, rfl, hi⟩
  · rintro ⟨rfl, rfl, hi⟩
    exact ⟨idx, hi, rfl, rfl, rfl⟩

theorem cells_nodup (ni : NodeInfo) : ni.cells.Nodup :=
  (List.nodup_range' ..).map fun _ _ h => (Cell.mk.inj h).2.2

@[simp] theorem cells_length (ni : NodeInfo) : ni.cells.length = ni.bulkCount := by
  simp [cells, instances]

theorem head_mem_cells {ni : NodeInfo} (h : 1 ≤ ni.bulkCount) :
    ⟨ni.slot, ni.id, ni.index⟩ ∈ ni.cells :=
  mem_cells.mpr ⟨rfl, rfl, le_refl _, by simp only; omega⟩

end NodeInfo

namespace Ticket

theorem mem_cells {t : Ticket} {x : Cell} : x ∈ t.cells ↔ x.slot = t.slot ∧ x.node = t.info.id ∧
    t.info.index ≤ x.idx ∧ x.idx < t.info.index + t.info.bulkCount :=
  NodeInfo.mem_cells

@[simp] theorem cells_length (t : Ticket) : t.cells.length = t.info.bulkCount :=
  NodeInfo.cells_length t.info

@[simp] theorem cells_stamped (ni : NodeInfo) (st : Stamp) : (stamped ni st).cells = ni.cells := rfl

@[simp] theorem take_bulkCount (t : Ticket) : t.cells.take t.info.bulkCount = t.cells := by
  rw [← cells_length t, List.take_length]

/-- Running the instance after the first `k`. -/
theorem take_succ {t : Ticket} {k : ℕ} (hk : k < t.info.bulkCount) :
    t.cells.take (k + 1) = t.cells.take k ++ [⟨t.slot, t.info.id, t.info.index + k⟩] := by
  rw [List.take_succ_eq_append_getElem (by simpa using hk)]
  simp [cells, NodeInfo.cells, NodeInfo.instances, slot]

end Ticket

@[simp] theorem queuedCells_nil : queuedCells [] = 0 := rfl

@[simp] theorem queuedCells_cons (t : Ticket) (ts : List Ticket) :
    queuedCells (t :: ts) = (t.cells : Multiset Cell) + queuedCells ts := by
  simp [queuedCells]

theorem queuedCells_takeAt {i : ℕ} {ts : List Ticket} {t : Ticket}
    (h : (takeAt i ts).1 = some t) :
    queuedCells ts = (t.cells : Multiset Cell) + queuedCells (takeAt i ts).2 := by
  simp only [takeAt] at h ⊢
  induction ts generalizing i with
  | nil => simp at h
  | cons u ts ih =>
    cases i with
    | zero =>
      obtain rfl : u = t := by simpa using h
      simp
    | succ i =>
      rw [List.eraseIdx_cons_succ, queuedCells_cons, queuedCells_cons,
        ih (by simpa using h)]
      exact add_left_comm _ _ _

theorem mem_of_takeAt {i : ℕ} {ts : List Ticket} {t : Ticket} (h : (takeAt i ts).1 = some t) :
    t ∈ ts := List.mem_of_getElem? h

theorem takeAt_none {i : ℕ} {ts : List Ticket} (h : (takeAt i ts).1 = none) :
    (takeAt i ts).2 = ts :=
  List.eraseIdx_of_length_le (List.getElem?_eq_none_iff.mp h)

theorem mem_takeAt_rest {i : ℕ} {ts : List Ticket} {t : Ticket} (h : t ∈ (takeAt i ts).2) :
    t ∈ ts := List.mem_of_mem_eraseIdx h

theorem mem_queuedCells {ts : List Ticket} {x : Cell} :
    x ∈ queuedCells ts ↔ ∃ t ∈ ts, x ∈ t.cells := by
  simp [queuedCells]

/-! ## What a phase holds -/

namespace Phase

variable (c : Compiled) (cfg : Config) {l : Phase}

theorem live_addReady (slot node : ℕ) (is : List ℕ) : (l.addReady slot node is).live =
    l.live + (is.map (Cell.mk slot node) : Multiset Cell) := by
  simp only [addReady, live]
  ext x
  simp only [Multiset.count_add]
  omega

theorem live_cons_hand (p : Ticket × ℕ) :
    ({ l with hand := p ::ₘ l.hand } : Phase).live = l.live + (p.1.cells : Multiset Cell) := by
  simp only [live, Multiset.cons_bind]
  ext x
  simp only [Multiset.count_add]
  omega

theorem ran_cons_hand (p : Ticket × ℕ) :
    ({ l with hand := p ::ₘ l.hand } : Phase).ran =
      l.ran + (p.1.cells.take p.2 : Multiset Cell) := by
  simp only [ran, Multiset.cons_bind]
  exact add_comm _ _

theorem live_erase_hand {p : Ticket × ℕ} (h : p ∈ l.hand) :
    l.live = ({ l with hand := l.hand.erase p } : Phase).live + (p.1.cells : Multiset Cell) := by
  rw [← live_cons_hand, Multiset.cons_erase h]

theorem ran_erase_hand {p : Ticket × ℕ} (h : p ∈ l.hand) :
    l.ran = ({ l with hand := l.hand.erase p } : Phase).ran +
      (p.1.cells.take p.2 : Multiset Cell) := by
  rw [← ran_cons_hand, Multiset.cons_erase h]

theorem live_sub_ready {X : Multiset Cell} (h : X ≤ l.ready) :
    l.live = ({ l with ready := l.ready - X } : Phase).live + X := by
  obtain ⟨rest, hrest⟩ := Multiset.le_iff_exists_add.mp h
  simp only [live, hrest, add_tsub_cancel_left]
  ext x
  simp only [Multiset.count_add]
  omega

theorem live_sub_outgoing {X : Multiset Cell} (h : X ≤ l.outgoing) :
    l.live = ({ l with outgoing := l.outgoing - X } : Phase).live + X := by
  obtain ⟨rest, hrest⟩ := Multiset.le_iff_exists_add.mp h
  simp only [live, hrest, add_tsub_cancel_left]
  ext x
  simp only [Multiset.count_add]
  omega

theorem live_spend {task : NodeInfo} (h : (task.cells : Multiset Cell) ≤ l.pool c cfg task.id) :
    l.live = (l.spend c cfg task).live + (task.cells : Multiset Cell) := by
  unfold pool at h
  unfold spend
  split
  · next hf =>
    rw [if_pos hf] at h
    exact live_sub_outgoing h
  · next hf =>
    rw [if_neg hf] at h
    exact live_sub_ready h

@[simp] theorem ran_spend (task : NodeInfo) : (l.spend c cfg task).ran = l.ran := by
  unfold spend
  split <;> rfl

@[simp] theorem hand_spend (task : NodeInfo) : (l.spend c cfg task).hand = l.hand := by
  unfold spend
  split <;> rfl

/-- Only instances that wait for their dispatch are spent. -/
theorem spend_rest (task : NodeInfo) : ∃ ready outgoing,
    l.spend c cfg task = { l with ready := ready, outgoing := outgoing } := by
  unfold spend
  split
  · exact ⟨l.ready, _, rfl⟩
  · exact ⟨_, l.outgoing, rfl⟩

theorem mem_outgoing_spend {task : NodeInfo} {x : Cell} (hx : x ∈ l.outgoing) :
    x ∈ (l.spend c cfg task).outgoing ∨ x ∈ task.cells := by
  unfold spend
  split
  · by_cases hmem : x ∈ task.cells
    · exact .inr hmem
    · refine .inl (Multiset.mem_sub.mpr ?_)
      rw [Multiset.count_eq_zero.mpr (fun hin => hmem (Multiset.mem_coe.mp hin))]
      exact Multiset.count_pos.mpr hx
  · exact .inl hx

end Phase

/-! ## One step -/

namespace Accounts

variable {c : Compiled} {σ σ' : Shared} {others : List Phase} {l l' : Phase}

theorem perm {ls ls' : List Phase} (h : Accounts c σ ls) (hp : ls.Perm ls') :
    Accounts c σ ls' := by
  refine ⟨?_, h.nodup, h.bounded, ?_⟩
  · rw [outstanding, ← total_perm _ hp]
    exact h.placed
  · rw [← total_perm _ hp]
    exact h.run

/-- What a step has to show: the accounts balance without the other threads. -/
theorem step (h : Accounts c σ (l :: others))
    (hplaced : l'.live + σ'.ledger.arrived + queuedCells σ'.queue + queuedCells σ'.batchQueue +
        σ'.ledger.retired + (σ.ledger.released : Multiset Cell) =
      l.live + σ.ledger.arrived + queuedCells σ.queue + queuedCells σ.batchQueue +
        σ.ledger.retired + σ'.ledger.released)
    (hrun : l'.ran + queuedCells σ'.batchQueue + σ'.ledger.retired +
        ((σ.ledger.executed : Multiset Cell) + σ.ledger.discharged) =
      l.ran + queuedCells σ.batchQueue + σ.ledger.retired +
        (σ'.ledger.executed + σ'.ledger.discharged))
    (hnodup : σ'.ledger.released.Nodup)
    (hbounded : ∀ x ∈ σ'.ledger.released, x.node < c.graph.nodes.length ∧ x.idx < c.factor x.node) :
    Accounts c σ' (l' :: others) := by
  refine ⟨?_, hnodup, hbounded, ?_⟩
  · have hold := h.placed
    rw [outstanding, total_cons] at hold ⊢
    ext x
    have h1 := congrArg (Multiset.count x) hold
    have h2 := congrArg (Multiset.count x) hplaced
    simp only [Multiset.count_add] at h1 h2 ⊢
    omega
  · have hold := h.run
    rw [total_cons] at hold ⊢
    ext x
    have h1 := congrArg (Multiset.count x) hold
    have h2 := congrArg (Multiset.count x) hrun
    simp only [Multiset.count_add] at h1 h2 ⊢
    omega

/-- A step that moves nothing. -/
theorem still (h : Accounts c σ (l :: others)) (hlive : l'.live = l.live)
    (hran : l'.ran = l.ran) (hledger : σ'.ledger = σ.ledger) (hqueue : σ'.queue = σ.queue)
    (hbatch : σ'.batchQueue = σ.batchQueue) : Accounts c σ' (l' :: others) := by
  apply h.step
  · rw [hlive, hledger, hqueue, hbatch]
  · rw [hran, hledger, hbatch]
  · rw [hledger]
    exact h.nodup
  · rw [hledger]
    exact h.bounded

end Accounts

/-! ## What is outstanding -/

theorem mem_total {f : Phase → Multiset Cell} {ls : List Phase} {x : Cell} :
    x ∈ total f ls ↔ ∃ l ∈ ls, x ∈ f l := by
  induction ls with
  | nil => simp
  | cons l ls ih => simp [ih]

theorem mem_outstanding {σ : Shared} {ls : List Phase} {x : Cell} : x ∈ outstanding σ ls ↔
    (∃ l ∈ ls, x ∈ l.live) ∨ x ∈ σ.ledger.arrived ∨ (∃ t ∈ σ.queue, x ∈ t.cells) ∨
      ∃ t ∈ σ.batchQueue, x ∈ t.cells := by
  simp only [outstanding, Multiset.mem_add, mem_total, Multiset.mem_coe, mem_queuedCells, or_assoc]

namespace Accounts

variable {c : Compiled} {σ : Shared} {ls : List Phase}

theorem released_of_outstanding (h : Accounts c σ ls) {x : Cell} (hx : x ∈ outstanding σ ls) :
    x ∈ σ.ledger.released := by
  rw [← Multiset.mem_coe, ← h.placed]
  exact Multiset.mem_add.mpr (.inl hx)

theorem released_of_retired (h : Accounts c σ ls) {x : Cell} (hx : x ∈ σ.ledger.retired) :
    x ∈ σ.ledger.released := by
  rw [← Multiset.mem_coe, ← h.placed]
  exact Multiset.mem_add.mpr (.inr hx)

theorem placed_nodup (h : Accounts c σ ls) :
    (outstanding σ ls + (σ.ledger.retired : Multiset Cell)).Nodup := by
  rw [h.placed]
  exact Multiset.coe_nodup.mpr h.nodup

/-- Nothing outstanding is retired. -/
theorem not_retired (h : Accounts c σ ls) {x : Cell} (hx : x ∈ outstanding σ ls) :
    x ∉ σ.ledger.retired := by
  intro hret
  have hdisj := (Multiset.nodup_add.mp h.placed_nodup).2.2
  exact (Multiset.disjoint_left.mp hdisj) hx hret

end Accounts

end Tomii
