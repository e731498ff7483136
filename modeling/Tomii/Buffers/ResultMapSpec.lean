import Tomii.Buffers.ResultMap
import Mathlib.Algebra.BigOperators.Group.List.Basic
import Mathlib.Algebra.Order.BigOperators.Group.List
import Mathlib.Tactic.Linarith

/-! # The result map is a map of cells

The flat array refines `CellMap`: distinct cells have distinct places, a place holds what was
last set there, and every box has exactly one owner. -/
namespace Tomii
set_option autoImplicit false
set_option maxHeartbeats 250000

/-! ## Places of cells -/

theorem getElem?_nodeOffsets (factors : List ℕ) (offset id : ℕ) :
    (nodeOffsets offset factors)[id]? =
      if id < factors.length then some (offset + (factors.take id).sum) else none := by
  induction factors generalizing offset id with
  | nil => simp [nodeOffsets]
  | cons factor factors ih =>
    cases id with
    | zero => simp [nodeOffsets]
    | succ id => simp [nodeOffsets, ih, Nat.add_assoc]

/-- The instances of different nodes lie in disjoint ranges. -/
theorem sum_take_add_lt {factors : List ℕ} {i j fi : ℕ} (hij : i < j)
    (hi : factors[i]? = some fi) : (factors.take i).sum + fi ≤ (factors.take j).sum := by
  have hsucc : (factors.take (i + 1)).sum = (factors.take i).sum + fi := by
    rw [List.take_add_one, hi, List.sum_append]
    simp
  rw [← hsucc]
  exact ((List.take_sublist_take_left (by omega)).sum_le_sum fun _ _ => Nat.zero_le _)

namespace ResultMap

variable {α : Type} {m : ResultMap α}

/-- The place of a cell in its slot. -/
def place (m : ResultMap α) (c : ResultCell) : ℕ := (m.nodeFactors.take c.id).sum + c.index

theorem flatIndex_eq {c : ResultCell} (h : m.InBounds c) :
    m.flatIndex c = c.slot * m.perSlotSize + m.place c := by
  obtain ⟨-, f, hf, -⟩ := h
  have hid : c.id < m.nodeFactors.length := (List.getElem?_eq_some_iff.mp hf).1
  simp [flatIndex, place, getElem?_nodeOffsets, hid, Nat.add_assoc]

theorem place_lt {c : ResultCell} (h : m.InBounds c) : m.place c < m.perSlotSize := by
  obtain ⟨-, f, hf, hlt⟩ := h
  have hid : c.id < m.nodeFactors.length := (List.getElem?_eq_some_iff.mp hf).1
  have hrange := sum_take_add_lt hid hf
  rw [List.take_length] at hrange
  unfold place perSlotSize
  omega

theorem place_inj {c d : ResultCell} (hc : m.InBounds c) (hd : m.InBounds d)
    (h : m.place c = m.place d) : c.id = d.id ∧ c.index = d.index := by
  obtain ⟨-, f, hf, hlt⟩ := hc
  obtain ⟨-, g, hg, hlt'⟩ := hd
  unfold place at h
  rcases Nat.lt_trichotomy c.id d.id with hid | hid | hid
  · have := sum_take_add_lt hid hf
    omega
  · rw [hid] at h
    exact ⟨hid, by omega⟩
  · have := sum_take_add_lt hid hg
    omega

theorem slot_place_inj {s t p q size : ℕ} (hp : p < size) (hq : q < size)
    (h : s * size + p = t * size + q) : s = t ∧ p = q := by
  have hs : (s * size + p) / size = s := by
    rw [Nat.mul_comm, Nat.mul_add_div (by omega), Nat.div_eq_of_lt hp, Nat.add_zero]
  have ht : (t * size + q) / size = t := by
    rw [Nat.mul_comm, Nat.mul_add_div (by omega), Nat.div_eq_of_lt hq, Nat.add_zero]
  have hst : s = t := by rw [← hs, ← ht, h]
  subst hst
  exact ⟨rfl, by omega⟩

/-- Distinct cells have distinct places in the array. -/
theorem flatIndex_inj {c d : ResultCell} (hc : m.InBounds c) (hd : m.InBounds d)
    (h : m.flatIndex c = m.flatIndex d) : c = d := by
  rw [flatIndex_eq hc, flatIndex_eq hd] at h
  obtain ⟨hslot, hplace⟩ := slot_place_inj (place_lt hc) (place_lt hd) h
  obtain ⟨hid, hindex⟩ := place_inj hc hd hplace
  cases c
  cases d
  simp_all

theorem flatIndex_lt {c : ResultCell} (h : m.InBounds c) : m.flatIndex c < m.totalSize := by
  rw [flatIndex_eq h]
  have hplace := place_lt h
  have hslot := Nat.mul_le_mul_right m.perSlotSize h.1
  rw [Nat.succ_mul] at hslot
  unfold totalSize
  omega

/-- A cell is in the range that a reset clears when it is in that slot. -/
theorem mem_slotRange {c : ResultCell} (h : m.InBounds c) (slot : ℕ) :
    m.flatIndex c ∈ List.range' (slot * m.perSlotSize) m.perSlotSize ↔ c.slot = slot := by
  rw [List.mem_range'_1, flatIndex_eq h]
  have hplace := place_lt h
  constructor
  · rintro ⟨hlow, hhigh⟩
    have heq : c.slot * m.perSlotSize + m.place c =
        slot * m.perSlotSize + (c.slot * m.perSlotSize + m.place c - slot * m.perSlotSize) := by
      omega
    exact (slot_place_inj hplace (by omega) heq).1
  · rintro rfl
    omega

/-! ## The invariant -/

/-- A place is empty, holds an inline value or owns a box, and every box ever allocated is
owned by one place, waits for the reclaiming thread, or was freed: one of these, and once. -/
structure Sound (m : ResultMap α) : Prop where
  unboxed : ∀ idx, m.inlineTag idx ≠ CmTypes.tagBoxed → m.buffer idx = none
  boxed : ∀ idx, m.inlineTag idx = CmTypes.tagBoxed →
    ∃ p v, m.buffer idx = some p ∧ m.boxes[p]? = some v
  inline : ∀ idx, m.inlineTag idx ≠ 0 → m.inlineTag idx ≠ CmTypes.tagBoxed →
    ∃ v : CmTypes α, CmTypes.decodeInline (m.inlineTag idx) (m.inlineVal idx) = some v
  owners : (m.live ++ (m.freed ++ m.pending)).Perm (List.range m.boxes.length)

/-- The maps have the same cells. -/
structure SameShape (m m' : ResultMap α) : Prop where
  nodeFactors : m'.nodeFactors = m.nodeFactors
  slots : m'.slots = m.slots

namespace SameShape

variable {m' : ResultMap α} (h : SameShape m m')

include h

theorem inBounds (c : ResultCell) : m'.InBounds c ↔ m.InBounds c := by
  unfold InBounds
  rw [h.nodeFactors, h.slots]

theorem perSlotSize : m'.perSlotSize = m.perSlotSize := by
  unfold ResultMap.perSlotSize
  rw [h.nodeFactors]

theorem totalSize : m'.totalSize = m.totalSize := by
  unfold ResultMap.totalSize
  rw [h.slots, h.perSlotSize]

theorem flatIndex (c : ResultCell) : m'.flatIndex c = m.flatIndex c := by
  unfold ResultMap.flatIndex
  rw [h.nodeFactors, h.perSlotSize]

end SameShape

theorem sound_new (factors : List ℕ) (slots : ℕ) (deferred : Bool) :
    (new α factors slots deferred).Sound where
  unboxed := fun _ _ => rfl
  boxed := by
    intro idx h
    cases h
  inline := by
    intro idx h
    cases h rfl
  owners := by cases deferred <;> simp [live, pending, new]

theorem load_eq_none_iff (h : m.Sound) (idx : ℕ) : m.load idx = none ↔ m.inlineTag idx = 0 := by
  unfold load
  by_cases hzero : m.inlineTag idx = 0
  · simp [hzero]
  rw [if_neg hzero]
  by_cases hbox : m.inlineTag idx = CmTypes.tagBoxed
  · obtain ⟨p, v, hp, hv⟩ := h.boxed idx hbox
    simp [hbox, hp, hv, CmTypes.tagBoxed]
  · obtain ⟨v, hv⟩ := h.inline idx hzero hbox
    simp [hbox, hv, hzero]

theorem resultExists_eq (h : m.Sound) (c : ResultCell) :
    m.resultExists c = (m.get c).isSome := by
  unfold resultExists get
  split
  · rw [Bool.eq_iff_iff, Option.isSome_iff_ne_none, Ne, load_eq_none_iff h, bne_iff_ne]
  · rfl

/-- Every pointer in the array is to a box. -/
def Valid (m : ResultMap α) : Prop := ∀ idx p, m.buffer idx = some p → p < m.boxes.length

theorem Sound.valid (hs : m.Sound) : m.Valid := by
  intro idx p hp
  by_cases hbox : m.inlineTag idx = CmTypes.tagBoxed
  · obtain ⟨q, v, hq, hv⟩ := hs.boxed idx hbox
    obtain rfl := Option.some.inj (hp.symm.trans hq)
    exact (List.getElem?_eq_some_iff.mp hv).1
  · rw [hs.unboxed idx hbox] at hp
    cases hp

/-- A place reads the same where its words are the same and no box was lost. -/
theorem load_congr {m' : ResultMap α} {idx : ℕ} (hs : m.Valid)
    (htag : m'.inlineTag idx = m.inlineTag idx) (hval : m'.inlineVal idx = m.inlineVal idx)
    (hbuf : m'.buffer idx = m.buffer idx) (hboxes : m.boxes <+: m'.boxes) :
    m'.load idx = m.load idx := by
  unfold load
  rw [htag, hval, hbuf]
  split
  · rfl
  split
  · cases hp : m.buffer idx with
    | none => rfl
    | some p =>
      obtain ⟨extra, hextra⟩ := hboxes
      rw [Option.bind_some, Option.bind_some, ← hextra,
        List.getElem?_append_left (hs idx p hp)]
  · rfl

/-! ## Setting a cell -/

theorem filterMap_update_none {f : ℕ → Option ℕ} {l : List ℕ} (hl : l.Nodup) {i : ℕ} (hi : i ∈ l) :
    (l.filterMap f).Perm ((f i).toList ++ l.filterMap (Function.update f i none)) := by
  induction l with
  | nil => cases hi
  | cons j l ih =>
    obtain ⟨hj, hl⟩ := List.nodup_cons.mp hl
    by_cases hij : j = i
    · subst hij
      have hsame : l.filterMap (Function.update f j none) = l.filterMap f := by
        apply List.filterMap_congr
        intro k hk
        have hkj : k ≠ j := by
          rintro rfl
          exact hj hk
        exact Function.update_of_ne hkj _ _
      rw [List.filterMap_cons_none (f := Function.update f j none) (Function.update_self ..), hsame]
      cases hf : f j with
      | none => rw [List.filterMap_cons_none hf]; rfl
      | some p => rw [List.filterMap_cons_some hf]; rfl
    · have hi : i ∈ l := (List.mem_cons.mp hi).resolve_left fun heq => hij heq.symm
      have hkeep : Function.update f i none j = f j := Function.update_of_ne hij _ _
      cases hf : f j with
      | none =>
        rw [List.filterMap_cons_none hf, List.filterMap_cons_none (hkeep.trans hf)]
        exact ih hl hi
      | some p =>
        rw [List.filterMap_cons_some hf, List.filterMap_cons_some (hkeep.trans hf)]
        exact ((ih hl hi).cons p).trans List.perm_middle.symm

/-- What an operation that set cell `c` to `v` leaves. -/
structure Stores (m : ResultMap α) (c : ResultCell) (v : CmTypes α) (m' : ResultMap α) : Prop where
  shape : SameShape m m'
  valid : m'.Valid
  get_eq : m'.get = Function.update m.get c (some v)
  exists_eq : m'.resultExists = Function.update m.resultExists c true

theorem get_update {m' : ResultMap α} {c : ResultCell} {v : CmTypes α} (hshape : SameShape m m')
    (hc : m.InBounds c) (hat : m'.load (m.flatIndex c) = some v)
    (hoff : ∀ idx, idx ≠ m.flatIndex c → m'.load idx = m.load idx) :
    m'.get = Function.update m.get c (some v) := by
  funext d
  unfold get
  by_cases hd : m.InBounds d
  · rw [if_pos ((hshape.inBounds d).mpr hd), hshape.flatIndex]
    by_cases heq : d = c
    · subst heq
      rw [Function.update_self, hat]
    · rw [Function.update_of_ne heq, if_pos hd, hoff _ fun h => heq (flatIndex_inj hd hc h)]
  · have heq : d ≠ c := fun heq => hd (heq ▸ hc)
    rw [if_neg fun h => hd ((hshape.inBounds d).mp h), Function.update_of_ne heq, if_neg hd]

theorem exists_update {m' : ResultMap α} {c : ResultCell} (hshape : SameShape m m')
    (hc : m.InBounds c) {tag : UInt8} (htag : tag ≠ 0)
    (hwords : m'.inlineTag = Function.update m.inlineTag (m.flatIndex c) tag) :
    m'.resultExists = Function.update m.resultExists c true := by
  funext d
  unfold resultExists
  by_cases hd : m.InBounds d
  · rw [if_pos ((hshape.inBounds d).mpr hd), hshape.flatIndex, hwords]
    by_cases heq : d = c
    · subst heq
      rw [Function.update_self, Function.update_self, bne_iff_ne]
      exact htag
    · rw [Function.update_of_ne heq, if_pos hd,
        Function.update_of_ne fun h => heq (flatIndex_inj hd hc h)]
  · have heq : d ≠ c := fun heq => hd (heq ▸ hc)
    rw [if_neg fun h => hd ((hshape.inBounds d).mp h), Function.update_of_ne heq, if_neg hd]

/-- `set` on a cell of the map stores its value there and nowhere else. -/
theorem set_stores (hm : m.Valid) {c : ResultCell} (hc : m.InBounds c) (v : CmTypes α) :
    ∃ m', m.set c v = some m' ∧ m.Stores c v m' := by
  unfold set
  rw [if_pos hc]
  cases henc : v.encodeInline with
  | some w =>
    obtain ⟨tag, val⟩ := w
    obtain ⟨hzero, hbox⟩ := CmTypes.encodeInline_tag henc
    have hdec := CmTypes.decode_encodeInline henc
    refine ⟨_, rfl, ⟨rfl, rfl⟩, hm, get_update ⟨rfl, rfl⟩ hc ?_ ?_,
      exists_update ⟨rfl, rfl⟩ hc hzero rfl⟩
    · simp [load, hzero, hbox, hdec]
    · intro idx hidx
      exact load_congr hm (Function.update_of_ne hidx _ _) (Function.update_of_ne hidx _ _) rfl
        (List.prefix_refl _)
  | none =>
    refine ⟨_, rfl, ⟨rfl, rfl⟩, ?_, get_update ⟨rfl, rfl⟩ hc ?_ ?_,
      exists_update ⟨rfl, rfl⟩ hc (by decide) rfl⟩
    · intro idx p hp
      rw [List.length_append, List.length_singleton]
      by_cases hidx : idx = m.flatIndex c
      · simp only [hidx, Function.update_self, Option.some.injEq] at hp
        omega
      · simp only [Function.update_of_ne hidx] at hp
        have hlt := hm idx p hp
        omega
    · simp [load, CmTypes.tagBoxed]
    · intro idx hidx
      exact load_congr hm (Function.update_of_ne hidx _ _) rfl (Function.update_of_ne hidx _ _)
        (List.prefix_append _ _)

theorem sound_inline (hs : m.Sound) {c : ResultCell} {v : CmTypes α} {tag : UInt8} {val : UInt64}
    (henc : v.encodeInline = some (tag, val)) (hempty : m.inlineTag (m.flatIndex c) = 0) :
    Sound { m with
      inlineVal := Function.update m.inlineVal (m.flatIndex c) val
      inlineTag := Function.update m.inlineTag (m.flatIndex c) tag } := by
  have hbox := (CmTypes.encodeInline_tag henc).2
  have hdec := CmTypes.decode_encodeInline henc
  refine ⟨?_, ?_, ?_, hs.owners⟩
  · intro idx htag
    by_cases hidx : idx = m.flatIndex c
    · exact hs.unboxed idx (by rw [hidx, hempty]; decide)
    · exact hs.unboxed idx (by rwa [← Function.update_of_ne hidx tag m.inlineTag])
  · intro idx htag
    by_cases hidx : idx = m.flatIndex c
    · subst hidx
      exact absurd ((Function.update_self ..).symm.trans htag) hbox
    · simp only [Function.update_of_ne hidx] at htag
      exact hs.boxed idx htag
  · intro idx hne htag
    by_cases hidx : idx = m.flatIndex c
    · subst hidx
      exact ⟨v, by simp only [Function.update_self, hdec]⟩
    · simp only [Function.update_of_ne hidx] at hne htag ⊢
      exact hs.inline idx hne htag

/-- Where a place owned no box, giving it one adds exactly that one. -/
theorem live_update {c : ResultCell} (hc : m.InBounds c) (p : ℕ)
    (hnone : m.buffer (m.flatIndex c) = none) :
    ((List.range m.totalSize).filterMap (Function.update m.buffer (m.flatIndex c) (some p))).Perm
      (p :: m.live) := by
  have hperm := filterMap_update_none (f := Function.update m.buffer (m.flatIndex c) (some p))
    List.nodup_range (List.mem_range.mpr (flatIndex_lt hc))
  rw [Function.update_self, Function.update_idem, ← hnone, Function.update_eq_self] at hperm
  exact hperm

theorem sound_boxed (hs : m.Sound) {c : ResultCell} (hc : m.InBounds c) {v : CmTypes α}
    (hempty : m.inlineTag (m.flatIndex c) = 0) :
    Sound { m with
      buffer := Function.update m.buffer (m.flatIndex c) (some m.boxes.length)
      boxes := m.boxes ++ [v]
      inlineTag := Function.update m.inlineTag (m.flatIndex c) CmTypes.tagBoxed
      freed := m.freed ++ (m.buffer (m.flatIndex c)).toList } := by
  have hnone : m.buffer (m.flatIndex c) = none :=
    hs.unboxed _ (by rw [hempty]; decide)
  have hkeep : ∀ {p : ℕ} {w : CmTypes α}, m.boxes[p]? = some w → (m.boxes ++ [v])[p]? = some w := by
    intro p w hw
    rw [List.getElem?_append_left (List.getElem?_eq_some_iff.mp hw).1, hw]
  refine ⟨?_, ?_, ?_, ?_⟩
  · intro idx htag
    by_cases hidx : idx = m.flatIndex c
    · subst hidx
      exact absurd (Function.update_self ..) htag
    · simp only [Function.update_of_ne hidx] at htag ⊢
      exact hs.unboxed idx htag
  · intro idx htag
    by_cases hidx : idx = m.flatIndex c
    · subst hidx
      exact ⟨m.boxes.length, v, Function.update_self .., List.getElem?_concat_length⟩
    · simp only [Function.update_of_ne hidx] at htag ⊢
      obtain ⟨p, w, hp, hw⟩ := hs.boxed idx htag
      exact ⟨p, w, hp, hkeep hw⟩
  · intro idx hne htag
    by_cases hidx : idx = m.flatIndex c
    · subst hidx
      exact absurd (Function.update_self ..) htag
    · simp only [Function.update_of_ne hidx] at hne htag ⊢
      exact hs.inline idx hne htag
  · have hlive := live_update hc m.boxes.length hnone
    rw [hnone, Option.toList_none, List.append_nil, List.length_append, List.length_singleton,
      List.range_succ]
    exact ((hlive.append_right _).trans (List.cons_append ▸ (hs.owners.cons _))).trans
      (List.perm_append_singleton _ _).symm

/-- On an empty cell no box is lost. -/
theorem set_sound (hs : m.Sound) {c : ResultCell} (hempty : m.get c = none) {v : CmTypes α}
    {m' : ResultMap α} (hset : m.set c v = some m') : m'.Sound := by
  unfold set at hset
  split at hset
  · next hc =>
    unfold get at hempty
    rw [if_pos hc, load_eq_none_iff hs] at hempty
    cases henc : v.encodeInline with
    | some w =>
      rw [henc] at hset
      obtain rfl := Option.some.inj hset
      exact sound_inline hs henc hempty
    | none =>
      rw [henc] at hset
      obtain rfl := Option.some.inj hset
      exact sound_boxed hs hc hempty
  · cases hset

/-! ## Resetting a slot -/

/-- The loop of `reinit_slot` after the places `done`, with the boxes it holds. -/
structure Clearing (m : ResultMap α) (done : List ℕ) (st : ResultMap α × List ℕ) : Prop where
  shape : SameShape m st.1
  boxes : st.1.boxes = m.boxes
  inlineVal : st.1.inlineVal = m.inlineVal
  reclaim : st.1.reclaim = m.reclaim
  inlineTag : ∀ idx, st.1.inlineTag idx = if idx ∈ done then 0 else m.inlineTag idx
  buffer : ∀ idx, st.1.buffer idx = if idx ∈ done then none else m.buffer idx
  detached : m.reclaim = none → st.2 = []
  owners : (st.1.live ++ (st.1.freed ++ (st.2 ++ st.1.pending))).Perm (List.range m.boxes.length)

theorem clearing_nil (hs : m.Sound) : m.Clearing [] (m, []) where
  shape := ⟨rfl, rfl⟩
  boxes := rfl
  inlineVal := rfl
  reclaim := rfl
  inlineTag := fun _ => rfl
  buffer := fun _ => rfl
  detached := fun _ => rfl
  owners := hs.owners

/-- Emptying a place that owned `p` takes exactly `p` from the boxes the map owns. -/
theorem live_emptied {idx p : ℕ} (hidx : idx < m.totalSize) (hp : m.buffer idx = some p) :
    m.live.Perm
      (p :: (List.range m.totalSize).filterMap (Function.update m.buffer idx none)) := by
  have hperm := filterMap_update_none (f := m.buffer) List.nodup_range (List.mem_range.mpr hidx)
  rw [hp] at hperm
  exact hperm

theorem update_eq_ite {β : Type} {f : ℕ → β} {g : ℕ → β} {done : List ℕ} {idx : ℕ} {z : β}
    (h : ∀ j, g j = if j ∈ done then z else f j) (j : ℕ) :
    Function.update g idx z j = if j ∈ done ++ [idx] then z else f j := by
  by_cases hj : j = idx
  · subst hj
    simp
  · rw [Function.update_of_ne hj, h j]
    simp [hj]

theorem clearing_step (hs : m.Sound) {done : List ℕ} {st : ResultMap α × List ℕ} {idx : ℕ}
    (hidx : idx < m.totalSize) (hnew : idx ∉ done) (h : m.Clearing done st) :
    m.Clearing (done ++ [idx]) (clearCell st idx) := by
  obtain ⟨s, detached⟩ := st
  have htag : s.inlineTag idx = m.inlineTag idx := (h.inlineTag idx).trans (if_neg hnew)
  have hbuf : s.buffer idx = m.buffer idx := (h.buffer idx).trans (if_neg hnew)
  have hlt : idx < s.totalSize := h.shape.totalSize.symm ▸ hidx
  unfold clearCell
  simp only
  by_cases hbox : s.inlineTag idx = CmTypes.tagBoxed
  · obtain ⟨p, v, hp, -⟩ := hs.boxed idx (htag ▸ hbox)
    rw [if_pos hbox, hbuf, hp]
    have hlive := live_emptied hlt (hbuf.trans hp)
    have howners := h.owners
    by_cases hreclaim : s.reclaim.isSome = true
    · simp only [if_pos hreclaim]
      refine ⟨⟨h.shape.nodeFactors, h.shape.slots⟩, h.boxes, h.inlineVal, h.reclaim, update_eq_ite h.inlineTag,
        update_eq_ite h.buffer, fun hnone => ?_, ?_⟩
      · rw [h.reclaim, hnone] at hreclaim
        cases hreclaim
      · refine List.Perm.trans ?_ ((hlive.symm.append_right _).trans howners)
        refine List.Perm.trans ?_ List.perm_middle
        refine List.Perm.append_left _ ?_
        refine List.Perm.trans ?_ List.perm_middle
        refine List.Perm.append_left _ ?_
        rw [List.append_assoc]
        exact List.perm_middle
    · simp only [if_neg hreclaim]
      refine ⟨⟨h.shape.nodeFactors, h.shape.slots⟩, h.boxes, h.inlineVal, h.reclaim, update_eq_ite h.inlineTag,
        update_eq_ite h.buffer, h.detached, ?_⟩
      refine List.Perm.trans ?_ ((hlive.symm.append_right _).trans howners)
      refine List.Perm.trans ?_ List.perm_middle
      refine List.Perm.append_left _ ?_
      rw [List.append_assoc]
      exact List.perm_middle
  · -- an inline value or an empty place owns no box
    rw [if_neg hbox]
    have hnone : s.buffer idx = none := hbuf.trans (hs.unboxed idx (htag ▸ hbox))
    refine ⟨⟨h.shape.nodeFactors, h.shape.slots⟩, h.boxes, h.inlineVal, h.reclaim, update_eq_ite h.inlineTag, ?_, h.detached,
      h.owners⟩
    intro j
    rw [← update_eq_ite h.buffer j, ← hnone, Function.update_eq_self]

theorem clearing_foldl (hs : m.Sound) {places done : List ℕ} {st : ResultMap α × List ℕ}
    (hlt : ∀ idx ∈ places, idx < m.totalSize) (hnodup : (done ++ places).Nodup)
    (h : m.Clearing done st) : m.Clearing (done ++ places) (places.foldl clearCell st) := by
  induction places generalizing done st with
  | nil => rwa [List.append_nil]
  | cons idx places ih =>
    rw [List.append_cons] at hnodup ⊢
    have hnew : idx ∉ done := by
      intro hmem
      have hdone := (List.nodup_append.mp hnodup).1
      exact (List.nodup_append.mp hdone).2.2 idx hmem idx (List.mem_singleton_self _) rfl
    exact ih (fun j hj => hlt j (List.mem_cons_of_mem _ hj)) hnodup
      (clearing_step hs (hlt idx List.mem_cons_self) hnew h)

theorem pending_send (s : ResultMap α) (detached : List ℕ)
    (h : s.reclaim = none → detached = []) :
    (s.send detached).pending.Perm (detached ++ s.pending) := by
  unfold send pending
  split
  · next hnil => rw [hnil, List.nil_append]
  · next hne =>
    cases hreclaim : s.reclaim with
    | none => exact absurd (h hreclaim) hne
    | some batches =>
      simp only [Option.map_some, Option.getD_some, List.flatten_append, List.flatten_cons,
        List.flatten_nil, List.append_nil]
      exact List.perm_append_comm

/-- What `reinit_slot` leaves. -/
structure Resets (m : ResultMap α) (slot : ℕ) (m' : ResultMap α) : Prop where
  shape : SameShape m m'
  sound : m'.Sound
  get_eq : ∀ c, m'.get c = if c.slot = slot then none else m.get c

theorem send_words (s : ResultMap α) (detached : List ℕ) :
    (s.send detached).inlineTag = s.inlineTag ∧ (s.send detached).buffer = s.buffer ∧
      (s.send detached).inlineVal = s.inlineVal ∧ (s.send detached).boxes = s.boxes ∧
      (s.send detached).freed = s.freed ∧ (s.send detached).nodeFactors = s.nodeFactors ∧
      (s.send detached).slots = s.slots := by
  unfold send
  split <;> exact ⟨rfl, rfl, rfl, rfl, rfl, rfl, rfl⟩

/-- `reinit_slot` empties the cells of its slot and no others. -/
theorem reinitSlot_spec (hs : m.Sound) {slot : ℕ} (hslot : slot < m.slots) :
    ∃ m', m.reinitSlot slot = some m' ∧ m.Resets slot m' := by
  have hrange : ∀ idx ∈ List.range' (slot * m.perSlotSize) m.perSlotSize, idx < m.totalSize := by
    intro idx hidx
    rw [List.mem_range'_1] at hidx
    have hmul := Nat.mul_le_mul_right m.perSlotSize hslot
    rw [Nat.succ_mul] at hmul
    unfold totalSize
    omega
  have hclear := clearing_foldl hs hrange
    (by rw [List.nil_append]; exact List.nodup_range') (clearing_nil hs)
  rw [List.nil_append] at hclear
  unfold reinitSlot
  rw [if_pos hslot]
  generalize (List.range' (slot * m.perSlotSize) m.perSlotSize).foldl clearCell (m, []) = st
    at hclear
  obtain ⟨s, detached⟩ := st
  obtain ⟨htag, hbuf, hval, hboxes, hfreed, hfactors, hslots⟩ := send_words s detached
  have hshape : SameShape m (s.send detached) :=
    ⟨hfactors.trans hclear.shape.nodeFactors, hslots.trans hclear.shape.slots⟩
  refine ⟨_, rfl, hshape, ⟨?_, ?_, ?_, ?_⟩, ?_⟩
  · intro idx hne
    rw [htag, hclear.inlineTag] at hne
    rw [hbuf, hclear.buffer]
    split
    · rfl
    · next hmem =>
      rw [if_neg hmem] at hne
      exact hs.unboxed idx hne
  · intro idx heq
    rw [htag, hclear.inlineTag] at heq
    split at heq
    · cases heq
    · next hmem =>
      obtain ⟨p, v, hp, hv⟩ := hs.boxed idx heq
      exact ⟨p, v, by rw [hbuf, hclear.buffer, if_neg hmem, hp], by rw [hboxes, hclear.boxes, hv]⟩
  · intro idx hne heq
    rw [htag, hclear.inlineTag] at hne heq
    rw [htag, hclear.inlineTag, hval, hclear.inlineVal]
    split at hne
    · exact absurd rfl hne
    · next hmem =>
      rw [if_neg hmem] at heq ⊢
      exact hs.inline idx hne heq
  · have hlive : (s.send detached).live = s.live := by
      unfold live totalSize perSlotSize
      rw [hfactors, hslots, hbuf]
    have hpending := pending_send s detached fun hnone =>
      hclear.detached (hclear.reclaim ▸ hnone)
    rw [hlive, hfreed, hboxes, hclear.boxes]
    exact (((hpending.append_left _).append_left _)).trans hclear.owners
  · intro c
    unfold get
    rw [if_congr (hshape.inBounds c) rfl rfl]
    by_cases hc : m.InBounds c
    · rw [if_pos hc, if_pos hc, hshape.flatIndex]
      by_cases hsame : c.slot = slot
      · have hmem := (mem_slotRange hc slot).mpr hsame
        rw [if_pos hsame]
        unfold load
        rw [htag, hclear.inlineTag, if_pos hmem, if_pos rfl]
      · have hmem := mt (mem_slotRange hc slot).mp hsame
        rw [if_neg hsame]
        refine load_congr hs.valid ?_ (by rw [hval, hclear.inlineVal]) ?_
          ⟨[], by rw [hboxes, hclear.boxes, List.append_nil]⟩
        · rw [htag, hclear.inlineTag, if_neg hmem]
        · rw [hbuf, hclear.buffer, if_neg hmem]
    · rw [if_neg hc, if_neg hc, ite_self]

theorem valid_clearCell {st : ResultMap α × List ℕ} (h : st.1.Valid) (idx : ℕ) :
    (clearCell st idx).1.Valid ∧ SameShape st.1 (clearCell st idx).1 := by
  obtain ⟨s, detached⟩ := st
  have hkeep : ∀ j p, Function.update s.buffer idx none j = some p → p < s.boxes.length := by
    intro j p hp
    by_cases hj : j = idx
    · rw [hj, Function.update_self] at hp
      cases hp
    · rw [Function.update_of_ne hj] at hp
      exact h j p hp
  unfold clearCell
  simp only
  split
  · split
    · split
      · exact ⟨hkeep, rfl, rfl⟩
      · exact ⟨hkeep, rfl, rfl⟩
    · exact ⟨hkeep, rfl, rfl⟩
  · exact ⟨h, rfl, rfl⟩

theorem valid_foldl {st : ResultMap α × List ℕ} (h : st.1.Valid) (places : List ℕ) :
    (places.foldl clearCell st).1.Valid ∧ SameShape st.1 (places.foldl clearCell st).1 := by
  induction places generalizing st with
  | nil => exact ⟨h, rfl, rfl⟩
  | cons idx places ih =>
    obtain ⟨hvalid, hshape⟩ := valid_clearCell h idx
    obtain ⟨hvalid', hshape'⟩ := ih hvalid
    exact ⟨hvalid', hshape'.nodeFactors.trans hshape.nodeFactors,
      hshape'.slots.trans hshape.slots⟩

/-- Whatever the operation, pointers stay pointers to boxes and the cells stay the same. -/
theorem valid_step (hm : m.Valid) {op : MapOp α} {reply : MapReply α} {m' : ResultMap α}
    (hstep : m.step op = some (reply, m')) : m'.Valid ∧ SameShape m m' := by
  cases op with
  | set c v =>
    obtain ⟨n, hset, heq⟩ := Option.map_eq_some_iff.mp hstep
    obtain ⟨-, rfl⟩ := Prod.mk.inj heq
    have hc : m.InBounds c := by
      unfold set at hset
      split at hset
      · assumption
      · cases hset
    obtain ⟨n', hset', hstores⟩ := set_stores hm hc v
    obtain rfl := Option.some.inj (hset.symm.trans hset')
    exact ⟨hstores.valid, hstores.shape⟩
  | get c =>
    obtain ⟨-, rfl⟩ := Prod.mk.inj (Option.some.inj hstep)
    exact ⟨hm, rfl, rfl⟩
  | resultExists c =>
    obtain ⟨-, rfl⟩ := Prod.mk.inj (Option.some.inj hstep)
    exact ⟨hm, rfl, rfl⟩
  | reinitSlot slot =>
    obtain ⟨n, hreinit, heq⟩ := Option.map_eq_some_iff.mp hstep
    obtain ⟨-, rfl⟩ := Prod.mk.inj heq
    unfold reinitSlot at hreinit
    split at hreinit
    · obtain rfl := Option.some.inj hreinit
      obtain ⟨hvalid, hshape⟩ := @valid_foldl _ (m, []) hm
        (List.range' (slot * m.perSlotSize) m.perSlotSize)
      generalize (List.range' (slot * m.perSlotSize) m.perSlotSize).foldl clearCell (m, []) = st
        at hvalid hshape
      obtain ⟨-, hbuf, -, hboxes, -, hfactors, hslots⟩ := send_words st.1 st.2
      refine ⟨?_, hfactors.trans hshape.nodeFactors, hslots.trans hshape.slots⟩
      intro idx p hp
      rw [hbuf] at hp
      rw [hboxes]
      exact hvalid idx p hp
    · cases hreinit
  | reclaimBatch =>
    obtain ⟨-, rfl⟩ := Prod.mk.inj (Option.some.inj hstep)
    unfold reclaimBatch
    split <;> exact ⟨hm, rfl, rfl⟩

theorem valid_run {ops : List (MapOp α)} {replies : List (MapReply α)} {m' : ResultMap α}
    (hm : m.Valid) (hrun : ResultMap.step.run ops m = some (replies, m')) :
    m'.Valid ∧ SameShape m m' := by
  induction ops generalizing m replies with
  | nil =>
    obtain ⟨-, rfl⟩ := Prod.mk.inj (Option.some.inj hrun)
    exact ⟨hm, rfl, rfl⟩
  | cons op ops ih =>
    simp only [MapStep.run, Option.bind_eq_bind, Option.bind_eq_some_iff, Option.pure_def] at hrun
    obtain ⟨⟨reply, s⟩, hstep, ⟨rest, s'⟩, hrest, hend⟩ := hrun
    obtain ⟨-, rfl⟩ := Prod.mk.inj (Option.some.inj hend)
    obtain ⟨hvalid, hshape⟩ := valid_step hm hstep
    obtain ⟨hvalid', hshape'⟩ := ih hvalid hrest
    exact ⟨hvalid', hshape'.nodeFactors.trans hshape.nodeFactors,
      hshape'.slots.trans hshape.slots⟩

/-! ## The reclaiming thread and the end of the map -/

theorem reclaimBatch_spec (hs : m.Sound) :
    SameShape m m.reclaimBatch ∧ m.reclaimBatch.Sound ∧ m.reclaimBatch.get = m.get := by
  unfold reclaimBatch
  split
  · next batch batches hreclaim =>
    refine ⟨⟨rfl, rfl⟩, ⟨hs.unboxed, hs.boxed, hs.inline, ?_⟩, rfl⟩
    have howners := hs.owners
    have hpending : m.pending = batch ++ batches.flatten := by
      rw [pending, hreclaim, Option.getD_some, List.flatten_cons]
    rw [hpending, ← List.append_assoc m.freed] at howners
    exact howners
  · exact ⟨⟨rfl, rfl⟩, hs, rfl⟩

/-- Once the map is dropped and the reclaiming thread has drained, every box was freed once. -/
theorem dropAll_perm (hs : m.Sound) : m.dropAll.Perm (List.range m.boxes.length) := by
  have hboxed : (List.range m.totalSize).filterMap (fun idx =>
      if m.inlineTag idx = CmTypes.tagBoxed then m.buffer idx else none) = m.live := by
    apply List.filterMap_congr
    intro idx _
    split
    · rfl
    · next hne => exact (hs.unboxed idx hne).symm
  rw [dropAll, hboxed]
  refine List.Perm.trans ?_ hs.owners
  rw [← List.append_assoc]
  exact List.perm_append_comm.append_right _

/-- A box that a cell still reads was neither freed nor handed to the reclaiming thread. -/
theorem live_not_freed (hs : m.Sound) {idx p : ℕ} (hidx : idx < m.totalSize)
    (hp : m.buffer idx = some p) : p ∉ m.freed ∧ p ∉ m.pending := by
  have hmem : p ∈ m.live := List.mem_filterMap.mpr ⟨idx, List.mem_range.mpr hidx, hp⟩
  have hnodup := (hs.owners.nodup_iff).mpr List.nodup_range
  have hapart := (List.nodup_append.mp hnodup).2.2
  constructor
  · intro hfreed
    exact hapart p hmem p (List.mem_append_left _ hfreed) rfl
  · intro hpending
    exact hapart p hmem p (List.mem_append_right _ hpending) rfl

end ResultMap

/-! ## Runs -/

variable {α : Type}

/-- The array represents the map `f`. -/
structure Represents (factors : List ℕ) (slots : ℕ) (m : ResultMap α) (f : CellMap α) : Prop where
  nodeFactors : m.nodeFactors = factors
  slots : m.slots = slots
  sound : m.Sound
  get_eq : m.get = f

/-- A panic of both, or the same reply and again an array that represents the map. -/
def Matches (factors : List ℕ) (slots : ℕ) :
    Option (MapReply α × ResultMap α) → Option (MapReply α × CellMap α) → Prop
  | none, none => True
  | some (r, m), some (r', f) => r = r' ∧ Represents factors slots m f
  | _, _ => False

theorem represents_new (factors : List ℕ) (slots : ℕ) (deferred : Bool) :
    Represents factors slots (ResultMap.new α factors slots deferred) fun _ => none where
  nodeFactors := rfl
  slots := rfl
  sound := ResultMap.sound_new factors slots deferred
  get_eq := by
    funext c
    unfold ResultMap.get
    split <;> rfl

theorem Represents.step {factors : List ℕ} {slots : ℕ} {m : ResultMap α} {f : CellMap α}
    (h : Represents factors slots m f) (op : MapOp α) (honce : ∀ c v, op = .set c v → f c = none) :
    Matches factors slots (m.step op) (CellMap.step factors slots f op) := by
  have hbounds : ∀ c, (c.slot < slots ∧ ∃ n ∈ factors[c.id]?, c.index < n) ↔ m.InBounds c := by
    intro c
    rw [ResultMap.InBounds, h.nodeFactors, h.slots]
  cases op with
  | set c v =>
    simp only [ResultMap.step, CellMap.step]
    by_cases hc : m.InBounds c
    · have hempty : m.get c = none := by
        rw [h.get_eq]
        exact honce c v rfl
      obtain ⟨m', hset, hstores⟩ := ResultMap.set_stores h.sound.valid hc v
      rw [hset, if_pos ((hbounds c).mpr hc)]
      exact ⟨rfl, hstores.shape.nodeFactors.trans h.nodeFactors, hstores.shape.slots.trans h.slots,
        ResultMap.set_sound h.sound hempty hset, by rw [hstores.get_eq, h.get_eq]⟩
    · rw [ResultMap.set, if_neg hc, if_neg (mt (hbounds c).mp hc)]
      trivial
  | get c => exact ⟨by rw [h.get_eq], h⟩
  | resultExists c => exact ⟨by rw [ResultMap.resultExists_eq h.sound, h.get_eq], h⟩
  | reinitSlot slot =>
    simp only [ResultMap.step, CellMap.step]
    by_cases hslot : slot < slots
    · obtain ⟨m', hreinit, hresets⟩ :=
        ResultMap.reinitSlot_spec h.sound (h.slots.symm ▸ hslot)
      rw [hreinit, if_pos hslot]
      refine ⟨rfl, hresets.shape.nodeFactors.trans h.nodeFactors,
        hresets.shape.slots.trans h.slots, hresets.sound, ?_⟩
      funext c
      rw [hresets.get_eq, h.get_eq]
    · rw [ResultMap.reinitSlot, h.slots, if_neg hslot, if_neg hslot]
      trivial
  | reclaimBatch =>
    obtain ⟨hshape, hsound, hget⟩ := ResultMap.reclaimBatch_spec h.sound
    exact ⟨rfl, hshape.nodeFactors.trans h.nodeFactors, hshape.slots.trans h.slots, hsound,
      hget.trans h.get_eq⟩

/-- The cells that are not in `written` are empty. -/
def EmptyOutside (f : CellMap α) (written : List ResultCell) : Prop := ∀ c, c ∉ written → f c = none

theorem EmptyOutside.step {factors : List ℕ} {slots : ℕ} {f f' : CellMap α}
    {written : List ResultCell} {op : MapOp α} {ops : List (MapOp α)} {reply : MapReply α}
    (hempty : EmptyOutside f written) (honce : SetsOnce written (op :: ops))
    (hstep : CellMap.step factors slots f op = some (reply, f')) :
    ∃ written', EmptyOutside f' written' ∧ SetsOnce written' ops := by
  cases op with
  | set c v =>
    simp only [CellMap.step] at hstep
    split at hstep
    · simp only [Option.some.injEq, Prod.mk.injEq] at hstep
      obtain ⟨-, rfl⟩ := hstep
      refine ⟨c :: written, fun d hd => ?_, honce.2⟩
      rw [List.mem_cons, not_or] at hd
      obtain ⟨hne, hmem⟩ := hd
      rw [Function.update_of_ne hne]
      exact hempty d hmem
    · cases hstep
  | get c =>
    simp only [CellMap.step, Option.some.injEq, Prod.mk.injEq] at hstep
    obtain ⟨-, rfl⟩ := hstep
    exact ⟨written, hempty, honce⟩
  | resultExists c =>
    simp only [CellMap.step, Option.some.injEq, Prod.mk.injEq] at hstep
    obtain ⟨-, rfl⟩ := hstep
    exact ⟨written, hempty, honce⟩
  | reinitSlot slot =>
    simp only [CellMap.step] at hstep
    split at hstep
    · simp only [Option.some.injEq, Prod.mk.injEq] at hstep
      obtain ⟨-, rfl⟩ := hstep
      refine ⟨written.filter (·.slot ≠ slot), fun d hd => ?_, honce⟩
      change (if d.slot = slot then none else f d) = none
      split
      · rfl
      · next hne =>
        refine hempty d fun hmem => hd ?_
        rw [List.mem_filter]
        exact ⟨hmem, decide_eq_true hne⟩
    · cases hstep
  | reclaimBatch =>
    simp only [CellMap.step, Option.some.injEq, Prod.mk.injEq] at hstep
    obtain ⟨-, rfl⟩ := hstep
    exact ⟨written, hempty, honce⟩

/-- Both runs panic, or they reply the same and end with an array that represents the map. -/
def RunsMatch (factors : List ℕ) (slots : ℕ) :
    Option (List (MapReply α) × ResultMap α) → Option (List (MapReply α) × CellMap α) → Prop
  | none, none => True
  | some (rs, m), some (rs', f) => rs = rs' ∧ Represents factors slots m f
  | _, _ => False

theorem Represents.run {factors : List ℕ} {slots : ℕ} (ops : List (MapOp α)) {m : ResultMap α}
    {f : CellMap α} {written : List ResultCell} (h : Represents factors slots m f)
    (hempty : EmptyOutside f written) (honce : SetsOnce written ops) :
    RunsMatch factors slots (ResultMap.step.run ops m) (MapStep.run (CellMap.step factors slots) ops f) := by
  induction ops generalizing m f written with
  | nil => exact ⟨rfl, h⟩
  | cons op ops ih =>
    have hfree : ∀ c v, op = .set c v → f c = none := by
      rintro c v rfl
      exact hempty c honce.1
    have hmatch := h.step op hfree
    simp only [MapStep.run]
    cases hm : m.step op with
    | none =>
      cases hf : CellMap.step factors slots f op with
      | none => trivial
      | some q =>
        rw [hm, hf] at hmatch
        exact hmatch.elim
    | some q =>
      cases hf : CellMap.step factors slots f op with
      | none =>
        rw [hm, hf] at hmatch
        exact hmatch.elim
      | some q' =>
        rw [hm, hf] at hmatch
        obtain ⟨hreply, hrep⟩ := hmatch
        obtain ⟨written', hempty', honce'⟩ := hempty.step honce hf
        have hrest := ih hrep hempty' honce'
        obtain ⟨reply, m'⟩ := q
        obtain ⟨reply', f'⟩ := q'
        simp only [Option.bind_eq_bind, Option.bind_some]
        cases hmr : ResultMap.step.run ops m' with
        | none =>
          cases hfr : MapStep.run (CellMap.step factors slots) ops f' with
          | none => trivial
          | some z =>
            rw [hmr, hfr] at hrest
            exact hrest.elim
        | some z =>
          cases hfr : MapStep.run (CellMap.step factors slots) ops f' with
          | none =>
            rw [hmr, hfr] at hrest
            exact hrest.elim
          | some z' =>
            rw [hmr, hfr] at hrest
            exact ⟨congrArg₂ List.cons hreply hrest.1, hrest.2⟩

/-- A run answers as the map of cells does, and frees each of its boxes exactly once: none while
a cell still reads it, all of them by the time the map is dropped. -/
structure ActsAsCellMap (factors : List ℕ) (slots : ℕ) (deferred : Bool) (ops : List (MapOp α)) :
    Prop where
  replies : (ResultMap.step.run ops (ResultMap.new α factors slots deferred)).map Prod.fst =
    (MapStep.run (CellMap.step factors slots) ops fun _ => none).map Prod.fst
  inline : ∀ (v : CmTypes α) (tag : UInt8) (val : UInt64),
    v.encodeInline = some (tag, val) → CmTypes.decodeInline tag val = some v
  readable : ∀ replies m, ResultMap.step.run ops (ResultMap.new α factors slots deferred) =
    some (replies, m) → ∀ c p, m.InBounds c → m.buffer (m.flatIndex c) = some p →
      p ∉ m.freed ∧ p ∉ m.pending
  freed_once : ∀ replies m, ResultMap.step.run ops (ResultMap.new α factors slots deferred) =
    some (replies, m) → m.dropAll.Perm (List.range m.boxes.length)

/-- For every table of factors and every sequence of operations that sets a cell at most once
between two resets of its slot, the flat array is a map of cells. -/
theorem result_map_is_cell_map (factors : List ℕ) (slots : ℕ) (deferred : Bool)
    (ops : List (MapOp α)) (honce : SetsOnce [] ops) :
    ActsAsCellMap factors slots deferred ops := by
  have hrun := (represents_new (α := α) factors slots deferred).run ops (fun _ _ => rfl) honce
  have hend : ∀ replies m, ResultMap.step.run ops (ResultMap.new α factors slots deferred) =
      some (replies, m) → m.Sound := by
    intro replies m heq
    rw [heq] at hrun
    cases hf : MapStep.run (CellMap.step factors slots) ops fun _ => none with
    | none =>
      rw [hf] at hrun
      exact hrun.elim
    | some z =>
      rw [hf] at hrun
      exact hrun.2.sound
  refine ⟨?_, fun v tag val => CmTypes.decode_encodeInline, ?_, ?_⟩
  · cases hm : ResultMap.step.run ops (ResultMap.new α factors slots deferred) with
    | none =>
      cases hf : MapStep.run (CellMap.step factors slots) ops fun _ => none with
      | none => rfl
      | some z =>
        rw [hm, hf] at hrun
        exact hrun.elim
    | some z =>
      cases hf : MapStep.run (CellMap.step factors slots) ops fun _ => none with
      | none =>
        rw [hm, hf] at hrun
        exact hrun.elim
      | some z' =>
        rw [hm, hf] at hrun
        exact congrArg some hrun.1
  · intro replies m heq c p hc hp
    exact ResultMap.live_not_freed (hend replies m heq) (ResultMap.flatIndex_lt hc) hp
  · intro replies m heq
    exact ResultMap.dropAll_perm (hend replies m heq)

/-- Two frames of one slot, with a scalar and an allocation. -/
def twoFrames : List (MapOp ℕ) :=
  [.set ⟨0, 0, 0⟩ (.i32 (-1)), .set ⟨0, 1, 1⟩ (.string 7), .get ⟨0, 0, 0⟩, .reinitSlot 0,
    .resultExists ⟨0, 1, 1⟩, .set ⟨0, 1, 1⟩ (.string 8), .reclaimBatch]

theorem result_map_is_cell_map_twoFrames : ActsAsCellMap [1, 2] 2 true twoFrames :=
  result_map_is_cell_map [1, 2] 2 true twoFrames (by
    simp only [twoFrames, SetsOnce]
    decide)

end Tomii
