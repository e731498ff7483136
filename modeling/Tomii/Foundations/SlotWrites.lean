import Mathlib.Data.List.Induction
import Mathlib.Order.Basic

/-! # Writing to the slots of a list

Slots that a selection takes from a list, assignments to them, and splices. -/
namespace Tomii
set_option autoImplicit false
set_option maxHeartbeats 250000

/-! ## Selected slots -/

section Slots

variable {α β : Type*} (f : α → Option β)

/-- The slots that `f` selects, with what it selects there. -/
def slotsOf (l : List α) : List (ℕ × β) := l.zipIdx.filterMap fun p => (f p.1).map (p.2, ·)

@[simp] theorem slotsOf_nil : slotsOf f [] = [] := rfl

theorem slotsOf_concat (l : List α) (a : α) :
    slotsOf f (l ++ [a]) = slotsOf f l ++ ((f a).map (l.length, ·)).toList := by
  rw [slotsOf, List.zipIdx_append, List.filterMap_append, slotsOf]
  congr 1
  cases hf : f a <;> simp [hf]

variable {f}

theorem mem_slotsOf {l : List α} {k : ℕ} {b : β} :
    (k, b) ∈ slotsOf f l ↔ ∃ a, l[k]? = some a ∧ f a = some b := by
  unfold slotsOf
  rw [List.mem_filterMap]
  constructor
  · rintro ⟨⟨a, i⟩, hmem, hf⟩
    obtain ⟨b', hb', heq⟩ := Option.map_eq_some_iff.mp hf
    obtain ⟨rfl, rfl⟩ := Prod.mk.inj heq
    exact ⟨a, List.mk_mem_zipIdx_iff_getElem?.mp hmem, hb'⟩
  · rintro ⟨a, ha, hf⟩
    refine ⟨(a, k), List.mk_mem_zipIdx_iff_getElem?.mpr ha, ?_⟩
    rw [hf]
    rfl

theorem lt_of_mem_slotsOf {l : List α} {w : ℕ × β} (h : w ∈ slotsOf f l) : w.1 < l.length := by
  obtain ⟨a, ha, -⟩ := mem_slotsOf.mp h
  exact (List.getElem?_eq_some_iff.mp ha).1

/-- Slots come in order. -/
theorem slotsOf_pairwise (l : List α) : (slotsOf f l).Pairwise fun v w => v.1 < w.1 := by
  induction l using List.reverseRecOn with
  | nil => exact List.Pairwise.nil
  | append_singleton l a ih =>
    rw [slotsOf_concat, List.pairwise_append]
    refine ⟨ih, ?_, fun v hv w hw => ?_⟩
    · cases f a with
      | none => exact List.Pairwise.nil
      | some b => exact List.pairwise_singleton _ _
    · obtain ⟨b, -, rfl⟩ := Option.map_eq_some_iff.mp (Option.mem_toList.mp hw)
      exact lt_of_mem_slotsOf hv

theorem slotsOf_keys_nodup (l : List α) : ((slotsOf f l).map Prod.fst).Nodup :=
  List.pairwise_map.mpr ((slotsOf_pairwise l).imp fun h => Nat.ne_of_lt h)

theorem mem_slotsOf_keys {l : List α} {k : ℕ} {a : α} (ha : l[k]? = some a) :
    k ∈ (slotsOf f l).map Prod.fst ↔ (f a).isSome = true := by
  rw [List.mem_map, Option.isSome_iff_exists]
  constructor
  · rintro ⟨⟨i, b⟩, hmem, rfl⟩
    obtain ⟨a', ha', hf⟩ := mem_slotsOf.mp hmem
    rw [ha, Option.some.injEq] at ha'
    exact ⟨b, ha' ▸ hf⟩
  · rintro ⟨b, hf⟩
    exact ⟨(k, b), mem_slotsOf.mpr ⟨a, ha, hf⟩, rfl⟩

theorem lt_of_mem_slotsOf_keys {l : List α} {k : ℕ} (h : k ∈ (slotsOf f l).map Prod.fst) :
    k < l.length := by
  obtain ⟨w, hw, rfl⟩ := List.mem_map.mp h
  exact lt_of_mem_slotsOf hw

theorem slotsOf_map_snd (l : List α) : (slotsOf f l).map Prod.snd = l.filterMap f := by
  induction l using List.reverseRecOn with
  | nil => rfl
  | append_singleton l a ih =>
    rw [slotsOf_concat, List.map_append, ih, List.filterMap_append]
    congr 1
    cases hf : f a <;> simp [hf]

theorem zip_slots (ws : List (ℕ × β)) : (ws.map Prod.fst).zip (ws.map Prod.snd) = ws := by
  have h := List.zip_unzip ws
  rwa [List.unzip_eq_map] at h

/-- The slots do not depend on what is selected there. -/
theorem slotsOf_map_fst_congr {δ : Type*} {g : α → Option δ} {l : List α}
    (h : ∀ a ∈ l, (f a).isSome = (g a).isSome) :
    (slotsOf f l).map Prod.fst = (slotsOf g l).map Prod.fst := by
  induction l using List.reverseRecOn with
  | nil => rfl
  | append_singleton l a ih =>
    have hlast := h a (by simp)
    rw [slotsOf_concat, slotsOf_concat, List.map_append, List.map_append,
      ih fun b hb => h b (by simp [hb])]
    congr 1
    cases hf : f a <;> cases hg : g a <;> simp_all

/-- A selected slot comes after those that the entries before it have. -/
theorem getElem?_slotsOf {l : List α} {k : ℕ} {a : α} {b : β} (ha : l[k]? = some a)
    (hf : f a = some b) : (slotsOf f l)[(slotsOf f (l.take k)).length]? = some (k, b) := by
  induction l using List.reverseRecOn with
  | nil => cases ha
  | append_singleton l c ih =>
    rw [slotsOf_concat]
    by_cases hk : k < l.length
    · rw [List.getElem?_append_left hk] at ha
      have hrow := ih ha
      rw [List.take_append_of_le_length (Nat.le_of_lt hk),
        List.getElem?_append_left (List.getElem?_eq_some_iff.mp hrow).1, hrow]
    · obtain ⟨hlt, hget⟩ := List.getElem?_eq_some_iff.mp ha
      have hlast : k = l.length := by
        rw [List.length_append, List.length_singleton] at hlt
        omega
      subst hlast
      rw [List.getElem_concat_length rfl] at hget
      subst hget
      rw [List.take_left' rfl, List.getElem?_append_right (Nat.le_refl _), Nat.sub_self, hf]
      rfl

end Slots

/-! ## Assignments and splices -/

section Writes

variable {β γ : Type*}

/-- One assignment after the other. -/
def setAll (buf : List β) (ws : List (ℕ × β)) : List β :=
  ws.foldl (fun b w => b.set w.1 w.2) buf

@[simp] theorem setAll_nil (buf : List β) : setAll buf [] = buf := rfl

@[simp] theorem setAll_cons (buf : List β) (w : ℕ × β) (ws : List (ℕ × β)) :
    setAll buf (w :: ws) = setAll (buf.set w.1 w.2) ws := rfl

@[simp] theorem length_setAll (buf : List β) (ws : List (ℕ × β)) :
    (setAll buf ws).length = buf.length := by
  induction ws generalizing buf with
  | nil => rfl
  | cons w ws ih => rw [setAll_cons, ih, List.length_set]

theorem getElem?_setAll_of_not_mem {buf : List β} {ws : List (ℕ × β)} {k : ℕ}
    (h : ∀ w ∈ ws, w.1 ≠ k) : (setAll buf ws)[k]? = buf[k]? := by
  induction ws generalizing buf with
  | nil => rfl
  | cons w ws ih =>
    rw [List.forall_mem_cons] at h
    rw [setAll_cons, ih h.2, List.getElem?_set_ne h.1]

theorem getElem?_setAll_of_mem {buf : List β} {ws : List (ℕ × β)} {k : ℕ} {v : β}
    (hnodup : (ws.map Prod.fst).Nodup) (hmem : (k, v) ∈ ws) (hk : k < buf.length) :
    (setAll buf ws)[k]? = some v := by
  induction ws generalizing buf with
  | nil => cases hmem
  | cons w ws ih =>
    obtain ⟨hhead, htail⟩ := List.nodup_cons.mp hnodup
    rw [setAll_cons]
    rcases List.mem_cons.mp hmem with rfl | hmem
    · have hlater : ∀ w ∈ ws, w.1 ≠ k := by
        rintro w hw rfl
        exact hhead (List.mem_map.mpr ⟨w, hw, rfl⟩)
      rw [getElem?_setAll_of_not_mem hlater, List.getElem?_set_self hk]
    · exact ih htail hmem (by rwa [List.length_set])

/-- The same value in several slots. -/
theorem getElem?_setAll_const {buf : List β} {ks : List ℕ} {k : ℕ} (hk : k < buf.length) (v : β) :
    (setAll buf (ks.map (·, v)))[k]? = if k ∈ ks then some v else buf[k]? := by
  induction ks generalizing buf with
  | nil => rfl
  | cons i ks ih =>
    rw [List.map_cons, setAll_cons, ih (by rwa [List.length_set])]
    by_cases hmem : k ∈ ks
    · rw [if_pos hmem, if_pos (List.mem_cons_of_mem _ hmem)]
    · rw [if_neg hmem]
      by_cases hki : k = i
      · subst hki
        rw [List.getElem?_set_self hk, if_pos List.mem_cons_self]
      · rw [List.getElem?_set_ne (Ne.symm hki), if_neg fun h => (List.mem_cons.mp h).elim hki hmem]

/-- Two values, pair by pair, in the slots of two lists without a common slot. -/
theorem getElem?_setPairs {buf : List β} {is js : List ℕ} (hlen : is.length = js.length) {k : ℕ}
    (hk : k < buf.length) (hdisj : k ∈ js → k ∉ is) (v w : β) :
    ((is.zip js).foldl (fun b p => (b.set p.1 v).set p.2 w) buf)[k]? =
      if k ∈ js then some w else if k ∈ is then some v else buf[k]? := by
  induction is generalizing buf js with
  | nil =>
    obtain rfl := List.eq_nil_of_length_eq_zero hlen.symm
    rfl
  | cons i is ih =>
    cases js with
    | nil => cases hlen
    | cons j js =>
      rw [List.zip_cons_cons, List.foldl_cons, ih (Nat.succ.inj hlen)
        (by rwa [List.length_set, List.length_set]) fun hj hi =>
          hdisj (List.mem_cons_of_mem _ hj) (List.mem_cons_of_mem _ hi)]
      by_cases hjs : k ∈ js
      · rw [if_pos hjs, if_pos (List.mem_cons_of_mem _ hjs)]
      · by_cases hkj : k = j
        · subst hkj
          have his : k ∉ is := fun h => hdisj List.mem_cons_self (List.mem_cons_of_mem _ h)
          rw [if_neg hjs, if_neg his, if_pos List.mem_cons_self,
            List.getElem?_set_self (by rwa [List.length_set])]
        · rw [if_neg hjs, if_neg fun h => (List.mem_cons.mp h).elim hkj hjs,
            List.getElem?_set_ne (Ne.symm hkj)]
          by_cases his : k ∈ is
          · rw [if_pos his, if_pos (List.mem_cons_of_mem _ his)]
          · rw [if_neg his]
            by_cases hki : k = i
            · subst hki
              rw [List.getElem?_set_self hk, if_pos List.mem_cons_self]
            · rw [List.getElem?_set_ne (Ne.symm hki),
                if_neg fun h => (List.mem_cons.mp h).elim hki his]

@[simp] theorem length_setPairs (buf : List β) (ps : List (ℕ × ℕ)) (v w : β) :
    (ps.foldl (fun b p => (b.set p.1 v).set p.2 w) buf).length = buf.length := by
  induction ps generalizing buf with
  | nil => rfl
  | cons p ps ih => rw [List.foldl_cons, ih, List.length_set, List.length_set]

/-- `Vec::splice(i..i + 1, vs)` -/
def splice (buf : List β) (i : ℕ) (vs : List β) : List β := buf.take i ++ vs ++ buf.drop (i + 1)

theorem splice_singleton {buf : List β} {i : ℕ} (hi : i < buf.length) (v : β) :
    splice buf i [v] = buf.set i v := by
  rw [List.set_eq_take_append_cons_drop, if_pos hi, splice, List.append_assoc,
    List.singleton_append]

theorem map_splice (f : β → γ) (buf : List β) (i : ℕ) (vs : List β) :
    (splice buf i vs).map f = splice (buf.map f) i (vs.map f) := by
  simp [splice, List.map_take, List.map_drop]

/-- Assignments keep lists the same up to `f`. -/
theorem map_setAll_congr {f : β → γ} {xs ys : List β} (h : xs.map f = ys.map f)
    (ws : List (ℕ × β)) : (setAll xs ws).map f = (setAll ys ws).map f := by
  induction ws generalizing xs ys with
  | nil => exact h
  | cons w ws ih =>
    refine ih ?_
    rw [List.map_set, List.map_set, h]

theorem map_setPairs_congr {f : β → γ} {xs ys : List β} (h : xs.map f = ys.map f)
    (ps : List (ℕ × ℕ)) (v w : β) :
    (ps.foldl (fun b p => (b.set p.1 v).set p.2 w) xs).map f =
      (ps.foldl (fun b p => (b.set p.1 v).set p.2 w) ys).map f := by
  induction ps generalizing xs ys with
  | nil => exact h
  | cons p ps ih =>
    refine ih ?_
    simp only [List.map_set, h]

theorem length_splice {buf : List β} {i : ℕ} (hi : i < buf.length) (vs : List β) :
    (splice buf i vs).length + 1 = buf.length + vs.length := by
  simp only [splice, List.length_append, List.length_take, List.length_drop]
  omega

theorem getElem?_splice_of_lt {buf : List β} {i k : ℕ} (hk : k < i) (hi : i ≤ buf.length)
    (vs : List β) : (splice buf i vs)[k]? = buf[k]? := by
  rw [splice, List.append_assoc, List.getElem?_append_left (by rw [List.length_take]; omega),
    List.getElem?_take_of_lt hk]

theorem prefix_drop_splice {buf : List β} {i : ℕ} (hi : i ≤ buf.length) (vs : List β) :
    vs <+: (splice buf i vs).drop i := by
  have hlen : (buf.take i).length = i := by rw [List.length_take, Nat.min_eq_left hi]
  have hdrop : (splice buf i vs).drop i = vs ++ buf.drop (i + 1) := by
    rw [splice, List.append_assoc, List.drop_left' hlen]
  rw [hdrop]
  exact List.prefix_append _ _

/-- What a splice leaves at each place: its values, and behind them the old ones, moved. -/
theorem getElem?_splice {buf : List β} {i : ℕ} (hi : i < buf.length) (vs : List β) (k : ℕ) :
    (splice buf i vs)[k]? = if k < i then buf[k]?
      else if k < i + vs.length then vs[k - i]? else buf[k + 1 - vs.length]? := by
  have htake : (buf.take i).length = i := by
    rw [List.length_take]
    omega
  by_cases hlow : k < i
  · rw [if_pos hlow, getElem?_splice_of_lt hlow (by omega)]
  · rw [if_neg hlow, splice, List.append_assoc, List.getElem?_append_right (by omega), htake]
    by_cases hmid : k < i + vs.length
    · rw [if_pos hmid, List.getElem?_append_left (by omega)]
    · rw [if_neg hmid, List.getElem?_append_right (by omega), List.getElem?_drop]
      congr 1
      omega

/-! ## The value at a place after many splices -/

/-- The value at a place after splices, the last one first: that of the last splice that covers
the place. A splice in front of the place has moved it. -/
def standing (before : ℕ → Option β) : List (ℕ × List β) → ℕ → Option β
  | [], k => before k
  | (i, vs) :: earlier, k =>
    if k < i then standing before earlier k
    else if k < i + vs.length then vs[k - i]?
    else standing before earlier (k + 1 - vs.length)

theorem standing_append (before : ℕ → Option β) (later earlier : List (ℕ × List β)) (k : ℕ) :
    standing before (later ++ earlier) k = standing (standing before earlier) later k := by
  induction later generalizing k with
  | nil => rfl
  | cons w later ih => simp only [List.cons_append, standing, ih]

/-- In front of all splices nothing changes. -/
theorem standing_of_lt {before : ℕ → Option β} {ws : List (ℕ × List β)} {k : ℕ}
    (h : ∀ w ∈ ws, k < w.1) : standing before ws k = before k := by
  induction ws with
  | nil => rfl
  | cons w ws ih =>
    rw [List.forall_mem_cons] at h
    rw [standing, if_pos h.1, ih h.2]

end Writes

end Tomii
