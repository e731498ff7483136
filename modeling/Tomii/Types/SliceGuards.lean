import Tomii.Types.SlicedContainer
import Mathlib.Algebra.Order.Group.Multiset
import Mathlib.Data.Multiset.Bind
import Mathlib.Tactic.Abel

/-! # Live guards are exclusive

A thread in the middle of an acquisition or a release holds bits that belong to no live guard. Write
bits have one holder each. Read bits may have several, and the word does not say how many. -/
namespace Tomii.Types
set_option autoImplicit false
set_option maxHeartbeats 250000

/-! ## What a thread holds -/

/-- The elements whose bits a thread holds apart from the live guards. -/
abbrev Held : Type := Access → Multiset ℕ

namespace Held

def idle : Held := fun _ => 0

variable (l : Held)

def take (bits : Access) (elements : List ℕ) : Held :=
  Function.update l bits (elements + l bits)

def give (bits : Access) (elements : List ℕ) : Held :=
  Function.update l bits (l bits - elements)

end Held

/-- A thread marks write bits it has seen clear, and gives up only what it holds. -/
def sliceDiscipline : Discipline sliceSteps Held where
  fails _ := True
  permits l
    | .casWrite _ current mask => current &&& mask = 0
    | .clear bits chunkIdx mask => (maskElements chunkIdx mask : Multiset ℕ) ≤ l bits
    | .handOut g => (g.elements : Multiset ℕ) ≤ l g.access
    | _ => True
  knows _ _ _ := True
  next l
    | .casWrite chunkIdx _ mask, none => l.take .write (maskElements chunkIdx mask)
    | .orRead chunkIdx mask, _ => l.take .read (maskElements chunkIdx mask)
    | .clear bits chunkIdx mask, _ => l.give bits (maskElements chunkIdx mask)
    | .handOut g, _ => l.give g.access g.elements
    | .takeBack, some g => l.take g.access g.elements
    | _, _ => l

/-! ## The programs keep to it -/

/-- The elements of acquired masks. -/
def acquiredElements (acquired : List (ℕ × UInt64)) : Multiset ℕ :=
  (acquired.flatMap fun p => maskElements p.1 p.2 : List ℕ)

@[simp] theorem acquiredElements_nil : acquiredElements [] = 0 := rfl

@[simp] theorem acquiredElements_cons (p : ℕ × UInt64) (acquired : List (ℕ × UInt64)) :
    acquiredElements (p :: acquired) = maskElements p.1 p.2 + acquiredElements acquired := rfl

theorem acquiredElements_concat (acquired : List (ℕ × UInt64)) (p : ℕ × UInt64) :
    acquiredElements (acquired ++ [p]) = maskElements p.1 p.2 + acquiredElements acquired := by
  rw [acquiredElements, List.flatMap_append, ← Multiset.coe_add, add_comm]
  simp [acquiredElements]

/-- The elements of a range in the chunks of a list. -/
def rangeElements (start rangeEnd : ℕ) (chunks : List ℕ) : Multiset ℕ :=
  (chunks.flatMap fun chunkIdx => maskElements chunkIdx (maskForChunk start rangeEnd chunkIdx) :
    List ℕ)

@[simp] theorem rangeElements_nil (start rangeEnd : ℕ) : rangeElements start rangeEnd [] = 0 := rfl

@[simp] theorem rangeElements_cons (start rangeEnd chunkIdx : ℕ) (chunks : List ℕ) :
    rangeElements start rangeEnd (chunkIdx :: chunks) =
      maskElements chunkIdx (maskForChunk start rangeEnd chunkIdx) +
        rangeElements start rangeEnd chunks := rfl

theorem rangeElements_chunksOf {start len : ℕ} (h : 0 < len) :
    rangeElements start (start + len) (chunksOf start (start + len)) = List.range' start len :=
  Multiset.coe_eq_coe.mpr (chunkElements_perm h)

theorem maskElements_zero (chunkIdx : ℕ) : maskElements chunkIdx 0 = [] := by
  simp [maskElements, wordElements]

theorem Container.rangeEnd_eq {totalLength start len stop : ℕ}
    (h : Container.rangeEnd totalLength start len = some stop) : stop = start + len := by
  unfold Container.rangeEnd at h
  split at h
  · cases h
  · split at h
    · exact (Option.some.inj h).symm
    · cases h

section Programs

variable {l : Held}

theorem Held.give_eq {bits : Access} {elements : List ℕ} {keep : Multiset ℕ}
    (h : l bits = elements + keep) : (l.give bits elements) bits = keep := by
  rw [Held.give, Function.update_self, h, add_tsub_cancel_left]

theorem rollback_obeys {bits : Access} {acquired : List (ℕ × UInt64)} (keep : Multiset ℕ)
    (h : l bits = acquiredElements acquired + keep) :
    (rollback bits acquired).Obeys sliceDiscipline (fun _ _ => True) l := by
  induction acquired generalizing l with
  | nil => trivial
  | cons p rest ih =>
    rw [acquiredElements_cons, add_assoc] at h
    exact ⟨(Multiset.le_add_right _ _).trans h.ge, fun _ _ => ih (Held.give_eq h)⟩

theorem clearRange_obeys {bits : Access} {start rangeEnd : ℕ} {chunks : List ℕ}
    (keep : Multiset ℕ) (h : l bits = rangeElements start rangeEnd chunks + keep) :
    (clearRange bits start rangeEnd chunks).Obeys sliceDiscipline (fun _ _ => True) l := by
  induction chunks generalizing l with
  | nil => trivial
  | cons chunkIdx rest ih =>
    rw [rangeElements_cons, add_assoc] at h
    simp only [clearRange]
    split
    · exact ⟨(Multiset.le_add_right _ _).trans h.ge, fun _ _ => ih (Held.give_eq h)⟩
    · next hmask =>
      simp only [ne_eq, not_not] at hmask
      rw [hmask, maskElements_zero, Multiset.coe_nil, zero_add] at h
      exact ih h

/-- A loop that stops early gives back what it has acquired. -/
theorem refused_obeys {bits : Access} {acquired : List (ℕ × UInt64)} {post : Bool → Held → Prop}
    (h : l bits = acquiredElements acquired) (hpost : ∀ l', post false l') :
    (rollback bits acquired >>= fun _ => pure false).Obeys sliceDiscipline post l :=
  (rollback_obeys 0 (by rw [h, add_zero])).bind fun _ _ _ => hpost _

/-- The loop adds the mask exactly when it answers that it did. -/
theorem markChunk_obeys (chunkIdx : ℕ) (mask : UInt64) (attempts : ℕ) (current : UInt64) :
    (markChunk chunkIdx mask attempts current).Obeys sliceDiscipline (fun marked l' =>
      l' = if marked then l.take .write (maskElements chunkIdx mask) else l) l := by
  induction attempts generalizing current with
  | zero => trivial
  | succ attempts ih =>
    unfold markChunk
    split
    · rfl
    · next hclear =>
      refine ⟨not_not.mp hclear, fun r _ => ?_⟩
      cases r with
      | none => rfl
      | some actual => exact ih actual

/-- What a loop over the chunks of a range has acquired when it answers `true`. -/
def Acquires (bits : Access) (start rangeEnd : ℕ) (chunks : List ℕ) (acquired : List (ℕ × UInt64))
    (marked : Bool) (l : Held) : Prop :=
  marked = true → l bits = rangeElements start rangeEnd chunks + acquiredElements acquired

theorem Acquires.skip {bits : Access} {start rangeEnd chunkIdx : ℕ} {rest : List ℕ}
    {acquired : List (ℕ × UInt64)} {marked : Bool}
    (hmask : maskForChunk start rangeEnd chunkIdx = 0)
    (h : Acquires bits start rangeEnd rest acquired marked l) :
    Acquires bits start rangeEnd (chunkIdx :: rest) acquired marked l := fun hmarked => by
  rw [h hmarked, rangeElements_cons, hmask, maskElements_zero, Multiset.coe_nil, zero_add]

theorem Acquires.cons {bits : Access} {start rangeEnd chunkIdx : ℕ} {rest : List ℕ}
    {acquired : List (ℕ × UInt64)} {marked : Bool}
    (h : Acquires bits start rangeEnd rest
      (acquired ++ [(chunkIdx, maskForChunk start rangeEnd chunkIdx)]) marked l) :
    Acquires bits start rangeEnd (chunkIdx :: rest) acquired marked l := fun hmarked => by
  rw [h hmarked, rangeElements_cons, acquiredElements_concat]
  exact (add_left_comm ..).trans (add_assoc ..).symm

theorem Held.take_eq {bits : Access} {acquired : List (ℕ × UInt64)} {chunkIdx : ℕ} {mask : UInt64}
    (h : l bits = acquiredElements acquired) :
    (l.take bits (maskElements chunkIdx mask)) bits =
      acquiredElements (acquired ++ [(chunkIdx, mask)]) := by
  rw [Held.take, Function.update_self, h, acquiredElements_concat]

theorem markWrites_obeys {attempts start rangeEnd : ℕ} {chunks : List ℕ}
    {acquired : List (ℕ × UInt64)} (h : l .write = acquiredElements acquired) :
    (markWrites attempts start rangeEnd chunks acquired).Obeys sliceDiscipline
      (Acquires .write start rangeEnd chunks acquired) l := by
  induction chunks generalizing l acquired with
  | nil => exact fun _ => by rw [h, rangeElements_nil, zero_add]
  | cons chunkIdx rest ih =>
    simp only [markWrites]
    split
    · next hmask => exact (ih h).mono fun _ _ => Acquires.skip hmask
    · refine Prog.Obeys.call_bind trivial fun readers _ => ?_
      split
      · exact refused_obeys h fun _ hmarked => nomatch hmarked
      · refine Prog.Obeys.call_bind trivial fun current _ => ?_
        refine (markChunk_obeys _ _ _ current).bind fun marked l' hl' => ?_
        cases marked with
        | false =>
          obtain rfl : l' = _ := hl'
          exact refused_obeys h fun _ hmarked => nomatch hmarked
        | true =>
          obtain rfl : l' = _ := hl'
          exact (ih (Held.take_eq h)).mono fun _ _ => Acquires.cons

theorem acquireReadRange_obeys {start rangeEnd : ℕ} {chunks : List ℕ}
    {acquired : List (ℕ × UInt64)} (h : l .read = acquiredElements acquired) :
    (acquireReadRange start rangeEnd chunks acquired).Obeys sliceDiscipline
      (Acquires .read start rangeEnd chunks acquired) l := by
  induction chunks generalizing l acquired with
  | nil => exact fun _ => by rw [h, rangeElements_nil, zero_add]
  | cons chunkIdx rest ih =>
    simp only [acquireReadRange]
    split
    · next hmask => exact (ih h).mono fun _ _ => Acquires.skip hmask
    · refine Prog.Obeys.call_bind trivial fun writers _ => ?_
      split
      · exact refused_obeys h fun _ hmarked => nomatch hmarked
      · exact Prog.Obeys.call_bind trivial fun _ _ =>
          (ih (Held.take_eq h)).mono fun _ _ => Acquires.cons

/-- A guard is handed out by a thread that holds all its bits. -/
theorem handOut_obeys {bits : Access} {start len : ℕ} (hlen : len ≠ 0) {marked : Bool}
    (h : Acquires bits start (start + len) (chunksOf start (start + len)) [] marked l) :
    Prog.Obeys sliceDiscipline
      (if marked then sliceStep (.handOut ⟨bits, start, len⟩) else pure ())
      (fun _ _ => True) l := by
  cases marked with
  | false => trivial
  | true =>
    have hall := h rfl
    rw [rangeElements_chunksOf (Nat.pos_of_ne_zero hlen), acquiredElements_nil, add_zero] at hall
    exact ⟨hall.ge, fun _ _ => trivial⟩

theorem slicedDataMut_obeys (attempts start len : ℕ) :
    (slicedDataMut attempts start len).Obeys sliceDiscipline (fun _ _ => True) .idle := by
  refine Prog.Obeys.call_bind trivial fun total _ => ?_
  cases hend : Container.rangeEnd total start len with
  | none => trivial
  | some rangeEnd =>
    obtain rfl := Container.rangeEnd_eq hend
    dsimp only
    split
    · exact ⟨Multiset.zero_le _, fun _ _ => trivial⟩
    · next hlen => exact (markWrites_obeys rfl).bind fun _ _ => handOut_obeys hlen

theorem slicedGetRange_obeys (start len : ℕ) :
    (slicedGetRange start len).Obeys sliceDiscipline (fun _ _ => True) .idle := by
  refine Prog.Obeys.call_bind trivial fun total _ => ?_
  cases hend : Container.rangeEnd total start len with
  | none => trivial
  | some rangeEnd =>
    obtain rfl := Container.rangeEnd_eq hend
    dsimp only
    split
    · exact ⟨Multiset.zero_le _, fun _ _ => trivial⟩
    · next hlen => exact (acquireReadRange_obeys rfl).bind fun _ _ => handOut_obeys hlen

theorem releaseBits_obeys {bits : Access} {start len : ℕ} (h : l bits = List.range' start len) :
    (releaseBits bits start len).Obeys sliceDiscipline (fun _ _ => True) l := by
  refine Prog.Obeys.call_bind trivial fun total _ => ?_
  cases hend : Container.rangeEnd total start len with
  | none => trivial
  | some rangeEnd =>
    obtain rfl := Container.rangeEnd_eq hend
    dsimp only
    split
    · trivial
    · next hlen =>
      refine clearRange_obeys 0 ?_
      rw [rangeElements_chunksOf (Nat.pos_of_ne_zero hlen), add_zero]
      exact h

theorem dropGuard_obeys : dropGuard.Obeys sliceDiscipline (fun _ _ => True) .idle := by
  refine Prog.Obeys.call_bind trivial fun dropped _ => ?_
  cases dropped with
  | none => trivial
  | some g =>
    have htake : (Held.idle.take g.access g.elements) g.access = g.elements := by
      rw [Held.take, Function.update_self]
      exact add_zero _
    obtain ⟨access, start, len⟩ := g
    cases access with
    | write => exact releaseBits_obeys htake
    | read => exact releaseBits_obeys htake

end Programs

theorem sliceJob_obeys (job : SliceJob) :
    (sliceMachine.program job).Obeys sliceDiscipline (fun _ _ => True) .idle := by
  cases job with
  | acquireMut attempts start len => exact slicedDataMut_obeys attempts start len
  | acquireRead start len => exact slicedGetRange_obeys start len
  | drop => exact dropGuard_obeys

/-! ## The invariant -/

/-- The elements that live guards of one kind cover. -/
def covered (bits : Access) (live : List Guard) : Multiset ℕ :=
  ((live.filter (·.access = bits)).flatMap Guard.elements : List ℕ)

/-- The elements whose bits of one kind somebody holds. -/
def holders (bits : Access) (σ : Container) (ls : List Held) : Multiset ℕ :=
  (ls.map (· bits)).sum + covered bits σ.live

def Marked (bits : Access) (σ : Container) (e : ℕ) : Prop :=
  wordHas (σ.chunks bits (e / 64)) (e % 64) = true

structure SliceInv (σ : Container) (ls : List Held) : Prop where
  marked : ∀ bits, ∀ e ∈ holders bits σ ls, Marked bits σ e
  nodup : (holders .write σ ls).Nodup
  counted : holders .read σ ls ≤ σ.reading
  apart : Disjoint (holders .write σ ls) (holders .read σ ls)

/-- Nobody marks an element of the mask between the check and the mark of an acquisition, and no
release clears a read bit that another reader has set too. -/
def Undisturbed (σ : Container) (_ : ℕ) : SliceAct → Prop
  | .casWrite chunkIdx current mask =>
    σ.chunks .write chunkIdx = current → σ.chunks .read chunkIdx &&& mask = 0
  | .orRead chunkIdx mask => σ.chunks .write chunkIdx &&& mask = 0
  | .clear .read chunkIdx mask => ∀ e ∈ maskElements chunkIdx mask, σ.reading.count e ≤ 1
  | _ => True

instance (σ : Container) (choice : ℕ) (a : SliceAct) : Decidable (Undisturbed σ choice a) := by
  cases a with
  | casWrite chunkIdx current mask =>
    exact inferInstanceAs (Decidable (σ.chunks .write chunkIdx = current →
      σ.chunks .read chunkIdx &&& mask = 0))
  | orRead chunkIdx mask =>
    exact inferInstanceAs (Decidable (σ.chunks .write chunkIdx &&& mask = 0))
  | clear bits chunkIdx mask =>
    cases bits with
    | read =>
      exact inferInstanceAs (Decidable (∀ e ∈ maskElements chunkIdx mask, σ.reading.count e ≤ 1))
    | write => exact .isTrue trivial
  | _ => exact .isTrue trivial

section Holders

variable {σ σ' : Container} {pre post : List Held} {l l' : Held} {bits : Access}

@[simp] theorem covered_nil (bits : Access) : covered bits [] = 0 := rfl

theorem covered_cons (bits : Access) (g : Guard) (live : List Guard) :
    covered bits (g :: live) =
      (if g.access = bits then (g.elements : Multiset ℕ) else 0) + covered bits live := by
  by_cases h : g.access = bits
  · simp [covered, h]
  · simp [covered, h]

theorem covered_eraseIdx {live : List Guard} {i : ℕ} {g : Guard} (h : live[i]? = some g)
    (bits : Access) : covered bits live =
      (if g.access = bits then (g.elements : Multiset ℕ) else 0) + covered bits (live.eraseIdx i) := by
  induction live generalizing i with
  | nil => simp at h
  | cons g' live ih =>
    cases i with
    | zero =>
      obtain rfl : g' = g := by simpa using h
      exact covered_cons bits g' live
    | succ i =>
      rw [List.eraseIdx_cons_succ, covered_cons, covered_cons, ih (by simpa using h), add_left_comm]

theorem holders_split (bits : Access) (σ : Container) (pre post : List Held) (l : Held) :
    holders bits σ (pre ++ l :: post) = l bits + holders bits σ (pre ++ post) := by
  simp only [holders, List.map_append, List.map_cons, List.sum_append, List.sum_cons]
  abel

/-- Only the thread's own share changes. -/
theorem holders_take {elements : List ℕ} (hlive : σ'.live = σ.live) :
    holders bits σ' (pre ++ (l.take bits elements) :: post) =
      elements + holders bits σ (pre ++ l :: post) := by
  rw [holders_split, holders_split, Held.take, Function.update_self, add_assoc]
  simp only [holders, hlive]

theorem holders_take_ne {other : Access} {elements : List ℕ} (h : bits ≠ other)
    (hlive : σ'.live = σ.live) :
    holders bits σ' (pre ++ (l.take other elements) :: post) =
      holders bits σ (pre ++ l :: post) := by
  rw [holders_split, holders_split, Held.take, Function.update_of_ne h]
  simp only [holders, hlive]

theorem holders_give {elements : List ℕ} (hlive : σ'.live = σ.live)
    (hle : (elements : Multiset ℕ) ≤ l bits) :
    elements + holders bits σ' (pre ++ (l.give bits elements) :: post) =
      holders bits σ (pre ++ l :: post) := by
  rw [holders_split, holders_split, Held.give, Function.update_self, ← add_assoc,
    add_tsub_cancel_of_le hle]
  simp only [holders, hlive]

theorem holders_give_ne {other : Access} {elements : List ℕ} (h : bits ≠ other)
    (hlive : σ'.live = σ.live) :
    holders bits σ' (pre ++ (l.give other elements) :: post) =
      holders bits σ (pre ++ l :: post) := by
  rw [holders_split, holders_split, Held.give, Function.update_of_ne h]
  simp only [holders, hlive]

end Holders

/-! ## Words -/

section Words

variable {σ : Container} {bits other : Access} {chunkIdx e : ℕ} {word mask : UInt64}

theorem marked_setWord : Marked bits (σ.setWord other chunkIdx word) e ↔
    if bits = other ∧ e / 64 = chunkIdx then wordHas word (e % 64) = true else Marked bits σ e := by
  unfold Marked Container.setWord
  by_cases hbits : bits = other
  · subst hbits
    by_cases hchunk : e / 64 = chunkIdx
    · subst hchunk
      simp
    · simp [hchunk]
  · simp [hbits]

/-- Setting the bits of a mask. -/
theorem marked_or : Marked bits (σ.setWord bits chunkIdx (σ.chunks bits chunkIdx ||| mask)) e ↔
    Marked bits σ e ∨ e ∈ maskElements chunkIdx mask := by
  rw [marked_setWord, mem_maskElements]
  by_cases hchunk : e / 64 = chunkIdx
  · subst hchunk
    simp only [and_self, if_true, true_and, wordHas_or (Nat.mod_lt e (by omega)), Bool.or_eq_true]
    rfl
  · simp [hchunk]

/-- Clearing the bits of a mask. -/
theorem marked_clear :
    Marked bits (σ.setWord bits chunkIdx (σ.chunks bits chunkIdx &&& ~~~ mask)) e ↔
      Marked bits σ e ∧ e ∉ maskElements chunkIdx mask := by
  rw [marked_setWord, mem_maskElements]
  by_cases hchunk : e / 64 = chunkIdx
  · subst hchunk
    simp only [and_self, if_true, true_and, wordHas_and_not (Nat.mod_lt e (by omega)),
      Bool.and_eq_true, Bool.not_eq_true', Bool.not_eq_true]
    rfl
  · simp [hchunk]

theorem marked_other (h : bits ≠ other) :
    Marked bits (σ.setWord other chunkIdx word) e ↔ Marked bits σ e := by
  rw [marked_setWord, if_neg fun hboth => h hboth.1]

/-- No element of a mask is marked where the word and the mask have no bit in common. -/
theorem not_marked_of_and (h : σ.chunks bits chunkIdx &&& mask = 0)
    (he : e ∈ maskElements chunkIdx mask) : ¬ Marked bits σ e := by
  obtain ⟨rfl, hmask⟩ := mem_maskElements.mp he
  intro hmarked
  have hclear := (word_and_eq_zero _ _).mp h _ (Nat.mod_lt e (by omega)) hmarked
  rw [hmask] at hclear
  cases hclear

end Words

/-! ## Steps keep the invariant -/

section Steps

variable {σ σ' : Container} {pre post : List Held} {l : Held} {bits : Access} {chunkIdx : ℕ}
  {mask current : UInt64} {g : Guard}

theorem SliceInv.congr {ls ls' : List Held} (h : SliceInv σ ls) (hchunks : σ'.chunks = σ.chunks)
    (hreading : σ'.reading = σ.reading) (hheld : ∀ bits, holders bits σ' ls' = holders bits σ ls) :
    SliceInv σ' ls' where
  marked := fun bits e he => by
    rw [hheld] at he
    simpa only [Marked, hchunks] using h.marked bits e he
  nodup := hheld .write ▸ h.nodup
  counted := by rw [hheld, hreading]; exact h.counted
  apart := by rw [hheld, hheld]; exact h.apart

/-- No element of the mask is held where the word has none of its bits. -/
theorem SliceInv.free {ls : List Held} (h : SliceInv σ ls)
    (hclear : σ.chunks bits chunkIdx &&& mask = 0) :
    Disjoint (maskElements chunkIdx mask : Multiset ℕ) (holders bits σ ls) :=
  Multiset.disjoint_left.mpr fun {_} he hheld =>
    not_marked_of_and hclear (Multiset.mem_coe.mp he) (h.marked bits _ hheld)

theorem SliceInv.mark_write (h : SliceInv σ (pre ++ l :: post))
    (hword : σ.chunks .write chunkIdx &&& mask = 0)
    (hreaders : σ.chunks .read chunkIdx &&& mask = 0) :
    SliceInv (σ.setWord .write chunkIdx (σ.chunks .write chunkIdx ||| mask))
      (pre ++ l.take .write (maskElements chunkIdx mask) :: post) := by
  generalize hσ : σ.setWord .write chunkIdx (σ.chunks .write chunkIdx ||| mask) = σ'
  have hlive : σ'.live = σ.live := by rw [← hσ]; rfl
  have hreading : σ'.reading = σ.reading := by rw [← hσ]; rfl
  have hwrite : holders .write σ' (pre ++ l.take .write (maskElements chunkIdx mask) :: post) =
      maskElements chunkIdx mask + holders .write σ (pre ++ l :: post) := holders_take hlive
  have hread : holders .read σ' (pre ++ l.take .write (maskElements chunkIdx mask) :: post) =
      holders .read σ (pre ++ l :: post) := holders_take_ne (by decide) hlive
  constructor
  · intro bits e he
    rw [← hσ]
    cases bits with
    | write =>
      rw [hwrite, Multiset.mem_add] at he
      rcases he with he | he
      · exact marked_or.mpr (.inr he)
      · exact marked_or.mpr (.inl (h.marked _ _ he))
    | read =>
      rw [hread] at he
      exact (marked_other (by decide)).mpr (h.marked _ _ he)
  · rw [hwrite]
    exact Multiset.nodup_add.mpr
      ⟨Multiset.coe_nodup.mpr (maskElements_nodup _ _), h.nodup, h.free hword⟩
  · rw [hread, hreading]
    exact h.counted
  · rw [hwrite, hread]
    exact Multiset.disjoint_add_left.mpr ⟨h.free hreaders, h.apart⟩

theorem SliceInv.mark_read (h : SliceInv σ (pre ++ l :: post))
    (hwriters : σ.chunks .write chunkIdx &&& mask = 0) :
    SliceInv (Container.perform 0 (.orRead chunkIdx mask) σ).2
      (pre ++ l.take .read (maskElements chunkIdx mask) :: post) := by
  generalize hσ : (Container.perform 0 (.orRead chunkIdx mask) σ).2 = σ'
  have hlive : σ'.live = σ.live := by rw [← hσ]; rfl
  have hreading : σ'.reading = maskElements chunkIdx mask ++ σ.reading := by rw [← hσ]; rfl
  have hread : holders .read σ' (pre ++ l.take .read (maskElements chunkIdx mask) :: post) =
      maskElements chunkIdx mask + holders .read σ (pre ++ l :: post) := holders_take hlive
  have hwrite : holders .write σ' (pre ++ l.take .read (maskElements chunkIdx mask) :: post) =
      holders .write σ (pre ++ l :: post) := holders_take_ne (by decide) hlive
  constructor
  · intro bits e he
    rw [← hσ]
    cases bits with
    | write =>
      rw [hwrite] at he
      exact (marked_other (by decide)).mpr (h.marked _ _ he)
    | read =>
      rw [hread, Multiset.mem_add] at he
      rcases he with he | he
      · exact marked_or.mpr (.inr he)
      · exact marked_or.mpr (.inl (h.marked _ _ he))
  · rw [hwrite]
    exact h.nodup
  · rw [hread, hreading, ← Multiset.coe_add]
    exact add_le_add le_rfl h.counted
  · rw [hwrite, hread]
    exact Multiset.disjoint_add_right.mpr ⟨(h.free hwriters).symm, h.apart⟩

/-- The bits that are cleared are held once. -/
theorem SliceInv.clear (h : SliceInv σ (pre ++ l :: post))
    (hle : (maskElements chunkIdx mask : Multiset ℕ) ≤ l bits)
    (hok : Undisturbed σ 0 (.clear bits chunkIdx mask)) :
    SliceInv (Container.perform 0 (.clear bits chunkIdx mask) σ).2
      (pre ++ l.give bits (maskElements chunkIdx mask) :: post) := by
  generalize hσ : (Container.perform 0 (.clear bits chunkIdx mask) σ).2 = σ'
  have hlive : σ'.live = σ.live := by rw [← hσ]; rfl
  have hself : maskElements chunkIdx mask +
      holders bits σ' (pre ++ l.give bits (maskElements chunkIdx mask) :: post) =
        holders bits σ (pre ++ l :: post) := holders_give hlive hle
  have hother : ∀ other, other ≠ bits →
      holders other σ' (pre ++ l.give bits (maskElements chunkIdx mask) :: post) =
        holders other σ (pre ++ l :: post) := fun other hne => holders_give_ne hne hlive
  have hsub : ∀ other,
      holders other σ' (pre ++ l.give bits (maskElements chunkIdx mask) :: post) ≤
        holders other σ (pre ++ l :: post) := by
    intro other
    by_cases hne : other = bits
    · subst hne
      rw [← hself]
      exact Multiset.le_add_left _ _
    · exact (hother other hne).le
  -- An element of the mask that were still held would have had two holders.
  have honce : ∀ e ∈ holders bits σ' (pre ++ l.give bits (maskElements chunkIdx mask) :: post),
      e ∉ maskElements chunkIdx mask := by
    intro e he hmask
    have htwo : 2 ≤ (holders bits σ (pre ++ l :: post)).count e := by
      rw [← hself, Multiset.count_add]
      exact Nat.add_le_add (Multiset.one_le_count_iff_mem.mpr hmask)
        (Multiset.one_le_count_iff_mem.mpr he)
    cases bits with
    | write =>
      have hone := Multiset.nodup_iff_count_le_one.mp h.nodup e
      omega
    | read =>
      have hone : σ.reading.count e ≤ 1 := hok e hmask
      have hcount := Multiset.count_le_of_le e h.counted
      rw [Multiset.coe_count] at hcount
      omega
  constructor
  · intro other e he
    have hold := h.marked other e (Multiset.mem_of_le (hsub other) he)
    rw [← hσ]
    by_cases hne : other = bits
    · subst hne
      exact marked_clear.mpr ⟨hold, honce e he⟩
    · exact (marked_other hne).mpr hold
  · exact Multiset.nodup_of_le (hsub .write) h.nodup
  · cases bits with
    | write =>
      have hreading : σ'.reading = σ.reading := by rw [← hσ]; rfl
      rw [hother .read (by decide), hreading]
      exact h.counted
    | read =>
      have hreading : σ'.reading = σ.reading.diff (maskElements chunkIdx mask) := by rw [← hσ]; rfl
      rw [hreading, ← Multiset.coe_sub, ← add_tsub_cancel_left (maskElements chunkIdx mask : Multiset ℕ)
        (holders _ _ _), hself]
      exact tsub_le_tsub_right h.counted _
  · exact (h.apart.mono_left (hsub .write)).mono_right (hsub .read)

theorem SliceInv.handOut (h : SliceInv σ (pre ++ l :: post))
    (hle : (g.elements : Multiset ℕ) ≤ l g.access) :
    SliceInv { σ with live := g :: σ.live } (pre ++ l.give g.access g.elements :: post) := by
  refine h.congr rfl rfl fun bits => ?_
  rw [holders_split, holders_split]
  simp only [holders, covered_cons, Held.give]
  by_cases hbits : g.access = bits
  · subst hbits
    rw [Function.update_self, if_pos rfl, add_left_comm _ (g.elements : Multiset ℕ), ← add_assoc,
      tsub_add_cancel_of_le hle]
  · rw [Function.update_of_ne (Ne.symm hbits), if_neg hbits, zero_add]

theorem SliceInv.takeBack (h : SliceInv σ (pre ++ l :: post)) {choice : ℕ}
    (hg : σ.live[choice]? = some g) :
    SliceInv { σ with live := σ.live.eraseIdx choice }
      (pre ++ l.take g.access g.elements :: post) := by
  refine h.congr rfl rfl fun bits => ?_
  rw [holders_split, holders_split]
  simp only [holders, covered_eraseIdx hg, Held.take]
  by_cases hbits : g.access = bits
  · subst hbits
    rw [Function.update_self, if_pos rfl]
    abel
  · rw [Function.update_of_ne (Ne.symm hbits), if_neg hbits, zero_add]

end Steps

theorem sliceMachine_maintains : Machine.Maintains sliceMachine Undisturbed sliceDiscipline
    Held.idle (fun _ => True) SliceInv where
  jobs := sliceJob_obeys
  forget := by
    intro σ pre post l _ h
    have hsub : ∀ bits, holders bits σ (pre ++ Held.idle :: post) ≤
        holders bits σ (pre ++ l :: post) := by
      intro bits
      rw [holders_split, holders_split]
      exact add_le_add (Multiset.zero_le _) le_rfl
    exact ⟨fun bits e he => h.marked bits e (Multiset.mem_of_le (hsub bits) he),
      Multiset.nodup_of_le (hsub .write) h.nodup, (hsub .read).trans h.counted,
      (h.apart.mono_left (hsub .write)).mono_right (hsub .read)⟩
  step := by
    intro σ pre post l choice a h hpermits hok
    refine ⟨trivial, ?_⟩
    cases a with
    | totalLength => exact h
    | load bits chunkIdx => exact h
    | casWrite chunkIdx current mask =>
      by_cases hcurrent : σ.chunks .write chunkIdx = current
      · subst hcurrent
        simp only [sliceMachine, Container.perform, if_true]
        exact h.mark_write hpermits (hok rfl)
      · simp only [sliceMachine, Container.perform, if_neg hcurrent]
        exact h
    | orRead chunkIdx mask => exact h.mark_read hok
    | clear bits chunkIdx mask => exact h.clear hpermits hok
    | handOut g => exact h.handOut hpermits
    | takeBack =>
      cases hg : σ.live[choice]? with
      | none =>
        have hlen : σ.live.length ≤ choice := List.getElem?_eq_none_iff.mp hg
        simp only [sliceMachine, Container.perform, hg, List.eraseIdx_of_length_le hlen]
        exact h
      | some g =>
        simp only [sliceMachine, Container.perform, hg]
        exact h.takeBack hg

/-! ## Exclusive guards -/

/-- Two live guards that have an element in common are both for reading. -/
def Exclusive (live : List Guard) : Prop :=
  live.Pairwise fun g g' => g.access = .write ∨ g'.access = .write →
    ∀ e ∈ g.elements, e ∉ g'.elements

instance (live : List Guard) : Decidable (Exclusive live) :=
  inferInstanceAs (Decidable (live.Pairwise _))

theorem mem_covered {live : List Guard} {g : Guard} (hg : g ∈ live) {e : ℕ} (he : e ∈ g.elements) :
    e ∈ covered g.access live :=
  Multiset.mem_coe.mpr (List.mem_flatMap.mpr ⟨g, by simpa using hg, he⟩)

theorem exclusive_of_covered {live : List Guard} (hnodup : (covered .write live).Nodup)
    (hapart : Disjoint (covered .write live) (covered .read live)) : Exclusive live := by
  induction live with
  | nil => exact .nil
  | cons g live ih =>
    have hle : ∀ bits, covered bits live ≤ covered bits (g :: live) := fun bits => by
      rw [covered_cons]
      exact Multiset.le_add_left _ _
    refine .cons (fun g' hg' hwrite e he he' => ?_) (ih (Multiset.nodup_of_le (hle _) hnodup)
      ((hapart.mono_left (hle _)).mono_right (hle _)))
    have hg : e ∈ covered g.access (g :: live) := mem_covered List.mem_cons_self he
    have hg'' : e ∈ covered g'.access (g :: live) :=
      mem_covered (List.mem_cons_of_mem _ hg') he'
    have hdisj : e ∈ covered .write (g :: live) → e ∉ covered .read (g :: live) :=
      fun hw => Multiset.disjoint_left.mp hapart hw
    cases haccess : g.access with
    | read =>
      have hwrite' : g'.access = .write := by simpa [haccess] using hwrite
      rw [haccess] at hg
      rw [hwrite'] at hg''
      exact hdisj hg'' hg
    | write =>
      rw [haccess] at hg
      cases haccess' : g'.access with
      | read =>
        rw [haccess'] at hg''
        exact hdisj hg hg''
      | write =>
        rw [covered_cons, if_pos haccess] at hnodup
        exact Multiset.disjoint_left.mp (Multiset.nodup_add.mp hnodup).2.2
          (Multiset.mem_coe.mpr he) (haccess' ▸ mem_covered hg' he')

/-- In every run that `Undisturbed` allows, no live mutable guard covers an element that another live
guard covers. -/
theorem guards_exclusive {totalLength threads : ℕ} {w : World sliceSteps Container}
    (hrun : sliceMachine.Reaches Undisturbed (sliceWorld totalLength threads) w) :
    Exclusive w.shared.live := by
  have hstart : SliceInv (Container.empty totalLength) (List.replicate threads Held.idle) := by
    have hnone : ∀ bits, holders bits (.empty totalLength) (List.replicate threads Held.idle) = 0 := by
      intro bits
      simp [holders, Container.empty, Held.idle]
    exact ⟨fun bits e he => absurd he (by rw [hnone]; exact Multiset.notMem_zero e),
      by rw [hnone]; exact Multiset.nodup_zero, by rw [hnone]; exact Multiset.zero_le _,
      by rw [hnone]; exact disjoint_bot_left⟩
  obtain ⟨ls, hinv, -⟩ := sliceMachine_maintains.reached hrun hstart
    (Machine.follows_idle _ trivial threads)
  have hle : ∀ bits, covered bits w.shared.live ≤ holders bits w.shared ls := fun bits =>
    Multiset.le_add_left _ _
  exact exclusive_of_covered (Multiset.nodup_of_le (hle _) hinv.nodup)
    ((hinv.apart.mono_left (hle _)).mono_right (hle _))

/-- Two readers of the first element, one after the other, and a writer of the second. -/
def halves : List (Move SliceJob) :=
  [.begin 0 (.acquireRead 0 1), .step 0 0, .step 0 0, .step 0 0, .step 0 0,
    .begin 1 (.acquireMut 1 1 1), .step 1 0, .step 1 0, .step 1 0, .step 1 0, .step 1 0,
    .begin 0 .drop, .step 0 1, .step 0 0, .step 0 0, .begin 0 (.acquireRead 0 1), .step 0 0,
    .step 0 0, .step 0 0, .step 0 0]

theorem guards_exclusive_halves : ∃ w, sliceMachine.Reaches Undisturbed (sliceWorld 2 2) w ∧
    w.shared.live = [⟨.read, 0, 1⟩, ⟨.write, 1, 1⟩] ∧ Exclusive w.shared.live := by
  have hrun : (sliceMachine.fireAllowed Undisturbed halves (sliceWorld 2 2)).any (fun w =>
      w.shared.live = [⟨.read, 0, 1⟩, ⟨.write, 1, 1⟩]) = true := by decide +kernel
  obtain ⟨w, hw, hlive⟩ := (Option.any_eq_true _ _).mp hrun
  have hreach := Machine.reaches_of_fireAllowed hw
  exact ⟨w, hreach, of_decide_eq_true hlive, guards_exclusive hreach⟩

/-- One thread reads an element twice, drops one of the guards and borrows the element mutably. -/
def twoReaders : List (Move SliceJob) :=
  [.begin 0 (.acquireRead 0 1), .step 0 0, .step 0 0, .step 0 0, .step 0 0,
    .begin 0 (.acquireRead 0 1), .step 0 0, .step 0 0, .step 0 0, .step 0 0,
    .begin 0 .drop, .step 0 0, .step 0 0, .step 0 0,
    .begin 0 (.acquireMut 1 0 1), .step 0 0, .step 0 0, .step 0 0, .step 0 0, .step 0 0]

/-- A reader checks, a writer acquires and the reader marks. -/
def readerRace : List (Move SliceJob) :=
  [.begin 0 (.acquireRead 0 1), .step 0 0, .step 0 0,
    .begin 1 (.acquireMut 1 0 1), .step 1 0, .step 1 0, .step 1 0, .step 1 0, .step 1 0,
    .step 0 0, .step 0 0]

/-- Guards overlap in runs of one thread, and in runs that drop no guard. -/
theorem guards_overlap :
    (¬ ∀ (totalLength : ℕ) (w : World sliceSteps Container),
      sliceMachine.Reaches (fun _ _ _ => True) (sliceWorld totalLength 1) w →
        Exclusive w.shared.live) ∧
    ¬ ∀ (totalLength threads : ℕ) (w : World sliceSteps Container),
      sliceMachine.Reaches (fun _ _ a => a ≠ .takeBack) (sliceWorld totalLength threads) w →
        Exclusive w.shared.live := by
  constructor
  · intro h
    have hrun : (sliceMachine.fireAllowed (fun _ _ _ => True) twoReaders (sliceWorld 2 1)).any
        (fun w => ¬ Exclusive w.shared.live) = true := by decide +kernel
    obtain ⟨w, hw, hlive⟩ := (Option.any_eq_true _ _).mp hrun
    exact of_decide_eq_true hlive (h 2 w (Machine.reaches_of_fireAllowed hw))
  · intro h
    have hrun : (sliceMachine.fireAllowed (fun _ _ a => a ≠ .takeBack) readerRace
        (sliceWorld 2 2)).any (fun w => ¬ Exclusive w.shared.live) = true := by decide +kernel
    obtain ⟨w, hw, hlive⟩ := (Option.any_eq_true _ _).mp hrun
    exact of_decide_eq_true hlive (h 2 2 w (Machine.reaches_of_fireAllowed hw))

end Tomii.Types
