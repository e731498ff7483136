import Tomii.Types.SlicedContainer
import Tomii.Foundations.SoloRuns

/-! # Acquisitions that fail

A failed acquisition clears the bits it has set. A write bit that is set was clear before the call;
a read bit may have been another reader's. -/
namespace Tomii.Types
set_option autoImplicit false
set_option maxHeartbeats 250000

/-! ## The bit of an element -/

namespace Container

variable {σ σ' : Container}

def has (σ : Container) (bits : Access) (e : ℕ) : Bool := wordHas (σ.chunks bits (e / 64)) (e % 64)

/-- The words are determined by the bits of the elements. -/
theorem chunks_eq_iff : σ'.chunks = σ.chunks ↔ ∀ bits e, σ'.has bits e = true ↔ σ.has bits e = true := by
  constructor
  · intro h bits e
    rw [has, has, h]
  · intro h
    funext bits chunkIdx
    apply UInt64.eq_of_toBitVec_eq
    apply BitVec.eq_of_getLsbD_eq
    intro i hi
    have hdiv : (64 * chunkIdx + i) / 64 = chunkIdx := by omega
    have hmod : (64 * chunkIdx + i) % 64 = i := by omega
    have hbit := h bits (64 * chunkIdx + i)
    rw [has, has, hdiv, hmod, wordHas_eq_getLsbD hi, wordHas_eq_getLsbD hi] at hbit
    exact Bool.eq_iff_iff.mpr hbit

theorem has_setWord {bits bits' : Access} {chunkIdx e : ℕ} {word : UInt64} :
    (σ.setWord bits chunkIdx word).has bits' e =
      if bits' = bits ∧ e / 64 = chunkIdx then wordHas word (e % 64) else σ.has bits' e := by
  by_cases hbits : bits' = bits
  · subst hbits
    by_cases hchunk : e / 64 = chunkIdx
    · subst hchunk
      simp [has, setWord]
    · simp [has, setWord, hchunk]
  · simp [has, setWord, hbits]

theorem has_clear {choice : ℕ} {bits bits' : Access} {chunkIdx e : ℕ} {mask : UInt64} :
    (perform choice (.clear bits chunkIdx mask) σ).2.has bits' e = true ↔
      σ.has bits' e = true ∧ ¬ (bits' = bits ∧ e ∈ maskElements chunkIdx mask) := by
  have hword : (perform choice (.clear bits chunkIdx mask) σ).2.has bits' e =
      (σ.setWord bits chunkIdx (σ.chunks bits chunkIdx &&& ~~~ mask)).has bits' e := rfl
  rw [hword, has_setWord, mem_maskElements]
  split
  · next h =>
    obtain ⟨rfl, rfl⟩ := h
    rw [wordHas_and_not (Nat.mod_lt _ (by omega))]
    simp [has]
  · next h =>
    refine ⟨fun hhas => ⟨hhas, fun hin => h ⟨hin.1, hin.2.1⟩⟩, And.left⟩

/-- The bits of a word that the marking of `mask` leaves. -/
theorem has_mark {bits bits' : Access} {chunkIdx e : ℕ} {mask : UInt64} :
    (σ.setWord bits chunkIdx (σ.chunks bits chunkIdx ||| mask)).has bits' e = true ↔
      σ.has bits' e = true ∨ bits' = bits ∧ e ∈ maskElements chunkIdx mask := by
  rw [has_setWord, mem_maskElements]
  split
  · next h =>
    obtain ⟨rfl, rfl⟩ := h
    rw [wordHas_or (Nat.mod_lt _ (by omega))]
    simp [has]
  · next h =>
    refine ⟨.inl, fun hhas => hhas.elim id fun hin => absurd ⟨hin.1, hin.2.1⟩ h⟩

theorem word_and_mask {bits : Access} {chunkIdx : ℕ} {mask : UInt64} :
    σ.chunks bits chunkIdx &&& mask = 0 ↔
      ∀ e ∈ maskElements chunkIdx mask, ¬ σ.has bits e = true := by
  rw [word_and_eq_zero]
  constructor
  · intro h e he hhas
    obtain ⟨rfl, hmask⟩ := mem_maskElements.mp he
    have hfree := h (e % 64) (Nat.mod_lt _ (by omega)) hhas
    rw [hmask] at hfree
    cases hfree
  · intro h i hi hword
    by_contra hmask
    have hdiv : (64 * chunkIdx + i) / 64 = chunkIdx := by omega
    have hmod : (64 * chunkIdx + i) % 64 = i := by omega
    refine h (64 * chunkIdx + i) (mem_maskElements.mpr ⟨hdiv, ?_⟩) ?_
    · rw [hmod]
      exact Bool.not_eq_false _ ▸ hmask
    · rw [has, hdiv, hmod]
      exact hword

end Container

/-! ## The rollback -/

/-- The elements of acquired masks. -/
def Acquired (acquired : List (ℕ × UInt64)) (e : ℕ) : Prop :=
  ∃ p ∈ acquired, e ∈ maskElements p.1 p.2

theorem acquired_append {acquired : List (ℕ × UInt64)} {chunkIdx e : ℕ} {mask : UInt64} :
    Acquired (acquired ++ [(chunkIdx, mask)]) e ↔
      Acquired acquired e ∨ e ∈ maskElements chunkIdx mask := by
  simp only [Acquired, List.mem_append, List.mem_singleton, or_and_right, exists_or,
    exists_eq_left]

theorem acquired_cons {acquired : List (ℕ × UInt64)} {p : ℕ × UInt64} {e : ℕ} :
    Acquired (p :: acquired) e ↔ e ∈ maskElements p.1 p.2 ∨ Acquired acquired e := by
  simp only [Acquired, List.mem_cons, or_and_right, exists_or, exists_eq_left]

/-- What is left of a state whose acquired bits have been cleared. -/
structure RolledBack (bits : Access) (acquired : ℕ → Prop) (σ σ' : Container) : Prop where
  live : σ'.live = σ.live
  has : ∀ bits' e, σ'.has bits' e = true ↔ σ.has bits' e = true ∧ ¬ (bits' = bits ∧ acquired e)

theorem rollback_ends (choice : ℕ) (bits : Access) (acquired : List (ℕ × UInt64)) (σ : Container) :
    (rollback bits acquired).Ends (Container.perform choice)
      (fun _ σ' => RolledBack bits (Acquired acquired) σ σ') σ := by
  induction acquired generalizing σ with
  | nil => exact ⟨rfl, fun bits' e => by simp [Acquired]⟩
  | cons p rest ih =>
    refine (ih (Container.perform choice (.clear bits p.1 p.2) σ).2).mono fun _ σ' h => ⟨h.live, ?_⟩
    intro bits' e
    rw [h.has, Container.has_clear, acquired_cons]
    tauto

/-! ## `sliced_data_mut` -/

/-- The mask of a chunk was free, so that clearing it afterwards restores the chunk. -/
theorem RolledBack.of_mark {bits : Access} {acquired : List (ℕ × UInt64)} {chunkIdx : ℕ}
    {mask : UInt64} {σ σ' : Container}
    (hfree : ∀ e ∈ maskElements chunkIdx mask, ¬ σ.has bits e = true)
    (h : RolledBack bits (Acquired (acquired ++ [(chunkIdx, mask)]))
      (σ.setWord bits chunkIdx (σ.chunks bits chunkIdx ||| mask)) σ') :
    RolledBack bits (Acquired acquired) σ σ' := by
  refine ⟨h.live, fun bits' e => ?_⟩
  rw [h.has, Container.has_mark, acquired_append]
  constructor
  · rintro ⟨hhas | hmask, hnot⟩
    · exact ⟨hhas, fun hin => hnot ⟨hin.1, .inl hin.2⟩⟩
    · exact absurd ⟨hmask.1, .inr hmask.2⟩ hnot
  · rintro ⟨hhas, hnot⟩
    refine ⟨.inl hhas, fun hin => ?_⟩
    obtain ⟨rfl, hin | hmask⟩ := hin
    · exact hnot ⟨rfl, hin⟩
    · exact hfree e hmask hhas

theorem markWrites_ends (choice attempts start rangeEnd : ℕ) (chunks : List ℕ)
    (acquired : List (ℕ × UInt64)) (σ : Container) :
    (markWrites (attempts + 1) start rangeEnd chunks acquired).Ends (Container.perform choice)
      (fun marked σ' => σ'.live = σ.live ∧
        (marked = false → RolledBack .write (Acquired acquired) σ σ')) σ := by
  induction chunks generalizing acquired σ with
  | nil => exact ⟨rfl, fun h => by cases h⟩
  | cons chunkIdx rest ih =>
    have hfail : (do rollback .write acquired; pure false : SliceThread Bool).Ends
        (Container.perform choice) (fun marked σ' => σ'.live = σ.live ∧
          (marked = false → RolledBack .write (Acquired acquired) σ σ')) σ :=
      (rollback_ends choice .write acquired σ).bind fun _ σ' h => ⟨h.live, fun _ => h⟩
    simp only [markWrites]
    by_cases hmask : maskForChunk start rangeEnd chunkIdx = 0
    · rw [if_pos hmask]
      exact ih acquired σ
    rw [if_neg hmask]
    refine Prog.ends_call_bind.mpr ?_
    split
    · exact hfail
    refine Prog.ends_call_bind.mpr ?_
    simp only [markChunk]
    split
    · exact hfail
    · next hfree =>
      refine Prog.ends_bind.mpr (Prog.ends_call_bind.mpr ?_)
      simp only [Container.perform, if_true]
      refine (ih _ _).mono fun marked σ' h => ⟨h.1, fun hm => ?_⟩
      exact (h.2 hm).of_mark (Container.word_and_mask.mp (not_not.mp hfree))

/-! ## `acquire_read_range` -/

/-- No element of the range in this chunk is being written. -/
def Unwritten (σ : Container) (start rangeEnd chunkIdx : ℕ) : Prop :=
  σ.chunks .write chunkIdx &&& maskForChunk start rangeEnd chunkIdx = 0

instance (σ : Container) (start rangeEnd chunkIdx : ℕ) :
    Decidable (Unwritten σ start rangeEnd chunkIdx) :=
  inferInstanceAs (Decidable (_ = _))

theorem unwritten_iff {σ : Container} {start rangeEnd chunkIdx : ℕ} :
    Unwritten σ start rangeEnd chunkIdx ↔
      ∀ e, e / 64 = chunkIdx → start ≤ e → e < rangeEnd → ¬ σ.has .write e = true := by
  rw [Unwritten, Container.word_and_mask]
  simp only [mem_chunkMask, and_imp]

/-- The elements of the range in the chunks before the first that is being written. -/
def ReadBefore (σ : Container) (start rangeEnd : ℕ) (chunks : List ℕ) (e : ℕ) : Prop :=
  e / 64 ∈ chunks.takeWhile (fun c => Unwritten σ start rangeEnd c) ∧ start ≤ e ∧ e < rangeEnd

theorem unwritten_congr {σ σ' : Container} (h : σ'.chunks .write = σ.chunks .write) :
    Unwritten σ' = Unwritten σ := by
  funext start rangeEnd chunkIdx
  rw [Unwritten, Unwritten, h]

theorem readBefore_cons {σ : Container} {start rangeEnd chunkIdx e : ℕ} {rest : List ℕ}
    (hfree : Unwritten σ start rangeEnd chunkIdx) :
    ReadBefore σ start rangeEnd (chunkIdx :: rest) e ↔
      e ∈ maskElements chunkIdx (maskForChunk start rangeEnd chunkIdx) ∨
        ReadBefore σ start rangeEnd rest e := by
  simp only [ReadBefore, List.takeWhile_cons, hfree, decide_true, if_true, List.mem_cons,
    mem_chunkMask, or_and_right]

theorem not_readBefore_cons {σ : Container} {start rangeEnd chunkIdx e : ℕ} {rest : List ℕ}
    (hwritten : ¬ Unwritten σ start rangeEnd chunkIdx) :
    ¬ ReadBefore σ start rangeEnd (chunkIdx :: rest) e := by
  simp [ReadBefore, hwritten]

theorem acquireReadRange_ends (choice start rangeEnd : ℕ) (chunks : List ℕ)
    (acquired : List (ℕ × UInt64)) (σ : Container) :
    (acquireReadRange start rangeEnd chunks acquired).Ends (Container.perform choice)
      (fun marked σ' => σ'.live = σ.live ∧
        (marked = true ↔ ∀ c ∈ chunks, Unwritten σ start rangeEnd c) ∧
        (marked = false →
          RolledBack .read (fun e => Acquired acquired e ∨ ReadBefore σ start rangeEnd chunks e)
            σ σ')) σ := by
  induction chunks generalizing acquired σ with
  | nil => exact ⟨rfl, by simp, fun h => by cases h⟩
  | cons chunkIdx rest ih =>
    simp only [acquireReadRange]
    by_cases hmask : maskForChunk start rangeEnd chunkIdx = 0
    · rw [if_pos hmask]
      have hfree : Unwritten σ start rangeEnd chunkIdx := by
        rw [Unwritten, hmask, UInt64.and_zero]
      refine (ih acquired σ).mono fun marked σ' h => ⟨h.1, ?_, fun hm => ⟨h.1, fun bits e => ?_⟩⟩
      · rw [h.2.1, List.forall_mem_cons]
        exact (and_iff_right hfree).symm
      · have hnone : e ∉ maskElements chunkIdx (maskForChunk start rangeEnd chunkIdx) := by
          simp [hmask, mem_maskElements]
        rw [(h.2.2 hm).has, readBefore_cons hfree, or_iff_right hnone]
    rw [if_neg hmask]
    refine Prog.ends_call_bind.mpr ?_
    split
    · next hwritten =>
      refine (rollback_ends choice .read acquired σ).bind fun _ σ' h => ⟨h.live, ?_, fun _ => ?_⟩
      · rw [List.forall_mem_cons]
        exact iff_of_false Bool.false_ne_true fun hall => hwritten hall.1
      · refine ⟨h.live, fun bits e => ?_⟩
        rw [h.has, or_iff_left (not_readBefore_cons hwritten)]
    · next hunwritten =>
      have hfree : Unwritten σ start rangeEnd chunkIdx := not_not.mp hunwritten
      let marking : SliceAct := .orRead chunkIdx (maskForChunk start rangeEnd chunkIdx)
      have hsame : Unwritten (Container.perform choice marking σ).2 = Unwritten σ :=
        unwritten_congr rfl
      have hmark : ∀ bits e, (Container.perform choice marking σ).2.has bits e = true ↔
          σ.has bits e = true ∨ bits = .read ∧
            e ∈ maskElements chunkIdx (maskForChunk start rangeEnd chunkIdx) :=
        fun _ _ => Container.has_mark
      refine Prog.ends_call_bind.mpr
        ((ih _ (Container.perform choice marking σ).2).mono fun marked σ' h => ⟨h.1, ?_, ?_⟩)
      · rw [h.2.1, hsame, List.forall_mem_cons]
        exact (and_iff_right hfree).symm
      · intro hm
        refine ⟨h.1, fun bits e => ?_⟩
        rw [(h.2.2 hm).has, hmark, acquired_append, readBefore_cons hfree]
        simp only [ReadBefore, hsame]
        tauto

/-! ## All or nothing -/

/-- `takeWhile` on consecutive numbers. -/
theorem mem_takeWhile_range' {first count c : ℕ} {p : ℕ → Bool} :
    c ∈ (List.range' first count).takeWhile p ↔
      c < first + count ∧ first ≤ c ∧ ∀ d, first ≤ d → d ≤ c → p d = true := by
  induction count generalizing first with
  | zero =>
    simp only [List.range'_zero, List.takeWhile_nil, List.not_mem_nil, false_iff]
    omega
  | succ count ih =>
    rw [List.range'_succ, List.takeWhile_cons]
    cases hp : p first with
    | false =>
      refine iff_of_false List.not_mem_nil fun h => ?_
      have hfirst := h.2.2 first le_rfl h.2.1
      rw [hp] at hfirst
      cases hfirst
    | true =>
      simp only [if_true, List.mem_cons, ih]
      constructor
      · rintro (rfl | ⟨hlt, hle, hall⟩)
        · refine ⟨by omega, le_rfl, fun d hlo hhi => ?_⟩
          obtain rfl := Nat.le_antisymm hhi hlo
          exact hp
        · refine ⟨by omega, by omega, fun d hlo hhi => ?_⟩
          rcases Nat.eq_or_lt_of_le hlo with rfl | hlt
          · exact hp
          · exact hall d hlt hhi
      · rintro ⟨hlt, hle, hall⟩
        rcases Nat.eq_or_lt_of_le hle with rfl | hlt'
        · exact .inl rfl
        · exact .inr ⟨by omega, hlt', fun d hlo hhi => hall d (by omega) hhi⟩

/-- Alone the call returns, and if it hands out no guard every bit is as before. -/
def FailsAtomically (call : SliceThread Unit) (σ : Container) : Prop :=
  call.Ends (Container.perform 0) (fun _ σ' => σ'.live = σ.live → σ'.chunks = σ.chunks) σ

/-- Every element of the range that is being read already lies in the first chunk of the range that
is being written, or behind it. -/
def RollbackHarmless (σ : Container) (start len : ℕ) : Prop :=
  start + len ≤ σ.totalLength → ∀ e, start ≤ e → e < start + len → σ.has .read e = true →
    ∀ w, start ≤ w → w < start + len → σ.has .write w = true →
      ∃ v, start ≤ v ∧ v < start + len ∧ σ.has .write v = true ∧ v / 64 ≤ e / 64

/-- A guard that is handed out is a new one. -/
theorem handOut_ends {σ σ' : Container} {g : Guard} (h : σ'.live = σ.live) :
    (sliceStep (.handOut g)).Ends (Container.perform 0) (fun _ σ'' => σ''.live ≠ σ.live) σ' := by
  intro hlive
  exact List.cons_ne_self g σ'.live (hlive.trans h.symm)

theorem RolledBack.chunks_eq_iff {bits : Access} {acquired : ℕ → Prop} {σ σ' : Container}
    (h : RolledBack bits acquired σ σ') :
    σ'.chunks = σ.chunks ↔ ∀ e, σ.has bits e = true → ¬ acquired e := by
  rw [Container.chunks_eq_iff]
  constructor
  · intro hsame e hhas hacq
    exact ((h.has bits e).mp ((hsame bits e).mpr hhas)).2 ⟨rfl, hacq⟩
  · intro hnone bits' e
    rw [h.has, and_iff_left_iff_imp]
    rintro hhas ⟨rfl, hacq⟩
    exact hnone e hhas hacq

theorem slicedDataMut_failsAtomically (σ : Container) (attempts start len : ℕ) :
    FailsAtomically (slicedDataMut (attempts + 1) start len) σ := by
  refine Prog.ends_call_bind.mpr ?_
  split
  · exact fun _ => rfl
  · next rangeEnd _ =>
    split
    · exact (handOut_ends rfl).mono fun _ _ hne hlive => absurd hlive hne
    · refine (markWrites_ends 0 attempts start rangeEnd _ [] σ).bind fun marked σ' h => ?_
      cases marked with
      | true => exact (handOut_ends h.1).mono fun _ _ hne hlive => absurd hlive hne
      | false =>
        intro _
        refine (h.2 rfl).chunks_eq_iff.mpr fun e _ hacq => ?_
        obtain ⟨p, hp, -⟩ := hacq
        cases hp

theorem rangeEnd_eq_some {totalLength start len rangeEnd : ℕ}
    (h : Container.rangeEnd totalLength start len = some rangeEnd) :
    start + len ≤ totalLength ∧ rangeEnd = start + len := by
  unfold Container.rangeEnd at h
  split at h
  · cases h
  · split at h
    · next hle => exact ⟨hle, (Option.some.inj h).symm⟩
    · cases h

theorem rangeEnd_eq_none {totalLength start len : ℕ}
    (h : Container.rangeEnd totalLength start len = none) : totalLength < start + len := by
  unfold Container.rangeEnd at h
  split at h
  · omega
  · split at h
    · cases h
    · omega

theorem unwritten_all {σ : Container} {start len : ℕ} (hpos : 0 < len) :
    (∀ c ∈ chunksOf start (start + len), Unwritten σ start (start + len) c) ↔
      ∀ w, start ≤ w → w < start + len → ¬ σ.has .write w = true := by
  constructor
  · intro h w hlo hhi
    have hin : w / 64 ∈ chunksOf start (start + len) :=
      (mem_chunksOf (by omega)).mpr ⟨Nat.div_le_div_right hlo, Nat.div_le_div_right (by omega)⟩
    exact unwritten_iff.mp (h _ hin) w rfl hlo hhi
  · intro h c _
    exact unwritten_iff.mpr fun w _ hlo hhi => h w hlo hhi

/-- The elements that a failing acquisition marks and clears again. -/
theorem readBefore_iff {σ : Container} {start len e : ℕ} (hlo : start ≤ e) (hhi : e < start + len) :
    ReadBefore σ start (start + len) (chunksOf start (start + len)) e ↔
      ∀ v, start ≤ v → v < start + len → σ.has .write v = true → e / 64 < v / 64 := by
  have hfirst : start / 64 ≤ e / 64 := Nat.div_le_div_right hlo
  have hlast : e / 64 ≤ (start + len - 1) / 64 := Nat.div_le_div_right (by omega)
  simp only [ReadBefore, chunksOf, mem_takeWhile_range', decide_eq_true_eq]
  constructor
  · intro h v hvlo hvhi hv
    by_contra hle
    have hfree := h.1.2.2 (v / 64) (Nat.div_le_div_right hvlo) (by omega)
    exact unwritten_iff.mp hfree v rfl hvlo hvhi hv
  · intro h
    refine ⟨⟨by omega, hfirst, fun d _ hd => ?_⟩, hlo, hhi⟩
    refine unwritten_iff.mpr fun v hvd hvlo hvhi hv => ?_
    have hbehind := h v hvlo hvhi hv
    omega

theorem slicedGetRange_failsAtomically_iff (σ : Container) (start len : ℕ) :
    FailsAtomically (slicedGetRange start len) σ ↔ RollbackHarmless σ start len := by
  apply Prog.Ends.iff_of
  refine Prog.ends_call_bind.mpr ?_
  split
  · next hnone =>
    refine iff_of_true (fun _ => rfl) fun hle => ?_
    exact absurd hle (Nat.not_le.mpr (rangeEnd_eq_none hnone))
  · next rangeEnd hsome =>
    obtain ⟨hle, rfl⟩ := rangeEnd_eq_some hsome
    split
    · next hlen =>
      subst hlen
      refine (handOut_ends rfl).mono fun _ _ hne => iff_of_true (fun hlive => absurd hlive hne) ?_
      intro _ e hlo hhi
      omega
    · next hlen =>
      have hpos : 0 < len := Nat.pos_of_ne_zero hlen
      refine (acquireReadRange_ends 0 start (start + len) _ [] σ).bind fun marked σ' h => ?_
      obtain ⟨hlive, hmarked, hrolled⟩ := h
      rw [unwritten_all hpos] at hmarked
      cases marked with
      | true =>
        refine (handOut_ends hlive).mono fun _ _ hne => iff_of_true (absurd · hne) ?_
        intro _ e _ _ _ w hwlo hwhi hw
        exact absurd hw (hmarked.mp rfl w hwlo hwhi)
      | false =>
        refine (imp_iff_right hlive).trans ((hrolled rfl).chunks_eq_iff.trans ?_)
        constructor
        · intro hnone _ e hlo hhi hread w hwlo hwhi hw
          have hbefore := mt Or.inr (hnone e hread)
          rw [readBefore_iff hlo hhi] at hbefore
          push Not at hbefore
          exact hbefore
        · rintro hharmless e hread (hacq | hbefore)
          · obtain ⟨p, hp, -⟩ := hacq
            cases hp
          · obtain ⟨w, hwlo, hwhi, hw⟩ :
                ∃ w, start ≤ w ∧ w < start + len ∧ σ.has .write w = true := by
              by_contra hnone
              push Not at hnone
              exact Bool.false_ne_true (hmarked.mpr hnone)
            obtain ⟨v, hvlo, hvhi, hv, hchunk⟩ :=
              hharmless hle e hbefore.2.1 hbefore.2.2 hread w hwlo hwhi hw
            have hbehind := (readBefore_iff hbefore.2.1 hbefore.2.2).mp hbefore v hvlo hvhi hv
            omega

/-- A failed acquisition of write bits restores every bit; one of read bits does so exactly when it
has passed over no element that is being read already. -/
theorem failed_acquisition_restores_iff (σ : Container) (attempts start len : ℕ) :
    (FailsAtomically (slicedDataMut (attempts + 1) start len) σ ∧
      FailsAtomically (slicedGetRange start len) σ) ↔ RollbackHarmless σ start len :=
  (and_iff_right (slicedDataMut_failsAtomically σ attempts start len)).trans
    (slicedGetRange_failsAtomically_iff σ start len)

/-- A reader of `0..10` loses its bits to a read of `0..70` that fails at a writer of `64..70`. -/
theorem failed_read_clears_reader :
    (do slicedGetRange 0 10; slicedDataMut 1 64 6 : SliceThread Unit).Ends (Container.perform 0)
      (fun _ σ => σ.live = [⟨.write, 64, 6⟩, ⟨.read, 0, 10⟩] ∧ σ.has .read 0 = true)
      (.empty 70) ∧
    (do slicedGetRange 0 10; slicedDataMut 1 64 6; slicedGetRange 0 70 : SliceThread Unit).Ends
      (Container.perform 0)
      (fun _ σ' => σ'.live = [⟨.write, 64, 6⟩, ⟨.read, 0, 10⟩] ∧ σ'.has .read 0 = false)
      (.empty 70) ∧
    ¬ ∀ σ start len, FailsAtomically (slicedGetRange start len) σ := by
  have hbefore : (do slicedGetRange 0 10; slicedDataMut 1 64 6 : SliceThread Unit).Ends
      (Container.perform 0)
      (fun _ σ => σ.live = [⟨.write, 64, 6⟩, ⟨.read, 0, 10⟩] ∧ σ.has .read 0 = true)
      (.empty 70) := by
    decide +kernel
  have hafter : (do slicedGetRange 0 10; slicedDataMut 1 64 6; slicedGetRange 0 70 :
      SliceThread Unit).Ends (Container.perform 0)
      (fun _ σ' => σ'.live = [⟨.write, 64, 6⟩, ⟨.read, 0, 10⟩] ∧ σ'.has .read 0 = false)
      (.empty 70) := by
    decide +kernel
  refine ⟨hbefore, hafter, fun h => ?_⟩
  obtain ⟨_, σ₁, hmid, hmid'⟩ := ((Prog.ends_bind.mp hbefore).and (Prog.ends_bind.mp hafter)).exists
  obtain ⟨_, σ, ⟨hlive, hread⟩, hfails⟩ := (hmid.and (Prog.ends_bind.mp hmid')).exists
  obtain ⟨_, σ', ⟨hlive', hlost⟩, hsame⟩ := (hfails.and (h σ 0 70)).exists
  rw [Container.has, hsame (hlive'.trans hlive.symm)] at hlost
  exact Bool.false_ne_true (hlost.symm.trans hread)

end Tomii.Types
