import Tomii.Slots.FlowTurns
import Tomii.Slots.SlotMoves

/-! # The tally of frames

A frame is counted when it completes, when it is the victim of a full `pending_frames`, or when it is
evicted. Between its decision and the count a thread holds the frame, or its slot; the tally of all
threads says that no two hold the same. -/
namespace Tomii.Slots
set_option autoImplicit false
set_option maxHeartbeats 250000

/-- The frame is counted, or marked as dropped and about to be. -/
def Finished (σ : Flow) (frame : ℕ) : Prop := frame ∈ σ.log.counted ∨ σ.frameDropped frame = true

instance (σ : Flow) (frame : ℕ) : Decidable (Finished σ frame) :=
  inferInstanceAs (Decidable (_ ∨ _))

/-- The number that a restart gives its frame. -/
def Flow.nextFrameId (cfg : FlowConfig) (σ : Flow) : ℕ :=
  σ.frameCompleteCounter + σ.table.currentlyActive cfg.toSlotConfig

/-! ## What a thread owes the count -/

/-- The frame that the thread will count without a slot of its own being at stake, the slot it
finishes, that slot once its frame is counted or marked, the frame it has read for the slot, and the
slot it will restart. -/
structure Tally where
  token : Option ℕ
  owner : Option ℕ
  spent : Option ℕ
  names : Option ℕ
  restarts : Option ℕ

def Tally.none : Tally := ⟨.none, .none, .none, .none, .none⟩

def Tally.holding (slot : ℕ) : Tally := ⟨.none, some slot, .none, .none, .none⟩

def Tally.restarting (restart : Option ℕ) : Tally := ⟨.none, .none, .none, .none, restart⟩

def Stage.tally : Stage → Tally
  | .marked frame => ⟨some frame, none, none, none, none⟩
  | .claimed slot | .reset slot | .evicting slot => .holding slot
  | .marking slot frame => ⟨none, some slot, none, some frame, none⟩
  | .evicted slot frame => ⟨some frame, some slot, some slot, none, none⟩
  | .spent slot => ⟨none, some slot, some slot, none, none⟩
  | .counted slot restart => ⟨none, some slot, some slot, none, restart⟩
  | .promoted _ restart => .restarting restart
  | .waiting slot => .restarting (some slot)
  | _ => Tally.none

/-- The frames counted and those about to be are different ones, and a running frame is among them
only when the thread that finishes its slot has settled it. -/
structure Tallied (cfg : FlowConfig) (σ : Flow) (ts : List Tally) : Prop where
  coherent : Coherent cfg.toSlotConfig σ.table
  frames : (σ.table.runningFrames.map Prod.fst).Nodup
  settled : (σ.log.counted ++ ts.filterMap Tally.token).Nodup
  marked : ∀ t ∈ ts, ∀ frame, t.token = some frame → σ.frameDropped frame = true
  unsettled : ∀ e ∈ σ.table.runningFrames, (∀ t ∈ ts, t.spent ≠ some e.2) →
    e.1 ∉ σ.log.counted ++ ts.filterMap Tally.token
  owners : (ts.filterMap Tally.owner).Nodup
  spender : ∀ t ∈ ts, ∀ slot, t.spent = some slot → t.owner = some slot
  held : ∀ t ∈ ts, ∀ slot, t.owner = some slot → slot ∈ σ.table.runningFrames.map Prod.snd ∧
    (slot ∈ σ.claimed ∨ slot ∈ σ.log.evicting ∧ σ.packetComplete slot = true)
  named : ∀ t ∈ ts, ∀ slot frame, t.owner = some slot → t.names = some frame →
    (frame, slot) ∈ σ.table.runningFrames
  restarts : ∀ t ∈ ts, ∀ slot, t.restarts = some slot → slot < cfg.slots

namespace Tallied

variable {cfg : FlowConfig} {σ σ' : Flow} {t t' : Tally} {ts ts' others : List Tally}

theorem perm (h : Tallied cfg σ ts) (hp : ts.Perm ts') : Tallied cfg σ ts' where
  coherent := h.coherent
  frames := h.frames
  settled := ((hp.filterMap Tally.token).append_left _).nodup_iff.mp h.settled
  marked t ht := h.marked t (hp.mem_iff.mpr ht)
  unsettled e he hunspent hin := by
    refine h.unsettled e he (fun t ht => hunspent t (hp.mem_iff.mp ht)) ?_
    exact ((hp.filterMap Tally.token).append_left _).mem_iff.mpr hin
  owners := (hp.filterMap Tally.owner).nodup_iff.mp h.owners
  spender t ht := h.spender t (hp.mem_iff.mpr ht)
  held t ht := h.held t (hp.mem_iff.mpr ht)
  named t ht := h.named t (hp.mem_iff.mpr ht)
  restarts t ht := h.restarts t (hp.mem_iff.mpr ht)

/-- A step that counts no frame and gives or takes no slot. -/
theorem keep (h : Tallied cfg σ ts) (hcoherent : Coherent cfg.toSlotConfig σ'.table)
    (hrunning : σ'.table.runningFrames = σ.table.runningFrames)
    (hcounted : σ'.log.counted = σ.log.counted)
    (hdropped : ∀ frame, σ.frameDropped frame = true → σ'.frameDropped frame = true)
    (hheld : ∀ slot, slot ∈ σ.claimed ∨ slot ∈ σ.log.evicting ∧ σ.packetComplete slot = true →
      slot ∈ σ'.claimed ∨ slot ∈ σ'.log.evicting ∧ σ'.packetComplete slot = true) :
    Tallied cfg σ' ts where
  coherent := hcoherent
  frames := hrunning ▸ h.frames
  settled := hcounted ▸ h.settled
  marked t ht frame htoken := hdropped frame (h.marked t ht frame htoken)
  unsettled := by
    rw [hrunning, hcounted]
    exact h.unsettled
  owners := h.owners
  spender := h.spender
  held t ht slot howner := by
    rw [hrunning]
    exact ⟨(h.held t ht slot howner).1, hheld slot (h.held t ht slot howner).2⟩
  named := by
    rw [hrunning]
    exact h.named
  restarts := h.restarts

/-- No other thread finishes the slot. -/
theorem other_owner (h : Tallied cfg σ (t :: others)) {slot : ℕ} (howner : t.owner = some slot) :
    ∀ m ∈ others, m.owner ≠ some slot := by
  have howners := h.owners
  rw [List.filterMap_cons_some howner] at howners
  intro m hm hmowner
  exact (List.nodup_cons.mp howners).1 (List.mem_filterMap.mpr ⟨m, hm, hmowner⟩)

theorem other_spent (h : Tallied cfg σ (t :: others)) {slot : ℕ} (howner : t.owner = some slot) :
    ∀ m ∈ others, m.spent ≠ some slot := fun m hm hspent =>
  h.other_owner howner m hm (h.spender m (List.mem_cons_of_mem _ hm) slot hspent)

/-- A thread that changes neither its token nor its slot. -/
theorem advance (h : Tallied cfg σ (t :: others)) (htoken : t'.token = t.token)
    (howner : t'.owner = t.owner) (hspent : ∀ slot, t.spent = some slot → t'.spent = some slot)
    (hspender : ∀ slot, t'.spent = some slot → t'.owner = some slot)
    (hnamed : ∀ slot frame, t'.owner = some slot → t'.names = some frame →
      (frame, slot) ∈ σ.table.runningFrames)
    (hrestarts : ∀ slot, t'.restarts = some slot → slot < cfg.slots) :
    Tallied cfg σ (t' :: others) := by
  have htokens : (t' :: others).filterMap Tally.token = (t :: others).filterMap Tally.token := by
    rw [List.filterMap_cons, List.filterMap_cons, htoken]
  have howners : (t' :: others).filterMap Tally.owner = (t :: others).filterMap Tally.owner := by
    rw [List.filterMap_cons, List.filterMap_cons, howner]
  refine ⟨h.coherent, h.frames, htokens ▸ h.settled, ?_, ?_, howners ▸ h.owners, ?_, ?_, ?_, ?_⟩
  · refine List.forall_mem_cons.mpr ⟨?_, fun m hm => h.marked m (List.mem_cons_of_mem _ hm)⟩
    rw [htoken]
    exact h.marked t List.mem_cons_self
  · intro e he hunspent
    rw [htokens]
    refine h.unsettled e he (List.forall_mem_cons.mpr ⟨fun hs => ?_, fun m hm => ?_⟩)
    · exact hunspent t' List.mem_cons_self (hspent _ hs)
    · exact hunspent m (List.mem_cons_of_mem _ hm)
  · exact List.forall_mem_cons.mpr ⟨hspender, fun m hm => h.spender m (List.mem_cons_of_mem _ hm)⟩
  · refine List.forall_mem_cons.mpr ⟨?_, fun m hm => h.held m (List.mem_cons_of_mem _ hm)⟩
    rw [howner]
    exact h.held t List.mem_cons_self
  · exact List.forall_mem_cons.mpr ⟨hnamed, fun m hm => h.named m (List.mem_cons_of_mem _ hm)⟩
  · exact List.forall_mem_cons.mpr ⟨hrestarts, fun m hm =>
      h.restarts m (List.mem_cons_of_mem _ hm)⟩

/-- The thread counts its token. -/
theorem spend (h : Tallied cfg σ (t :: others)) {frame : ℕ} (htoken : t.token = some frame)
    (hnames : t'.names = none) (hrestarts : t'.restarts = none) (htoken' : t'.token = none)
    (howner : t'.owner = t.owner) (hspent : t'.spent = t.spent)
    (hcoherent : Coherent cfg.toSlotConfig σ'.table)
    (hrunning : σ'.table.runningFrames = σ.table.runningFrames)
    (hcounted : σ'.log.counted = frame :: σ.log.counted)
    (hdropped : σ'.frameDropped = σ.frameDropped)
    (hclaimed : σ'.claimed = σ.claimed) (hevicting : σ'.log.evicting = σ.log.evicting)
    (hcomplete : σ'.packetComplete = σ.packetComplete) :
    Tallied cfg σ' (t' :: others) := by
  have hperm : (σ'.log.counted ++ (t' :: others).filterMap Tally.token).Perm
      (σ.log.counted ++ (t :: others).filterMap Tally.token) := by
    rw [hcounted, List.filterMap_cons_none htoken', List.filterMap_cons_some htoken]
    exact List.perm_middle.symm
  refine ⟨hcoherent, hrunning ▸ h.frames, hperm.nodup_iff.mpr h.settled, ?_, ?_, ?_, ?_, ?_, ?_, ?_⟩
  · rw [hdropped]
    refine List.forall_mem_cons.mpr ⟨fun f hf => ?_, fun m hm =>
      h.marked m (List.mem_cons_of_mem _ hm)⟩
    rw [htoken'] at hf
    cases hf
  · intro e he hunspent hin
    rw [hrunning] at he
    refine h.unsettled e he (List.forall_mem_cons.mpr ⟨fun hs => ?_, fun m hm => ?_⟩)
      (hperm.mem_iff.mp hin)
    · exact hunspent t' List.mem_cons_self (hspent.trans hs)
    · exact hunspent m (List.mem_cons_of_mem _ hm)
  · have howners := h.owners
    rw [List.filterMap_cons] at howners ⊢
    rwa [howner]
  · refine List.forall_mem_cons.mpr ⟨?_, fun m hm => h.spender m (List.mem_cons_of_mem _ hm)⟩
    rw [howner, hspent]
    exact h.spender t List.mem_cons_self
  · rw [hrunning, hclaimed, hevicting, hcomplete]
    refine List.forall_mem_cons.mpr ⟨?_, fun m hm => h.held m (List.mem_cons_of_mem _ hm)⟩
    rw [howner]
    exact h.held t List.mem_cons_self
  · rw [hrunning]
    refine List.forall_mem_cons.mpr ⟨fun slot f _ hf => ?_, fun m hm =>
      h.named m (List.mem_cons_of_mem _ hm)⟩
    rw [hnames] at hf
    cases hf
  · refine List.forall_mem_cons.mpr ⟨fun slot hs => ?_, fun m hm =>
      h.restarts m (List.mem_cons_of_mem _ hm)⟩
    rw [hrestarts] at hs
    cases hs

/-- The frame of a slot that is not settled is not counted, and nobody is about to count it. -/
theorem unsettled_owner (h : Tallied cfg σ (t :: others)) {slot frame : ℕ}
    (howner : t.owner = some slot) (hspent : t.spent ≠ some slot)
    (hin : (frame, slot) ∈ σ.table.runningFrames) :
    frame ∉ σ.log.counted ++ (t :: others).filterMap Tally.token :=
  h.unsettled (frame, slot) hin (List.forall_mem_cons.mpr ⟨hspent, h.other_spent howner⟩)

/-- The thread marks a frame that it will count. -/
theorem mark (h : Tallied cfg σ (t :: others)) {frame : ℕ} (htoken : t.token = none)
    (htoken' : t'.token = some frame) (howner : t'.owner = t.owner)
    (hspent : ∀ slot, t.spent = some slot → t'.spent = some slot)
    (hspender : ∀ slot, t'.spent = some slot → t'.owner = some slot)
    (hnames : t'.names = none) (hrestarts : t'.restarts = none)
    (hnew : frame ∉ σ.log.counted ++ (t :: others).filterMap Tally.token)
    (hfinishes : ∀ e ∈ σ.table.runningFrames, e.1 = frame → t'.spent = some e.2)
    (hcoherent : Coherent cfg.toSlotConfig σ'.table)
    (hrunning : σ'.table.runningFrames = σ.table.runningFrames)
    (hcounted : σ'.log.counted = σ.log.counted)
    (hdropped : σ'.frameDropped = Function.update σ.frameDropped frame true)
    (hclaimed : σ'.claimed = σ.claimed) (hevicting : σ'.log.evicting = σ.log.evicting)
    (hcomplete : σ'.packetComplete = σ.packetComplete) :
    Tallied cfg σ' (t' :: others) := by
  have hperm : (σ'.log.counted ++ (t' :: others).filterMap Tally.token).Perm
      (frame :: (σ.log.counted ++ (t :: others).filterMap Tally.token)) := by
    rw [hcounted, List.filterMap_cons_none htoken, List.filterMap_cons_some htoken']
    exact List.perm_middle
  refine ⟨hcoherent, hrunning ▸ h.frames,
    hperm.nodup_iff.mpr (List.nodup_cons.mpr ⟨hnew, h.settled⟩), ?_, ?_, ?_, ?_, ?_, ?_, ?_⟩
  · rw [hdropped]
    refine List.forall_mem_cons.mpr ⟨fun f hf => ?_, fun m hm f hf => ?_⟩
    · obtain rfl := Option.some.inj (htoken'.symm.trans hf)
      exact Function.update_self ..
    · by_cases hsame : f = frame
      · rw [hsame]
        exact Function.update_self ..
      · rw [Function.update_of_ne hsame]
        exact h.marked m (List.mem_cons_of_mem _ hm) f hf
  · intro e he hunspent hin
    rw [hrunning] at he
    rcases List.mem_cons.mp (hperm.mem_iff.mp hin) with hsame | hin
    · exact hunspent t' List.mem_cons_self (hfinishes e he hsame)
    · refine h.unsettled e he (List.forall_mem_cons.mpr ⟨fun hs => ?_, fun m hm => ?_⟩) hin
      · exact hunspent t' List.mem_cons_self (hspent _ hs)
      · exact hunspent m (List.mem_cons_of_mem _ hm)
  · have howners := h.owners
    rw [List.filterMap_cons] at howners ⊢
    rwa [howner]
  · exact List.forall_mem_cons.mpr ⟨hspender, fun m hm => h.spender m (List.mem_cons_of_mem _ hm)⟩
  · rw [hrunning, hclaimed, hevicting, hcomplete]
    refine List.forall_mem_cons.mpr ⟨?_, fun m hm => h.held m (List.mem_cons_of_mem _ hm)⟩
    rw [howner]
    exact h.held t List.mem_cons_self
  · rw [hrunning]
    refine List.forall_mem_cons.mpr ⟨fun slot f _ hf => ?_, fun m hm =>
      h.named m (List.mem_cons_of_mem _ hm)⟩
    rw [hnames] at hf
    cases hf
  · refine List.forall_mem_cons.mpr ⟨fun slot hs => ?_, fun m hm =>
      h.restarts m (List.mem_cons_of_mem _ hm)⟩
    rw [hrestarts] at hs
    cases hs

/-- A frame that is neither running nor finished takes a slot. -/
theorem seat (h : Tallied cfg σ ts) {frame slot : ℕ}
    (hframe : frame ∉ σ.table.runningFrames.map Prod.fst) (hnew : ¬ Finished σ frame)
    (hcoherent : Coherent cfg.toSlotConfig σ'.table)
    (hrunning : σ'.table.runningFrames = σ.table.runningFrames ++ [(frame, slot)])
    (hcounted : σ'.log.counted = σ.log.counted) (hdropped : σ'.frameDropped = σ.frameDropped)
    (hclaimed : σ'.claimed = σ.claimed) (hevicting : σ'.log.evicting = σ.log.evicting)
    (hcomplete : σ'.packetComplete = σ.packetComplete) : Tallied cfg σ' ts := by
  have hgrows : ∀ e ∈ σ.table.runningFrames, e ∈ σ'.table.runningFrames := fun e he =>
    hrunning ▸ List.mem_append_left _ he
  refine ⟨hcoherent, ?_, hcounted ▸ h.settled, hdropped ▸ h.marked, ?_, h.owners, h.spender, ?_,
    fun t ht s f ho hf => hgrows _ (h.named t ht s f ho hf), h.restarts⟩
  · rw [hrunning, List.map_append]
    refine List.nodup_append.mpr ⟨h.frames, List.nodup_singleton _, ?_⟩
    intro f hf g hg hsame
    obtain rfl := List.mem_singleton.mp hg
    exact hframe (hsame ▸ hf)
  · intro e he hunspent
    rw [hcounted]
    rw [hrunning] at he
    rcases List.mem_append.mp he with he | he
    · exact h.unsettled e he hunspent
    · obtain rfl := List.mem_singleton.mp he
      intro hin
      rcases List.mem_append.mp hin with hin | hin
      · exact hnew (.inl hin)
      · obtain ⟨t, ht, htoken⟩ := List.mem_filterMap.mp hin
        exact hnew (.inr (h.marked t ht frame htoken))
  · rw [hclaimed, hevicting, hcomplete]
    intro t ht s ho
    obtain ⟨hin, hheld⟩ := h.held t ht s ho
    obtain ⟨e, he, rfl⟩ := List.mem_map.mp hin
    exact ⟨List.mem_map_of_mem (hgrows e he), hheld⟩

/-- A thread claims the completion or the eviction of a slot that nobody finishes. -/
theorem claim (h : Tallied cfg σ (.none :: others)) {slot : ℕ}
    (hin : slot ∈ σ.table.runningFrames.map Prod.snd)
    (hother : ∀ m ∈ others, m.owner ≠ some slot) (htable : σ'.table = σ.table)
    (hcounted : σ'.log.counted = σ.log.counted) (hdropped : σ'.frameDropped = σ.frameDropped)
    (hheld : ∀ s, s ∈ σ.claimed ∨ s ∈ σ.log.evicting ∧ σ.packetComplete s = true →
      s ∈ σ'.claimed ∨ s ∈ σ'.log.evicting ∧ σ'.packetComplete s = true)
    (hslot : slot ∈ σ'.claimed ∨ slot ∈ σ'.log.evicting ∧ σ'.packetComplete slot = true) :
    Tallied cfg σ' (.holding slot :: others) := by
  have hkept : Tallied cfg σ' (.none :: others) :=
    h.keep (htable ▸ h.coherent) (by rw [htable]) hcounted (fun f hf => hdropped ▸ hf) hheld
  refine ⟨hkept.coherent, hkept.frames, hkept.settled, ?_, ?_, ?_, ?_, ?_, ?_, ?_⟩
  · exact List.forall_mem_cons.mpr ⟨fun f hf => (nomatch hf), fun m hm =>
      hkept.marked m (List.mem_cons_of_mem _ hm)⟩
  · exact fun e he hunspent => hkept.unsettled e he (List.forall_mem_cons.mpr
      ⟨fun hs => (nomatch hs), fun m hm => hunspent m (List.mem_cons_of_mem _ hm)⟩)
  · rw [List.filterMap_cons_some (b := slot) (show Tally.owner _ = some slot from rfl)]
    refine List.nodup_cons.mpr ⟨fun howner => ?_, hkept.owners⟩
    obtain ⟨m, hm, hmowner⟩ := List.mem_filterMap.mp howner
    exact hother m hm hmowner
  · exact List.forall_mem_cons.mpr ⟨fun s hs => (nomatch hs), fun m hm =>
      hkept.spender m (List.mem_cons_of_mem _ hm)⟩
  · refine List.forall_mem_cons.mpr ⟨fun s hs => ?_, fun m hm =>
      hkept.held m (List.mem_cons_of_mem _ hm)⟩
    obtain rfl := Option.some.inj hs
    exact ⟨htable ▸ hin, hslot⟩
  · exact List.forall_mem_cons.mpr ⟨fun s f _ hf => (nomatch hf), fun m hm =>
      hkept.named m (List.mem_cons_of_mem _ hm)⟩
  · exact List.forall_mem_cons.mpr ⟨fun s hs => (nomatch hs), fun m hm =>
      hkept.restarts m (List.mem_cons_of_mem _ hm)⟩

/-- A completion counts the frame of its slot. -/
theorem complete (h : Tallied cfg σ (t :: others)) {slot : ℕ} {restart : Option ℕ}
    (ht : t = .holding slot)
    (hrestart : ∀ s, restart = some s → s = slot) (htable : σ'.table = σ.table)
    (hcounted : σ'.log.counted = σ.table.frameId slot :: σ.log.counted)
    (hdropped : σ'.frameDropped = σ.frameDropped) (hclaimed : σ'.claimed = σ.claimed)
    (hevicting : σ'.log.evicting = σ.log.evicting)
    (hcomplete : σ'.packetComplete = σ.packetComplete) :
    Tallied cfg σ' (⟨none, some slot, some slot, none, restart⟩ :: others) := by
  have howner : t.owner = some slot := by
    rw [ht]
    rfl
  have hspent : t.spent ≠ some slot := by
    rw [ht]
    exact fun hs => (nomatch hs)
  obtain ⟨hin, hslot⟩ := h.held t List.mem_cons_self slot howner
  obtain ⟨e, he, rfl⟩ := List.mem_map.mp hin
  have hframe : σ.table.frameId e.2 = e.1 := h.coherent.frameOf e he
  have hnew := h.unsettled_owner howner hspent he
  have htokens : (t :: others).filterMap Tally.token = others.filterMap Tally.token :=
    List.filterMap_cons_none (by rw [ht]; rfl)
  rw [htokens] at hnew
  refine ⟨htable ▸ h.coherent, htable ▸ h.frames, ?_, ?_, ?_, ?_, ?_, ?_, ?_, ?_⟩
  · rw [hcounted, hframe, List.filterMap_cons_none rfl]
    exact List.nodup_cons.mpr ⟨hnew, htokens ▸ h.settled⟩
  · rw [hdropped]
    exact List.forall_mem_cons.mpr ⟨fun f hf => (nomatch hf), fun m hm =>
      h.marked m (List.mem_cons_of_mem _ hm)⟩
  · rw [htable, hcounted, hframe, List.filterMap_cons_none rfl]
    intro g hg hunspent hsettled
    have hne : g.2 ≠ e.2 := fun hsame =>
      hunspent _ List.mem_cons_self (congrArg some hsame.symm)
    rcases List.mem_cons.mp hsettled with hsame | hsettled
    · exact hne (congrArg Prod.snd (List.inj_on_of_nodup_map h.frames hg he hsame))
    · refine h.unsettled g hg (List.forall_mem_cons.mpr ⟨fun hs => ?_, fun m hm => ?_⟩)
        (htokens.symm ▸ hsettled)
      · rw [ht] at hs
        cases hs
      · exact hunspent m (List.mem_cons_of_mem _ hm)
  · have howners := h.owners
    rw [List.filterMap_cons_some howner] at howners
    exact howners
  · exact List.forall_mem_cons.mpr ⟨fun s hs => hs, fun m hm =>
      h.spender m (List.mem_cons_of_mem _ hm)⟩
  · rw [htable, hclaimed, hevicting, hcomplete]
    refine List.forall_mem_cons.mpr ⟨fun s hs => ?_, fun m hm =>
      h.held m (List.mem_cons_of_mem _ hm)⟩
    obtain rfl := Option.some.inj hs
    exact ⟨hin, hslot⟩
  · rw [htable]
    exact List.forall_mem_cons.mpr ⟨fun s f _ hf => (nomatch hf), fun m hm =>
      h.named m (List.mem_cons_of_mem _ hm)⟩
  · refine List.forall_mem_cons.mpr ⟨fun s hs => ?_, fun m hm =>
      h.restarts m (List.mem_cons_of_mem _ hm)⟩
    rw [hrestart s hs]
    exact h.coherent.inRange e he

/-- The slot is free again. -/
theorem release (h : Tallied cfg σ (t :: others)) {slot : ℕ} (howner : t.owner = some slot)
    (htoken : t.token = none) (hidle : t' = .restarting t.restarts)
    (htable : σ'.table = (σ.table.releaseUnderLock cfg.toSlotConfig slot).2)
    (hcounted : σ'.log.counted = σ.log.counted) (hdropped : σ'.frameDropped = σ.frameDropped)
    (hclaimed : σ'.claimed = σ.claimed.erase slot)
    (hevicting : σ'.log.evicting = σ.log.evicting.erase slot)
    (hcomplete : σ'.packetComplete = σ.packetComplete) : Tallied cfg σ' (t' :: others) := by
  obtain ⟨hin, -⟩ := h.held t List.mem_cons_self slot howner
  obtain ⟨e, he, rfl⟩ := List.mem_map.mp hin
  have hrunning := runningFrames_releaseUnderLock h.coherent e.2
  rw [← htable] at hrunning
  have htokens : (t' :: others).filterMap Tally.token = (t :: others).filterMap Tally.token := by
    rw [List.filterMap_cons_none htoken, List.filterMap_cons_none (by rw [hidle]; rfl)]
  have hother := h.other_owner howner
  refine ⟨htable ▸ h.coherent.releaseUnderLock (h.coherent.inRange e he), ?_,
    hcounted ▸ htokens ▸ h.settled, ?_, ?_, ?_, ?_, ?_, ?_, ?_⟩
  · rw [hrunning]
    exact h.frames.sublist (List.filter_sublist.map _)
  · rw [hdropped, hidle]
    exact List.forall_mem_cons.mpr ⟨fun f hf => (nomatch hf), fun m hm =>
      h.marked m (List.mem_cons_of_mem _ hm)⟩
  · rw [hrunning, hcounted, htokens]
    intro g hg hunspent
    obtain ⟨hg, hne⟩ := List.mem_filter.mp hg
    refine h.unsettled g hg (List.forall_mem_cons.mpr ⟨fun hs => ?_, fun m hm =>
      hunspent m (List.mem_cons_of_mem _ hm)⟩)
    have hsame := h.spender t List.mem_cons_self g.2 hs
    exact of_decide_eq_true hne (Option.some.inj (hsame.symm.trans howner))
  · have howners := h.owners
    rw [List.filterMap_cons_some howner] at howners
    rw [List.filterMap_cons_none (by rw [hidle]; rfl)]
    exact (List.nodup_cons.mp howners).2
  · rw [hidle]
    exact List.forall_mem_cons.mpr ⟨fun s hs => (nomatch hs), fun m hm =>
      h.spender m (List.mem_cons_of_mem _ hm)⟩
  · rw [hrunning, hclaimed, hevicting, hcomplete, hidle]
    refine List.forall_mem_cons.mpr ⟨fun s hs => (nomatch hs), fun m hm s hs => ?_⟩
    have hne : s ≠ e.2 := fun hsame => hother m hm (hsame ▸ hs)
    obtain ⟨hsin, hheld⟩ := h.held m (List.mem_cons_of_mem _ hm) s hs
    obtain ⟨g, hg, rfl⟩ := List.mem_map.mp hsin
    refine ⟨List.mem_map_of_mem (List.mem_filter.mpr ⟨hg, decide_eq_true hne⟩), ?_⟩
    rw [List.mem_erase_of_ne hne, List.mem_erase_of_ne hne]
    exact hheld
  · rw [hrunning, hidle]
    refine List.forall_mem_cons.mpr ⟨fun s f hs => (nomatch hs), fun m hm s f hs hf => ?_⟩
    have hne : s ≠ e.2 := fun hsame => hother m hm (hsame ▸ hs)
    exact List.mem_filter.mpr ⟨h.named m (List.mem_cons_of_mem _ hm) s f hs hf, decide_eq_true hne⟩
  · rw [hidle]
    exact List.forall_mem_cons.mpr ⟨h.restarts t List.mem_cons_self, fun m hm =>
      h.restarts m (List.mem_cons_of_mem _ hm)⟩

end Tallied

/-! ## Runs -/

def FlowPhase.tally (l : FlowPhase) : Tally := l.stage.tally

def TallyInv (cfg : FlowConfig) (σ : Flow) (ls : List FlowPhase) : Prop :=
  Tallied cfg σ (ls.map FlowPhase.tally)

section Runs

variable {cfg : FlowConfig} {σ σ' : Flow} {l l' : FlowPhase} {others : List FlowPhase}

theorem TallyInv.perm {ls ls' : List FlowPhase} (h : TallyInv cfg σ ls) (hp : ls.Perm ls') :
    TallyInv cfg σ ls' :=
  Tallied.perm h (hp.map _)

/-- A step after which the thread owes what it owed before. -/
theorem TallyInv.stay (h : TallyInv cfg σ (l :: others)) (htally : l'.tally = l.tally)
    (hcoherent : Coherent cfg.toSlotConfig σ'.table)
    (hrunning : σ'.table.runningFrames = σ.table.runningFrames)
    (hcounted : σ'.log.counted = σ.log.counted) (hdropped : σ'.frameDropped = σ.frameDropped)
    (hclaimed : σ'.claimed = σ.claimed) (hevicting : σ'.log.evicting = σ.log.evicting)
    (hcomplete : ∀ slot, σ.packetComplete slot = true → σ'.packetComplete slot = true) :
    TallyInv cfg σ' (l' :: others) := by
  have hkept : TallyInv cfg σ' (l :: others) := by
    refine Tallied.keep h hcoherent hrunning hcounted (fun f hf => hdropped ▸ hf) ?_
    rw [hclaimed, hevicting]
    exact fun slot hheld => hheld.imp_right fun hin => ⟨hin.1, hcomplete slot hin.2⟩
  unfold TallyInv at hkept ⊢
  rwa [List.map_cons, htally]

/-- A step that neither counts, marks, claims nor releases leaves the thread's debts alone. -/
theorem tally_dispatched (s : Stage) {slot : ℕ} {slots : List ℕ} (hdue : s.due = slot :: slots) :
    s.dispatched.tally = s.tally := by
  cases s with
  | promoted next restart =>
    cases restart with
    | none => rfl
    | some again => rfl
  | assigning owed =>
    obtain rfl : owed = slot :: slots := hdue
    cases slots with
    | nil => rfl
    | cons s rest => rfl
  | dispatching owed =>
    obtain rfl : owed = slot :: slots := hdue
    cases slots with
    | nil => rfl
    | cons s rest => rfl
  | starting p s => rfl
  | restarted s => rfl
  | _ => cases hdue

theorem tally_assigned {frame : ℕ} {site : Site} {s : Stage} (hasks : s.Asks frame site)
    (start : Bool) (slot : ℕ) : (s.assigned start slot).tally = s.tally := by
  cases site with
  | packet =>
    obtain ⟨p, rfl, -⟩ := hasks
    cases start with
    | true => rfl
    | false => rfl
  | preparation =>
    obtain ⟨slots, rfl, -⟩ := hasks
    rfl

theorem tally_unassigned {frame : ℕ} {site : Site} {s : Stage} (hasks : s.Asks frame site) :
    s.unassigned.tally = s.tally := by
  cases site with
  | packet =>
    obtain ⟨p, rfl, -⟩ := hasks
    rfl
  | preparation =>
    obtain ⟨slots, rfl, -⟩ := hasks
    rfl

theorem TallyInv.assign (h : TallyInv cfg σ (l :: others)) {frame : ℕ} {site : Site}
    (hasks : l.stage.Asks frame site)
    (hok : frame ∈ σ.table.runningFrames.map Prod.fst ∨ ¬ Finished σ frame) :
    TallyInv cfg (Flow.assignUnderLock cfg frame site σ).2
      ((flowDiscipline cfg).next l (.assignUnderLock frame site)
        (Flow.assignUnderLock cfg frame site σ).1 :: others) := by
  have htally : ∀ r, ((flowDiscipline cfg).next l (.assignUnderLock frame site) r).tally =
      l.tally := by
    intro r
    cases r with
    | none => exact tally_unassigned hasks
    | some seat => exact tally_assigned hasks _ _
  have hcoherent : Coherent cfg.toSlotConfig (Flow.assignUnderLock cfg frame site σ).2.table := by
    rw [Flow.assignUnderLock_table]
    exact Tallied.coherent h |>.assignUnderLock frame
  have hseats := assignUnderLock_seats (Tallied.coherent h) frame
  have hcounted : (Flow.assignUnderLock cfg frame site σ).2.log.counted = σ.log.counted := by
    rw [Flow.assignUnderLock_log]
  have hevicting : (Flow.assignUnderLock cfg frame site σ).2.log.evicting = σ.log.evicting := by
    rw [Flow.assignUnderLock_log]
  have hstay : (Flow.assignUnderLock cfg frame site σ).2.table.runningFrames =
      σ.table.runningFrames → TallyInv cfg (Flow.assignUnderLock cfg frame site σ).2
        ((flowDiscipline cfg).next l (.assignUnderLock frame site)
          (Flow.assignUnderLock cfg frame site σ).1 :: others) := fun hrunning =>
    h.stay (htally _) hcoherent hrunning hcounted (by rw [Flow.assignUnderLock_eq])
      (by rw [Flow.assignUnderLock_eq]) hevicting
      (by rw [Flow.assignUnderLock_eq]; exact fun _ hs => hs)
  rcases hseats with hnone | ⟨slot, -, hfound⟩ | ⟨slot, newly, d, hseat, hs⟩
  · exact hstay (by rw [Flow.assignUnderLock_table, hnone])
  · exact hstay (by rw [Flow.assignUnderLock_table, hfound])
  · have hnew : ¬ Finished σ frame := hok.resolve_left hs.fresh
    have hrunning : (Flow.assignUnderLock cfg frame site σ).2.table.runningFrames =
        σ.table.runningFrames ++ [(frame, slot)] := by
      rw [Flow.assignUnderLock_table, hseat]
      exact hs.running
    unfold TallyInv
    rw [List.map_cons, htally]
    exact Tallied.seat h hs.fresh hnew hcoherent hrunning hcounted
      (by rw [Flow.assignUnderLock_eq]) (by rw [Flow.assignUnderLock_eq]) hevicting
      (by rw [Flow.assignUnderLock_eq])

/-- The victim of an overflow that was not marked before. -/
theorem TallyInv.park (h : TallyInv cfg σ (l :: others)) {p : Packet}
    (hstage : l.stage = .parking p)
    (hok : ∀ victim ∈ (Flow.park cfg p σ).1,
      victim ∉ σ.table.runningFrames.map Prod.fst ∧ victim ∉ σ.log.counted) :
    TallyInv cfg (Flow.park cfg p σ).2
      ((flowDiscipline cfg).next l (.park p) (Flow.park cfg p σ).1 :: others) := by
  have htally : l.tally = .none := by
    unfold FlowPhase.tally
    rw [hstage]
    rfl
  have h' := h
  unfold TallyInv at h'
  rw [List.map_cons, htally] at h'
  unfold Flow.park at hok ⊢
  by_cases hfull : cfg.framePackets * cfg.slots ≤ σ.pending.length
  · simp only [if_pos hfull] at hok ⊢
    by_cases hvictim : Flow.victimOf σ.pending p.frame < cfg.trackable ∧
        σ.frameDropped (Flow.victimOf σ.pending p.frame) = false
    · simp only [if_pos hvictim, if_pos hvictim.1] at hok ⊢
      obtain ⟨hrunning, hcounted⟩ := hok _ rfl
      refine Tallied.mark h' rfl (rfl : _ = some (Flow.victimOf σ.pending p.frame)) rfl
        (fun _ hs => hs) (fun _ hs => (nomatch hs)) rfl rfl ?_ ?_ h'.coherent rfl rfl rfl rfl rfl
        rfl
      · intro hin
        rcases List.mem_append.mp hin with hin | hin
        · exact hcounted hin
        · obtain ⟨t, ht, htoken⟩ := List.mem_filterMap.mp hin
          have hmarked := h'.marked t ht _ htoken
          rw [hvictim.2] at hmarked
          cases hmarked
      · exact fun e he hsame => absurd (List.mem_map.mpr ⟨e, he, hsame⟩) hrunning
    · simp only [if_neg hvictim]
      refine Tallied.keep h' h'.coherent rfl rfl (fun f hf => ?_) fun _ hs => hs
      dsimp only
      split
      · by_cases hsame : f = Flow.victimOf σ.pending p.frame
        · rw [hsame]
          exact Function.update_self ..
        · rwa [Function.update_of_ne hsame]
      · exact hf
  · simp only [if_neg hfull]
    exact Tallied.keep h' h'.coherent rfl rfl (fun _ hf => hf) fun _ hs => hs

theorem TallyInv.swapDropped (h : TallyInv cfg σ (l :: others)) {slot frame : ℕ}
    (hstage : l.stage = .marking slot frame) :
    TallyInv cfg (Flow.swapDropped frame σ).2
      (l.swapped frame (Flow.swapDropped frame σ).1 :: others) := by
  obtain ⟨todo, s⟩ := l
  obtain rfl : s = .marking slot frame := hstage
  have hin := Tallied.named h _ List.mem_cons_self slot frame rfl rfl
  have hcoherent := Tallied.coherent h
  have hdropped : ∀ f, σ.frameDropped f = true →
      (Flow.swapDropped frame σ).2.frameDropped f = true := by
    intro f hf
    by_cases hsame : f = frame
    · rw [hsame]
      exact Function.update_self ..
    · exact (Function.update_of_ne hsame ..).trans hf
  cases hmarked : (Flow.swapDropped frame σ).1 with
  | true =>
    refine Tallied.advance (t := .mk none (some slot) none (some frame) none)
      (Tallied.keep h hcoherent rfl rfl hdropped fun _ hs => hs) rfl rfl
      (fun _ hs => (nomatch hs)) (fun _ hs => hs) (fun _ _ _ hf => (nomatch hf))
      fun _ hs => (nomatch hs)
  | false =>
    refine Tallied.mark (t := .mk none (some slot) none (some frame) none) h rfl
      rfl rfl (fun _ hs => (nomatch hs)) (fun _ hs => hs) rfl rfl
      (Tallied.unsettled_owner h rfl (fun hs => (nomatch hs)) hin) ?_ hcoherent rfl rfl rfl rfl rfl
      rfl
    intro e he hsame
    have heq := List.inj_on_of_nodup_map (Tallied.frames h) he hin hsame
    exact congrArg (fun e : ℕ × ℕ => some e.2) heq.symm

theorem TallyInv.countDropped (h : TallyInv cfg σ (l :: others)) {frame : ℕ}
    (hstage : l.stage = .marked frame ∨ ∃ slot, l.stage = .evicted slot frame) :
    TallyInv cfg
      { σ with
        frameCompleteCounter := σ.frameCompleteCounter + 1
        log := { σ.log with counted := frame :: σ.log.counted } }
      (l.countedDropped :: others) := by
  obtain ⟨todo, s⟩ := l
  have hcoherent := Tallied.coherent h
  rcases hstage with hs | ⟨slot, hs⟩
  · obtain rfl : s = .marked frame := hs
    exact Tallied.spend h rfl rfl rfl rfl rfl rfl hcoherent rfl rfl rfl rfl rfl rfl
  · obtain rfl : s = .evicted slot frame := hs
    exact Tallied.spend h rfl rfl rfl rfl rfl rfl hcoherent rfl rfl rfl rfl rfl rfl

theorem TallyInv.claimCompletion (h : TallyInv cfg σ (.idle :: others)) {slot : ℕ}
    (hclaim : Flow.Claimable cfg slot σ) (hok : slot ∉ σ.log.evicting) :
    TallyInv cfg { σ with claimed := slot :: σ.claimed }
      (⟨[], .claimed slot⟩ :: others) := by
  refine Tallied.claim h hclaim.1 (fun m hm howner => ?_) rfl rfl rfl
    (fun s hs => hs.imp_left (List.mem_cons_of_mem _)) (.inl List.mem_cons_self)
  rcases (Tallied.held h m (List.mem_cons_of_mem _ hm) slot howner).2 with hclaimed | hevicting
  · exact hclaim.2.2.2 hclaimed
  · exact hok hevicting.1

theorem TallyInv.claimEviction (h : TallyInv cfg σ (.idle :: others)) {slot : ℕ}
    (hopen : σ.packetComplete slot = false)
    (hok : slot ∈ σ.table.runningFrames.map Prod.snd ∧ slot ∉ σ.claimed) :
    TallyInv cfg
      { σ with
        packetComplete := Function.update σ.packetComplete slot true
        log := { σ.log with evicting := slot :: σ.log.evicting } }
      (⟨[], .evicting slot⟩ :: others) := by
  refine Tallied.claim h hok.1 (fun m hm howner => ?_) rfl rfl rfl (fun s hs => ?_)
    (.inr ⟨List.mem_cons_self, Function.update_self ..⟩)
  · rcases (Tallied.held h m (List.mem_cons_of_mem _ hm) slot howner).2 with hclaimed | hevicting
    · exact hok.2 hclaimed
    · rw [hopen] at hevicting
      exact absurd hevicting.2 Bool.false_ne_true
  · refine hs.imp_right fun hs => ⟨List.mem_cons_of_mem _ hs.1, ?_⟩
    by_cases hsame : s = slot
    · rw [hsame]
      exact Function.update_self ..
    · exact (Function.update_of_ne hsame ..).trans hs.2

theorem TallyInv.loadFrameId (h : TallyInv cfg σ (l :: others)) {slot : ℕ}
    (hstage : l.stage = .evicting slot) :
    TallyInv cfg σ ({ l with stage := .marking slot (σ.table.frameId slot) } :: others) := by
  obtain ⟨todo, s⟩ := l
  obtain rfl : s = .evicting slot := hstage
  have hcoherent := Tallied.coherent h
  obtain ⟨e, he, rfl⟩ := List.mem_map.mp (Tallied.held h _ List.mem_cons_self slot rfl).1
  refine Tallied.advance h rfl rfl (fun _ hs => (nomatch hs)) (fun _ hs => (nomatch hs)) ?_
    fun _ hs => (nomatch hs)
  intro slot frame howner hname
  obtain rfl := Option.some.inj howner
  obtain rfl := Option.some.inj hname
  rw [hcoherent.frameOf e he]
  exact he

theorem TallyInv.resetCounters (h : TallyInv cfg σ (l :: others)) {slot : ℕ}
    (hstage : l.stage = .claimed slot ∨ l.stage = .spent slot ∨
      ∃ frame, l.stage = .marking slot frame) :
    TallyInv cfg (Flow.resetCounters slot σ) (l.resetDone slot :: others) := by
  have hclaims : slot ∈ (Flow.resetCounters slot σ).claimed := by
    unfold Flow.resetCounters
    dsimp only
    split
    · assumption
    · exact List.mem_cons_self
  have hcoherent : Coherent cfg.toSlotConfig (Flow.resetCounters slot σ).table :=
    ⟨(Tallied.coherent h).inRange, (Tallied.coherent h).lastInRange,
      (Tallied.coherent h).inactive_iff, (Tallied.coherent h).distinct,
      (Tallied.coherent h).bitmap, (Tallied.coherent h).frameOf, (Tallied.coherent h).noFrame⟩
  have hkept : TallyInv cfg (Flow.resetCounters slot σ) (l :: others) := by
    refine Tallied.keep h hcoherent rfl rfl (fun _ hf => hf) fun s hs => ?_
    by_cases hsame : s = slot
    · exact .inl (hsame ▸ hclaims)
    · refine hs.imp (fun hs => ?_) fun hs => ⟨hs.1, (Function.update_of_ne hsame ..).trans hs.2⟩
      unfold Flow.resetCounters
      dsimp only
      split
      · exact hs
      · exact List.mem_cons_of_mem _ hs
  obtain ⟨todo, s⟩ := l
  rcases hstage with hs | hs | ⟨frame, hs⟩
  · obtain rfl : s = .claimed slot := hs
    exact hkept
  · obtain rfl : s = .spent slot := hs
    exact hkept
  · obtain rfl : s = .marking slot frame := hs
    exact Tallied.advance hkept rfl rfl (fun _ hs => (nomatch hs)) (fun _ hs => hs)
      (fun _ _ _ hf => (nomatch hf)) fun _ hs => (nomatch hs)

theorem TallyInv.countCompletion (h : TallyInv cfg σ (l :: others)) {slot : ℕ}
    (hstage : l.stage = .reset slot) (rivals total : ℕ) :
    TallyInv cfg (Flow.countCompletion cfg slot rivals σ).2
      ({ l with stage := .counted slot (restartOf cfg slot total) } :: others) := by
  obtain ⟨todo, s⟩ := l
  obtain rfl : s = .reset slot := hstage
  refine Tallied.complete h rfl (fun s hs => ?_) rfl rfl rfl rfl rfl rfl
  unfold restartOf at hs
  split at hs
  · exact (Option.some.inj hs).symm
  · cases hs

theorem TallyInv.release (h : TallyInv cfg σ (l :: others)) {slot : ℕ} {restart : Option ℕ}
    (hstage : l.stage = .counted slot restart) (promoted : Option ℕ) :
    TallyInv cfg (Flow.releaseUnderLock cfg slot σ).2 (l.released cfg promoted :: others) := by
  obtain ⟨todo, s⟩ := l
  obtain rfl : s = .counted slot restart := hstage
  have htally : (FlowPhase.released cfg ⟨todo, .counted slot restart⟩ promoted).tally =
      .restarting restart := by
    have hafter : (Stage.afterRelease restart).tally = .restarting restart := by
      cases restart with
      | none => rfl
      | some again => rfl
    cases promoted with
    | none => exact hafter
    | some next =>
      unfold FlowPhase.released FlowPhase.tally
      dsimp only
      split
      · rfl
      · exact hafter
  refine Tallied.release h rfl rfl htally ?_ ?_ ?_ ?_ ?_ ?_
  · exact Flow.releaseUnderLock_table ..
  · rw [Flow.releaseUnderLock_log]
  · rw [Flow.releaseUnderLock_eq]
  · rw [Flow.releaseUnderLock_eq]
  · rw [Flow.releaseUnderLock_log]
  · rw [Flow.releaseUnderLock_eq]

theorem TallyInv.restart (h : TallyInv cfg σ (l :: others)) {slot : ℕ}
    (hstage : l.stage = .waiting slot) (hcompute : cfg.hasNetwork = false)
    (hslot : slot ∉ σ.table.runningFrames.map Prod.snd)
    (hframe : σ.nextFrameId cfg ∉ σ.table.runningFrames.map Prod.fst)
    (hnew : ¬ Finished σ (σ.nextFrameId cfg)) :
    TallyInv cfg (Flow.restartUnderLock cfg slot σ)
      ({ l with stage := if cfg.hasInitialNodes then .restarted slot else .ready } :: others) := by
  obtain ⟨todo, s⟩ := l
  obtain rfl : s = .waiting slot := hstage
  have hcoherent := Tallied.coherent h
  have hlt := Tallied.restarts h _ List.mem_cons_self slot rfl
  have hidle : ∀ roots : Bool, (if roots = true then Stage.restarted slot else .ready).tally =
      .none := by
    intro roots
    cases roots with
    | true => rfl
    | false => rfl
  have hadvanced : TallyInv cfg σ
      (⟨todo, if cfg.hasInitialNodes then .restarted slot else .ready⟩ :: others) := by
    unfold TallyInv
    rw [List.map_cons, FlowPhase.tally, hidle]
    exact Tallied.advance h rfl rfl (fun _ hs => (nomatch hs)) (fun _ hs => (nomatch hs))
      (fun _ _ hs => (nomatch hs)) fun _ hs => (nomatch hs)
  have hrunning : (Flow.restartUnderLock cfg slot σ).table.runningFrames =
      σ.table.runningFrames ++ [(σ.nextFrameId cfg, slot)] := by
    simp only [Flow.restartUnderLock, SlotData.restartSlotNonnetwork, hcompute, Bool.false_eq_true,
      if_false]
    rfl
  exact Tallied.seat hadvanced hframe hnew
    (hcoherent.restart hlt _ fun _ => (hcoherent.inactive_iff slot hlt).mpr hslot)
    hrunning rfl rfl rfl rfl rfl

theorem tallyInv_start (cfg : FlowConfig) (threads : ℕ) :
    TallyInv cfg .initial (List.replicate threads .idle) := by
  have hnone : ∀ t ∈ (List.replicate threads FlowPhase.idle).map FlowPhase.tally, t = .none := by
    intro t ht
    obtain ⟨l, hl, rfl⟩ := List.mem_map.mp ht
    rw [List.eq_of_mem_replicate hl]
    rfl
  have hempty : ∀ {f : Tally → Option ℕ}, f .none = none →
      ((List.replicate threads FlowPhase.idle).map FlowPhase.tally).filterMap f = [] :=
    fun hf => List.filterMap_eq_nil_iff.mpr fun t ht => by rw [hnone t ht, hf]
  refine ⟨coherent_initial _, .nil, ?_, ?_, fun e he => (nomatch he), ?_, ?_, ?_, ?_, ?_⟩
  · rw [hempty rfl]
    exact .nil
  · intro t ht frame hframe
    rw [hnone t ht] at hframe
    cases hframe
  · rw [hempty rfl]
    exact .nil
  · intro t ht slot hs
    rw [hnone t ht] at hs
    cases hs
  · intro t ht slot hs
    rw [hnone t ht] at hs
    cases hs
  · intro t ht slot frame hs
    rw [hnone t ht] at hs
    cases hs
  · intro t ht slot hs
    rw [hnone t ht] at hs
    cases hs

end Runs

end Tomii.Slots
