import Tomii.Slots.FrameCounts

/-! # Admission against promotion

A packet that has a slot goes to the active batch or to the slot's buffer, and the buffer is drained
when the slot is promoted. The bit is checked again under `states.read()`, so a promotion cannot come
between; a release can, and leaves the packet in the buffer of a slot that is `Inactive`. -/
namespace Tomii.Slots
set_option autoImplicit false
set_option maxHeartbeats 250000

/-- A slot is released when no packet holds its number. -/
def ReleasesUnused (σ : Flow) (_ : ℕ) : FlowAct → Prop
  | .releaseUnderLock slot => slot ∉ σ.log.carried
  | _ => True

instance (σ : Flow) (choice : ℕ) (a : FlowAct) : Decidable (ReleasesUnused σ choice a) := by
  induction a using FlowAct.casesOn with
  | releaseUnderLock slot => exact inferInstanceAs (Decidable (slot ∉ σ.log.carried))
  | _ => exact .isTrue trivial

/-- The packets in the buffers of all slots. -/
def SlotData.buffered (cfg : SlotConfig) (d : SlotData) : List NodeInfo :=
  (List.range cfg.slots).flatMap d.buffers

theorem count_flatMap_update {α : Type} [BEq α] (f : ℕ → List α) {n s : ℕ} (hs : s < n)
    (xs : List α) (a : α) :
    ((List.range n).flatMap (Function.update f s xs)).count a + (f s).count a =
      ((List.range n).flatMap f).count a + xs.count a := by
  have hother : ∀ m ≤ s, (List.range m).flatMap (Function.update f s xs) = (List.range m).flatMap f :=
    fun m hm => List.flatMap_congr fun i hi =>
      Function.update_of_ne (by have := List.mem_range.mp hi; omega) ..
  induction n with
  | zero => omega
  | succ n ih =>
    simp only [List.range_succ, List.flatMap_append, List.flatMap_singleton, List.count_append]
    by_cases hsame : s = n
    · subst hsame
      rw [hother s le_rfl, Function.update_self]
      omega
    · rw [Function.update_of_ne (Ne.symm hsame)]
      have := ih (by omega)
      omega

theorem count_cons_packet (ni : NodeInfo) (nis : List NodeInfo) (a : NodeInfo) :
    (ni :: nis).count a = nis.count a + [ni].count a := by
  rw [← List.singleton_append, List.count_append, Nat.add_comm]

namespace Stage

/-- The slot whose number the packet holds, until it is in a batch or a buffer. -/
def carries : Stage → Option ℕ
  | .starting _ slot | .seated _ slot => some slot
  | .routing ni => some ni.slot
  | _ => none

/-- The admitted packet that is neither in a batch nor in a buffer. -/
def routes : Stage → Option NodeInfo
  | .routing ni => some ni
  | _ => none

end Stage

namespace FlowPhase

def carries (l : FlowPhase) : Option ℕ := l.stage.carries

def routes (l : FlowPhase) : Option NodeInfo := l.stage.routes

end FlowPhase

/-- Every admitted packet is in one place, and only slots that are `Buffering` have any in their
buffers; slots whose number a packet holds, or that a thread finishes, are in use. -/
structure Routed (cfg : FlowConfig) (σ : Flow) (ls : List FlowPhase) : Prop where
  coherent : Coherent cfg.toSlotConfig σ.table
  sound : MapSound cfg.toSlotConfig σ.table.runningFrames σ.table.frameSlotMap
  places : ∀ ni, (σ.log.admitted.map Prod.snd).count ni = σ.log.batched.count ni +
    σ.log.drained.count ni + (σ.table.buffered cfg.toSlotConfig).count ni +
      (ls.filterMap FlowPhase.routes).count ni
  waiting : ∀ s, σ.table.buffers s ≠ [] → s < cfg.slots ∧ σ.table.states s = .buffering
  queues : ∀ s, σ.table.states s = .buffering → cfg.slotPriorityEnabled = true
  carried : σ.log.carried.Perm (ls.filterMap FlowPhase.carries)
  inUse : ∀ s ∈ σ.log.carried, s ∈ σ.table.runningFrames.map Prod.snd
  owners : (ls.filterMap FlowPhase.owner).Nodup
  owned : ∀ l ∈ ls, ∀ s, l.owner = some s → s ∈ σ.claimed ∧
    s ∈ σ.table.runningFrames.map Prod.snd ∧ σ.table.states s = .active

namespace Routed

variable {cfg : FlowConfig} {σ σ' : Flow} {l l' : FlowPhase} {ls ls' others : List FlowPhase}

theorem perm (h : Routed cfg σ ls) (hp : ls.Perm ls') : Routed cfg σ ls' where
  coherent := h.coherent
  sound := h.sound
  places ni := by
    rw [h.places ni, (hp.filterMap FlowPhase.routes).count_eq]
  waiting := h.waiting
  queues := h.queues
  carried := h.carried.trans (hp.filterMap _)
  inUse := h.inUse
  owners := (hp.filterMap FlowPhase.owner).nodup_iff.mp h.owners
  owned l hl := h.owned l (hp.mem_iff.mpr hl)

/-- A step that moves no packet and changes no slot. -/
theorem stay (h : Routed cfg σ (l :: others)) (hcoherent : Coherent cfg.toSlotConfig σ'.table)
    (hrunning : σ'.table.runningFrames = σ.table.runningFrames)
    (hmap : σ'.table.frameSlotMap = σ.table.frameSlotMap)
    (hstates : σ'.table.states = σ.table.states) (hbuffers : σ'.table.buffers = σ.table.buffers)
    (hadmitted : σ'.log.admitted = σ.log.admitted) (hbatched : σ'.log.batched = σ.log.batched)
    (hdrained : σ'.log.drained = σ.log.drained) (hcarried : σ'.log.carried = σ.log.carried)
    (hclaimed : σ.claimed ⊆ σ'.claimed) (hroutes : l'.routes = l.routes)
    (hcarries : l'.carries = l.carries) (howner : l'.owner = l.owner) :
    Routed cfg σ' (l' :: others) := by
  have hsame : ∀ {β : Type} {f : FlowPhase → Option β}, f l' = f l →
      (l' :: others).filterMap f = (l :: others).filterMap f := fun hf => by
    rw [List.filterMap_cons, List.filterMap_cons, hf]
  refine ⟨hcoherent, by rw [hrunning, hmap]; exact h.sound, fun ni => ?_, ?_, ?_, ?_, ?_, ?_, ?_⟩
  · rw [hadmitted, hbatched, hdrained, hsame hroutes, SlotData.buffered, hbuffers]
    exact h.places ni
  · rw [hbuffers, hstates]
    exact h.waiting
  · rw [hstates]
    exact h.queues
  · rw [hcarried, hsame hcarries]
    exact h.carried
  · rw [hcarried, hrunning]
    exact h.inUse
  · rw [hsame howner]
    exact h.owners
  · rw [hrunning, hstates]
    refine List.forall_mem_cons.mpr ⟨fun s hs => ?_, fun m hm s hs => ?_⟩
    · rw [howner] at hs
      exact (h.owned l List.mem_cons_self s hs).imp_left fun hin => hclaimed hin
    · exact (h.owned m (List.mem_cons_of_mem _ hm) s hs).imp_left fun hin => hclaimed hin

/-- The slot of a packet is in use. -/
theorem slot_inUse (h : Routed cfg σ (l :: others)) {slot : ℕ} (hcarries : l.carries = some slot) :
    slot ∈ σ.log.carried ∧ slot ∈ σ.table.runningFrames.map Prod.snd := by
  have hin : slot ∈ σ.log.carried :=
    h.carried.mem_iff.mpr (List.mem_filterMap.mpr ⟨l, List.mem_cons_self, hcarries⟩)
  exact ⟨hin, h.inUse slot hin⟩

theorem carried_erase (h : Routed cfg σ (l :: others)) {slot : ℕ} (hcarries : l.carries = some slot)
    (hdone : l'.carries = none) :
    (σ.log.carried.erase slot).Perm ((l' :: others).filterMap FlowPhase.carries) := by
  have hcarried := h.carried
  rw [List.filterMap_cons_some hcarries] at hcarried
  rw [List.filterMap_cons_none hdone]
  exact (hcarried.erase slot).trans (by rw [List.erase_cons_head])

/-- The packet has a slot that is in use. -/
theorem seat (h : Routed cfg σ (l :: others)) (slot : ℕ)
    (hcoherent : Coherent cfg.toSlotConfig σ'.table)
    (hsound : MapSound cfg.toSlotConfig σ'.table.runningFrames σ'.table.frameSlotMap)
    (hgrows : ∀ e ∈ σ.table.runningFrames, e ∈ σ'.table.runningFrames)
    (hstates : ∀ s, σ.table.states s ≠ .inactive → σ'.table.states s = σ.table.states s)
    (hqueues : ∀ s, σ'.table.states s = .buffering → cfg.slotPriorityEnabled = true)
    (hbuffers : σ'.table.buffers = σ.table.buffers)
    (hadmitted : σ'.log.admitted = σ.log.admitted) (hbatched : σ'.log.batched = σ.log.batched)
    (hdrained : σ'.log.drained = σ.log.drained) (hclaimed : σ'.claimed = σ.claimed)
    (hcarried : σ'.log.carried = σ.log.carried ∧ l'.carries = l.carries ∨
      σ'.log.carried = slot :: σ.log.carried ∧ l'.carries = some slot ∧ l.carries = none ∧
        slot ∈ σ'.table.runningFrames.map Prod.snd)
    (hroutes : l'.routes = l.routes) (howner : l'.owner = l.owner) :
    Routed cfg σ' (l' :: others) := by
  have hsame : ∀ {β : Type} {f : FlowPhase → Option β}, f l' = f l →
      (l' :: others).filterMap f = (l :: others).filterMap f := fun hf => by
    rw [List.filterMap_cons, List.filterMap_cons, hf]
  have hkept : ∀ s, s ∈ σ.table.runningFrames.map Prod.snd →
      s ∈ σ'.table.runningFrames.map Prod.snd := by
    intro s hs
    obtain ⟨e, he, rfl⟩ := List.mem_map.mp hs
    exact List.mem_map_of_mem (hgrows e he)
  refine ⟨hcoherent, hsound, fun ni => ?_, fun s hs => ?_, hqueues, ?_, ?_, ?_, ?_⟩
  · rw [hadmitted, hbatched, hdrained, hsame hroutes, SlotData.buffered, hbuffers]
    exact h.places ni
  · rw [hbuffers] at hs
    obtain ⟨hlt, hbuffering⟩ := h.waiting s hs
    exact ⟨hlt, (hstates s (by rw [hbuffering]; decide)).trans hbuffering⟩
  · rcases hcarried with ⟨hlog, hphase⟩ | ⟨hlog, hnew, hold, -⟩
    · rw [hlog, hsame hphase]
      exact h.carried
    · have hbefore := h.carried
      rw [List.filterMap_cons_none hold] at hbefore
      rw [hlog, List.filterMap_cons_some hnew]
      exact hbefore.cons slot
  · rcases hcarried with ⟨hlog, -⟩ | ⟨hlog, -, -, hin⟩
    · rw [hlog]
      exact fun s hs => hkept s (h.inUse s hs)
    · rw [hlog]
      exact List.forall_mem_cons.mpr ⟨hin, fun s hs => hkept s (h.inUse s hs)⟩
  · rw [hsame howner]
    exact h.owners
  · have hstay : ∀ m ∈ l :: others, ∀ s, m.owner = some s → s ∈ σ'.claimed ∧
        s ∈ σ'.table.runningFrames.map Prod.snd ∧ σ'.table.states s = .active := by
      intro m hm s hs
      obtain ⟨hin, hrun, hactive⟩ := h.owned m hm s hs
      exact ⟨hclaimed ▸ hin, hkept s hrun,
        (hstates s (by rw [hactive]; decide)).trans hactive⟩
    refine List.forall_mem_cons.mpr ⟨fun s hs => ?_, fun m hm => hstay m (List.mem_cons_of_mem _ hm)⟩
    rw [howner] at hs
    exact hstay l List.mem_cons_self s hs

/-- The packet is in the batch of its thread, or in the buffer of its slot. -/
theorem settle (h : Routed cfg σ (l :: others)) {ni : NodeInfo} (hroutes : l.routes = some ni)
    (hcarries : l.carries = some ni.slot) (howner : l'.owner = l.owner) (hdone : l'.routes = none)
    (hfree : l'.carries = none) (hcoherent : Coherent cfg.toSlotConfig σ'.table)
    (hrunning : σ'.table.runningFrames = σ.table.runningFrames)
    (hmap : σ'.table.frameSlotMap = σ.table.frameSlotMap)
    (hstates : σ'.table.states = σ.table.states)
    (hplaces : ∀ a, σ'.log.batched.count a + (σ'.table.buffered cfg.toSlotConfig).count a =
      σ.log.batched.count a + (σ.table.buffered cfg.toSlotConfig).count a + [ni].count a)
    (hwaiting : ∀ s, σ'.table.buffers s ≠ [] → s < cfg.slots ∧ σ.table.states s = .buffering)
    (hadmitted : σ'.log.admitted = σ.log.admitted) (hdrained : σ'.log.drained = σ.log.drained)
    (hcarried : σ'.log.carried = σ.log.carried.erase ni.slot) (hclaimed : σ'.claimed = σ.claimed) :
    Routed cfg σ' (l' :: others) := by
  refine ⟨hcoherent, by rw [hrunning, hmap]; exact h.sound, fun a => ?_, ?_, ?_, ?_, ?_, ?_, ?_⟩
  · have hbefore := h.places a
    have hmoved := hplaces a
    rw [List.filterMap_cons_some hroutes, count_cons_packet _ (others.filterMap _)] at hbefore
    rw [hadmitted, hdrained, List.filterMap_cons_none hdone]
    omega
  · rw [hstates]
    exact hwaiting
  · rw [hstates]
    exact h.queues
  · rw [hcarried]
    exact h.carried_erase hcarries hfree
  · rw [hcarried, hrunning]
    exact fun s hs => h.inUse s (List.mem_of_mem_erase hs)
  · have howners := h.owners
    rw [List.filterMap_cons] at howners ⊢
    rwa [howner]
  · rw [hclaimed, hrunning, hstates]
    refine List.forall_mem_cons.mpr ⟨?_, fun m hm => h.owned m (List.mem_cons_of_mem _ hm)⟩
    rw [howner]
    exact h.owned l List.mem_cons_self

theorem countPacket {todo : List Packet} {p : Packet} {slot : ℕ}
    (h : Routed cfg σ (⟨todo, .seated p slot⟩ :: others)) :
    Routed cfg (Flow.countPacket cfg slot p σ).2
      (⟨todo, .routing (Flow.countPacket cfg slot p σ).1⟩ :: others) where
  coherent := h.coherent
  sound := h.sound
  places a := by
    have hbefore := h.places a
    simp only [Flow.countPacket, List.map_cons]
    rw [List.filterMap_cons_none (by rfl)] at hbefore
    rw [List.filterMap_cons_some (by rfl), count_cons_packet _ (σ.log.admitted.map _),
      count_cons_packet _ (others.filterMap _), hbefore, Nat.add_assoc]
  waiting := h.waiting
  queues := h.queues
  carried := h.carried
  inUse := h.inUse
  owners := h.owners
  owned := by
    refine List.forall_mem_cons.mpr ⟨?_, fun m hm => h.owned m (List.mem_cons_of_mem _ hm)⟩
    exact h.owned ⟨todo, .seated p slot⟩ List.mem_cons_self

theorem batch {todo : List Packet} {ni : NodeInfo}
    (h : Routed cfg σ (⟨todo, .routing ni⟩ :: others)) :
    Routed cfg (Flow.perform cfg (.batch ni) σ).2 (⟨todo, .ready⟩ :: others) := by
  refine h.settle rfl rfl rfl rfl rfl h.coherent rfl rfl rfl (fun a => ?_) h.waiting rfl
    rfl rfl rfl
  simp only [Flow.perform]
  rw [count_cons_packet _ σ.log.batched, Nat.add_right_comm]

/-- A slot without its bit is `Buffering`, as it is in use. -/
theorem buffer {todo : List Packet} {ni : NodeInfo}
    (h : Routed cfg σ (⟨todo, .routing ni⟩ :: others)) :
    Routed cfg (Flow.buffer ni σ).2
      (⟨todo, if (Flow.buffer ni σ).1 then .ready else .routing ni⟩ :: others) := by
  obtain ⟨-, hrun⟩ := h.slot_inUse rfl
  have hlt : ni.slot < cfg.slots := by
    obtain ⟨e, he, heq⟩ := List.mem_map.mp hrun
    exact heq ▸ h.coherent.inRange e he
  unfold Flow.buffer
  split
  · exact h
  · next hbit =>
    have hbuffering : σ.table.states ni.slot = .buffering := by
      cases hstate : σ.table.states ni.slot with
      | inactive => exact absurd hrun ((h.coherent.inactive_iff ni.slot hlt).mp hstate)
      | active => exact absurd ((h.coherent.bitmap ni.slot hlt).mpr hstate) hbit
      | buffering => rfl
    refine h.settle rfl rfl rfl rfl rfl ?_ rfl rfl rfl (fun a => ?_) (fun s hs => ?_) rfl
      rfl rfl rfl
    · exact ⟨h.coherent.inRange, h.coherent.lastInRange, h.coherent.inactive_iff,
        h.coherent.distinct, h.coherent.bitmap, h.coherent.frameOf, h.coherent.noFrame⟩
    · have hmoved := count_flatMap_update σ.table.buffers hlt (σ.table.buffers ni.slot ++ [ni]) a
      rw [List.count_append] at hmoved
      simp only [SlotData.buffered]
      omega
    · by_cases hsame : s = ni.slot
      · exact ⟨hsame ▸ hlt, hsame ▸ hbuffering⟩
      · dsimp only at hs
        rw [Function.update_of_ne hsame] at hs
        exact h.waiting s hs

theorem claim (h : Routed cfg σ (.idle :: others)) {slot : ℕ}
    (hclaim : Flow.Claimable cfg slot σ) :
    Routed cfg { σ with claimed := slot :: σ.claimed } (⟨[], .claimed slot⟩ :: others) := by
  obtain ⟨hrun, hbit, -, hnew⟩ := hclaim
  have hlt : slot < cfg.slots := by
    obtain ⟨e, he, rfl⟩ := List.mem_map.mp hrun
    exact h.coherent.inRange e he
  have hactive : σ.table.states slot = .active := by
    cases hstate : σ.table.states slot with
    | inactive => exact absurd hrun ((h.coherent.inactive_iff slot hlt).mp hstate)
    | active => rfl
    | buffering =>
      have hset := (h.coherent.bitmap slot hlt).mp (hbit (h.queues slot hstate))
      rw [hstate] at hset
      cases hset
  have howners : (others.filterMap FlowPhase.owner).Nodup := h.owners
  refine ⟨h.coherent, h.sound, h.places, h.waiting, h.queues, h.carried, h.inUse, ?_, ?_⟩
  · show (slot :: others.filterMap FlowPhase.owner).Nodup
    refine List.nodup_cons.mpr ⟨fun hin => ?_, howners⟩
    obtain ⟨m, hm, howner⟩ := List.mem_filterMap.mp hin
    exact hnew (h.owned m (List.mem_cons_of_mem _ hm) slot howner).1
  · refine List.forall_mem_cons.mpr ⟨fun s hs => ?_, fun m hm s hs => ?_⟩
    · obtain rfl := Option.some.inj hs
      exact ⟨List.mem_cons_self, hrun, hactive⟩
    · exact (h.owned m (List.mem_cons_of_mem _ hm) s hs).imp_left (List.mem_cons_of_mem _)

/-- The thread's slot is free again; others keep theirs. -/
theorem leave (h : Routed cfg σ (l :: others)) {slot : ℕ} (howner : l.owner = some slot)
    (hroutes : l.routes = none) (hcarries : l.carries = none) (howner' : l'.owner = none)
    (hroutes' : l'.routes = none) (hcarries' : l'.carries = none) (hunused : slot ∉ σ.log.carried)
    (hcoherent : Coherent cfg.toSlotConfig σ'.table)
    (hsound : MapSound cfg.toSlotConfig σ'.table.runningFrames σ'.table.frameSlotMap)
    (hrunning : σ'.table.runningFrames = σ.table.runningFrames.filter fun e => e.2 ≠ slot)
    (hactive : ∀ s ≠ slot, σ.table.states s = .active → σ'.table.states s = .active)
    (hqueue : ∀ s, σ'.table.states s = .buffering → σ.table.states s = .buffering)
    (hwaiting : ∀ s, σ'.table.buffers s ≠ [] →
      σ.table.buffers s ≠ [] ∧ σ'.table.states s = .buffering)
    (hplaces : ∀ a, σ'.log.drained.count a + (σ'.table.buffered cfg.toSlotConfig).count a =
      σ.log.drained.count a + (σ.table.buffered cfg.toSlotConfig).count a)
    (hclaimed : σ'.claimed = σ.claimed.erase slot)
    (hadmitted : σ'.log.admitted = σ.log.admitted) (hbatched : σ'.log.batched = σ.log.batched)
    (hcarried : σ'.log.carried = σ.log.carried) : Routed cfg σ' (l' :: others) := by
  have hkept : ∀ s ≠ slot, s ∈ σ.table.runningFrames.map Prod.snd →
      s ∈ σ'.table.runningFrames.map Prod.snd := by
    intro s hne hs
    obtain ⟨e, he, rfl⟩ := List.mem_map.mp hs
    rw [hrunning]
    exact List.mem_map_of_mem (List.mem_filter.mpr ⟨he, decide_eq_true hne⟩)
  refine ⟨hcoherent, hsound, fun a => ?_, fun s hs => ?_, fun s hs => h.queues s (hqueue s hs), ?_, ?_,
    ?_, ?_⟩
  · have hbefore := h.places a
    have hmoved := hplaces a
    rw [List.filterMap_cons_none hroutes] at hbefore
    rw [hadmitted, hbatched, List.filterMap_cons_none hroutes']
    omega
  · obtain ⟨hbefore, hbuffering⟩ := hwaiting s hs
    exact ⟨(h.waiting s hbefore).1, hbuffering⟩
  · have hbefore := h.carried
    rw [List.filterMap_cons_none hcarries] at hbefore
    rwa [hcarried, List.filterMap_cons_none hcarries']
  · rw [hcarried]
    exact fun s hs => hkept s (fun heq => hunused (heq ▸ hs)) (h.inUse s hs)
  all_goals
    have howners := h.owners
    rw [List.filterMap_cons_some howner] at howners
  · rw [List.filterMap_cons_none howner']
    exact (List.nodup_cons.mp howners).2
  · refine List.forall_mem_cons.mpr ⟨fun s hs => ?_, fun m hm s hs => ?_⟩
    · rw [howner'] at hs
      cases hs
    · have hne : s ≠ slot := by
        rintro rfl
        exact (List.nodup_cons.mp howners).1 (List.mem_filterMap.mpr ⟨m, hm, hs⟩)
      obtain ⟨hin, hrun, hstate⟩ := h.owned m (List.mem_cons_of_mem _ hm) s hs
      rw [hclaimed]
      exact ⟨(List.mem_erase_of_ne hne).mpr hin, hkept s hne hrun, hactive s hne hstate⟩

/-- A promotion drains the buffer of the slot it activates; the slot that is released has none. -/
theorem release {todo : List Packet} {slot : ℕ} {restart : Option ℕ}
    (h : Routed cfg σ (⟨todo, .counted slot restart⟩ :: others)) (hunused : slot ∉ σ.log.carried)
    (promoted : Option ℕ) :
    Routed cfg (Flow.releaseUnderLock cfg slot σ).2
      (FlowPhase.released cfg ⟨todo, .counted slot restart⟩ promoted :: others) := by
  obtain ⟨-, hrun, hactive⟩ := h.owned _ List.mem_cons_self slot rfl
  have hlt : slot < cfg.slots := by
    obtain ⟨e, he, rfl⟩ := List.mem_map.mp hrun
    exact h.coherent.inRange e he
  have hcoherent := h.coherent.releaseUnderLock hlt
  have hsound := (Indexed.releaseUnderLock ⟨h.sound, h.coherent.lastInRange⟩ slot).sound
  have hrunning := runningFrames_releaseUnderLock h.coherent slot
  have hslot : ∀ s, σ.table.states s = .buffering → s ≠ slot := by
    rintro s hs rfl
    rw [hactive] at hs
    cases hs
  obtain ⟨s', heq, hs'⟩ := FlowPhase.released_stage cfg todo slot restart promoted
  have hfree : s'.owner = none ∧ s'.routes = none ∧ s'.carries = none := by
    rcases hs' with rfl | ⟨again, -, rfl⟩ | ⟨next, -, -, rfl⟩
    · exact ⟨rfl, rfl, rfl⟩
    · exact ⟨rfl, rfl, rfl⟩
    · exact ⟨rfl, rfl, rfl⟩
  rw [heq]
  unfold Flow.releaseUnderLock
  rcases (releaseUnderLock_cases h.coherent hlt).2 with ⟨d', hd', hvac⟩ | ⟨next, d', hd', hprom⟩
  · rw [hd'] at hcoherent hsound hrunning ⊢
    refine h.leave rfl rfl rfl hfree.1 hfree.2.1 hfree.2.2 hunused hcoherent hsound hrunning ?_ ?_ ?_
      ?_ rfl rfl rfl rfl
    · intro s hne hs
      simp only [hvac.states, Function.update_of_ne hne, hs]
    · intro s hs
      simp only [hvac.states, Function.update_apply] at hs
      split at hs
      · cases hs
      · exact hs
    · intro s hs
      simp only [hvac.buffers] at hs
      have hbuffering := (h.waiting s hs).2
      exact ⟨hs, by simp only [hvac.states, Function.update_of_ne (hslot s hbuffering), hbuffering]⟩
    · intro a
      simp only [SlotData.buffered, hvac.buffers]
  · rw [hd'] at hcoherent hsound hrunning ⊢
    refine h.leave rfl rfl rfl hfree.1 hfree.2.1 hfree.2.2 hunused hcoherent hsound hrunning ?_ ?_ ?_
      ?_ rfl rfl rfl rfl
    · intro s hne hs
      simp only [hprom.states, Function.update_apply, hne, if_false, hs, ite_self]
    · intro s hs
      simp only [hprom.states, Function.update_apply] at hs
      split at hs
      · cases hs
      · split at hs
        · cases hs
        · exact hs
    · intro s hs
      have hne : s ≠ next := by
        rintro rfl
        simp only [hprom.buffers, Function.update_self, ne_eq, not_true] at hs
      simp only [hprom.buffers, Function.update_of_ne hne] at hs
      have hbuffering := (h.waiting s hs).2
      refine ⟨hs, ?_⟩
      simp only [hprom.states, Function.update_of_ne hne,
        Function.update_of_ne (hslot s hbuffering), hbuffering]
    · intro a
      have hmoved := count_flatMap_update σ.table.buffers hprom.inRange [] a
      simp only [SlotData.buffered, hprom.buffers, List.count_append]
      simp only [List.count_nil] at hmoved
      omega

theorem lookup {frame : ℕ} {site : Site} (h : Routed cfg σ (l :: others))
    (hasks : l.stage.Asks frame site) :
    Routed cfg (Flow.lookup cfg frame site σ).2
      ((flowDiscipline cfg).next l (.lookup frame site) (Flow.lookup cfg frame site σ).1 ::
        others) := by
  obtain ⟨todo, s⟩ := l
  unfold Flow.lookup
  cases hhit : σ.table.frameSlotLookup cfg.toSlotConfig frame with
  | none => exact h
  | some slot =>
    cases site with
    | packet =>
      obtain ⟨p, hs, -⟩ := hasks
      obtain rfl : s = .cleared p := hs
      obtain ⟨e, he, -, hslot⟩ := h.sound.lookup hhit
      exact h.seat slot h.coherent h.sound (fun _ he => he) (fun _ _ => rfl) h.queues rfl rfl rfl rfl rfl
        (.inr ⟨rfl, rfl, rfl, hslot ▸ List.mem_map_of_mem he⟩) rfl rfl
    | preparation =>
      obtain ⟨slots, hs, -⟩ := hasks
      obtain rfl : s = .assigning slots := hs
      exact h.stay h.coherent rfl rfl rfl rfl rfl rfl rfl rfl (List.Subset.refl _) rfl rfl rfl

/-- After an assignment a packet holds the number of its slot. -/
theorem assigned {frame slot : ℕ} {site : Site} {start : Bool} (h : Routed cfg σ (l :: others))
    (hasks : l.stage.Asks frame site) (hcoherent : Coherent cfg.toSlotConfig σ'.table)
    (hsound : MapSound cfg.toSlotConfig σ'.table.runningFrames σ'.table.frameSlotMap)
    (hgrows : ∀ e ∈ σ.table.runningFrames, e ∈ σ'.table.runningFrames)
    (hstates : ∀ s, σ.table.states s ≠ .inactive → σ'.table.states s = σ.table.states s)
    (hqueues : ∀ s, σ'.table.states s = .buffering → cfg.slotPriorityEnabled = true)
    (hin : slot ∈ σ'.table.runningFrames.map Prod.snd)
    (hbuffers : σ'.table.buffers = σ.table.buffers) (hclaimed : σ'.claimed = σ.claimed)
    (hadmitted : σ'.log.admitted = σ.log.admitted) (hbatched : σ'.log.batched = σ.log.batched)
    (hdrained : σ'.log.drained = σ.log.drained)
    (hcarried : σ'.log.carried =
      if site = .packet then slot :: σ.log.carried else σ.log.carried) :
    Routed cfg σ' (⟨l.todo, l.stage.assigned start slot⟩ :: others) := by
  obtain ⟨todo, s⟩ := l
  cases site with
  | packet =>
    obtain ⟨p, hs, -⟩ := hasks
    obtain rfl : s = .cleared p := hs
    have hseat : ∀ s', s' = Stage.starting p slot ∨ s' = .seated p slot →
        Routed cfg σ' (⟨todo, s'⟩ :: others) := by
      rintro s' (rfl | rfl)
      · exact h.seat slot hcoherent hsound hgrows hstates hqueues hbuffers hadmitted hbatched hdrained
          hclaimed (.inr ⟨hcarried, rfl, rfl, hin⟩) rfl rfl
      · exact h.seat slot hcoherent hsound hgrows hstates hqueues hbuffers hadmitted hbatched hdrained
          hclaimed (.inr ⟨hcarried, rfl, rfl, hin⟩) rfl rfl
    cases start with
    | true => exact hseat _ (.inl rfl)
    | false => exact hseat _ (.inr rfl)
  | preparation =>
    obtain ⟨slots, hs, -⟩ := hasks
    obtain rfl : s = .assigning slots := hs
    exact h.seat slot hcoherent hsound hgrows hstates hqueues hbuffers hadmitted hbatched hdrained
      hclaimed (.inl ⟨hcarried, rfl⟩) rfl rfl

theorem assign {frame : ℕ} {site : Site} (h : Routed cfg σ (l :: others))
    (hnetwork : cfg.hasNetwork = true) (hasks : l.stage.Asks frame site) :
    Routed cfg (Flow.assignUnderLock cfg frame site σ).2
      ((flowDiscipline cfg).next l (.assignUnderLock frame site)
        (Flow.assignUnderLock cfg frame site σ).1 :: others) := by
  have hcoherent := h.coherent.assignUnderLock frame
  have hsound := (Indexed.assignUnderLock ⟨h.sound, h.coherent.lastInRange⟩ frame).sound
  unfold Flow.assignUnderLock
  rcases assignUnderLock_seats h.coherent frame with hd | ⟨slot, hin, hd⟩ | ⟨slot, newly, d, hd, hs⟩
  · rw [hd]
    refine h.stay h.coherent rfl rfl rfl rfl rfl rfl rfl rfl (List.Subset.refl _) ?_ ?_ ?_
    all_goals
      obtain ⟨todo, s⟩ := l
      cases site with
      | packet =>
        obtain ⟨p, hs, -⟩ := hasks
        obtain rfl : s = .cleared p := hs
        rfl
      | preparation =>
        obtain ⟨slots, hs, -⟩ := hasks
        obtain rfl : s = .assigning slots := hs
        rfl
  · rw [hd]
    exact h.assigned hasks h.coherent h.sound (fun _ he => he) (fun _ _ => rfl) h.queues
      (List.mem_map_of_mem hin) rfl rfl rfl rfl rfl rfl
  · rw [hd] at hcoherent hsound ⊢
    refine h.assigned hasks hcoherent hsound ?_ ?_ ?_ ?_ hs.buffers rfl rfl rfl rfl rfl
    · intro e he
      rw [hs.running]
      exact List.mem_append_left _ he
    · intro s hbusy
      have hne : s ≠ slot := fun heq => hbusy (heq ▸ hs.free)
      simp only [hs.states, Function.update_of_ne hne]
    · intro s hbuffering
      by_cases hsame : s = slot
      · simp only [hs.states, hsame, Function.update_self] at hbuffering
        cases newly with
        | true => cases hbuffering
        | false =>
          exact (hs.queued rfl).2.resolve_right (by rw [hnetwork]; exact Bool.true_eq_false_eq_False)
      · simp only [hs.states, Function.update_of_ne hsame] at hbuffering
        exact h.queues s hbuffering
    · rw [hs.running, List.map_append]
      exact List.mem_append_right _ List.mem_cons_self

/-- The thread goes on in another stage, and nothing else changes that matters here. -/
theorem advance (h : Routed cfg σ (l :: others)) (hroutes : l'.routes = l.routes)
    (hcarries : l'.carries = l.carries) (howner : l'.owner = l.owner) :
    Routed cfg σ (l' :: others) :=
  h.stay h.coherent rfl rfl rfl rfl rfl rfl rfl rfl (List.Subset.refl _) hroutes hcarries howner

theorem resetCounters {slot : ℕ} (h : Routed cfg σ (l :: others)) (hroutes : l'.routes = l.routes)
    (hcarries : l'.carries = l.carries) (howner : l'.owner = l.owner) :
    Routed cfg (Flow.resetCounters slot σ) (l' :: others) := by
  refine h.stay ⟨h.coherent.inRange, h.coherent.lastInRange, h.coherent.inactive_iff,
    h.coherent.distinct, h.coherent.bitmap, h.coherent.frameOf, h.coherent.noFrame⟩ rfl rfl rfl rfl
    rfl rfl rfl rfl (fun s hs => ?_) hroutes hcarries howner
  unfold Flow.resetCounters
  dsimp only
  split
  · exact hs
  · exact List.mem_cons_of_mem _ hs

end Routed

/-- Where a thread's packet and slot are does not change with what it still has to dispatch. -/
theorem Stage.dispatched_holds (s : Stage) {slot : ℕ} {slots : List ℕ} (hdue : s.due = slot :: slots) :
    s.dispatched.routes = s.routes ∧ s.dispatched.carries = s.carries ∧
      s.dispatched.owner = s.owner := by
  have hrest : ∀ owed : List ℕ, (Stage.afterDispatch owed).routes = none ∧
      (Stage.afterDispatch owed).carries = none ∧ (Stage.afterDispatch owed).owner = none := by
    intro owed
    cases owed with
    | nil => exact ⟨rfl, rfl, rfl⟩
    | cons s rest => exact ⟨rfl, rfl, rfl⟩
  cases s with
  | promoted next restart =>
    cases restart with
    | none => exact ⟨rfl, rfl, rfl⟩
    | some again => exact ⟨rfl, rfl, rfl⟩
  | assigning owed => exact hrest owed.tail
  | dispatching owed => exact hrest owed.tail
  | starting p s => exact ⟨rfl, rfl, rfl⟩
  | restarted s => exact ⟨rfl, rfl, rfl⟩
  | _ => cases hdue

section Runs

variable {cfg : FlowConfig}

theorem routes_maintains (hnetwork : cfg.hasNetwork = true) (hlasting : cfg.frameTimeoutMs = 0) :
    Machine.Maintains (flowMachine cfg) ReleasesUnused (flowDiscipline cfg) .idle (· = .idle)
      (Routed cfg) := by
  refine flow_maintains Routed.perm ?_
  intro σ σ' others l l' a choice hturn h hok
  have hcoherent := h.coherent
  have hclaims := List.Subset.refl σ.claimed
  cases hturn with
  | prepare | prepared | receive | discard | discardBeyond | clear | complete | countVictim
  | countEvicted | takePending | countActive | countCompletion =>
    exact h.stay hcoherent rfl rfl rfl rfl rfl rfl rfl rfl hclaims rfl rfl rfl
  | openWindow | ahead | inWindow | refuse | refuseNow | toPark | loadFrameId =>
    exact h.advance rfl rfl rfl
  | isActive | incomplete | pass | loadStalled => exact h
  | lookup todo s frame site hasks => exact h.lookup hasks
  | assign todo s frame site hasks => exact h.assign hnetwork hasks
  | bump l slot =>
    exact h.stay (hcoherent.bump slot) rfl rfl rfl rfl rfl rfl rfl rfl hclaims rfl rfl rfl
  | dispatchInitial todo s slot slots hroots hdue =>
    obtain ⟨hroutes, hcarries, howner⟩ := Stage.dispatched_holds s hdue
    exact h.stay hcoherent rfl rfl rfl rfl rfl rfl rfl rfl hclaims hroutes hcarries howner
  | countPacket => exact h.countPacket
  | buffered todo ni _ hbuffered =>
    have hstep := h.buffer
    rw [hbuffered] at hstep
    exact hstep
  | promotedBefore todo ni _ hactive =>
    have hstep := h.buffer
    rw [hactive] at hstep
    exact hstep
  | batch => exact h.batch
  | park todo p =>
    have hstage : ∀ out s', s' = Stage.ready ∨ s' = .marked out →
        Routed cfg (Flow.park cfg p σ).2 (⟨todo, s'⟩ :: others) := by
      intro out s' hs'
      rw [Flow.park_eq]
      rcases hs' with rfl | rfl
      · exact h.stay hcoherent rfl rfl rfl rfl rfl rfl rfl rfl hclaims rfl rfl rfl
      · exact h.stay hcoherent rfl rfl rfl rfl rfl rfl rfl rfl hclaims rfl rfl rfl
    cases (Flow.park cfg p σ).1 with
    | none => exact hstage 0 _ (.inl rfl)
    | some victim => exact hstage victim _ (.inr rfl)
  | swapDropped todo slot frame hexpires => exact absurd hlasting hexpires
  | claim slot hclaim => exact Routed.claim h hclaim
  | resetClaimed | resetSpent | resetMarking => exact h.resetCounters rfl rfl rfl
  | release todo slot restart => exact h.release hok _
  | restart todo slot hcompute =>
    rw [hnetwork] at hcompute
    cases hcompute
  | evict slot hexpires => exact absurd hlasting hexpires
  | spare slot hexpires => exact absurd hlasting hexpires

theorem routed_start (cfg : FlowConfig) (threads : ℕ) :
    Routed cfg .initial (List.replicate threads .idle) := by
  have hnone : ∀ {β : Type} {f : FlowPhase → Option β}, f .idle = none →
      (List.replicate threads FlowPhase.idle).filterMap f = [] := fun hf =>
    List.filterMap_eq_nil_iff.mpr fun l hl => by rw [List.eq_of_mem_replicate hl, hf]
  refine ⟨coherent_initial _, mapSound_initial _, fun ni => ?_, fun s hs => absurd rfl hs,
    fun s hs => (nomatch hs), ?_, fun s hs => (nomatch hs), ?_, fun l hl s hs => ?_⟩
  · have hempty : SlotData.buffered cfg.toSlotConfig .initial = [] :=
      List.flatMap_eq_nil_iff.mpr fun _ _ => rfl
    rw [hnone rfl]
    show _ = _ + (SlotData.buffered cfg.toSlotConfig .initial).count ni + _
    rw [hempty]
    rfl
  · rw [hnone rfl]
    exact .refl _
  · rw [hnone rfl]
    exact .nil
  · rw [List.eq_of_mem_replicate hl] at hs
    cases hs

/-- Without a network there are no packets. -/
structure Quiet (σ : Flow) : Prop where
  admitted : σ.log.admitted = []
  batched : σ.log.batched = []
  drained : σ.log.drained = []
  buffers : ∀ s, σ.table.buffers s = []

theorem Quiet.of_views {σ σ' : Flow} (h : Quiet σ) (hadmitted : σ'.log.admitted = σ.log.admitted)
    (hbatched : σ'.log.batched = σ.log.batched) (hdrained : σ'.log.drained = σ.log.drained)
    (hbuffers : σ'.table.buffers = σ.table.buffers) : Quiet σ' :=
  ⟨hadmitted.trans h.admitted, hbatched.trans h.batched, hdrained.trans h.drained,
    fun s => (congrFun hbuffers s).trans (h.buffers s)⟩

theorem buffers_assignUnderLock (cfg : SlotConfig) (frame : ℕ) (d : SlotData) :
    (d.assignUnderLock cfg frame).2.buffers = d.buffers := by
  unfold SlotData.assignUnderLock
  split
  · rfl
  · split
    · rfl
    · split
      · rfl
      · split
        · rfl
        · rfl

theorem Quiet.release {σ : Flow} (h : Quiet σ) (slot : ℕ) :
    Quiet (Flow.releaseUnderLock cfg slot σ).2 := by
  obtain ⟨map, heq⟩ := SlotData.releaseSlot_eq cfg.toSlotConfig slot σ.table
  have hvacant : (σ.table.releaseSlot cfg.toSlotConfig slot).buffers = σ.table.buffers := by rw [heq]
  unfold Flow.releaseUnderLock SlotData.releaseUnderLock
  simp only
  split
  · next d hd =>
    have hbuffers : d.buffers = σ.table.buffers := by
      split at hd
      · split at hd
        · rw [← (Prod.mk.inj hd).2, hvacant]
        · cases (Prod.mk.inj hd).1
      · rw [← (Prod.mk.inj hd).2, hvacant]
    exact h.of_views rfl rfl rfl hbuffers
  · next next buffered d hd =>
    have hdrains : buffered = [] ∧ ∀ s, d.buffers s = [] := by
      split at hd
      · split at hd
        · cases (Prod.mk.inj hd).1
        · next slot hnext =>
          obtain ⟨hreply, hd⟩ := Prod.mk.inj hd
          obtain ⟨-, hbuffered⟩ := Prod.mk.inj (Option.some.inj hreply)
          rw [hvacant] at hbuffered hd
          refine ⟨hbuffered ▸ h.buffers slot, fun s => ?_⟩
          rw [← hd]
          dsimp only
          rw [Function.update_apply]
          split
          · rfl
          · exact h.buffers s
      · cases (Prod.mk.inj hd).1
    refine ⟨h.admitted, h.batched, ?_, hdrains.2⟩
    dsimp only
    rw [hdrains.1, h.drained]
    rfl

theorem quiet_maintains (ok : Flow → ℕ → FlowAct → Prop) (hcompute : cfg.hasNetwork = false) :
    Machine.Maintains (flowMachine cfg) ok (flowDiscipline cfg) .idle (· = .idle)
      (fun σ _ => Quiet σ) := by
  refine flow_maintains (fun h _ => h) ?_
  intro σ σ' others l l' a choice hturn h _
  have hpacketless : cfg.hasNetwork ≠ true := by
    rw [hcompute]
    exact Bool.false_ne_true
  cases hturn with
  | countPacket todo slot p hnetwork => exact absurd hnetwork hpacketless
  | buffered todo ni hnetwork => exact absurd hnetwork hpacketless
  | promotedBefore todo ni hnetwork => exact absurd hnetwork hpacketless
  | batch todo ni hnetwork => exact absurd hnetwork hpacketless
  | park todo p hnetwork => exact absurd hnetwork hpacketless
  | lookup todo s frame site =>
    rw [Flow.lookup_eq]
    exact h.of_views rfl rfl rfl rfl
  | assign todo s frame site =>
    refine h.of_views ?_ ?_ ?_ ?_
    · rw [Flow.assignUnderLock_log]
    · rw [Flow.assignUnderLock_log]
    · rw [Flow.assignUnderLock_log]
    · rw [Flow.assignUnderLock_table]
      exact buffers_assignUnderLock ..
  | release todo slot => exact h.release slot
  | restart todo slot =>
    refine h.of_views rfl rfl rfl ?_
    simp only [Flow.restartUnderLock, SlotData.restartSlotNonnetwork]
    split
    · rfl
    · rfl
  | _ => exact h.of_views rfl rfl rfl rfl

/-- The packets that are in a batch, came out of a buffer with a promotion, or are in a buffer. -/
def Flow.routed (cfg : FlowConfig) (σ : Flow) : List NodeInfo :=
  σ.log.batched ++ σ.log.drained ++ σ.table.buffered cfg.toSlotConfig

/-- No packet is in two places, none is in the buffer of a slot that is not `Buffering`, and between
the jobs of the threads every admitted packet is in a place. -/
structure EachInOnePlace (cfg : FlowConfig) (w : World flowSteps Flow) : Prop where
  once : (w.shared.routed cfg).Subperm (w.shared.log.admitted.map Prod.snd)
  waiting : ∀ s, w.shared.table.buffers s ≠ [] → w.shared.table.states s = .buffering
  all : (∀ thread ∈ w.threads, thread = .done ()) →
    (w.shared.routed cfg).Perm (w.shared.log.admitted.map Prod.snd)

theorem Quiet.eachInOnePlace {w : World flowSteps Flow} (h : Quiet w.shared) :
    EachInOnePlace cfg w := by
  have hempty : w.shared.routed cfg = [] := by
    have hbuffered : w.shared.table.buffered cfg.toSlotConfig = [] :=
      List.flatMap_eq_nil_iff.mpr fun s _ => h.buffers s
    rw [Flow.routed, h.batched, h.drained, hbuffered]
    rfl
  refine ⟨?_, fun s hs => absurd (h.buffers s) hs, fun _ => ?_⟩
  · rw [hempty, h.admitted]
    exact List.nil_subperm
  · rw [hempty, h.admitted]
    exact .refl _

theorem Routed.eachInOnePlace {w : World flowSteps Flow} {ls : List FlowPhase}
    (h : Routed cfg w.shared ls)
    (hfollows : Machine.Follows (flowDiscipline cfg) (· = .idle) w.threads ls) :
    EachInOnePlace cfg w := by
  have hplaces : (w.shared.routed cfg ++ ls.filterMap FlowPhase.routes).Perm
      (w.shared.log.admitted.map Prod.snd) := by
    refine List.perm_iff_count.mpr fun ni => ?_
    rw [h.places ni, Flow.routed, List.count_append, List.count_append, List.count_append]
  refine ⟨?_, fun s hs => (h.waiting s hs).2, fun hdone => ?_⟩
  · exact (List.sublist_append_left _ _).subperm.trans hplaces.subperm
  · have hempty : ls.filterMap FlowPhase.routes = [] := by
      refine List.filterMap_eq_nil_iff.mpr fun l hl => ?_
      obtain ⟨thread, hthread, hobeys⟩ := hfollows.thread hl
      rw [hdone thread hthread] at hobeys
      rw [show l = .idle from hobeys]
      rfl
    rwa [hempty, List.append_nil] at hplaces

/-- With eviction off, and when no slot is released while a packet holds its number, every packet
that was admitted is in one batch, drained buffer or buffer, and only slots that are `Buffering` have
any in their buffers. -/
theorem packets_in_one_place (cfg : FlowConfig) (hlasting : cfg.frameTimeoutMs = 0) (threads : ℕ)
    (w : World flowSteps Flow)
    (hrun : (flowMachine cfg).Reaches ReleasesUnused (flowWorld threads) w) :
    EachInOnePlace cfg w := by
  have hidle := Machine.follows_idle (D := flowDiscipline cfg) (· = FlowPhase.idle) rfl threads
  cases hnetwork : cfg.hasNetwork with
  | true =>
    obtain ⟨ls, hinv, hfollows⟩ :=
      (routes_maintains hnetwork hlasting).reached hrun (routed_start cfg threads) hidle
    exact hinv.eachInOnePlace hfollows
  | false =>
    obtain ⟨ls, hquiet, -⟩ := (quiet_maintains ReleasesUnused hnetwork).reached hrun
      ⟨rfl, rfl, rfl, fun _ => rfl⟩ hidle
    exact hquiet.eachInOnePlace

end Runs

/-- Two slots for frames of one packet each, one of them active at a time. -/
def queuedFrames : FlowConfig where
  slots := 2
  slotPriorityEnabled := true
  hasNetwork := true
  maxFrames := 2
  one_le_slots := Nat.zero_lt_two
  slots_le := two_slots_le
  hasInitialNodes := false
  hasIndexFunction := false
  framePackets := 1
  frameTimeoutMs := 0
  slots_le_maxFrames := two_slots_fit

/-- The packet of frame 1 waits in its slot's buffer until frame 0 completes. -/
def bufferedAndPromoted : List (Move FlowJob) :=
  .begin 1 (.poll false [⟨0, 0⟩, ⟨1, 0⟩]) :: turns 1 19 ++ .begin 0 (.check 0) :: turns 0 7

theorem packets_in_one_place_queuedFrames : ∃ w,
    (flowMachine queuedFrames).Reaches ReleasesUnused (flowWorld 2) w ∧
      w.shared.log.drained = [NodeInfo.new 0 1 0 0] ∧ EachInOnePlace queuedFrames w := by
  have hrun : ((flowMachine queuedFrames).fireAllowed ReleasesUnused bufferedAndPromoted
      (flowWorld 2)).any (fun w => w.shared.log.drained = [NodeInfo.new 0 1 0 0]) = true := by
    decide +kernel
  obtain ⟨w, hw, hstate⟩ := (Option.any_eq_true _ _).mp hrun
  have hreach := Machine.reaches_of_fireAllowed hw
  exact ⟨w, hreach, of_decide_eq_true hstate, packets_in_one_place queuedFrames rfl 2 w hreach⟩

/-- A packet of frame 0 comes late: its frame completes and its slot is released before the bit is
checked. The packet stays in the buffer, also when the slot is active again for frame 1. -/
def lateForItsSlot : List (Move FlowJob) :=
  .begin 1 (.poll false [⟨0, 0⟩, ⟨0, 1⟩]) :: turns 1 15 ++ .begin 0 (.check 0) :: turns 0 6 ++
    turns 1 3 ++ .begin 1 (.poll false [⟨1, 0⟩]) :: turns 1 5

theorem packet_left_in_buffer : ¬ ∀ cfg : FlowConfig, cfg.frameTimeoutMs = 0 →
    ∀ (threads : ℕ) (w : World flowSteps Flow),
      (flowMachine cfg).Reaches (fun _ _ _ => True) (flowWorld threads) w →
        EachInOnePlace cfg w := by
  intro h
  have hrun : ((flowMachine onePacketFrames).fireAllowed (fun _ _ _ => True) lateForItsSlot
      (flowWorld 2)).any (fun w => w.shared.table.buffers 0 = [NodeInfo.new 0 0 1 0] ∧
        w.shared.table.states 0 = .active) = true := by
    decide +kernel
  obtain ⟨w, hw, hstate⟩ := (Option.any_eq_true _ _).mp hrun
  obtain ⟨hleft, hactive⟩ := of_decide_eq_true hstate
  have hwaiting := (h onePacketFrames rfl 2 w (Machine.reaches_of_fireAllowed hw)).waiting 0
    (by rw [hleft]; exact List.cons_ne_nil _ _)
  rw [hactive] at hwaiting
  cases hwaiting

end Tomii.Slots
