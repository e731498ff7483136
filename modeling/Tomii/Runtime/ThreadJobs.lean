import Tomii.Runtime.ThreadWalks

/-! # Every job keeps to the discipline

A thread begins a job with nothing in hand and ends it so: what it takes it retires, what it releases
it dispatches, every bracket it opens it closes. -/
namespace Tomii
set_option autoImplicit false
set_option maxHeartbeats 250000

variable {c : Compiled} {cfg : Config} {guarded : Prop}

/-- Nothing but tasks in hand. -/
def Phase.holding (hand : Multiset (Ticket × ℕ)) : Phase := { Phase.idle with hand := hand }

@[simp] theorem Phase.holding_zero : Phase.holding 0 = Phase.idle := rfl

/-! ## Brackets -/

/-- The thread leaves a slot and stores its `needs_check`. -/
theorem obeys_leave {β : Type} {l : Phase} {slot : ℕ} {k : Thread β} {post : β → Phase → Prop}
    (hfree : l.focus = .free) (hin : slot ∈ l.inside)
    (hrest : k.Obeys (resolutionDiscipline c cfg guarded) post { l with
      inside := l.inside.erase slot
      served := l.served.filter (·.slot ≠ slot)
      stamp := none
      passed := l.passed.filter (·.slot ≠ slot) }) :
    (atomic (.leave slot) >>= fun _ => atomic (.setNeedsCheck slot true) >>= fun _ => k).Obeys
      (resolutionDiscipline c cfg guarded) post l := by
  refine obeys_act (Phase.permits_of_works hfree hin) fun _ _ => obeys_act rfl fun _ _ => ?_
  have hnext : (l.next c cfg (.leave slot) ()).next c cfg (.setNeedsCheck slot true) () = { l with
      inside := l.inside.erase slot
      served := l.served.filter (·.slot ≠ slot)
      stamp := none
      passed := l.passed.filter (·.slot ≠ slot) } := by
    ext1 <;> first | rfl | exact hfree.symm
  rw [hnext]
  exact hrest

theorem filter_slot_nil {slot : ℕ} {ts : List Ticket} (h : ∀ t ∈ ts, t.slot = slot) :
    ts.filter (·.slot ≠ slot) = [] :=
  List.filter_eq_nil_iff.mpr fun t ht => by simp [h t ht]

theorem filter_passed_nil {slot : ℕ} {xs : List Cell} (h : ∀ x ∈ xs, x.slot = slot) :
    xs.filter (·.slot ≠ slot) = [] :=
  List.filter_eq_nil_iff.mpr fun x hx => by simp [h x hx]

/-! ## Worker -/

/-- What a worker has after a task: nothing, or the continuation. -/
def Continues (c : Compiled) (inline : Option Ticket) (l : Phase) : Prop :=
  match inline with
  | none => l = .idle
  | some t => l = .holding {(t, 0)} ∧ c.isNetworkNode t.info.id = false

theorem sched_split (sched : List NodeInfo) (b : Bool) :
    sched = (if b then sched.dropLast else sched) ++
      (if b then sched.getLast? else none).toList := by
  cases b with
  | false => simp
  | true =>
    cases hl : sched.getLast? with
    | none => simp [List.getLast?_eq_none_iff.mp hl]
    | some ni =>
      simp only [if_true, Option.toList_some]
      exact (List.dropLast_append_getLast? ni hl).symm

/-- The thread serves `t` alone, in the bracket of its slot. -/
def Phase.serving (t : Ticket) (st : Stamp) : Phase :=
  { Phase.idle with
    inside := {t.slot}
    served := [t]
    stamp := some (t.slot, st) }

/-- What was collected goes out, and the bracket is closed. -/
theorem obeys_finish {α : Type} {a : α} {post : α → Phase → Prop} {t : Ticket} {st : Stamp}
    {hand : Multiset (Ticket × ℕ)} {passed : List Cell} {rest : List NodeInfo}
    (hpassed : ∀ x ∈ passed, x.slot = t.slot)
    (hsends : ∀ ni ∈ rest, ({ Phase.serving t st with passed := passed } : Phase).Sends c guarded t ni)
    (hpost : post a (.holding hand)) :
    (Threads.sendToScheduler (rest.map (some t, ·)) >>= fun _ => atomic (.leave t.slot) >>= fun _ =>
      atomic (.setNeedsCheck t.slot true) >>= fun _ => pure a).Obeys
        (resolutionDiscipline c cfg guarded) post
        (({ Phase.serving t st with hand := hand, passed := passed } : Phase).gain c cfg rest) := by
  have hin : t.slot ∈ ({t.slot} : Multiset ℕ) := Multiset.mem_singleton_self _
  let l : Phase := { Phase.serving t st with hand := hand, passed := passed }
  have hsent : (Threads.sendToScheduler (rest.map (some t, ·))).Obeys
      (resolutionDiscipline c cfg guarded) (fun _ l' => l' = { l with stamp := l'.stamp })
        (l.gain c cfg ((rest.map fun ni => (some t, ni)).map (·.2))) := by
    refine obeys_sendToScheduler rfl fun p hp => ?_
    obtain ⟨ni, hni, rfl⟩ := List.mem_map.mp hp
    exact ⟨t, rfl, hin, (hsends ni hni).keep rfl fun _ => id⟩
  rw [List.map_map, show (Prod.snd ∘ fun ni => (some t, ni)) = (id : NodeInfo → NodeInfo) from rfl,
    List.map_id] at hsent
  refine hsent.bind ?_
  rintro u l' hl
  rw [hl]
  refine obeys_leave rfl hin ?_
  rw [Prog.obeys_pure]
  refine cast ?_ hpost
  congr 1
  ext1
  · rfl
  · rfl
  · rfl
  · exact (Multiset.erase_singleton t.slot).symm
  · exact (filter_slot_nil fun u hu => by rw [List.mem_singleton.mp hu]).symm
  · rfl
  · exact (filter_passed_nil hpassed).symm
  · rfl

theorem obeys_workerResolveSuccessors (hrun : Runnable c) {t : Ticket}
    (hnet : c.isNetworkNode t.info.id = false) :
    (Threads.workerResolveSuccessors c cfg t).Obeys (resolutionDiscipline c cfg guarded)
      (Continues c) (.holding {(t, t.info.bulkCount)}) := by
  have hheld : (t, t.info.bulkCount) ∈ ({(t, t.info.bulkCount)} : Multiset (Ticket × ℕ)) :=
    Multiset.mem_singleton_self _
  have hin : t.slot ∈ (t.slot ::ₘ 0 : Multiset ℕ) := Multiset.mem_cons_self _ _
  have hstamped : ∀ (l : Phase) st, l.inside = t.slot ::ₘ 0 →
      l.next c cfg (.loadGeneration t.slot) st = { l with stamp := some (t.slot, st) } :=
    fun l st hl => if_pos (hl ▸ hin)
  refine obeys_act (Phase.permits_of_works rfl ⟨Multiset.notMem_zero _, _, hheld, rfl⟩) fun _ _ => ?_
  refine obeys_act (Phase.permits_of_works rfl trivial) fun current hcurrent => ?_
  have hgen : current.gen = t.info.gen := hcurrent _ hheld rfl hnet
  rw [if_neg (not_not.mpr hgen), hstamped _ _ rfl]
  refine obeys_act (Phase.permits_of_works rfl ⟨hheld, hin⟩) fun _ hconds => ?_
  refine obeys_act (Phase.permits_of_works rfl trivial) fun st _ => ?_
  rw [hstamped _ _ rfl]
  have hphase : ({ Phase.serving t st with
      hand := Multiset.erase {(t, t.info.bulkCount)} (t, t.info.bulkCount) } : Phase) =
        .serving t st := by
    rw [Multiset.erase_singleton]
    rfl
  show Prog.Obeys _ _ _ ({ Phase.serving t st with
    hand := Multiset.erase {(t, t.info.bulkCount)} (t, t.info.bulkCount) } : Phase)
  rw [hphase]
  have hwalks : (Phase.serving t st).Walks t st.gen := ⟨rfl, List.mem_cons_self, st.epoch, rfl⟩
  refine (obeys_workerWalk hrun (fun e he => he) (fun hg => hconds hg rfl) hwalks).bind
    fun sched l hcollects => ?_
  have hsplit := sched_split sched cfg.inlineContinuation
  simp only
  generalize (if cfg.inlineContinuation = true then sched.getLast? else none) = inline at hsplit ⊢
  generalize (if cfg.inlineContinuation = true then sched.dropLast else sched) = rest at hsplit ⊢
  have hpassed : ∀ x ∈ l.passed, x.slot = t.slot := fun x hx =>
    (hcollects.here x hx).resolve_left fun h => (nomatch h)
  have hsends : ∀ ni ∈ sched,
      ({ Phase.serving t st with passed := l.passed } : Phase).Sends c guarded t ni := fun ni hni =>
    (hcollects.sends ni hni).keep (by rw [hcollects.served]) fun _ => id
  have hgained : l = ({ Phase.serving t st with passed := l.passed } : Phase).gain c cfg sched :=
    hcollects.gained
  rw [hsplit] at hsends
  cases inline with
  | none =>
    rw [hgained, hsplit, Option.toList_none, List.append_nil]
    refine obeys_finish hpassed (fun ni hni => hsends ni ?_) ?_
    · exact List.mem_append_left _ hni
    · exact rfl
  | some ni =>
    rw [hgained, hsplit, Option.toList_some, Phase.gain_perm (List.perm_append_singleton ni rest)]
    have hni := hsends ni (List.mem_append_right _ (List.mem_singleton_self _))
    refine obeys_act (Phase.permits_of_works rfl ⟨List.mem_cons_self, hni.slot, hni.nonempty,
      hni.compute, ?_, Phase.pool_gain_cons ni rest, hni.passed⟩) fun _ _ => ?_
    · exact congrArg (fun s => some (s, st)) hni.slot.symm
    · have hreserved : (({ Phase.serving t st with passed := l.passed } : Phase).gain c cfg
          (ni :: rest)).next c cfg (.reserve t (.stamped ni st)) () =
            ({ Phase.serving t st with
              hand := {(.stamped ni st, 0)}, passed := l.passed } : Phase).gain c cfg rest := by
        show ({ Phase.spend c cfg _ ni with hand := _ } : Phase) = _
        rw [Phase.spend_gain_cons ni rest]
        rfl
      rw [hreserved]
      refine obeys_finish hpassed (fun mi hmi => hsends mi ?_) ⟨rfl, hni.compute⟩
      exact List.mem_append_left _ hmi

/-! ## Execution -/

/-- The instances of a task run one after the other, and none finds its slot recycled. -/
theorem obeys_runCells {t : Ticket} (hnet : c.isNetworkNode t.info.id = false) {k n : ℕ}
    (hsize : k + n = t.info.bulkCount) :
    (Threads.runCells t (List.range' (t.info.index + k) n)).Obeys (resolutionDiscipline c cfg guarded)
      (fun stale l' => stale = false ∧ l' = .holding {(t, t.info.bulkCount)}) (.holding {(t, k)}) := by
  induction n generalizing k with
  | zero =>
    obtain rfl : k = t.info.bulkCount := hsize
    exact ⟨rfl, rfl⟩
  | succ n ih =>
    have hheld : (t, k) ∈ ({(t, k)} : Multiset (Ticket × ℕ)) := Multiset.mem_singleton_self _
    rw [List.range'_succ]
    refine obeys_act (Phase.permits_of_works rfl trivial) fun stale hstale => ?_
    obtain rfl : stale = false := hstale ⟨k, hheld⟩ hnet
    refine obeys_act (Phase.permits_of_works rfl ⟨by omega, by omega, ?_⟩) fun _ _ => ?_
    · rwa [Nat.add_sub_cancel_left]
    · have hnext : (Phase.holding {(t, k)}).next c cfg (.runKernel t (t.info.index + k)) () =
          .holding {(t, k + 1)} := by
        simp only [Phase.next, Phase.holding, Nat.add_sub_cancel_left, Multiset.erase_singleton]
        rfl
      show Prog.Obeys _ _ _ ((Phase.holding {(t, k)}).next c cfg (.runKernel t (t.info.index + k)) ())
      rw [hnext, Nat.add_assoc]
      exact ih (by omega)

theorem obeys_executeTask (hrun : Runnable c) {t : Ticket} (hpos : 1 ≤ t.info.bulkCount)
    (hnet : c.isNetworkNode t.info.id = false) :
    (Threads.executeTask c cfg t).Obeys (resolutionDiscipline c cfg guarded) (Continues c)
      (.holding {(t, 0)}) := by
  have hheld : (t, 0) ∈ ({(t, 0)} : Multiset (Ticket × ℕ)) := Multiset.mem_singleton_self _
  refine obeys_act (Phase.permits_of_works rfl trivial) fun current hcurrent => ?_
  have hgen : current.gen = t.info.gen := hcurrent _ hheld rfl hnet
  have hsame : (Phase.holding {(t, 0)}).next c cfg (.loadGeneration t.slot) current =
      .holding {(t, 0)} := by
    simp only [Phase.next]
    exact if_neg (Multiset.notMem_zero _)
  rw [if_neg (not_not.mpr hgen), hsame]
  split
  · refine (obeys_runCells (k := 0) hnet (Nat.zero_add _)).bind ?_
    rintro stale l ⟨rfl, rfl⟩
    exact obeys_workerResolveSuccessors hrun hnet
  · next hone =>
    have hsize : t.info.bulkCount = 1 := by omega
    refine obeys_act (Phase.permits_of_works rfl trivial) fun stale hstale => ?_
    obtain rfl : stale = false := hstale ⟨0, hheld⟩ hnet
    refine obeys_act (Phase.permits_of_works rfl ⟨le_refl _, by omega, ?_⟩) fun _ _ => ?_
    · rwa [Nat.sub_self]
    · have hnext : (Phase.holding {(t, 0)}).next c cfg (.runKernel t t.info.index) () =
          .holding {(t, t.info.bulkCount)} := by
        simp only [Phase.next, Phase.holding, Nat.sub_self, Multiset.erase_singleton, hsize]
        rfl
      show Prog.Obeys _ _ _ ((Phase.holding {(t, 0)}).next c cfg (.runKernel t t.info.index) ())
      rw [hnext]
      split
      · exact obeys_workerResolveSuccessors hrun hnet
      · refine obeys_act (Phase.permits_of_works rfl
          ⟨Multiset.mem_singleton_self _, Multiset.notMem_zero _, hnet⟩) fun _ _ => ?_
        show ({ Phase.idle with hand := _ } : Phase) = Phase.idle
        rw [← Phase.holding_zero]
        exact congrArg Phase.holding (Multiset.erase_singleton _)

theorem obeys_work (hrun : Runnable c) :
    (Threads.work c cfg).Obeys (resolutionDiscipline c cfg guarded) (fun _ l => l = .idle)
      .idle := by
  refine obeys_act (Phase.permits_of_works rfl trivial) fun taken htaken => ?_
  cases taken with
  | none => exact rfl
  | some t =>
    obtain ⟨hpos, hnet⟩ := htaken t rfl
    refine (obeys_executeTask hrun hpos hnet).bind fun inline l hl => ?_
    cases inline with
    | none => exact hl
    | some next =>
      obtain ⟨rfl, hnet'⟩ := hl
      refine obeys_atomic (Phase.permits_of_works rfl
        ⟨Multiset.mem_singleton_self _, Multiset.notMem_zero _, hnet'⟩) fun _ _ => ?_
      exact congrArg Phase.holding (Multiset.erase_singleton _)

/-! ## Batches -/

theorem obeys_enterAll {slots : List ℕ} (hnodup : slots.Nodup) {l : Phase} (hfree : l.focus = .free)
    (hout : ∀ slot ∈ slots, slot ∉ l.inside) (hhand : ∀ slot ∈ slots, ∃ p ∈ l.hand, p.1.slot = slot) :
    (Threads.enterAll slots).Obeys (resolutionDiscipline c cfg guarded)
      (fun _ l' => l' = { l with inside := (slots : Multiset ℕ) + l.inside }) l := by
  induction slots generalizing l with
  | nil =>
    show l = { l with inside := 0 + l.inside }
    rw [zero_add]
  | cons slot slots ih =>
    obtain ⟨hfresh, hnodup⟩ := List.nodup_cons.mp hnodup
    refine obeys_act (Phase.permits_of_works hfree
      ⟨hout slot List.mem_cons_self, hhand slot List.mem_cons_self⟩) fun _ _ => ?_
    refine (ih (l := { l with inside := slot ::ₘ l.inside }) hnodup hfree (fun s hs hin => ?_)
      fun s hs => hhand s (List.mem_cons_of_mem _ hs)).mono ?_
    · rcases Multiset.mem_cons.mp hin with rfl | hin
      · exact hfresh hs
      · exact hout s (List.mem_cons_of_mem _ hs) hin
    · rintro _ l' rfl
      rw [← Multiset.cons_coe, Multiset.cons_add, Multiset.add_cons]

/-- All brackets are closed again. -/
theorem obeys_leaveAll {slots : List ℕ} {l : Phase} (hnodup : slots.Nodup)
    (hinside : l.inside = slots) (hfree : l.focus = .free) (hhand : l.hand = 0) (hready : l.ready = 0)
    (houtgoing : l.outgoing = 0) (hserved : ∀ t ∈ l.served, t.slot ∈ slots)
    (hpassed : ∀ x ∈ l.passed, x.slot ∈ slots) (hstamp : slots = [] → l.stamp = none) :
    (Threads.leaveAll slots).Obeys (resolutionDiscipline c cfg guarded) (fun _ l' => l' = .idle)
      l := by
  induction slots generalizing l with
  | nil =>
    have hserved' : l.served = [] := List.eq_nil_iff_forall_not_mem.mpr fun t ht =>
      (nomatch hserved t ht)
    have hpassed' : l.passed = [] := List.eq_nil_iff_forall_not_mem.mpr fun x hx =>
      (nomatch hpassed x hx)
    exact Phase.ext hhand hready houtgoing hinside hserved' (hstamp rfl) hpassed' hfree
  | cons slot slots ih =>
    obtain ⟨hfresh, hnodup'⟩ := List.nodup_cons.mp hnodup
    refine obeys_leave hfree (hinside ▸ List.mem_cons_self) (ih hnodup' ?_ hfree hhand hready
      houtgoing (fun t ht => ?_) (fun x hx => ?_) fun _ => rfl)
    · show l.inside.erase slot = slots
      rw [hinside, ← Multiset.cons_coe, Multiset.erase_cons_head]
    · obtain ⟨ht, hne⟩ := List.mem_filter.mp ht
      exact (List.mem_cons.mp (hserved t ht)).resolve_left (of_decide_eq_true hne)
    · obtain ⟨hx, hne⟩ := List.mem_filter.mp hx
      exact (List.mem_cons.mp (hpassed x hx)).resolve_left (of_decide_eq_true hne)

/-- The tasks of a batch, which have run. -/
def batchHand (batch : List Ticket) : Multiset (Ticket × ℕ) :=
  (batch.map fun t => (t, t.info.bulkCount) : List (Ticket × ℕ))

theorem mem_batchHand {batch : List Ticket} {t : Ticket} (ht : t ∈ batch) :
    (t, t.info.bulkCount) ∈ batchHand batch :=
  Multiset.mem_coe.mpr (List.mem_map_of_mem ht)

theorem batchHand_cons (t : Ticket) (batch : List Ticket) :
    batchHand (t :: batch) = (t, t.info.bulkCount) ::ₘ batchHand batch := rfl

/-- What waits for the flush is with the thread, and all it has served is in its brackets. -/
structure Gathers (c : Compiled) (guarded : Prop) (l : Phase)
    (batchSched : List (Option Ticket × NodeInfo)) : Prop where
  free : l.focus = .free
  sends : ∀ p ∈ batchSched, ∃ t, p.1 = some t ∧ t.slot ∈ l.inside ∧ l.Sends c guarded t p.2
  served : ∀ t ∈ l.served, t.slot ∈ l.inside
  passed : ∀ x ∈ l.passed, x.slot ∈ l.inside

theorem obeys_processBatchInner (hrun : Runnable c) {opts : Options} {batch : List Ticket}
    {batchSched : List (Option Ticket × NodeInfo)} {l : Phase} (hl : Gathers c guarded l batchSched)
    (hhand : l.hand = batchHand batch) (hslots : ∀ t ∈ batch, t.slot ∈ l.inside) :
    (Threads.processBatchInner c opts batch batchSched).Obeys
      (resolutionDiscipline c opts.config guarded)
      (fun _ l' => Gathers c guarded l' [] ∧ l'.hand = 0 ∧ l'.inside = l.inside ∧
        l'.ready = l.ready ∧ l'.outgoing = l.outgoing)
      (l.gain c opts.config (batchSched.map (·.2))) := by
  induction batch generalizing l batchSched with
  | nil =>
    refine (obeys_sendToScheduler hl.free hl.sends).mono ?_
    rintro _ l' hl'
    rw [hl']
    exact ⟨⟨hl.free, fun _ hp => (nomatch hp), hl.served, hl.passed⟩, hhand, rfl, rfl, rfl⟩
  | cons t batch ih =>
    have hin := hslots t List.mem_cons_self
    have hheld : (t, t.info.bulkCount) ∈ l.hand := by
      rw [hhand]
      exact mem_batchHand List.mem_cons_self
    refine obeys_act (Phase.permits_of_works hl.free ⟨hheld, hin⟩) fun _ _ => ?_
    refine obeys_act (Phase.permits_of_works hl.free trivial) fun st _ => ?_
    let l1 : Phase :=
      { l with hand := batchHand batch, served := t :: l.served, stamp := some (t.slot, st) }
    have hphase : ((l.gain c opts.config (batchSched.map (·.2))).next c opts.config
        (.retire t false) ()).next c opts.config (.loadGeneration t.slot) st =
          l1.gain c opts.config (batchSched.map (·.2)) := by
      have herase : l.hand.erase (t, t.info.bulkCount) = batchHand batch := by
        rw [hhand, batchHand_cons, Multiset.erase_cons_head]
      exact (if_pos hin).trans (Phase.ext herase rfl rfl rfl rfl rfl rfl rfl)
    show Prog.Obeys _ _ _ (((l.gain c opts.config (batchSched.map (·.2))).next c opts.config
      (.retire t false) ()).next c opts.config (.loadGeneration t.slot) st)
    rw [hphase]
    have hwalks : (l1.gain c opts.config (batchSched.map (·.2))).Walks t st.gen :=
      ⟨hl.free, List.mem_cons_self, st.epoch, rfl⟩
    refine (obeys_batchWalk hrun (fun e he => he) hwalks).bind fun sched l2 hcollects => ?_
    -- everything that waits, with what this task has added
    let l3 : Phase := { l1 with passed := l2.passed }
    have hgained : l2 = l3.gain c opts.config
        ((batchSched ++ sched.map (some t, ·)).map (·.2)) := by
      rw [hcollects.gained, List.map_append, List.map_map, Phase.gain_append]
      show ({ (l1.gain c opts.config _).gain c opts.config sched with passed := _ } : Phase) = _
      rw [show (Prod.snd ∘ fun ni => (some t, ni)) = (id : NodeInfo → NodeInfo) from rfl, List.map_id]
      rfl
    have hkept : ∀ x ∈ l.passed, x ∈ l2.passed := hcollects.kept
    have hgathers : Gathers c guarded l3 (batchSched ++ sched.map (some t, ·)) := by
      refine ⟨hl.free, fun p hp => ?_, fun u hu => ?_, fun x hx => ?_⟩
      · rcases List.mem_append.mp hp with hp | hp
        · obtain ⟨u, hu, hinu, hs⟩ := hl.sends p hp
          refine ⟨u, hu, hinu, ?_⟩
          exact ⟨List.mem_cons_of_mem _ hs.served, hs.slot, hs.nonempty, hs.compute,
            fun hg hc x hx => hkept x (hs.passed hg hc x hx)⟩
        · obtain ⟨ni, hni, rfl⟩ := List.mem_map.mp hp
          exact ⟨t, rfl, hin, (hcollects.sends ni hni).keep (by rw [hcollects.served]; rfl)
            fun _ => id⟩
      · rcases List.mem_cons.mp hu with rfl | hu
        · exact hin
        · exact hl.served u hu
      · rcases hcollects.here x hx with hx | hx
        · exact hl.passed x hx
        · exact hx ▸ hin
    have hslots' : ∀ u ∈ batch, u.slot ∈ l3.inside := fun u hu =>
      hslots u (List.mem_cons_of_mem _ hu)
    rw [hgained]
    simp only
    split
    · refine (obeys_sendToScheduler hgathers.free hgathers.sends).bind ?_
      rintro _ l4 hl4
      have hempty : Gathers c guarded l4 [] := by
        rw [hl4]
        exact ⟨hl.free, fun _ hp => (nomatch hp), hgathers.served, hgathers.passed⟩
      have hrest := ih hempty (by rw [hl4]) (by rw [hl4]; exact hslots')
      rw [List.map_nil, Phase.gain_nil] at hrest
      refine hrest.mono ?_
      rintro _ l5 ⟨hg, hh, hi, hr, ho⟩
      rw [hl4] at hi hr ho
      exact ⟨hg, hh, hi, hr, ho⟩
    · exact ih hgathers rfl hslots'

theorem obeys_processBatchResolution (hrun : Runnable c) {opts : Options} (batch : List Ticket) :
    (Threads.processBatchResolution c opts batch).Obeys (resolutionDiscipline c opts.config guarded)
      (fun _ l => l = .idle) (.holding (batchHand batch)) := by
  unfold Threads.processBatchResolution
  split
  · next hempty =>
    rw [List.isEmpty_iff.mp hempty]
    exact rfl
  · next hempty =>
    have hslot : ∀ slot ∈ Threads.slotsInBatch batch, ∃ t ∈ batch, t.slot = slot := fun slot hs =>
      List.mem_map.mp (List.mem_dedup.mp hs)
    have hnodup : (Threads.slotsInBatch batch).Nodup := List.nodup_dedup _
    refine (obeys_enterAll hnodup rfl (fun slot _ => Multiset.notMem_zero slot)
      fun slot hs => ?_).bind ?_
    · obtain ⟨t, ht, rfl⟩ := hslot slot hs
      exact ⟨_, mem_batchHand ht, rfl⟩
    · rintro _ l rfl
      let l : Phase :=
        { Phase.holding (batchHand batch) with inside := (Threads.slotsInBatch batch : Multiset ℕ) }
      have hstart : Gathers c guarded l [] :=
        ⟨rfl, fun _ hp => (nomatch hp), fun _ ht => (nomatch ht), fun _ hx => (nomatch hx)⟩
      have hslots : ∀ t ∈ batch, t.slot ∈ l.inside := fun t ht =>
        Multiset.mem_coe.mpr (List.mem_dedup.mpr (List.mem_map_of_mem ht))
      have hinner := @obeys_processBatchInner c guarded hrun opts batch [] l hstart rfl hslots
      rw [List.map_nil, Phase.gain_nil] at hinner
      have hsame : ({ Phase.holding (batchHand batch) with
          inside := (Threads.slotsInBatch batch : Multiset ℕ) + 0 } : Phase) = l := by
        rw [add_zero]
      show Prog.Obeys _ _ _ ({ Phase.holding (batchHand batch) with
          inside := (Threads.slotsInBatch batch : Multiset ℕ) + 0 } : Phase)
      rw [hsame]
      refine hinner.bind ?_
      rintro _ l' ⟨hg, hhand, hinside, hready, houtgoing⟩
      replace hinside : l'.inside = (Threads.slotsInBatch batch : Multiset ℕ) := hinside
      refine obeys_leaveAll hnodup hinside hg.free hhand hready houtgoing (fun t ht => ?_)
        (fun x hx => ?_) fun hnil => ?_
      · exact Multiset.mem_coe.mp (hinside ▸ hg.served t ht)
      · exact Multiset.mem_coe.mp (hinside ▸ hg.passed x hx)
      · obtain ⟨t, ht⟩ := List.exists_mem_of_ne_nil batch (by simpa using hempty)
        have hmem : t.slot ∈ Threads.slotsInBatch batch :=
          List.mem_dedup.mpr (List.mem_map_of_mem ht)
        rw [hnil] at hmem
        cases hmem

/-! ## The batch queue -/

theorem obeys_takeBatchUpTo (n : ℕ) (hand : Multiset (Ticket × ℕ)) :
    (Threads.takeBatchUpTo n).Obeys (resolutionDiscipline c cfg guarded)
      (fun batch l' => l' = .holding (batchHand batch + hand) ∧
        ∀ t ∈ batch, c.isNetworkNode t.info.id = false) (.holding hand) := by
  induction n generalizing hand with
  | zero =>
    refine ⟨?_, fun _ ht => (nomatch ht)⟩
    exact congrArg Phase.holding (zero_add hand).symm
  | succ n ih =>
    refine obeys_act (Phase.permits_of_works rfl trivial) fun taken htaken => ?_
    cases taken with
    | none =>
      refine ⟨?_, fun _ ht => (nomatch ht)⟩
      exact congrArg Phase.holding (zero_add hand).symm
    | some t =>
      have hnet := htaken t rfl
      refine (ih ((t, t.info.bulkCount) ::ₘ hand)).bind ?_
      rintro rest l ⟨rfl, hrest⟩
      refine ⟨?_, fun u hu => ?_⟩
      · rw [batchHand_cons, Multiset.cons_add, Multiset.add_cons]
      · rcases List.mem_cons.mp hu with rfl | hu
        · exact hnet
        · exact hrest u hu

/-- A task in hand finds its generation in the cache. -/
theorem obeys_loadGenerations (slots : List ℕ) (hand : Multiset (Ticket × ℕ)) :
    (Threads.loadGenerations slots).Obeys (resolutionDiscipline c cfg guarded)
      (fun cache l' => l' = .holding hand ∧ ∀ p ∈ hand, p.1.slot ∈ slots →
        c.isNetworkNode p.1.info.id = false → (p.1.slot, p.1.info.gen) ∈ cache) (.holding hand) := by
  induction slots with
  | nil => exact ⟨rfl, fun _ _ hs => (nomatch hs)⟩
  | cons slot slots ih =>
    refine obeys_act (Phase.permits_of_works rfl trivial) fun st hst => ?_
    have hnext : (Phase.holding hand).next c cfg (.loadGeneration slot) st = .holding hand := by
      simp only [Phase.next]
      exact if_neg (Multiset.notMem_zero _)
    rw [hnext]
    refine ih.bind ?_
    rintro cache l ⟨rfl, hcache⟩
    refine ⟨rfl, fun p hp hs hnet => ?_⟩
    rcases List.mem_cons.mp hs with hs | hs
    · rw [hs, ← hst p hp hs hnet]
      exact List.mem_cons_self
    · exact List.mem_cons_of_mem _ (hcache p hp hs hnet)

/-- The filter of the drain drops nothing. -/
theorem obeys_drain (hrun : Runnable c) (opts : Options) :
    (Threads.drainAndProcessBatchQueue c opts).Obeys (resolutionDiscipline c opts.config guarded)
      (fun _ l => l = .idle) .idle := by
  refine (obeys_takeBatchUpTo opts.targetSize 0).bind ?_
  rintro batch l ⟨rfl, hnet⟩
  refine (obeys_loadGenerations (Threads.slotsInBatch batch) _).bind ?_
  rintro cache l ⟨rfl, hcache⟩
  have hall : batch.filter (fun t => (t.slot, t.info.gen) ∈ cache) = batch := by
    refine List.filter_eq_self.mpr fun t ht => decide_eq_true ?_
    refine hcache (t, t.info.bulkCount) (Multiset.mem_add.mpr (.inl (mem_batchHand ht))) ?_ (hnet t ht)
    exact List.mem_dedup.mpr (List.mem_map_of_mem ht)
  rw [hall, add_zero]
  exact obeys_processBatchResolution hrun batch

/-! ## Completion -/

/-- A thread with nothing else to settle. -/
def Phase.at (f : Focus) : Phase := { Phase.idle with focus := f }

theorem Phase.next_load (f : Focus) (counter : Counter) (slot : ℕ) (n : UInt64) :
    (Phase.at f).next c cfg (.load counter slot) n = .at (f.seen (n = 0)) := rfl

/-- The three loads: `f` follows them while they read zero, and `miss` is where they lead once one
of them does not. -/
theorem obeys_loads {β : Type} {slot : ℕ} {f : Look → Focus} {miss : Focus}
    {k : UInt64 → UInt64 → UInt64 → Thread β} {post : β → Phase → Prop}
    (hseen : ∀ look zero, (f look).seen zero = if zero then f look.after else miss)
    (hmiss : ∀ zero, miss.seen zero = miss)
    (hlook : ∀ look counter, look.counter = some counter →
      (Phase.at (f look)).permits c cfg guarded (.load counter slot))
    (hfree : ∀ counter, (Phase.at miss).permits c cfg guarded (.load counter slot))
    (hquiet : (k 0 0 0).Obeys (resolutionDiscipline c cfg guarded) post (.at (f .quiet)))
    (hother : ∀ n m p, n ≠ 0 ∨ m ≠ 0 ∨ p ≠ 0 →
      (k n m p).Obeys (resolutionDiscipline c cfg guarded) post (.at miss)) :
    (atomic (.load .pendingTasks slot) >>= fun n => atomic (.load .pendingCondTasks slot) >>= fun m =>
      atomic (.load .processingCount slot) >>= fun p => k n m p).Obeys
        (resolutionDiscipline c cfg guarded) post (.at (f .fresh)) := by
  refine obeys_act (hlook .fresh .pendingTasks rfl) fun n _ => ?_
  rw [Phase.next_load, hseen]
  by_cases hn : n = 0
  · rw [if_pos (decide_eq_true hn)]
    refine obeys_act (hlook .empty .pendingCondTasks rfl) fun m _ => ?_
    rw [Phase.next_load, hseen]
    by_cases hm : m = 0
    · rw [if_pos (decide_eq_true hm)]
      refine obeys_act (hlook .drained .processingCount rfl) fun p _ => ?_
      rw [Phase.next_load, hseen]
      by_cases hp : p = 0
      · rw [if_pos (decide_eq_true hp), hn, hm, hp]
        exact hquiet
      · rw [if_neg (by simpa using hp)]
        exact hother n m p (.inr (.inr hp))
    · rw [if_neg (by simpa using hm)]
      refine obeys_act (hfree _) fun p _ => ?_
      rw [Phase.next_load, hmiss]
      exact hother n m p (.inr (.inl hm))
  · rw [if_neg (by simpa using hn)]
    refine obeys_act (hfree _) fun m _ => obeys_act ?_ fun p _ => ?_
    · rw [Phase.next_load, hmiss]
      exact hfree _
    · rw [Phase.next_load, hmiss, Phase.next_load, hmiss]
      exact hother n m p (.inl hn)

theorem obeys_detect (slot : ℕ) :
    (Threads.detectAndClaimSlotCompletion slot).Obeys (resolutionDiscipline c cfg guarded)
      (fun claimed l' => l' = if claimed then .at (.claim slot .quiet) else .idle)
      (.at (.check slot .fresh)) := by
  refine obeys_loads (fun _ _ => rfl) (fun _ => rfl) (fun look counter hnext => ?_)
    (fun _ => trivial) ?_ fun n m p hne => ?_
  · show Act.load counter slot = _
    rw [hnext]
    rfl
  · rw [if_neg (by simp)]
    refine obeys_act rfl fun won _ => ?_
    cases won with
    | false => exact rfl
    | true =>
      refine obeys_loads (f := Focus.claim slot) (fun _ _ => rfl) (fun _ => rfl)
        (fun look counter hnext => ?_) (fun counter => .inr ⟨counter, rfl⟩) ?_ fun n m p hne => ?_
      · show Act.load counter slot = _
        rw [hnext]
        rfl
      · rw [if_neg (by simp)]
        exact rfl
      · rw [if_pos hne]
        exact obeys_act (.inl rfl) fun _ _ => rfl
  · rw [if_pos hne]
    exact rfl

theorem obeys_reset (slot : ℕ) :
    (Threads.resetSlotState slot).Obeys (resolutionDiscipline c cfg guarded)
      (fun _ l' => l' = .idle) (.at (.claim slot .quiet)) :=
  obeys_act rfl fun _ _ => obeys_act rfl fun _ _ => obeys_act rfl fun _ _ => obeys_act rfl fun _ _ =>
    obeys_atomic rfl fun _ _ => rfl

theorem obeys_checkSlots (slots : List ℕ) :
    (Threads.checkSlots slots).Obeys (resolutionDiscipline c cfg guarded) (fun _ l => l = .idle)
      .idle := by
  induction slots with
  | nil => exact rfl
  | cons slot slots ih =>
    have hslot : (Threads.checkSlot slot).Obeys (resolutionDiscipline c cfg guarded)
        (fun _ l => l = .idle) .idle := by
      refine obeys_act (Phase.permits_of_works rfl trivial) fun dirty _ => ?_
      cases dirty with
      | false => exact rfl
      | true =>
        refine (obeys_detect slot).bind ?_
        rintro claimed l rfl
        cases claimed with
        | false => exact rfl
        | true =>
          refine (obeys_reset slot).bind ?_
          rintro _ l rfl
          exact obeys_atomic (Phase.permits_of_works rfl trivial) fun _ _ => rfl
    refine hslot.bind ?_
    rintro _ l rfl
    exact ih

/-! ## Frames and packets -/

theorem obeys_activateSlot (slot : ℕ) :
    (Threads.activateSlot slot).Obeys (resolutionDiscipline c cfg guarded) (fun _ l => l = .idle)
      .idle := by
  refine obeys_act (Phase.permits_of_works rfl trivial) fun newly _ => ?_
  cases newly with
  | false => exact rfl
  | true =>
    exact obeys_act (Phase.permits_of_works rfl rfl) fun _ _ =>
      obeys_atomic (Phase.permits_of_works rfl rfl) fun _ _ => rfl

theorem mem_initialNodes {slot workers : ℕ} {ni : NodeInfo} (h : ni ∈ initialNodes c slot workers) :
    ni.id ∈ c.graph.initialNodes ∧ 1 ≤ ni.bulkCount ∧ ∀ x ∈ ni.cells, x.idx < c.factor x.node := by
  obtain ⟨id, hid, hni⟩ := List.mem_flatMap.mp h
  split at hni
  · cases hni
  · next hpos =>
    have hchunks : 0 < min (max workers 1) (c.factor id) := by omega
    obtain ⟨ch, hch, rfl⟩ := List.mem_map.mp hni
    refine ⟨hid, chunks_nonempty (Nat.min_le_right _ _) ch hch, fun x hx => ?_⟩
    obtain ⟨-, hnode, hlo, hhi⟩ := NodeInfo.mem_cells.mp hx
    have hbound := (chunks_bounded hchunks hch (List.mem_range'_1.mpr ⟨hlo, hhi⟩)).2
    rw [Nat.zero_add] at hbound
    rw [hnode]
    exact hbound

theorem obeys_spawnInitial (opts : Options) (slots : List ℕ) :
    (Threads.spawnInitial c opts slots).Obeys (resolutionDiscipline c cfg guarded)
      (fun _ l => l = .idle) .idle := by
  have htasks : ∀ ni ∈ slots.flatMap fun s => initialNodes c s opts.config.workers,
      ni.id ∈ c.graph.initialNodes ∧ 1 ≤ ni.bulkCount ∧ ∀ x ∈ ni.cells, x.idx < c.factor x.node := by
    intro ni hni
    obtain ⟨s, -, hni⟩ := List.mem_flatMap.mp hni
    exact mem_initialNodes hni
  unfold Threads.spawnInitial
  generalize (slots.flatMap fun s => initialNodes c s opts.config.workers) = tasks at htasks ⊢
  induction tasks with
  | nil => exact rfl
  | cons ni tasks ih =>
    refine obeys_act (Phase.permits_of_works rfl trivial) fun st _ => ?_
    have hnext : Phase.idle.next c cfg (.loadGeneration ni.slot) st = .idle := by
      simp only [Phase.next]
      exact if_neg (Multiset.notMem_zero _)
    rw [hnext]
    refine obeys_act (Phase.permits_of_works rfl (htasks ni List.mem_cons_self)) fun _ _ => ?_
    exact ih fun m hm => htasks m (List.mem_cons_of_mem _ hm)

theorem obeys_admitPackets (packets : List (ℕ × ℕ)) :
    (Threads.admitPackets packets).Obeys (resolutionDiscipline c cfg guarded)
      (fun batch l => l = .idle ∧ ∀ ni ∈ batch, ni = NodeInfo.new 0 ni.slot ni.index 0) .idle := by
  induction packets with
  | nil => exact ⟨rfl, fun _ hni => (nomatch hni)⟩
  | cons packet packets ih =>
    obtain ⟨slot, index⟩ := packet
    refine obeys_act (Phase.permits_of_works rfl trivial) fun active _ => ?_
    refine Prog.Obeys.bind ih ?_
    rintro batch l ⟨rfl, hbatch⟩
    refine ⟨rfl, fun ni hni => ?_⟩
    cases active with
    | false => exact hbatch ni hni
    | true =>
      rcases List.mem_cons.mp hni with rfl | hni
      · rfl
      · exact hbatch ni hni

theorem mem_coalescedEntries {batch : List NodeInfo}
    (hbatch : ∀ ni ∈ batch, ni = NodeInfo.new 0 ni.slot ni.index 0) {ni : NodeInfo}
    (h : ni ∈ Threads.coalescedEntries c batch) : 1 ≤ ni.bulkCount := by
  unfold Threads.coalescedEntries at h
  simp only at h
  split at h
  · rw [hbatch ni h]
    exact le_refl 1
  · obtain ⟨entry, hentry, rfl⟩ := List.mem_map.mp h
    refine (Compiled.mem_coalesced (fun e he => ?_) hentry).2
    obtain ⟨mi, hmi, rfl⟩ := List.mem_map.mp he
    exact hbatch mi hmi

theorem obeys_deliverAll {entries : List NodeInfo} (hentries : ∀ ni ∈ entries, 1 ≤ ni.bulkCount)
    (hand : Multiset (Ticket × ℕ)) :
    (Threads.deliverAll entries).Obeys (resolutionDiscipline c cfg guarded)
      (fun batch l' => l' = .holding (batchHand batch + hand)) (.holding hand) := by
  induction entries generalizing hand with
  | nil => exact congrArg Phase.holding (zero_add hand).symm
  | cons ni entries ih =>
    refine obeys_act (Phase.permits_of_works rfl (hentries ni List.mem_cons_self)) fun t _ => ?_
    refine (ih (fun m hm => hentries m (List.mem_cons_of_mem _ hm))
      ((t, t.info.bulkCount) ::ₘ hand)).bind ?_
    rintro rest l rfl
    refine congrArg Phase.holding ?_
    rw [batchHand_cons, Multiset.cons_add, Multiset.add_cons]

/-- Delivered entries go through the batch path at once. -/
theorem obeys_deliverBatch (hrun : Runnable c) (opts : Options) {entries : List NodeInfo}
    (hentries : ∀ ni ∈ entries, 1 ≤ ni.bulkCount) :
    (Threads.deliverAll entries >>= Threads.processBatchResolution c opts).Obeys
      (resolutionDiscipline c opts.config guarded) (fun _ l => l = .idle) .idle := by
  refine (obeys_deliverAll hentries 0).bind ?_
  rintro batch l rfl
  rw [add_zero]
  exact obeys_processBatchResolution hrun batch

/-! ## All jobs -/

theorem obeys_job (hrun : Runnable c) (opts : Options) (job : Job) :
    (job.program c opts).Obeys (resolutionDiscipline c opts.config guarded) (fun _ l => l = .idle)
      .idle := by
  cases job with
  | work => exact obeys_work hrun
  | drain => exact obeys_drain hrun opts
  | check slots => exact obeys_checkSlots slots
  | activate slot => exact obeys_activateSlot slot
  | restart slot =>
    exact obeys_act (Phase.permits_of_works rfl trivial) fun _ _ => rfl
  | spawnInitial slots => exact obeys_spawnInitial opts slots
  | packets ps =>
    refine (obeys_admitPackets ps).bind ?_
    rintro batch l ⟨rfl, hbatch⟩
    exact obeys_deliverBatch hrun opts fun ni hni => mem_coalescedEntries hbatch hni
  | buffered ps =>
    refine obeys_deliverBatch hrun opts fun ni hni => ?_
    obtain ⟨p, -, rfl⟩ := List.mem_map.mp hni
    exact le_refl 1

/-- Every job keeps to the discipline, and every permitted step keeps the invariant. -/
theorem runtime_maintains (hrun : Runnable c) (opts : Options) (guarded clean : Prop) :
    Machine.Maintains (runtimeMachine c opts) (Orderly c guarded clean)
      (resolutionDiscipline c opts.config guarded) .idle (· = .idle)
      (Inv c opts.config guarded clean) where
  jobs := obeys_job hrun opts
  forget := by
    rintro σ pre post l rfl h
    exact h
  step := by
    intro σ pre post l choice a h hpermits hok
    have hfirst := h.perm List.perm_middle
    exact ⟨hfirst.knows choice a hok,
      (hfirst.act hrun choice a hpermits hok).perm List.perm_middle.symm⟩

/-- In every world that an orderly run reaches, the threads follow the discipline under the
invariant. -/
theorem runtime_reached (hrun : Runnable c) {opts : Options} {guarded clean : Prop} {threads : UInt64}
    {w : World atomics Shared}
    (hreach : (runtimeMachine c opts).Reaches (Orderly c guarded clean)
      (World.initial c threads) w) :
    ∃ ls, Inv c opts.config guarded clean w.shared ls ∧
      Machine.Follows (resolutionDiscipline c opts.config guarded) (· = .idle) w.threads ls :=
  (runtime_maintains hrun opts guarded clean).reached hreach
    (Inv.initial c opts.config guarded clean threads.toNat_lt)
    (Machine.follows_idle (· = Phase.idle) rfl threads.toNat)

end Tomii
