import EasyCore.Kernel.SchedInv

/-! What each function of the scheduler and of thread.c does to the invariant: one lemma a
    function, with the lists it leaves behind (`without`, `enqueue`, `push`). -/

namespace EasyCore.Kernel
open Function EasyCore.Links

variable {κ τ : Type*} {pmax : ℕ} {s s' : KState κ τ} {K K' : τ → Prop} {L L' : Head κ → List τ}
  {t u : τ} {th : Thread} {k : κ}

/-! ### One thread -/

/-- On no list. -/
theorem Placed.off {known : Prop} {isOn : Head κ → Prop} (hoff : ∀ h, h.Valid pmax → ¬isOn h)
    (hst : th.stat ≠ .ready) (hm : known → th.stat = .suspend → th.MaskOk pmax)
    (hp : known → th.currentPriority < pmax ∧ th.initPriority < pmax) :
    Placed pmax th known isOn where
  listed hV ho := absurd ho (hoff _ hV)
  own hV ho := absurd ho (hoff _ hV)
  ready _ hr := absurd hr hst
  maskOk hk ho := hm hk (ho.resolve_left hst)
  prio := hp

/-- On one list, `g`. -/
theorem Placed.only {known : Prop} {isOn : Head κ → Prop} {g : Head κ}
    (hon : ∀ h, h.Valid pmax → isOn h → h = g) (hst : th.stat = g.stat)
    (hg : th.stat = .ready → g = .ready th.currentPriority ∧ isOn g)
    (hm : known → th.stat = .ready ∨ th.stat = .suspend → th.MaskOk pmax)
    (hp : known → th.currentPriority < pmax ∧ th.initPriority < pmax) :
    Placed pmax th known isOn where
  listed hV ho := by rw [hon _ hV ho, hst]
  own {p} hV ho := by
    have he := hon _ (Head.valid_ready.2 hV) ho
    have hr := hg (by rw [hst, ← he]; rfl)
    rw [← he] at hr
    exact (Head.ready.inj hr.1).symm
  ready _ hr := (hg hr).1 ▸ (hg hr).2
  maskOk := hm
  prio := hp

theorem Placed.congr {known known' : Prop} {isOn isOn' : Head κ → Prop}
    (h : Placed pmax th known isOn) (hk : known' ↔ known)
    (hon : ∀ h, h.Valid pmax → (isOn' h ↔ isOn h)) : Placed pmax th known' isOn' where
  listed hV ho := h.listed hV ((hon _ hV).1 ho)
  own hV ho := h.own hV ((hon _ (Head.valid_ready.2 hV)).1 ho)
  ready hkn hr := (hon _ (Head.valid_ready.2 (h.prio (hk.1 hkn)).1)).2 (h.ready (hk.1 hkn) hr)
  maskOk hkn := h.maskOk (hk.1 hkn)
  prio hkn := h.prio (hk.1 hkn)

/-- A step that moves one thread: it is enough to look at that thread. -/
theorem SchedInv.of_core (i : SchedInv pmax s K L) (t : τ) (c : Core pmax s' K' L')
    (hK : ∀ u, u ≠ t → (K' u ↔ K u)) (hKt : K t → K' t)
    (hth : ∀ u, u ≠ t → s'.thread u = s.thread u)
    (hL : ∀ u, u ≠ t → ∀ h, h.Valid pmax → (u ∈ L' h ↔ u ∈ L h))
    (ht : Placed pmax (s'.thread t) (K' t) fun h => t ∈ L' h)
    (hc : s'.currentThread = s.currentThread) : SchedInv pmax s' K' L' where
  core := c
  placed u := by
    by_cases hu : u = t
    · exact hu ▸ ht
    · rw [hth u hu]
      exact (i.placed u).congr (hK u hu) (hL u hu)
  current {u} hu := by
    have hk := i.current (hc ▸ hu)
    by_cases hut : u = t
    · subst hut
      exact hKt hk
    · exact (hK u hut).2 hk

namespace SchedInv

theorem nodup (i : SchedInv pmax s K L) {h : Head κ} (hV : h.Valid pmax) : (L h).Nodup :=
  i.core.queues.nodup hV

/-- A thread that is neither ready, waiting nor closed is on no list. -/
theorem not_mem (i : SchedInv pmax s K L) {h : Head κ} (hV : h.Valid pmax)
    (hne : (s.thread t).stat ≠ h.stat) : t ∉ L h := fun ht => hne ((i.placed t).listed hV ht)

/-- A ready thread is on the ready list of its priority only. -/
theorem mem_ready_iff (i : SchedInv pmax s K L) (hK : K t) (hr : (s.thread t).stat = .ready)
    {h : Head κ} (hV : h.Valid pmax) : t ∈ L h ↔ h = .ready (s.thread t).currentPriority := by
  have hm := (i.placed t).ready hK hr
  have hp := ((i.placed t).prio hK).1
  constructor
  · intro ht
    exact i.core.queues.uniq hV (Head.valid_ready.2 hp) ht hm
  · rintro rfl
    exact hm

/-- The masks are right wherever the thread can be on a ready list. -/
theorem maskOk_of_mem (i : SchedInv pmax s K L) (hK : K t) {p : ℕ} (hp : p < pmax)
    (ht : t ∈ L (.ready p)) : (s.thread t).MaskOk pmax :=
  (i.placed t).maskOk hK (Or.inl ((i.placed t).listed (Head.valid_ready.2 hp) ht))

theorem suspended_maskOk (i : SchedInv pmax s K L) (hK : K t) (hst : (s.thread t).stat = .suspend) :
    (s.thread t).MaskOk pmax := (i.placed t).maskOk hK (Or.inr hst)

/-- The choice of `rt_schedule`: the first thread of the first ready list that holds one. -/
structure Selects (pmax : ℕ) (L : Head κ → List τ) (p : ℕ) (t : τ) : Prop where
  lt : p < pmax
  head : (L (.ready p)).head? = some t
  least : ∀ q < p, L (.ready q) = []

theorem choice (i : SchedInv pmax s K L) (hmax : pmax ≤ 256)
    (hr : ∃ p < pmax, L (.ready p) ≠ []) :
    ∃ p t, highestReadyPriority pmax s = some p ∧
      rtListEntry (s.links.next (.head (.ready p))) = some t ∧ Selects pmax L p t := by
  obtain ⟨p, hh, ⟨hp, hne⟩, hle⟩ := i.core.bitmap.highest hmax hr
  obtain ⟨t, l, hl⟩ := List.exists_cons_of_ne_nil hne
  refine ⟨p, t, hh, ?_, hp, by rw [hl]; rfl, fun q hq => ?_⟩
  · rw [i.core.queues.head_next (Head.valid_ready.2 hp), hl]
    rfl
  · by_contra hq0
    exact absurd (hle q ⟨by omega, hq0⟩) (by omega)

/-- The state after `rt_schedule`, up to the current thread. -/
theorem of_fields (i : SchedInv pmax s K L) (hl : s'.links = s.links) (ht : s'.thread = s.thread)
    (hg : s'.readyPriorityGroup = s.readyPriorityGroup) (hb : s'.readyTable = s.readyTable)
    (hc : ∀ u, s'.currentThread = some u → K u) : SchedInv pmax s' K L where
  core := i.core.congr (fun _ _ => rfl) hl hg hb
  placed u := by rw [ht]; exact i.placed u
  current {u} hu := hc u hu

/-- Reading the bitmap and the list, whatever they hold. -/
theorem entry_known (i : SchedInv pmax s K L) (hmax : pmax ≤ 256) {p : ℕ}
    (hh : highestReadyPriority pmax s = some p)
    (he : rtListEntry (s.links.next (.head (.ready p))) = some t) : K t ∧ Selects pmax L p t := by
  by_cases hr : ∃ p < pmax, L (.ready p) ≠ []
  · obtain ⟨p', t', hh', he', hsel⟩ := i.choice hmax hr
    obtain rfl : p' = p := Option.some.inj (hh'.symm.trans hh)
    obtain rfl : t' = t := Option.some.inj (he'.symm.trans he)
    exact ⟨i.core.queues.known (Head.valid_ready.2 hsel.lt) (List.mem_of_mem_head? hsel.head), hsel⟩
  · have hno : ∀ p, ¬Occupied pmax L p := fun p h => hr ⟨p, h.1, h.2⟩
    have b := i.core.bitmap
    have hg : s.readyPriorityGroup = 0 := by
      refine BitVec.eq_of_getLsbD_eq fun j hj => ?_
      rw [show (0 : BitVec 32).getLsbD j = false by simp]
      refine Bool.eq_false_iff.2 fun hb => ?_
      by_cases hs : pmax ≤ 32
      · exact hno j ((b.small hs j hj).1 hb)
      · obtain ⟨n, -, ho⟩ := (b.group (by omega) j hj).1 hb
        exact hno _ ho
    rw [highestReadyPriority, hg, rtFfs_zero] at hh
    split at hh <;> exact absurd hh (by simp [ffsIndex])

theorem schedulerStart (i : SchedInv pmax s K L) (hmax : pmax ≤ 256)
    (h : rtSystemSchedulerStart pmax s = some s') : SchedInv pmax s' K L := by
  obtain ⟨p, hh, h⟩ := Option.bind_eq_some_iff.1 h
  obtain ⟨t, he, rfl⟩ := Option.map_eq_some_iff.1 h
  refine i.of_fields rfl rfl rfl rfl fun u hu => ?_
  obtain rfl := Option.some.inj hu
  exact (i.entry_known hmax hh he).1

end SchedInv

variable [DecidableEq τ]

/-! ### scheduler.c -/

namespace SchedInv

theorem not_mem_without (i : SchedInv pmax s K L) : ∀ h, h.Valid pmax → t ∉ without L t h :=
  fun _ hV => Links.not_mem_without (i.nodup hV)

/-- `rt_schedule` switches to the first thread of the first ready list that holds one. -/
theorem schedule_selects (i : SchedInv pmax s K L) (hmax : pmax ≤ 256) (hl : s.lockNest = 0)
    (hr : ∃ p < pmax, L (.ready p) ≠ []) :
    ∃ s', rtSchedule pmax s = some s' ∧ ∃ p t, Selects pmax L p t ∧ s'.currentThread = some t := by
  obtain ⟨p, t, hh, he, hsel⟩ := i.choice hmax hr
  rw [rtSchedule, if_pos hl, hh, Option.bind_some, he, Option.map_some]
  refine ⟨_, rfl, p, t, hsel, ?_⟩
  by_cases hc : s.currentThread = some t
  · rw [if_neg (not_not.2 hc.symm)]
    exact hc
  · rw [if_pos fun e => hc e.symm]

/-- What `rt_schedule` leaves alone. -/
theorem schedule_fields (h : rtSchedule pmax s = some s') :
    s'.links = s.links ∧ s'.thread = s.thread ∧ s'.readyPriorityGroup = s.readyPriorityGroup ∧
      s'.readyTable = s.readyTable ∧ s'.lockNest = s.lockNest := by
  rw [rtSchedule] at h
  split at h
  · obtain ⟨p, -, h⟩ := Option.bind_eq_some_iff.1 h
    obtain ⟨t, -, rfl⟩ := Option.map_eq_some_iff.1 h
    split <;> exact ⟨rfl, rfl, rfl, rfl, rfl⟩
  · obtain rfl := Option.some.inj h
    exact ⟨rfl, rfl, rfl, rfl, rfl⟩

theorem schedule (i : SchedInv pmax s K L) (hmax : pmax ≤ 256) (h : rtSchedule pmax s = some s') :
    SchedInv pmax s' K L := by
  obtain ⟨hl, ht, hg, hb, -⟩ := schedule_fields h
  refine i.of_fields hl ht hg hb fun u hu => ?_
  rw [rtSchedule] at h
  split at h
  · obtain ⟨p, hh, h⟩ := Option.bind_eq_some_iff.1 h
    obtain ⟨t, he, rfl⟩ := Option.map_eq_some_iff.1 h
    split at hu
    · obtain rfl := Option.some.inj hu
      exact (i.entry_known hmax hh he).1
    · exact i.current hu
  · obtain rfl := Option.some.inj h
    exact i.current hu

end SchedInv

variable [DecidableEq κ]

@[simp] theorem rtScheduleRemoveThread_fields (t : τ) (s : KState κ τ) :
    (rtScheduleRemoveThread pmax t s).thread = s.thread ∧
    (rtScheduleRemoveThread pmax t s).lockNest = s.lockNest ∧
    (rtScheduleRemoveThread pmax t s).currentThread = s.currentThread ∧
    (rtScheduleRemoveThread pmax t s).currentPriority = s.currentPriority := by
  simp only [rtScheduleRemoveThread]
  split
  · exact (clearReadyBit_fields _ _).2
  · exact ⟨rfl, rfl, rfl, rfl⟩

@[simp] theorem rtScheduleInsertThread_fields (t : τ) (s : KState κ τ) :
    (rtScheduleInsertThread pmax t s).thread =
      update s.thread t { s.thread t with stat := .ready } ∧
    (rtScheduleInsertThread pmax t s).lockNest = s.lockNest ∧
    (rtScheduleInsertThread pmax t s).currentThread = s.currentThread ∧
    (rtScheduleInsertThread pmax t s).currentPriority = s.currentPriority :=
  (setReadyBit_fields _ _).2

omit [DecidableEq τ] in
@[simp] theorem enqueue_ready_suspended {p : ℕ} :
    enqueue L (.ready p) t (.suspended k) = L (.suspended k) := enqueue_of_ne (by simp)

omit [DecidableEq τ] in
@[simp] theorem enqueue_suspended_ready {p : ℕ} :
    enqueue L (.suspended k) t (.ready p) = L (.ready p) := enqueue_of_ne (by simp)

/-! ### thread.c -/

namespace SchedInv

theorem remove_core (i : SchedInv pmax s K L) (hK : K t) (hok : RemovalOk pmax s t) :
    Core pmax (rtScheduleRemoveThread pmax t s) K (without L t) :=
  have hp := ((i.placed t).prio hK).1
  i.core.remove hK hp (fun _ hq ht => (i.placed t).own hq ht) (i.maskOk_of_mem hK hp) hok

/-- `rt_thread_suspend` takes a ready thread off its ready list. -/
theorem suspend (i : SchedInv pmax s K L) (hK : K t) (hr : (s.thread t).stat = .ready) :
    SchedInv pmax (rtThreadSuspend pmax t s).2 K (without L t) ∧
      (rtThreadSuspend pmax t s).2.thread =
        update s.thread t { s.thread t with stat := .suspend } := by
  have hm := (i.placed t).maskOk hK (Or.inl hr)
  have hp := (i.placed t).prio hK
  have hdef : rtThreadSuspend pmax t s =
      (rtEok, rtScheduleRemoveThread pmax t (s.modThread t fun th => { th with stat := .suspend })) :=
    if_neg (not_not.2 hr)
  rw [hdef]
  have c : Core pmax (s.modThread t fun th => { th with stat := .suspend }) K L :=
    i.core.congr (fun _ _ => rfl) rfl rfl rfl
  have hm' : Thread.MaskOk pmax { s.thread t with stat := .suspend } := hm.congr rfl rfl rfl rfl
  have c' := c.remove (t := t) hK (by simpa using hp.1)
    (fun q hq ht => by simpa using (i.placed t).own hq ht) (fun _ => by simpa using hm')
    (Or.inl (by simpa using hm'))
  refine ⟨i.of_core t c' (fun _ _ => Iff.rfl) id (fun u hu => ?_) (fun u hu h _ => ?_) ?_ ?_, ?_⟩
  · simp [update_of_ne hu]
  · exact mem_without_of_ne hu
  · simp only [rtScheduleRemoveThread_fields, KState.modThread_fields, update_self]
    exact .off i.not_mem_without (by simp) (fun _ _ => hm') fun _ => hp
  · simp
  · simp

/-- `rt_schedule_insert_thread` on a thread that has been taken off its list. -/
theorem insert {s₁ : KState κ τ} {L₁ : Head κ → List τ} (i : SchedInv pmax s K L)
    (c : Core pmax s₁ K L₁) (hK : K t) (hth : ∀ u, u ≠ t → s₁.thread u = s.thread u)
    (hL : ∀ u, u ≠ t → ∀ h, h.Valid pmax → (u ∈ L₁ h ↔ u ∈ L h))
    (hoff : ∀ h, h.Valid pmax → t ∉ L₁ h) (hm : (s₁.thread t).MaskOk pmax)
    (hp : (s₁.thread t).currentPriority < pmax ∧ (s₁.thread t).initPriority < pmax)
    (hc : s₁.currentThread = s.currentThread) :
    SchedInv pmax (rtScheduleInsertThread pmax t s₁) K
      (enqueue L₁ (.ready (s₁.thread t).currentPriority) t) := by
  refine i.of_core t (c.insert hK hoff hp.1 hm) (fun _ _ => Iff.rfl) id (fun u hu => ?_)
    (fun u hu h hV => ?_) ?_ ?_
  · simp [update_of_ne hu, hth u hu]
  · simpa [hu] using hL u hu h hV
  · simp only [rtScheduleInsertThread_fields, update_self]
    refine .only (g := .ready (s₁.thread t).currentPriority) (fun h hV ho => ?_) rfl
      (fun _ => ⟨rfl, by simp⟩) (fun _ _ => hm.congr rfl rfl rfl rfl) fun _ => hp
    rcases mem_enqueue.1 ho with ho | ⟨rfl, -⟩
    · exact absurd ho (hoff h hV)
    · rfl
  · simp [hc]

/-- Taking a thread that is not ready off its list leaves the bits right. -/
theorem unlink_core (i : SchedInv pmax s K L) (hK : K t) (hst : (s.thread t).stat ≠ .ready) :
    Core pmax (s.setLinks (rtListRemove s.links (.item t))) K (without L t) := by
  refine ⟨linked_remove i.core.queues hK, i.core.bitmap.congr
    (fun p => and_congr_right fun hp => ?_) rfl rfl⟩
  rw [without_eq (i.not_mem (Head.valid_ready.2 hp) hst)]

/-- A waiting thread becomes ready: off its list, and to the end of its ready list. -/
theorem wake {s₁ : KState κ τ} (i : SchedInv pmax s K L) (hK : K t)
    (hst : (s.thread t).stat = .suspend) (hl : s₁.links = rtListRemove s.links (.item t))
    (hg : s₁.readyPriorityGroup = s.readyPriorityGroup) (hb : s₁.readyTable = s.readyTable)
    (hth : ∀ u, u ≠ t → s₁.thread u = s.thread u)
    (hp : (s₁.thread t).currentPriority = (s.thread t).currentPriority)
    (hi : (s₁.thread t).initPriority = (s.thread t).initPriority)
    (hm : (s₁.thread t).MaskOk pmax) (hc : s₁.currentThread = s.currentThread) :
    SchedInv pmax (rtScheduleInsertThread pmax t s₁) K
      (enqueue (without L t) (.ready (s.thread t).currentPriority) t) := by
  have c : Core pmax s₁ K (without L t) :=
    (i.unlink_core hK (by simp [hst])).congr (fun _ _ => rfl) hl hg hb
  have := i.insert c hK hth (fun u hu h _ => mem_without_of_ne hu) i.not_mem_without hm
    (by rw [hp, hi]; exact (i.placed t).prio hK) hc
  rwa [hp] at this

/-- `rt_thread_resume` makes a suspended thread ready. -/
theorem resume (i : SchedInv pmax s K L) (hK : K t) (hst : (s.thread t).stat = .suspend) :
    SchedInv pmax (rtThreadResume pmax t s).2 K
        (enqueue (without L t) (.ready (s.thread t).currentPriority) t) ∧
      (rtThreadResume pmax t s).2.thread =
        update s.thread t { s.thread t with stat := .ready, timer := false } := by
  have hdef : rtThreadResume pmax t s = (rtEok, rtScheduleInsertThread pmax t
      ((s.setLinks (rtListRemove s.links (.item t))).modThread t
        fun th => { th with timer := false })) := if_neg (not_not.2 hst)
  have hm : Thread.MaskOk pmax { s.thread t with timer := false } :=
    (i.suspended_maskOk hK hst).congr rfl rfl rfl rfl
  rw [hdef]
  refine ⟨i.wake hK hst rfl rfl rfl (fun u hu => ?_) ?_ ?_ ?_ rfl, ?_⟩
  · simp [update_of_ne hu]
  · simp
  · simp
  · simpa using hm
  · simp

/-- `rt_thread_timeout` before its `rt_schedule`. -/
theorem timeout (i : SchedInv pmax s K L) (hmax : pmax ≤ 256) (hK : K t)
    (h : rtThreadTimeout pmax t s = some s') :
    (s.thread t).stat = .suspend ∧
      SchedInv pmax s' K (enqueue (without L t) (.ready (s.thread t).currentPriority) t) ∧
      s'.thread = update s.thread t { s.thread t with stat := .ready, error := -rtEtimeout } := by
  by_cases hst : (s.thread t).stat = .suspend
  swap
  · rw [rtThreadTimeout, if_neg hst] at h
    exact absurd h (by simp)
  rw [rtThreadTimeout, if_pos hst] at h
  have hm : Thread.MaskOk pmax { s.thread t with error := -rtEtimeout } :=
    (i.suspended_maskOk hK hst).congr rfl rfl rfl rfl
  have hw : SchedInv pmax (rtScheduleInsertThread pmax t
      ((s.modThread t fun th => { th with error := -rtEtimeout }).setLinks
        (rtListRemove s.links (.item t)))) K
      (enqueue (without L t) (.ready (s.thread t).currentPriority) t) := by
    refine i.wake hK hst rfl rfl rfl (fun u hu => ?_) ?_ ?_ ?_ rfl
    · simp [update_of_ne hu]
    · simp
    · simp
    · simpa using hm
  refine ⟨hst, hw.schedule hmax h, ?_⟩
  rw [(schedule_fields h).2.1]
  simp

/-- `rt_thread_exit`, `rt_thread_detach` and `rt_thread_delete` begin alike. -/
theorem close (i : SchedInv pmax s K L) (hK : K t) (hok : RemovalOk pmax s t) :
    SchedInv pmax (closeThread pmax t s) K (without L t) ∧
      ((closeThread pmax t s).thread t).stat = .close := by
  have c : Core pmax (closeThread pmax t s) K (without L t) :=
    (i.remove_core hK hok).congr (fun _ _ => rfl) rfl rfl rfl
  have hth : (closeThread pmax t s).thread =
      update s.thread t { s.thread t with timer := false, stat := .close } := by
    simp [closeThread]
  refine ⟨i.of_core t c (fun _ _ => Iff.rfl) id (fun u hu => ?_)
    (fun u hu h _ => mem_without_of_ne hu) ?_ ?_, ?_⟩
  · rw [hth, update_of_ne hu]
  · rw [hth, update_self]
    exact .off i.not_mem_without (by simp) (fun _ hs => absurd hs (by simp))
      fun hk => (i.placed t).prio hk
  · simp [closeThread]
  · rw [hth, update_self]

/-- A closed thread is put on the defunct list. -/
theorem defunct (i : SchedInv pmax s K L) (hK : K t) (hst : (s.thread t).stat = .close)
    (hoff : ∀ h, h.Valid pmax → t ∉ L h) :
    SchedInv pmax (insertDefunct t s) K (push L .defunct t) := by
  have hq := linked_insertAfter_head i.core.queues Head.valid_defunct hK hoff
  have c : Core pmax (insertDefunct t s) K (push L .defunct t) :=
    ⟨hq, i.core.bitmap.congr (fun p => by simp [Occupied, push_of_ne]) rfl rfl⟩
  refine i.of_core t c (fun _ _ => Iff.rfl) id (fun _ _ => rfl) (fun u hu h _ => by simp [hu]) ?_ rfl
  refine .only (g := .defunct) (fun h hV ho => ?_) hst (fun hr => ?_) (fun hk ho => ?_)
    (fun hk => (i.placed t).prio hk)
  · rcases mem_push.1 ho with ho | ⟨rfl, -⟩
    · exact absurd ho (hoff h hV)
    · rfl
  · exact absurd (hr.symm.trans hst) (by simp)
  · exact (i.placed t).maskOk hk ho

theorem detach (i : SchedInv pmax s K L) (hK : K t) (hok : RemovalOk pmax s t) :
    ∃ L', SchedInv pmax (rtThreadDetach pmax t s).2 K L' := by
  obtain ⟨j, hst⟩ := i.close hK hok
  simp only [rtThreadDetach]
  split
  · exact ⟨_, j.defunct hK hst i.not_mem_without⟩
  · exact ⟨_, j⟩

theorem delete (i : SchedInv pmax s K L) (hK : K t) (hok : RemovalOk pmax s t) :
    SchedInv pmax (rtThreadDelete pmax t s).2 K (push (without L t) .defunct t) := by
  obtain ⟨j, hst⟩ := i.close hK hok
  exact j.defunct hK hst i.not_mem_without

theorem exit (i : SchedInv pmax s K L) (hmax : pmax ≤ 256)
    (hok : ∀ u, s.currentThread = some u → RemovalOk pmax s u)
    (h : rtThreadExit pmax s = some s') : ∃ L', SchedInv pmax s' K L' := by
  obtain ⟨t, ht, h⟩ := Option.bind_eq_some_iff.1 h
  have hK := i.current ht
  obtain ⟨j, hst⟩ := i.close hK (hok t ht)
  dsimp only at h
  split at h
  · exact ⟨_, j.schedule hmax h⟩
  · exact ⟨_, (j.defunct hK hst i.not_mem_without).schedule hmax h⟩

/-- The occupied priorities do not change when a thread goes to the end of its own list. -/
theorem occupied_requeue {p : ℕ} (q : Linked s.links (Head.Valid pmax) K L) (hp : p < pmax)
    (ht : t ∈ L (.ready p)) (r : ℕ) :
    Occupied pmax (enqueue (without L t) (.ready p) t) r ↔ Occupied pmax L r := by
  refine and_congr_right fun hr => ?_
  by_cases hrp : r = p
  · subst hrp
    simp [List.ne_nil_of_mem ht]
  · have hne : (Head.ready r : Head κ) ≠ .ready p := fun e => hrp (Head.ready.inj e)
    rw [enqueue_of_ne hne, without_eq fun hm =>
      hne (q.uniq (Head.valid_ready.2 hr) (Head.valid_ready.2 hp) hm ht)]

/-- `rt_thread_yield` moves a ready thread to the end of its list. -/
theorem «yield» (i : SchedInv pmax s K L) (hmax : pmax ≤ 256) (h : rtThreadYield pmax s = some s') :
    ∃ L', SchedInv pmax s' K L' ∧ s'.thread = s.thread ∧
      ∀ k, L' (.suspended k) = L (.suspended k) := by
  obtain ⟨t, ht, h⟩ := Option.bind_eq_some_iff.1 h
  split at h
  · rename_i hcond
    have hK := i.current ht
    have hm := (i.placed t).ready hK hcond.1
    have hp := ((i.placed t).prio hK).1
    have hV : (Head.ready (s.thread t).currentPriority : Head κ).Valid pmax := hp
    have hq := linked_insertBefore_head (linked_remove i.core.queues hK) hV hK i.not_mem_without
    have j : SchedInv pmax (s.setLinks (rtListInsertBefore (rtListRemove s.links (.item t))
        (.head (.ready (s.thread t).currentPriority)) (.item t))) K
        (enqueue (without L t) (.ready (s.thread t).currentPriority) t) := by
      refine i.of_core t ⟨hq, i.core.bitmap.congr (occupied_requeue i.core.queues hp hm) rfl rfl⟩
        (fun _ _ => Iff.rfl) id (fun _ _ => rfl) (fun u hu h _ => ?_) ?_ rfl
      · simp [hu, mem_without_of_ne hu]
      · refine (i.placed t).congr Iff.rfl fun h hV' => ?_
        rw [i.mem_ready_iff hK hcond.1 hV', mem_enqueue]
        simp [i.not_mem_without h hV']
    refine ⟨_, j.schedule hmax h, (schedule_fields h).2.1, fun k => ?_⟩
    rw [enqueue_ready_suspended,
      without_eq (i.not_mem Head.valid_suspended (by simp [hcond.1, Head.stat]))]
  · obtain rfl := Option.some.inj h
    exact ⟨L, i, rfl, fun _ => rfl⟩

/-- The thread after `RT_THREAD_CTRL_CHANGE_PRIORITY`. -/
theorem changePriority_thread (t : τ) (arg : ℕ) (s : KState κ τ) :
    (changePriority pmax t arg s).thread = update s.thread t
      (Thread.calcMask pmax { s.thread t with currentPriority := arg }) := by
  rw [changePriority]
  split
  · rename_i hr
    simp only [rtScheduleInsertThread_fields, KState.modThread_fields,
      rtScheduleRemoveThread_fields, update_self, update_idem]
    congr 1
    unfold Thread.calcMask
    split <;> simp [hr]
  · rfl

/-- `RT_THREAD_CTRL_CHANGE_PRIORITY` moves a ready thread to the end of its new list. -/
theorem priority (i : SchedInv pmax s K L) (hK : K t) {arg : ℕ} (harg : arg < pmax) :
    ∃ L', SchedInv pmax (changePriority pmax t arg s) K L' ∧
      ∀ k, L' (.suspended k) = L (.suspended k) := by
  have hp := (i.placed t).prio hK
  have hmask : Thread.MaskOk pmax
      (Thread.calcMask pmax { s.thread t with currentPriority := arg }) := Thread.calcMask_maskOk _
  by_cases hr : (s.thread t).stat = .ready
  · have hdef : changePriority pmax t arg s = rtScheduleInsertThread pmax t
        ((rtScheduleRemoveThread pmax t s).modThread t fun th =>
          Thread.calcMask pmax { th with currentPriority := arg }) := if_pos hr
    have c : Core pmax ((rtScheduleRemoveThread pmax t s).modThread t fun th =>
        Thread.calcMask pmax { th with currentPriority := arg }) K (without L t) :=
      (i.remove_core hK (Or.inl ((i.placed t).maskOk hK (Or.inl hr)))).congr
        (fun _ _ => rfl) rfl rfl rfl
    rw [hdef]
    refine ⟨_, i.insert c hK (fun u hu => ?_) (fun u hu h _ => mem_without_of_ne hu)
      i.not_mem_without ?_ ?_ ?_, fun k => ?_⟩
    · simp [update_of_ne hu]
    · simpa using hmask
    · simpa using ⟨harg, hp.2⟩
    · simp
    · rw [enqueue_ready_suspended,
        without_eq (i.not_mem Head.valid_suspended (by simp [hr, Head.stat]))]
  · have hdef : changePriority pmax t arg s = s.modThread t fun th =>
        Thread.calcMask pmax { th with currentPriority := arg } := if_neg hr
    have c : Core pmax (s.modThread t fun th =>
        Thread.calcMask pmax { th with currentPriority := arg }) K L :=
      i.core.congr (fun _ _ => rfl) rfl rfl rfl
    rw [hdef]
    refine ⟨L, i.of_core t c (fun _ _ => Iff.rfl) id (fun u hu => ?_) (fun _ _ _ _ => Iff.rfl) ?_ rfl,
      fun _ => rfl⟩
    · simp [update_of_ne hu]
    · simp only [KState.modThread_fields, update_self]
      refine ⟨fun hV ho => ?_, fun hV ho => ?_, fun _ hs => ?_, fun _ _ => hmask, fun _ => ?_⟩
      · simpa using (i.placed t).listed hV ho
      · exact absurd ((i.placed t).listed (Head.valid_ready.2 hV) ho) hr
      · exact absurd (by simpa using hs) hr
      · simpa using ⟨harg, hp.2⟩

/-- `_rt_thread_init` sets up a thread that is on no list. -/
theorem threadInit (i : SchedInv pmax s K L) (hoff : ∀ h, h.Valid pmax → t ∉ L h)
    (hK : ∀ u, K u → K' u) (hK' : ∀ u, K' u → u = t ∨ K u) {systemobject : Bool} {priority : ℕ}
    (h : rtThreadInit pmax t systemobject priority s = some s') : SchedInv pmax s' K' L := by
  simp only [rtThreadInit] at h
  split at h
  swap
  · exact absurd h (by simp)
  rename_i hp
  obtain rfl := Option.some.inj h
  have hq := linked_init i.core.queues hoff hK hK'
  refine i.of_core t ⟨hq, i.core.bitmap.congr (fun _ => Iff.rfl) rfl rfl⟩ (fun u hu => ?_) (hK t)
    (fun u hu => ?_) (fun _ _ _ _ => Iff.rfl) ?_ rfl
  · exact ⟨fun hk => (hK' u hk).resolve_left hu, hK u⟩
  · simp [update_of_ne hu]
  · simp only [KState.modThread_fields, update_self]
    exact .off hoff (by simp) (fun _ hs => absurd hs (by simp)) fun _ => ⟨hp, hp⟩

/-- `rt_thread_startup` up to its `rt_schedule`. -/
theorem startup (i : SchedInv pmax s K L) (hmax : pmax ≤ 256) (hK : K t) {r : ℤ × KState κ τ}
    (h : rtThreadStartup pmax t s = some r) : ∃ L', SchedInv pmax r.2 K L' := by
  rw [rtThreadStartup] at h
  split at h
  swap
  · exact absurd h (by simp)
  rename_i hinit
  have hp := (i.placed t).prio hK
  have hoff : ∀ h, h.Valid pmax → t ∉ L h := fun h hV => i.not_mem hV (by
    rw [hinit]
    cases h <;> simp [Head.stat])
  have j : SchedInv pmax (s.modThread t fun th => { Thread.calcMask pmax
      { th with currentPriority := th.initPriority } with stat := .suspend }) K L := by
    refine i.of_core t (i.core.congr (fun _ _ => rfl) rfl rfl rfl) (fun _ _ => Iff.rfl) id
      (fun u hu => by simp [update_of_ne hu]) (fun _ _ _ _ => Iff.rfl) ?_ rfl
    simp only [KState.modThread_fields, update_self]
    refine .off hoff (by simp) (fun _ _ => ?_) fun _ => ?_
    · exact (Thread.calcMask_maskOk { s.thread t with currentPriority := _ }).congr rfl rfl rfl rfl
    · exact ⟨by simpa using hp.2, by simpa using hp.2⟩
  have hres := (j.resume hK (by simp)).1
  dsimp only at h
  split at h
  · obtain ⟨s₁, hs, rfl⟩ := Option.map_eq_some_iff.1 h
    exact ⟨_, hres.schedule hmax hs⟩
  · obtain rfl := Option.some.inj h
    exact ⟨_, hres⟩

/-! ### The suspend lists -/

/-- The search for a less urgent waiter, on the waiters `b` behind `a`. -/
theorem findWaiter_spec (i : SchedInv pmax s K L) (priority : ℕ) :
    ∀ (b a : List τ) (fuel : ℕ), L (.suspended k) = a ++ b → b.length < fuel →
      ∃ c d, b = c ++ d ∧ findWaiter s k priority fuel (after (.suspended k) b) =
          some (after (.suspended k) d) ∧
        (∀ u ∈ c, ¬priority < (s.thread u).currentPriority) ∧
        ∀ u ∈ d.head?, priority < (s.thread u).currentPriority
  | [], a, fuel + 1, _, _ => ⟨[], [], rfl, by simp [findWaiter], by simp, by simp⟩
  | u :: b, a, fuel + 1, hL, hf => by
    by_cases hu : priority < (s.thread u).currentPriority
    · exact ⟨[], u :: b, rfl, by simp [findWaiter, rtListEntry, hu], by simp, by simpa using hu⟩
    · obtain ⟨c, d, rfl, hfind, hc, hd⟩ := findWaiter_spec i priority b (a ++ [u]) fuel
        (by simpa using hL) (by simpa using hf)
      refine ⟨u :: c, d, rfl, ?_, List.forall_mem_cons.2 ⟨hu, hc⟩, hd⟩
      have hn := i.core.queues.item_next Head.valid_suspended hL
      simp only [after_cons, findWaiter, rtListEntry, Option.bind_some, if_neg hu, hn]
      rw [if_neg (by simp [KState.list]), hfind]

omit [DecidableEq τ] in
/-- A thread that is suspended and on no list has been inserted between the waiters `a` and `b`. -/
theorem waiting {m : RtList (Node (Head κ) τ)} (i : SchedInv pmax s K L)
    (hst : (s.thread t).stat = .suspend) (hoff : ∀ h, h.Valid pmax → t ∉ L h) {a b : List τ}
    (hL : L (.suspended k) = a ++ b)
    (hq : Linked m (Head.Valid pmax) K (update L (.suspended k) (a ++ t :: b))) :
    SchedInv pmax (s.setLinks m) K (update L (.suspended k) (a ++ t :: b)) := by
  have hmem : ∀ u h, u ∈ update L (.suspended k) (a ++ t :: b) h ↔
      u ∈ L h ∨ (h = .suspended k ∧ u = t) := by
    intro u h
    by_cases hh : h = .suspended k
    · subst hh
      simp only [update_self, hL, List.mem_append, List.mem_cons]
      grind
    · simp [hh]
  refine i.of_core t ⟨hq, i.core.bitmap.congr (fun p => by simp [Occupied]) rfl rfl⟩
    (fun _ _ => Iff.rfl) id (fun _ _ => rfl) (fun u hu h _ => by simp [hmem, hu]) ?_ rfl
  refine .only (g := .suspended k) (fun h hV ho => ?_) hst (fun hr => ?_)
    (fun hk _ => i.suspended_maskOk hk hst) fun hk => (i.placed t).prio hk
  · rcases (hmem t h).1 ho with ho | ⟨rfl, -⟩
    · exact absurd ho (hoff h hV)
    · rfl
  · exact absurd (hr.symm.trans hst) (by simp)

/-- Insert a thread that is suspended and on no list between the waiters `a` and `b`. -/
theorem waiter (i : SchedInv pmax s K L) (hK : K t) (hst : (s.thread t).stat = .suspend)
    (hoff : ∀ h, h.Valid pmax → t ∉ L h) {a b : List τ} (hL : L (.suspended k) = a ++ b) :
    SchedInv pmax (s.setLinks (rtListInsertBefore s.links (after (.suspended k) b) (.item t))) K
      (update L (.suspended k) (a ++ t :: b)) :=
  i.waiting hst hoff hL (linked_insertBefore i.core.queues Head.valid_suspended hL hK hoff)

/-- Where `rt_ipc_list_suspend` puts a waiter of priority `p` into the list `l`. -/
structure WaitsAt (s : KState κ τ) (flag : IpcFlag) (p : ℕ) (a b : List τ) : Prop where
  fifo : flag = .fifo → b = []
  before : flag = .prio → ∀ u ∈ a, (s.thread u).currentPriority ≤ p
  behind : flag = .prio → ∀ u ∈ b.head?, p < (s.thread u).currentPriority

/-- `rt_ipc_list_suspend` moves a ready thread from its ready list to the list of the object. -/
theorem ipcSuspend (i : SchedInv pmax s K L) (hK : K t) (hr : (s.thread t).stat = .ready)
    {flag : IpcFlag} {fuel : ℕ} (hf : (L (.suspended k)).length < fuel) :
    ∃ s' a b, rtIpcListSuspend pmax fuel k t flag s = some s' ∧ L (.suspended k) = a ++ b ∧
      SchedInv pmax s' K (update (without L t) (.suspended k) (a ++ t :: b)) ∧
      s'.thread = update s.thread t { s.thread t with stat := .suspend } ∧
      WaitsAt s flag (s.thread t).currentPriority a b := by
  obtain ⟨j, hth⟩ := i.suspend hK hr
  have hoff : t ∉ L (.suspended k) := i.not_mem Head.valid_suspended (by simp [hr, Head.stat])
  have hwk : without L t (.suspended k) = L (.suspended k) := without_eq hoff
  have hst : ((rtThreadSuspend pmax t s).2.thread t).stat = .suspend := by rw [hth, update_self]
  cases flag with
  | fifo =>
    refine ⟨_, L (.suspended k), [], rfl, by simp, ?_, ?_, by simp, by simp, by simp⟩
    · exact j.waiter (b := []) hK hst i.not_mem_without (by rw [hwk, List.append_nil])
    · exact hth
  | prio =>
    obtain ⟨c, d, hcd, hfind, hc, hd⟩ := j.findWaiter_spec
      (((rtThreadSuspend pmax t s).2.thread t).currentPriority) (without L t (.suspended k)) [] fuel
      rfl (by rwa [hwk])
    rw [hwk] at hcd hfind
    have hne : ∀ u ∈ L (.suspended k), ((rtThreadSuspend pmax t s).2.thread u) = s.thread u := by
      intro u hu
      rw [hth, update_of_ne]
      rintro rfl
      exact hoff hu
    refine ⟨_, c, d, ?_, hcd, j.waiter hK hst i.not_mem_without (by rw [hwk, hcd]), hth, by simp,
      fun _ u hu => ?_, fun _ u hu => ?_⟩
    · simp only [rtIpcListSuspend]
      rw [j.core.queues.head_next Head.valid_suspended, hwk, hfind]
      rfl
    · have := hc u hu
      rw [hne u (by simp [hcd, hu]), hth, update_self] at this
      exact not_lt.1 this
    · have := hd u hu
      rw [hne u (by simp [hcd, List.mem_of_mem_head? hu]), hth, update_self] at this
      exact this

/-- `rt_ipc_list_resume` makes the first waiter ready. -/
theorem ipcResume (i : SchedInv pmax s K L) {l : List τ} (hL : L (.suspended k) = t :: l) :
    ∃ s', rtIpcListResume pmax k s = some s' ∧
      SchedInv pmax s' K (enqueue (without L t) (.ready (s.thread t).currentPriority) t) ∧
      s'.thread = update s.thread t { s.thread t with stat := .ready, timer := false } := by
  have hK := i.core.queues.known Head.valid_suspended (show t ∈ L (.suspended k) by simp [hL])
  have hst := (i.placed t).listed Head.valid_suspended (show t ∈ L (.suspended k) by simp [hL])
  obtain ⟨j, hth⟩ := i.resume hK hst
  refine ⟨_, ?_, j, hth⟩
  rw [rtIpcListResume, KState.list, i.core.queues.head_next Head.valid_suspended, hL]
  rfl

/-- One pass of the idle thread's loop. -/
theorem reap (i : SchedInv pmax s K L) (h : idleReap s = some s') : ∃ L', SchedInv pmax s' K L' := by
  rw [idleReap] at h
  split at h
  · obtain rfl := Option.some.inj h
    exact ⟨L, i⟩
  · obtain ⟨t, he, rfl⟩ := Option.map_eq_some_iff.1 h
    rw [KState.list, i.core.queues.head_next Head.valid_defunct] at he
    cases hL : L .defunct with
    | nil =>
      rw [hL] at he
      simp [rtListEntry] at he
    | cons u l =>
      obtain rfl : u = t := by simpa [hL, rtListEntry] using he
      have hm : u ∈ L .defunct := by simp [hL]
      have hK := i.core.queues.known Head.valid_defunct hm
      have hst : (s.thread u).stat = .close := (i.placed u).listed Head.valid_defunct hm
      refine ⟨_, i.of_core u (i.unlink_core hK (by simp [hst])) (fun _ _ => Iff.rfl) id
        (fun _ _ => rfl) (fun v hv h _ => mem_without_of_ne hv) ?_ rfl⟩
      exact .off i.not_mem_without (by simp [hst]) (fun _ hs => absurd (hst.symm.trans hs) (by simp))
        fun hk => (i.placed u).prio hk

end SchedInv
end EasyCore.Kernel
