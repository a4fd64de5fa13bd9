import EasyCore.Pthreads.Lifecycle

/-! Every run keeps what is known of each thread, and so all that is allocated for a thread is freed
    once, and not too early. -/

namespace EasyCore.Pthreads.Lifecycle
open Function Kernel Runs Ipc Links

variable {τ : Type*}

/-! ### Each call -/

section Steps
variable [DecidableEq τ] {r r' : Run τ} {t u c : τ} {p : Pthread}

omit [DecidableEq τ] in
theorem view_congr (hthread : r'.thread u = r.thread u) (hledger : r'.ledger u = r.ledger u)
    (hqueued : u ∈ r'.defunct ↔ u ∈ r.defunct) (hcollected : r'.collected u = r.collected u)
    (hdetached : r'.detached u = r.detached u) (hvalue : r'.conds.value u = r.conds.value u)
    (htaker : ∀ c, r'.conds.Taker u c ↔ r.conds.Taker u c)
    (hwaits : ∀ c, r'.conds.Waits u c ↔ r.conds.Waits u c) : r'.view u = r.view u :=
  View.ext hthread hledger (propext hqueued) hcollected hdetached hvalue
    (funext fun c => propext (htaker c)) (funext fun c => propext (hwaits c))

/-- Only one thread has changed. -/
theorem inv_of_view (h : ∀ u ≠ t, Ok (r.view u)) (hc : r'.conds.Inv) (hn : r'.defunct.Nodup)
    (hother : ∀ u ≠ t, r'.view u = r.view u) (ht : Ok (r'.view t)) : Inv r' := by
  refine ⟨hc, hn, fun u => ?_⟩
  rcases eq_or_ne u t with rfl | hu
  · exact ht
  · exact hother u hu ▸ h u hu

theorem Inv.of_view (i : Inv r) (hc : r'.conds.Inv) (hn : r'.defunct.Nodup)
    (hother : ∀ u ≠ t, r'.view u = r.view u) (ht : Ok (r'.view t)) : Inv r' :=
  inv_of_view (fun u _ => i.ok u) hc hn hother ht

omit [DecidableEq τ] in
theorem ok_unborn (ht : r.thread t = none) (n : Unborn (r.view t)) : Ok (r.view t) := by
  rwa [Ok, show (r.view t).thread = none from ht]

omit [DecidableEq τ] in
theorem ok_owned (ht : r.thread t = some p) (o : Owned (r.view t) p) : Ok (r.view t) := by
  rw [Ok, show (r.view t).thread = some p from ht]
  exact Or.inl o

omit [DecidableEq τ] in
theorem ok_released (ht : r.thread t = some p) (d : Released (r.view t) p) : Ok (r.view t) := by
  rw [Ok, show (r.view t).thread = some p from ht]
  exact Or.inr d

/-- A thread that has not terminated has not been released. -/
theorem Inv.owned (i : Inv r) (ht : r.thread t = some p) (hlife : p.life ≠ .closed) :
    Owned (r.view t) p :=
  ((i.ok t).born ht).resolve_right fun d => hlife d.closed

/-- A release of the semaphore of a thread concerns this thread. -/
theorem signal_other (i : r.conds.Inv) (hu : u ≠ t) : (r.conds.signal t).value u = r.conds.value u ∧
    ∀ c, (r.conds.signal t).Taker u c ↔ r.conds.Taker u c := by
  obtain ⟨w, -, hv, htaker⟩ | ⟨-, hv, htaker⟩ := Conds.taker_signal i t
  · refine ⟨by rw [hv], fun c => ?_⟩
    rw [htaker]
    exact or_iff_right fun h => hu h.1
  · exact ⟨by rw [hv, update_of_ne hu], fun c => htaker u c⟩

omit [DecidableEq τ] in
/-- A running thread is in `pthread_exit`, whatever has become of its semaphore. -/
theorem Owned.exiting {v : View τ} (o : Owned v p) (hlife : p.life = .running) {value : ℕ}
    {taker : τ → Prop} (hvalue : value ≤ 1) (hunique : ∀ c c', taker c → taker c' → c = c')
    (hcounted : ∀ c, taker c → p.joinable = true) :
    Owned { v with thread := some { p with life := .exiting }, value := value, taker := taker }
      { p with life := .exiting } := by
  have b := o.blocks
  have hbefore := o.before (by rw [hlife]; decide)
  refine ⟨⟨b.data, b.object, b.stack, b.sem, b.semOne⟩, o.joinable, fun h => ?_, Life.noConfusion,
    fun _ => hbefore, Life.noConfusion, Life.noConfusion, fun _ => hvalue, hunique, hcounted,
    fun h => absurd (hbefore.1.symm.trans h) Bool.noConfusion⟩
  exact (o.off h).imp_right fun hc => absurd hlife hc.2

/-- The first half of `pthread_exit`: the semaphore of the thread, if it has one, is released. -/
theorem Inv.exit (i : Inv r) (ht : r.thread t = some p) (hlife : p.life = .running) :
    Inv (pthreadExit t p r) := by
  have o := i.owned ht (by rw [hlife]; decide)
  rcases o.running hlife with ⟨hzero, hnone⟩
  have hview : ∀ conds, (pthreadExit t p r).conds = conds → (∀ c, conds.Waits t c ↔ r.conds.Waits t c) →
      (pthreadExit t p r).view t = { r.view t with
        thread := some { p with life := .exiting }
        value := conds.value t
        taker := conds.Taker t } := by
    rintro conds rfl hwaits
    exact View.ext (update_self ..) rfl rfl rfl rfl rfl rfl (funext fun c => propext (hwaits c))
  by_cases hj : p.joinable = true
  · have hconds : (pthreadExit t p r).conds = r.conds.signal t := if_pos hj
    refine i.of_view (t := t) (hconds ▸ i.conds.signal t) i.nodup (fun u hu => ?_) ?_
    · rcases signal_other i.conds hu with ⟨hv, htaker⟩
      exact view_congr (update_of_ne hu ..) rfl Iff.rfl rfl rfl (by rw [hconds, hv])
        (fun c => by rw [hconds, htaker]) fun c => by rw [hconds]; exact Iff.rfl
    · rw [hview _ hconds fun _ => Iff.rfl]
      refine Or.inl (o.exiting hlife ?_ ?_ fun _ _ => hj)
      · rcases Conds.taker_signal i.conds t with ⟨w, -, hv, -⟩ | ⟨-, hv, -⟩
        · rw [hv]
          exact hzero.le.trans (Nat.zero_le _)
        · have hz : r.conds.value t = 0 := hzero
          rw [hv, update_self, hz]
      · rcases Conds.taker_signal i.conds t with ⟨w, -, -, htaker⟩ | ⟨-, -, htaker⟩
        · intro c c' hc hc'
          have hw : ∀ c, (r.conds.signal t).Taker t c → c = w := fun c hc =>
            ((htaker t c).1 hc).elim And.right fun h => absurd h (hnone c)
          exact (hw c hc).trans (hw c' hc').symm
        · exact fun c c' hc => absurd ((htaker t c).1 hc) (hnone c)
  · have hconds : (pthreadExit t p r).conds = r.conds := if_neg hj
    refine i.of_view (t := t) (hconds ▸ i.conds) i.nodup (fun u hu => ?_) ?_
    · exact view_congr (update_of_ne hu ..) rfl Iff.rfl rfl rfl (by rw [hconds])
        (fun c => by rw [hconds]) fun c => by rw [hconds]
    · rw [hview _ hconds fun _ => Iff.rfl]
      exact Or.inl (o.exiting hlife (hzero.le.trans (Nat.zero_le _)) o.unique o.counted)

omit [DecidableEq τ] in
/-- A thread terminates, and is put on the list of defunct threads. -/
theorem Owned.closed {v : View τ} (o : Owned v p) (hlife : p.life ≠ .closed) :
    Owned { v with thread := some { p with life := .closed }, queued := True }
      { p with life := .closed } := by
  have b := o.blocks
  have hcleanup := (o.before hlife).1
  exact ⟨⟨b.data, b.object, b.stack, b.sem, b.semOne⟩, o.joinable,
    fun h => (o.off h).imp_right fun hc => ⟨hc.1, Life.noConfusion⟩, Life.noConfusion,
    fun h => absurd rfl h, fun _ => iff_of_true trivial hcleanup, Life.noConfusion, o.value, o.unique,
    o.counted, fun h => absurd (hcleanup.symm.trans h) Bool.noConfusion⟩

theorem Inv.close (i : Inv r) (ht : r.thread t = some p) (hlife : p.life ≠ .closed) :
    Inv { r with
      thread := update r.thread t (some { p with life := .closed })
      defunct := t :: r.defunct } := by
  have o := i.owned ht hlife
  refine i.of_view (t := t) i.conds (List.nodup_cons.2 ⟨(o.before hlife).2, i.nodup⟩) (fun u hu => ?_) ?_
  · exact view_congr (update_of_ne hu ..) rfl (List.mem_cons.trans (or_iff_right hu)) rfl rfl rfl
      (fun _ => Iff.rfl) fun _ => Iff.rfl
  · have hview : Run.view { r with
        thread := update r.thread t (some { p with life := .closed })
        defunct := t :: r.defunct } t = { r.view t with
          thread := some { p with life := .closed }
          queued := True } :=
      View.ext (update_self ..) rfl (eq_true List.mem_cons_self) rfl rfl rfl rfl rfl
    rw [hview]
    exact Or.inl (o.closed hlife)

/-- The second half of `pthread_exit`. -/
theorem Inv.finish (i : Inv r) (ht : r.thread t = some p) (hlife : p.life ≠ .closed) :
    Inv (rtThreadDetach t p r) := by
  have hbefore := (i.owned ht hlife).before hlife
  have hout : t ∉ r.defunct := hbefore.2
  have hclose := i.close ht hlife
  rw [rtThreadDetach, if_pos hbefore.1, List.erase_of_not_mem hout]
  exact hclose

/-- A thread returns. -/
theorem Inv.ret (i : Inv r) (ht : r.thread t = some p) (hlife : p.life ≠ .closed) :
    Inv (rtThreadExit t p r) := by
  have hclose := i.close ht hlife
  rw [rtThreadExit, if_pos ((i.owned ht hlife).before hlife).1]
  exact hclose

/-- What the end of a detach does to a thread that has terminated, and is on no list. -/
theorem pthreadDetach_closed (hlife : p.life = .closed) (hcleanup : p.cleanup = false) :
    pthreadDetach t p r = { r with
      conds := if p.sem then r.conds.delete t else r.conds
      thread := update r.thread t (some { p with life := .closed })
      defunct := r.defunct.erase t
      ledger := update r.ledger t ((r.ledger t).release p) } := by
  rw [pthreadDetach, if_pos hlife, freeBlocks, rtThreadDetach, deleteSem, Ledger.release]
  cases p.sem <;> simp [hcleanup]

/-- A terminated thread is released. -/
theorem release_inv (hc : r.conds.Inv) (hn : r.defunct.Nodup) (hother : ∀ u ≠ t, Ok (r.view u))
    (b : Blocks (r.ledger t) p) (hlife : p.life = .closed) (hcleanup : p.cleanup = false)
    (hwhy : r.detached t = true ∨ r.collected t = true) (hno : ∀ c, ¬ r.conds.Taker t c) :
    Inv (pthreadDetach t p r) := by
  rw [pthreadDetach_closed hlife hcleanup]
  rcases (hc.delete t).ite hc p.sem with ⟨i', hv, htaker, hwaits⟩
  refine inv_of_view hother i' (hn.erase t) (fun u hu => ?_) (ok_released (update_self ..) ?_)
  · exact view_congr (update_of_ne hu ..) (update_of_ne hu ..) (List.mem_erase_of_ne hu) rfl rfl
      (congrFun hv u) (htaker u) (hwaits u)
  · have hnone : ∀ c, ¬ (if p.sem then r.conds.delete t else r.conds).Taker t c :=
      fun c h => hno c ((htaker t c).1 h)
    refine ⟨fun k => ?_, fun k => ?_, ?_, rfl, hwhy, hn.not_mem_erase, hnone⟩
    · simp only [Run.view, update_self, Ledger.release_allocated]
      exact b.release k
    · simp only [Run.view, update_self, Ledger.release_allocated]
      exact (b.balanced k).2
    · simp only [Run.view, update_self, Ledger.release_allocated]
      exact b.data.1

/-- A thread that has not terminated loses its semaphore. -/
theorem detach_inv (hc : r.conds.Inv) (hn : r.defunct.Nodup) (hother : ∀ u ≠ t, Ok (r.view u))
    (o : Owned (r.view t) p) (hlife : p.life ≠ .closed) (hsem : p.sem = true)
    (hwhy : r.detached t = true ∨ r.collected t = true ∧ p.life ≠ .running)
    (hno : ∀ c, ¬ r.conds.Taker t c) : Inv (pthreadDetach t p r) := by
  have b := o.blocks
  have hbefore := o.before hlife
  rw [pthreadDetach, if_neg hlife]
  rcases hc.delete t with ⟨i', hv, htaker, hwaits⟩
  refine inv_of_view hother i' hn (fun u hu => ?_) (ok_owned (update_self ..) ?_)
  · exact view_congr (update_of_ne hu ..) (update_of_ne hu ..) Iff.rfl rfl rfl (congrFun hv u) (htaker u)
      (hwaits u)
  · have hnone : ∀ c, ¬ (r.conds.delete t).Taker t c := fun c h => hno c ((htaker t c).1 h)
    have hvalue : (r.conds.delete t).value t = r.conds.value t := congrFun hv t
    have hblocks : Blocks ((r.ledger t).free .sem) { p with joinable := false, sem := false } := by
      have hs : (r.ledger t).allocated .sem = (r.ledger t).freed .sem + if p.sem then 1 else 0 := b.sem
      rw [if_pos hsem] at hs
      exact ⟨b.data, b.object, b.stack, by simpa [Ledger.free] using hs, b.semOne⟩
    refine ⟨?_, rfl, fun _ => hwhy, o.found, fun _ => hbefore, fun h => absurd h hlife,
      fun h => ⟨hvalue.trans (o.running h).1, hnone⟩, fun h => hvalue.le.trans (o.value h),
      fun c _ h => absurd h (hnone c), fun c h => absurd h (hnone c),
      fun h => absurd (hbefore.1.symm.trans h) Bool.noConfusion⟩
    simp only [Run.view, deleteSem, update_self]
    exact hblocks

/-- The idle thread calls the cleanup function of the first defunct thread. -/
theorem Inv.idle (i : Inv r) {rest : List τ} (hd : r.defunct = t :: rest)
    (h : ∀ p ∈ r.thread t, p.joinable = true → r.conds.suspended t ≠ [] → ∀ c, ¬ r.conds.Taker t c) :
    Inv (idleStep t rest r) := by
  have hqueued : t ∈ r.defunct := hd ▸ List.mem_cons_self
  have hnodup : (t :: rest).Nodup := hd ▸ i.nodup
  have hout : t ∉ rest := (List.nodup_cons.1 hnodup).1
  have hrest : ∀ u ≠ t, (u ∈ rest ↔ u ∈ r.defunct) := fun u hu => by
    rw [hd, List.mem_cons, or_iff_right hu]
  unfold idleStep
  cases ht : r.thread t with
  | none => exact absurd hqueued ((i.ok t).unborn ht).out
  | some p =>
    have o : Owned (r.view t) p := ((i.ok t).born ht).resolve_right fun d => d.out hqueued
    have b := o.blocks
    have hlife : p.life = .closed := by
      by_contra hlife
      exact (o.before hlife).2 hqueued
    have hcleanup : p.cleanup = true := (o.after hlife).1 hqueued
    rw [Option.elim_some, if_pos hcleanup, pthreadCleanup]
    split_ifs with hj
    · refine i.of_view (t := t) (i.conds.signal t) (List.nodup_cons.1 hnodup).2 (fun u hu => ?_)
        (ok_owned (update_self ..) ?_)
      · rcases signal_other i.conds hu with ⟨hv, htaker⟩
        exact view_congr (update_of_ne hu ..) rfl (hrest u hu) rfl rfl hv htaker fun _ => Iff.rfl
      · refine ⟨⟨b.data, b.object, b.stack, b.sem, b.semOne⟩, o.joinable, o.off, o.found,
          fun hne => absurd hlife hne, fun _ => iff_of_false hout Bool.noConfusion,
          fun hr => Life.noConfusion (hlife.symm.trans hr), Bool.noConfusion, ?_, fun _ _ => hj,
          fun _ => ⟨hj, ?_⟩⟩
        · rcases Conds.taker_signal i.conds t with ⟨w, hne, -, htaker⟩ | ⟨-, -, htaker⟩
          · intro c c' hc hc'
            have hw : ∀ c, (r.conds.signal t).Taker t c → c = w := fun c hc =>
              ((htaker t c).1 hc).elim And.right fun hold => absurd hold (h p ht hj hne c)
            exact (hw c hc).trans (hw c' hc').symm
          · exact fun c c' hc hc' => o.unique c c' ((htaker t c).1 hc) ((htaker t c').1 hc')
        · rcases Conds.taker_signal i.conds t with ⟨w, -, -, htaker⟩ | ⟨-, hv, -⟩
          · exact Or.inr ⟨w, (htaker t w).2 (Or.inl ⟨rfl, rfl⟩)⟩
          · left
            have hone : r.conds.value t ≤ 1 := o.value hcleanup
            change 0 < (r.conds.signal t).value t
            rw [hv, update_self]
            omega
    · have hwhy : r.detached t = true ∨ r.collected t = true :=
        (o.off (by simpa using hj)).imp_right And.left
      refine release_inv i.conds (List.nodup_cons.1 hnodup).2 (fun u hu => ?_)
        ⟨b.data, b.object, b.stack, b.sem, b.semOne⟩ hlife rfl hwhy fun c hc => hj (o.counted c hc)
      have hsame : Run.view { r with
          defunct := rest
          thread := update r.thread t (some { p with cleanup := false }) } u = r.view u :=
        view_congr (update_of_ne hu ..) rfl (hrest u hu) rfl rfl rfl (fun _ => Iff.rfl) fun _ => Iff.rfl
      rw [hsame]
      exact i.ok u

/-- A join goes on with a count: it releases the thread, unless the thread is still on its way to its
    end. -/
theorem Inv.goOn (i : Inv r) {e : ℤ} (hc : r.conds.phase c = some (.locking t e))
    (h : e = rtEok → ∀ p ∈ r.thread t, ¬ p.Defunct) : Inv (afterTake c t e r) := by
  have i' := i.conds.leave hc
  have hwaits : r.conds.Waits t c := ⟨_, hc, rfl⟩
  have hmine : ∀ k, r.conds.Waits k c → k = t := by
    rintro k ⟨ph, hph, rfl⟩
    rw [hc] at hph
    exact congrArg Phase.cond (Option.some.inj hph).symm
  unfold afterTake
  split_ifs with he
  · have htaker : r.conds.Taker t c := Or.inl (he ▸ hc)
    cases ht : r.thread t with
    | none => exact absurd hwaits (((i.ok t).unborn ht).waits c)
    | some p =>
      have o : Owned (r.view t) p := ((i.ok t).born ht).resolve_right fun d => d.takers c htaker
      have hno : ∀ u, ¬ (r.conds.leave c).Taker t u := fun u hu => by
        rw [Conds.taker_leave] at hu
        exact hu.1 (o.unique u c hu.2 htaker)
      have hsame : ∀ u ≠ t, Ok (Run.view { r with
          conds := r.conds.leave c
          collected := update r.collected t true } u) := by
        intro u hu
        have hview : Run.view { r with
            conds := r.conds.leave c
            collected := update r.collected t true } u = r.view u := by
          refine view_congr rfl rfl Iff.rfl (update_of_ne hu ..) rfl rfl (fun w => ?_) fun w => ?_
          · refine Conds.taker_leave.trans (and_iff_right_of_imp fun hw e => ?_)
            exact hu (hmine u (e ▸ hw.waits))
          · refine Conds.waits_leave.trans (and_iff_right_of_imp fun hw e => ?_)
            exact hu (hmine u (e ▸ hw))
        rw [hview]
        exact i.ok u
      have hjoinable := o.counted c htaker
      rw [Option.elim_some]
      by_cases hlife : p.life = .closed
      · have hcleanup : p.cleanup = false := by
          by_contra hne
          exact h he p ht ⟨hlife, by simpa using hne⟩
        exact release_inv i' i.nodup hsame o.blocks hlife hcleanup (Or.inr (update_self ..)) hno
      · have hrunning : p.life ≠ .running := fun hr => (o.running hr).2 c htaker
        have hcleanup := (o.before hlife).1
        refine detach_inv i' i.nodup hsame ?_ hlife (o.joinable ▸ hjoinable)
          (Or.inr ⟨update_self .., hrunning⟩) hno
        exact ⟨o.blocks, o.joinable, fun hj => absurd (hjoinable.symm.trans hj) Bool.noConfusion, o.found,
          o.before, o.after, fun hr => absurd hr hrunning, o.value, fun u _ hu => absurd hu (hno u),
          fun u hu => absurd hu (hno u), fun hf => absurd (hcleanup.symm.trans hf) Bool.noConfusion⟩
  · refine ⟨i', i.nodup, fun u => ?_⟩
    have htaker : (r.conds.leave c).Taker u = r.conds.Taker u := by
      funext w
      refine propext (Conds.taker_leave.trans (and_iff_right_of_imp ?_))
      rintro hw rfl
      refine Conds.not_taker hc (fun heq => he ?_) (by simp) hw
      exact (Phase.locking.inj (Option.some.inj heq)).2
    have hview : Run.view { r with conds := r.conds.leave c } u
        = { r.view u with waits := (r.conds.leave c).Waits u } :=
      View.ext rfl rfl rfl rfl rfl rfl htaker rfl
    rw [hview]
    exact (i.ok u).of_waits fun hn w hw => ((i.ok u).unborn hn).waits w (Conds.waits_leave.1 hw).2

/-- A join takes the semaphore of its thread. -/
theorem Inv.take (i : Inv r) {conds : Conds τ τ} (hc : r.conds.take c = some conds)
    (h : ∀ t timeout, r.conds.phase c = some (.window t timeout) →
      r.HasSem t ∧ (0 < r.conds.value t → ∀ c, ¬ r.conds.Taker t c)) :
    Inv { r with conds := conds } := by
  have i' := i.conds.take hc
  have hwaits := Conds.waits_take i.conds hc
  rcases Conds.taker_take i.conds hc with ⟨t, timeout, hph, ⟨hv, hvalue, htaker⟩ | ⟨-, hvalue, htaker⟩⟩
  · rcases h t timeout hph with ⟨hsem, hno⟩
    refine i.of_view (t := t) i' i.nodup (fun u hu => ?_) ?_
    · refine view_congr rfl rfl Iff.rfl rfl rfl ?_ (fun w => ?_) (hwaits u)
      · rw [hvalue, update_of_ne hu]
      · exact (htaker u w).trans (or_iff_right fun hw => hu hw.1)
    · cases ht : r.thread t with
      | none => exact absurd ⟨_, hph, rfl⟩ (((i.ok t).unborn ht).waits c)
      | some p =>
        have o : Owned (r.view t) p :=
          ((i.ok t).born ht).resolve_right fun d => absurd (d.freed .sem) (Nat.ne_of_lt hsem)
        have hmine : ∀ w, conds.Taker t w → w = c := fun w hw =>
          ((htaker t w).1 hw).elim And.right fun hold => absurd hold (hno hv w)
        have hj : p.joinable = true := by
          rw [o.joinable]
          by_contra hs
          have hblock : (r.ledger t).allocated .sem = (r.ledger t).freed .sem + if p.sem then 1 else 0 :=
            o.blocks.sem
          rw [if_neg hs] at hblock
          exact absurd hsem (by rw [Run.HasSem, hblock]; exact lt_irrefl _)
        have hrunning : p.life ≠ .running := fun hr => hv.ne' (o.running hr).1
        have hle : conds.value t ≤ r.conds.value t := by
          rw [hvalue, update_self]
          exact Nat.sub_le _ _
        refine ok_owned ht ⟨o.blocks, o.joinable, o.off, o.found, o.before, o.after,
          fun hr => absurd hr hrunning, fun hcl => hle.trans (o.value hcl),
          fun w w' hw hw' => (hmine w hw).trans (hmine w' hw').symm, fun _ _ => hj,
          fun _ => ⟨hj, Or.inr ⟨c, (htaker t c).2 (Or.inl ⟨rfl, rfl⟩)⟩⟩⟩
  · refine ⟨i', i.nodup, fun u => ?_⟩
    have hview : Run.view { r with conds := conds } u = r.view u :=
      view_congr rfl rfl Iff.rfl rfl rfl (congrFun hvalue u) (htaker u) (hwaits u)
    rw [hview]
    exact i.ok u

/-- A join is woken. -/
theorem Inv.wake (i : Inv r) {conds : Conds τ τ} (hc : r.conds.wake c = some conds) :
    Inv { r with conds := conds } := by
  refine ⟨i.conds.wake hc, i.nodup, fun u => ?_⟩
  have hvalue : conds.value = r.conds.value := by
    obtain ⟨k, -, -, rfl⟩ := Conds.wake_cases hc
    rfl
  have hview : Run.view { r with conds := conds } u = r.view u :=
    view_congr rfl rfl Iff.rfl rfl rfl (congrFun hvalue u) (fun w => Conds.taker_wake i.conds hc)
      (Conds.waits_wake hc u)
  rw [hview]
  exact i.ok u

/-- A join begins. -/
theorem Inv.join (i : Inv r) (hc : r.conds.phase c = none) (ht : r.thread t = some p) (timeout : ℤ) :
    Inv { r with conds := r.conds.enter c t timeout } := by
  refine ⟨i.conds.enter hc t timeout, i.nodup, fun u => ?_⟩
  have hview : Run.view { r with conds := r.conds.enter c t timeout } u
      = { r.view u with waits := (r.conds.enter c t timeout).Waits u } :=
    View.ext rfl rfl rfl rfl rfl rfl (funext fun w => propext (Conds.taker_enter hc timeout)) rfl
  rw [hview]
  refine (i.ok u).of_waits fun hn w hw => ?_
  rcases Conds.waits_enter hw with rfl | hw
  · exact absurd (ht.symm.trans hn) (Option.some_ne_none p)
  · exact ((i.ok u).unborn hn).waits w hw

/-- A create that succeeds has allocated everything. -/
theorem createBlocks_blocks {attr : Attr} {mem : Mem} {l : Ledger} (ha : ∀ k, l.allocated k = 0)
    (hf : ∀ k, l.freed k = 0) (h : (createBlocks attr mem l).1 = true) :
    Blocks (createBlocks attr mem l).2 ⟨attr.joinable, attr.joinable, attr.ownStack, true, .running⟩ := by
  unfold createBlocks at h ⊢
  split_ifs at h ⊢ with hdata hstack hobject hsem hj hown hown <;>
    exact ⟨by simp [Ledger.alloc, ha, hf], by simp [Ledger.alloc, ha, hf],
      by simp [Ledger.alloc, *], by simp [Ledger.alloc, *], by simp [Ledger.alloc, ha]⟩

/-- A create that fails, if it is not for want of the semaphore, frees what it has allocated. -/
theorem createBlocks_freed {attr : Attr} {mem : Mem} {l : Ledger} (ha : ∀ k, l.allocated k = 0)
    (hf : ∀ k, l.freed k = 0) (h : (createBlocks attr mem l).1 = false)
    (hmem : mem.data = true → (attr.ownStack = true → mem.stack = true) → mem.object = true →
      attr.joinable = true → mem.sem = true) (k : Block) :
    (createBlocks attr mem l).2.freed k = (createBlocks attr mem l).2.allocated k ∧
      (createBlocks attr mem l).2.allocated k ≤ 1 ∧
      ((createBlocks attr mem l).2.allocated .data = 0 → (createBlocks attr mem l).2.allocated k = 0) := by
  unfold createBlocks at h ⊢
  split_ifs at h ⊢ with hdata hstack hobject hsem hown hown
  · cases k <;> simp [Ledger.alloc, Ledger.free, ha, hf]
  · exact absurd (hmem hdata (fun hs => by_contra fun hn => hstack ⟨hs, hn⟩) hobject hsem.1) hsem.2
  · exact absurd (hmem hdata (fun hs => by_contra fun hn => hstack ⟨hs, hn⟩) hobject hsem.1) hsem.2
  · cases k <;> simp [Ledger.alloc, Ledger.free, ha, hf]
  · cases k <;> simp [Ledger.alloc, Ledger.free, ha, hf]
  · exact ⟨(hf k).trans (ha k).symm, (ha k).le.trans (Nat.zero_le 1), fun _ => ha k⟩

/-- A thread is created, or not. -/
theorem Inv.create (i : Inv r) (hfresh : r.Fresh t) {attr : Attr} {mem : Mem}
    (h : mem.data = true → (attr.ownStack = true → mem.stack = true) → mem.object = true →
      attr.joinable = true → mem.sem = true) : Inv (pthreadCreate t attr mem r) := by
  have n := (i.ok t).unborn hfresh.1
  have ha : ∀ k, (r.ledger t).allocated k = 0 := n.fresh hfresh.2.2
  have hf : ∀ k, (r.ledger t).freed k = 0 := fun k => (n.freed k).trans (ha k)
  have hout : t ∉ r.defunct := n.out
  have hzero : r.conds.value t = 0 := n.value
  have hnone : ∀ c, ¬ r.conds.Taker t c := fun c hc => n.waits c hc.waits
  rw [pthreadCreate]
  by_cases hok : (createBlocks attr mem (r.ledger t)).1 = true
  · rw [if_pos hok]
    have hblocks := createBlocks_blocks ha hf hok
    rcases (i.conds.create hzero).ite i.conds attr.joinable with ⟨i', hv, htaker, hwaits⟩
    refine i.of_view (t := t) i' i.nodup (fun u hu => ?_) (ok_owned (update_self ..) ?_)
    · exact view_congr (update_of_ne hu ..) (update_of_ne hu ..) Iff.rfl rfl (update_of_ne hu ..)
        (congrFun hv u) (htaker u) (hwaits u)
    · have hvalue := (congrFun hv t).trans hzero
      have hno := fun c hc => hnone c ((htaker t c).1 hc)
      refine ⟨?_, rfl, fun hj => ?_, Life.noConfusion, fun _ => ⟨rfl, hout⟩, Life.noConfusion,
        fun _ => ⟨hvalue, hno⟩, fun _ => hvalue.le.trans (Nat.zero_le 1),
        fun c _ hc => absurd hc (hno c), fun c hc => absurd hc (hno c), Bool.noConfusion⟩
      · simp only [Run.view, update_self]
        exact hblocks
      · left
        have hj' : attr.joinable = false := hj
        simp only [Run.view, update_self, hj', Bool.not_false]
  · rw [if_neg hok]
    have hfreed := createBlocks_freed ha hf (by simpa using hok) h
    refine i.of_view (t := t) i.conds i.nodup (fun u hu => ?_) ?_
    · exact view_congr rfl (update_of_ne hu ..) Iff.rfl rfl rfl rfl (fun _ => Iff.rfl) fun _ => Iff.rfl
    · refine ok_unborn hfresh.1 ?_
      refine ⟨fun k => ?_, fun k => ?_, fun hd k => ?_, hout, hzero, n.waits⟩
      · simp only [Run.view, update_self]
        exact (hfreed k).1
      · simp only [Run.view, update_self]
        exact (hfreed k).2.1
      · simp only [Run.view, update_self] at hd ⊢
        exact (hfreed k).2.2 hd

/-- A thread is detached. -/
theorem Inv.detach (i : Inv r) (ht : r.thread t = some p) (hvalid : r.Valid t)
    (hsem : p.life = .closed ∨ p.sem = true) (h : ¬ p.Defunct) (hno : ∀ c, ¬ r.conds.Taker t c) :
    Inv (pthreadDetach t p { r with detached := update r.detached t true }) := by
  have o : Owned (r.view t) p := by
    refine ((i.ok t).born ht).resolve_right fun d => ?_
    have hfreed : (r.ledger t).freed .data = (r.ledger t).allocated .data := d.freed .data
    have hone : (r.ledger t).allocated .data = 1 := d.data
    rw [hone, hvalid] at hfreed
    exact absurd hfreed (by decide)
  have b := o.blocks
  have hsame : ∀ u ≠ t, Ok (Run.view { r with detached := update r.detached t true } u) := by
    intro u hu
    have hview : Run.view { r with detached := update r.detached t true } u = r.view u :=
      view_congr rfl rfl Iff.rfl rfl (update_of_ne hu ..) rfl (fun _ => Iff.rfl) fun _ => Iff.rfl
    rw [hview]
    exact i.ok u
  by_cases hlife : p.life = .closed
  · have hcleanup : p.cleanup = false := by
      by_contra hc
      exact h ⟨hlife, by simpa using hc⟩
    exact release_inv i.conds i.nodup hsame b hlife hcleanup (Or.inl (update_self ..)) hno
  · refine detach_inv i.conds i.nodup hsame ?_ hlife (hsem.resolve_left hlife) (Or.inl (update_self ..)) hno
    exact ⟨b, o.joinable, fun _ => Or.inl (update_self ..), o.found, o.before, o.after, o.running, o.value,
      o.unique, o.counted, o.kept⟩

/-- A step that concerns one thread does nothing where it is not there. -/
theorem Inv.on (i : Inv r) {f : Pthread → Run τ} (h : ∀ p, r.thread t = some p → Inv (f p)) :
    Inv ((r.thread t).elim r f) := by
  cases ht : r.thread t with
  | none => exact i
  | some p => exact h p ht

/-- A sound step keeps what is known. -/
theorem Inv.step (i : Inv r) (op : Op τ) (h : Sound r op) : Inv (r.step op) := by
  cases op with
  | create t attr mem =>
    rw [Run.step]
    split_ifs with hfresh
    · exact i.create hfresh (h hfresh)
    · exact i
  | exit t =>
    refine i.on fun p ht => ?_
    split_ifs with ha
    · exact i.exit ht (ha.2.2 p ht)
    · exact i
  | finish t interrupted =>
    refine i.on fun p ht => ?_
    have hi : ¬ interrupted = true := Bool.eq_false_iff.1 h
    rw [if_neg hi]
    split_ifs with hlife
    · exact i.finish ht (by rw [hlife]; decide)
    · exact i
  | ret t =>
    refine i.on fun p ht => ?_
    split_ifs with ha
    · exact i.ret ht (by rw [ha.2.2 p ht]; decide)
    · exact i
  | idle =>
    rw [Run.step]
    split
    · exact i
    next t rest hd =>
      refine i.idle hd fun p hp => h t ?_ p hp
      rw [hd]
      rfl
  | join c t =>
    refine i.on fun p ht => ?_
    split_ifs with hj
    · exact i.join hj.1.1 ht _
    · exact i
  | take c =>
    rw [Run.step]
    cases hc : r.conds.take c with
    | none => exact i
    | some conds => exact i.take hc h
  | wake c =>
    rw [Run.step]
    cases hc : r.conds.wake c with
    | none => exact i
    | some conds => exact i.wake hc
  | goOn c =>
    rw [Run.step]
    split
    next t e hc => exact i.goOn hc fun he => h t (he ▸ hc)
    · exact i
  | detach c t =>
    refine i.on fun p ht => ?_
    split_ifs with hd
    · rcases h hd.1 hd.2.1 p ht with ⟨hdefunct, hno⟩
      exact i.detach ht hd.2.1 hd.2.2 hdefunct hno
    · exact i

/-- No thread has been created. -/
structure Run.Init (r : Run τ) : Prop where
  conds : r.conds.Init
  thread : ∀ t, r.thread t = none
  defunct : r.defunct = []
  allocated : ∀ t k, (r.ledger t).allocated k = 0
  freed : ∀ t k, (r.ledger t).freed k = 0

theorem init_inv (h : r.Init) : Inv r := by
  refine ⟨h.conds.inv, h.defunct ▸ List.nodup_nil, fun t => ok_unborn (h.thread t) ?_⟩
  have hzero := h.allocated t
  refine ⟨fun k => (h.freed t k).trans (hzero k).symm, fun k => (hzero k).le.trans (Nat.zero_le 1),
    fun _ => hzero, ?_, h.conds.value t, ?_⟩
  · rw [Run.view, h.defunct]
    exact List.not_mem_nil
  · rintro c ⟨ph, hph, -⟩
    exact h.conds.out c ph hph

/-- In every run in which no create fails for want of its semaphore, no thread is interrupted for good
    on its way to its end, and no thread is released while it is on the list of defunct threads, or by
    two, all that is allocated for a thread is freed once, and not too early. -/
theorem freed_of_sound (hr : r.Init) (ops : List (Op τ)) (h : Along Run.step Sound r ops) :
    Along Run.step (fun r op => Good (r.step op)) r ops :=
  Along.imp (I := Inv) (fun _ op i hs => good_of_ok (i.step op hs).ok)
    (fun _ op i hs => i.step op hs) ops (init_inv hr) h

/-- Three threads that are ready, and none of them created. -/
def start : Run (Fin 3) where
  conds :=
    { os := { tasks := ⟨fun t => ⟨.ready, t, t, 0, 0, 0, 0, false, false, true⟩, fun _ => []⟩
              sem := fun _ => Sem.rtSemInit 0 .fifo }
      window := fun _ => []
      phase := fun _ => none }
  thread _ := none
  defunct := []
  ledger _ := ⟨fun _ => 0, fun _ => 0⟩
  collected _ := false
  detached _ := false

theorem start_init : start.Init := ⟨⟨fun _ => rfl, fun _ => rfl, fun _ => rfl, fun _ => rfl⟩,
  fun _ => rfl, rfl, fun _ _ => rfl, fun _ _ => rfl⟩

/-- A thread exits and is joined, another one is detached and returns: in the end everything is freed. -/
theorem freed_of_sound_joined : Along Run.step (fun r op => Good (r.step op)) start
    [.create 1 ⟨true, true⟩ ⟨true, true, true, true⟩, .create 2 ⟨true, true⟩ ⟨true, true, true, true⟩,
      .detach 0 2, .join 0 1, .take 0, .exit 1, .finish 1 false, .idle, .ret 2, .idle, .wake 0,
      .goOn 0] :=
  freed_of_sound start_init _ (by decide +kernel)

/-- A joinable thread is created, and there is no memory for its semaphore: its stack, and its
    `rt_thread`, are not freed. -/
theorem not_freed_of_no_sem : ¬ Along Run.step (fun r op => Good (r.step op)) start
    [.create 1 ⟨true, true⟩ ⟨true, true, true, false⟩] := by
  rintro ⟨h, -⟩
  exact absurd (h.failed 1 .stack rfl) (by decide +kernel)

end Steps

end EasyCore.Pthreads.Lifecycle
