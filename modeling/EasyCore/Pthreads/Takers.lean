import EasyCore.Pthreads.Cond

/-! Who has taken a count of a semaphore. A release gives a count to the thread that it wakes; the
    threads that a deletion wakes have none. -/

namespace EasyCore.Pthreads.Conds
open Function Kernel Ipc Links

variable {κ τ : Type*}

/-- A thread has got a count of `k`, and is on its way out of `rt_sem_take`. -/
def Taker (s : Conds κ τ) (k : κ) (t : τ) : Prop :=
  s.phase t = some (.locking k rtEok) ∨
    s.phase t = some (.taking k) ∧ t ∉ s.suspended k ∧ s.error t = rtEok

section Moves
variable [DecidableEq κ] [DecidableEq τ] {s s' : Conds κ τ} {t u : τ} {k k' : κ}

/-- The semaphore is created: `rt_sem_create` with the value 0. -/
def create (s : Conds κ τ) (k : κ) : Conds κ τ :=
  { s with os := { s.os with sem := update s.os.sem k (Sem.rtSemInit 0 .fifo) } }

/-- The semaphore is deleted: `rt_sem_delete` -/
def delete (s : Conds κ τ) (k : κ) : Conds κ τ :=
  { s with os := { s.os with tasks := s.os.tasks.ipcResumeAll k } }

omit [DecidableEq κ] [DecidableEq τ] in
theorem Taker.waits (h : s.Taker k t) : s.Waits k t := by
  obtain h | ⟨h, -, -⟩ := h
  · exact ⟨_, h, rfl⟩
  · exact ⟨_, h, rfl⟩

omit [DecidableEq κ] [DecidableEq τ] in
/-- Only the phases of a thread, and what is on the list, matter. -/
theorem taker_congr (hph : s'.phase u = s.phase u) (hs : u ∈ s'.suspended k ↔ u ∈ s.suspended k)
    (he : s'.error u = s.error u) : s'.Taker k u ↔ s.Taker k u := by
  unfold Taker
  rw [hph, hs, he]

omit [DecidableEq κ] [DecidableEq τ] in
theorem not_taker {ph : Option (Phase κ)} (ht : s.phase t = ph)
    (hlocking : ph ≠ some (.locking k rtEok)) (htaking : ph ≠ some (.taking k)) : ¬ s.Taker k t := by
  rintro (h | ⟨h, -⟩)
  · exact hlocking (ht.symm.trans h)
  · exact htaking (ht.symm.trans h)

theorem taker_enter (ht : s.phase t = none) (timeout : ℤ) :
    (s.enter t k' timeout).Taker k u ↔ s.Taker k u := by
  obtain rfl | hu := eq_or_ne u t
  · have hnew : (s.enter u k' timeout).phase u = some (.window k' timeout) := update_self ..
    exact iff_of_false (not_taker hnew (by simp) (by simp)) (not_taker ht (by simp) (by simp))
  · exact taker_congr (update_of_ne hu ..) Iff.rfl rfl

omit [DecidableEq κ] in
theorem taker_leave : (s.leave t).Taker k u ↔ u ≠ t ∧ s.Taker k u := by
  obtain rfl | hu := eq_or_ne u t
  · have hnew : (s.leave u).phase u = none := update_self ..
    exact iff_of_false (not_taker hnew (by simp) (by simp)) fun h => h.1 rfl
  · rw [and_iff_right hu]
    exact taker_congr (update_of_ne hu ..) Iff.rfl rfl

theorem waits_enter {timeout : ℤ} (h : (s.enter t k' timeout).Waits k u) : k = k' ∨ s.Waits k u := by
  obtain ⟨ph, hph, rfl⟩ := h
  obtain rfl | hu := eq_or_ne u t
  · have hnew : (s.enter u k' timeout).phase u = some (.window k' timeout) := update_self ..
    exact Or.inl (congrArg Phase.cond (Option.some.inj (hnew.symm.trans hph))).symm
  · have hold : (s.enter t k' timeout).phase u = s.phase u := update_of_ne hu ..
    exact Or.inr ⟨ph, hold.symm.trans hph, rfl⟩

theorem waits_take (i : Inv s) (h : s.take t = some s') (k : κ) (u : τ) :
    s'.Waits k u ↔ s.Waits k u := by
  obtain ⟨j, timeout, ht, -, -, htaken⟩ := i.taken h
  cases htaken with
  | counted hv value suspended error phase => exact waits_move ht phase rfl k u
  | refused hv htime value suspended error phase => exact waits_move ht phase rfl k u
  | slept hv value perm suspended error phase => exact waits_move ht phase rfl k u

omit [DecidableEq κ] in
theorem waits_leave : (s.leave t).Waits k u ↔ u ≠ t ∧ s.Waits k u := by
  unfold Waits leave
  obtain rfl | hu := eq_or_ne u t
  · simp
  · simp [hu]

omit [DecidableEq κ] in
theorem taker_wake (i : Inv s) (h : s.wake t = some s') : s'.Taker k u ↔ s.Taker k u := by
  obtain ⟨j, ht, hr, rfl⟩ := wake_cases h
  obtain rfl | hu := eq_or_ne u t
  · have hout : u ∉ s.suspended k := i.waiting.not_mem hr k
    unfold Taker
    simp only [update_self, ht, Option.some.injEq, Phase.locking.injEq, Phase.taking.injEq,
      reduceCtorEq, false_and, or_false, false_or]
    exact and_congr_right fun _ => (and_iff_right hout).symm
  · exact taker_congr (update_of_ne hu ..) Iff.rfl rfl

/-- A thread that finds a count has it; one that does not has none. -/
theorem taker_take (i : Inv s) (h : s.take t = some s') : ∃ j timeout,
    s.phase t = some (.window j timeout) ∧
    (0 < s.value j ∧ s'.value = update s.value j (s.value j - 1) ∧
        (∀ k u, s'.Taker k u ↔ k = j ∧ u = t ∨ s.Taker k u) ∨
      s.value j = 0 ∧ s'.value = s.value ∧ ∀ k u, s'.Taker k u ↔ s.Taker k u) := by
  obtain ⟨j, timeout, ht, hmem, -, htaken⟩ := i.taken h
  refine ⟨j, timeout, ht, ?_⟩
  have hold : ∀ k, ¬ s.Taker k t := fun k => not_taker ht (by simp) (by simp)
  cases htaken with
  | counted hv value suspended error phase =>
    refine Or.inl ⟨hv, value, fun k u => ?_⟩
    obtain rfl | hu := eq_or_ne u t
    · have hnew : s'.phase u = some (.locking j rtEok) := by rw [phase, update_self]
      rw [or_iff_left (hold k), and_iff_left rfl]
      constructor
      · intro h
        by_contra hk
        exact not_taker hnew (by simp [Ne.symm hk]) (by simp) h
      · rintro rfl
        exact Or.inl hnew
    · rw [taker_congr (phase ▸ update_of_ne hu ..) (by rw [suspended]) (by rw [error])]
      simp [hu]
  | refused hv htime value suspended error phase =>
    refine Or.inr ⟨hv, value, fun k u => ?_⟩
    obtain rfl | hu := eq_or_ne u t
    · have hnew : s'.phase u = some (.locking j (-rtEtimeout)) := by rw [phase, update_self]
      refine iff_of_false (not_taker hnew ?_ (by simp)) (hold k)
      rw [Ne, Option.some.injEq, Phase.locking.injEq, not_and]
      exact fun _ => by decide
    · exact taker_congr (phase ▸ update_of_ne hu ..) (by rw [suspended]) (by rw [error])
  | @slept l hv value perm suspended error phase =>
    refine Or.inr ⟨hv, value, fun k u => ?_⟩
    obtain rfl | hu := eq_or_ne u t
    · refine iff_of_false ?_ (hold k)
      have hnew : s'.phase u = some (.taking j) := by rw [phase, update_self]
      rintro (h | ⟨h, hout, -⟩)
      · exact absurd (hnew.symm.trans h) (by simp)
      · obtain rfl := Phase.taking.inj (Option.some.inj (hnew.symm.trans h))
        rw [suspended, update_self] at hout
        exact hout (perm.mem_iff.2 List.mem_cons_self)
    · refine taker_congr (phase ▸ update_of_ne hu ..) ?_ (by rw [error, update_of_ne hu])
      rw [suspended]
      obtain rfl | hk := eq_or_ne k j
      · rw [update_self, perm.mem_iff, List.mem_cons, or_iff_right hu]
      · rw [update_of_ne hk]

omit [DecidableEq κ] [DecidableEq τ] in
/-- Who is on the list has no count. -/
theorem Inv.not_taker_of_suspended (i : Inv s) (ht : t ∈ s.suspended k) : ¬ s.Taker k' t := by
  have hph := i.phase_of_suspended ht
  rintro (h | ⟨h, hout, -⟩)
  · exact absurd (hph.symm.trans h) (by simp)
  · obtain rfl := Phase.taking.inj (Option.some.inj (hph.symm.trans h))
    exact hout ht

/-- A release gives a count to the first thread of the list, or it is counted. -/
theorem taker_signal (i : Inv s) (k : κ) :
    (∃ t, s.suspended k ≠ [] ∧ (s.signal k).value = s.value ∧
      ∀ k' u, (s.signal k).Taker k' u ↔ k' = k ∧ u = t ∨ s.Taker k' u) ∨
    (s.suspended k = [] ∧ (s.signal k).value = update s.value k ((s.value k + 1) % 65536) ∧
      ∀ k' u, (s.signal k).Taker k' u ↔ s.Taker k' u) := by
  obtain ⟨t, l, hl, hs, hv, he⟩ | ⟨hl, hs, hv, he⟩ := i.signal_fields k
  · refine Or.inl ⟨t, hl ▸ List.cons_ne_nil t l, hv, fun k' u => ?_⟩
    have ht : t ∈ s.suspended k := hl ▸ List.mem_cons_self
    have hph := i.phase_of_suspended ht
    have hnodup : (t :: l).Nodup := hl ▸ i.waiting.nodup k
    obtain rfl | hu := eq_or_ne u t
    · rw [or_iff_left (i.not_taker_of_suspended ht), and_iff_left rfl]
      constructor
      · intro h
        by_contra hk
        exact not_taker (show (s.signal k).phase u = some (.taking k) from hph) (by simp)
          (by simp [Ne.symm hk]) h
      · rintro rfl
        refine Or.inr ⟨hph, ?_, ?_⟩
        · rw [hs, update_self]
          exact (List.nodup_cons.1 hnodup).1
        · rw [he]
          exact i.calm k' u ht
    · rw [or_iff_right fun h => hu h.2]
      refine taker_congr rfl ?_ (by rw [he])
      rw [hs]
      obtain rfl | hk := eq_or_ne k' k
      · rw [update_self, hl, List.mem_cons, or_iff_right hu]
      · rw [update_of_ne hk]
  · exact Or.inr ⟨hl, hv, fun k' u => taker_congr rfl (by rw [hs]) (by rw [he])⟩

/-- Neither the counts nor who has got one have changed. -/
structure Keeps (s s' : Conds κ τ) : Prop where
  inv : Inv s'
  value : s'.value = s.value
  taker : ∀ k t, s'.Taker k t ↔ s.Taker k t
  waits : ∀ k t, s'.Waits k t ↔ s.Waits k t

omit [DecidableEq κ] [DecidableEq τ] in
/-- An operation that is done under a condition. -/
theorem Keeps.ite (i : Inv s) (h : Keeps s s') (b : Bool) : Keeps s (if b then s' else s) := by
  split_ifs
  · exact h
  · exact ⟨i, rfl, fun _ _ => Iff.rfl, fun _ _ => Iff.rfl⟩

/-- A deletion gives no count. -/
theorem Inv.delete (i : Inv s) (k : κ) : Keeps s (s.delete k) := by
  obtain ⟨hs, -, he, -, -, w⟩ := i.waiting.ipcResumeAll_fields k
  have hsuspended : (s.delete k).suspended = update s.suspended k [] := hs
  have herror : (s.delete k).error = fun u => if u ∈ s.suspended k then -rtError else s.error u := he
  refine ⟨⟨w, fun k' u hu => ?_, fun k' hv => ?_, i.nodup, i.mem, i.lt⟩, rfl, fun k' u => ?_,
    fun _ _ => Iff.rfl⟩
  · rw [hsuspended] at hu
    obtain rfl | hk := eq_or_ne k' k
    · rw [update_self] at hu
      exact absurd hu List.not_mem_nil
    · rw [update_of_ne hk] at hu
      have hout : u ∉ s.suspended k := fun hm => hk (i.waiting.uniq hu hm)
      simp only [herror, if_neg hout]
      exact i.calm k' u hu
  · rw [hsuspended]
    obtain rfl | hk := eq_or_ne k' k
    · rw [update_self]
    · rw [update_of_ne hk]
      exact i.idle k' hv
  · by_cases hu : u ∈ s.suspended k
    · refine iff_of_false ?_ (i.not_taker_of_suspended hu)
      rintro (h | ⟨-, -, herr⟩)
      · exact absurd ((i.phase_of_suspended hu).symm.trans h) (by simp)
      · simp only [herror, if_pos hu] at herr
        exact absurd herr (by decide)
    · refine taker_congr rfl ?_ (by simp only [herror, if_neg hu])
      rw [hsuspended]
      obtain rfl | hk := eq_or_ne k' k
      · rw [update_self]
        exact iff_of_false List.not_mem_nil hu
      · rw [update_of_ne hk]

omit [DecidableEq τ] in
/-- A semaphore is created where there was no count. -/
theorem Inv.create (i : Inv s) (hv : s.value k = 0) : Keeps s (s.create k) := by
  have hvalue : (s.create k).value = s.value := by
    funext k'
    obtain rfl | hk := eq_or_ne k' k
    · rw [hv]
      simp only [value, Conds.create, update_self]
      rfl
    · simp only [value, Conds.create, update_of_ne hk]
  exact ⟨⟨i.waiting, i.calm, fun k' h => i.idle k' (hvalue ▸ h), i.nodup, i.mem,
    fun k' => hvalue ▸ i.lt k'⟩, hvalue, fun _ _ => Iff.rfl, fun _ _ => Iff.rfl⟩

end Moves

end EasyCore.Pthreads.Conds
