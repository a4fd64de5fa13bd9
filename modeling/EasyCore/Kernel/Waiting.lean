import EasyCore.Kernel.Tasks

/-! Threads inside blocking calls. `pc` says on which suspend list the call of a thread waits, if it
    is inside one; `Waiting` ties it to the lists and to the states of the threads, and is kept by
    everything that happens to a waiter. -/

namespace EasyCore.Ipc
open Function EasyCore.Links EasyCore.Kernel

variable {κ τ : Type*}

/-- `pc` says which threads are inside a call that waits on a suspend list: the waiters of a list
    are suspended and are inside a call on it, and a thread inside a call that is on no list any
    more has been made ready. -/
structure Waiting (s : Tasks κ τ) (pc : τ → Option κ) : Prop where
  nodup : ∀ k, (s.suspended k).Nodup
  mem : ∀ {k t}, t ∈ s.suspended k → pc t = some k ∧ s.stat t = .suspend
  woken : ∀ {k t}, pc t = some k → t ∉ s.suspended k → s.stat t = .ready

namespace Waiting
variable {s s' : Tasks κ τ} {pc pc' : τ → Option κ} {t u : τ} {k k' : κ}

theorem empty (hs : ∀ k, s.suspended k = []) (hp : ∀ t, pc t = none) : Waiting s pc where
  nodup k := hs k ▸ List.nodup_nil
  mem h := by simp [hs] at h
  woken h := by simp [hp] at h

/-- A ready thread waits on no list. -/
theorem not_mem (w : Waiting s pc) (hr : s.stat t = .ready) (k : κ) : t ∉ s.suspended k :=
  fun ht => absurd ((w.mem ht).2.symm.trans hr) (by decide)

/-- A thread waits on one list at most. -/
theorem uniq (w : Waiting s pc) (h : t ∈ s.suspended k) (h' : t ∈ s.suspended k') : k = k' :=
  Option.some.inj ((w.mem h).1.symm.trans (w.mem h').1)

/-- Changing neither the states of the threads nor the lists. -/
theorem congr (w : Waiting s pc) (hs : s'.suspended = s.suspended) (ht : s'.stat = s.stat) :
    Waiting s' pc where
  nodup k := hs ▸ w.nodup k
  mem h := by
    rw [hs] at h
    rw [ht]
    exact w.mem h
  woken h hn := by
    rw [hs] at hn
    rw [ht]
    exact w.woken h hn

variable [DecidableEq τ]

/-- A waiter is taken off its list and made ready. -/
theorem wake (w : Waiting s pc) (hs : s'.suspended = without s.suspended t)
    (ht : s'.stat = update s.stat t .ready) : Waiting s' pc where
  nodup k := by
    rw [hs]
    exact (w.nodup k).erase t
  mem {k u} h := by
    rw [hs] at h
    have hu : u ≠ t := fun e => not_mem_without (w.nodup k) (e ▸ h)
    rw [mem_without_of_ne hu] at h
    rw [ht, update_of_ne hu]
    exact w.mem h
  woken {k u} h hn := by
    by_cases hu : u = t
    · rw [ht, hu, update_self]
    · rw [hs, mem_without_of_ne hu] at hn
      rw [ht, update_of_ne hu]
      exact w.woken h hn

theorem resume (w : Waiting s pc) (h : t ∈ s.suspended k) : Waiting (s.resume t) pc :=
  w.wake (resume_fields (w.mem h).2).1 (resume_fields (w.mem h).2).2.1

theorem expire (w : Waiting s pc) (h : s.expire t = some s') : Waiting s' pc :=
  w.wake (expire_fields h).2.1 (expire_fields h).2.2.1

/-- A ready thread leaves its call. -/
theorem leave (w : Waiting s pc) (hr : s.stat t = .ready) : Waiting s (update pc t none) where
  nodup := w.nodup
  mem {k u} h := by
    have hu : u ≠ t := fun e => w.not_mem hr k (e ▸ h)
    rw [update_of_ne hu]
    exact w.mem h
  woken {k u} h hn := by
    have hu : u ≠ t := by
      rintro rfl
      simp at h
    rw [update_of_ne hu] at h
    exact w.woken h hn

/-- The lists without a waiter: only its own changes. -/
theorem without_eq_update [DecidableEq κ] (w : Waiting s pc) (h : t ∈ s.suspended k) :
    without s.suspended t = update s.suspended k ((s.suspended k).erase t) := by
  funext k'
  by_cases hk : k' = k
  · rw [hk, update_self]
    rfl
  · rw [update_of_ne hk, without_eq fun h' => hk (w.uniq h' h)]

variable [DecidableEq κ]

/-- A ready thread goes to sleep on a list. -/
theorem block {l : List τ} (w : Waiting s pc) (hr : s.stat t = .ready)
    (hs : s'.suspended = update s.suspended k l) (hl : l.Perm (t :: s.suspended k))
    (ht : s'.stat = update s.stat t .suspend) : Waiting s' (update pc t (some k)) where
  nodup k' := by
    rw [hs]
    by_cases hk : k' = k
    · subst hk
      rw [update_self, hl.nodup_iff, List.nodup_cons]
      exact ⟨w.not_mem hr k', w.nodup k'⟩
    · rw [update_of_ne hk]
      exact w.nodup k'
  mem {k' u} h := by
    rw [hs] at h
    rw [ht]
    by_cases hu : u = t
    · subst hu
      by_cases hk : k' = k
      · subst hk
        simp
      · rw [update_of_ne hk] at h
        exact absurd h (w.not_mem hr k')
    · rw [update_of_ne hu, update_of_ne hu]
      refine w.mem ?_
      by_cases hk : k' = k
      · subst hk
        simpa [hl.mem_iff, hu] using h
      · rwa [update_of_ne hk] at h
  woken {k' u} h hn := by
    rw [hs] at hn
    rw [ht]
    by_cases hu : u = t
    · subst hu
      rw [update_self] at h
      obtain rfl := Option.some.inj h
      exact absurd (by simp [hl.mem_iff]) hn
    · rw [update_of_ne hu] at h ⊢
      refine w.woken h fun hm => hn ?_
      by_cases hk : k' = k
      · subst hk
        simpa [hl.mem_iff, hu] using hm
      · rwa [update_of_ne hk]

theorem sleep (w : Waiting s pc) (hr : s.stat t = .ready) (flag : IpcFlag) (time : ℤ) :
    Waiting (s.sleep t k flag time) (update pc t (some k)) :=
  w.block hr (sleep_fields hr flag time).1 (insertWaiter_perm flag s.prio t _)
    (sleep_fields hr flag time).2.1

/-- `rt_ipc_list_resume_all` empties the list and makes its threads ready. -/
theorem ipcResumeAll_fields (w : Waiting s pc) (k : κ) :
    (s.ipcResumeAll k).suspended = update s.suspended k [] ∧
    (s.ipcResumeAll k).stat = (fun u => if u ∈ s.suspended k then .ready else s.stat u) ∧
    (s.ipcResumeAll k).error = (fun u => if u ∈ s.suspended k then -rtError else s.error u) ∧
    (s.ipcResumeAll k).prio = s.prio ∧ (s.ipcResumeAll k).initPrio = s.initPrio ∧
    Waiting (s.ipcResumeAll k) pc := by
  unfold Tasks.ipcResumeAll
  generalize hl : s.suspended k = l
  induction l generalizing s with
  | nil =>
    refine ⟨?_, by simp, by simp, rfl, rfl, w⟩
    rw [List.foldl_nil, eq_comm, update_eq_self_iff]
    exact hl.symm
  | cons t l ih =>
    have hm : t ∈ s.suspended k := by
      rw [hl]
      exact List.mem_cons_self
    have w' : Waiting (s.setError t (-rtError)) pc := w.congr (by simp) (by simp)
    have hm' : t ∈ (s.setError t (-rtError)).suspended k := by simpa using hm
    obtain ⟨hs, ht, he, hp, hi⟩ := resume_fields (w'.mem hm').2
    have hs' := w'.without_eq_update hm'
    simp only [setError_fields, hl, List.erase_cons_head] at hs ht he hp hi hs'
    rw [hs'] at hs
    obtain ⟨is, it, ie, ip, ii, iw⟩ := ih (w'.resume hm') (by rw [hs, update_self])
    refine ⟨?_, ?_, ?_, ip.trans hp, ii.trans hi, iw⟩
    · rw [List.foldl_cons, is, hs, update_idem]
    · rw [List.foldl_cons, it, ht]
      funext u
      by_cases hu : u = t <;> simp [hu, update_of_ne]
    · rw [List.foldl_cons, ie, he]
      funext u
      by_cases hu : u = t <;> simp [hu, update_of_ne]

end Waiting

/-- What the thread waited for has been handed to it: it was woken without an error. -/
def Granted (s : Tasks κ τ) (pc : τ → Option κ) (k : κ) (t : τ) : Prop :=
  pc t = some k ∧ t ∉ s.suspended k ∧ s.error t = rtEok

instance [DecidableEq κ] [DecidableEq τ] (s : Tasks κ τ) (pc : τ → Option κ) (k : κ) (t : τ) :
    Decidable (Granted s pc k t) :=
  inferInstanceAs (Decidable (_ ∧ _ ∧ _))

/-- A caller that is ready to run and in no call; an interrupt handler (`none`) always is. -/
def Tasks.Free {α : Type*} (s : Tasks κ τ) (pc : τ → Option α) : Option τ → Prop
  | none => True
  | some t => pc t = none ∧ s.stat t = .ready

instance {α : Type*} (s : Tasks κ τ) (pc : τ → Option α) (c : Option τ) :
    Decidable (s.Free pc c) := by
  cases c <;> unfold Tasks.Free <;> infer_instance

section Granted
variable [DecidableEq τ] {s s' : Tasks κ τ} {pc : τ → Option κ} {t u : τ} {k k' : κ}

omit [DecidableEq τ] in
theorem Granted.ne (hn : pc t = none) (h : Granted s pc k u) : u ≠ t := by
  rintro rfl
  exact absurd (hn.symm.trans h.1) (by simp)

/-- Leaving a call gives up the grant. -/
theorem granted_leave : Granted s (update pc t none) k u ↔ Granted s pc k u ∧ u ≠ t := by
  by_cases hu : u = t
  · subst hu
    simp [Granted]
  · simp [Granted, hu]

/-- The error number of a thread in no call does not matter. -/
theorem granted_setError (hn : pc t = none) (e : ℤ) :
    Granted (s.setError t e) pc k u ↔ Granted s pc k u := by
  by_cases hu : u = t
  · subst hu
    simp [Granted, hn]
  · simp [Granted, hu]

/-- A time-out grants nothing. -/
theorem granted_expire (w : Waiting s pc) (h : s.expire t = some s') :
    Granted s' pc k u ↔ Granted s pc k u := by
  obtain ⟨hst, hs, -, he, -⟩ := expire_fields h
  rw [Granted, Granted, hs, he]
  by_cases hu : u = t
  · subst hu
    rw [update_self]
    refine ⟨fun h => absurd h.2.2 (by decide), fun h => ?_⟩
    exact absurd (hst.symm.trans (w.woken h.1 h.2.1)) (by decide)
  · rw [update_of_ne hu, mem_without_of_ne hu]

/-- Waking a waiter without an error grants it what it waits for. -/
theorem granted_resume (w : Waiting s pc) (ht : t ∈ s.suspended k) (he : s.error t = rtEok) :
    Granted (s.resume t) pc k' u ↔ Granted s pc k' u ∨ (k' = k ∧ u = t) := by
  obtain ⟨hs, -, he', -⟩ := resume_fields (w.mem ht).2
  rw [Granted, Granted, hs, he']
  by_cases hu : u = t
  · subst hu
    have hpc := (w.mem ht).1
    constructor
    · rintro ⟨hk, -⟩
      exact .inr ⟨Option.some.inj (hk.symm.trans hpc), rfl⟩
    · rintro (⟨hk, hn, -⟩ | ⟨rfl, -⟩)
      · obtain rfl := Option.some.inj (hk.symm.trans hpc)
        exact absurd ht hn
      · exact ⟨hpc, not_mem_without (w.nodup k'), he⟩
  · simp [mem_without_of_ne hu, hu]

/-- Going to sleep grants nothing. -/
theorem granted_block [DecidableEq κ] {l : List τ} (hn : pc t = none)
    (hs : s'.suspended = update s.suspended k l) (hl : l.Perm (t :: s.suspended k))
    (he : ∀ v, v ≠ t → s'.error v = s.error v) :
    Granted s' (update pc t (some k)) k' u ↔ Granted s pc k' u := by
  rw [Granted, Granted, hs]
  by_cases hu : u = t
  · subst hu
    simp only [update_self, hn, reduceCtorEq, false_and, iff_false, not_and]
    intro hk hm
    obtain rfl := Option.some.inj hk
    exact absurd (by simp [hl.mem_iff]) hm
  · rw [update_of_ne hu, he u hu]
    by_cases hk : k' = k
    · subst hk
      simp [hl.mem_iff, hu]
    · rw [update_of_ne hk]

end Granted

end EasyCore.Ipc
