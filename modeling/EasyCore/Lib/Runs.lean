import Mathlib

/-! Runs of a transition system. A system is a set of initial states and a labelled step relation;
    `Reach S ok s` says that some run whose steps all meet `ok` ends in `s`. An invariant is proved
    by `Reach.invariant` from the initial states and one step; a concrete run of an executable step
    is replayed by `Reach.of_replay`. `Along f P s as` says that each step of the run of an executable
    step `f` over `as` meets `P`. -/

namespace EasyCore.Runs

variable {σ α : Type*}

/-- A transition system with states `σ` and actions `α`. -/
structure System (σ α : Type*) where
  init : σ → Prop
  step : σ → α → σ → Prop

/-- The states of runs whose every step meets `ok`. -/
inductive Reach (S : System σ α) (ok : σ → α → Prop) : σ → Prop
  | init {s : σ} : S.init s → Reach S ok s
  | step {s s' : σ} {a : α} : Reach S ok s → ok s a → S.step s a s' → Reach S ok s'

/-- The states of all runs. -/
abbrev Reachable (S : System σ α) : σ → Prop := Reach S fun _ _ => True

variable {S : System σ α} {ok ok' : σ → α → Prop} {I : σ → Prop} {s s' : σ}

/-- What holds initially and is kept by every allowed step holds in every state reached. -/
theorem Reach.invariant (h0 : ∀ s, S.init s → I s)
    (hs : ∀ s a s', I s → ok s a → S.step s a s' → I s') (h : Reach S ok s) : I s := by
  induction h with
  | init hi => exact h0 _ hi
  | step _ hok hst ih => exact hs _ _ _ ih hok hst

/-- Fewer conditions, more runs. -/
theorem Reach.mono (hok : ∀ s a, ok s a → ok' s a) (h : Reach S ok s) : Reach S ok' s := by
  induction h with
  | init hi => exact .init hi
  | step _ ho hst ih => exact .step ih (hok _ _ ho) hst

/-- Run an executable step over a list of actions. -/
def replay (f : σ → α → Option σ) (s : σ) : List α → Option σ
  | [] => some s
  | a :: as => (f s a).bind fun s' => replay f s' as

/-- A replayed run is a run. -/
theorem Reach.of_replay {f : σ → α → Option σ}
    (hf : ∀ s a s', f s a = some s' → ok s a ∧ S.step s a s') :
    ∀ (as : List α) {s s' : σ}, Reach S ok s → replay f s as = some s' → Reach S ok s'
  | [], s, s', h, hr => by
    obtain rfl : s = s' := by simpa [replay] using hr
    exact h
  | a :: as, s, s', h, hr => by
    obtain ⟨t, ht, hr⟩ := Option.bind_eq_some_iff.1 hr
    obtain ⟨hok, hst⟩ := hf _ _ _ ht
    exact Reach.of_replay hf as (.step h hok hst) hr

/-- A run is simulated if each of its steps is. -/
theorem replay_simulates {σ₁ : Type*} {f : σ → α → Option σ} {g : σ₁ → α → Option σ₁}
    {R : σ → σ₁ → Prop} {as : List α} (hstep : ∀ a ∈ as, ∀ s s' r, R s r → f s a = some s' →
      ∃ r', g r a = some r' ∧ R s' r') {s s' : σ} {r : σ₁} (h : R s r) (hs : replay f s as = some s') :
    ∃ r', replay g r as = some r' ∧ R s' r' := by
  induction as generalizing s r with
  | nil =>
    cases hs
    exact ⟨r, rfl, h⟩
  | cons a as ih =>
    obtain ⟨s₁, hs₁, hs⟩ := Option.bind_eq_some_iff.1 hs
    obtain ⟨r₁, hr₁, h₁⟩ := hstep a List.mem_cons_self s s₁ r h hs₁
    obtain ⟨r', hr', h'⟩ := ih (fun b hb => hstep b (List.mem_cons_of_mem a hb)) h₁ hs
    exact ⟨r', Option.bind_eq_some_iff.2 ⟨r₁, hr₁, hr'⟩, h'⟩

/-! ### Runs of an executable step -/

section Along
variable {f : σ → α → σ} {P Q : σ → α → Prop}

/-- Every step of the run meets `P`. -/
def Along (f : σ → α → σ) (P : σ → α → Prop) (s : σ) : List α → Prop
  | [] => True
  | a :: as => P s a ∧ Along f P (f s a) as

instance Along.decidable [∀ s a, Decidable (P s a)] :
    ∀ (s : σ) (as : List α), Decidable (Along f P s as)
  | _, [] => inferInstanceAs (Decidable True)
  | s, a :: as =>
    haveI := Along.decidable (f s a) as
    inferInstanceAs (Decidable (P s a ∧ Along f P (f s a) as))

theorem along_append {s : σ} {as bs : List α} :
    Along f P s (as ++ bs) ↔ Along f P s as ∧ Along f P (as.foldl f s) bs := by
  induction as generalizing s with
  | nil => simp [Along]
  | cons a as ih => simp [Along, ih, and_assoc]

/-- What is kept by every step that meets `P` holds at the end of the run. -/
theorem Along.invariant (hkeep : ∀ s a, I s → P s a → I (f s a)) :
    ∀ (as : List α) {s : σ}, I s → Along f P s as → I (as.foldl f s)
  | [], _, hs, _ => hs
  | _ :: as, _, hs, ⟨ha, has⟩ => Along.invariant hkeep as (hkeep _ _ hs ha) has

/-- What every step does from a state with the invariant, and keeps it. -/
theorem Along.always (hstep : ∀ s a, I s → P s a ∧ I (f s a)) :
    ∀ (as : List α) {s : σ}, I s → Along f P s as
  | [], _, _ => trivial
  | a :: as, s, hs => ⟨(hstep s a hs).1, Along.always hstep as (hstep s a hs).2⟩

/-- Steps that meet `Q` meet `P`, in a run that keeps the invariant. -/
theorem Along.imp (himp : ∀ s a, I s → Q s a → P s a) (hkeep : ∀ s a, I s → Q s a → I (f s a)) :
    ∀ (as : List α) {s : σ}, I s → Along f Q s as → Along f P s as
  | [], _, _, _ => trivial
  | _ :: as, _, hs, ⟨ha, has⟩ =>
    ⟨himp _ _ hs ha, Along.imp himp hkeep as (hkeep _ _ hs ha) has⟩

/-- Two conditions that agree on each step, while it keeps the invariant, agree on runs. -/
theorem Along.iff (hiff : ∀ s a, I s → (P s a ↔ Q s a)) (hkeep : ∀ s a, I s → Q s a → I (f s a)) :
    ∀ (as : List α) {s : σ}, I s → (Along f P s as ↔ Along f Q s as)
  | [], _, _ => Iff.rfl
  | a :: as, s, hs => by
    constructor
    · rintro ⟨ha, has⟩
      have hq : Q s a := (hiff s a hs).1 ha
      exact ⟨hq, (Along.iff hiff hkeep as (hkeep s a hs hq)).1 has⟩
    · rintro ⟨hq, has⟩
      exact ⟨(hiff s a hs).2 hq, (Along.iff hiff hkeep as (hkeep s a hs hq)).2 has⟩

end Along

end EasyCore.Runs
