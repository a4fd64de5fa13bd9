import Mathlib

/-! Two ways to walk over a structure that the body of the loop may change. One loop reads the first
    node anew in each round; the other goes on to the node that was the next one before the body was
    run. They do the same as long as the body keeps that node. -/

namespace EasyCore.Cursor
open Relation

variable {σ ν α : Type*}

/-- What the body does at a node: it ends the loop, or it gives an output and the state that it
    leaves, if it leaves one. -/
abbrev Body (σ ν α : Type*) := ν → σ → Option (α × Option σ)

/-- An output tells the node. -/
def Tells (body : Body σ ν α) : Prop :=
  ∀ m m' s a r r', body m s = some (a, r) → body m' s = some (a, r') → m = m'

/-- The outputs of the first rounds of the loop that reads the first node anew. -/
def reread (body : Body σ ν α) (first : σ → ν) : ℕ → σ → List α
  | 0, _ => []
  | n + 1, s => match body (first s) s with
    | none => []
    | some (a, none) => [a]
    | some (a, some s') => a :: reread body first n s'

/-- The outputs of the first rounds of the loop that keeps the next node. -/
def keep (body : Body σ ν α) (next : σ → ν → ν) : ℕ → ν → σ → List α
  | 0, _, _ => []
  | n + 1, m, s => match body m s with
    | none => []
    | some (a, none) => [a]
    | some (a, some s') => a :: keep body next n (next s m) s'

/-- The nodes that the second loop comes to are `ok` when it does. -/
def Visits (body : Body σ ν α) (next : σ → ν → ν) (ok : σ → ν → Prop) : ℕ → ν → σ → Prop
  | 0, _, _ => True
  | n + 1, m, s => ok s m ∧
      ∀ a s', body m s = some (a, some s') → Visits body next ok n (next s m) s'

/-- A round of the first loop after which it goes on. -/
def Round (body : Body σ ν α) (first : σ → ν) (s s' : σ) : Prop :=
  ∃ a, body (first s) s = some (a, some s')

/-- After a round the node that was the next one is the first, or both end the loop. -/
def Keeps (body : Body σ ν α) (first : σ → ν) (next : σ → ν → ν) (ok : σ → ν → Prop) (s s' : σ) :
    Prop :=
  next s (first s) = first s' ∨
    ok s' (next s (first s)) ∧ body (next s (first s)) s' = none ∧ body (first s') s' = none

variable {body : Body σ ν α} {first : σ → ν} {next : σ → ν → ν} {ok : σ → ν → Prop} {s s' : σ}
  {m : ν} {n : ℕ} {a : α} {r : Option σ}

theorem reread_none (h : body (first s) s = none) : ∀ n, reread body first n s = []
  | 0 => rfl
  | n + 1 => by rw [reread, h]

theorem keep_none (h : body m s = none) : ∀ n, keep body next n m s = []
  | 0 => rfl
  | n + 1 => by rw [keep, h]

theorem visits_none (hok : ok s m) (h : body m s = none) : ∀ n, Visits body next ok n m s
  | 0 => trivial
  | n + 1 => ⟨hok, fun a s' h' => absurd (h.symm.trans h') (by simp)⟩

/-- The first output tells what the body does. -/
theorem reread_one (h : body (first s) s = some (a, r)) : reread body first 1 s = [a] := by
  rw [reread, h]
  cases r <;> rfl

theorem keep_one (h : body m s = some (a, r)) : keep body next 1 m s = [a] := by
  rw [keep, h]
  cases r <;> rfl

/-- What is kept in every round makes the loops do the same. -/
theorem same_of_keeps (hok : ∀ s, ok s (first s)) : ∀ (n : ℕ) (s : σ),
    (∀ s₁ s₂, ReflTransGen (Round body first) s s₁ → Round body first s₁ s₂ →
      Keeps body first next ok s₁ s₂) →
    keep body next n (first s) s = reread body first n s ∧ Visits body next ok n (first s) s
  | 0, _, _ => ⟨rfl, trivial⟩
  | n + 1, s, h => by
    cases hb : body (first s) s with
    | none =>
      rw [keep_none hb, reread_none hb]
      exact ⟨rfl, visits_none (hok s) hb _⟩
    | some o =>
      obtain ⟨a, r⟩ := o
      cases r with
      | none =>
        rw [keep, reread, hb]
        exact ⟨rfl, hok s, fun b s' h' => absurd (hb.symm.trans h') (by simp)⟩
      | some s' =>
        have hround : Round body first s s' := ⟨a, hb⟩
        have hrest : keep body next n (next s (first s)) s' = reread body first n s' ∧
            Visits body next ok n (next s (first s)) s' := by
          rcases h s s' .refl hround with he | ⟨hok', hnext, hfirst⟩
          · rw [he]
            exact same_of_keeps hok n s' fun s₁ s₂ h₁ => h s₁ s₂ (.head hround h₁)
          · rw [keep_none hnext, reread_none hfirst]
            exact ⟨rfl, visits_none hok' hnext n⟩
        rw [keep, reread, hb]
        refine ⟨congrArg (a :: ·) hrest.1, hok s, fun b s'' h' => ?_⟩
        obtain ⟨-, he⟩ := Prod.mk.inj (Option.some.inj (hb.symm.trans h'))
        rw [← Option.some.inj he]
        exact hrest.2

/-- Loops that do the same have kept the node in the first round, and go on to do the same. -/
theorem keeps_of_same (hbody : Tells body)
    (hsame : ∀ n, keep body next n (first s) s = reread body first n s)
    (hvisits : ∀ n, Visits body next ok n (first s) s) (h : Round body first s s') :
    Keeps body first next ok s s' ∧ (body (first s') s' = none ∨
      (∀ n, keep body next n (first s') s' = reread body first n s') ∧
        ∀ n, Visits body next ok n (first s') s') := by
  obtain ⟨a, hb⟩ := h
  have hsame' : ∀ n, keep body next n (next s (first s)) s' = reread body first n s' := by
    intro n
    have := hsame (n + 1)
    rw [keep, reread, hb] at this
    exact (List.cons.inj this).2
  have hvisits' : ∀ n, Visits body next ok n (next s (first s)) s' := fun n =>
    (hvisits (n + 1)).2 a s' hb
  by_cases he : next s (first s) = first s'
  · rw [he] at hsame' hvisits'
    exact ⟨.inl he, .inr ⟨hsame', hvisits'⟩⟩
  · have hone := hsame' 1
    cases hnext : body (next s (first s)) s' with
    | none =>
      cases hfirst : body (first s') s' with
      | none => exact ⟨.inr ⟨(hvisits' 1).1, hnext, hfirst⟩, .inl rfl⟩
      | some o =>
        rw [keep_none hnext, reread_one hfirst] at hone
        exact absurd hone (by simp)
    | some o =>
      rw [keep_one hnext] at hone
      cases hfirst : body (first s') s' with
      | none =>
        rw [reread_none hfirst] at hone
        exact absurd hone (by simp)
      | some o' =>
        rw [reread_one hfirst] at hone
        have ho : o.1 = o'.1 := (List.cons.inj hone).1
        refine absurd (hbody _ _ s' o'.1 o.2 o'.2 ?_ hfirst) he
        rw [hnext, ← ho]

/-- The loops do the same exactly when every round of the first keeps the next node. -/
theorem same_iff_keeps (hbody : Tells body) (hok : ∀ s, ok s (first s)) (s : σ) :
    ((∀ n, keep body next n (first s) s = reread body first n s) ∧
      ∀ n, Visits body next ok n (first s) s) ↔
    ∀ s₁ s₂, ReflTransGen (Round body first) s s₁ → Round body first s₁ s₂ →
      Keeps body first next ok s₁ s₂ := by
  constructor
  · rintro ⟨hsame, hvisits⟩ s₁ s₂ hpath hround
    have hinv : body (first s₁) s₁ = none ∨
        (∀ n, keep body next n (first s₁) s₁ = reread body first n s₁) ∧
          ∀ n, Visits body next ok n (first s₁) s₁ := by
      clear hround
      induction hpath with
      | refl => exact .inr ⟨hsame, hvisits⟩
      | tail _ hr ih =>
        rcases ih with hnone | ⟨h₁, h₂⟩
        · obtain ⟨a, ha⟩ := hr
          exact absurd (hnone.symm.trans ha) (by simp)
        · exact (keeps_of_same hbody h₁ h₂ hr).2
    rcases hinv with hnone | ⟨h₁, h₂⟩
    · obtain ⟨a, ha⟩ := hround
      exact absurd (hnone.symm.trans ha) (by simp)
    · exact (keeps_of_same hbody h₁ h₂ hround).1
  · intro h
    exact ⟨fun n => (same_of_keeps hok n s h).1, fun n => (same_of_keeps hok n s h).2⟩

end EasyCore.Cursor
