import Mathlib

/-! Bounded queues as a specification. Every queue has a name and a capacity; what a client sees of
    it is a list of events, and `run` says which lists of events are those of bounded queues and
    what is left in the queues. `Lib.Ring` has the usual way to store one. -/

namespace EasyCore.Fifo
open Function

variable {κ α : Type*} [DecidableEq κ]

/-- What a client sees. -/
inductive Ev (κ α : Type*)
  | put (k : κ) (x : α)
  | putFront (k : κ) (x : α)
  | get (k : κ) (x : α)
  | clear (k : κ)

/-- The queues after an event: there are none if the event cannot happen. -/
def step [DecidableEq α] (cap : κ → ℕ) (q : κ → List α) : Ev κ α → Option (κ → List α)
  | .put k x => if (q k).length < cap k then some (update q k (q k ++ [x])) else none
  | .putFront k x => if (q k).length < cap k then some (update q k (x :: q k)) else none
  | .get k x => if (q k).head? = some x then some (update q k (q k).tail) else none
  | .clear k => some (update q k [])

/-- The queues after a list of events. -/
def run [DecidableEq α] (cap : κ → ℕ) (q : κ → List α) (es : List (Ev κ α)) :
    Option (κ → List α) :=
  es.foldlM (step cap) q

/-- What has been put into a queue and what has been got from it, since it was last cleared. -/
def history (k : κ) (es : List (Ev κ α)) : List α × List α :=
  es.foldl (fun h e => match e with
    | .put k' x => if k' = k then (h.1 ++ [x], h.2) else h
    | .putFront _ _ => h
    | .get k' x => if k' = k then (h.1, h.2 ++ [x]) else h
    | .clear k' => if k' = k then ([], []) else h) ([], [])

/-- Not a put at the front. -/
def Ev.InOrder : Ev κ α → Prop
  | .putFront _ _ => False
  | _ => True

variable {cap : κ → ℕ} {q q' : κ → List α} {e : Ev κ α} {es : List (Ev κ α)} {k : κ}

section Run
variable [DecidableEq α]

@[simp] theorem run_nil : run cap q [] = some q := rfl

theorem run_concat : run cap q (es ++ [e]) = (run cap q es).bind fun q => step cap q e := by
  simp [run, List.foldlM_append]

/-- One more event. -/
theorem run_step {q₀ : κ → List α} (h : run cap q₀ es = some q) (hs : step cap q e = some q') :
    run cap q₀ (es ++ [e]) = some q' := by
  rw [run_concat, h]
  exact hs

theorem step_put {x : α} (h : (q k).length < cap k) :
    step cap q (.put k x) = some (update q k (q k ++ [x])) := if_pos h

theorem step_putFront {x : α} (h : (q k).length < cap k) :
    step cap q (.putFront k x) = some (update q k (x :: q k)) := if_pos h

theorem step_get {x : α} {l : List α} (h : q k = x :: l) :
    step cap q (.get k x) = some (update q k l) := by
  simp [step, h]

/-- First in, first out: since a queue was last cleared, what was put into it is what was got from
    it, followed by what is still in it. -/
theorem history_eq (ho : ∀ e ∈ es, e.InOrder) (h : run cap (fun _ => []) es = some q) (k : κ) :
    (history k es).1 = (history k es).2 ++ q k := by
  induction es using List.reverseRecOn generalizing q with
  | nil =>
    obtain rfl := Option.some.inj h
    rfl
  | append_singleton es e ih =>
    rw [run_concat] at h
    obtain ⟨p, hp, hs⟩ := Option.bind_eq_some_iff.1 h
    have hi := ih (fun e he => ho e (List.mem_append_left _ he)) hp
    rw [history, List.foldl_append, ← history]
    cases e with
    | put k' x =>
      obtain ⟨-, hs⟩ := Option.ite_none_right_eq_some.1 hs
      obtain rfl := Option.some.inj hs
      by_cases hk : k' = k
      · subst hk
        simp [hi]
      · simp [hk, Ne.symm hk, hi]
    | putFront k' x => exact absurd (ho (.putFront k' x) (by simp)) id
    | get k' x =>
      obtain ⟨hx, hs⟩ := Option.ite_none_right_eq_some.1 hs
      obtain rfl := Option.some.inj hs
      by_cases hk : k' = k
      · subst hk
        obtain ⟨l, hl⟩ := List.head?_eq_some_iff.1 hx
        simp [hi, hl]
      · simp [hk, Ne.symm hk, hi]
    | clear k' =>
      obtain rfl := Option.some.inj hs
      by_cases hk : k' = k
      · simp [hk]
      · simp [hk, Ne.symm hk, hi]

end Run

end EasyCore.Fifo
