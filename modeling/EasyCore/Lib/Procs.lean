import Mathlib

/-! Procedures on a state that may have no result, as they do not end or go wrong. `Gives` says that
    there is a result, and which; `Ensures` which result there is, if there is one. -/

namespace EasyCore.Procs

variable {σ α β : Type} {m : StateT σ Option α} {f : α → StateT σ Option β} {s : σ}

/-- From `s` there is a result, and it meets `Q`. -/
def Gives (m : StateT σ Option α) (s : σ) (Q : α → σ → Prop) : Prop :=
  ∃ a s', m s = some (a, s') ∧ Q a s'

/-- Whenever `P` holds and there is a result, it meets `Q`. -/
def Ensures (P : σ → Prop) (m : StateT σ Option α) (Q : α → σ → Prop) : Prop :=
  ∀ s a s', P s → m s = some (a, s') → Q a s'

section Gives
variable {Q Q' : α → σ → Prop}

theorem Gives.pure {a : α} (h : Q a s) : Gives (pure a) s Q := ⟨a, s, rfl, h⟩

theorem Gives.mono (h : Gives m s Q) (hQ : ∀ a s', Q a s' → Q' a s') : Gives m s Q' := by
  obtain ⟨a, s', hm, ha⟩ := h
  exact ⟨a, s', hm, hQ a s' ha⟩

theorem bind_some {a : α} {s' : σ} (h : m s = some (a, s')) : (m >>= f) s = f a s' := by
  show (m s).bind (fun r => f r.1 r.2) = _
  rw [h]
  rfl

theorem Gives.bind {R : β → σ → Prop} (h : Gives m s Q)
    (hf : ∀ a s', Q a s' → Gives (f a) s' R) : Gives (m >>= f) s R := by
  obtain ⟨a, s', hm, ha⟩ := h
  obtain ⟨b, s'', hb, hR⟩ := hf a s' ha
  exact ⟨b, s'', (bind_some hm).trans hb, hR⟩

/-- What a result meets, besides. -/
theorem Gives.leaving {P : σ → Prop} (h : Gives m s Q) (hm : Ensures P m Q') :
    Gives m s fun a s' => Q a s' ∧ (P s → Q' a s') := by
  obtain ⟨a, s', hs, ha⟩ := h
  exact ⟨a, s', hs, ha, fun hP => hm s a s' hP hs⟩

end Gives

section Ensures
variable {P : σ → Prop} {Q Q' : α → σ → Prop} {R : β → σ → Prop}

theorem Ensures.pure {a : α} (h : ∀ s, P s → Q a s) : Ensures P (pure a) Q := by
  intro s b s' hP hb
  obtain ⟨rfl, rfl⟩ := Prod.mk.inj (Option.some.inj hb)
  exact h s hP

theorem Ensures.failure : Ensures P (failure : StateT σ Option α) Q := by
  intro s a s' _ h
  cases h

theorem Ensures.mono (h : Ensures P m Q) (hQ : ∀ a s, Q a s → Q' a s) : Ensures P m Q' :=
  fun s a s' hP hm => hQ a s' (h s a s' hP hm)

theorem Ensures.bind (h : Ensures P m Q) (hf : ∀ a, Ensures (Q a) (f a) R) :
    Ensures P (m >>= f) R := by
  intro s b s'' hP hb
  replace hb : (m s).bind (fun r => f r.1 r.2) = some (b, s'') := hb
  obtain ⟨⟨a, s'⟩, ha, hfa⟩ := Option.bind_eq_some_iff.1 hb
  exact hf a s' b s'' (h s a s' hP ha) hfa

end Ensures

end EasyCore.Procs
