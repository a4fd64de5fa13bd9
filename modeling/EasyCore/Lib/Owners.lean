import Mathlib

/-! Resources and who has them. `Owned own used` says that a resource has one owner at most, and is
    in use if and only if it has one. Taking a free resource, giving one up and passing one on keep
    it. -/

namespace EasyCore.Owners

variable {ρ κ : Type*} {own own' : ρ → κ → Prop} {used used' : ρ → Prop} {p : ρ} {a : κ}

/-- Each resource in use has exactly one owner, the others have none. -/
structure Owned (own : ρ → κ → Prop) (used : ρ → Prop) : Prop where
  unique : ∀ {r a b}, own r a → own r b → a = b
  used_iff : ∀ r, used r ↔ ∃ a, own r a

namespace Owned

theorem none (hown : ∀ r a, ¬own r a) (hused : ∀ r, ¬used r) : Owned own used :=
  ⟨fun ha => absurd ha (hown _ _), fun r => by simp [hused, hown]⟩

/-- The same owners of the same resources. -/
theorem congr (h : Owned own used) (hown : ∀ r a, own' r a ↔ own r a)
    (hused : ∀ r, used' r ↔ used r) : Owned own' used' := by
  refine ⟨fun ha hb => h.unique ((hown _ _).1 ha) ((hown _ _).1 hb), fun r => ?_⟩
  simp only [hused, hown, h.used_iff]

/-- A free resource is taken. -/
theorem take (h : Owned own used) (hp : ¬used p) (hown : ∀ r b, own' r b ↔ own r b ∨ r = p ∧ b = a)
    (hused : ∀ r, used' r ↔ used r ∨ r = p) : Owned own' used' := by
  have hfree : ∀ b, ¬own p b := fun b hb => hp ((h.used_iff p).2 ⟨b, hb⟩)
  refine ⟨fun hb hc => ?_, fun r => ?_⟩
  · rcases (hown _ _).1 hb with hb | ⟨rfl, rfl⟩ <;> rcases (hown _ _).1 hc with hc | ⟨hr, rfl⟩
    · exact h.unique hb hc
    · exact absurd (hr ▸ hb) (hfree _)
    · exact absurd hc (hfree _)
    · rfl
  · rw [hused, h.used_iff]
    constructor
    · rintro (⟨b, hb⟩ | rfl)
      · exact ⟨b, (hown _ _).2 (.inl hb)⟩
      · exact ⟨a, (hown _ _).2 (.inr ⟨rfl, rfl⟩)⟩
    · rintro ⟨b, hb⟩
      rcases (hown _ _).1 hb with hb | ⟨rfl, -⟩
      · exact .inl ⟨b, hb⟩
      · exact .inr rfl

/-- A resource is given up. -/
theorem drop (h : Owned own used) (hown : ∀ r b, own' r b ↔ own r b ∧ r ≠ p)
    (hused : ∀ r, used' r ↔ used r ∧ r ≠ p) : Owned own' used' := by
  refine ⟨fun hb hc => h.unique ((hown _ _).1 hb).1 ((hown _ _).1 hc).1, fun r => ?_⟩
  simp only [hused, hown, h.used_iff, exists_and_right]

end Owned

end EasyCore.Owners
