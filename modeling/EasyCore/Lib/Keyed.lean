import Mathlib

/-! Lists ordered by a key, no two elements with the same one. Taking an element out keeps the
    order, and so does putting one in in front of the first larger key. Giving one element another
    key keeps it exactly if the element passes no other. -/

namespace EasyCore.Keyed
open Function

variable {α β : Type*} [LinearOrder β] {key key' : α → β} {l l' : List α} {t u : α} {x : β}

/-- The keys rise along the list. -/
def Ordered (key : α → β) (l : List α) : Prop := l.Pairwise fun a b => key a < key b

/-- The two keys order `a` and `b` alike. -/
def Agree (key key' : α → β) (a b : α) : Prop :=
  (key a < key b ↔ key' a < key' b) ∧ (key b < key a ↔ key' b < key' a)

instance : Std.Symm (Agree key key') := ⟨fun _ _ h => ⟨h.2, h.1⟩⟩

namespace Ordered

/-- Two keys that order a list in the same way agree on its elements. -/
theorem agree (h : Ordered key l) (h' : Ordered key' l) (ht : t ∈ l) (hu : u ∈ l) (hne : u ≠ t) :
    Agree key key' u t := by
  have hall : l.Pairwise (Agree key key') :=
    (h.and h').imp fun ⟨hab, hab'⟩ => ⟨iff_of_true hab hab', iff_of_false hab.not_gt hab'.not_gt⟩
  exact hall.forall hu ht hne

theorem nil : Ordered key [] := List.Pairwise.nil

theorem sublist (h : Ordered key l) (hs : l'.Sublist l) : Ordered key l' := List.Pairwise.sublist hs h

theorem congr (h : Ordered key l) (hk : ∀ u ∈ l, key' u = key u) : Ordered key' l := by
  refine h.imp_of_mem fun {a b} ha hb hab => ?_
  rw [hk a ha, hk b hb]
  exact hab

/-- The head has the least key. -/
theorem head_le (h : Ordered key (t :: l)) (hu : u ∈ t :: l) : key t ≤ key u := by
  rcases List.mem_cons.1 hu with rfl | hu
  · exact le_rfl
  · exact ((List.pairwise_cons.1 h).1 u hu).le

/-- An element with a key of its own is put in in front of the first larger one. -/
theorem insert (hne : ∀ u ∈ l, key u ≠ key t) (h : Ordered key l) :
    Ordered key (l.orderedInsert (fun a b => key a < key b) t) := by
  induction l with
  | nil => exact List.pairwise_singleton _ t
  | cons v l ih =>
    obtain ⟨hv, hl⟩ := List.pairwise_cons.1 h
    rw [List.orderedInsert_cons]
    split
    next hlt =>
      refine List.pairwise_cons.2 ⟨fun u hu => ?_, h⟩
      exact hlt.trans_le (h.head_le hu)
    next hge =>
      have hlt : key v < key t := lt_of_le_of_ne (not_lt.1 hge) (hne v List.mem_cons_self)
      refine List.pairwise_cons.2 ⟨fun u hu => ?_, ih (fun u hu => hne u (List.mem_cons_of_mem v hu)) hl⟩
      rcases (List.mem_orderedInsert _).1 hu with rfl | hu
      · exact hlt
      · exact hv u hu

/-- Another key for `t` keeps the order iff every other element stays on its side of `t`. -/
theorem update_iff [DecidableEq α] (h : Ordered key l) (ht : t ∈ l)
    (hx : ∀ u ∈ l, u ≠ t → key u ≠ x) :
    Ordered (update key t x) l ↔ ∀ u ∈ l, u ≠ t → (key u < key t ↔ key u < x) := by
  constructor
  · intro h' u hu hne
    have hut := (h.agree h' ht hu hne).1
    rwa [update_of_ne hne, update_self] at hut
  · intro hside
    refine h.imp_of_mem fun {a b} ha hb hab => ?_
    by_cases hat : a = t
    · subst hat
      have hba : b ≠ a := fun e => hab.ne (by rw [e])
      rw [update_self, update_of_ne hba]
      have hnot : ¬key b < x := fun hlt => hab.not_gt ((hside b hb hba).2 hlt)
      exact lt_of_le_of_ne (not_lt.1 hnot) (hx b hb hba).symm
    · rw [update_of_ne hat]
      by_cases hbt : b = t
      · subst hbt
        rw [update_self]
        exact (hside a ha hat).1 hab
      · rwa [update_of_ne hbt]

end Ordered

end EasyCore.Keyed
