import Mathlib

/-! Skip lists. Each row of a skip list is a sublist of the row below it, and the rows are sorted by
    a key. An insertion finds in each row it reaches the place behind the last item whose key is not
    greater, looking only at the items on both sides of that place. -/

namespace EasyCore.SkipList

variable {α κ : Type*} [LinearOrder κ] {key : α → κ} {a b a' b' : List α} {d : κ} {x : α}

/-- The item in front of the place speaks for all in front of it. -/
theorem all_le (hs : (a ++ b).Pairwise fun x y => key x ≤ key y)
    (ha : ∀ x ∈ a.getLast?, key x ≤ d) : ∀ x ∈ a, key x ≤ d := by
  intro x hx
  rcases List.eq_nil_or_concat' a with rfl | ⟨c, y, rfl⟩
  · exact absurd hx List.not_mem_nil
  · have hy : key y ≤ d := ha y (by simp)
    rcases List.mem_append.1 hx with hx | hx
    · have hc := (List.pairwise_append.1 (List.pairwise_append.1 hs).1).2.2
      exact (hc x hx y (by simp)).trans hy
    · rwa [List.mem_singleton.1 hx]

/-- The item behind the place speaks for all behind it. -/
theorem all_gt (hs : (a ++ b).Pairwise fun x y => key x ≤ key y)
    (hb : ∀ x ∈ b.head?, d < key x) : ∀ x ∈ b, d < key x := by
  intro x hx
  cases b with
  | nil => exact absurd hx List.not_mem_nil
  | cons y b =>
    have hy : d < key y := hb y rfl
    rcases List.mem_cons.1 hx with rfl | hx
    · exact hy
    · exact hy.trans_le ((List.pairwise_cons.1 (List.pairwise_append.1 hs).2.1).1 x hx)

/-- The places found in a row and in the row below it fit. -/
theorem sublist_parts (h : (a ++ b).Sublist (a' ++ b')) (ha : ∀ x ∈ a, key x ≤ d)
    (hb : ∀ x ∈ b, d < key x) (ha' : ∀ x ∈ a', key x ≤ d) (hb' : ∀ x ∈ b', d < key x) :
    a.Sublist a' ∧ b.Sublist b' := by
  have hle : ∀ {l : List α}, (∀ x ∈ l, key x ≤ d) → (l.filter fun x => key x ≤ d) = l ∧
      (l.filter fun x => d < key x) = [] := fun hl =>
    ⟨List.filter_eq_self.2 fun x hx => decide_eq_true (hl x hx),
      List.filter_eq_nil_iff.2 fun x hx => by simpa using hl x hx⟩
  have hgt : ∀ {l : List α}, (∀ x ∈ l, d < key x) → (l.filter fun x => d < key x) = l ∧
      (l.filter fun x => key x ≤ d) = [] := fun hl =>
    ⟨List.filter_eq_self.2 fun x hx => decide_eq_true (hl x hx),
      List.filter_eq_nil_iff.2 fun x hx => by simpa using hl x hx⟩
  constructor
  · have := h.filter fun x => key x ≤ d
    rwa [List.filter_append, List.filter_append, (hle ha).1, (hgt hb).2, (hle ha').1, (hgt hb').2,
      List.append_nil, List.append_nil] at this
  · have := h.filter fun x => d < key x
    rwa [List.filter_append, List.filter_append, (hle ha).2, (hgt hb).1, (hle ha').2, (hgt hb').1,
      List.nil_append, List.nil_append] at this

/-- An item inserted at these places is in both rows, or in the lower one only. -/
theorem sublist_insert (h : a.Sublist a' ∧ b.Sublist b') :
    (a ++ x :: b).Sublist (a' ++ x :: b') ∧ (a ++ b).Sublist (a' ++ x :: b') :=
  ⟨h.1.append (h.2.cons_cons x), h.1.append (h.2.cons x)⟩

/-- A sorted row stays sorted. -/
theorem pairwise_insert {r : α → α → Prop} (hs : (a ++ b).Pairwise r) (ha : ∀ y ∈ a, r y x)
    (hb : ∀ y ∈ b, r x y) : (a ++ x :: b).Pairwise r := by
  obtain ⟨hpa, hpb, hab⟩ := List.pairwise_append.1 hs
  refine List.pairwise_append.2 ⟨hpa, List.pairwise_cons.2 ⟨hb, hpb⟩, fun y hy z hz => ?_⟩
  rcases List.mem_cons.1 hz with rfl | hz
  · exact ha y hy
  · exact hab y hy z hz

end EasyCore.SkipList
