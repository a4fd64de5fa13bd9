import Mathlib

/-! Singly linked lists that end in a null pointer: `Chained next p l` says that following `next`
    from `p` visits the nodes `l` and then ends. -/

namespace EasyCore.Chain
open Function

variable {α : Type*}

/-- The nodes from the pointer `p` on. -/
def Chained (next : α → Option α) : Option α → List α → Prop
  | p, [] => p = none
  | p, i :: l => p = some i ∧ Chained next (next i) l

variable {next next' : α → Option α} {p : Option α} {i : α} {l : List α}

@[simp] theorem chained_nil : Chained next p [] ↔ p = none := Iff.rfl

@[simp] theorem chained_cons : Chained next p (i :: l) ↔ p = some i ∧ Chained next (next i) l :=
  Iff.rfl

namespace Chained

theorem head (h : Chained next p l) : p = l.head? := by
  cases l with
  | nil => exact h
  | cons i l => exact h.1

theorem eq_nil (h : Chained next none l) : l = [] := by
  cases l with
  | nil => rfl
  | cons i l => exact absurd h.1 (by simp)

/-- A pointer to `i`: the list starts with `i`. -/
theorem eq_cons (h : Chained next (some i) l) : ∃ l', l = i :: l' ∧ Chained next (next i) l' := by
  cases l with
  | nil => exact absurd h (by simp)
  | cons j l =>
    obtain rfl := Option.some.inj h.1
    exact ⟨l, rfl, h.2⟩

/-- Only the pointers of the nodes on the list matter. -/
theorem congr (h : Chained next p l) (hn : ∀ i ∈ l, next' i = next i) : Chained next' p l := by
  induction l generalizing p with
  | nil => exact h
  | cons i l ih =>
    refine ⟨h.1, ?_⟩
    rw [hn i List.mem_cons_self]
    exact ih h.2 fun j hj => hn j (List.mem_cons_of_mem i hj)

/-- The list from a node on. -/
theorem rest {a b : List α} (h : Chained next p (a ++ b)) : Chained next b.head? b := by
  induction a generalizing p with
  | nil =>
    have h : Chained next p b := h
    rw [← h.head]
    exact h
  | cons i a ih => exact ih h.2

theorem next_eq {a b : List α} (h : Chained next p (a ++ i :: b)) : next i = b.head? :=
  h.rest.2.head

/-- A pointer leads to one list. -/
theorem unique {l' : List α} (h : Chained next p l) (h' : Chained next p l') : l = l' := by
  induction l generalizing p l' with
  | nil =>
    obtain rfl : p = none := h
    exact h'.eq_nil.symm
  | cons i l ih =>
    obtain rfl := h.1
    obtain ⟨l', rfl, hl'⟩ := h'.eq_cons
    rw [ih h.2 hl']

/-- A node put in behind `j`. -/
theorem insert {a b : List α} {j : α} (h : Chained next p (a ++ j :: b))
    (hi : next' i = b.head?) (hj : next' j = some i) (hrest : ∀ x ∈ a ++ b, next' x = next x) :
    Chained next' p (a ++ j :: i :: b) := by
  induction a generalizing p with
  | nil =>
    refine ⟨h.1, hj, ?_⟩
    rw [hi]
    exact (rest (a := [j]) h).congr fun x hx => hrest x hx
  | cons k a ih =>
    refine ⟨h.1, ?_⟩
    rw [hrest k List.mem_cons_self]
    exact ih h.2 fun x hx => hrest x (List.mem_cons_of_mem k hx)

/-- The node behind `j` taken out. -/
theorem skip {a b : List α} {j : α} (h : Chained next p (a ++ j :: i :: b))
    (hj : next' j = next i) (hrest : ∀ x ∈ a ++ b, next' x = next x) :
    Chained next' p (a ++ j :: b) := by
  induction a generalizing p with
  | nil =>
    refine ⟨h.1, ?_⟩
    rw [hj]
    exact h.2.2.congr fun x hx => hrest x hx
  | cons k a ih =>
    refine ⟨h.1, ?_⟩
    rw [hrest k List.mem_cons_self]
    exact ih h.2 fun x hx => hrest x (List.mem_cons_of_mem k hx)

variable [DecidableEq α]

theorem update_of_not_mem (h : Chained next p l) (hi : i ∉ l) (q : Option α) :
    Chained (update next i q) p l :=
  h.congr fun j hj => update_of_ne (fun e : j = i => hi (e ▸ hj)) _ _

/-- A node put in front. -/
theorem push (h : Chained next p l) (hi : i ∉ l) :
    Chained (update next i p) (some i) (i :: l) := by
  refine ⟨rfl, ?_⟩
  rw [update_self]
  exact h.update_of_not_mem hi p

/-- A node whose pointer is null hung on to the last one, `j`. -/
theorem append {j : α} (h : Chained next p (l ++ [j])) (hn : (l ++ [j]).Nodup)
    (hi : i ∉ l ++ [j]) (hnext : next i = none) :
    Chained (update next j (some i)) p (l ++ [j] ++ [i]) := by
  induction l generalizing p with
  | nil =>
    refine ⟨h.1, by rw [update_self], ?_⟩
    have hij : i ≠ j := fun e => hi (by simp [e])
    rw [update_of_ne hij]
    exact hnext
  | cons k l ih =>
    have hkj : k ≠ j := by
      rintro rfl
      simp at hn
    refine ⟨h.1, ?_⟩
    rw [update_of_ne hkj]
    exact ih h.2 (List.nodup_cons.1 hn).2 fun hm => hi (List.mem_cons_of_mem k hm)

end Chained

/-- A node of the list that a pointer leads to. -/
def OnList (next : α → Option α) (p : Option α) (i : α) : Prop := ∃ l, Chained next p l ∧ i ∈ l

theorem Chained.onList_iff (h : Chained next p l) : OnList next p i ↔ i ∈ l := by
  constructor
  · rintro ⟨l', hl', hi⟩
    rwa [h.unique hl']
  · exact fun hi => ⟨l, h, hi⟩

/-- The nodes that a pointer leads to, `fuel` of them at most. -/
def follow (next : α → Option α) : ℕ → Option α → List α
  | 0, _ => []
  | _, none => []
  | fuel + 1, some i => i :: follow next fuel (next i)

theorem Chained.follow_eq {fuel : ℕ} (h : Chained next p l) (hfuel : l.length ≤ fuel) :
    follow next fuel p = l := by
  induction l generalizing p fuel with
  | nil =>
    obtain rfl : p = none := h
    cases fuel <;> rfl
  | cons i l ih =>
    obtain ⟨rfl, h⟩ := h
    obtain _ | fuel := fuel
    · exact absurd hfuel (Nat.not_succ_le_zero _)
    · rw [follow, ih h (Nat.le_of_succ_le_succ hfuel)]

end EasyCore.Chain
