import Mathlib

/-! Stores into a buffer. The stores of a loop are a list, in their order; an index counts from the
    start of the buffer, and the memory goes on at both of its ends.

        index   …  -1 |  0   1   …  n-1 |  n  …
                      |     buffer      |            `Inside n` -/

namespace EasyCore.Stores

variable {β : Type*}

/-- Memory after stores. -/
def after (mem : ℤ → β) (ws : List (ℤ × β)) : ℤ → β :=
  ws.foldl (fun mem w => Function.update mem w.1 w.2) mem

/-- Elements are stored one behind the other, from `p` on. -/
def place : ℤ → List β → List (ℤ × β)
  | _, [] => []
  | p, x :: xs => (p, x) :: place (p + 1) xs

/-- All stores are in the buffer. -/
def Inside (n : ℕ) (ws : List (ℤ × β)) : Prop := ∀ w ∈ ws, 0 ≤ w.1 ∧ w.1 < n

/-- What is in the buffer. -/
def contents (mem : ℤ → β) (n : ℕ) : List β := (List.range n).map fun i : ℕ => mem i

variable {n : ℕ} {p q : ℤ} {xs ys : List β} {ws vs : List (ℤ × β)} {mem : ℤ → β}

/-! ### Where stores go -/

@[simp] theorem inside_nil : Inside n ([] : List (ℤ × β)) := by simp [Inside]

@[simp] theorem inside_append : Inside n (ws ++ vs) ↔ Inside n ws ∧ Inside n vs := by
  simp only [Inside, List.mem_append]
  constructor
  · intro h
    exact ⟨fun w hw => h w (.inl hw), fun w hw => h w (.inr hw)⟩
  · rintro ⟨h, h'⟩ w (hw | hw)
    · exact h w hw
    · exact h' w hw

theorem mem_place {w : ℤ × β} : ∀ {p : ℤ} {xs : List β}, w ∈ place p xs →
    p ≤ w.1 ∧ w.1 < p + xs.length
  | _, [], h => by simp [place] at h
  | p, x :: xs, h => by
    rcases List.mem_cons.1 h with rfl | h
    · simp only [List.length_cons, Nat.cast_add, Nat.cast_one]
      omega
    · have := mem_place h
      simp only [List.length_cons, Nat.cast_add, Nat.cast_one]
      omega

@[simp] theorem place_length : ∀ (p : ℤ) (xs : List β), (place p xs).length = xs.length
  | _, [] => rfl
  | p, _ :: xs => congrArg Nat.succ (place_length (p + 1) xs)

theorem place_append : ∀ (p : ℤ) (xs ys : List β),
    place p (xs ++ ys) = place p xs ++ place (p + xs.length) ys
  | _, [], _ => by simp [place]
  | p, x :: xs, ys => by
    simp only [List.cons_append, place, place_append (p + 1) xs ys, List.length_cons, Nat.cast_add,
      Nat.cast_one]
    rw [show p + 1 + (xs.length : ℤ) = p + (xs.length + 1) by ring]

/-- The first element is in, and so is the last one. -/
theorem inside_place : Inside n (place p xs) ↔ xs = [] ∨ 0 ≤ p ∧ p + xs.length ≤ n := by
  constructor
  · intro h
    rcases List.eq_nil_or_concat xs with rfl | ⟨ys, y, rfl⟩
    · exact .inl rfl
    · rw [List.concat_eq_append] at h ⊢
      rw [place_append, inside_append] at h
      have hlast := h.2 _ (List.mem_singleton.2 rfl)
      refine .inr ⟨?_, ?_⟩
      · cases ys with
        | nil => simpa using hlast.1
        | cons z zs => exact (h.1 _ (List.mem_cons_self ..)).1
      · simp only [List.length_append, List.length_singleton, Nat.cast_add, Nat.cast_one]
        omega
  · rintro (rfl | h) w hw
    · cases hw
    · have := mem_place hw
      omega

theorem place_get : ∀ (p : ℤ) (xs : List β) {j : ℕ} (h : j < xs.length),
    (p + j, xs[j]) ∈ place p xs
  | _, [], _, h => absurd h (by simp)
  | p, x :: xs, 0, _ => by
    rw [Nat.cast_zero, add_zero]
    exact List.mem_cons_self ..
  | p, x :: xs, j + 1, h => by
    rw [List.getElem_cons_succ, Nat.cast_add, Nat.cast_one,
      show p + ((j : ℤ) + 1) = p + 1 + j by ring]
    exact List.mem_cons_of_mem _ (place_get (p + 1) xs _)

/-- Elements do not get into others behind them iff they end before. -/
theorem place_apart (hpq : p ≤ q) (hys : ys ≠ []) :
    (∀ w ∈ place p xs, ∀ v ∈ place q ys, w.1 ≠ v.1) ↔ p + xs.length ≤ q := by
  constructor
  · intro h
    by_contra hlt
    obtain ⟨j, hj⟩ := Int.le.dest hpq
    have hin := place_get p xs (show j < xs.length by omega)
    have hfirst := place_get q ys (List.length_pos_iff.2 hys)
    refine h _ hin _ hfirst ?_
    simpa using hj
  · rintro h w hw v hv
    have := mem_place hw
    have := mem_place hv
    omega

/-! ### What memory holds -/

theorem after_append (mem : ℤ → β) (ws vs : List (ℤ × β)) :
    after mem (ws ++ vs) = after (after mem ws) vs := by simp [after]

/-- Stores elsewhere leave an element as it is. -/
theorem after_of_ne (mem : ℤ → β) : ∀ {ws : List (ℤ × β)}, (∀ w ∈ ws, w.1 ≠ q) →
    after mem ws q = mem q := by
  intro ws
  induction ws using List.reverseRecOn with
  | nil => intro _; rfl
  | append_singleton ws w ih =>
    intro h
    have hw : q ≠ w.1 := (h w (by simp)).symm
    rw [after_append]
    simp only [after, List.foldl_cons, List.foldl_nil, Function.update_of_ne hw]
    exact ih fun v hv => h v (List.mem_append_left _ hv)

theorem after_place_of_lt (mem : ℤ → β) (xs : List β) (h : q < p) :
    after mem (place p xs) q = mem q := by
  refine after_of_ne mem fun w hw => ?_
  have := mem_place hw
  omega

theorem after_cons_place (mem : ℤ → β) (p : ℤ) (x : β) (xs : List β) :
    after mem (place p (x :: xs)) = after (Function.update mem p x) (place (p + 1) xs) := rfl

/-- Elements are stored over one that has just been stored. -/
theorem after_place_idem (mem : ℤ → β) (p : ℤ) (x : β) (h : xs ≠ []) :
    after (after mem (place p [x])) (place p xs) = after mem (place p xs) := by
  obtain ⟨y, ys, rfl⟩ := List.exists_cons_of_ne_nil h
  rw [after_cons_place, after_cons_place, after_cons_place]
  simp only [place, after, List.foldl_nil, Function.update_idem]

theorem after_place_get : ∀ (mem : ℤ → β) (p : ℤ) (xs : List β) {j : ℕ} (h : j < xs.length),
    after mem (place p xs) (p + j) = xs[j]
  | _, _, [], _, h => absurd h (by simp)
  | mem, p, x :: xs, 0, _ => by
    rw [after_cons_place, Nat.cast_zero, add_zero, after_place_of_lt _ _ (by omega)]
    exact Function.update_self ..
  | mem, p, x :: xs, j + 1, h => by
    rw [after_cons_place, List.getElem_cons_succ, Nat.cast_add, Nat.cast_one,
      show p + ((j : ℤ) + 1) = p + 1 + j by ring]
    exact after_place_get _ _ _ _

@[simp] theorem contents_length : (contents mem n).length = n := by simp [contents]

theorem contents_append (mem : ℤ → β) {m n : ℕ} (h : m ≤ n) :
    ∃ rest, contents mem n = contents mem m ++ rest := by
  obtain ⟨r, rfl⟩ := Nat.exists_eq_add_of_le h
  rw [contents, List.range_add, List.map_append]
  exact ⟨_, rfl⟩

/-- The elements stored from the start on are the first ones. -/
theorem contents_after_place (mem : ℤ → β) (xs : List β) :
    contents (after mem (place 0 xs)) xs.length = xs := by
  refine List.ext_getElem (by simp) fun i hi hi' => ?_
  simp only [contents, List.getElem_map, List.getElem_range]
  simpa using after_place_get mem 0 xs hi'

end EasyCore.Stores
