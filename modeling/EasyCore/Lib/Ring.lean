import Mathlib

/-! A bounded queue in an array: the `n` entries from the index `out` on, around the end of the
    array, with `inn` the index of the next free one. -/

namespace EasyCore.Ring
open Function

variable {α : Type*}

/-- The next index. -/
def next (size i : ℕ) : ℕ := if i + 1 ≥ size then 0 else i + 1

/-- The entries in their order. -/
def items (slots : ℕ → α) (size out n : ℕ) : List α :=
  (List.range n).map fun i => slots ((out + i) % size)

/-- The indices are in their range and belong together; an array without slots holds nothing. -/
structure Ok (size inn out n : ℕ) : Prop where
  le : n ≤ size
  first : out < size ∨ size = 0 ∧ out = 0
  free : inn = (out + n) % size

variable {slots slots' : ℕ → α} {size inn out n m : ℕ}

@[simp] theorem length_items : (items slots size out n).length = n := by simp [items]

/-- The first entries, and those behind them. -/
theorem items_add (slots : ℕ → α) (size out n m : ℕ) : items slots size out (n + m)
    = items slots size out n ++ items slots size ((out + n) % size) m := by
  simp only [items, List.range_add, List.map_append, List.map_map]
  refine congrArg (_ ++ ·) (List.map_congr_left fun i _ => ?_)
  rw [comp_apply, Nat.mod_add_mod, Nat.add_assoc]

/-- Entries that do not go around the end. -/
theorem items_straight (h : out + n ≤ size) :
    items slots size out n = (List.range n).map fun i => slots (out + i) := by
  refine List.map_congr_left fun i hi => ?_
  have hi := List.mem_range.1 hi
  rw [Nat.mod_eq_of_lt (by omega)]

theorem items_congr (h : ∀ i < n, slots' ((out + i) % size) = slots ((out + i) % size)) :
    items slots' size out n = items slots size out n :=
  List.map_congr_left fun i hi => h i (List.mem_range.1 hi)

theorem next_eq {i : ℕ} (hi : i < size) : next size i = (i + 1) % size := by
  unfold next
  split
  · rw [show i + 1 = size by omega, Nat.mod_self]
  · rw [Nat.mod_eq_of_lt (by omega)]

theorem Ok.empty (size : ℕ) : Ok size 0 0 0 := ⟨Nat.zero_le _, by omega, by simp⟩

namespace Ok

theorem inn_lt (h : Ok size inn out n) (hs : 0 < size) : inn < size := by
  rw [h.free]
  exact Nat.mod_lt _ hs

theorem out_lt (h : Ok size inn out n) (hs : 0 < size) : out < size := by
  have := h.first
  omega

/-- The indices meet if the array is empty or full. -/
theorem inn_eq_out_iff (h : Ok size inn out n) (hs : 0 < size) : inn = out ↔ n = 0 ∨ n = size := by
  have hout := h.out_lt hs
  have hle := h.le
  rw [h.free]
  obtain hlt | hge := Nat.lt_or_ge (out + n) size
  · rw [Nat.mod_eq_of_lt hlt]
    omega
  · rw [Nat.mod_eq_sub_mod hge, Nat.mod_eq_of_lt (by omega)]
    omega

/-- Store an entry at the free index. -/
theorem push (h : Ok size inn out n) (hn : n < size) : Ok size (next size inn) out (n + 1) where
  le := hn
  first := h.first
  free := by rw [next_eq (h.inn_lt (by omega)), h.free, Nat.mod_add_mod, Nat.add_assoc]

/-- Take the first entry. -/
theorem pop (h : Ok size inn out (n + 1)) : Ok size inn (next size out) n := by
  have hs : 0 < size := by
    have := h.le
    omega
  refine ⟨by have := h.le; omega, .inl ?_, ?_⟩
  · rw [next_eq (h.out_lt hs)]
    exact Nat.mod_lt _ hs
  · rw [next_eq (h.out_lt hs), Nat.mod_add_mod, h.free, Nat.add_right_comm, Nat.add_assoc]

theorem items_push (h : Ok size inn out n) (hn : n < size) (x : α) :
    items (update slots inn x) size out (n + 1) = items slots size out n ++ [x] := by
  rw [items, List.range_succ, List.map_append, List.map_singleton, ← h.free, update_self]
  refine congrArg (· ++ [x]) (List.map_congr_left fun i hi => ?_)
  rw [update_of_ne]
  -- fewer than `size` entries lie at different indices
  rw [h.free]
  intro he
  have hi := List.mem_range.1 hi
  have := Nat.ModEq.add_left_cancel' out (show out + i ≡ out + n [MOD size] from he)
  rw [Nat.ModEq, Nat.mod_eq_of_lt (by omega), Nat.mod_eq_of_lt hn] at this
  omega

theorem items_pop (h : Ok size inn out (n + 1)) :
    items slots size out (n + 1) = slots out :: items slots size (next size out) n := by
  have hs : 0 < size := by
    have := h.le
    omega
  rw [items, List.range_succ_eq_map, List.map_cons, List.map_map, Nat.add_zero,
    Nat.mod_eq_of_lt (h.out_lt hs), items, next_eq (h.out_lt hs)]
  refine congrArg (slots out :: ·) (List.map_congr_left fun i _ => ?_)
  rw [comp_apply, Nat.mod_add_mod, Nat.succ_eq_add_one, Nat.add_right_comm, Nat.add_assoc]

end Ok

end EasyCore.Ring
