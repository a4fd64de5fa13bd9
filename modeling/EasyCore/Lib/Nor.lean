import Mathlib

/-! Memory that is erased in blocks, and whose cells a program command can only clear.

        erase    cell := erased
        program  cell := cell &&& data
        put      cell := data            what a writer has in mind -/

namespace EasyCore.Nor

/-- The cells of such a memory: one that is erased takes any data. -/
class Cell (β : Type*) extends AndOp β where
  erased : β
  erased_and : ∀ b : β, erased &&& b = b

instance : Cell UInt8 where
  erased := 0xFF
  erased_and _ := UInt8.toBitVec_inj.1 BitVec.allOnes_and

variable {β : Type*} [Cell β] {m buf : ℕ → β} {a n off : ℕ} {data more : List β}

def erase (m : ℕ → β) (a n : ℕ) : ℕ → β := fun x =>
  if a ≤ x ∧ x < a + n then Cell.erased else m x

/-- Every cell from `a` on takes its part of the data. -/
def update (take : β → β → β) (m : ℕ → β) (a : ℕ) (data : List β) : ℕ → β := fun x =>
  if a ≤ x ∧ x < a + data.length then take (m x) (data.getD (x - a) Cell.erased) else m x

def program (m : ℕ → β) (a : ℕ) (data : List β) : ℕ → β := update (fun old b => old &&& b) m a data

def put (m : ℕ → β) (a : ℕ) (data : List β) : ℕ → β := update (fun _ b => b) m a data

/-! ### One piece behind the other -/

theorem update_nil (take : β → β → β) : update take m a [] = m := by
  funext x
  rw [update, if_neg (by simp)]

theorem update_append (take : β → β → β) :
    update take (update take m a data) (a + data.length) more = update take m a (data ++ more) := by
  funext x
  simp only [update, List.length_append]
  obtain hx | hx | hx : (a ≤ x ∧ x < a + data.length) ∨
      (a + data.length ≤ x ∧ x < a + data.length + more.length) ∨
      ¬ (a ≤ x ∧ x < a + (data.length + more.length)) := by omega
  · rw [if_neg (by omega), if_pos hx, if_pos (by omega), List.getD_append _ _ _ _ (by omega)]
  · rw [if_pos hx, if_neg (by omega), if_pos (by omega),
      List.getD_append_right _ _ _ _ (by omega), Nat.sub_sub]
  · rw [if_neg (by omega), if_neg (by omega), if_neg hx]

theorem program_append :
    program (program m a data) (a + data.length) more = program m a (data ++ more) :=
  update_append _

theorem put_nil : put m a [] = m := update_nil _

theorem put_append : put (put m a data) (a + data.length) more = put m a (data ++ more) :=
  update_append _

/-! ### Programming what is erased -/

theorem program_blank (h : ∀ x, a ≤ x → x < a + data.length → m x = Cell.erased) :
    program m a data = put m a data := by
  funext x
  simp only [program, put, update]
  split
  · next hx => rw [h x hx.1 hx.2, Cell.erased_and]
  · rfl

theorem program_erase (h : data.length = n) : program (erase m a n) a data = put m a data := by
  have hblank : program (erase m a n) a data = put (erase m a n) a data :=
    program_blank fun x hx hlt => if_pos ⟨hx, by omega⟩
  rw [hblank]
  funext x
  simp only [put, update, erase]
  split
  · rfl
  · rw [if_neg (by omega)]

/-! ### What is there afterwards -/

theorem put_outside {x : ℕ} (h : x < a ∨ a + data.length ≤ x) : put m a data x = m x := by
  rw [put, update, if_neg (by omega)]

theorem put_inside {i : ℕ} (h : i < data.length) : put m a data (a + i) = data[i] := by
  rw [put, update, if_pos (by omega), Nat.add_sub_cancel_left, List.getD_eq_getElem _ _ h]

/-- A block is read, changed and written back. -/
theorem put_window (hread : ∀ i, i < n → buf i = m (a + i)) (hfits : off + data.length ≤ n) :
    put m a ((List.range n).map (put buf off data)) = put m (a + off) data := by
  have hlen : ((List.range n).map (put buf off data)).length = n := by simp
  funext x
  rcases Nat.lt_or_ge x a with hx | hx
  · rw [put_outside (.inl hx), put_outside (.inl (by omega))]
  obtain ⟨i, rfl⟩ := Nat.exists_eq_add_of_le hx
  rcases Nat.lt_or_ge i n with hi | hi
  · rw [put_inside (by omega), List.getElem_map, List.getElem_range]
    obtain hin | hout : (off ≤ i ∧ i < off + data.length) ∨ (i < off ∨ off + data.length ≤ i) := by
      omega
    · obtain ⟨k, rfl⟩ := Nat.exists_eq_add_of_le hin.1
      rw [put_inside (by omega), ← Nat.add_assoc, put_inside (by omega)]
    · rw [put_outside hout, hread i hi, put_outside (by omega)]
  · rw [put_outside (.inr (by omega)), put_outside (.inr (by omega))]

end EasyCore.Nor
