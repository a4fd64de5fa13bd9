import Mathlib

/-! A loop that keeps the item with the least key: it starts with a bound and no item, and an item is
    kept if its key is below all keys before. -/

namespace EasyCore

variable {ι κ : Type*} [LinearOrder κ]

/-- After the items of `l`, those with `P` among them, the loop has the key `best` and the item
    `arg`. -/
structure Least (P : ι → Prop) (key : ι → κ) (top : κ) (l : List ι) (best : κ) (arg : Option ι) :
    Prop where
  found : best = top ∨ ∃ i ∈ l, P i ∧ arg = some i ∧ best = key i
  le : ∀ i ∈ l, P i → best ≤ key i
  le_top : best ≤ top

variable {P : ι → Prop} {key : ι → κ} {top best : κ} {l : List ι} {arg : Option ι} {i : ι}

theorem Least.nil : Least P key top [] top none := ⟨.inl rfl, by simp, le_rfl⟩

/-- An item with no smaller key changes nothing. -/
theorem Least.skip (h : Least P key top l best arg) (hi : P i → best ≤ key i) :
    Least P key top (l ++ [i]) best arg where
  found := by
    rcases h.found with htop | ⟨j, hj, hfound⟩
    · exact .inl htop
    · exact .inr ⟨j, List.mem_append_left _ hj, hfound⟩
  le := by
    intro j hj hP
    rcases List.mem_append.1 hj with hj | hj
    · exact h.le j hj hP
    · obtain rfl := List.mem_singleton.1 hj
      exact hi hP
  le_top := h.le_top

/-- An item with a smaller key is kept. -/
theorem Least.keep (h : Least P key top l best arg) (hP : P i) (hlt : key i < best) :
    Least P key top (l ++ [i]) (key i) (some i) where
  found := .inr ⟨i, by simp, hP, rfl, rfl⟩
  le := by
    intro j hj hPj
    rcases List.mem_append.1 hj with hj | hj
    · exact hlt.le.trans (h.le j hj hPj)
    · obtain rfl := List.mem_singleton.1 hj
      exact le_rfl
  le_top := hlt.le.trans h.le_top

/-- Below the bound there is an item, and no other one has a smaller key. -/
theorem Least.exists_least (h : Least P key top l best arg) (hlt : best < top) :
    ∃ i ∈ l, P i ∧ arg = some i ∧ key i < top ∧ ∀ j ∈ l, P j → key i ≤ key j := by
  rcases h.found with rfl | ⟨i, hi, hP, harg, rfl⟩
  · exact absurd hlt (lt_irrefl _)
  · exact ⟨i, hi, hP, harg, hlt, h.le⟩

/-- At the bound no item has a key below it. -/
theorem Least.top_le (h : Least P key top l best arg) (hge : ¬best < top) :
    ∀ i ∈ l, P i → top ≤ key i := by
  intro i hi hP
  exact (not_lt.1 hge).trans (h.le i hi hP)

end EasyCore
