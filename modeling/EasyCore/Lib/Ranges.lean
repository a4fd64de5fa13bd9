import Mathlib

/-! Ranges of numbers, each with its beginning and its length. `Tiles n rs` says that the ranges `rs`
    tile the numbers below `n`. Cutting a range in two, and joining two, keep it. -/

namespace EasyCore.Ranges

/-- Two ranges have no number in common. -/
def Apart (r q : ℕ × ℕ) : Prop := r.1 + r.2 ≤ q.1 ∨ q.1 + q.2 ≤ r.1

/-- The ranges lie below `n`, none is empty, no two overlap, and they are `n` numbers long. -/
structure Tiles (n : ℕ) (rs : List (ℕ × ℕ)) : Prop where
  inside : ∀ r ∈ rs, 0 < r.2 ∧ r.1 + r.2 ≤ n
  apart : rs.Pairwise Apart
  total : (rs.map Prod.snd).sum = n

variable {n b k j i : ℕ} {rs qs : List (ℕ × ℕ)} {r q : ℕ × ℕ}

theorem Apart.symm (h : Apart r q) : Apart q r := Or.symm h

namespace Tiles

theorem whole (hn : 0 < n) : Tiles n [(0, n)] :=
  ⟨fun r hr => by obtain rfl := List.mem_singleton.1 hr; exact ⟨hn, (Nat.zero_add n).le⟩,
    List.pairwise_singleton _ _, by simp⟩

theorem perm (h : Tiles n rs) (hp : rs.Perm qs) : Tiles n qs where
  inside r hr := h.inside r (hp.mem_iff.2 hr)
  apart := (hp.pairwise_iff fun h => Apart.symm h).1 h.apart
  total := (hp.map Prod.snd).sum_eq ▸ h.total

/-- A range is cut in two. -/
theorem split (h : Tiles n ((b, k + j) :: rs)) (hk : 0 < k) (hj : 0 < j) :
    Tiles n ((b, k) :: (b + k, j) :: rs) := by
  obtain ⟨hapart, hrs⟩ := List.pairwise_cons.1 h.apart
  obtain ⟨-, hle⟩ := h.inside (b, k + j) List.mem_cons_self
  dsimp only at hle
  refine ⟨fun r hr => ?_, List.pairwise_cons.2 ⟨fun r hr => ?_,
    List.pairwise_cons.2 ⟨fun r hr => ?_, hrs⟩⟩, ?_⟩
  · obtain rfl | rfl | hr : r = (b, k) ∨ r = (b + k, j) ∨ r ∈ rs := by simpa using hr
    · exact ⟨hk, by dsimp only; omega⟩
    · exact ⟨hj, by dsimp only; omega⟩
    · exact h.inside r (List.mem_cons_of_mem _ hr)
  · obtain rfl | hr := List.mem_cons.1 hr
    · exact Or.inl le_rfl
    · have := hapart r hr
      simp only [Apart] at this ⊢
      omega
  · have := hapart r hr
    simp only [Apart] at this ⊢
    omega
  · have := h.total
    simp only [List.map_cons, List.sum_cons] at this ⊢
    omega

/-- Two ranges, one behind the other, become one. -/
theorem join (h : Tiles n ((b, k) :: (b + k, j) :: rs)) : Tiles n ((b, k + j) :: rs) := by
  obtain ⟨hapart, hrs⟩ := List.pairwise_cons.1 h.apart
  obtain ⟨hapart', hrs⟩ := List.pairwise_cons.1 hrs
  obtain ⟨hk, -⟩ := h.inside (b, k) (by simp)
  obtain ⟨-, hle⟩ := h.inside (b + k, j) (by simp)
  dsimp only at hk hle
  refine ⟨fun r hr => ?_, List.pairwise_cons.2 ⟨fun r hr => ?_, hrs⟩, ?_⟩
  · obtain rfl | hr := List.mem_cons.1 hr
    · exact ⟨Nat.add_pos_left hk j, by dsimp only; omega⟩
    · exact h.inside r (List.mem_cons_of_mem _ (List.mem_cons_of_mem _ hr))
  · have h1 := hapart r (List.mem_cons_of_mem _ hr)
    have h2 := hapart' r hr
    have h3 := h.inside r (List.mem_cons_of_mem _ (List.mem_cons_of_mem _ hr))
    simp only [Apart] at h1 h2 ⊢
    omega
  · have := h.total
    simp only [List.map_cons, List.sum_cons] at this ⊢
    omega

/-- A number of one range is in no other. -/
theorem not_mem (h : Tiles n (r :: rs)) (hq : q ∈ rs) (hi : r.1 ≤ i) (hi' : i < r.1 + r.2) :
    ¬(q.1 ≤ i ∧ i < q.1 + q.2) := by
  have := List.rel_of_pairwise_cons h.apart hq
  simp only [Apart] at this
  omega

theorem nodup (h : Tiles n rs) : rs.Nodup := by
  refine h.apart.imp_of_mem fun {a b} ha _ hab heq => ?_
  have := h.inside a ha
  subst heq
  simp only [Apart] at hab
  omega

end Tiles

end EasyCore.Ranges
