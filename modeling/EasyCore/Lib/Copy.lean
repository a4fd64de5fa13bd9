import Mathlib

/-! Copying in a memory, one element after the other.

        src 0   src 1   ⋯   src (n - 1)       `up` reads and stores from the left,
          ↓       ↓              ↓            `down` from the right,
        dst 0   dst 1   ⋯   dst (n - 1)       `put` stores what was read before -/

namespace EasyCore.Copy
open Function

variable {A β : Type*} [DecidableEq A]

/-- The values `v` are stored. -/
def put (mem : A → β) (dst : ℕ → A) (v : ℕ → β) : ℕ → A → β
  | 0 => mem
  | n + 1 => update (put mem dst v n) (dst n) (v n)

/-- Every element is read when it is its turn, the first one first. -/
def up (mem : A → β) (dst src : ℕ → A) : ℕ → A → β
  | 0 => mem
  | n + 1 => update (up mem dst src n) (dst n) (up mem dst src n (src n))

/-- Every element is read when it is its turn, the last one first. -/
def down (dst src : ℕ → A) : ℕ → (A → β) → A → β
  | 0, mem => mem
  | n + 1, mem => down dst src n (update mem (dst n) (mem (src n)))

variable {mem : A → β} {dst src : ℕ → A} {v w : ℕ → β} {n : ℕ} {a : A}

/-! ### What a copy leaves alone, and in parts -/

theorem put_of_ne (h : ∀ i < n, a ≠ dst i) : put mem dst v n a = mem a := by
  induction n with
  | zero => rfl
  | succ n ih =>
      rw [put, update_of_ne (h n (Nat.lt_succ_self n))]
      exact ih fun i hi => h i (Nat.lt_succ_of_lt hi)

/-- Where no address comes twice, every value stays. -/
theorem put_at (hinj : ∀ i j, i < n → j < n → i ≠ j → dst i ≠ dst j) {i : ℕ} (hi : i < n) :
    put mem dst v n (dst i) = v i := by
  induction n with
  | zero => exact absurd hi (Nat.not_lt_zero i)
  | succ n ih =>
      rcases Nat.lt_succ_iff_lt_or_eq.1 hi with hlt | rfl
      · rw [put, update_of_ne (hinj i n hi (Nat.lt_succ_self n) hlt.ne)]
        exact ih (fun j k hj hk => hinj j k (Nat.lt_succ_of_lt hj) (Nat.lt_succ_of_lt hk)) hlt
      · rw [put, update_self]

theorem put_congr (h : ∀ i < n, v i = w i) : put mem dst v n = put mem dst w n := by
  induction n with
  | zero => rfl
  | succ n ih =>
      rw [put, put, ih fun i hi => h i (Nat.lt_succ_of_lt hi), h n (Nat.lt_succ_self n)]

theorem put_add (m : ℕ) : ∀ n, put mem dst v (m + n) =
    put (put mem dst v m) (fun i => dst (m + i)) (fun i => v (m + i)) n
  | 0 => rfl
  | n + 1 => by rw [← Nat.add_assoc, put, put, put_add m n]

theorem up_add (m : ℕ) : ∀ n, up mem dst src (m + n) =
    up (up mem dst src m) (fun i => dst (m + i)) (fun i => src (m + i)) n
  | 0 => rfl
  | n + 1 => by rw [← Nat.add_assoc, up, up, up_add m n]

/-- The first element, and then the others. -/
theorem put_succ : put mem dst v (n + 1) =
    put (update mem (dst 0) (v 0)) (fun i => dst (i + 1)) (fun i => v (i + 1)) n := by
  rw [Nat.add_comm n 1, put_add 1 n]
  simp only [Nat.add_comm 1, put]

theorem up_succ : up mem dst src (n + 1) =
    up (update mem (dst 0) (mem (src 0))) (fun i => dst (i + 1)) (fun i => src (i + 1)) n := by
  rw [Nat.add_comm n 1, up_add 1 n]
  simp only [Nat.add_comm 1, up]

/-- A store elsewhere may as well come later. -/
theorem put_update (h : ∀ i < n, a ≠ dst i) (x : β) :
    put (update mem a x) dst v n = update (put mem dst v n) a x := by
  induction n with
  | zero => rfl
  | succ n ih =>
      rw [put, put, ih fun i hi => h i (Nat.lt_succ_of_lt hi),
        update_comm (h n (Nat.lt_succ_self n))]

/-! ### When reading late does not matter -/

/-- From the left: nothing is stored where something is read later. -/
theorem up_eq_put (h : ∀ i j, i < j → j < n → dst i ≠ src j) :
    up mem dst src n = put mem dst (fun i => mem (src i)) n := by
  induction n with
  | zero => rfl
  | succ n ih =>
      have hread : put mem dst (fun i => mem (src i)) n (src n) = mem (src n) :=
        put_of_ne fun i hi => (h i n hi (Nat.lt_succ_self n)).symm
      rw [up, put, ih fun i j hij hj => h i j hij (Nat.lt_succ_of_lt hj), hread]

/-- From the right: nothing is stored where something is read later, and nothing twice. -/
theorem down_eq_put (h : ∀ i j, i < j → j < n → dst j ≠ src i)
    (hinj : ∀ i j, i < j → j < n → dst j ≠ dst i) :
    down dst src n mem = put mem dst (fun i => mem (src i)) n := by
  induction n generalizing mem with
  | zero => rfl
  | succ n ih =>
      have hread : ∀ i < n, update mem (dst n) (mem (src n)) (src i) = mem (src i) := fun i hi =>
        update_of_ne (h i n hi (Nat.lt_succ_self n)).symm _ mem
      rw [down, ih (fun i j hij hj => h i j hij (Nat.lt_succ_of_lt hj))
        (fun i j hij hj => hinj i j hij (Nat.lt_succ_of_lt hj)), put_congr hread,
        put_update (fun i hi => hinj i n hi (Nat.lt_succ_self n)), put]

/-! ### Loops that take several elements a round -/

/-- `while (count >= w) { body; count -= w; }`. -/
def rounds {σ : Type*} (w : ℕ) (body : σ → σ) (s : σ) (count : ℕ) : σ × ℕ :=
  if 0 < w ∧ w ≤ count then rounds w body (body s) (count - w) else (s, count)
termination_by count
decreasing_by omega

/-- If a round takes `w` elements, then the loop takes some, and the others are left. -/
theorem rounds_spec {σ : Type*} {w : ℕ} {body : σ → σ} {P : ℕ → σ → Prop}
    (hbody : ∀ k s, k + w ≤ n → P k s → P (k + w) (body s)) :
    ∀ {k count : ℕ} {s : σ}, P k s → k + count = n →
      ∃ m, P m (rounds w body s count).1 ∧ m + (rounds w body s count).2 = n := by
  intro k count s hP hn
  induction count using Nat.strong_induction_on generalizing k s with
  | _ count ih =>
      rw [rounds]
      by_cases hround : 0 < w ∧ w ≤ count
      · rw [if_pos hround]
        exact ih (count - w) (by omega) (hbody k s (by omega) hP) (by omega)
      · rw [if_neg hround]
        exact ⟨k, hP, hn⟩

end EasyCore.Copy
