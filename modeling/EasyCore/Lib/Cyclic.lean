import Mathlib

/-! Times of a day that come again every day: how long it is until one comes next.

        0        x        now        y         n
        |--------|---------|---------|---------|
                           |-- dist -▶
        --- dist ▶         |-------------------|

    A time that is just now comes next when the day is over. -/

namespace EasyCore.Cyclic

/-- From `now` to the next time `x`, in a day of length `n`. -/
def dist (n now x : ℕ) : ℕ := if now < x then x - now else x + n - now

variable {n now x y : ℕ}

theorem dist_of_lt (h : now < x) : dist n now x = x - now := if_pos h

theorem dist_of_le (h : x ≤ now) : dist n now x = x + n - now := if_neg (Nat.not_lt.2 h)

theorem dist_now : dist n now now = n := by
  rw [dist_of_le le_rfl]
  omega

/-- Nothing is further away than a day. -/
theorem dist_le (hx : x < n) : dist n now x ≤ n := by
  rw [dist]
  split <;> omega

/-- A time later on this day comes before one that is over. -/
theorem dist_lt_of_later (hx : x < n) (hlater : now < x) (hy : y ≤ now) :
    dist n now x < dist n now y := by
  rw [dist_of_lt hlater, dist_of_le hy]
  omega

theorem dist_le_dist_later (hx : now < x) (hxy : x ≤ y) : dist n now x ≤ dist n now y := by
  rw [dist_of_lt hx, dist_of_lt (by omega)]
  omega

theorem dist_le_dist_over (hy : y ≤ now) (hxy : x ≤ y) : dist n now x ≤ dist n now y := by
  rw [dist_of_le (by omega), dist_of_le hy]
  omega

end EasyCore.Cyclic
