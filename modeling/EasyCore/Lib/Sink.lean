import Mathlib

/-! Places that text goes to, one character at a time.

    A program that formats text writes every character the same way; where it goes is the sink's
    business. `textSink` keeps everything. `cursorSink word last` stores into memory up to the
    address `last`, counts on behind it, and its address wraps at `word`:

        start          last
        ├ t₀ │ t₁ │ ... ┤  the rest is counted, not stored -/

namespace EasyCore.Sinks
open Function

variable {σ α : Type*}

/-- A sink: what one character does to it, and whether it would be stored. -/
structure Sink (σ α : Type*) where
  put : σ → α → σ
  fits : σ → Bool

/-- Put a text. -/
def Sink.puts (k : Sink σ α) (o : σ) (t : List α) : σ := t.foldl k.put o

@[simp] theorem Sink.puts_nil (k : Sink σ α) (o : σ) : k.puts o [] = o := rfl

@[simp] theorem Sink.puts_cons (k : Sink σ α) (o : σ) (c : α) (t : List α) :
    k.puts o (c :: t) = k.puts (k.put o c) t := rfl

theorem Sink.puts_append (k : Sink σ α) (o : σ) (t u : List α) :
    k.puts o (t ++ u) = k.puts (k.puts o t) u := List.foldl_append

/-- The text itself: it has room for everything. -/
def textSink (α : Type*) : Sink (List α) α := ⟨fun t c => t ++ [c], fun _ => true⟩

theorem textSink_puts (t u : List α) : (textSink α).puts t u = t ++ u := by
  induction u generalizing t with
  | nil => rw [Sink.puts_nil, List.append_nil]
  | cons c u ih =>
    rw [Sink.puts_cons, ih]
    exact List.append_assoc t [c] u

/-! ### A cursor -/

/-- Memory, and the address of the next character. -/
structure Cursor (α : Type*) where
  mem : ℕ → α
  str : ℕ

/-- A character is stored up to the address `last`; addresses are modulo `word`. -/
def cursorSink (α : Type*) (word last : ℕ) : Sink (Cursor α) α where
  put o c := ⟨if o.str ≤ last then update o.mem o.str c else o.mem, (o.str + 1) % word⟩
  fits o := o.str ≤ last

variable {word last x i : ℕ} {o o' : Cursor α} {t : List α} {c : α}

theorem put_mem : ((cursorSink α word last).put o c).mem =
    if o.str ≤ last then update o.mem o.str c else o.mem := rfl

theorem put_str : ((cursorSink α word last).put o c).str = (o.str + 1) % word := rfl

theorem puts_str (ho : o.str < word) :
    ((cursorSink α word last).puts o t).str = (o.str + t.length) % word := by
  induction t generalizing o with
  | nil => exact (Nat.mod_eq_of_lt ho).symm
  | cons c t ih =>
    have hlt : (o.str + 1) % word < word := Nat.mod_lt _ (by omega)
    rw [Sink.puts_cons, ih (o := (cursorSink α word last).put o c) hlt, put_str, Nat.mod_add_mod,
      List.length_cons]
    congr 1
    omega

/-- What is not written keeps its value. -/
theorem puts_out (hw : o.str + t.length ≤ word) {a : ℕ}
    (ha : a < o.str ∨ o.str + t.length ≤ a ∨ last < a) :
    ((cursorSink α word last).puts o t).mem a = o.mem a := by
  induction t generalizing o with
  | nil => rfl
  | cons c t ih =>
    rw [List.length_cons] at hw ha
    have hne : o.str ≤ last → a ≠ o.str := by omega
    have hput : ((cursorSink α word last).put o c).mem a = o.mem a := by
      rw [put_mem]
      split
      next h => rw [update_of_ne (hne h)]
      next => rfl
    rw [Sink.puts_cons, ← hput]
    rcases Nat.eq_zero_or_pos t.length with ht | ht
    · rw [List.eq_nil_of_length_eq_zero ht, Sink.puts_nil]
    · have hstr : ((cursorSink α word last).put o c).str = o.str + 1 := Nat.mod_eq_of_lt (by omega)
      refine ih ?_ ?_
      · rw [hstr]
        omega
      · rw [hstr]
        omega

/-- Up to `last` the text stands in memory. -/
theorem puts_in (hw : o.str + t.length ≤ word) (hi : i < t.length) (hl : o.str + i ≤ last) :
    ((cursorSink α word last).puts o t).mem (o.str + i) = t[i] := by
  induction t generalizing o i with
  | nil => exact absurd hi (Nat.not_lt_zero i)
  | cons c t ih =>
    rw [List.length_cons] at hw hi
    rw [Sink.puts_cons]
    have hstr : 0 < t.length → ((cursorSink α word last).put o c).str = o.str + 1 :=
      fun ht => Nat.mod_eq_of_lt (by omega)
    cases i with
    | zero =>
      have hput : ((cursorSink α word last).put o c).mem o.str = c := by
        have hle : o.str ≤ last := hl
        rw [put_mem, if_pos hle, update_self]
      cases t with
      | nil => exact hput
      | cons d t =>
        have hstr := hstr (Nat.succ_pos _)
        rw [List.length_cons] at hw
        rw [Nat.add_zero, puts_out (by rw [hstr, List.length_cons]; omega) (Or.inl (by omega))]
        exact hput
    | succ i =>
      have hstr := hstr (by omega)
      have h := ih (o := (cursorSink α word last).put o c) (i := i) (by omega) (by omega) (by omega)
      have hadd : o.str + (i + 1) = o.str + 1 + i := by omega
      rw [hstr] at h
      rw [hadd, h]
      rfl

/-! ### What is written does not depend on what was there -/

/-- Two cursors at one place, over memories that differ at most in `x`. -/
def AgreeOff (x : ℕ) (o o' : Cursor α) : Prop := o.str = o'.str ∧ ∀ a, a ≠ x → o.mem a = o'.mem a

theorem AgreeOff.put (h : AgreeOff x o o') (c : α) :
    AgreeOff x ((cursorSink α word last).put o c) ((cursorSink α word last).put o' c) := by
  obtain ⟨hstr, hmem⟩ := h
  refine ⟨by rw [put_str, put_str, hstr], fun a ha => ?_⟩
  rw [put_mem, put_mem, hstr]
  split
  · rcases eq_or_ne a o'.str with rfl | hne
    · rw [update_self, update_self]
    · rw [update_of_ne hne, update_of_ne hne, hmem a ha]
  · exact hmem a ha

/-- A text that comes by the address `x` leaves the same memory behind. -/
theorem AgreeOff.puts_eq (h : AgreeOff x o o') (hx : x ≤ last) (hi : i < t.length)
    (hvisit : (o.str + i) % word = x) (ho : o.str < word) :
    (cursorSink α word last).puts o t = (cursorSink α word last).puts o' t := by
  induction t generalizing o o' i with
  | nil => exact absurd hi (Nat.not_lt_zero i)
  | cons c t ih =>
    rw [Sink.puts_cons, Sink.puts_cons]
    cases i with
    | zero =>
      obtain ⟨hstr, hmem⟩ := h
      have hox : o.str = x := by rwa [Nat.add_zero, Nat.mod_eq_of_lt ho] at hvisit
      have hput : (cursorSink α word last).put o c = (cursorSink α word last).put o' c := by
        have hmem' : update o.mem x c = update o'.mem x c := by
          funext a
          rcases eq_or_ne a x with rfl | hne
          · rw [update_self, update_self]
          · rw [update_of_ne hne, update_of_ne hne, hmem a hne]
        unfold cursorSink
        simp only [← hstr, hox, if_pos hx, hmem']
      rw [hput]
    | succ i =>
      refine ih (h.put c) (Nat.lt_of_succ_lt_succ hi) ?_ (Nat.mod_lt _ (by omega))
      rw [put_str, Nat.mod_add_mod, ← hvisit]
      congr 1
      omega

end EasyCore.Sinks
