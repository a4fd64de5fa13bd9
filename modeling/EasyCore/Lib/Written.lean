import Mathlib

/-! Sequences some of whose elements have been written, and memory that holds them.

        cs  :  a  b  -  -  e          (- : never written)
        bs  :  a  b  ?  ?  e          `Holds bs cs` -/

namespace EasyCore.Written

variable {β : Type*}

/-- Memory has the elements that have been written. -/
def Holds (bs : List β) (cs : List (Option β)) : Prop :=
  List.Forall₂ (fun b c => ∀ x, c = some x → b = x) bs cs

/-- `xs` is written at `pos`; a gap in front of it stays unwritten. -/
def overwrite (cs : List (Option β)) (pos : ℕ) (xs : List β) : List (Option β) :=
  cs.take pos ++ List.replicate (pos - cs.length) none ++ xs.map some ++ cs.drop (pos + xs.length)

theorem overwrite_length (cs : List (Option β)) (pos : ℕ) (xs : List β) :
    (overwrite cs pos xs).length = max cs.length (pos + xs.length) := by
  simp [overwrite]
  omega

variable {bs fill xs : List β} {cs : List (Option β)} {pos n : ℕ}

theorem Holds.length_eq (h : Holds bs cs) : bs.length = cs.length := List.Forall₂.length_eq h

theorem holds_nil : Holds ([] : List β) [] := List.Forall₂.nil

theorem Holds.append {bs' : List β} {cs' : List (Option β)} (h : Holds bs cs) (h' : Holds bs' cs') :
    Holds (bs ++ bs') (cs ++ cs') := List.rel_append h h'

theorem holds_map_some : ∀ xs : List β, Holds xs (xs.map some)
  | [] => holds_nil
  | _ :: xs => List.Forall₂.cons (fun _ h => Option.some.inj h) (holds_map_some xs)

/-- Elements that have not been written may be anything. -/
theorem holds_replicate : ∀ {n : ℕ} {fill : List β}, fill.length = n →
    Holds fill (List.replicate n none)
  | 0, [], _ => holds_nil
  | _ + 1, _ :: _, h =>
    List.Forall₂.cons (fun _ hx => nomatch hx) (holds_replicate (Nat.succ.inj h))

/-- A write inside the memory. -/
theorem Holds.overwrite_inside (h : Holds bs cs) (hfits : pos + xs.length ≤ bs.length) :
    Holds (bs.take pos ++ xs ++ bs.drop (pos + xs.length)) (overwrite cs pos xs) := by
  have hgap : pos - cs.length = 0 := by
    have := h.length_eq
    omega
  rw [overwrite, hgap, List.replicate_zero, List.append_nil]
  have htake : Holds (bs.take pos) (cs.take pos) := List.forall₂_take pos h
  have hdrop : Holds (bs.drop (pos + xs.length)) (cs.drop (pos + xs.length)) :=
    List.forall₂_drop _ h
  exact (htake.append (holds_map_some xs)).append hdrop

/-- A write that ends where the memory ends, or behind it. -/
theorem Holds.overwrite_end (h : Holds bs cs) (hend : bs.length ≤ pos + xs.length)
    (hfill : fill.length = pos - bs.length) :
    Holds (bs.take pos ++ fill ++ xs) (overwrite cs pos xs) := by
  have hlength := h.length_eq
  rw [overwrite, List.drop_eq_nil_of_le (hlength ▸ hend), List.append_nil]
  have htake : Holds (bs.take pos) (cs.take pos) := List.forall₂_take pos h
  exact (htake.append (holds_replicate (hlength ▸ hfill))).append (holds_map_some xs)

/-- What is read: a place behind the memory reads as nothing. -/
def readAt (bs : List β) (pos n : ℕ) : List (Option β) := (List.range n).map fun i => bs[pos + i]?

/-- What is read agrees with the sequence. -/
def Reads (rs cs : List (Option β)) : Prop :=
  List.Forall₂ (fun r c => ∀ x, c = some x → r = some x) rs cs

theorem readAt_eq (bs : List β) (pos n : ℕ) :
    readAt bs pos (min n (bs.length - pos)) = ((bs.drop pos).take n).map some := by
  refine List.ext_getElem (by simp [readAt]) fun i hi hi' => ?_
  have hlt : pos + i < bs.length := by
    simp [readAt] at hi
    omega
  simp [readAt, hlt]

theorem reads_map_some : ∀ {bs : List β} {cs : List (Option β)}, Holds bs cs →
    Reads (bs.map some) cs
  | _, _, .nil => List.Forall₂.nil
  | _, _, .cons h hs => List.Forall₂.cons (fun x hx => congrArg some (h x hx)) (reads_map_some hs)

/-- A read up to the end of the memory. -/
theorem Holds.reads (h : Holds bs cs) (pos n : ℕ) :
    Reads (readAt bs pos (min n (bs.length - pos))) ((cs.drop pos).take n) := by
  rw [readAt_eq]
  have hdrop : Holds (bs.drop pos) (cs.drop pos) := List.forall₂_drop pos h
  have htake : Holds ((bs.drop pos).take n) ((cs.drop pos).take n) := List.forall₂_take n hdrop
  exact reads_map_some htake

theorem Reads.length_eq {rs : List (Option β)} (h : Reads rs cs) : rs.length = cs.length :=
  List.Forall₂.length_eq h

@[simp] theorem readAt_length : (readAt bs pos n).length = n := by simp [readAt]

end EasyCore.Written
