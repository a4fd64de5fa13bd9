import Mathlib

/-! Fields between separators, and the tokens of `strtok`: the fields that are not empty.

        a , , b   fields  a | empty | b
                  tokens  a | b -/

namespace EasyCore.Tokens

variable {α : Type*} [DecidableEq α] (c : α)

def tokens (s : List α) : List (List α) := (s.splitOn c).filter (· ≠ [])

/-- One call of `strtok`: it skips separators and returns the text up to the next one, or nothing at
    the end of the text. The next call goes on behind that separator. -/
def strtok (s : List α) : Option (List α) × List α :=
  let s := s.dropWhile (· = c)
  if s = [] then (none, [])
  else (some (s.takeWhile (· ≠ c)), (s.dropWhile (· ≠ c)).tail)

/-- `n` calls more. -/
def strtokAgain : ℕ → Option (List α) × List α → Option (List α)
  | 0, r => r.1
  | n + 1, r => strtokAgain n (strtok c r.2)

variable {c}

/-- Each field comes with a separator, but for the last one. -/
theorem fields_sum (s : List α) :
    ((s.splitOn c).map fun f => f.length + 1).sum = s.length + 1 := by
  induction s with
  | nil => simp
  | cons x s ih =>
    rw [List.splitOn_cons_eq_if_modifyHead]
    split_ifs
    · simp only [List.map_cons, List.sum_cons, List.length_nil, ih, List.length_cons]
      omega
    · obtain ⟨f, fs, hfs⟩ := List.exists_cons_of_ne_nil (List.splitOn_ne_nil c s)
      rw [hfs] at ih ⊢
      simp only [List.modifyHead_cons, List.map_cons, List.sum_cons, List.length_cons] at ih ⊢
      omega

theorem tokens_nil : tokens c ([] : List α) = [] := by simp [tokens]

theorem tokens_sep (s : List α) : tokens c (c :: s) = tokens c s := by
  rw [tokens, List.splitOn_cons_eq_if_modifyHead, if_pos (by simp)]
  simp [tokens]

theorem tokens_dropWhile (s : List α) :
    tokens c (s.dropWhile (· = c)) = tokens c s := by
  induction s with
  | nil => rfl
  | cons x s ih =>
    by_cases hx : x = c
    · rw [List.dropWhile_cons_of_pos (by simpa using hx), ih, hx, tokens_sep]
    · rw [List.dropWhile_cons_of_neg (by simpa using hx)]

/-- A text that begins with no separator begins with a token. -/
theorem tokens_cons {x : α} (hx : x ≠ c) (s : List α) :
    tokens c (x :: s) = (x :: s).takeWhile (· ≠ c) ::
      tokens c (((x :: s).dropWhile (· ≠ c)).tail) := by
  have hno : c ∉ (x :: s).takeWhile (· ≠ c) := fun h => by
    simpa using List.mem_takeWhile_imp h
  have hne : (x :: s).takeWhile (· ≠ c) ≠ [] := by
    rw [List.takeWhile_cons_of_pos (by simpa using hx)]
    exact List.cons_ne_nil _ _
  have hsplit : (x :: s).takeWhile (· ≠ c) ++ (x :: s).dropWhile (· ≠ c) = x :: s :=
    List.takeWhile_append_dropWhile
  rcases hdrop : (x :: s).dropWhile (· ≠ c) with _ | ⟨y, r⟩
  · rw [hdrop, List.append_nil] at hsplit
    rw [hsplit] at hno ⊢
    rw [tokens, List.splitOn_eq_singleton hno, List.tail_nil, tokens_nil]
    simp
  · have hy : y = c := by
      have hne' : (x :: s).dropWhile (fun z => decide (z ≠ c)) ≠ [] := by
        rw [hdrop]
        exact List.cons_ne_nil _ _
      have hnot := List.head_dropWhile_not _ hne'
      simp only [hdrop, List.head_cons] at hnot
      simpa using hnot
    rw [hdrop, hy] at hsplit
    conv_lhs => rw [← hsplit, tokens, List.splitOn_append_cons_self_of_not_mem hno,
      List.filter_cons_of_pos (by simpa using hne)]
    rfl

theorem strtok_eq (s : List α) :
    (strtok c s).1 = (tokens c s)[0]? ∧ tokens c (strtok c s).2 = (tokens c s).tail := by
  rw [← tokens_dropWhile s, strtok]
  rcases hdrop : s.dropWhile (· = c) with _ | ⟨x, r⟩
  · simp [tokens_nil]
  · have hx : x ≠ c := by
      have hne : s.dropWhile (fun z => decide (z = c)) ≠ [] := by
        rw [hdrop]
        exact List.cons_ne_nil _ _
      have hnot := List.head_dropWhile_not _ hne
      simp only [hdrop, List.head_cons] at hnot
      simpa using hnot
    rw [if_neg (List.cons_ne_nil _ _), tokens_cons hx]
    simp

/-- The calls give the tokens in their order. -/
theorem strtokAgain_eq : ∀ (n : ℕ) (s : List α),
    strtokAgain c n (strtok c s) = (tokens c s)[n]?
  | 0, s => (strtok_eq s).1
  | n + 1, s => by
    rw [strtokAgain, strtokAgain_eq n, (strtok_eq s).2, List.getElem?_tail]

/-- Tokens that are found make up no more than the text. -/
theorem sum_le_of_tokens {fs : List (List α)} {s : List α} (h : fs <+: tokens c s) :
    (fs.map fun f => f.length + 1).sum ≤ s.length + 1 := by
  have hsub : fs.Sublist (s.splitOn c) := h.sublist.trans List.filter_sublist
  rw [← fields_sum (c := c) s]
  exact (hsub.map _).sum_le_sum fun _ _ => Nat.zero_le _

end EasyCore.Tokens
