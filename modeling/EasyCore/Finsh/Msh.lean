import EasyCore.Lib.Bytes

/-! The arguments of a command line (`msh.c`). They are cut out of the line in its own buffer: the blanks
    in front of an argument and the closing quote of a string become NULs.

        e c h o · " a · b " · c          e c h o ∅ " a · b ∅ ∅ c ∅
                                         ▲         ▲         ▲

    An argument that reaches the end of the line needs a NUL that is there already, and nothing counts the
    entries of `argv`. -/

namespace EasyCore.Finsh.Msh
open Function Bytes

/-- `RT_FINSH_ARG_MAX` -/
def rtFinshArgMax : ℕ := 10

def isBlank (c : UInt8) : Bool := c = 32 || c = 9

/-- `'"'` and `'\\'` -/
def quote : UInt8 := 34
def backslash : UInt8 := 92

/-! ### The loops -/

section Loops
variable (length : ℕ)

/-- The blanks are overwritten. -/
def stripBlanks (cmd : ℕ → UInt8) (position : ℕ) : (ℕ → UInt8) × ℕ :=
  if isBlank (cmd position) ∧ position < length then stripBlanks (update cmd position 0) (position + 1)
  else (cmd, position)
termination_by length - position

def skipString (cmd : ℕ → UInt8) (position : ℕ) : ℕ :=
  if cmd position ≠ quote ∧ position < length then
    if cmd position = backslash ∧ cmd (position + 1) = quote then skipString cmd (position + 2)
    else skipString cmd (position + 1)
  else position
termination_by length - position

def skipWord (cmd : ℕ → UInt8) (position : ℕ) : ℕ :=
  if ¬ isBlank (cmd position) ∧ position < length then skipWord cmd (position + 1) else position
termination_by length - position

variable {length} {cmd : ℕ → UInt8} {position : ℕ}

theorem le_stripBlanks (length : ℕ) (cmd : ℕ → UInt8) (position : ℕ) :
    position ≤ (stripBlanks length cmd position).2 := by
  fun_induction stripBlanks length cmd position with
  | case1 cmd position h ih => exact (Nat.le_succ position).trans ih
  | case2 cmd position h => exact le_rfl

theorem stripBlanks_stop (cmd : ℕ → UInt8) (position : ℕ)
    (hlt : (stripBlanks length cmd position).2 < length) :
    isBlank ((stripBlanks length cmd position).1 (stripBlanks length cmd position).2) = false := by
  fun_induction stripBlanks length cmd position with
  | case1 cmd position h ih => exact ih hlt
  | case2 cmd position h => exact Bool.not_eq_true _ ▸ fun hblank => h ⟨hblank, hlt⟩

theorem le_skipString (length : ℕ) (cmd : ℕ → UInt8) (position : ℕ) :
    position ≤ skipString length cmd position := by
  fun_induction skipString length cmd position with
  | case1 position h hesc ih => exact (Nat.le_add_right position 2).trans ih
  | case2 position h hesc ih => exact (Nat.le_succ position).trans ih
  | case3 position h => exact le_rfl

theorem le_skipWord (position : ℕ) : position ≤ skipWord length cmd position := by
  fun_induction skipWord length cmd position with
  | case1 position h ih => exact (Nat.le_succ position).trans ih
  | case2 position h => exact le_rfl

theorem lt_skipWord (hblank : isBlank (cmd position) = false) (hlt : position < length) :
    position < skipWord length cmd position := by
  rw [skipWord, if_pos ⟨by rw [hblank]; decide, hlt⟩]
  exact le_skipWord (position + 1)

end Loops

/-- The buffer and the entries of `argv`, after the loop. -/
def splitLoop (length : ℕ) (cmd : ℕ → UInt8) (position : ℕ) (argv : List ℕ) :
    (ℕ → UInt8) × List ℕ :=
  if position < length then
    let stripped := (stripBlanks length cmd position).1
    let ptr := (stripBlanks length cmd position).2
    if _ : length ≤ ptr then (stripped, argv)
    else if stripped ptr = quote then
      let last := skipString length stripped (ptr + 1)
      if length ≤ last then (stripped, argv ++ [ptr + 1])
      else splitLoop length (update stripped last 0) (last + 1) (argv ++ [ptr + 1])
    else
      let last := skipWord length stripped ptr
      if length ≤ last then (stripped, argv ++ [ptr])
      else splitLoop length stripped last (argv ++ [ptr])
  else (cmd, argv)
termination_by length - position
decreasing_by
  · have hptr := le_stripBlanks length cmd position
    have hlast := le_skipString length (stripBlanks length cmd position).1
      ((stripBlanks length cmd position).2 + 1)
    omega
  · rename_i hlt hptr _ _
    have hle := le_stripBlanks length cmd position
    have hlast := lt_skipWord (stripBlanks_stop cmd position (not_le.1 hptr)) (not_le.1 hptr)
    omega

/-- `msh_split` -/
def mshSplit (cmd : ℕ → UInt8) (length : ℕ) : (ℕ → UInt8) × List ℕ := splitLoop length cmd 0 []

/-! ### The arguments of a text -/

/-- An argument, and whether something that ends it follows: a blank, or its closing quote. -/
structure Arg where
  text : List UInt8
  ended : Bool
  deriving DecidableEq

/-- What a string holds, and the text behind its closing quote; that is the first one that does not
    follow a backslash. -/
def body : UInt8 → List UInt8 → List UInt8 × Option (List UInt8)
  | _, [] => ([], none)
  | prev, c :: s =>
    if c = quote ∧ prev ≠ backslash then ([], some s) else (c :: (body c s).1, (body c s).2)

theorem body_rest {rest : List UInt8} : ∀ {prev : UInt8} {s : List UInt8}, (body prev s).2 = some rest →
    rest.length < s.length
  | _, [], h => nomatch h
  | prev, c :: s, h => by
    rw [body] at h
    split at h
    · cases h
      exact Nat.lt_succ_self _
    · exact (body_rest h).trans (Nat.lt_succ_self _)

theorem body_cons {prev c : UInt8} {s : List UInt8} (h : c ≠ quote ∨ prev = backslash) :
    body prev (c :: s) = (c :: (body c s).1, (body c s).2) := by
  rw [body, if_neg]
  rintro ⟨hquote, hprev⟩
  exact h.elim (fun hne => hne hquote) hprev

def inWord (c : UInt8) : Bool := ! isBlank c

/-- The words and the strings of a text. -/
def args : List UInt8 → List Arg
  | [] => []
  | c :: s =>
    if isBlank c then args s
    else if c = quote then
      match _ : (body quote s).2 with
      | none => [⟨(body quote s).1, false⟩]
      | some rest => ⟨(body quote s).1, true⟩ :: args rest
    else
      ⟨c :: s.takeWhile inWord, s.dropWhile inWord ≠ []⟩ ::
        args (s.dropWhile inWord)
termination_by s => s.length
decreasing_by
  · exact Nat.lt_succ_self _
  · rename_i h
    exact (body_rest h).trans (Nat.lt_succ_self _)
  · exact Nat.lt_succ_of_le (List.length_dropWhile_le _ s)

/-- At `p` is a string of the buffer. -/
def StrAt (cmd : ℕ → UInt8) (size p : ℕ) (s : List UInt8) : Prop :=
  stretch cmd p (p + s.length) = s ∧ 0 ∉ s ∧ p + s.length < size ∧ cmd (p + s.length) = 0

/-- The entries of `argv` fit in it, and are the arguments of the line. -/
def Splits (cmd : ℕ → UInt8) (size length : ℕ) : Prop :=
  (mshSplit cmd length).2.length ≤ rtFinshArgMax ∧
    List.Forall₂ (StrAt (mshSplit cmd length).1 size) (mshSplit cmd length).2
      ((args (stretch cmd 0 length)).map Arg.text)

/-! ### The loops, on texts -/

section Spec
variable {length size : ℕ} {cmd : ℕ → UInt8} {position : ℕ}

theorem args_open {s t : List UInt8} (h : body quote s = (t, none)) :
    args (quote :: s) = [⟨t, false⟩] := by
  rw [args, if_neg (by decide), if_pos rfl]
  split
  · rw [h]
  · rename_i hrest
    rw [h] at hrest
    cases hrest

theorem args_string {s t rest : List UInt8} (h : body quote s = (t, some rest)) :
    args (quote :: s) = ⟨t, true⟩ :: args rest := by
  rw [args, if_neg (by decide), if_pos rfl]
  split
  · rename_i hrest
    rw [h] at hrest
    cases hrest
  · rename_i hrest
    rw [h] at hrest ⊢
    cases hrest
    rfl

theorem args_word {c : UInt8} {s : List UInt8} (hblank : isBlank c = false) (hquote : c ≠ quote) :
    args (c :: s) = ⟨(c :: s).takeWhile inWord, (c :: s).dropWhile inWord ≠ []⟩ ::
      args ((c :: s).dropWhile inWord) := by
  have hword : inWord c = true := by rw [inWord, hblank]; rfl
  rw [args, if_neg (by rw [hblank]; decide), if_neg hquote, List.takeWhile_cons_of_pos hword,
    List.dropWhile_cons_of_pos hword]

theorem stripBlanks_spec (cmd : ℕ → UInt8) (position : ℕ) (hle : position ≤ length) :
    (stripBlanks length cmd position).2 ≤ length ∧
      (∀ i, i < position ∨ (stripBlanks length cmd position).2 ≤ i →
        (stripBlanks length cmd position).1 i = cmd i) ∧
      (∀ i, position ≤ i → i < (stripBlanks length cmd position).2 →
        (stripBlanks length cmd position).1 i = 0) ∧
      args (stretch cmd position length) =
        args (stretch cmd (stripBlanks length cmd position).2 length) := by
  fun_induction stripBlanks length cmd position with
  | case1 cmd position h ih =>
    obtain ⟨hlast, hout, hin, hargs⟩ := ih h.2
    have hfirst := le_stripBlanks length (update cmd position 0) (position + 1)
    refine ⟨hlast, fun i hi => ?_, fun i hi hi' => ?_, ?_⟩
    · rw [hout i (by omega), update_of_ne (by omega)]
    · by_cases heq : i = position
      · rw [hout i (by omega), heq, update_self]
      · exact hin i (by omega) hi'
    · rw [stretch_cons h.2, args, if_pos h.1, ← stretch_update (a := 0) (.inl (Nat.lt_succ_self position)),
        hargs, stretch_update (.inl (by omega))]
  | case2 cmd position h =>
    exact ⟨hle, fun i _ => rfl, fun i hi hi' => absurd hi' (not_lt.2 hi), rfl⟩

/-- The closing quote is where the text has it. -/
theorem skipString_spec (cmd : ℕ → UInt8) (position : ℕ) (hle : position ≤ length) (prev : UInt8)
    (hprev : prev = backslash → cmd position ≠ quote) :
    (length ≤ skipString length cmd position ∧
      body prev (stretch cmd position length) = (stretch cmd position length, none)) ∨
    (skipString length cmd position < length ∧
      body prev (stretch cmd position length) = (stretch cmd position (skipString length cmd position),
        some (stretch cmd (skipString length cmd position + 1) length))) := by
  fun_induction skipString length cmd position generalizing prev with
  | case1 position h hesc ih =>
    have hback : body prev (stretch cmd position length) =
        (cmd position :: (body backslash (stretch cmd (position + 1) length)).1,
          (body backslash (stretch cmd (position + 1) length)).2) := by
      rw [stretch_cons h.2, body_cons (.inl h.1), hesc.1]
    by_cases hlast : position + 1 < length
    · have hquote : body backslash (stretch cmd (position + 1) length) =
          (cmd (position + 1) :: (body quote (stretch cmd (position + 2) length)).1,
            (body quote (stretch cmd (position + 2) length)).2) := by
        rw [stretch_cons hlast, body_cons (.inr rfl), hesc.2]
      rw [hback, hquote, stretch_cons h.2, stretch_cons hlast]
      rcases ih hlast quote (fun h => absurd h (by decide)) with ⟨hend, hbody⟩ | ⟨hend, hbody⟩
      · rw [hbody]
        exact .inl ⟨hend, rfl⟩
      · have hle' : position + 2 ≤ skipString length cmd (position + 2) := le_skipString length cmd _
        rw [hbody, stretch_cons (p := position) (by omega), stretch_cons (p := position + 1) (by omega)]
        exact .inr ⟨hend, rfl⟩
    · have hle' : position + 2 ≤ skipString length cmd (position + 2) := le_skipString length cmd _
      rw [hback, stretch_cons h.2, stretch_nil (by omega)]
      exact .inl ⟨by omega, rfl⟩
  | case2 position h hesc ih =>
    have hbody : body prev (stretch cmd position length) =
        (cmd position :: (body (cmd position) (stretch cmd (position + 1) length)).1,
          (body (cmd position) (stretch cmd (position + 1) length)).2) := by
      rw [stretch_cons h.2, body_cons (.inl h.1)]
    have hle' : position + 1 ≤ skipString length cmd (position + 1) := le_skipString length cmd _
    rw [hbody, stretch_cons h.2]
    rcases ih h.2 (cmd position) (fun hb hq => hesc ⟨hb, hq⟩) with ⟨hend, hrest⟩ | ⟨hend, hrest⟩
    · rw [hrest]
      exact .inl ⟨hend, rfl⟩
    · rw [hrest, stretch_cons (p := position) (by omega)]
      exact .inr ⟨hend, rfl⟩
  | case3 position h =>
    rcases hle.lt_or_eq with hlt | rfl
    · have hquote : cmd position = quote := by
        by_contra hne
        exact h ⟨hne, hlt⟩
      have hprev' : prev ≠ backslash := fun hb => hprev hb hquote
      rw [stretch_cons hlt, body, if_pos ⟨hquote, hprev'⟩, stretch_nil le_rfl]
      exact .inr ⟨hlt, rfl⟩
    · rw [stretch_nil le_rfl]
      exact .inl ⟨le_rfl, rfl⟩

theorem skipWord_spec (cmd : ℕ → UInt8) (position : ℕ) (hle : position ≤ length) :
    skipWord length cmd position ≤ length ∧
      (stretch cmd position length).takeWhile inWord =
        stretch cmd position (skipWord length cmd position) ∧
      (stretch cmd position length).dropWhile inWord =
        stretch cmd (skipWord length cmd position) length ∧
      (skipWord length cmd position < length → isBlank (cmd (skipWord length cmd position))) := by
  fun_induction skipWord length cmd position with
  | case1 position h ih =>
    obtain ⟨hend, htake, hdrop, hstop⟩ := ih h.2
    have hle' : position + 1 ≤ skipWord length cmd (position + 1) := le_skipWord _
    have hblank : inWord (cmd position) = true := by simpa [inWord] using h.1
    refine ⟨hend, ?_, ?_, hstop⟩
    · rw [stretch_cons h.2, List.takeWhile_cons_of_pos hblank, htake, stretch_cons (p := position) (by omega)]
    · rw [stretch_cons h.2, List.dropWhile_cons_of_pos hblank, hdrop]
  | case2 position h =>
    rcases hle.lt_or_eq with hlt | rfl
    · have hblank : isBlank (cmd position) = true := by
        by_contra hne
        exact h ⟨hne, hlt⟩
      have hneg : ¬ inWord (cmd position) = true := by simpa [inWord] using hblank
      refine ⟨hle, ?_, ?_, fun _ => hblank⟩
      · rw [stretch_cons hlt, List.takeWhile_cons_of_neg hneg, stretch_nil le_rfl]
      · rw [stretch_cons hlt, List.dropWhile_cons_of_neg hneg]
    · rw [stretch_nil le_rfl]
      exact ⟨le_rfl, rfl, rfl, fun hlt => absurd hlt (lt_irrefl _)⟩

/-- What the loop leaves of an argument: its text, and a NUL if something ends it in the line. -/
def Held (cmd : ℕ → UInt8) (length p : ℕ) (a : Arg) : Prop :=
  stretch cmd p (p + a.text.length) = a.text ∧
    if a.ended then p + a.text.length < length ∧ cmd (p + a.text.length) = 0
    else p + a.text.length = length

/-- What the loop does from a position. -/
structure Outcome (cmd : ℕ → UInt8) (length position : ℕ) (argv : List ℕ) (r : (ℕ → UInt8) × List ℕ) :
    Prop where
  out : ∀ i, i < position ∨ length ≤ i → r.1 i = cmd i
  blank : position < length → isBlank (cmd position) = true → r.1 position = 0
  entries : ∃ entries, r.2 = argv ++ entries ∧
    List.Forall₂ (Held r.1 length) entries (args (stretch cmd position length))

variable {argv : List ℕ} {r : (ℕ → UInt8) × List ℕ} {ptr last : ℕ}

/-- Blanks in front do not matter, and are overwritten. -/
theorem Outcome.strip (hlt : position < length)
    (h : Outcome (stripBlanks length cmd position).1 length (stripBlanks length cmd position).2 argv r) :
    Outcome cmd length position argv r := by
  have hfirst := le_stripBlanks length cmd position
  obtain ⟨hptr, hout, hin, hargs⟩ := stripBlanks_spec cmd position hlt.le
  refine ⟨fun i hi => ?_, fun _ hblank => ?_, ?_⟩
  · rw [h.out i (by omega), hout i (by omega)]
  · have hnext : position < (stripBlanks length cmd position).2 := by
      rw [stripBlanks, if_pos ⟨hblank, hlt⟩]
      exact le_stripBlanks length _ (position + 1)
    rw [h.out position (.inl hnext), hin position le_rfl hnext]
  · obtain ⟨entries, hentries, hheld⟩ := h.entries
    rw [stretch_congr fun i hi _ => hout i (.inr hi), ← hargs] at hheld
    exact ⟨entries, hentries, hheld⟩

/-- The line ends in a string. -/
theorem outcome_open (hlt : ptr < length) (hquote : cmd ptr = quote)
    (hbody : body quote (stretch cmd (ptr + 1) length) = (stretch cmd (ptr + 1) length, none)) :
    Outcome cmd length ptr argv (cmd, argv ++ [ptr + 1]) := by
  refine ⟨fun i _ => rfl, fun _ hblank => ?_, [ptr + 1], rfl, ?_⟩
  · rw [hquote] at hblank
    exact absurd hblank (by decide)
  · rw [stretch_cons hlt, hquote, args_open hbody]
    refine .cons ⟨?_, ?_⟩ .nil
    · rw [stretch_length, show ptr + 1 + (length - (ptr + 1)) = length by omega]
    · show ptr + 1 + (stretch cmd (ptr + 1) length).length = length
      rw [stretch_length]
      omega

/-- A string, and the line behind its closing quote. -/
theorem outcome_string (hlt : ptr < length) (hquote : cmd ptr = quote) (hptr : ptr < last)
    (hlast : last < length)
    (hbody : body quote (stretch cmd (ptr + 1) length) =
      (stretch cmd (ptr + 1) last, some (stretch cmd (last + 1) length)))
    (h : Outcome (update cmd last 0) length (last + 1) (argv ++ [ptr + 1]) r) :
    Outcome cmd length ptr argv r := by
  have hout : ∀ i, i < last → r.1 i = cmd i := fun i hi => by
    rw [h.out i (by omega), update_of_ne (by omega)]
  refine ⟨fun i hi => ?_, fun _ hblank => ?_, ?_⟩
  · rw [h.out i (by omega), update_of_ne (by omega)]
  · rw [hquote] at hblank
    exact absurd hblank (by decide)
  · obtain ⟨entries, hentries, hheld⟩ := h.entries
    rw [stretch_update (.inl (Nat.lt_succ_self last))] at hheld
    refine ⟨(ptr + 1) :: entries, by rw [hentries, List.append_assoc]; rfl, ?_⟩
    rw [stretch_cons hlt, hquote, args_string hbody]
    have hend : ptr + 1 + (stretch cmd (ptr + 1) last).length = last := by
      rw [stretch_length]
      omega
    refine .cons ⟨?_, ?_⟩ hheld
    · show stretch r.1 (ptr + 1) (ptr + 1 + (stretch cmd (ptr + 1) last).length) = _
      rw [hend]
      exact stretch_congr fun i _ hi => hout i hi
    · show ptr + 1 + (stretch cmd (ptr + 1) last).length < length ∧
        r.1 (ptr + 1 + (stretch cmd (ptr + 1) last).length) = 0
      rw [hend, h.out last (by omega), update_self]
      exact ⟨hlast, rfl⟩

/-- A word, and the line behind it. -/
theorem outcome_word (hlt : ptr < length) (hblank : isBlank (cmd ptr) = false) (hquote : cmd ptr ≠ quote)
    (hlast : skipWord length cmd ptr < length)
    (h : Outcome cmd length (skipWord length cmd ptr) (argv ++ [ptr]) r) :
    Outcome cmd length ptr argv r := by
  have hptr := lt_skipWord hblank hlt
  obtain ⟨-, htake, hdrop, hstop⟩ := skipWord_spec cmd ptr hlt.le
  refine ⟨fun i hi => h.out i (by omega), fun _ hblank' => ?_, ?_⟩
  · rw [hblank] at hblank'
    exact absurd hblank' (by decide)
  · obtain ⟨entries, hentries, hheld⟩ := h.entries
    refine ⟨ptr :: entries, by rw [hentries, List.append_assoc]; rfl, ?_⟩
    have hargs := args_word (s := stretch cmd (ptr + 1) length) hblank hquote
    rw [← stretch_cons hlt, htake, hdrop] at hargs
    rw [hargs]
    have hend : ptr + (stretch cmd ptr (skipWord length cmd ptr)).length = skipWord length cmd ptr := by
      rw [stretch_length]
      omega
    have hne : stretch cmd (skipWord length cmd ptr) length ≠ [] := by
      rw [stretch_cons hlast]
      exact List.cons_ne_nil _ _
    refine .cons ⟨?_, ?_⟩ hheld
    · show stretch r.1 ptr (ptr + (stretch cmd ptr (skipWord length cmd ptr)).length) = _
      rw [hend]
      exact stretch_congr fun i _ hi => h.out i (.inl hi)
    · rw [if_pos (decide_eq_true hne), hend]
      exact ⟨hlast, h.blank hlast (hstop hlast)⟩

/-- The line ends in a word. -/
theorem outcome_last (hlt : ptr < length) (hblank : isBlank (cmd ptr) = false) (hquote : cmd ptr ≠ quote)
    (hlast : length ≤ skipWord length cmd ptr) : Outcome cmd length ptr argv (cmd, argv ++ [ptr]) := by
  obtain ⟨hend, htake, hdrop, -⟩ := skipWord_spec cmd ptr hlt.le
  have heq : skipWord length cmd ptr = length := le_antisymm hend hlast
  refine ⟨fun i _ => rfl, fun _ hblank' => ?_, [ptr], rfl, ?_⟩
  · rw [hblank] at hblank'
    exact absurd hblank' (by decide)
  · have hargs := args_word (s := stretch cmd (ptr + 1) length) hblank hquote
    rw [← stretch_cons hlt, htake, hdrop, heq, stretch_nil le_rfl, args] at hargs
    rw [hargs]
    refine .cons ⟨?_, ?_⟩ .nil
    · rw [stretch_length, show ptr + (length - ptr) = length by omega]
    · show ptr + (stretch cmd ptr length).length = length
      rw [stretch_length]
      omega

theorem splitLoop_outcome (cmd : ℕ → UInt8) (position : ℕ) (argv : List ℕ) (hle : position ≤ length) :
    Outcome cmd length position argv (splitLoop length cmd position argv) := by
  fun_induction splitLoop length cmd position argv with
  | case1 cmd position argv hlt stripped ptr hptr =>
    refine .strip hlt ⟨fun i _ => rfl, fun hptr' => absurd hptr' (not_lt.2 hptr), [], ?_, ?_⟩
    · exact (List.append_nil argv).symm
    · rw [stretch_nil hptr, args]
      exact .nil
  | case2 cmd position argv hlt stripped ptr hptr hquote last hlast =>
    have hprev : quote = backslash → stripped (ptr + 1) ≠ quote := fun h => absurd h (by decide)
    rcases skipString_spec stripped (ptr + 1) (not_le.1 hptr) quote hprev with
      ⟨-, hbody⟩ | ⟨hend, -⟩
    · exact .strip hlt (outcome_open (not_le.1 hptr) hquote hbody)
    · exact absurd hlast (not_le.2 hend)
  | case3 cmd position argv hlt stripped ptr hptr hquote last hlast ih =>
    have hprev : quote = backslash → stripped (ptr + 1) ≠ quote := fun h => absurd h (by decide)
    rcases skipString_spec stripped (ptr + 1) (not_le.1 hptr) quote hprev with
      ⟨hend, -⟩ | ⟨hend, hbody⟩
    · exact absurd hend hlast
    · have hlast' : ptr < last := le_skipString length stripped (ptr + 1)
      exact .strip hlt (outcome_string (not_le.1 hptr) hquote hlast' hend hbody (ih hend))
  | case4 cmd position argv hlt stripped ptr hptr hquote last hlast =>
    exact .strip hlt
      (outcome_last (not_le.1 hptr) (stripBlanks_stop cmd position (not_le.1 hptr)) hquote hlast)
  | case5 cmd position argv hlt stripped ptr hptr hquote last hlast ih =>
    exact .strip hlt (outcome_word (not_le.1 hptr) (stripBlanks_stop cmd position (not_le.1 hptr)) hquote
      (not_le.1 hlast) (ih (not_le.1 hlast).le))
  | case6 cmd position argv hlt =>
    refine ⟨fun i _ => rfl, fun hlt' => absurd hlt' hlt, [], (List.append_nil argv).symm, ?_⟩
    rw [stretch_nil (not_lt.1 hlt), args]
    exact .nil

/-- At an argument that is held is its string exactly if there is no NUL in it, and one behind it in the
    buffer. -/
theorem strAt_iff {p : ℕ} {a : Arg} (hlength : length ≤ size) (h : Held cmd length p a) :
    StrAt cmd size p a.text ↔ 0 ∉ a.text ∧ (a.ended = false → length < size ∧ cmd length = 0) := by
  obtain ⟨htext, hend⟩ := h
  cases hended : a.ended with
  | true =>
    rw [if_pos hended] at hend
    constructor
    · rintro ⟨-, hnul, -⟩
      exact ⟨hnul, fun hfalse => nomatch hfalse⟩
    · rintro ⟨hnul, -⟩
      exact ⟨htext, hnul, hend.1.trans_le hlength, hend.2⟩
  | false =>
    rw [if_neg (by rw [hended]; decide)] at hend
    constructor
    · rintro ⟨-, hnul, hsize, hzero⟩
      rw [hend] at hsize hzero
      exact ⟨hnul, fun _ => ⟨hsize, hzero⟩⟩
    · rintro ⟨hnul, hbehind⟩
      refine ⟨htext, hnul, ?_⟩
      rw [hend]
      exact hbehind rfl

theorem strings_iff (hlength : length ≤ size) {entries : List ℕ} {as : List Arg}
    (h : List.Forall₂ (Held cmd length) entries as) :
    List.Forall₂ (StrAt cmd size) entries (as.map Arg.text) ↔
      ∀ a ∈ as, 0 ∉ a.text ∧ (a.ended = false → length < size ∧ cmd length = 0) := by
  induction h with
  | nil => exact iff_of_true .nil fun a ha => nomatch ha
  | cons ha _ ih => rw [List.map_cons, List.forall₂_cons, ih, List.forall_mem_cons, strAt_iff hlength ha]

end Spec

/-- CORRECT: a line is split into its arguments exactly if there are no more than `argv` takes, none has a
    NUL in it, and behind the line is a NUL in the buffer if the last argument reaches that far. -/
theorem msh_split_iff (cmd : ℕ → UInt8) (size length : ℕ) (hlength : length ≤ size) :
    Splits cmd size length ↔ (args (stretch cmd 0 length)).length ≤ rtFinshArgMax ∧
      ∀ a ∈ args (stretch cmd 0 length), 0 ∉ a.text ∧ (a.ended = false → length < size ∧ cmd length = 0) := by
  have hloop : Outcome cmd length 0 [] (mshSplit cmd length) := splitLoop_outcome cmd 0 [] (Nat.zero_le _)
  obtain ⟨entries, hentries, hheld⟩ := hloop.entries
  rw [Splits, hentries, List.nil_append, hheld.length_eq, strings_iff hlength hheld,
    hloop.out length (.inr le_rfl)]

/-- The characters of a line, and NULs behind it. -/
def buffer (line : List UInt8) (i : ℕ) : UInt8 := line.getD i 0

/-- `a "b c"` in a buffer of 80 characters. -/
theorem msh_split_iff_string : Splits (buffer [97, 32, 34, 98, 32, 99, 34]) 80 7 := by
  have hline : stretch (buffer [97, 32, 34, 98, 32, 99, 34]) 0 7 = [97, 32, 34, 98, 32, 99, 34] := by decide
  have hbody : body quote [98, 32, 99, 34] = ([98, 32, 99], some []) := by decide
  have hargs : args [97, 32, 34, 98, 32, 99, 34] = [⟨[97], true⟩, ⟨[98, 32, 99], true⟩] := by
    rw [args_word (by decide) (by decide)]
    show _ :: args (32 :: quote :: [98, 32, 99, 34]) = _
    rw [args, if_pos (by decide), args_string hbody, args]
    rfl
  refine (msh_split_iff _ 80 7 (by decide)).2 ?_
  rw [hline, hargs]
  exact ⟨by decide, by simp⟩

/-- INCORRECT: with eleven words in the line, an eleventh entry is stored behind `argv`. -/
theorem eleventh_entry : ¬ ∀ (cmd : ℕ → UInt8) (size length : ℕ), length ≤ size → Splits cmd size length := by
  intro hall
  let line : List UInt8 :=
    [97, 32, 97, 32, 97, 32, 97, 32, 97, 32, 97, 32, 97, 32, 97, 32, 97, 32, 97, 32, 97]
  have hline : stretch (buffer line) 0 21 = line := by decide
  have hword : ∀ s, args (97 :: 32 :: s) = ⟨[97], true⟩ :: args s := fun s => by
    rw [args_word (by decide) (by decide)]
    show _ :: args (32 :: s) = _
    rw [args, if_pos (by decide)]
    rfl
  have hlast : args [97] = [⟨[97], false⟩] := by
    rw [args_word (by decide) (by decide)]
    show _ :: args [] = _
    rw [args]
    rfl
  have hloop : Outcome (buffer line) 21 0 [] (mshSplit (buffer line) 21) :=
    splitLoop_outcome (buffer line) 0 [] (by decide)
  obtain ⟨entries, hentries, hheld⟩ := hloop.entries
  have h := (hall (buffer line) 80 21 (by decide)).1
  rw [hentries, List.nil_append, hheld.length_eq, hline] at h
  simp only [line, hword, hlast] at h
  exact absurd h (by decide)

end EasyCore.Finsh.Msh
