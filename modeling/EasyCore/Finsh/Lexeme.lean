import EasyCore.Finsh.Lexer

/-! What a token is, as a piece of text, and that `finsh_token.c` cuts the text in this way. The
    text of a line ends at its first line feed. -/

namespace EasyCore.Finsh.Lexer

/-- What can be read of a line. -/
def text (line : Line) : List UInt8 := line.chars.takeWhile (· ≠ charLf)

/-- The first character, and what is left behind it; there is nothing left behind the end. -/
def first : List UInt8 → UInt8 × Option (List UInt8)
  | [] => (0, none)
  | c :: s => (c, some s)

/-- The first character is put back; at the end there was none. -/
def unread (s : List UInt8) : Option (List UInt8) := if s = [] then none else some s

/-- Where the cursor is, with this left. -/
def cursorAt (line : Line) : Option (List UInt8) → Cursor
  | none => ⟨true, 0⟩
  | some s => ⟨false, (text line).length - s.length⟩

@[simp] theorem first_nil : first [] = (0, none) := rfl

@[simp] theorem first_cons (c : UInt8) (s : List UInt8) : first (c :: s) = (c, some s) := rfl

/-! ### Pieces of text -/

/-- What is left behind a `l` that may follow a number. -/
def scanSuffix : List UInt8 → Option (List UInt8)
  | [] => none
  | c :: s => if c = 108 ∨ c = 76 then some s else some (c :: s)

/-- Digits in an array of 128 bytes, and a suffix. -/
def scanDigits (p : UInt8 → Bool) (s : List UInt8) : Option (Option (List UInt8)) :=
  if (s.takeWhile p).length < stringMax then some (scanSuffix (s.dropWhile p)) else none

/-- What follows a 0. -/
def scanBase : List UInt8 → Option (Option (List UInt8))
  | [] => some none
  | d :: r =>
    if d = 120 ∨ d = 88 then scanDigits (fun c => isDigit c || isAlpha c) r
    else if d = 98 ∨ d = 66 then scanDigits (fun c => c = 48 || c = 49) r
    else scanDigits isDigit (d :: r)

/-- A number. -/
def scanNumber (c : UInt8) (s : List UInt8) : Option (Option (List UInt8)) :=
  if c = 48 then scanBase s else some (scanSuffix (s.dropWhile isDigit))

/-- A name. -/
def scanName (s : List UInt8) : Option (Option (List UInt8)) :=
  if (s.takeWhile isName).length < stringMax then some (unread (s.dropWhile isName)) else none

/-- The quote behind a character, which may be missing. -/
def scanClose : List UInt8 → Option (List UInt8)
  | [] => none
  | c :: s => if c = charQuote then some s else some (c :: s)

/-- A character behind a backslash. -/
def scanBackslash : List UInt8 → Option (Option (List UInt8))
  | [] => some none
  | d :: r =>
    if (charEscapes.lookup d).isSome then some (scanClose r)
    else if ((d :: r).takeWhile isDigit).length ≤ 3 then
      some (scanClose ((d :: r).dropWhile isDigit))
    else none

/-- A character, behind its quote. -/
def scanChar : List UInt8 → Option (Option (List UInt8))
  | [] => some none
  | c :: s => if c = charBackslash then scanBackslash s else some (scanClose s)

/-- What is left behind an escape in a string. -/
def scanEscape : List UInt8 → Option (List UInt8)
  | [] => none
  | d :: r =>
    if (stringEscapes.lookup d).isSome then some r
    else if d = 120 then unread (r.dropWhile isHex)
    else if isOctal d then unread ((d :: r).dropWhile isOctal)
    else some r

/-- A string with at most so many characters, behind its quote. -/
def scanString : ℕ → List UInt8 → Option (List UInt8)
  | 0, s => some s
  | _ + 1, [] => none
  | n + 1, c :: s =>
    if c = charBackslash then (scanEscape s).bind (scanString n)
    else if c = charDoubleQuote then some s
    else scanString n s

/-- A character that may come twice. -/
def scanDouble (c : UInt8) : List UInt8 → Option (List UInt8)
  | [] => none
  | d :: r => if d = c then some r else some (d :: r)

/-- A token that starts with neither a digit nor a letter. -/
def scanSign (c : UInt8) (s : List UInt8) : Option (Option (List UInt8)) :=
  if (singles.lookup c).isSome then some (some s)
  else if (doubles.lookup c).isSome then some (scanDouble c s)
  else if c = charQuote then scanChar s
  else if c = charDoubleQuote then some (scanString stringMax s)
  else some (some s)

/-- What is left behind a token: nothing at all (`some none`) if the text ends before the token
    does; `none` if the token does not fit where it is stored. -/
def scan : List UInt8 → Option (Option (List UInt8))
  | [] => some none
  | c :: s =>
    if isDigit c then scanNumber c s
    else if isName c then scanName (c :: s)
    else scanSign c s

/-- The text behind the spaces. -/
def trim (s : List UInt8) : List UInt8 := s.dropWhile isBlank

/-- A text of spaces and whole tokens. -/
inductive Whole : List UInt8 → Prop
  | done {s : List UInt8} : trim s = [] → Whole s
  | token {s rest : List UInt8} : scan (trim s) = some (some rest) → Whole rest → Whole s

/-! ### What is left -/

theorem unread_suffix {s rest : List UInt8} (h : unread s = some rest) : rest <:+ s := by
  rw [unread] at h
  split_ifs at h
  obtain rfl := Option.some.inj h
  exact List.suffix_rfl

theorem scanEscape_suffix {rest : List UInt8} : ∀ {s : List UInt8}, scanEscape s = some rest →
    rest <:+ s
  | [], h => by cases h
  | d :: r, h => by
    rw [scanEscape] at h
    split_ifs at h
    · obtain rfl := Option.some.inj h
      exact List.suffix_cons d r
    · exact (unread_suffix h).trans ((List.dropWhile_suffix _).trans (List.suffix_cons d r))
    · exact (unread_suffix h).trans (List.dropWhile_suffix _)
    · obtain rfl := Option.some.inj h
      exact List.suffix_cons d r

theorem scanSuffix_suffix {rest : List UInt8} : ∀ {s : List UInt8}, scanSuffix s = some rest →
    rest <:+ s
  | [], h => by cases h
  | c :: s, h => by
    rw [scanSuffix] at h
    split_ifs at h
    · obtain rfl := Option.some.inj h
      exact List.suffix_cons c s
    · obtain rfl := Option.some.inj h
      exact List.suffix_rfl

theorem scanDigits_suffix {p : UInt8 → Bool} {s rest : List UInt8}
    (h : scanDigits p s = some (some rest)) : rest <:+ s := by
  rw [scanDigits] at h
  split_ifs at h
  exact (scanSuffix_suffix (Option.some.inj h)).trans (List.dropWhile_suffix p)

theorem scanBase_suffix {rest : List UInt8} : ∀ {s : List UInt8}, scanBase s = some (some rest) →
    rest <:+ s
  | [], h => by cases h
  | d :: r, h => by
    rw [scanBase] at h
    split_ifs at h
    · exact (scanDigits_suffix h).trans (List.suffix_cons d r)
    · exact (scanDigits_suffix h).trans (List.suffix_cons d r)
    · exact scanDigits_suffix h

theorem scanNumber_suffix {c : UInt8} {s rest : List UInt8}
    (h : scanNumber c s = some (some rest)) : rest <:+ s := by
  rw [scanNumber] at h
  split_ifs at h
  · exact scanBase_suffix h
  · exact (scanSuffix_suffix (Option.some.inj h)).trans (List.dropWhile_suffix isDigit)

/-- A name is not empty. -/
theorem scanName_suffix {c : UInt8} {s rest : List UInt8} (hc : isName c = true)
    (h : scanName (c :: s) = some (some rest)) : rest <:+ s := by
  rw [scanName] at h
  split_ifs at h
  have hrest := unread_suffix (Option.some.inj h)
  rw [List.dropWhile_cons_of_pos hc] at hrest
  exact hrest.trans (List.dropWhile_suffix isName)

theorem scanClose_suffix {rest : List UInt8} : ∀ {s : List UInt8}, scanClose s = some rest →
    rest <:+ s
  | [], h => by cases h
  | c :: s, h => by
    rw [scanClose] at h
    split_ifs at h
    · obtain rfl := Option.some.inj h
      exact List.suffix_cons c s
    · obtain rfl := Option.some.inj h
      exact List.suffix_rfl

theorem scanBackslash_suffix {rest : List UInt8} : ∀ {s : List UInt8},
    scanBackslash s = some (some rest) → rest <:+ s
  | [], h => by cases h
  | d :: r, h => by
    rw [scanBackslash] at h
    split_ifs at h
    · exact (scanClose_suffix (Option.some.inj h)).trans (List.suffix_cons d r)
    · exact (scanClose_suffix (Option.some.inj h)).trans (List.dropWhile_suffix isDigit)

theorem scanChar_suffix {rest : List UInt8} : ∀ {s : List UInt8}, scanChar s = some (some rest) →
    rest <:+ s
  | [], h => by cases h
  | c :: s, h => by
    rw [scanChar] at h
    split_ifs at h
    · exact (scanBackslash_suffix h).trans (List.suffix_cons c s)
    · exact (scanClose_suffix (Option.some.inj h)).trans (List.suffix_cons c s)

theorem scanString_suffix {rest : List UInt8} : ∀ (n : ℕ) {s : List UInt8},
    scanString n s = some rest → rest <:+ s
  | 0, s, h => by
    obtain rfl := Option.some.inj h
    exact List.suffix_rfl
  | n + 1, [], h => by cases h
  | n + 1, c :: s, h => by
    rw [scanString] at h
    split_ifs at h
    · obtain ⟨rest', hescape, hrest⟩ := Option.bind_eq_some_iff.1 h
      exact (scanString_suffix n hrest).trans
        ((scanEscape_suffix hescape).trans (List.suffix_cons c s))
    · obtain rfl := Option.some.inj h
      exact List.suffix_cons c s
    · exact (scanString_suffix n h).trans (List.suffix_cons c s)

theorem scanDouble_suffix {c : UInt8} {rest : List UInt8} : ∀ {s : List UInt8},
    scanDouble c s = some rest → rest <:+ s
  | [], h => by cases h
  | d :: r, h => by
    rw [scanDouble] at h
    split_ifs at h
    · obtain rfl := Option.some.inj h
      exact List.suffix_cons d r
    · obtain rfl := Option.some.inj h
      exact List.suffix_rfl

theorem scanSign_suffix {c : UInt8} {s rest : List UInt8}
    (h : scanSign c s = some (some rest)) : rest <:+ s := by
  rw [scanSign] at h
  split_ifs at h
  · obtain rfl := Option.some.inj (Option.some.inj h)
    exact List.suffix_rfl
  · exact scanDouble_suffix (Option.some.inj h)
  · exact scanChar_suffix h
  · exact scanString_suffix stringMax (Option.some.inj h)
  · obtain rfl := Option.some.inj (Option.some.inj h)
    exact List.suffix_rfl

/-- A token has a first character, and what is left lies behind it. -/
theorem scan_suffix {c : UInt8} {s rest : List UInt8} (h : scan (c :: s) = some (some rest)) :
    rest <:+ s := by
  rw [scan] at h
  split_ifs at h with hdigit hname
  · exact scanNumber_suffix h
  · exact scanName_suffix hname h
  · exact scanSign_suffix h

/-! ### The cursor -/

section Cursor
variable {line : Line} {s : List UInt8} {c : UInt8}

/-- The characters of the text are those of the line. -/
theorem chars_append (line : Line) :
    line.chars = text line ++ line.chars.dropWhile (· ≠ charLf) :=
  List.takeWhile_append_dropWhile.symm

theorem next_cons (hs : c :: s <:+ text line) :
    tokenNextChar line (cursorAt line (some (c :: s))) = (c, cursorAt line (some s)) := by
  obtain ⟨front, hfront⟩ := hs
  have hlen : (text line).length = front.length + (s.length + 1) := by
    rw [← hfront, List.length_append, List.length_cons]
  have hget : line.chars[front.length]? = some c := by
    rw [chars_append, ← hfront, List.append_assoc, List.getElem?_append_right le_rfl]
    simp
  have hne : c ≠ charLf := by
    have hmem : c ∈ text line := by
      rw [← hfront]
      simp
    simpa using List.mem_takeWhile_imp hmem
  have hpos : (text line).length - (s.length + 1) = front.length := by omega
  have hpos' : (text line).length - s.length = front.length + 1 := by omega
  simp [tokenNextChar, cursorAt, hpos, hpos', hget, hne]

/-- Behind the text there is nothing, or a line feed. -/
theorem text_ends : ∀ cs : List UInt8, cs[(cs.takeWhile (· ≠ charLf)).length]? = none ∨
    cs[(cs.takeWhile (· ≠ charLf)).length]? = some charLf
  | [] => .inl rfl
  | c :: cs => by
    by_cases hc : c = charLf
    · right
      simp [hc]
    · have ih := text_ends cs
      rw [List.takeWhile_cons_of_pos (by simpa using hc)]
      exact ih

theorem next_nil (line : Line) :
    tokenNextChar line (cursorAt line (some [])) = (0, cursorAt line none) := by
  rcases text_ends line.chars with h | h
  · simp only [tokenNextChar, cursorAt, text, List.length_nil, Nat.sub_zero, h, Bool.false_eq_true,
      if_false]
  · simp only [tokenNextChar, cursorAt, text, List.length_nil, Nat.sub_zero, h, Bool.false_eq_true,
      if_false, if_true]

@[simp] theorem next_none (line : Line) :
    tokenNextChar line (cursorAt line none) = (0, cursorAt line none) := rfl

theorem next_first (hs : s <:+ text line) :
    tokenNextChar line (cursorAt line (some s)) = ((first s).1, cursorAt line (first s).2) := by
  cases s with
  | nil => exact next_nil line
  | cons c s => exact next_cons hs

/-- A character that has been read is put back. -/
theorem prev_first (hs : s <:+ text line) :
    tokenPrevChar (cursorAt line (first s).2) = cursorAt line (unread s) := by
  cases s with
  | nil => rfl
  | cons c s =>
    have hlen := hs.length_le
    rw [List.length_cons] at hlen
    simp only [first, unread, cursorAt, tokenPrevChar, reduceCtorEq, if_false, List.length_cons,
      Bool.false_eq_true, Cursor.mk.injEq, true_and]
    omega

theorem suffix_drop (hs : s <:+ text line) (p : UInt8 → Bool) : s.dropWhile p <:+ text line :=
  (List.dropWhile_suffix p).trans hs

theorem takeChars_first {p : UInt8 → Bool} (hp : p 0 = false) :
    ∀ (s : List UInt8) (n : ℕ), s <:+ text line → s.length < n →
      takeChars line p n ((first s).1, cursorAt line (first s).2) =
        some (s.takeWhile p, (first (s.dropWhile p)).1, cursorAt line (first (s.dropWhile p)).2)
  | _, 0, _, hn => absurd hn (Nat.not_lt_zero _)
  | [], n + 1, _, _ => by simp [takeChars, hp]
  | c :: s, n + 1, hs, hn => by
    have hsub : s <:+ text line := (List.suffix_cons c s).trans hs
    have ih := takeChars_first hp s n hsub (by simpa using hn)
    by_cases hc : p c
    · rw [first_cons, takeChars, if_pos hc, next_first hsub, ih, List.takeWhile_cons_of_pos hc,
        List.dropWhile_cons_of_pos hc]
      rfl
    · simp [takeChars, hc]

/-- A loop that starts with the next character. -/
theorem takeChars_next {p : UInt8 → Bool} (hp : p 0 = false) (hs : s <:+ text line) :
    takeChars line p (rounds line) (tokenNextChar line (cursorAt line (some s))) =
      some (s.takeWhile p, (first (s.dropWhile p)).1, cursorAt line (first (s.dropWhile p)).2) := by
  rw [next_first hs]
  refine takeChars_first hp s _ hs ?_
  have hle := hs.length_le
  have htext := (List.takeWhile_prefix (· ≠ charLf) (l := line.chars)).length_le
  rw [rounds]
  exact Nat.lt_succ_of_le (hle.trans htext)

/-- A loop behind the end. -/
theorem takeChars_none {p : UInt8 → Bool} (hp : p 0 = false) (line : Line) :
    takeChars line p (rounds line) (0, cursorAt line none) =
      some ([], 0, cursorAt line none) := by
  simp [rounds, takeChars, hp]

/-! ### Numbers and names -/

theorem isDigit_zero : isDigit 0 = false := by decide

theorem specDigits_eq (hs : s <:+ text line) {p : UInt8 → Bool} (hp : p 0 = false)
    (shift : UInt32) :
    specDigits line shift p (tokenNextChar line (cursorAt line (some s))) =
      if (s.takeWhile p).length < stringMax then
        some (tokenSpecNumber shift (s.takeWhile p), (first (s.dropWhile p)).1,
          cursorAt line (first (s.dropWhile p)).2)
      else none := by
  rw [specDigits, takeChars_next hp hs, Option.bind_eq_bind, Option.bind_some]
  simp only [store, List.length_append, List.length_singleton, Nat.succ_le_iff]
  split_ifs <;> rfl

theorem numberEnd_cursor (hs : s <:+ text line) (value : UInt32) :
    (numberEnd (value, (first s).1, cursorAt line (first s).2)).2 =
      cursorAt line (scanSuffix s) := by
  rw [numberEnd]
  dsimp only
  rw [prev_first hs]
  cases s with
  | nil => rfl
  | cons c s =>
    rw [first_cons, scanSuffix]
    split_ifs <;> simp [unread]

theorem scanDigits_cursor (hs : s <:+ text line) {p : UInt8 → Bool} (hp : p 0 = false)
    (shift : UInt32) :
    (specDigits line shift p (tokenNextChar line (cursorAt line (some s)))).map
      (fun r => (numberEnd r).2) = (scanDigits p s).map (cursorAt line) := by
  rw [specDigits_eq hs hp, scanDigits]
  split_ifs
  · rw [Option.map_some, numberEnd_cursor (suffix_drop hs p)]
    rfl
  · rfl

theorem scanNumber_cursor (hs : c :: s <:+ text line) (hc : isDigit c = true) :
    (tokenProcNumber line (cursorAt line (some (c :: s)))).map Prod.snd =
      (scanNumber c s).map (cursorAt line) := by
  have hsub : s <:+ text line := (List.suffix_cons c s).trans hs
  rw [tokenProcNumber, Option.map_map, numberValue, next_cons hs, scanNumber]
  dsimp only [Function.comp_def]
  by_cases hzero : c = 48
  · rw [if_pos hzero, if_pos hzero]
    cases s with
    | nil =>
      have hdigits : specDigits line 3 isDigit (0, cursorAt line none) =
          some (0, 0, cursorAt line none) := by
        rw [specDigits, takeChars_none isDigit_zero]
        rfl
      rw [next_nil]
      dsimp only
      rw [if_neg (by decide), if_neg (by decide), hdigits]
      rfl
    | cons d r =>
      have hr : r <:+ text line := (List.suffix_cons d r).trans hsub
      have hoctal := scanDigits_cursor hsub isDigit_zero 3
      rw [next_cons hsub] at hoctal ⊢
      rw [scanBase]
      dsimp only
      split_ifs
      · exact scanDigits_cursor hr (by decide) 4
      · exact scanDigits_cursor hr (by decide) 1
      · exact hoctal
  · have htake := takeChars_next isDigit_zero hs
    rw [next_cons hs, List.dropWhile_cons_of_pos hc] at htake
    rw [if_neg hzero, if_neg hzero, htake, Option.map_some, Option.map_some,
      numberEnd_cursor (suffix_drop hsub _)]
    rfl

/-! ### Characters and strings -/

theorem charClose_cursor (hs : s <:+ text line) (ch : UInt8) :
    (charClose line (ch, cursorAt line (some s))).2.1 = cursorAt line (scanClose s) := by
  have hprev := prev_first hs
  rw [charClose]
  dsimp only
  rw [next_first hs]
  cases s with
  | nil => rfl
  | cons c s =>
    rw [first_cons] at hprev ⊢
    rw [scanClose]
    dsimp only at hprev ⊢
    split_ifs
    · rfl
    · rw [hprev]
      rfl

theorem charClose_unread (hs : s <:+ text line) (ch : UInt8) :
    (charClose line (ch, cursorAt line (unread s))).2.1 = cursorAt line (scanClose s) := by
  cases s with
  | nil => rfl
  | cons c s => exact charClose_cursor hs ch

theorem scanBackslash_cursor (hs : s <:+ text line) :
    (charEscape line (cursorAt line (some s))).map (fun r => (charClose line r).2.1) =
      (scanBackslash s).map (cursorAt line) := by
  cases s with
  | nil =>
    have hzero : charEscapes.lookup 0 = none := by decide
    simp only [charEscape, next_nil, hzero, takeChars_none isDigit_zero]
    rfl
  | cons d r =>
    have hr : r <:+ text line := (List.suffix_cons d r).trans hs
    have htake := takeChars_next isDigit_zero hs
    rw [next_cons hs] at htake
    simp only [charEscape, next_cons hs, scanBackslash]
    rcases hlookup : charEscapes.lookup d with _ | ch
    · simp only [htake, Option.isSome_none, Bool.false_eq_true, if_false, Option.bind_eq_bind,
        Option.bind_some, prev_first (suffix_drop hs isDigit), Nat.succ_le_succ_iff]
      split_ifs
      · exact congrArg some (charClose_unread (suffix_drop hs isDigit) 0)
      · rfl
    · simp [charClose_cursor hr]

theorem scanChar_cursor (hs : s <:+ text line) :
    (tokenProcChar line (cursorAt line (some s))).map (fun r => r.2.1) =
      (scanChar s).map (cursorAt line) := by
  rw [tokenProcChar, charValue, Option.map_map]
  cases s with
  | nil =>
    rw [next_nil]
    rfl
  | cons c s =>
    have hsub : s <:+ text line := (List.suffix_cons c s).trans hs
    rw [next_cons hs, scanChar]
    dsimp only
    split_ifs
    · exact scanBackslash_cursor hsub
    · simp [Function.comp_def, charClose_cursor hsub]

theorem scanEscape_cursor (hs : s <:+ text line) :
    (tokenProcEscape line (cursorAt line (some s))).map Prod.snd =
      some (cursorAt line (scanEscape s)) := by
  cases s with
  | nil =>
    have hzero : stringEscapes.lookup 0 = none := by decide
    simp only [tokenProcEscape, next_nil, hzero]
    rfl
  | cons d r =>
    have hr : r <:+ text line := (List.suffix_cons d r).trans hs
    have hhex := takeChars_next (p := isHex) (by decide) hr
    have hoctal := takeChars_next (p := isOctal) (by decide) hs
    have hhexEnd := prev_first (suffix_drop hr isHex)
    have hoctalEnd := prev_first (suffix_drop hs isOctal)
    rw [next_cons hs] at hoctal
    simp only [tokenProcEscape, next_cons hs, scanEscape]
    rcases hlookup : stringEscapes.lookup d with _ | ch
    · simp only [Option.isSome_none, Bool.false_eq_true, if_false]
      split_ifs
      · rw [hhex]
        simp [hhexEnd]
      · rw [hoctal]
        simp [hoctalEnd]
      · rfl
    · simp

/-- Behind the end no more is stored. -/
theorem tokenProcString_none (line : Line) (n : ℕ) (bytes : List UInt8) :
    (tokenProcString line n (cursorAt line none) bytes).map (fun r => r.2.1) =
      some (cursorAt line none) := by
  cases n with
  | zero => rfl
  | succ n => rfl

theorem scanString_cursor : ∀ (n : ℕ) {s : List UInt8} (bytes : List UInt8), s <:+ text line →
    ((tokenProcString line n (cursorAt line (some s)) bytes).map fun r => r.2.1) =
      some (cursorAt line (scanString n s))
  | 0, _, _, _ => by simp [tokenProcString, scanString]
  | n + 1, [], bytes, _ => by
    rw [tokenProcString, next_nil]
    rfl
  | n + 1, c :: s, bytes, hs => by
    have hsub : s <:+ text line := (List.suffix_cons c s).trans hs
    have heof : (cursorAt line (some s)).eof = false := rfl
    simp only [tokenProcString, next_cons hs, heof, scanString, Bool.false_eq_true, if_false]
    split_ifs
    · obtain ⟨⟨ch, c'⟩, hescape, hc'⟩ := Option.map_eq_some_iff.1 (scanEscape_cursor hsub)
      dsimp only at hc'
      rw [hescape, hc']
      rcases hrest : scanEscape s with _ | rest
      · exact tokenProcString_none line n _
      · exact scanString_cursor n _ ((scanEscape_suffix hrest).trans hsub)
    · rfl
    · exact scanString_cursor n _ hsub

/-- The bytes of a string have room. -/
theorem tokenProcString_length : ∀ (n : ℕ) {c : Cursor} {bytes : List UInt8}
    {r : List UInt8 × Cursor × Option FinshError}, tokenProcString line n c bytes = some r →
      r.1.length ≤ bytes.length + n
  | 0, c, bytes, r, h => by
    obtain rfl := Option.some.inj h
    exact le_rfl
  | n + 1, c, bytes, r, h => by
    rw [tokenProcString] at h
    dsimp only at h
    split_ifs at h
    · obtain rfl := Option.some.inj h
      exact Nat.le_add_right _ _
    · obtain ⟨⟨ch, c'⟩, _, hrest⟩ := Option.bind_eq_some_iff.1 h
      have := tokenProcString_length n hrest
      rw [List.length_append, List.length_singleton] at this
      omega
    · obtain rfl := Option.some.inj h
      dsimp only
      rw [List.length_append, List.length_singleton]
      omega
    · have := tokenProcString_length n h
      rw [List.length_append, List.length_singleton] at this
      omega

end Cursor

/-! ### One token -/

/-- What `token_run` does, when the text is cut in this way. -/
def Ran (line : Line) (result : Option FinshToken) : Option (Option (List UInt8)) → Prop
  | none => result = none
  | some none => ∃ t, result = some t ∧ t.cursor.position = 0 ∧ t.current ≠ none
  | some (some rest) => ∃ t, result = some t ∧ t.cursor = cursorAt line (some rest) ∧
    t.replay = false

section Run
variable {line : Line} {s r : List UInt8} {c : UInt8} {t : FinshToken}

/-- A token that is not the end of the line. -/
theorem Ran.of_cursor {r : Option (List UInt8)} {t' : FinshToken}
    (hcursor : t'.cursor = cursorAt line r) (hcurrent : r = none → t'.current ≠ none)
    (hreplay : t'.replay = false) : Ran line (some t') (some r) := by
  cases r with
  | none => exact ⟨t', rfl, by rw [hcursor]; rfl, hcurrent rfl⟩
  | some rest => exact ⟨t', rfl, hcursor, hreplay⟩

theorem lookup_none_of {α : Type} {table : List (UInt8 × α)} (h : ∀ e ∈ table, e.1 ≠ c) :
    table.lookup c = none := by
  rw [List.lookup_eq_none_iff]
  intro e he
  simpa using (h e he).symm

theorem double_alone {double alone : Option Token} (h : doubles.lookup c = some (double, alone)) :
    alone ≠ none ∧ c ≠ 0 := by
  have hall : ∀ e ∈ doubles, e.2.2 ≠ none ∧ e.1 ≠ 0 := by decide
  obtain ⟨front, back, htable, _⟩ := List.lookup_eq_some_iff.1 h
  exact hall (c, double, alone) (by simp [htable])

theorem tokenOperator_sign (hs : c :: s <:+ text line)
    (hcursor : t.cursor = cursorAt line (some (c :: s))) (hreplay : t.replay = false)
    (hc : isDigit c = false) : Ran line (tokenOperator line t) (scanSign c s) := by
  have hsub : s <:+ text line := (List.suffix_cons c s).trans hs
  simp only [tokenOperator, hcursor, next_cons hs, scanSign]
  rcases hsingle : singles.lookup c with _ | token
  · rcases hdouble : doubles.lookup c with _ | ⟨double, alone⟩
    · simp only [Option.isSome_none, Bool.false_eq_true, if_false, hc]
      split_ifs
      · have hchar := scanChar_cursor hsub
        rcases hproc : tokenProcChar line (cursorAt line (some s)) with _ | ⟨ch, c', error⟩
        · rw [hproc] at hchar
          obtain hscan := Option.map_eq_none_iff.1 hchar.symm
          rw [hscan]
          rfl
        · rw [hproc] at hchar
          obtain ⟨r, hscan, hr⟩ := Option.map_eq_some_iff.1 hchar.symm
          rw [hscan]
          exact Ran.of_cursor hr.symm (fun _ => by simp) hreplay
      · obtain ⟨⟨bytes, c', error⟩, hproc, hr⟩ :=
          Option.map_eq_some_iff.1 (scanString_cursor stringMax [] hsub)
        have hlen := tokenProcString_length stringMax hproc
        rw [List.length_nil, zero_add] at hlen
        rw [hproc, Option.bind_eq_bind, Option.bind_some]
        dsimp only
        rw [store, if_pos hlen]
        exact Ran.of_cursor hr (fun _ => by simp) hreplay
      · exact Ran.of_cursor rfl (fun h => by cases h) hreplay
    · obtain ⟨halone, hzero⟩ := double_alone hdouble
      simp only [Option.isSome_none, Option.isSome_some, Bool.false_eq_true, if_false, if_true]
      cases s with
      | nil =>
        rw [next_nil]
        dsimp only
        rw [if_neg hzero.symm]
        exact Ran.of_cursor rfl (fun _ => halone) hreplay
      | cons d r =>
        have hprev := prev_first hsub
        rw [first_cons] at hprev
        rw [next_cons hsub, scanDouble]
        dsimp only at hprev ⊢
        split_ifs
        · exact Ran.of_cursor rfl (fun h => by cases h) hreplay
        · exact Ran.of_cursor hprev (fun h => by cases h) hreplay
  · simp only [Option.isSome_some, if_true]
    exact Ran.of_cursor rfl (fun h => by cases h) hreplay

/-- No digit is in the tables. -/
theorem digit_lookup (hc : isDigit c = true) :
    singles.lookup c = none ∧ doubles.lookup c = none ∧ c ≠ charQuote ∧ c ≠ charDoubleQuote := by
  have hsingles : ∀ e ∈ singles, isDigit e.1 = false := by decide
  have hdoubles : ∀ e ∈ doubles, isDigit e.1 = false := by decide
  refine ⟨lookup_none_of ?_, lookup_none_of ?_, ?_, ?_⟩
  · rintro e he rfl
    simp [hsingles e he] at hc
  · rintro e he rfl
    simp [hdoubles e he] at hc
  · rintro rfl
    exact absurd hc (by decide)
  · rintro rfl
    exact absurd hc (by decide)

theorem tokenOperator_number (hs : c :: s <:+ text line)
    (hcursor : t.cursor = cursorAt line (some (c :: s))) (hreplay : t.replay = false)
    (hc : isDigit c = true) : Ran line (tokenOperator line t) (scanNumber c s) := by
  have hprev := prev_first hs
  have hnumber := scanNumber_cursor hs hc
  obtain ⟨hsingle, hdouble, hquote, hstring⟩ := digit_lookup hc
  simp only [first_cons, unread, reduceCtorEq, if_false] at hprev
  simp only [tokenOperator, hcursor, next_cons hs, hsingle, hdouble, hquote, hstring, if_false, hc,
    if_true, hprev]
  rcases hproc : tokenProcNumber line (cursorAt line (some (c :: s))) with _ | ⟨token, c'⟩
  · rw [hproc] at hnumber
    rw [Option.map_eq_none_iff.1 hnumber.symm]
    rfl
  · rw [hproc] at hnumber
    obtain ⟨r, hscan, hr⟩ := Option.map_eq_some_iff.1 hnumber.symm
    rw [hscan]
    exact Ran.of_cursor hr.symm (fun _ => by simp) hreplay

/-! ### Names -/

theorem tokenTrimSpace_eq (hs : s <:+ text line) :
    tokenTrimSpace line (cursorAt line (some s)) = some (cursorAt line (unread (trim s))) := by
  rw [tokenTrimSpace, takeChars_next (by decide) hs, Option.map_some,
    prev_first (suffix_drop hs isBlank)]
  rfl

theorem cstring_store {name array array' : List UInt8} (hname : 0 ∉ name)
    (h : store (name ++ [0]) array = some array') : cstring array' = name := by
  rw [store] at h
  split_ifs at h
  obtain rfl := Option.some.inj h
  rw [cstring, List.append_assoc, List.takeWhile_append_of_pos]
  · simp
  · intro c hc
    simpa using ne_of_mem_of_not_mem hc hname

/-- What `token_get_string` does where there is something. -/
theorem tokenGetString_eq (hs : c :: s <:+ text line) (hc : isDigit c = false)
    (string : List UInt8) :
    tokenGetString line (cursorAt line (some (c :: s))) string =
      (store ((c :: s).takeWhile isName ++ [0]) string).map fun string =>
        (match (c :: s).dropWhile isName with
          | [] => ⟨false, 0⟩
          | d :: r => cursorAt line (some (d :: r)), string) := by
  have htake := takeChars_next (p := isName) (by decide) hs
  have hprev := prev_first (suffix_drop hs isName)
  have heof : (cursorAt line (some s)).eof = false := rfl
  rw [next_cons hs] at htake
  simp only [tokenGetString, next_cons hs, heof, hc, Bool.false_eq_true, if_false, htake,
    Option.bind_eq_bind, Option.bind_some]
  rcases hrest : (c :: s).dropWhile isName with _ | ⟨d, r⟩
  · cases store ((c :: s).takeWhile isName ++ [0]) string <;> rfl
  · rw [hrest, first_cons, unread, if_neg (List.cons_ne_nil d r)] at hprev
    have hcursor : ({ cursorAt line (first (d :: r)).2 with eof := false } : Cursor) =
        cursorAt line (some r) := rfl
    rw [hcursor, hprev]
    cases store ((c :: s).takeWhile isName ++ [0]) string <;> rfl

/-- `token_get_string` at a digit. -/
theorem tokenGetString_digit (hs : c :: s <:+ text line) (hc : isDigit c = true)
    (string : List UInt8) :
    tokenGetString line (cursorAt line (some (c :: s))) string =
      some (cursorAt line (some (c :: s)), [0] ++ string.drop 1) := by
  have hprev := prev_first hs
  have heof : (cursorAt line (some s)).eof = false := rfl
  simp only [first_cons, unread, reduceCtorEq, if_false] at hprev
  simp only [tokenGetString, next_cons hs, heof, hc, Bool.false_eq_true, if_false, if_true, hprev]
  rfl

/-- Behind the end there is no token. -/
theorem tokenRun_none (hcursor : t.cursor = cursorAt line none) :
    tokenRun line t = some { t with current := none } := by
  have htrim : tokenTrimSpace line (cursorAt line none) = some (cursorAt line none) := by
    rw [tokenTrimSpace, next_none, takeChars_none (by decide)]
    rfl
  have heof : (cursorAt line none).eof = true := rfl
  rw [tokenRun, hcursor, htrim]
  simp only [Option.bind_eq_bind, Option.bind_some, tokenGetString, next_none, heof, if_true]

theorem tokenRun_nil (hs : s <:+ text line) (hcursor : t.cursor = cursorAt line (some s))
    (htrim : trim s = []) :
    tokenRun line t = some { t with cursor := cursorAt line none, current := none } := by
  have heof : (cursorAt line none).eof = true := rfl
  rw [tokenRun, hcursor, tokenTrimSpace_eq hs, htrim]
  simp only [Option.bind_eq_bind, Option.bind_some, tokenGetString, unread, if_true, next_none,
    heof]

theorem isName_ne_zero {s : List UInt8} : 0 ∉ s.takeWhile isName := by
  intro h
  exact absurd (List.mem_takeWhile_imp h) (by decide)

theorem tokenRun_name (hreplay : t.replay = false)
    (hc : isName c = true) {string : List UInt8}
    (hstore : store ((c :: r).takeWhile isName ++ [0]) t.string = some string) {cursor : Cursor}
    (hcursor : cursor = match (c :: r).dropWhile isName with
      | [] => ⟨false, 0⟩
      | d :: r => cursorAt line (some (d :: r))) :
    Ran line (if cursor.eof = true then some { t with cursor, string, current := none }
      else if cstring string = [] then tokenOperator line { t with cursor, string }
      else some { t with cursor, string, current := some (tokenMatchName (cstring string)) })
      (some (unread ((c :: r).dropWhile isName))) := by
  have hname : cstring string ≠ [] := by
    rw [cstring_store isName_ne_zero hstore, List.takeWhile_cons_of_pos hc]
    exact List.cons_ne_nil _ _
  rcases hrest : (c :: r).dropWhile isName with _ | ⟨d, r'⟩
  · rw [hrest] at hcursor
    subst hcursor
    simp only [Bool.false_eq_true, if_false, if_neg hname, unread, if_true]
    exact ⟨_, rfl, rfl, by simp⟩
  · rw [hrest] at hcursor
    subst hcursor
    simp only [cursorAt, Bool.false_eq_true, if_false, if_neg hname, unread, reduceCtorEq]
    exact ⟨_, rfl, rfl, hreplay⟩

theorem tokenRun_cons (hs : s <:+ text line) (hcursor : t.cursor = cursorAt line (some s))
    (hreplay : t.replay = false) (htrim : trim s = c :: r) :
    Ran line (tokenRun line t) (scan (c :: r)) := by
  have hsub : c :: r <:+ text line := htrim ▸ suffix_drop hs isBlank
  have heof : (cursorAt line (some (c :: r))).eof = false := rfl
  rw [tokenRun, hcursor, tokenTrimSpace_eq hs, htrim, scan]
  simp only [Option.bind_eq_bind, Option.bind_some, unread, reduceCtorEq, if_false]
  cases hdigit : isDigit c with
  | true =>
    have hempty : cstring ([0] ++ t.string.drop 1) = [] := rfl
    simp only [tokenGetString_digit hsub hdigit, Option.bind_some, heof, Bool.false_eq_true,
      if_false, hempty, if_true]
    exact tokenOperator_number hsub rfl hreplay hdigit
  | false =>
    simp only [tokenGetString_eq hsub hdigit, Bool.false_eq_true, if_false]
    cases hname : isName c with
    | true =>
      have hroom : ((c :: r).takeWhile isName ++ [0]).length ≤ stringMax ↔
          ((c :: r).takeWhile isName).length < stringMax := by
        rw [List.length_append, List.length_singleton, Nat.succ_le_iff]
      rw [if_pos rfl, scanName]
      rcases hstore : store ((c :: r).takeWhile isName ++ [0]) t.string with _ | string
      · rw [store] at hstore
        split_ifs at hstore with hlong
        rw [if_neg (mt hroom.2 hlong)]
        rfl
      · have hstore' := hstore
        rw [store] at hstore'
        split_ifs at hstore' with hshort
        rw [if_pos (hroom.1 hshort), Option.map_some, Option.bind_some]
        exact tokenRun_name hreplay hname hstore rfl
    | false =>
      have htake : (c :: r).takeWhile isName = [] := List.takeWhile_cons_of_neg (by simp [hname])
      have hdrop : (c :: r).dropWhile isName = c :: r :=
        List.dropWhile_cons_of_neg (by simp [hname])
      have hstore : store ([] ++ [0]) t.string = some ([0] ++ t.string.drop 1) := rfl
      have hempty : cstring ([0] ++ t.string.drop 1) = [] := rfl
      rw [htake, hdrop, hstore]
      simp only [Option.map_some, Option.bind_some, heof, Bool.false_eq_true, if_false, hempty,
        if_true]
      exact tokenOperator_sign hsub rfl hreplay hdigit

end Run

end EasyCore.Finsh.Lexer
