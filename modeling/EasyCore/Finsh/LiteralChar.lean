import EasyCore.Finsh.Literal

/-! The numbers and the character constants that `finsh_token.c` reads as C does. A character behind a
    backslash is one of a table, and else the value of what `atoi` finds behind the digits: 0.

        '\n'   in the table
        '\101' the digits are gone over, and the value is 0
        '\x41' the x is no digit: no quote is found -/

namespace EasyCore.Finsh.Lexer
open Hex

/-! ### A line to read -/

/-- No character of a line is a NUL or a line feed. -/
def Clean (s : List UInt8) : Prop := ∀ c ∈ s, c ≠ 0 ∧ c ≠ charLf

theorem clean_table (c : UInt8) (h : isName c = true ∨ (cEscapes.lookup c).isSome = true) :
    c ≠ 0 ∧ c ≠ charLf := by
  constructor <;> rintro rfl <;> revert h <;> decide

theorem CChar.Ok.clean {quote : UInt8} : ∀ {c : CChar}, c.Ok quote → Clean c.text
  | .plain c, h, d, hd => by
    rw [List.mem_singleton.1 hd]
    exact ⟨h.2.2.2, h.2.2.1⟩
  | .simple e, h, d, hd => by
    rcases List.mem_cons.1 hd with rfl | hd
    · decide
    · rw [List.mem_singleton.1 hd]
      exact clean_table e (.inr h)
  | .octal ds, h, d, hd => by
    rcases List.mem_cons.1 hd with rfl | hd
    · decide
    · exact clean_table d (.inl (isDigit_hex d (isOctal_hex d (h.2.2.1 d hd)).2.1).2.1)
  | .hex ds, h, d, hd => by
    rcases List.mem_cons.1 hd with rfl | hd
    · decide
    rcases List.mem_cons.1 hd with rfl | hd
    · decide
    · exact clean_table d (.inl (isHexDigit_name d (h.2.1 d hd)).2)

theorem Radix.clean {radix : Radix} {digits : List UInt8} (hok : radix.Ok digits)
    (hd : ∀ d ∈ digits, radix.IsDigit d) : Clean (radix.lead ++ digits) := by
  intro c hc
  rcases List.mem_append.1 hc with h | h
  · cases radix with
    | decimal => cases h
    | octal =>
      rw [List.mem_singleton.1 h]
      decide
    | hex x =>
      rcases hok.1 with rfl | rfl
      all_goals
        simp only [lead, List.mem_cons, List.not_mem_nil, or_false] at h
        rcases h with rfl | rfl <;> decide
    | binary b =>
      rcases hok.1 with rfl | rfl
      all_goals
        simp only [lead, List.mem_cons, List.not_mem_nil, or_false] at h
        rcases h with rfl | rfl <;> decide
  · refine clean_table c (.inl ?_)
    have hdigit := hd c h
    cases radix with
    | decimal => exact (isDigit_hex c hdigit).2.1
    | octal => exact (isDigit_hex c (isOctal_hex c hdigit).2.1).2.1
    | hex x => exact (isHexDigit_name c hdigit).2
    | binary b => exact (isHexDigit_name c (binary_table c hdigit).2.1).2

namespace Literal
variable {lit : Literal} {rest : List UInt8}

theorem Ok.clean (hok : lit.Ok rest) : Clean (lit.text ++ rest) := by
  intro c hc
  rcases List.mem_append.1 hc with h | h
  · obtain ⟨-, hwell⟩ := hok
    cases lit with
    | number radix digits suffix =>
      obtain ⟨hradix, hd, hsuffix, -⟩ := hwell
      rw [text, ← List.append_assoc] at h
      rcases List.mem_append.1 h with h | h
      · exact Radix.clean hradix hd c h
      · rcases hsuffix c (Option.mem_toList.1 h) with rfl | rfl
        · decide
        · decide
    | char x =>
      rcases List.mem_cons.1 h with rfl | h
      · decide
      rcases List.mem_append.1 h with h | h
      · exact CChar.Ok.clean hwell c h
      · rw [List.mem_singleton.1 h]
        decide
    | string cs =>
      rcases List.mem_cons.1 h with rfl | h
      · decide
      rcases List.mem_append.1 h with h | h
      · obtain ⟨x, hx, hcx⟩ := List.mem_flatMap.1 h
        exact CChar.Ok.clean (hwell.1 x hx) c hcx
      · rw [List.mem_singleton.1 h]
        decide
  · exact hok.line c h

/-- A line that starts with the literal, and the lexer at its start. -/
theorem Ok.exists_start (hok : lit.Ok rest) : ∃ (line : Line) (t : FinshToken),
    t.string.length = stringMax ∧ t.errno = none ∧ lit.text ++ rest <:+ Lexer.text line ∧
      t.cursor = cursorAt line (some (lit.text ++ rest)) := by
  have hclean := hok.clean
  have htext : Lexer.text ⟨lit.text ++ rest, fun h => (hclean 0 h).1 rfl⟩ = lit.text ++ rest :=
    List.takeWhile_eq_self_iff.2 fun c hc => by simpa using (hclean c hc).2
  refine ⟨⟨lit.text ++ rest, fun h => (hclean 0 h).1 rfl⟩, finshTokenInit none, ?_, rfl, ?_, ?_⟩
  · exact List.length_replicate
  · rw [htext]
  · rw [cursorAt, htext, Nat.sub_self]
    rfl

end Literal

/-! ### Numbers -/

section Numbers
variable {radix : Radix} {digits rest : List UInt8} {suffix : Option UInt8}

/-- The lexer reads a number as C does: the value fits, and it is not a hexadecimal one with a suffix. -/
def Radix.Sound (digits : List UInt8) (suffix : Option UInt8) (radix : Radix) : Prop :=
  numberIn radix.base digits < (if radix = .decimal then 2 ^ 31 else 2 ^ 32) ∧
    ∀ x, radix = .hex x → suffix = none

theorem number_yields_iff (hok : (Literal.number radix digits suffix).Ok rest)
    (hshort : (Literal.number radix digits suffix).Short) :
    Yields (.number radix digits suffix) rest ↔ radix.Sound digits suffix := by
  have hsplit : (Literal.number radix digits suffix).text ++ rest =
      radix.lead ++ (digits ++ (suffix.toList ++ rest)) := by
    rw [Literal.text, List.append_assoc, List.append_assoc]
  obtain ⟨hradix, hd, hsuffix, hrest⟩ := hok.wellFormed
  constructor
  · intro hall
    obtain ⟨line, t, hlen, -, hs, hcursor⟩ := hok.exists_start
    obtain ⟨t', hrun, ⟨w, hcurrent, hnat, hdecimal⟩, -⟩ := hall line t hlen hs hcursor
    rw [hsplit] at hs hcursor
    have hhex : ∀ x, radix = .hex x → suffix = none := by
      rintro x rfl
      by_contra hne
      obtain ⟨l, rfl⟩ := Option.ne_none_iff_exists'.1 hne
      obtain ⟨w', hint⟩ := hex_suffix_token hradix.1 hd (hsuffix l rfl) hrest hs hcursor hrun
      rw [hcurrent, if_neg (by simp)] at hint
      cases hint
    obtain ⟨value, c', hrun', hvalue, -⟩ :=
      number_token hradix hd hsuffix hrest hshort hhex hs hcursor
    obtain rfl := Option.some.inj (hrun'.symm.trans hrun)
    have hsame : value = w := by
      have heq := Option.some.inj hcurrent
      by_cases hn : suffix = none
      · rw [if_pos hn, if_pos hn] at heq
        exact Token.valueInt.inj heq
      · rw [if_neg hn, if_neg hn] at heq
        exact Token.valueLong.inj heq
    rw [hsame, hnat] at hvalue
    refine ⟨?_, hhex⟩
    split_ifs with h
    · exact hdecimal h
    · rw [hvalue]
      exact Nat.mod_lt _ (by decide)
  · rintro ⟨hlt, hhex⟩ line t - hs hcursor
    rw [hsplit] at hs hcursor
    obtain ⟨value, c', hrun, hvalue, hbefore⟩ :=
      number_token hradix hd hsuffix hrest hshort hhex hs hcursor
    have hfits : numberIn radix.base digits < 2 ^ 32 := by
      split_ifs at hlt
      · exact hlt.trans (by decide)
      · exact hlt
    refine ⟨_, hrun, ⟨value, rfl, ?_, fun h => ?_⟩, rfl, hbefore⟩
    · rw [hvalue, Nat.mod_eq_of_lt hfits]
    · rwa [if_pos h] at hlt

end Numbers

/-! ### Character constants -/

section Chars
variable {line : Line} {t : FinshToken} {d e : UInt8} {r rest digits : List UInt8} {c : CChar}

/-- The lexer reads a character constant as C does: it is no escape, or one of its table, or octal for
    0. -/
def CChar.CharSound : CChar → Prop
  | plain _ => True
  | simple e => (charEscapes.lookup e).isSome
  | octal ds => numberIn 8 ds = 0
  | hex _ => False

theorem tokenRun_char (hs : charQuote :: r <:+ text line)
    (hcursor : t.cursor = cursorAt line (some (charQuote :: r))) :
    tokenRun line t = (tokenProcChar line (cursorAt line (some r))).map fun q =>
      { t with
        string := [0] ++ t.string.drop 1, cursor := q.2.1, current := some (.valueChar q.1)
        errno := q.2.2.or t.errno } := by
  have hsingle : singles.lookup charQuote = none := by decide
  have hdouble : doubles.lookup charQuote = none := by decide
  rw [tokenRun_operator hs hcursor (by decide) (.inr (by decide))]
  simp only [tokenOperator, hcursor, next_cons hs, hsingle, hdouble, if_true]

theorem charClose_quote (hs : charQuote :: r <:+ text line) (ch : UInt8) :
    charClose line (ch, cursorAt line (some (charQuote :: r))) = (ch, cursorAt line (some r), none) := by
  rw [charClose]
  dsimp only
  rw [next_cons hs]
  exact if_pos rfl

theorem charClose_other (hs : d :: r <:+ text line) (hd : d ≠ charQuote) (ch : UInt8) :
    (charClose line (ch, cursorAt line (some (d :: r)))).2.2 = some .expectChar := by
  rw [charClose]
  dsimp only
  rw [next_cons hs, if_neg hd]

theorem charEscape_lookup (hs : e :: r <:+ text line) (he : charEscapes.lookup e = some d) :
    charEscape line (cursorAt line (some (e :: r))) = some (d, cursorAt line (some r)) := by
  rw [charEscape, next_cons hs]
  dsimp only
  rw [he]

/-- A character that is not in the table: digits are gone over. -/
theorem charEscape_digits (hs : d :: r <:+ text line) (hlookup : charEscapes.lookup d = none)
    (hshort : ((d :: r).takeWhile isDigit).length ≤ 3) :
    charEscape line (cursorAt line (some (d :: r))) =
      some (0, cursorAt line (unread ((d :: r).dropWhile isDigit))) := by
  have htake := takeChars_next isDigit_zero hs
  rw [next_cons hs] at htake
  simp only [charEscape, next_cons hs, hlookup, htake, Option.bind_eq_bind, Option.bind_some,
    prev_first (suffix_drop hs isDigit)]
  exact if_pos (Nat.succ_le_succ hshort)

/-- A backslash. -/
theorem tokenProcChar_escape (hs : charBackslash :: r <:+ text line) :
    tokenProcChar line (cursorAt line (some (charBackslash :: r))) =
      (charEscape line (cursorAt line (some r))).map (charClose line) := by
  rw [tokenProcChar, charValue, next_cons hs]
  dsimp only
  rw [if_pos rfl]

/-- Behind the backslash comes neither a digit nor a character of the table: no quote is found. -/
theorem tokenProcChar_bad (hs : charBackslash :: d :: r <:+ text line)
    (hlookup : charEscapes.lookup d = none) (hd : isDigit d = false) (hquote : d ≠ charQuote) :
    ∃ q, tokenProcChar line (cursorAt line (some (charBackslash :: d :: r))) = some q ∧
      q.2.2 = some .expectChar := by
  have hsub : d :: r <:+ text line := (List.suffix_cons _ _).trans hs
  have hneg : ¬ isDigit d = true := by simp [hd]
  have htake : (d :: r).takeWhile isDigit = [] := List.takeWhile_cons_of_neg hneg
  have hdrop : (d :: r).dropWhile isDigit = d :: r := List.dropWhile_cons_of_neg hneg
  have hescape := charEscape_digits hsub hlookup (by rw [htake]; exact Nat.zero_le _)
  rw [hdrop, unread, if_neg (List.cons_ne_nil _ _)] at hescape
  refine ⟨_, ?_, charClose_other hsub hquote 0⟩
  rw [tokenProcChar_escape hs, hescape]
  rfl

theorem charEscapes_value (e : UInt8) (h : (charEscapes.lookup e).isSome = true) :
    charEscapes.lookup e = some ((cEscapes.lookup e).getD 0) := by
  have hkey := List.lookup_isSome_iff.1 h
  simp only [charEscapes, List.mem_cons, List.not_mem_nil, or_false, exists_eq_or_imp, exists_eq_left,
    beq_iff_eq] at hkey
  rcases hkey with rfl | rfl | rfl | rfl | rfl | rfl | rfl <;> rfl

/-- The letters of the escapes. -/
theorem escape_cases {e : UInt8} (h : (cEscapes.lookup e).isSome = true) :
    e = 110 ∨ e = 116 ∨ e = 118 ∨ e = 98 ∨ e = 114 ∨ e = 102 ∨ e = 97 ∨ e = 92 ∨ e = 39 ∨ e = 34 := by
  have hkey := List.lookup_isSome_iff.1 h
  simpa only [cEscapes, List.mem_cons, List.not_mem_nil, or_false, exists_eq_or_imp, exists_eq_left,
    beq_iff_eq] using hkey

theorem cEscapes_table (e : UInt8) (h : (cEscapes.lookup e).isSome = true)
    (hnone : charEscapes.lookup e = none) : isDigit e = false ∧ e ≠ charQuote := by
  constructor
  · rcases escape_cases h with rfl | rfl | rfl | rfl | rfl | rfl | rfl | rfl | rfl | rfl <;> decide
  · rintro rfl
    cases hnone

theorem isDigit_lookup (d : UInt8) (h : isDigit d = true) : charEscapes.lookup d = none := by
  refine List.lookup_eq_none_iff.2 fun p hp => bne_iff_ne.2 fun hd => ?_
  subst hd
  simp only [charEscapes, List.mem_cons, List.not_mem_nil, or_false] at hp
  rcases hp with rfl | rfl | rfl | rfl | rfl | rfl | rfl <;> revert h <;> decide

/-- What `token_proc_char` makes of a character constant: its value, or 0; or it finds no quote. -/
theorem tokenProcChar_eq (hc : c.Ok charQuote) (hs : c.text ++ charQuote :: rest <:+ text line) :
    ∃ q, tokenProcChar line (cursorAt line (some (c.text ++ charQuote :: rest))) = some q ∧
      ((q = (c.value, cursorAt line (some rest), none) ∧ c.CharSound) ∨
        ((q.1 ≠ c.value ∨ q.2.2 = some .expectChar) ∧ ¬ c.CharSound)) := by
  have hquote : charQuote :: rest <:+ text line := (List.suffix_append c.text _).trans hs
  cases c with
  | plain c =>
    have hs' : c :: charQuote :: rest <:+ text line := hs
    refine ⟨(c, cursorAt line (some rest), none), ?_, .inl ⟨rfl, trivial⟩⟩
    rw [CChar.text, List.singleton_append, tokenProcChar, charValue, next_cons hs']
    dsimp only
    rw [if_neg hc.2.1, Option.map_some, charClose_quote hquote]
  | simple e =>
    have hs' : charBackslash :: e :: charQuote :: rest <:+ text line := hs
    have htext : CChar.text (.simple e) ++ charQuote :: rest =
        charBackslash :: e :: charQuote :: rest := rfl
    rw [htext]
    by_cases he : (charEscapes.lookup e).isSome = true
    · refine ⟨_, ?_, .inl ⟨rfl, he⟩⟩
      rw [tokenProcChar_escape hs', charEscape_lookup ((List.suffix_cons _ _).trans hs')
        (charEscapes_value e he), Option.map_some, charClose_quote hquote]
      rfl
    · have hnone := Option.not_isSome_iff_eq_none.1 he
      obtain ⟨hdigit, hne⟩ := cEscapes_table e hc hnone
      obtain ⟨q, hq, herr⟩ := tokenProcChar_bad hs' hnone hdigit hne
      exact ⟨q, hq, .inr ⟨.inr herr, he⟩⟩
  | octal ds =>
    obtain ⟨hne, hlen, hd, hlt⟩ := hc
    have hdigits : ∀ d ∈ ds, isDigit d = true := fun d h => (isOctal_hex d (hd d h)).2.1
    obtain ⟨htake, hdrop⟩ := span_run (p := isDigit) (s := charQuote :: rest) hdigits (by
      rintro c ⟨⟩
      decide)
    obtain ⟨d, ds', rfl⟩ := List.exists_cons_of_ne_nil hne
    have hs' : charBackslash :: d :: (ds' ++ charQuote :: rest) <:+ text line := hs
    have hescape := charEscape_digits ((List.suffix_cons _ _).trans hs')
      (isDigit_lookup d (hdigits d List.mem_cons_self)) (by
        rw [← List.cons_append, htake]
        exact hlen)
    rw [← List.cons_append, hdrop, unread, if_neg (List.cons_ne_nil _ _)] at hescape
    have hrun : tokenProcChar line (cursorAt line (some (CChar.text (.octal (d :: ds')) ++
        charQuote :: rest))) = some (0, cursorAt line (some rest), none) := by
      have htext : CChar.text (.octal (d :: ds')) ++ charQuote :: rest =
          charBackslash :: d :: (ds' ++ charQuote :: rest) := rfl
      rw [htext, tokenProcChar_escape hs', ← List.cons_append, hescape, Option.map_some,
        charClose_quote hquote]
    refine ⟨_, hrun, ?_⟩
    by_cases hzero : numberIn 8 (d :: ds') = 0
    · refine .inl ⟨?_, hzero⟩
      rw [CChar.value, hzero]
      rfl
    · refine .inr ⟨.inl fun h => hzero ?_, hzero⟩
      have hnat := congrArg UInt8.toNat h
      rw [CChar.value, UInt8.toNat_ofNat_of_lt' (by exact hlt)] at hnat
      exact hnat.symm
  | hex ds =>
    have hs' : charBackslash :: 120 :: (ds ++ charQuote :: rest) <:+ text line := hs
    obtain ⟨q, hq, herr⟩ := tokenProcChar_bad hs' (by decide) (by decide) (by decide)
    exact ⟨q, hq, .inr ⟨.inr herr, id⟩⟩

theorem char_yields_iff (hok : (Literal.char c).Ok rest) : Yields (.char c) rest ↔ c.CharSound := by
  have hsplit : (Literal.char c).text ++ rest = charQuote :: (c.text ++ charQuote :: rest) := by
    rw [Literal.text, List.cons_append, List.append_assoc, List.singleton_append]
  constructor
  · intro hall
    obtain ⟨line, t, hlen, herrno, hs, hcursor⟩ := hok.exists_start
    obtain ⟨t', hrun, hmeans, herrno', -⟩ := hall line t hlen hs hcursor
    rw [hsplit] at hs hcursor
    obtain ⟨q, hq, ⟨-, hsound⟩ | ⟨hbad, -⟩⟩ :=
      tokenProcChar_eq hok.wellFormed ((List.suffix_cons _ _).trans hs)
    · exact hsound
    · rw [tokenRun_char hs hcursor, hq] at hrun
      obtain rfl := Option.some.inj hrun
      rcases hbad with hvalue | herr
      · exact absurd (Token.valueChar.inj (Option.some.inj hmeans)) hvalue
      · dsimp only at herrno'
        rw [herr, herrno] at herrno'
        cases herrno'
  · rintro hsound line t - hs hcursor
    rw [hsplit] at hs hcursor
    obtain ⟨q, hq, ⟨rfl, -⟩ | ⟨-, hnot⟩⟩ :=
      tokenProcChar_eq hok.wellFormed ((List.suffix_cons _ _).trans hs)
    · have hrun := tokenRun_char hs hcursor
      rw [hq, Option.map_some] at hrun
      exact ⟨_, hrun, rfl, rfl, .inl rfl⟩
    · exact absurd hsound hnot

end Chars

end EasyCore.Finsh.Lexer
