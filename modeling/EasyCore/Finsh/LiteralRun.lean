import EasyCore.Finsh.LiteralString

/-! The literals of a line: which ones the lexer of `finsh_token.c` reads as C does, and which tokens do
    not fit its arrays.

        string[128]   a name, a string
        buf[128]      the digits of a number that starts with a 0
        buf[4]        the digits behind the backslash of a character -/

namespace EasyCore.Finsh.Lexer
open Hex

section Strings
variable {line : Line} {t : FinshToken} {cs : List CChar} {r rest : List UInt8}

theorem clear_table (d : UInt8) (h : isDigit d = true ∨ isHexDigit d = true) :
    d ≠ charDoubleQuote ∧ d ≠ charBackslash := by
  constructor <;> rintro rfl <;> revert h <;> decide

/-- A string is stored as `stored` says; on the number of its characters. -/
theorem string_stores : ∀ (n : ℕ) {cs : List CChar}, cs.length ≤ n →
    (∀ x ∈ cs, x.Ok charDoubleQuote) → textOf cs ++ charDoubleQuote :: rest <:+ text line →
    Stores line rest (cursorAt line (some (textOf cs ++ charDoubleQuote :: rest))) (stored cs)
  | _, [], _, _, hs => by
    rw [stored]
    exact stores_end hs
  | 0, x :: cs, hn, _, _ => absurd hn (by simp)
  | n + 1, x :: cs, hn, hok, hs => by
    have hlen : cs.length ≤ n := by simpa using hn
    have hrest : ∀ y ∈ cs, y.Ok charDoubleQuote := fun y hy => hok y (List.mem_cons_of_mem _ hy)
    have hx := hok x List.mem_cons_self
    have hlt : ∀ s : List UInt8, rest.length ≤ (s ++ charDoubleQuote :: rest).length := fun s => by
      rw [List.length_append, List.length_cons]
      omega
    have hdrop : ∀ p : UInt8 → Bool,
        textOf (cs.dropWhile (CChar.isPlain p)) ++ charDoubleQuote :: rest <:+ text line →
        Stores line rest (cursorAt line (some (textOf (cs.dropWhile (CChar.isPlain p)) ++
          charDoubleQuote :: rest))) (stored (cs.dropWhile (CChar.isPlain p))) := fun p hsub =>
      string_stores n ((List.dropWhile_suffix _).length_le.trans hlen)
        (fun y hy => hrest y ((List.dropWhile_suffix _).subset hy)) hsub
    cases x with
    | plain c =>
      have hs' : c :: (textOf cs ++ charDoubleQuote :: rest) <:+ text line := hs
      rw [stored]
      exact stores_plain hs' (hlt _) hx.1 hx.2.1
        (string_stores n hlen hrest ((List.suffix_cons _ _).trans hs'))
    | simple e =>
      have hs' : charBackslash :: e :: (textOf cs ++ charDoubleQuote :: rest) <:+ text line := hs
      have hsub := (List.suffix_cons _ _).trans hs'
      rw [stored]
      exact stores_escape hs' ((hlt _).trans (Nat.le_succ _)) (simple_escape hsub hx)
        (string_stores n hlen hrest ((List.suffix_cons _ _).trans hsub))
    | octal ds =>
      obtain ⟨d, ds', rfl⟩ := List.exists_cons_of_ne_nil hx.1
      have hoctal : ∀ e ∈ d :: ds', isOctal e = true := hx.2.2.1
      have hs' : charBackslash :: (d :: ds' ++ (textOf cs ++ charDoubleQuote :: rest)) <:+ text line := by
        rw [← List.append_assoc]
        exact hs
      have hsub := (List.suffix_cons _ _).trans hs'
      obtain ⟨htake, hdrop'⟩ := @span_text rest isOctal (by decide) (by decide) cs
      have hescape : tokenProcEscape line (cursorAt line (some (d :: ds' ++
            (textOf cs ++ charDoubleQuote :: rest)))) =
          some (escapeValue 8 ((d :: ds' ++ (textOf cs ++ charDoubleQuote :: rest)).takeWhile isOctal),
            cursorAt line (some (textOf (cs.dropWhile (CChar.isPlain isOctal)) ++
              charDoubleQuote :: rest))) :=
        octal_escape hsub (hoctal d List.mem_cons_self)
          ((List.dropWhile_append_of_pos hoctal).trans hdrop') (by simp)
      rw [List.takeWhile_append_of_pos hoctal, htake] at hescape
      have htext : textOf (.octal (d :: ds') :: cs) ++ charDoubleQuote :: rest =
          charBackslash :: (d :: ds' ++ (textOf cs ++ charDoubleQuote :: rest)) := by
        rw [← List.append_assoc]
        rfl
      rw [stored, htext]
      refine stores_escape hs' ?_ hescape (hdrop isOctal ?_)
      · rw [← List.append_assoc]
        exact hlt _
      · rw [← hdrop']
        exact (List.dropWhile_suffix isOctal).trans ((List.suffix_append (d :: ds') _).trans hsub)
    | hex ds =>
      have hs' : charBackslash :: 120 :: (ds ++ (textOf cs ++ charDoubleQuote :: rest)) <:+ text line := by
        rw [← List.append_assoc]
        exact hs
      have hsub := (List.suffix_cons _ _).trans hs'
      have hcs : textOf cs ++ charDoubleQuote :: rest <:+ text line :=
        (List.suffix_append ds _).trans ((List.suffix_cons _ _).trans hsub)
      have htext : textOf (.hex ds :: cs) ++ charDoubleQuote :: rest =
          charBackslash :: 120 :: (ds ++ (textOf cs ++ charDoubleQuote :: rest)) := by
        rw [← List.append_assoc]
        rfl
      have hlong : rest.length ≤ (120 :: (ds ++ (textOf cs ++ charDoubleQuote :: rest))).length := by
        rw [← List.append_assoc]
        exact (hlt _).trans (Nat.le_succ _)
      rw [stored, htext]
      by_cases hall : ds.all isHex = true
      · have hhex : ∀ e ∈ ds, isHex e = true := List.all_eq_true.1 hall
        obtain ⟨htake, hdrop'⟩ := @span_text rest isHex (by decide) (by decide) cs
        have hescape := hex_escape hsub ((List.dropWhile_append_of_pos hhex).trans hdrop') (by simp)
        rw [List.takeWhile_append_of_pos hhex, htake] at hescape
        rw [if_pos hall]
        refine stores_escape hs' hlong hescape (hdrop isHex ?_)
        rw [← hdrop']
        exact (List.dropWhile_suffix isHex).trans hcs
      · rw [if_neg hall]
        have hsplit : ds ++ (textOf cs ++ charDoubleQuote :: rest) =
            ds.takeWhile isHex ++ (ds.dropWhile isHex ++ (textOf cs ++ charDoubleQuote :: rest)) := by
          rw [← List.append_assoc (ds.takeWhile isHex), List.takeWhile_append_dropWhile]
        have hne : ds.dropWhile isHex ≠ [] := fun h =>
          hall (List.all_eq_true.2 (List.dropWhile_eq_nil_iff.1 h))
        have hlead : ∀ d ∈ ds.takeWhile isHex, isHex d = true := fun d hd => List.mem_takeWhile_imp hd
        have hstop : ∀ c ∈ (ds.dropWhile isHex ++ (textOf cs ++ charDoubleQuote :: rest)).head?,
            isHex c = false := by
          intro c hc
          have hhead := List.head?_dropWhile_not isHex ds
          obtain ⟨a, post, hpost⟩ := List.exists_cons_of_ne_nil hne
          rw [hpost] at hc hhead
          obtain rfl : a = c := Option.some.inj hc
          simpa using hhead
        obtain ⟨htake, hdrop'⟩ := span_run hlead hstop
        rw [← hsplit] at htake hdrop'
        have hescape := hex_escape hsub hdrop' (by simp)
        rw [htake] at hescape
        have hpost : ds.dropWhile isHex ++ (textOf cs ++ charDoubleQuote :: rest) <:+ text line := by
          rw [← hdrop']
          exact (List.dropWhile_suffix isHex).trans ((List.suffix_cons _ _).trans hsub)
        refine stores_escape hs' hlong hescape (stores_chars hpost (hlt _) ?_
          (string_stores n hlen hrest hcs))
        exact fun d hd => clear_table d (.inr (hx.2.1 d ((List.dropWhile_suffix isHex).subset hd)))

theorem tokenRun_string (hs : charDoubleQuote :: r <:+ text line)
    (hcursor : t.cursor = cursorAt line (some (charDoubleQuote :: r)))
    {q : List UInt8 × Cursor × Option FinshError}
    (hq : tokenProcString line stringMax (cursorAt line (some r)) [] = some q)
    (hlen : q.1.length ≤ stringMax) :
    tokenRun line t = some { t with
      cursor := q.2.1
      string := q.1 ++ (([0] ++ t.string.drop 1).drop q.1.length)
      current := some (.valueString (cstring (q.1 ++ (([0] ++ t.string.drop 1).drop q.1.length))))
      errno := q.2.2.or t.errno } := by
  have hsingle : singles.lookup charDoubleQuote = none := by decide
  have hdouble : doubles.lookup charDoubleQuote = none := by decide
  have hquote : ¬ charDoubleQuote = charQuote := by decide
  rw [tokenRun_operator hs hcursor (by decide) (.inr (by decide))]
  simp only [tokenOperator, hcursor, next_cons hs, hsingle, hdouble, hquote, if_true, if_false, hq,
    Option.bind_eq_bind, Option.bind_some, store, hlen]

theorem cstring_concat : ∀ xs ys : List UInt8, cstring (xs ++ [0] ++ ys) = cstring (xs ++ [0])
  | [], ys => rfl
  | x :: xs, ys => by
    have ih := cstring_concat xs ys
    unfold cstring at ih ⊢
    by_cases hx : x = 0
    · rw [hx]
      rfl
    · have hpos : ∀ l : List UInt8, (x :: l).takeWhile (· ≠ 0) = x :: l.takeWhile (· ≠ 0) := fun l =>
        List.takeWhile_cons_of_pos (by simpa using hx)
      rw [List.cons_append, List.cons_append, hpos, hpos, ih]

/-- The cursor is not in front of what is left behind a longer text. -/
theorem not_before (hlt : rest.length < r.length) (hle : r.length ≤ (text line).length) :
    ¬ Before line rest (cursorAt line (some r)) := by
  rintro (h | ⟨-, h⟩)
  · have hpos := congrArg Cursor.position h
    simp only [cursorAt] at hpos
    omega
  · exact absurd (congrArg Cursor.eof h) (by simp [cursorAt])

/-- A string in an array of other bytes: its values are the first of those stored. -/
theorem prefix_of_take {out values : List UInt8} {k : ℕ} (hk : out.length + k = 127)
    (hlen : values.length < 128)
    (h : (out ++ [0] ++ List.replicate k 255).take (values.length + 1) = values ++ [0]) :
    values <+: out := by
  have hle : values.length ≤ out.length := by
    by_contra hlt
    have hlast := congrArg (fun l => l[values.length]?) h
    rw [List.getElem?_take_of_lt (Nat.lt_succ_self _), List.getElem?_append_right (by simp; omega),
      List.getElem?_replicate_of_lt (by simp; omega), List.getElem?_append_right le_rfl] at hlast
    simp at hlast
  have htake := congrArg (List.take values.length) h
  have hvalues : (values ++ [0]).take values.length = values := List.take_left
  rw [List.take_take, min_eq_left (Nat.le_succ _), hvalues, List.append_assoc,
    List.take_append_of_le_length hle] at htake
  rw [← htake]
  exact List.take_prefix _ _

theorem string_yields_iff (hok : (Literal.string cs).Ok rest) (hshort : (Literal.string cs).Short) :
    Yields (.string cs) rest ↔ (∀ x ∈ cs, x.StringSound) ∧ cs.IsChain CChar.Clear := by
  have hsplit : (Literal.string cs).text ++ rest =
      charDoubleQuote :: (textOf cs ++ charDoubleQuote :: rest) := by
    rw [Literal.text, List.cons_append, List.append_assoc, List.singleton_append]
  obtain ⟨hwell, -⟩ := hok.wellFormed
  have hcount : cs.length < 128 := hshort
  constructor
  · intro hall
    obtain ⟨line, t, -, -, hs, hcursor⟩ := hok.exists_start
    obtain ⟨t', hrun, ⟨hstring, -⟩, -, hbefore⟩ :=
      hall line { t with string := List.replicate 128 255 } List.length_replicate hs hcursor
    rw [hsplit] at hs hcursor
    obtain ⟨q, hq, ⟨hroom, rfl⟩ | ⟨-, s, hc, hlt, hle⟩⟩ :=
      string_stores cs.length le_rfl hwell ((List.suffix_cons _ _).trans hs) stringMax []
    · rw [tokenRun_string (t := { t with string := List.replicate 128 255 }) hs hcursor hq
        (by simpa using hroom)] at hrun
      obtain rfl := Option.some.inj hrun
      have hout : (stored cs).length < 128 := hroom
      have hdrop : ([0] ++ (List.replicate 128 (255 : UInt8)).drop 1).drop
          ([] ++ stored cs ++ [0] : List UInt8).length =
          List.replicate (127 - (stored cs).length) 255 := by
        rw [List.nil_append, List.length_append, List.length_singleton, List.drop_replicate,
          List.singleton_append, List.drop_succ_cons, List.drop_replicate]
      dsimp only at hstring
      have hlen : cs.length = (cs.map CChar.value).length := (List.length_map _).symm
      rw [hdrop, List.nil_append, hlen] at hstring
      exact (stored_iff hwell).1 (prefix_of_take (by omega) (by rwa [List.length_map]) hstring)
    · -- the array is full before the quote
      have hlen := tokenProcString_length stringMax hq
      rw [List.length_nil, Nat.zero_add] at hlen
      rw [tokenRun_string (t := { t with string := List.replicate 128 255 }) hs hcursor hq hlen] at hrun
      obtain rfl := Option.some.inj hrun
      rw [hc] at hbefore
      exact absurd hbefore (not_before hlt hle)
  · rintro hsound line t - hs hcursor
    rw [hsplit] at hs hcursor
    have hvalues := (stored_iff hwell).2 hsound
    obtain ⟨q, hq, ⟨hroom, rfl⟩ | ⟨hfull, -⟩⟩ :=
      string_stores cs.length le_rfl hwell ((List.suffix_cons _ _).trans hs) stringMax []
    · have hrun := tokenRun_string hs hcursor hq (by simpa using hroom)
      rw [List.nil_append, hvalues] at hrun
      refine ⟨_, hrun, ⟨?_, ?_⟩, rfl, .inl rfl⟩
      · dsimp only
        have hlen : cs.length + 1 = (cs.map CChar.value ++ [0]).length := by simp
        rw [hlen, List.take_left']
        rfl
      · rw [cstring_concat]
    · rw [hvalues, List.length_map] at hfull
      exact absurd hfull (not_le.2 hcount)

end Strings

/-! ### All literals -/

/-- The lexer reads the literal as C does. -/
def Literal.Sound : Literal → Prop
  | number radix digits suffix => radix.Sound digits suffix
  | char c => c.CharSound
  | string cs => (∀ x ∈ cs, x.StringSound) ∧ cs.IsChain CChar.Clear

theorem yields_iff {lit : Literal} {rest : List UInt8} (hok : lit.Ok rest) (hshort : lit.Short) :
    Yields lit rest ↔ lit.Sound := by
  cases lit with
  | number radix digits suffix => exact number_yields_iff hok hshort
  | char c => exact char_yields_iff hok
  | string cs => exact string_yields_iff hok hshort

/-! ### Room -/

/-- The digits behind a 0 fit their array. -/
def FitsBase : List UInt8 → Prop
  | [] => True
  | d :: r =>
    if d = 120 ∨ d = 88 then (r.takeWhile fun c => isDigit c || isAlpha c).length < stringMax
    else if d = 98 ∨ d = 66 then (r.takeWhile fun c => c = 48 || c = 49).length < stringMax
    else ((d :: r).takeWhile isDigit).length < stringMax

/-- Behind the backslash of a character stands one of the table, or at most three digits. -/
def FitsEscape : List UInt8 → Prop
  | [] => True
  | d :: r => charEscapes.lookup d = none → ((d :: r).takeWhile isDigit).length ≤ 3

/-- What a character constant starts with. -/
def FitsChar : List UInt8 → Prop
  | [] => True
  | c :: s => c = charBackslash → FitsEscape s

/-- The token at the start of the text fits the arrays. -/
def Fits : List UInt8 → Prop
  | [] => True
  | c :: s =>
    if isDigit c then c = 48 → FitsBase s
    else if isName c then ((c :: s).takeWhile isName).length < stringMax
    else c = charQuote → FitsChar s

theorem fitsBase_iff (s : List UInt8) : scanBase s ≠ none ↔ FitsBase s := by
  cases s with
  | nil => exact iff_of_true (by simp [scanBase]) trivial
  | cons d r =>
    rw [scanBase, FitsBase]
    unfold scanDigits
    split_ifs <;> simp [*]

theorem fitsChar_iff (s : List UInt8) : scanChar s ≠ none ↔ FitsChar s := by
  cases s with
  | nil => exact iff_of_true (by simp [scanChar]) trivial
  | cons c s =>
    rw [scanChar, FitsChar]
    by_cases hc : c = charBackslash
    · rw [if_pos hc]
      simp only [hc, forall_const]
      cases s with
      | nil => exact iff_of_true (by simp [scanBackslash]) trivial
      | cons d r =>
        rw [scanBackslash, FitsEscape]
        cases charEscapes.lookup d with
        | some ch => simp
        | none =>
          simp only [Option.isSome_none, Bool.false_eq_true, if_false, forall_const]
          split_ifs with hlen
          · exact iff_of_true (Option.some_ne_none _) hlen
          · exact iff_of_false (not_not.2 rfl) hlen
    · rw [if_neg hc]
      exact iff_of_true (Option.some_ne_none _) fun h => absurd h hc

theorem scanSign_iff (c : UInt8) (s : List UInt8) :
    scanSign c s ≠ none ↔ (c = charQuote → FitsChar s) := by
  rw [scanSign]
  by_cases hc : c = charQuote
  · have hsingle : (singles.lookup charQuote).isSome = false := by decide
    have hdouble : (doubles.lookup charQuote).isSome = false := by decide
    rw [hc, hsingle, hdouble, if_neg Bool.false_ne_true, if_neg Bool.false_ne_true, if_pos rfl,
      fitsChar_iff]
    exact ⟨fun h _ => h, fun h => h rfl⟩
  · have hsome : ∀ r, (some r : Option (Option (List UInt8))) ≠ none := Option.some_ne_none
    rw [if_neg hc]
    split_ifs
    all_goals exact iff_of_true (hsome _) fun h => absurd h hc

theorem fits_iff (s : List UInt8) : scan s ≠ none ↔ Fits s := by
  cases s with
  | nil => exact iff_of_true (by simp [scan]) trivial
  | cons c s =>
    rw [scan, Fits]
    by_cases hdigit : isDigit c = true
    · rw [if_pos hdigit, if_pos hdigit, scanNumber]
      by_cases hzero : c = 48
      · rw [if_pos hzero, fitsBase_iff]
        exact ⟨fun h _ => h, fun h => h hzero⟩
      · rw [if_neg hzero]
        exact iff_of_true (Option.some_ne_none _) fun h => absurd h hzero
    · rw [if_neg hdigit, if_neg hdigit]
      by_cases hname : isName c = true
      · rw [if_pos hname, if_pos hname, scanName]
        split_ifs with hlen
        · exact iff_of_true (Option.some_ne_none _) hlen
        · exact iff_of_false (not_not.2 rfl) hlen
      · rw [if_neg hname, if_neg hname]
        exact scanSign_iff c s

/-- The lexer stores nothing behind its arrays exactly if the next token fits them. -/
theorem tokenRun_isSome_iff {line : Line} {t : FinshToken} {s : List UInt8} (hs : s <:+ text line)
    (hcursor : t.cursor = cursorAt line (some s)) (hreplay : t.replay = false) :
    (tokenRun line t).isSome ↔ Fits (trim s) := by
  rw [← fits_iff]
  rcases htrim : trim s with _ | ⟨c, r⟩
  · rw [tokenRun_nil hs hcursor htrim]
    exact iff_of_true rfl (by simp [scan])
  · have hran := tokenRun_cons hs hcursor hreplay htrim
    rcases hscan : scan (c :: r) with _ | (_ | rest)
    · rw [hscan] at hran
      rw [show tokenRun line t = none from hran]
      exact iff_of_false Bool.false_ne_true (not_not.2 rfl)
    · rw [hscan] at hran
      obtain ⟨t', hrun, -⟩ := hran
      rw [hrun]
      exact iff_of_true rfl (Option.some_ne_none _)
    · rw [hscan] at hran
      obtain ⟨t', hrun, -⟩ := hran
      rw [hrun]
      exact iff_of_true rfl (Option.some_ne_none _)

/-- CORRECT: the lexer reads a literal as C does exactly if it is sound; and it stores nothing behind its
    arrays exactly if the token fits them. -/
theorem literals_iff (lit : Literal) (rest : List UInt8) (line : Line) (t : FinshToken)
    (s : List UInt8) :
    (lit.Ok rest → lit.Short → (Yields lit rest ↔ lit.Sound)) ∧
      (s <:+ text line → t.cursor = cursorAt line (some s) → t.replay = false →
        ((tokenRun line t).isSome ↔ Fits (trim s))) :=
  ⟨fun hok hshort => yields_iff hok hshort,
    fun hs hcursor hreplay => tokenRun_isSome_iff hs hcursor hreplay⟩

/-- `012l;` is ten, as a `long`, and fits. -/
theorem literals_iff_octal : Yields (.number .octal [49, 50] (some 108)) [59] ∧
    (tokenRun ⟨[48, 49, 50, 108, 59], by decide⟩ (finshTokenInit none)).isSome := by
  have hok : (Literal.number .octal [49, 50] (some 108)).Ok [59] := by
    refine ⟨?_, trivial, ?_, ?_, ?_⟩
    · intro c hc
      rw [List.mem_singleton.1 hc]
      decide
    · intro d hd
      simp only [List.mem_cons, List.not_mem_nil, or_false] at hd
      rcases hd with rfl | rfl
      · exact (by decide : isOctal 49 = true)
      · exact (by decide : isOctal 50 = true)
    · rintro l ⟨⟩
      exact .inl rfl
    · rintro c ⟨⟩
      decide
  have hlt : numberIn 8 [49, 50] < 2 ^ 32 := by decide
  have hspec := literals_iff (.number .octal [49, 50] (some 108)) [59]
    ⟨[48, 49, 50, 108, 59], by decide⟩ (finshTokenInit none) [48, 49, 50, 108, 59]
  have hfits : Fits (trim [48, 49, 50, 108, 59]) := fun _ =>
    (by decide : ([49, 50, 108, 59].takeWhile isDigit).length < stringMax)
  exact ⟨(hspec.1 hok (.inr (by decide))).2 ⟨hlt, fun x hx => nomatch hx⟩,
    (hspec.2 (List.suffix_refl _) rfl rfl).2 hfits⟩

/-- INCORRECT: the character `\101` is an A, and the lexer makes a NUL of it. -/
theorem octal_char_lost : ¬ ∀ (lit : Literal) (rest : List UInt8), lit.Ok rest → lit.Short →
    Yields lit rest := by
  intro hall
  have hok : (Literal.char (.octal [49, 48, 49])).Ok [] := by
    refine ⟨by simp, by simp, by decide, ?_, by decide⟩
    intro d hd
    simp only [List.mem_cons, List.not_mem_nil, or_false] at hd
    rcases hd with rfl | rfl | rfl <;> decide
  have hsound : numberIn 8 [49, 48, 49] = 0 := (char_yields_iff hok).1 (hall _ _ hok trivial)
  exact absurd hsound (by decide)

end EasyCore.Finsh.Lexer
