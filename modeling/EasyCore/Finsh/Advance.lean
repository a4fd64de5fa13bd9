import EasyCore.Finsh.Lexeme

/-! Where calls of `finsh_token_token` take the position: on, token by token, as long as the text is
    made of whole tokens. -/

namespace EasyCore.Finsh.Lexer

/-- What calls of `finsh_token_token` lead to, with tokens that are put back between them. -/
inductive Called (line : Line) : FinshToken → Prop
  | init (errno : Option FinshError) : Called line (finshTokenInit errno)
  | token {t t' : FinshToken} {token : Option Token} : Called line t →
    finshTokenToken line t = some (token, t') → Called line t'
  | replay {t : FinshToken} : Called line t → Called line { t with replay := true }

/-- Each call that is not a replay ends, and takes the position on, unless it answers the end of the
    line. -/
def Advances (line : Line) : Prop :=
  ∀ t, Called line t → t.replay = false → ∃ token t', finshTokenToken line t = some (token, t') ∧
    (token ≠ none → t.cursor.position < t'.cursor.position)

/-- The cursor is behind the end, or before whole tokens. -/
def Sane (line : Line) (t : FinshToken) : Prop :=
  t.cursor = cursorAt line none ∨ ∃ s, t.cursor = cursorAt line (some s) ∧ s <:+ text line ∧ Whole s

/-- How much text is left. -/
def rest (line : Line) (c : Cursor) : ℕ := if c.eof then 0 else (text line).length - c.position

section
variable {line : Line} {s : List UInt8} {t t' : FinshToken}

theorem rest_some (hs : s <:+ text line) : rest line (cursorAt line (some s)) = s.length := by
  have hle := hs.length_le
  simp only [rest, cursorAt, Bool.false_eq_true, if_false]
  omega

theorem init_cursor (line : Line) (errno : Option FinshError) :
    (finshTokenInit errno).cursor = cursorAt line (some (text line)) := by
  simp [finshTokenInit, cursorAt]

theorem finshTokenToken_fresh (h : t.replay = false) :
    finshTokenToken line t = (tokenRun line t).map fun t => (t.current, t) := by
  rw [finshTokenToken, if_neg (by simp [h])]

/-- The text behind a token that has been found. -/
theorem token_rest (hs : s <:+ text line) {c : UInt8} {r left : List UInt8}
    (htrim : trim s = c :: r) (hscan : scan (c :: r) = some (some left)) :
    left <:+ text line ∧ left.length < s.length := by
  have hsub : c :: r <:+ s := htrim ▸ List.dropWhile_suffix isBlank
  have hleft := scan_suffix hscan
  have hlen := hsub.length_le
  rw [List.length_cons] at hlen
  exact ⟨hleft.trans ((List.suffix_cons c r).trans (hsub.trans hs)),
    lt_of_le_of_lt hleft.length_le hlen⟩

/-- One token of a sane text: the end, or whole tokens are left. -/
theorem tokenRun_sane (h : Sane line t) (hreplay : t.replay = false) :
    ∃ t', tokenRun line t = some t' ∧ Sane line t' ∧ t'.replay = false ∧
      rest line t'.cursor ≤ rest line t.cursor ∧
      (t'.current ≠ none → rest line t'.cursor < rest line t.cursor ∧
        t.cursor.position < t'.cursor.position) := by
  rcases h with hcursor | ⟨s, hcursor, hs, hwhole⟩
  · exact ⟨_, tokenRun_none hcursor, .inl hcursor, hreplay, le_rfl, fun h => absurd rfl h⟩
  · cases hwhole with
    | done htrim =>
      exact ⟨_, tokenRun_nil hs hcursor htrim, .inl rfl, hreplay, Nat.zero_le _,
        fun h => absurd rfl h⟩
    | token hscan hrest =>
      rename_i left
      rcases htrim : trim s with _ | ⟨c, r⟩
      · rw [htrim] at hscan
        cases hscan
      · rw [htrim] at hscan
        have hran := tokenRun_cons hs hcursor hreplay htrim
        rw [hscan] at hran
        obtain ⟨t', hrun, hcursor', hreplay'⟩ := hran
        obtain ⟨hleft, hlt⟩ := token_rest hs htrim hscan
        have hle := hs.length_le
        refine ⟨t', hrun, .inr ⟨left, hcursor', hleft, hrest⟩, hreplay', ?_, fun _ => ⟨?_, ?_⟩⟩
        · rw [hcursor', hcursor, rest_some hleft, rest_some hs]
          exact hlt.le
        · rw [hcursor', hcursor, rest_some hleft, rest_some hs]
          exact hlt
        · rw [hcursor', hcursor]
          simp only [cursorAt]
          omega

theorem Called.sane (hwhole : Whole (text line)) (h : Called line t) : Sane line t := by
  induction h with
  | init errno => exact .inr ⟨_, init_cursor line errno, List.suffix_rfl, hwhole⟩
  | token hcalled htoken ih =>
    rename_i t t' token
    cases hreplay : t.replay with
    | true =>
      rw [finshTokenToken, if_pos hreplay] at htoken
      obtain ⟨rfl, rfl⟩ := Prod.mk.inj (Option.some.inj htoken)
      exact ih
    | false =>
      obtain ⟨t₁, hrun, hsane, -⟩ := tokenRun_sane ih hreplay
      rw [finshTokenToken_fresh hreplay, hrun] at htoken
      obtain ⟨rfl, rfl⟩ := Prod.mk.inj (Option.some.inj htoken)
      exact hsane
  | replay _ ih => exact ih

/-- Where every call takes the position on, the text is made of whole tokens; on the length of what
    is left. -/
theorem whole_of_advances (h : Advances line) : ∀ (n : ℕ) {s : List UInt8} {t : FinshToken},
    s.length ≤ n → s <:+ text line → Called line t → t.cursor = cursorAt line (some s) →
      t.replay = false → Whole s := by
  intro n
  induction n with
  | zero =>
    intro s t hn _ _ _ _
    obtain rfl := List.length_eq_zero_iff.1 (Nat.le_zero.1 hn)
    exact .done rfl
  | succ n ih =>
    intro s t hn hs hcalled hcursor hreplay
    obtain ⟨token, t', htoken, hpos⟩ := h t hcalled hreplay
    rcases htrim : trim s with _ | ⟨c, r⟩
    · exact .done htrim
    · have hran := tokenRun_cons hs hcursor hreplay htrim
      have hmap := htoken
      rw [finshTokenToken_fresh hreplay] at hmap
      obtain ⟨t₁, hrun, heq⟩ := Option.map_eq_some_iff.1 hmap
      obtain ⟨rfl, rfl⟩ := Prod.mk.inj heq
      rw [hrun] at hran
      rcases hscan : scan (c :: r) with _ | (_ | left)
      · rw [hscan] at hran
        cases hran
      · rw [hscan] at hran
        obtain ⟨t₂, heq, hzero, hcurrent⟩ := hran
        obtain rfl := Option.some.inj heq
        have hlt := hpos hcurrent
        rw [hzero] at hlt
        exact absurd hlt (Nat.not_lt_zero _)
      · rw [hscan] at hran
        obtain ⟨t₂, heq, hcursor', hreplay'⟩ := hran
        obtain rfl := Option.some.inj heq
        obtain ⟨hleft, hlt⟩ := token_rest hs htrim hscan
        have hwhole := ih (by omega) hleft (hcalled.token htoken) hcursor' hreplay'
        exact .token (htrim ▸ hscan) hwhole

/-- Every call takes the position on if and only if the text is made of whole tokens. -/
theorem advances_iff_whole (line : Line) : Advances line ↔ Whole (text line) := by
  refine ⟨fun h => ?_, fun h t hcalled hreplay => ?_⟩
  · exact whole_of_advances h _ le_rfl List.suffix_rfl (.init none) (init_cursor line none) rfl
  · obtain ⟨t', hrun, -, -, -, hcurrent⟩ := tokenRun_sane (hcalled.sane h) hreplay
    refine ⟨t'.current, t', ?_, fun hne => (hcurrent hne).2⟩
    rw [finshTokenToken_fresh hreplay, hrun]
    rfl

end

end EasyCore.Finsh.Lexer
