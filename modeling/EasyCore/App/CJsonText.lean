import EasyCore.App.CJson

/-! The text of an object of numbers and strings: the parser reads it back, whatever follows it, and
    rejects it when it breaks off. -/

namespace EasyCore.CJson
open Decimal

variable {D : Doubles}

/-! ### What is printed is parsed -/

theorem skip_space {c : UInt8} (h : c ≠ 0 ∧ c ≤ 32) (l : List UInt8) : skip (c :: l) = skip l := by
  simp [skip, h]

theorem skip_cons {c : UInt8} (h : 32 < c) (l : List UInt8) : skip (c :: l) = c :: l := by
  have hle : ¬c ≤ 32 := UInt8.not_le.2 h
  simp [skip, hle]

theorem skip_skip (l : List UInt8) : skip (skip l) = skip l := List.dropWhile_idempotent ..

/-- The hexadecimal digits of a control character. -/
theorem parseHex4_control {c : UInt8} (h : c ≤ 31) (l : List UInt8) :
    parseHex4 (48 :: 48 :: hexDigit (c / 16) :: hexDigit (c % 16) :: l) = c.toNat := by
  have hall : ∀ n < 32, hexValue (hexDigit (UInt8.ofNat n / 16)) = some (n / 16) ∧
      hexValue (hexDigit (UInt8.ofNat n % 16)) = some (n % 16) := by decide
  have hc := hall c.toNat (by rw [UInt8.le_iff_toNat_le] at h; simp at h; omega)
  rw [UInt8.ofNat_toNat] at hc
  have h0 : hexValue 48 = some 0 := rfl
  simp only [parseHex4, h0, hc.1, hc.2]
  omega

theorem escape_control {c : UInt8} (h : c ≤ 31) (h0 : c ≠ 0) (l : List UInt8) :
    escape (117 :: 48 :: 48 :: hexDigit (c / 16) :: hexDigit (c % 16) :: l) = ([c], l) := by
  have hle : c.toNat ≤ 31 := h
  have hpos : c.toNat ≠ 0 := fun h => h0 (UInt8.toNat_inj.1 h)
  have hutf : utf8 c.toNat = [c] := by
    rw [utf8, if_pos (by omega), UInt8.ofNat_toNat]
  change escapeU (48 :: 48 :: hexDigit (c / 16) :: hexDigit (c % 16) :: l) = ([c], l)
  simp only [escapeU, parseHex4_control h]
  rw [if_neg (by omega), if_neg (by omega), hutf]
  rfl

/-- A printed character is read back. -/
theorem parseChars_printChar {c : UInt8} (h0 : c ≠ 0) (l : List UInt8) :
    parseChars (printChar c ++ l) = (c :: (parseChars l).1, (parseChars l).2) := by
  have hesc : ∀ m : List UInt8, escape m = ([c], l) →
      parseChars (92 :: m) = (c :: (parseChars l).1, (parseChars l).2) := by
    intro m hm
    rw [parseChars, if_neg (by decide), if_neg (by decide), if_pos rfl, hm]
    rfl
  rw [printChar]
  split
  · next h => rw [List.singleton_append, parseChars, if_neg h.2.1, if_neg h0, if_neg h.2.2]
  · next h =>
    split
    · next hc => subst hc; exact hesc _ rfl
    split
    · next hc => subst hc; exact hesc _ rfl
    split
    · next hc => subst hc; exact hesc _ rfl
    split
    · next hc => subst hc; exact hesc _ rfl
    split
    · next hc => subst hc; exact hesc _ rfl
    split
    · next hc => subst hc; exact hesc _ rfl
    split
    · next hc => subst hc; exact hesc _ rfl
    · next hq _ _ _ _ _ =>
      have hle : c ≤ 31 := UInt8.not_lt.1 fun hlt => h ⟨hlt, by assumption, by assumption⟩
      exact hesc _ (escape_control hle h0 l)

theorem parseChars_print : ∀ (s : List UInt8), 0 ∉ s → ∀ l : List UInt8,
    parseChars (s.flatMap printChar ++ 34 :: l) = (s, l) := by
  intro s
  induction s with
  | nil =>
    intro _ l
    rw [List.flatMap_nil, List.nil_append, parseChars, if_pos rfl]
  | cons c s ih =>
    intro h l
    rw [List.mem_cons, not_or] at h
    rw [List.flatMap_cons, List.append_assoc, parseChars_printChar (Ne.symm h.1), ih h.2]

theorem parseString_print {s : List UInt8} (h : 0 ∉ s) (l : List UInt8) :
    parseString (printString s ++ l) = .ok (s, l) := by
  have hs : s.takeWhile (· ≠ 0) = s := by
    rw [List.takeWhile_eq_self_iff]
    intro c hc
    simpa using fun h0 : c = 0 => h (h0 ▸ hc)
  simp only [printString, List.cons_append, List.append_assoc, List.nil_append, parseString,
    parseChars_print s h, hs]

/-- What may follow a number: neither a digit, nor a point, nor an exponent. -/
def EndsNumber (l : List UInt8) : Prop :=
  ∀ c ∈ l.head?, isDigit c = Bool.false ∧ c ≠ 46 ∧ c ≠ 101 ∧ c ≠ 69

theorem EndsNumber.scan {l : List UInt8} (h : EndsNumber l) :
    scanExponent (scanFraction (scanInteger l)) = l := by
  cases l with
  | nil => rfl
  | cons c l =>
    obtain ⟨hdig, h46, h101, h69⟩ := h c rfl
    have hc : ¬(49 ≤ c && c ≤ 57) = Bool.true := by
      intro hc
      simp only [Bool.and_eq_true, decide_eq_true_eq, UInt8.le_iff_toNat_le] at hc
      have hd : isDigit c = Bool.true := by
        rw [isDigit_iff]
        simp at hc; omega
      rw [hdig] at hd; cases hd
    rw [scanInteger, List.head?_cons, Option.any_some, if_neg hc, scanFraction,
      if_neg (by simp [h46]), scanExponent, if_neg (by simp [h101, h69])]

/-- The digits of a number, or some of them from its start on: a zero stands alone. -/
def LeadingDigits (ds : List UInt8) : Prop :=
  (∀ c ∈ ds, isDigit c = Bool.true) ∧ (ds.head? = some 48 → ds = [48])

theorem dropWhile_digits {ds l : List UInt8} (hds : ∀ c ∈ ds, isDigit c = Bool.true)
    (hl : EndsNumber l) : (ds ++ l).dropWhile isDigit = l := by
  rw [List.dropWhile_append_of_pos hds]
  cases l with
  | nil => rfl
  | cons c l => exact List.dropWhile_cons_of_neg (by simp [(hl c rfl).1])

/-- Digits are scanned up to their end. -/
theorem LeadingDigits.scan {ds l : List UInt8} (h : LeadingDigits ds) (hl : EndsNumber l)
    (hds : ds ≠ []) : scanExponent (scanFraction (scanInteger (scanZero (ds ++ l)))) = l := by
  obtain ⟨c, ds, rfl⟩ := List.exists_cons_of_ne_nil hds
  obtain ⟨hdig, hzero⟩ := h
  by_cases hc : c = 48
  · subst hc
    rw [hzero rfl]
    exact hl.scan
  · have hc1 : (49 ≤ c && c ≤ 57) = Bool.true := by
      have := hdig c (by simp)
      rw [isDigit_iff] at this
      rw [← UInt8.toNat_inj] at hc
      simp only [Bool.and_eq_true, decide_eq_true_eq, UInt8.le_iff_toNat_le]
      simp at hc ⊢; omega
    have hrest := hl.scan
    have hno : scanInteger l = l := by
      cases l with
      | nil => rfl
      | cons d l =>
        have hd := (hl d rfl).1
        rw [scanInteger, List.head?_cons, Option.any_some, if_neg]
        intro hc
        simp only [Bool.and_eq_true, decide_eq_true_eq, UInt8.le_iff_toNat_le] at hc
        have hd' : isDigit d = Bool.true := by
          rw [isDigit_iff]
          simp at hc; omega
        rw [hd] at hd'; cases hd'
    rw [hno] at hrest
    rw [scanZero, if_neg (by simpa using hc), scanInteger, List.cons_append, List.head?_cons,
      Option.any_some, if_pos hc1, ← List.cons_append, dropWhile_digits hdig hl, hrest]

theorem numeral_leading (n k : ℕ) : LeadingDigits ((numeral n).take k) := by
  refine ⟨fun c hc => numeral_isDigit n c (List.mem_of_mem_take hc), ?_⟩
  intro hhead
  obtain rfl | hn := Nat.eq_zero_or_pos n
  · cases k with
    | zero => cases hhead
    | succ k => simp [numeral]
  · cases hnum : numeral n with
    | nil => exact absurd hnum (numeral_ne_nil n)
    | cons c ds =>
      rw [hnum] at hhead
      cases k with
      | zero => cases hhead
      | succ k =>
        exact absurd (Option.some.inj hhead) (numeral_head (by omega) hnum)

/-- The text of a number, or its start, is scanned up to its end. -/
theorem scanNumber_intText (n : ℤ) {k : ℕ} (hk : 0 < k) {l : List UInt8} (hl : EndsNumber l) :
    scanNumber ((intText n).take k ++ l) = l := by
  obtain ⟨k, rfl⟩ : ∃ j, k = j + 1 := ⟨k - 1, by omega⟩
  rw [scanNumber, intText]
  split
  · -- Behind the sign stand digits, or none at all.
    rw [List.take_succ_cons, List.cons_append]
    change scanExponent (scanFraction (scanInteger (scanZero ((numeral _).take k ++ l)))) = l
    obtain hnil | hne := eq_or_ne ((numeral n.natAbs).take k) []
    · rw [hnil, List.nil_append]
      have hz : scanZero l = l := by
        cases l with
        | nil => rfl
        | cons d l =>
          rw [scanZero, if_neg]
          intro h
          cases h
          exact absurd (hl 48 rfl).1 (by decide)
      rw [hz, hl.scan]
    · exact (numeral_leading _ k).scan hl hne
  · have hne : (numeral n.natAbs).take (k + 1) ≠ [] := by
      simp [numeral_ne_nil]
    have hsign : scanSign ((numeral n.natAbs).take (k + 1) ++ l) =
        (numeral n.natAbs).take (k + 1) ++ l := by
      obtain ⟨c, ds, hc⟩ := List.exists_cons_of_ne_nil hne
      have hdig := numeral_isDigit n.natAbs c (List.mem_of_mem_take (hc ▸ List.mem_cons_self ..))
      rw [hc, List.cons_append, scanSign, if_neg]
      intro h
      cases h
      exact absurd hdig (by decide)
    rw [hsign]
    exact (numeral_leading _ _).scan hl hne

/-- A value that begins with a digit, a sign or a quote is no word. -/
theorem not_word {c : UInt8} (hc : c = 34 ∨ c = 45 ∨ isDigit c = Bool.true) (l : List UInt8)
    (value : List UInt8 → Parse (Item D)) :
    parseValueWith value (c :: l) =
      if c = 34 then Parse.map .string (parseString (c :: l)) else .ok (parseNumber (c :: l)) := by
  have hne : ∀ d : UInt8, d = 110 ∨ d = 102 ∨ d = 116 → d ≠ c := by
    rintro d hd rfl
    rcases hd with rfl | rfl | rfl <;> revert hc <;> decide
  have hpre : ∀ (d : UInt8) (w : List UInt8), d = 110 ∨ d = 102 ∨ d = 116 →
      ¬(d :: w).isPrefixOf (c :: l) = Bool.true := by
    intro d w hd h
    rw [List.isPrefixOf_iff_prefix] at h
    exact hne d hd (List.cons_prefix_cons.1 h).1
  rw [parseValueWith.eq_def, if_neg (hpre _ _ (by simp)), if_neg (hpre _ _ (by simp)),
    if_neg (hpre _ _ (by simp))]
  by_cases hq : c = 34
  · simp only [if_pos hq]
  · have hnum : c = 45 ∨ isDigit c = Bool.true := hc.resolve_left hq
    simp only [if_neg hq, if_pos hnum]

/-- A number or a string that a C program can have: 32 bits, or no NUL before the end. -/
def Scalar.Fits : Scalar → Prop
  | .number n => -2 ^ 31 ≤ n ∧ n < 2 ^ 32
  | .string s => 0 ∉ s

theorem intText_cons (n : ℤ) : ∃ c ds, intText n = c :: ds ∧ (c = 45 ∨ isDigit c = Bool.true) := by
  rw [intText]
  split
  · exact ⟨45, _, rfl, .inl rfl⟩
  · obtain ⟨c, ds, hc⟩ := List.exists_cons_of_ne_nil (numeral_ne_nil n.natAbs)
    exact ⟨c, ds, hc, .inr (numeral_isDigit _ c (hc ▸ List.mem_cons_self ..))⟩

theorem parseNumber_intText {n : ℤ} {k : ℕ} (hk : 0 < k) {l : List UInt8} (hl : EndsNumber l) :
    (parseNumber ((intText n).take k ++ l) : Item D × List UInt8) =
      (.number (D.ofText ((intText n).take k)), l) := by
  rw [parseNumber, scanNumber_intText n hk hl, List.length_append, Nat.add_sub_cancel,
    List.take_left']
  rfl

/-- A number or a string is read back. -/
theorem parseValueWith_print (hD : D.Exact) {v : Scalar} (hv : v.Fits) {l : List UInt8}
    (hl : EndsNumber l) (value : List UInt8 → Parse (Item D)) :
    parseValueWith value (v.print D ++ l) = .ok (v.item, l) := by
  cases v with
  | number n =>
    obtain ⟨c, ds, hc, hdig⟩ := intText_cons n
    have hne : c ≠ 34 := by
      rintro rfl
      revert hdig; decide
    have hparse := parseNumber_intText (D := D) (n := n) (k := (intText n).length)
      (by rw [hc]; simp) hl
    rw [List.take_length, hD.ofText_intText n hv.1 hv.2] at hparse
    rw [Scalar.print, hD.print_ofInt n hv.1 hv.2]
    rw [hc] at hparse ⊢
    rw [List.cons_append] at hparse ⊢
    rw [not_word (.inr hdig), if_neg hne, hparse]
    rfl
  | string s =>
    have hparse := parseString_print hv l
    rw [Scalar.print]
    rw [printString, List.cons_append, List.cons_append] at hparse ⊢
    rw [not_word (.inl rfl), if_pos rfl, hparse]
    rfl

/-- An object of a C program: the names and the values. -/
def FitsAll (members : List (List UInt8 × Scalar)) : Prop :=
  ∀ m ∈ members, 0 ∉ m.1 ∧ m.2.Fits

def items (members : List (List UInt8 × Scalar)) : List (List UInt8 × Item D) :=
  members.map fun m => (m.1, m.2.item)

theorem endsNumber_cons {c : UInt8}
    (h : isDigit c = Bool.false ∧ c ≠ 46 ∧ c ≠ 101 ∧ c ≠ 69) (l : List UInt8) :
    EndsNumber (c :: l) := by
  rintro d hd
  cases hd
  exact h

theorem parseMembers_skip (value : List UInt8 → Parse (Item D)) (n : ℕ) (l : List UInt8) :
    parseMembers value n (skip l) = parseMembers value n l := by
  cases n with
  | zero => rfl
  | succ n => rw [parseMembers, parseMembers, skip_skip]

/-- One round of the loop, up to the character behind the value. -/
theorem parseMembers_one (hD : D.Exact) {m : List UInt8 × Scalar} (hname : 0 ∉ m.1)
    (hv : m.2.Fits) {l : List UInt8} (hl : EndsNumber l) (k n : ℕ) :
    parseMembers (parseValue (D := D) (k + 1)) (n + 1)
        (9 :: printString m.1 ++ 58 :: 9 :: m.2.print D ++ l) =
      if (skip l).head? = some 44 then
        Parse.map ((m.1, m.2.item) :: ·) (parseMembers (parseValue (k + 1)) n (skip l).tail)
      else if (skip l).head? = some 125 then .ok ([(m.1, m.2.item)], (skip l).tail)
      else .error .malformed := by
  have hstart : ∀ r : List UInt8, skip (printString m.1 ++ r) = printString m.1 ++ r := by
    intro r
    rw [printString, List.cons_append, List.cons_append, skip_cons (by decide)]
  have hvalue : skip (m.2.print D ++ l) = m.2.print D ++ l := by
    cases hm : m.2 with
    | number i =>
      rw [hm] at hv
      obtain ⟨c, ds, hc, hdig⟩ := intText_cons i
      have hlt : 32 < c := by
        rcases hdig with rfl | hdig
        · decide
        · rw [isDigit_iff] at hdig
          rw [UInt8.lt_iff_toNat_lt]
          simp; omega
      rw [Scalar.print, hD.print_ofInt i hv.1 hv.2, hc, List.cons_append, skip_cons hlt]
    | string s =>
      rw [Scalar.print, printString, List.cons_append, List.cons_append, skip_cons (by decide)]
  rw [parseMembers, List.cons_append, List.cons_append, skip_space (by decide), List.append_assoc,
    hstart, parseString_print hname]
  simp only [List.cons_append]
  rw [skip_cons (by decide), List.head?_cons, if_neg (by simp), List.tail_cons,
    skip_space (by decide), hvalue, parseValue, parseValueWith_print hD hv hl]

/-- The members are read back, if the rounds suffice. -/
theorem parseMembers_print (hD : D.Exact) (k : ℕ) (rest : List UInt8) :
    ∀ (members : List (List UInt8 × Scalar)) (n : ℕ), members ≠ [] → FitsAll members →
      parseMembers (parseValue (D := D) (k + 1)) n (printMembers D members ++ 125 :: rest) =
          .ok (items members, rest) ∨
        parseMembers (parseValue (D := D) (k + 1)) n (printMembers D members ++ 125 :: rest) =
          .error .rounds := by
  intro members
  induction members with
  | nil => intro n h; exact absurd rfl h
  | cons m members ih =>
    intro n _ hfits
    have hm := hfits m (by simp)
    cases n with
    | zero => exact .inr rfl
    | succ n =>
      cases members with
      | nil =>
        left
        have hl : EndsNumber (10 :: 125 :: rest) := endsNumber_cons (by decide) _
        rw [printMembers, List.append_assoc]
        refine (parseMembers_one hD hm.1 hm.2 hl k n).trans ?_
        rw [skip_space (by decide), skip_cons (by decide)]
        rfl
      | cons m' members =>
        have hl : EndsNumber (44 :: 10 :: (printMembers D (m' :: members) ++ 125 :: rest)) :=
          endsNumber_cons (by decide) _
        have hone := parseMembers_one hD hm.1 hm.2 hl k n
        rw [skip_cons (by decide), List.head?_cons, if_pos rfl, List.tail_cons,
          ← parseMembers_skip _ n (10 :: _), skip_space (by decide), parseMembers_skip] at hone
        have hassoc : printMembers D (m :: m' :: members) ++ 125 :: rest =
            9 :: printString m.1 ++ 58 :: 9 :: m.2.print D ++
              44 :: 10 :: (printMembers D (m' :: members) ++ 125 :: rest) := by
          simp [printMembers]
        rw [hassoc, hone]
        rcases ih n (by simp) (fun x hx => hfits x (by simp [hx])) with h | h
        · left
          rw [h]; rfl
        · right
          rw [h]; rfl

/-- The members begin with a quote. -/
theorem skip_printMembers {members : List (List UInt8 × Scalar)} (hne : members ≠ [])
    (rest : List UInt8) : ∃ l, skip (printMembers D members ++ rest) = 34 :: l := by
  have hquote : ∀ l : List UInt8, skip (9 :: 34 :: l) = 34 :: l := by
    intro l
    rw [skip_space (by decide), skip_cons (by decide)]
  obtain ⟨m, members, rfl⟩ := List.exists_cons_of_ne_nil hne
  cases members with
  | nil =>
    simp only [printMembers, List.cons_append, printString]
    exact ⟨_, hquote _⟩
  | cons m' members =>
    simp only [printMembers, List.cons_append, printString]
    exact ⟨_, hquote _⟩

/-- An object is read back, whatever follows it. -/
theorem parse_print (hD : D.Exact) {members : List (List UInt8 × Scalar)} (hne : members ≠ [])
    (hfits : FitsAll members) (rest : List UInt8) :
    parse D (print D members ++ rest) = some (.object (items members)) := by
  have htext : print D members ++ rest = 123 :: 10 :: (printMembers D members ++ 125 :: rest) := by
    simp [print]
  obtain ⟨l, hl⟩ := skip_printMembers hne (125 :: rest)
  have hsettles := parseValue_settles (D := D)
    ((123 :: 10 :: (printMembers D members ++ 125 :: rest)).length + 1)
    (123 :: 10 :: (printMembers D members ++ 125 :: rest)) (Nat.lt_succ_self _)
  rw [parse, htext, skip_cons (by decide)]
  have hobject : ∀ n : ℕ, (parseValue (D := D) (n + 1)
      (123 :: 10 :: (printMembers D members ++ 125 :: rest))) =
      parseObject (parseValue n) (10 :: (printMembers D members ++ 125 :: rest)) := by
    intro n
    rw [parseValue, parseValueWith.eq_def]
    rfl
  rw [List.length_cons, List.length_cons] at hsettles ⊢
  rw [hobject, parseObject, skip_space (by decide), hl] at hsettles ⊢
  rw [if_neg (by simp), ← hl, parseMembers_skip] at hsettles ⊢
  rcases parseMembers_print hD _ rest members _ hne hfits with h | h
  · rw [h]; rfl
  · rw [h] at hsettles
    cases hsettles

/-! ### A text that breaks off -/

/-- Characters that a string goes on over. -/
def Plain (w : List UInt8) : Prop := ∀ c ∈ w, c ≠ 34 ∧ c ≠ 0 ∧ c ≠ 92

/-- What a torn text goes on with: an erased byte and more that a string goes on over, up to the end
    of the memory or to the quote of a name. -/
inductive Torn : List UInt8 → Prop
  | erased {w : List UInt8} (hw : Plain w) : Torn (255 :: w)
  | name {w : List UInt8} (hw : Plain w) (hlen : 3 ≤ w.length) {c : UInt8}
      (hc : 32 < c ∧ c ≠ 58 ∧ c ≠ 44 ∧ c ≠ 125) (l : List UInt8) : Torn (255 :: w ++ 34 :: c :: l)

/-- Neither a colon, nor a comma, nor the closing brace. -/
def Unmarked (l : List UInt8) : Prop := ∀ c ∈ (skip l).head?, c ≠ 58 ∧ c ≠ 44 ∧ c ≠ 125

theorem parseChars_plain : ∀ {w : List UInt8}, Plain w → ∀ l : List UInt8,
    parseChars (w ++ l) = (w ++ (parseChars l).1, (parseChars l).2) := by
  intro w
  induction w with
  | nil => intro _ l; rfl
  | cons c w ih =>
    intro hw l
    obtain ⟨h34, h0, h92⟩ := hw c (by simp)
    rw [List.cons_append, parseChars, if_neg h34, if_neg h0, if_neg h92,
      ih fun d hd => hw d (by simp [hd])]
    rfl

theorem Torn.cons {x : List UInt8} (hx : Torn x) : ∃ l, x = 255 :: l := by
  cases hx with
  | erased hw => exact ⟨_, rfl⟩
  | name hw hlen hc l => exact ⟨_, rfl⟩

theorem Torn.skip_eq {x : List UInt8} (hx : Torn x) : skip x = x := by
  obtain ⟨l, rfl⟩ := hx.cons
  exact skip_cons (by decide) l

theorem Torn.unmarked {x : List UInt8} (hx : Torn x) : Unmarked x := by
  rw [Unmarked, hx.skip_eq]
  obtain ⟨l, rfl⟩ := hx.cons
  rintro c hc
  cases hc
  decide

theorem Torn.endsNumber {x : List UInt8} (hx : Torn x) : EndsNumber x := by
  obtain ⟨l, rfl⟩ := hx.cons
  exact endsNumber_cons (by decide) l

/-- A string that goes on there does not end before a colon, a comma or a brace. -/
theorem Torn.parseChars_drop {x : List UInt8} (hx : Torn x) {d : ℕ} (hd : d ≤ 4) :
    Unmarked (parseChars (x.drop d)).2 := by
  have hplain : ∀ {w : List UInt8}, Plain w → Plain ((255 :: w).drop d) := by
    intro w hw c hc
    rcases List.mem_cons.1 (List.mem_of_mem_drop hc) with rfl | hc
    · decide
    · exact hw c hc
  cases hx with
  | erased hw =>
    have h := parseChars_plain (hplain hw) []
    rw [List.append_nil, parseChars] at h
    rw [h]
    rintro c ⟨⟩
  | @name w hw hlen c hc l =>
    have hlen' : d ≤ (255 :: w).length := by rw [List.length_cons]; omega
    have hskip : skip (c :: l) = c :: l := skip_cons hc.1 l
    rw [List.drop_append_of_le_length hlen', parseChars_plain (hplain hw), parseChars, if_pos rfl,
      Unmarked, hskip]
    rintro d ⟨⟩
    exact hc.2

/-- A character that is no digit among the four. -/
theorem parseHex4_erased (p l : List UInt8) (hp : p.length < 4) :
    parseHex4 (p ++ 255 :: l) = 0 := by
  have h255 : hexValue 255 = none := rfl
  match p, hp with
  | [], _ => rcases l with _ | ⟨a, _ | ⟨b, _ | ⟨c, l⟩⟩⟩ <;> simp [parseHex4, h255]
  | [a], _ => rcases l with _ | ⟨b, _ | ⟨c, l⟩⟩ <;> simp [parseHex4, h255]
  | [a, b], _ => rcases l with _ | ⟨c, l⟩ <;> simp [parseHex4, h255]
  | [a, b, c], _ => simp [parseHex4, h255]

/-- An escape that breaks off behind the `u` skips four characters. -/
theorem Torn.escapeU {x : List UInt8} (hx : Torn x) {p : List UInt8} (hp : p.length < 4) :
    escapeU (p ++ x) = ([], x.drop (4 - p.length)) := by
  obtain ⟨l, rfl⟩ := hx.cons
  rw [CJson.escapeU, parseHex4_erased p l hp]
  simp only [or_true, if_true]
  rw [List.drop_append, List.drop_eq_nil_of_le (by omega), List.nil_append]

/-- A printed character that breaks off. -/
theorem Torn.printChar {x : List UInt8} (hx : Torn x) (c : UInt8) {m : ℕ}
    (hm : m < (printChar c).length) : Unmarked (parseChars ((printChar c).take m ++ x)).2 := by
  have hbackslash : ∀ {y r : List UInt8} {out : List UInt8}, escape y = (out, r) →
      (parseChars (92 :: y)).2 = (parseChars r).2 := by
    intro y r out hy
    rw [parseChars, if_neg (by decide), if_neg (by decide), if_pos rfl, hy]
  have hzero : Unmarked (parseChars x).2 := hx.parseChars_drop (d := 0) (by omega)
  -- The backslash takes the erased byte.
  have hone : Unmarked (parseChars (92 :: x)).2 := by
    have hnext := hx.parseChars_drop (d := 1) (by omega)
    obtain ⟨l, rfl⟩ := hx.cons
    rwa [hbackslash (show escape (255 :: l) = ([255], l) from rfl)]
  -- The `u` takes four characters.
  have hu : ∀ p : List UInt8, p.length < 4 → Unmarked (parseChars (92 :: 117 :: (p ++ x))).2 := by
    intro p hp
    have hnext := hx.parseChars_drop (d := 4 - p.length) (by omega)
    rwa [hbackslash (y := 117 :: (p ++ x)) (hx.escapeU hp)]
  have htwo : ∀ d : UInt8, m < [92, d].length → Unmarked (parseChars ([92, d].take m ++ x)).2 := by
    intro d hlt
    obtain rfl | rfl : m = 0 ∨ m = 1 := by simp at hlt; omega
    · exact hzero
    · exact hone
  revert hm
  rw [CJson.printChar]
  split
  · intro hm
    obtain rfl : m = 0 := by simpa using hm
    exact hzero
  split
  · exact htwo _
  split
  · exact htwo _
  split
  · exact htwo _
  split
  · exact htwo _
  split
  · exact htwo _
  split
  · exact htwo _
  split
  · exact htwo _
  · intro hm
    rcases m with _ | _ | _ | _ | _ | _ | m
    · exact hzero
    · exact hone
    · exact hu [] (by simp)
    · exact hu [48] (by simp)
    · exact hu [48, 48] (by simp)
    · exact hu [48, 48, hexDigit (c / 16)] (by simp)
    · simp at hm; omega

/-- A printed string that breaks off before its closing quote. -/
theorem Torn.chars {x : List UInt8} (hx : Torn x) : ∀ (s : List UInt8), 0 ∉ s → ∀ m : ℕ,
    m ≤ (s.flatMap CJson.printChar).length →
    Unmarked (parseChars ((s.flatMap CJson.printChar).take m ++ x)).2 := by
  intro s
  induction s with
  | nil =>
    intro _ m _
    rw [List.flatMap_nil, List.take_nil, List.nil_append]
    exact hx.parseChars_drop (d := 0) (by omega)
  | cons c s ih =>
    intro h m hm
    rw [List.mem_cons, not_or] at h
    rw [List.flatMap_cons, List.length_append] at hm
    rw [List.flatMap_cons]
    obtain hlt | hge := Nat.lt_or_ge m (CJson.printChar c).length
    · rw [List.take_append_of_le_length hlt.le]
      exact hx.printChar c hlt
    · obtain ⟨j, rfl⟩ := Nat.exists_eq_add_of_le hge
      rw [List.take_length_add_append, List.append_assoc, parseChars_printChar (Ne.symm h.1)]
      exact ih h.2 j (by omega)

theorem Torn.parseString {x : List UInt8} (hx : Torn x) {s : List UInt8} (h : 0 ∉ s) {m : ℕ}
    (hm : m < (printString s).length) {v r : List UInt8}
    (hr : CJson.parseString ((printString s).take m ++ x) = .ok (v, r)) : Unmarked r := by
  cases m with
  | zero =>
    obtain ⟨l, rfl⟩ := hx.cons
    cases hr
  | succ m =>
    have hle : m ≤ (s.flatMap CJson.printChar).length := by
      simp only [printString, List.length_append, List.length_cons, List.length_nil] at hm
      omega
    rw [printString, List.cons_append, List.take_succ_cons, List.take_append_of_le_length hle] at hr
    cases hr
    exact hx.chars s h m hle

theorem Torn.value {x : List UInt8} (hx : Torn x) (value : List UInt8 → Parse (Item D)) :
    parseValueWith value x = .error .malformed := by
  obtain ⟨l, rfl⟩ := hx.cons
  rw [parseValueWith.eq_def]
  rfl

/-- A number or a string that breaks off is not followed by a comma or a brace. -/
theorem Torn.scalar {x : List UInt8} (hx : Torn x) (hD : D.Exact) {v : Scalar} (hv : v.Fits)
    {m : ℕ} (hm : m < (v.print D).length) (value : List UInt8 → Parse (Item D)) {i : Item D}
    {r : List UInt8}
    (hr : parseValueWith value (skip ((v.print D).take m ++ x)) = .ok (i, r)) : Unmarked r := by
  cases m with
  | zero =>
    rw [List.take_zero, List.nil_append, hx.skip_eq, hx.value] at hr
    cases hr
  | succ m =>
    cases v with
    | number n =>
      obtain ⟨c, ds, hc, hdig⟩ := intText_cons n
      have hne : c ≠ 34 := by
        rintro rfl
        revert hdig; decide
      have hlt : 32 < c := by
        rcases hdig with rfl | hdig
        · decide
        · rw [isDigit_iff] at hdig
          rw [UInt8.lt_iff_toNat_lt]
          simp; omega
      have hparse := parseNumber_intText (D := D) (n := n) (k := m + 1) (by omega) hx.endsNumber
      rw [Scalar.print, hD.print_ofInt n hv.1 hv.2] at hr
      rw [hc, List.take_succ_cons, List.cons_append] at hr hparse
      rw [skip_cons hlt, not_word (.inr hdig), if_neg hne, hparse] at hr
      cases hr
      exact hx.unmarked
    | string s =>
      rw [Scalar.print] at hm hr
      obtain ⟨l, hl⟩ : ∃ l, (printString s).take (m + 1) ++ x = 34 :: l := ⟨_, rfl⟩
      rw [hl, skip_cons (by decide), not_word (.inl rfl), if_pos rfl] at hr
      cases hp : CJson.parseString (34 :: l) with
      | error e => rw [hp] at hr; cases hr
      | ok u =>
        rw [hp] at hr
        cases hr
        exact hx.parseString hv hm (hl ▸ hp)

/-- A round of the loop that gives something has found a name, a colon, a value, and a comma or the
    closing brace. -/
theorem parseMembers_inv {value : List UInt8 → Parse (Item D)} {n : ℕ} {l : List UInt8}
    {y : List (List UInt8 × Item D) × List UInt8} (h : parseMembers value n l = .ok y) :
    ∃ name r i r', parseString (skip l) = .ok (name, r) ∧ (skip r).head? = some 58 ∧
      value (skip (skip r).tail) = .ok (i, r') ∧
      ((skip r').head? = some 44 ∨ (skip r').head? = some 125) := by
  cases n with
  | zero => cases h
  | succ n =>
    rw [parseMembers] at h
    cases hs : parseString (skip l) with
    | error e => rw [hs] at h; cases h
    | ok s =>
      obtain ⟨name, r⟩ := s
      rw [hs] at h
      dsimp only at h
      split at h
      · cases h
      · next hc =>
        cases hv : value (skip (skip r).tail) with
        | error e => rw [hv] at h; cases h
        | ok i =>
          obtain ⟨i, r'⟩ := i
          rw [hv] at h
          dsimp only at h
          split at h
          · next hc' => exact ⟨name, r, i, r', rfl, not_not.1 hc, hv, .inl hc'⟩
          split at h
          · next hc' => exact ⟨name, r, i, r', rfl, not_not.1 hc, hv, .inr hc'⟩
          · cases h

theorem Unmarked.not_colon {r : List UInt8} (h : Unmarked r) : (skip r).head? ≠ some 58 :=
  fun hc => (h 58 hc).1 rfl

theorem Unmarked.not_close {r : List UInt8} (h : Unmarked r) :
    ¬((skip r).head? = some 44 ∨ (skip r).head? = some 125) := by
  rintro (hc | hc)
  · exact (h 44 hc).2.1 rfl
  · exact (h 125 hc).2.2 rfl

theorem Torn.members {x : List UInt8} (hx : Torn x) (value : List UInt8 → Parse (Item D)) (n : ℕ)
    (y : List (List UInt8 × Item D) × List UInt8) : parseMembers value n x ≠ .ok y := by
  intro h
  obtain ⟨name, r, i, r', hname, -⟩ := parseMembers_inv h
  rw [hx.skip_eq] at hname
  obtain ⟨l, rfl⟩ := hx.cons
  cases hname

/-- A member that breaks off before the end of its value. -/
theorem Torn.member {x : List UInt8} (hx : Torn x) (hD : D.Exact) {name : List UInt8} {v : Scalar}
    (hname : 0 ∉ name) (hv : v.Fits) (k n : ℕ) {m : ℕ}
    (hm : m < (9 :: printString name ++ 58 :: 9 :: v.print D).length)
    (y : List (List UInt8 × Item D) × List UInt8) :
    parseMembers (parseValue (k + 1)) n
      ((9 :: printString name ++ 58 :: 9 :: v.print D).take m ++ x) ≠ .ok y := by
  intro h
  obtain ⟨s, r, i, r', hs, hcolon, hvalue, hclose⟩ := parseMembers_inv h
  rw [parseValue] at hvalue
  cases m with
  | zero => exact hx.members _ _ _ h
  | succ m =>
    rw [List.cons_append, List.take_succ_cons, List.cons_append, skip_space (by decide)] at hs
    obtain hlt | hge := Nat.lt_or_ge m (printString name).length
    · -- The name breaks off.
      rw [List.take_append_of_le_length hlt.le] at hs
      have hstart : skip ((printString name).take m ++ x) = (printString name).take m ++ x := by
        cases m with
        | zero => exact hx.skip_eq
        | succ m =>
          rw [printString, List.cons_append, List.take_succ_cons, List.cons_append]
          exact skip_cons (by decide) _
      rw [hstart] at hs
      exact (hx.parseString hname hlt hs).not_colon hcolon
    · obtain ⟨j, rfl⟩ := Nat.exists_eq_add_of_le hge
      have hstart : ∀ l, skip (printString name ++ l) = printString name ++ l := by
        intro l
        rw [printString, List.cons_append, List.cons_append]
        exact skip_cons (by decide) _
      rw [List.take_length_add_append, List.append_assoc, hstart, parseString_print hname] at hs
      cases hs
      -- It breaks off behind the name, behind the colon, or in the value.
      rcases j with _ | _ | j
      · exact hx.unmarked.not_colon hcolon
      · rw [List.take_succ_cons, List.take_zero, List.cons_append, skip_cons (by decide),
          List.tail_cons, List.nil_append, hx.skip_eq, hx.value] at hvalue
        cases hvalue
      · rw [List.take_succ_cons, List.take_succ_cons, List.cons_append, List.cons_append,
          skip_cons (by decide), List.tail_cons, skip_space (by decide)] at hvalue
        have hj : j < (v.print D).length := by
          simp only [List.length_append, List.length_cons] at hm
          omega
        exact (hx.scalar hD hv hj _ hvalue).not_close hclose

/-- The members break off before the closing brace. -/
theorem Torn.printMembers {x : List UInt8} (hx : Torn x) (hD : D.Exact) (k : ℕ) :
    ∀ (members : List (List UInt8 × Scalar)), FitsAll members → members ≠ [] → ∀ (n m : ℕ),
      m ≤ (printMembers D members).length → ∀ y, parseMembers (parseValue (D := D) (k + 1)) n
        ((CJson.printMembers D members).take m ++ x) ≠ .ok y := by
  intro members
  induction members with
  | nil => intro _ h; exact absurd rfl h
  | cons one members ih =>
    intro hfits _ n m hm y h
    have hone := hfits one (by simp)
    -- The member, and what stands behind it.
    obtain ⟨l, hl, hlcases⟩ : ∃ l, CJson.printMembers D (one :: members) =
        9 :: printString one.1 ++ 58 :: 9 :: one.2.print D ++ l ∧
        (l = [10] ∨ members ≠ [] ∧ l = 44 :: 10 :: CJson.printMembers D members) := by
      cases members with
      | nil => exact ⟨[10], rfl, .inl rfl⟩
      | cons m' members => exact ⟨_, rfl, .inr ⟨by simp, rfl⟩⟩
    rw [hl] at h hm
    obtain hlt | hge := Nat.lt_or_ge m (9 :: printString one.1 ++ 58 :: 9 :: one.2.print D).length
    · rw [List.take_append_of_le_length hlt.le] at h
      exact hx.member hD hone.1 hone.2 k n hlt y h
    · obtain ⟨j, rfl⟩ := Nat.exists_eq_add_of_le hge
      rw [List.take_length_add_append, List.append_assoc] at h
      have hends : EndsNumber (l.take j ++ x) := by
        cases j with
        | zero => exact hx.endsNumber
        | succ j =>
          rcases hlcases with rfl | ⟨-, rfl⟩ <;> exact endsNumber_cons (by decide) _
      cases n with
      | zero => cases h
      | succ n =>
        rw [parseMembers_one hD hone.1 hone.2 hends] at h
        rcases hlcases with rfl | ⟨hne, rfl⟩
        · have hskip : skip (([10] : List UInt8).take j ++ x) = x := by
            cases j with
            | zero => exact hx.skip_eq
            | succ j =>
              rw [List.take_succ_cons, List.take_nil, List.singleton_append,
                skip_space (by decide), hx.skip_eq]
          have hclose := hx.unmarked.not_close
          rw [hx.skip_eq, not_or] at hclose
          rw [hskip, if_neg hclose.1, if_neg hclose.2] at h
          cases h
        · cases j with
          | zero =>
            have hclose := hx.unmarked.not_close
            rw [not_or] at hclose
            rw [List.take_zero, List.nil_append, if_neg hclose.1, if_neg hclose.2] at h
            cases h
          | succ j =>
            rw [List.take_succ_cons, List.cons_append, skip_cons (by decide), List.head?_cons,
              if_pos rfl, List.tail_cons] at h
            obtain ⟨rest, hrest⟩ := Parse.map_ok h
            cases j with
            | zero => exact hx.members _ _ _ hrest
            | succ j =>
              rw [List.take_succ_cons, List.cons_append, ← parseMembers_skip,
                skip_space (by decide), parseMembers_skip] at hrest
              refine ih (fun a ha => hfits a (by simp [ha])) hne n j ?_ _ hrest
              simp only [List.length_append, List.length_cons] at hm
              omega

/-- Behind the brace the object does not end at once. -/
theorem Torn.printMembers_head {x : List UInt8} (hx : Torn x)
    {members : List (List UInt8 × Scalar)} (hne : members ≠ []) (m : ℕ) :
    (skip ((CJson.printMembers D members).take m ++ x)).head? ≠ some 125 := by
  have hx125 : (skip x).head? ≠ some 125 := fun h => hx.unmarked.not_close (.inr h)
  obtain ⟨l, hl⟩ : ∃ l, CJson.printMembers D members = 9 :: 34 :: l := by
    obtain ⟨one, members, rfl⟩ := List.exists_cons_of_ne_nil hne
    cases members with
    | nil => exact ⟨_, rfl⟩
    | cons m' members => exact ⟨_, rfl⟩
  rw [hl]
  rcases m with _ | _ | m
  · exact hx125
  · rw [List.take_succ_cons, List.take_zero, List.singleton_append, skip_space (by decide)]
    exact hx125
  · rw [List.take_succ_cons, List.take_succ_cons, List.cons_append, List.cons_append,
      skip_space (by decide), skip_cons (by decide)]
    simp

/-- An object that breaks off is rejected. -/
theorem parse_torn (hD : D.Exact) {members : List (List UInt8 × Scalar)} (hne : members ≠ [])
    (hfits : FitsAll members) {m : ℕ} (hm : m < (print D members).length) {x : List UInt8}
    (hx : Torn x) : parse D ((print D members).take m ++ x) = none := by
  have hobject : ∀ (l : List UInt8), (skip l).head? ≠ some 125 →
      (∀ n k y, parseMembers (parseValue (D := D) (k + 1)) n l ≠ .ok y) →
      parse D (123 :: l) = none := by
    intro l hhead hl
    have hstep : parseValueWith (parseValue (123 :: l).length : List UInt8 → Parse (Item D))
        (123 :: l) = parseObject (parseValue (123 :: l).length) l := by
      rw [parseValueWith.eq_def]
      rfl
    rw [parse, skip_cons (by decide), parseValue, hstep, parseObject, if_neg hhead,
      parseMembers_skip]
    cases h : parseMembers (parseValue (D := D) (123 :: l).length) ((skip l).length + 1) l with
    | error e => rfl
    | ok y => exact absurd h (hl _ l.length y)
  have hlen : m ≤ (printMembers D members).length + 2 := by
    simp only [print, List.length_append, List.length_cons, List.length_nil] at hm
    omega
  rcases m with _ | _ | m
  · rw [List.take_zero, List.nil_append, parse, hx.skip_eq, parseValue, hx.value]
  · refine hobject x ?_ fun n k y => hx.members _ n y
    exact fun h => hx.unmarked.not_close (.inr h)
  · have htake : (print D members).take (m + 1 + 1) =
        123 :: 10 :: (printMembers D members).take m := by
      rw [print, List.cons_append, List.cons_append, List.take_succ_cons, List.take_succ_cons,
        List.take_append_of_le_length (by omega)]
    rw [htake, List.cons_append, List.cons_append]
    refine hobject _ ?_ fun n k y => ?_
    · rw [skip_space (by decide)]
      exact hx.printMembers_head hne m
    · rw [← parseMembers_skip, skip_space (by decide), parseMembers_skip]
      exact hx.printMembers hD k members hfits hne n m (by omega) y

end EasyCore.CJson
