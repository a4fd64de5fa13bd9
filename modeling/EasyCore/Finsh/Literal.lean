import EasyCore.Finsh.Lexeme
import EasyCore.Lib.Hex

/-! The literals of a line as C writes them, and the numbers among them as `finsh_token.c` reads them.

        0x1F l        the lead of the radix, digits, a suffix
        ── ── ─
        'a' '\n'      a character, or an escape
        "a\101b"      characters; an escape takes as many digits as it can

    The digits of a hexadecimal number are taken with every letter that follows, the suffix too. -/

namespace EasyCore.Finsh.Lexer
open Hex

/-! ### What C says -/

/-- A character of a constant or of a string. -/
inductive CChar
  | plain (c : UInt8)
  | simple (e : UInt8)
  | octal (digits : List UInt8)
  | hex (digits : List UInt8)

/-- The escapes of one letter. -/
def cEscapes : List (UInt8 × UInt8) :=
  [(110, 10), (116, 9), (118, 11), (98, 8), (114, 13), (102, 12), (97, 7), (92, 92), (39, 39), (34, 34)]

/-- Digits in a base, the first the highest. -/
def numberIn (base : ℕ) (digits : List UInt8) : ℕ :=
  digits.foldl (fun n c => base * n + Hex.digitValue c) 0

namespace CChar

def text : CChar → List UInt8
  | plain c => [c]
  | simple e => [charBackslash, e]
  | octal ds => charBackslash :: ds
  | hex ds => charBackslash :: 120 :: ds

def value : CChar → UInt8
  | plain c => c
  | simple e => (cEscapes.lookup e).getD 0
  | octal ds => UInt8.ofNat (numberIn 8 ds)
  | hex ds => UInt8.ofNat (numberIn 16 ds)

/-- Between these quotes; the value of an escape fits a `char`. -/
def Ok (quote : UInt8) : CChar → Prop
  | plain c => c ≠ quote ∧ c ≠ charBackslash ∧ c ≠ charLf ∧ c ≠ 0
  | simple e => (cEscapes.lookup e).isSome
  | octal ds => ds ≠ [] ∧ ds.length ≤ 3 ∧ (∀ d ∈ ds, isOctal d) ∧ numberIn 8 ds < 256
  | hex ds => ds ≠ [] ∧ (∀ d ∈ ds, isHexDigit d) ∧ numberIn 16 ds < 256

/-- The first ends where the second begins: an escape takes as many digits as it can. -/
def Apart : CChar → CChar → Prop
  | octal ds, plain c => ds.length < 3 → isOctal c = false
  | hex _, plain c => isHexDigit c = false
  | _, _ => True

end CChar

/-- How a number is written. -/
inductive Radix
  | decimal
  | octal
  | hex (x : UInt8)
  | binary (b : UInt8)
  deriving DecidableEq

namespace Radix

def base : Radix → ℕ
  | decimal => 10
  | octal => 8
  | hex _ => 16
  | binary _ => 2

/-- What stands in front of the digits. -/
def lead : Radix → List UInt8
  | decimal => []
  | octal => [48]
  | hex x => [48, x]
  | binary b => [48, b]

def IsDigit (c : UInt8) : Radix → Prop
  | decimal => isDigit c
  | octal => isOctal c
  | hex _ => isHexDigit c
  | binary _ => c = 48 ∨ c = 49

def Ok (digits : List UInt8) : Radix → Prop
  | decimal => digits ≠ [] ∧ digits.head? ≠ some 48
  | octal => True
  | hex x => (x = 120 ∨ x = 88) ∧ digits ≠ []
  | binary b => (b = 98 ∨ b = 66) ∧ digits ≠ []

end Radix

/-- A number with its suffix, a character constant, or a string. -/
inductive Literal
  | number (radix : Radix) (digits : List UInt8) (suffix : Option UInt8)
  | char (c : CChar)
  | string (cs : List CChar)

/-- The characters of a string. -/
def textOf (cs : List CChar) : List UInt8 := cs.flatMap CChar.text

namespace Literal

def text : Literal → List UInt8
  | number radix digits suffix => radix.lead ++ (digits ++ suffix.toList)
  | char c => charQuote :: (c.text ++ [charQuote])
  | string cs => charDoubleQuote :: (textOf cs ++ [charDoubleQuote])

/-- A well-formed literal, with this behind it on its line. -/
structure Ok (lit : Literal) (rest : List UInt8) : Prop where
  line : ∀ c ∈ rest, c ≠ 0 ∧ c ≠ charLf
  wellFormed : match lit with
    | number radix digits suffix => radix.Ok digits ∧ (∀ d ∈ digits, radix.IsDigit d) ∧
      (∀ l ∈ suffix, l = 108 ∨ l = 76) ∧ ∀ c ∈ rest.head?, isName c = false
    | char c => c.Ok charQuote
    | string cs => (∀ c ∈ cs, c.Ok charDoubleQuote) ∧ cs.IsChain CChar.Apart

/-- The limits on the digits of a number and on the characters of a string. -/
def Short : Literal → Prop
  | number radix digits _ => radix = .decimal ∨ digits.length < stringMax
  | char _ => True
  | string cs => cs.length < stringMax

/-- The token is the literal's: its type and its value. A decimal number is a signed one. -/
def Means (t : FinshToken) : Literal → Prop
  | number radix digits suffix => ∃ w : UInt32,
    t.current = some (if suffix = none then .valueInt w else .valueLong w) ∧
      w.toNat = numberIn radix.base digits ∧ (radix = .decimal → numberIn radix.base digits < 2 ^ 31)
  | char c => t.current = some (.valueChar c.value)
  | string cs => t.string.take (cs.length + 1) = cs.map CChar.value ++ [0] ∧
    t.current = some (.valueString (cstring (cs.map CChar.value ++ [0])))

end Literal

/-- The cursor is in front of this; at the end of the line it may be behind it. -/
def Before (line : Line) (rest : List UInt8) (c : Cursor) : Prop :=
  c = cursorAt line (some rest) ∨ rest = [] ∧ c = cursorAt line none

/-- In front of the literal, the next token is the literal's, no error is set, and what is left is what
    stands behind the literal. -/
def Yields (lit : Literal) (rest : List UInt8) : Prop :=
  ∀ (line : Line) (t : FinshToken), t.string.length = stringMax →
    lit.text ++ rest <:+ text line → t.cursor = cursorAt line (some (lit.text ++ rest)) →
    ∃ t', tokenRun line t = some t' ∧ lit.Means t' ∧
      t'.errno = t.errno ∧ Before line rest t'.cursor

/-! ### Digits -/

theorem forall_byte {P : UInt8 → Prop} (h : ∀ n < 256, P (UInt8.ofNat n)) (c : UInt8) : P c := by
  have hc := h c.toNat c.toNat_lt
  rwa [UInt8.ofNat_toNat] at hc

/-- What the tests say of a hexadecimal digit. -/
theorem hexDigit_table : ∀ c, isHexDigit c = true →
    (digitValue c).toNat = Hex.digitValue c ∧ Hex.digitValue c < 16 ∧ (isDigit c || isAlpha c) = true ∧
      isHex c = isDigit c ∧ c.toNat < 160 ∧
      (isHex c = false → 10 ≤ Hex.digitValue c ∧ c.toNat % 16 = Hex.digitValue c - 9) :=
  forall_byte (by decide +kernel)

/-- And of a decimal one. -/
theorem digit_table : ∀ c, isDigit c = true →
    Hex.digitValue c < 10 ∧ (c.toUInt32 - 48).toNat = Hex.digitValue c ∧
      c - 48 = UInt8.ofNat (Hex.digitValue c) ∧ (isOctal c = true → Hex.digitValue c < 8) :=
  forall_byte (by decide +kernel)

/-- A digit for `token_spec_number`. -/
theorem digitValue_toNat (c : UInt8) (h : isHexDigit c = true) :
    (digitValue c).toNat = Hex.digitValue c ∧ Hex.digitValue c < 16 :=
  ⟨(hexDigit_table c h).1, (hexDigit_table c h).2.1⟩

theorem isHexDigit_of_digit {c : UInt8} (h : isDigit c = true) : isHexDigit c = true := by
  unfold isDigit at h
  rw [isHexDigit, h]
  rfl

theorem isDigit_of_octal {c : UInt8} (h : isOctal c = true) : isDigit c = true := by
  simp only [isOctal, isDigit, Bool.and_eq_true, decide_eq_true_eq] at h ⊢
  exact ⟨h.1, UInt8.le_of_lt (UInt8.lt_trans h.2 (by decide))⟩

theorem isHexDigit_name (c : UInt8) (h : isHexDigit c = true) :
    (isDigit c || isAlpha c) = true ∧ isName c = true := by
  have hname := (hexDigit_table c h).2.2.1
  refine ⟨hname, ?_⟩
  rw [isName, Bool.or_comm (isAlpha c), hname]
  rfl

theorem isDigit_hex (c : UInt8) (h : isDigit c = true) :
    isHexDigit c = true ∧ isName c = true ∧ Hex.digitValue c < 10 ∧
      (c.toUInt32 - 48).toNat = Hex.digitValue c :=
  have hhex := isHexDigit_of_digit h
  ⟨hhex, (isHexDigit_name c hhex).2, (digit_table c h).1, (digit_table c h).2.1⟩

theorem isOctal_hex (c : UInt8) (h : isOctal c = true) :
    isHexDigit c = true ∧ isDigit c = true ∧ isHex c = true ∧ Hex.digitValue c < 8 := by
  have hdigit := isDigit_of_octal h
  have hhex := isHexDigit_of_digit hdigit
  exact ⟨hhex, hdigit, (hexDigit_table c hhex).2.2.2.1.trans hdigit, (digit_table c hdigit).2.2.2 h⟩

theorem isDigit_blank (c : UInt8) (h : isDigit c = true) : isBlank c = false := by
  refine Bool.eq_false_iff.2 fun hblank => ?_
  simp only [isBlank, Bool.or_eq_true, decide_eq_true_eq] at hblank
  rcases hblank with (rfl | rfl) | rfl <;> revert h <;> decide

theorem numberIn_append (base : ℕ) (ds : List UInt8) (d : UInt8) :
    numberIn base (ds ++ [d]) = base * numberIn base ds + Hex.digitValue d := by
  unfold numberIn
  rw [List.foldl_append]
  rfl

/-- The lower word of a shift by the digits of a power of two. -/
theorem tokenSpecNumber_toNat {k : ℕ} {shift : UInt32} (hshift : shift.toNat = k) (hk : k ≤ 4)
    (digits : List UInt8) (hd : ∀ d ∈ digits, isHexDigit d = true ∧ Hex.digitValue d < 2 ^ k) :
    (tokenSpecNumber shift digits).toNat = numberIn (2 ^ k) digits % 2 ^ 32 := by
  induction digits using List.reverseRecOn with
  | nil => rfl
  | append_singleton ds d ih =>
    have hlast := hd d (by simp)
    have hinit := ih fun e he => hd e (List.mem_append_left _ he)
    have hstep : tokenSpecNumber shift (ds ++ [d]) = tokenSpecNumber shift ds <<< shift ||| digitValue d := by
      unfold tokenSpecNumber
      rw [List.foldl_append]
      rfl
    have hmod : (numberIn (2 ^ k) ds % 2 ^ 32) <<< k % 2 ^ 32 =
        (numberIn (2 ^ k) ds % 2 ^ (32 - k)) <<< k := by
      have hsplit : 2 ^ 32 = 2 ^ (32 - k) * 2 ^ k := by
        rw [← Nat.pow_add]
        congr 1
        omega
      rw [Nat.shiftLeft_eq, Nat.shiftLeft_eq, Nat.mod_mul_mod, hsplit, Nat.mul_mod_mul_right]
    rw [hstep, numberIn_append, UInt32.toNat_or, UInt32.toNat_shiftLeft, hshift, hinit,
      (digitValue_toNat d hlast.1).1, Nat.mod_eq_of_lt (show k < 32 by omega), hmod,
      ← Nat.shiftLeft_add_eq_or_of_lt hlast.2]
    have hlt := hlast.2
    interval_cases k <;> rw [Nat.shiftLeft_eq] <;> omega

theorem decimalValue_toNat (digits : List UInt8) (hd : ∀ d ∈ digits, isDigit d = true) :
    (decimalValue digits).toNat = numberIn 10 digits % 2 ^ 32 := by
  induction digits using List.reverseRecOn with
  | nil => rfl
  | append_singleton ds d ih =>
    have hinit := ih fun e he => hd e (List.mem_append_left _ he)
    have hlast := (isDigit_hex d (hd d (by simp))).2.2
    have hstep : decimalValue (ds ++ [d]) = decimalValue ds * 10 + (d.toUInt32 - 48) := by
      unfold decimalValue
      rw [List.foldl_append]
      rfl
    rw [hstep, numberIn_append, UInt32.toNat_add, UInt32.toNat_mul, hlast.2, hinit]
    have h10 : (10 : UInt32).toNat = 10 := rfl
    rw [h10]
    omega

/-! ### Numbers -/

section Numbers
variable {line : Line} {c : UInt8} {r s digits rest : List UInt8} {suffix : Option UInt8}
  {t : FinshToken} {p : UInt8 → Bool} {radix : Radix}

/-- A loop over characters ends with them. -/
theorem span_run (hd : ∀ d ∈ digits, p d = true) (hs : ∀ c ∈ s.head?, p c = false) :
    (digits ++ s).takeWhile p = digits ∧ (digits ++ s).dropWhile p = s := by
  have hstop : s.takeWhile p = [] ∧ s.dropWhile p = s := by
    cases s with
    | nil => exact ⟨rfl, rfl⟩
    | cons c s =>
      have hc := hs c rfl
      exact ⟨List.takeWhile_cons_of_neg (by simp [hc]), List.dropWhile_cons_of_neg (by simp [hc])⟩
  constructor
  · rw [List.takeWhile_append_of_pos hd, hstop.1, List.append_nil]
  · rw [List.dropWhile_append_of_pos hd, hstop.2]

/-- The first token behind the cursor starts with neither a space nor a letter. -/
theorem tokenRun_operator (hs : c :: r <:+ text line)
    (hcursor : t.cursor = cursorAt line (some (c :: r))) (hblank : isBlank c = false)
    (hc : isDigit c = true ∨ isName c = false) :
    tokenRun line t = tokenOperator line { t with string := [0] ++ t.string.drop 1 } := by
  have htrim : trim (c :: r) = c :: r := List.dropWhile_cons_of_neg (by simp [hblank])
  have heof : (cursorAt line (some (c :: r))).eof = false := rfl
  have hempty : cstring ([0] ++ t.string.drop 1) = [] := rfl
  rw [tokenRun, hcursor, tokenTrimSpace_eq hs, htrim]
  simp only [Option.bind_eq_bind, Option.bind_some, unread, reduceCtorEq, if_false]
  cases hdigit : isDigit c with
  | true =>
    simp only [tokenGetString_digit hs hdigit, Option.bind_some, heof, Bool.false_eq_true, if_false,
      hempty, if_true]
  | false =>
    have hname : isName c = false := hc.resolve_left (by simp [hdigit])
    have htake : (c :: r).takeWhile isName = [] := List.takeWhile_cons_of_neg (by simp [hname])
    have hdrop : (c :: r).dropWhile isName = c :: r := List.dropWhile_cons_of_neg (by simp [hname])
    have hstore : store ([] ++ [0]) t.string = some ([0] ++ t.string.drop 1) := rfl
    rw [tokenGetString_eq hs hdigit, htake, hdrop, hstore]
    simp only [Option.map_some, Option.bind_some, heof, Bool.false_eq_true, if_false, hempty, if_true]

theorem tokenRun_number (hs : c :: r <:+ text line)
    (hcursor : t.cursor = cursorAt line (some (c :: r))) (hc : isDigit c = true) :
    tokenRun line t = (tokenProcNumber line (cursorAt line (some (c :: r)))).map fun q =>
      { t with string := [0] ++ t.string.drop 1, cursor := q.2, current := some q.1 } := by
  have hprev := prev_first hs
  have hblank := isDigit_blank c hc
  obtain ⟨hsingle, hdouble, hquote, hstring⟩ := digit_lookup hc
  simp only [first_cons, unread, reduceCtorEq, if_false] at hprev
  rw [tokenRun_operator hs hcursor hblank (.inl hc)]
  simp only [tokenOperator, hcursor, next_cons hs, hsingle, hdouble, hquote, hstring, if_false, hc,
    if_true, hprev]

/-- The suffix of a number, and what follows. -/
theorem numberEnd_suffix (hs : suffix.toList ++ rest <:+ text line)
    (hsuffix : ∀ l ∈ suffix, l = 108 ∨ l = 76) (hrest : ∀ c ∈ rest.head?, isName c = false)
    (value : UInt32) :
    ∃ c', numberEnd (value, (first (suffix.toList ++ rest)).1,
        cursorAt line (first (suffix.toList ++ rest)).2) =
      (if suffix = none then .valueInt value else .valueLong value, c') ∧ Before line rest c' := by
  cases suffix with
  | some l =>
    refine ⟨cursorAt line (some rest), ?_, .inl rfl⟩
    rw [numberEnd]
    exact if_pos (hsuffix l rfl)
  | none =>
    have hprev := prev_first hs
    rw [Option.toList_none, List.nil_append] at hprev ⊢
    refine ⟨cursorAt line (unread rest), ?_, ?_⟩
    · rw [numberEnd, if_neg, hprev]
      · rfl
      · intro hl
        cases rest with
        | nil =>
          have hzero : ¬((0 : UInt8) = 108 ∨ (0 : UInt8) = 76) := by decide
          exact hzero hl
        | cons c rest =>
          have hname := hrest c rfl
          rcases hl with rfl | rfl
          · exact absurd hname (by decide)
          · exact absurd hname (by decide)
    · cases rest with
      | nil => exact .inr ⟨rfl, rfl⟩
      | cons c rest => exact .inl rfl

/-- What may follow the digits: no letter and no digit, or a suffix that is not taken for a digit. -/
def EndsDigits (radix : Radix) (c : UInt8) : Prop :=
  isName c = false ∨ (c = 108 ∨ c = 76) ∧ ∀ x, radix ≠ .hex x

theorem isName_alpha (c : UInt8) (h : isName c = false) : (isDigit c || isAlpha c) = false := by
  rw [isName, Bool.or_eq_false_iff] at h
  rw [Bool.or_comm, h.1]

theorem ends_table (c : UInt8) (h : isName c = false ∨ c = 108 ∨ c = 76) :
    isDigit c = false ∧ (c = 48 || c = 49) = false ∧ ¬(c = 120 ∨ c = 88) ∧ ¬(c = 98 ∨ c = 66) := by
  rcases h with h | rfl | rfl
  · refine ⟨(Bool.or_eq_false_iff.1 (isName_alpha c h)).1, Bool.eq_false_iff.2 fun hbit => ?_, ?_, ?_⟩
    · simp only [Bool.or_eq_true, decide_eq_true_eq] at hbit
      rcases hbit with rfl | rfl <;> revert h <;> decide
    · rintro (rfl | rfl) <;> revert h <;> decide
    · rintro (rfl | rfl) <;> revert h <;> decide
  · decide
  · decide

theorem isDigit_table (c : UInt8) (h : isDigit c = true) :
    ¬(c = 120 ∨ c = 88) ∧ ¬(c = 98 ∨ c = 66) := by
  constructor <;> rintro (rfl | rfl) <;> revert h <;> decide

theorem binary_table (c : UInt8) (h : c = 48 ∨ c = 49) :
    (c = 48 || c = 49) = true ∧ isHexDigit c = true ∧ Hex.digitValue c < 2 := by
  rcases h with rfl | rfl <;> decide

/-- Digits in an array, with the value of the lower word. -/
theorem specDigits_run (hs : digits ++ s <:+ text line) (hp : p 0 = false)
    (hd : ∀ d ∈ digits, p d = true) (hstop : ∀ c ∈ s.head?, p c = false)
    (hshort : digits.length < stringMax) (shift : UInt32) :
    specDigits line shift p (tokenNextChar line (cursorAt line (some (digits ++ s)))) =
      some (tokenSpecNumber shift digits, (first s).1, cursorAt line (first s).2) := by
  obtain ⟨htake, hdrop⟩ := span_run hd hstop
  rw [specDigits_eq hs hp, htake, hdrop, if_pos hshort]

/-- The value of a number, and the character behind its digits. -/
theorem numberValue_run (hs : radix.lead ++ (digits ++ s) <:+ text line) (hok : radix.Ok digits)
    (hd : ∀ d ∈ digits, radix.IsDigit d) (hshort : radix = .decimal ∨ digits.length < stringMax)
    (hends : ∀ c ∈ s.head?, EndsDigits radix c) :
    ∃ value, numberValue line (cursorAt line (some (radix.lead ++ (digits ++ s)))) =
        some (value, (first s).1, cursorAt line (first s).2) ∧
      value.toNat = numberIn radix.base digits % 2 ^ 32 := by
  have hend : ∀ c ∈ s.head?, isName c = false ∨ c = 108 ∨ c = 76 := fun c hc =>
    (hends c hc).imp_right And.left
  cases radix with
  | decimal =>
    obtain ⟨hne, hzero⟩ := hok
    obtain ⟨d, ds, rfl⟩ := List.exists_cons_of_ne_nil hne
    obtain ⟨htake, hdrop⟩ := span_run (p := isDigit) hd fun c hc => (ends_table c (hend c hc)).1
    have hrun := takeChars_next isDigit_zero hs
    have hs' : d :: (ds ++ s) <:+ text line := hs
    rw [Radix.lead, List.nil_append] at hrun ⊢
    rw [htake, hdrop, List.cons_append, next_cons hs'] at hrun
    refine ⟨decimalValue (d :: ds), ?_, decimalValue_toNat _ hd⟩
    rw [numberValue, List.cons_append, next_cons hs']
    dsimp only
    rw [if_neg fun h => hzero (congrArg some h), hrun]
    rfl
  | octal =>
    have hs' : 48 :: (digits ++ s) <:+ text line := hs
    have hsub : digits ++ s <:+ text line := (List.suffix_cons 48 _).trans hs
    have hrun := specDigits_run (p := isDigit) hsub isDigit_zero
      (fun d hd' => (isOctal_hex d (hd d hd')).2.1) (fun c hc => (ends_table c (hend c hc)).1)
      (hshort.resolve_left (by decide)) 3
    refine ⟨tokenSpecNumber 3 digits, ?_, tokenSpecNumber_toNat (k := 3) rfl (by decide) digits
      fun d hd' => ⟨(isOctal_hex d (hd d hd')).1, (isOctal_hex d (hd d hd')).2.2.2⟩⟩
    have hbase : ¬((first (digits ++ s)).1 = 120 ∨ (first (digits ++ s)).1 = 88) ∧
        ¬((first (digits ++ s)).1 = 98 ∨ (first (digits ++ s)).1 = 66) := by
      cases digits with
      | cons d ds => exact isDigit_table d (isOctal_hex d (hd d List.mem_cons_self)).2.1
      | nil =>
        cases s with
        | nil => exact ⟨by decide, by decide⟩
        | cons c s => exact (ends_table c (hend c rfl)).2.2
    rw [numberValue, Radix.lead, List.singleton_append, next_cons hs']
    dsimp only
    rw [if_pos rfl, next_first hsub]
    dsimp only
    rw [if_neg hbase.1, if_neg hbase.2, ← next_first hsub]
    exact hrun
  | hex x =>
    have hsub : x :: (digits ++ s) <:+ text line := (List.suffix_cons 48 _).trans hs
    have hsub' : digits ++ s <:+ text line := (List.suffix_cons x _).trans hsub
    have hrun := specDigits_run (p := fun c => isDigit c || isAlpha c) hsub' (by decide)
      (fun d hd' => (isHexDigit_name d (hd d hd')).1)
      (fun c hc => isName_alpha c ((hends c hc).resolve_right fun h => h.2 x rfl))
      (hshort.resolve_left (by simp)) 4
    refine ⟨tokenSpecNumber 4 digits, ?_, tokenSpecNumber_toNat (k := 4) rfl le_rfl digits
      fun d hd' => ⟨hd d hd', (digitValue_toNat d (hd d hd')).2⟩⟩
    have hs' : 48 :: x :: (digits ++ s) <:+ text line := hs
    have hlead : Radix.lead (.hex x) ++ (digits ++ s) = 48 :: x :: (digits ++ s) := rfl
    rw [numberValue, hlead, next_cons hs']
    dsimp only
    rw [if_pos rfl, next_cons hsub]
    dsimp only
    rw [if_pos hok.1]
    exact hrun
  | binary b =>
    have hsub : b :: (digits ++ s) <:+ text line := (List.suffix_cons 48 _).trans hs
    have hsub' : digits ++ s <:+ text line := (List.suffix_cons b _).trans hsub
    have hrun := specDigits_run (p := fun c => c = 48 || c = 49) hsub' (by decide)
      (fun d hd' => (binary_table d (hd d hd')).1) (fun c hc => (ends_table c (hend c hc)).2.1)
      (hshort.resolve_left (by simp)) 1
    refine ⟨tokenSpecNumber 1 digits, ?_, tokenSpecNumber_toNat (k := 1) rfl (by decide) digits
      fun d hd' => (binary_table d (hd d hd')).2⟩
    have hs' : 48 :: b :: (digits ++ s) <:+ text line := hs
    have hlead : Radix.lead (.binary b) ++ (digits ++ s) = 48 :: b :: (digits ++ s) := rfl
    have hx : ¬(b = 120 ∨ b = 88) := by
      rcases hok.1 with rfl | rfl
      · decide
      · decide
    rw [numberValue, hlead, next_cons hs']
    dsimp only
    rw [if_pos rfl, next_cons hsub]
    dsimp only
    rw [if_neg hx, if_pos hok.1]
    exact hrun

theorem suffix_table (c : UInt8) (h : c = 108 ∨ c = 76) : (isDigit c || isAlpha c) = true := by
  rcases h with rfl | rfl <;> decide

/-- What stands behind the digits. -/
theorem ends_tail (hsuffix : ∀ l ∈ suffix, l = 108 ∨ l = 76)
    (hrest : ∀ c ∈ rest.head?, isName c = false) (hhex : ∀ x, radix = .hex x → suffix = none) :
    ∀ c ∈ (suffix.toList ++ rest).head?, EndsDigits radix c := by
  cases suffix with
  | none => exact fun c hc => .inl (hrest c hc)
  | some l =>
    rintro c ⟨⟩
    exact .inr ⟨hsuffix _ rfl, fun x hx => absurd (hhex x hx) (by simp)⟩

/-- A number starts with a digit. -/
theorem number_cons (hok : radix.Ok digits) (hd : ∀ d ∈ digits, radix.IsDigit d) (s : List UInt8) :
    ∃ c r, radix.lead ++ (digits ++ s) = c :: r ∧ isDigit c = true := by
  cases radix with
  | decimal =>
    obtain ⟨d, ds, rfl⟩ := List.exists_cons_of_ne_nil hok.1
    exact ⟨d, ds ++ s, rfl, hd d List.mem_cons_self⟩
  | octal => exact ⟨48, _, rfl, by decide⟩
  | hex x => exact ⟨48, _, rfl, by decide⟩
  | binary b => exact ⟨48, _, rfl, by decide⟩

/-- The token of a number, but for a hexadecimal one with a suffix. -/
theorem number_token (hok : radix.Ok digits) (hd : ∀ d ∈ digits, radix.IsDigit d)
    (hsuffix : ∀ l ∈ suffix, l = 108 ∨ l = 76) (hrest : ∀ c ∈ rest.head?, isName c = false)
    (hshort : radix = .decimal ∨ digits.length < stringMax)
    (hhex : ∀ x, radix = .hex x → suffix = none)
    (hs : radix.lead ++ (digits ++ (suffix.toList ++ rest)) <:+ text line)
    (hcursor : t.cursor = cursorAt line (some (radix.lead ++ (digits ++ (suffix.toList ++ rest))))) :
    ∃ value c', tokenRun line t = some { t with
        string := [0] ++ t.string.drop 1
        cursor := c'
        current := some (if suffix = none then .valueInt value else .valueLong value) } ∧
      value.toNat = numberIn radix.base digits % 2 ^ 32 ∧ Before line rest c' := by
  obtain ⟨value, hvalue, hnat⟩ := numberValue_run hs hok hd hshort (ends_tail hsuffix hrest hhex)
  have htail : suffix.toList ++ rest <:+ text line :=
    (List.suffix_append digits _).trans ((List.suffix_append radix.lead _).trans hs)
  obtain ⟨c', hend, hbefore⟩ := numberEnd_suffix htail hsuffix hrest value
  obtain ⟨c, r, hcons, hc⟩ := number_cons hok hd (suffix.toList ++ rest)
  refine ⟨value, c', ?_, hnat, hbefore⟩
  rw [hcons] at hs hcursor hvalue
  rw [tokenRun_number hs hcursor hc, tokenProcNumber, hvalue, Option.map_some, hend]
  rfl

/-- A hexadecimal number takes the suffix for a digit. -/
theorem hex_suffix_token {x l : UInt8} {t' : FinshToken} (hx : x = 120 ∨ x = 88)
    (hd : ∀ d ∈ digits, isHexDigit d = true) (hl : l = 108 ∨ l = 76)
    (hrest : ∀ c ∈ rest.head?, isName c = false)
    (hs : 48 :: x :: (digits ++ l :: rest) <:+ text line)
    (hcursor : t.cursor = cursorAt line (some (48 :: x :: (digits ++ l :: rest))))
    (hrun : tokenRun line t = some t') : ∃ w, t'.current = some (.valueInt w) := by
  have hsub : x :: (digits ++ l :: rest) <:+ text line := (List.suffix_cons 48 _).trans hs
  have hsub' : (digits ++ [l]) ++ rest <:+ text line := by
    rw [List.append_assoc]
    exact (List.suffix_cons x _).trans hsub
  have hname : ∀ d ∈ digits ++ [l], (isDigit d || isAlpha d) = true := by
    intro d hmem
    rcases List.mem_append.1 hmem with h | h
    · exact (isHexDigit_name d (hd d h)).1
    · exact suffix_table d (List.mem_singleton.1 h ▸ hl)
  obtain ⟨htake, hdrop⟩ := span_run (p := fun c => isDigit c || isAlpha c) (s := rest) hname
    fun c hc => isName_alpha c (hrest c hc)
  have hspec := specDigits_eq (p := fun c => isDigit c || isAlpha c) hsub' (by decide) 4
  rw [htake, hdrop, List.append_assoc, List.singleton_append] at hspec
  have hvalue : numberValue line (cursorAt line (some (48 :: x :: (digits ++ l :: rest)))) =
      specDigits line 4 (fun c => isDigit c || isAlpha c)
        (tokenNextChar line (cursorAt line (some (digits ++ l :: rest)))) := by
    rw [numberValue, next_cons hs]
    dsimp only
    rw [if_pos rfl, next_cons hsub]
    exact if_pos hx
  rw [tokenRun_number hs hcursor (by decide), tokenProcNumber, hvalue, hspec] at hrun
  split_ifs at hrun
  · have hend' : (none : Option UInt8).toList ++ rest <:+ text line :=
      (List.suffix_append (digits ++ [l]) rest).trans hsub'
    obtain ⟨c', hend, -⟩ := numberEnd_suffix hend' (by simp) hrest (tokenSpecNumber 4 (digits ++ [l]))
    rw [Option.toList_none, List.nil_append] at hend
    rw [Option.map_some, hend] at hrun
    obtain rfl := Option.some.inj hrun
    exact ⟨_, rfl⟩
  · cases hrun

end Numbers

end EasyCore.Finsh.Lexer
