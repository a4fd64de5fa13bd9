import EasyCore.Lib.Decimal

/-! JSON (`easyio_core/json/cJSON.c`): the text of an object of numbers and strings, and the parser.
    There is memory for what is built. A text goes to the end of its memory at most, where the
    parser sees a NUL. -/

namespace EasyCore.CJson
open Decimal

/-! ### Numbers -/

/-- The arithmetic on doubles: the double of an integer, the one that `parse_number` makes of the
    text of a number, the conversion to `int`, and the text that `print_number` makes. -/
structure Doubles where
  Double : Type
  ofInt : ℤ → Double
  ofText : List UInt8 → Double
  toInt : Double → ℤ
  print : Double → List UInt8

/-- "%d". -/
def intText (n : ℤ) : List UInt8 :=
  if n < 0 then 45 :: numeral n.natAbs else numeral n.natAbs

/-- Integers of 32 bits, signed or not, are doubles and are printed as integers; an `int` is also
    converted back. -/
structure Doubles.Exact (D : Doubles) : Prop where
  print_ofInt : ∀ n : ℤ, -2 ^ 31 ≤ n → n < 2 ^ 32 → D.print (D.ofInt n) = intText n
  ofText_intText : ∀ n : ℤ, -2 ^ 31 ≤ n → n < 2 ^ 32 → D.ofText (intText n) = D.ofInt n
  toInt_ofInt : ∀ n : ℤ, -2 ^ 31 ≤ n → n < 2 ^ 31 → D.toInt (D.ofInt n) = n

/-- Doubles that are integers; an `int` saturates. -/
def integers : Doubles where
  Double := ℤ
  ofInt n := n
  ofText l := if l.head? = some 45 then -(value l.tail : ℤ) else value l
  toInt n := max (-2 ^ 31) (min n (2 ^ 31 - 1))
  print := intText

theorem integers_exact : integers.Exact where
  print_ofInt _ _ _ := rfl
  ofText_intText n _ _ := by
    simp only [integers, intText]
    split
    · simp only [List.head?_cons, if_true, List.tail_cons, value_numeral]
      omega
    · have hhead : (numeral n.natAbs).head? ≠ some 45 := by
        intro h
        have hdigit := numeral_isDigit _ _ (List.mem_of_mem_head? h)
        exact absurd hdigit (by decide)
      rw [if_neg hhead, value_numeral]
      omega
  toInt_ofInt n _ _ := by
    simp only [integers]
    omega

variable (D : Doubles)

/-- A `cJSON` item; the children of an object have names. -/
inductive Item
  | null
  | false
  | true
  | number (valuedouble : D.Double)
  | string (valuestring : List UInt8)
  | array (child : List Item)
  | object (child : List (List UInt8 × Item))

/-- The numbers and strings that `cJSON_AddNumberToObject` and `cJSON_AddStringToObject` add. -/
inductive Scalar
  | number (n : ℤ)
  | string (s : List UInt8)

variable {D}

def Item.valueint : Item D → ℤ
  | .number d => D.toInt d
  | .true => 1
  | _ => 0

/-- `none` is the null pointer. -/
def Item.valuestring : Item D → Option (List UInt8)
  | .string s => some s
  | _ => none

def Scalar.item : Scalar → Item D
  | .number n => .number (D.ofInt n)
  | .string s => .string s

def tolower (c : UInt8) : UInt8 := if 65 ≤ c ∧ c ≤ 90 then c + 32 else c

/-- `cJSON_GetObjectItem`: the first child of that name, for `cJSON_strcasecmp`. The children of an
    array have no names. -/
def Item.getObjectItem (object : Item D) (name : List UInt8) : Option (Item D) :=
  match object with
  | .object child => (child.find? fun c => c.1.map tolower = name.map tolower).map Prod.snd
  | _ => none

/-! ### Printing -/

/-- The digit of "%x". -/
def hexDigit (n : UInt8) : UInt8 := if n < 10 then 48 + n else 87 + n

/-- A character in `print_string_ptr`. -/
def printChar (c : UInt8) : List UInt8 :=
  if 31 < c ∧ c ≠ 34 ∧ c ≠ 92 then [c]
  else if c = 92 then [92, 92]
  else if c = 34 then [92, 34]
  else if c = 8 then [92, 98]
  else if c = 12 then [92, 102]
  else if c = 10 then [92, 110]
  else if c = 13 then [92, 114]
  else if c = 9 then [92, 116]
  else [92, 117, 48, 48, hexDigit (c / 16), hexDigit (c % 16)]

/-- `print_string_ptr`. -/
def printString (s : List UInt8) : List UInt8 := 34 :: s.flatMap printChar ++ [34]

variable (D) in
/-- `print_value`. -/
def Scalar.print : Scalar → List UInt8
  | .number n => D.print (D.ofInt n)
  | .string s => printString s

variable (D) in
/-- The entries in `print_object`, at depth 1. -/
def printMembers : List (List UInt8 × Scalar) → List UInt8
  | [] => []
  | [m] => 9 :: printString m.1 ++ 58 :: 9 :: m.2.print D ++ [10]
  | m :: members =>
    9 :: printString m.1 ++ 58 :: 9 :: m.2.print D ++ 44 :: 10 :: printMembers members

variable (D) in
/-- `cJSON_Print` of an object. -/
def print (members : List (List UInt8 × Scalar)) : List UInt8 :=
  123 :: 10 :: printMembers D members ++ [125]

/-! ### Parsing -/

/-- Why a parser stops: the text is malformed, or the count of its rounds is used up. -/
inductive Stop
  | malformed
  | rounds
  deriving DecidableEq

/-- What is parsed, and the text behind it. -/
abbrev Parse (α : Type) := Except Stop (α × List UInt8)

/-- What a parser makes of what another one gives. -/
def Parse.map {α β : Type} (f : α → β) : Parse α → Parse β
  | .ok (v, l) => .ok (f v, l)
  | .error e => .error e

theorem Parse.map_ok {α β : Type} {f : α → β} {p : Parse α} {y : β × List UInt8}
    (h : Parse.map f p = .ok y) : ∃ v, p = .ok v := by
  cases p with
  | ok v => exact ⟨v, rfl⟩
  | error e => cases h

/-- `skip`. -/
def skip (l : List UInt8) : List UInt8 := l.dropWhile fun c => c ≠ 0 && c ≤ 32

def hexValue (c : UInt8) : Option ℕ :=
  if 48 ≤ c ∧ c ≤ 57 then some (c.toNat - 48)
  else if 65 ≤ c ∧ c ≤ 70 then some (c.toNat - 55)
  else if 97 ≤ c ∧ c ≤ 102 then some (c.toNat - 87)
  else none

/-- `parse_hex4`; 0 if there are not four digits. -/
def parseHex4 (l : List UInt8) : ℕ :=
  match l with
  | a :: b :: c :: d :: _ =>
    match hexValue a, hexValue b, hexValue c, hexValue d with
    | some a, some b, some c, some d => ((a * 16 + b) * 16 + c) * 16 + d
    | _, _, _, _ => 0
  | _ => 0

/-- The bytes of a code point. -/
def utf8 (uc : ℕ) : List UInt8 :=
  let next u := UInt8.ofNat ((u ||| 0x80) &&& 0xBF)
  if uc < 0x80 then [UInt8.ofNat uc]
  else if uc < 0x800 then [UInt8.ofNat (uc >>> 6 ||| 0xC0), next uc]
  else if uc < 0x10000 then [UInt8.ofNat (uc >>> 12 ||| 0xE0), next (uc >>> 6), next uc]
  else [UInt8.ofNat (uc >>> 18 ||| 0xF0), next (uc >>> 12), next (uc >>> 6), next uc]

/-- An escape with `u`: what it stands for, and the text behind it. -/
def escapeU (l : List UInt8) : List UInt8 × List UInt8 :=
  let uc := parseHex4 l
  if 0xDC00 ≤ uc ∧ uc ≤ 0xDFFF ∨ uc = 0 then ([], l.drop 4)
  else if 0xD800 ≤ uc ∧ uc ≤ 0xDBFF then
    if l.getD 4 0 ≠ 92 ∨ l.getD 5 0 ≠ 117 then ([], l.drop 4)
    else
      let uc2 := parseHex4 (l.drop 6)
      if uc2 < 0xDC00 ∨ 0xDFFF < uc2 then ([], l.drop 10)
      else (utf8 (0x10000 + ((uc &&& 0x3FF) <<< 10 ||| (uc2 &&& 0x3FF))), l.drop 10)
  else (utf8 uc, l.drop 4)

/-- An escape, from behind the backslash. A NUL there is copied, too. -/
def escape : List UInt8 → List UInt8 × List UInt8
  | [] => ([0], [])
  | c :: l =>
    if c = 98 then ([8], l)
    else if c = 102 then ([12], l)
    else if c = 110 then ([10], l)
    else if c = 114 then ([13], l)
    else if c = 116 then ([9], l)
    else if c = 117 then escapeU l
    else ([c], l)

theorem escape_length (l : List UInt8) : (escape l).2.length ≤ l.length := by
  have hu : ∀ l : List UInt8, (escapeU l).2.length ≤ l.length := by
    intro l
    simp only [escapeU]
    split
    · simp
    · split
      · split
        · simp
        · split <;> simp
      · simp
  cases l with
  | nil => exact le_rfl
  | cons c l =>
    have hl := hu l
    simp only [escape, List.length_cons]
    repeat' split
    all_goals first
      | exact Nat.le_succ l.length
      | exact hl.trans (Nat.le_succ _)

/-- The characters of a string, up to the closing quote or a NUL, and the text behind. -/
def parseChars (l : List UInt8) : List UInt8 × List UInt8 :=
  match l with
  | [] => ([], [])
  | c :: l =>
    if c = 34 then ([], l)
    else if c = 0 then ([], c :: l)
    else if c = 92 then
      let r := parseChars (escape l).2
      ((escape l).1 ++ r.1, r.2)
    else
      let r := parseChars l
      (c :: r.1, r.2)
termination_by l.length
decreasing_by
  · have := escape_length l
    simp only [List.length_cons]; omega
  · simp

/-- `parse_string`: the C string. -/
def parseString : List UInt8 → Parse (List UInt8)
  | 34 :: l =>
    let r := parseChars l
    .ok (r.1.takeWhile (· ≠ 0), r.2)
  | _ => .error .malformed

/-- In `parse_number`: the sign, a zero, the integer, the fraction and the exponent. -/
def scanSign (l : List UInt8) : List UInt8 := if l.head? = some 45 then l.tail else l

def scanZero (l : List UInt8) : List UInt8 := if l.head? = some 48 then l.tail else l

def scanInteger (l : List UInt8) : List UInt8 :=
  if l.head?.any fun c => 49 ≤ c && c ≤ 57 then l.dropWhile isDigit else l

def scanFraction (l : List UInt8) : List UInt8 :=
  if l.head? = some 46 ∧ l.tail.head?.any isDigit then l.tail.dropWhile isDigit else l

def scanExponent (l : List UInt8) : List UInt8 :=
  if l.head? = some 101 ∨ l.head? = some 69 then
    let l := l.tail
    let l := if l.head? = some 43 ∨ l.head? = some 45 then l.tail else l
    l.dropWhile isDigit
  else l

/-- The text behind a number. -/
def scanNumber (l : List UInt8) : List UInt8 :=
  scanExponent (scanFraction (scanInteger (scanZero (scanSign l))))

/-- `parse_number`. -/
def parseNumber (l : List UInt8) : Item D × List UInt8 :=
  (.number (D.ofText (l.take (l.length - (scanNumber l).length))), scanNumber l)

/-- The loop of `parse_array`, at a value. -/
def parseElements (value : List UInt8 → Parse (Item D)) : ℕ → List UInt8 → Parse (List (Item D))
  | 0, _ => .error .rounds
  | n + 1, l =>
    match value (skip l) with
    | .error e => .error e
    | .ok (v, l) =>
      if (skip l).head? = some 44 then Parse.map (v :: ·) (parseElements value n (skip l).tail)
      else if (skip l).head? = some 93 then .ok ([v], (skip l).tail)
      else .error .malformed

/-- The loop of `parse_object`, at a name. -/
def parseMembers (value : List UInt8 → Parse (Item D)) :
    ℕ → List UInt8 → Parse (List (List UInt8 × Item D))
  | 0, _ => .error .rounds
  | n + 1, l =>
    match parseString (skip l) with
    | .error e => .error e
    | .ok (name, l) =>
      if (skip l).head? ≠ some 58 then .error .malformed
      else
        match value (skip (skip l).tail) with
        | .error e => .error e
        | .ok (v, l) =>
          if (skip l).head? = some 44 then
            Parse.map ((name, v) :: ·) (parseMembers value n (skip l).tail)
          else if (skip l).head? = some 125 then .ok ([(name, v)], (skip l).tail)
          else .error .malformed

/-- `parse_array`, behind the bracket. -/
def parseArray (value : List UInt8 → Parse (Item D)) (l : List UInt8) : Parse (Item D) :=
  if (skip l).head? = some 93 then .ok (.array [], (skip l).tail)
  else Parse.map .array (parseElements value ((skip l).length + 1) (skip l))

/-- `parse_object`, behind the brace. -/
def parseObject (value : List UInt8 → Parse (Item D)) (l : List UInt8) : Parse (Item D) :=
  if (skip l).head? = some 125 then .ok (.object [], (skip l).tail)
  else Parse.map .object (parseMembers value ((skip l).length + 1) (skip l))

/-- `parse_value`, with `value` for the values inside. -/
def parseValueWith (value : List UInt8 → Parse (Item D)) (l : List UInt8) : Parse (Item D) :=
  if [110, 117, 108, 108].isPrefixOf l then .ok (.null, l.drop 4)
  else if [102, 97, 108, 115, 101].isPrefixOf l then .ok (.false, l.drop 5)
  else if [116, 114, 117, 101].isPrefixOf l then .ok (.true, l.drop 4)
  else
    match l with
    | [] => .error .malformed
    | c :: rest =>
      if c = 34 then Parse.map .string (parseString l)
      else if c = 45 ∨ isDigit c then .ok (parseNumber l)
      else if c = 91 then parseArray value rest
      else if c = 123 then parseObject value rest
      else .error .malformed

def parseValue : ℕ → List UInt8 → Parse (Item D)
  | 0, _ => .error .rounds
  | n + 1, l => parseValueWith (parseValue n) l

variable (D) in
/-- `cJSON_Parse`; each value is shorter than the text it stands in. -/
def parse (l : List UInt8) : Option (Item D) :=
  match parseValue ((skip l).length + 1) (skip l) with
  | .ok (v, _) => some v
  | .error _ => none

/-! ### The rounds suffice -/

theorem skip_length (l : List UInt8) : (skip l).length ≤ l.length :=
  (List.dropWhile_sublist _).length_le

theorem parseChars_length (l : List UInt8) : (parseChars l).2.length ≤ l.length := by
  induction l using parseChars.induct with
  | case1 => simp [parseChars]
  | case2 l => simp [parseChars]
  | case3 l => simp [parseChars]
  | case4 l h0 h34 ih =>
    have hesc := escape_length l
    simp [parseChars]; omega
  | case5 c l h34 h0 h92 ih =>
    rw [parseChars, if_neg h34, if_neg h0, if_neg h92, List.length_cons]
    exact ih.trans (Nat.le_succ _)

theorem parseString_length {l : List UInt8} {s r : List UInt8} (h : parseString l = .ok (s, r)) :
    r.length < l.length := by
  cases l with
  | nil => cases h
  | cons c l =>
    simp only [parseString] at h
    split at h
    · next heq =>
      cases heq
      cases h
      exact Nat.lt_succ_of_le (parseChars_length _)
    · cases h

/-- A parser has consumed something, or it has found that the text is malformed. -/
def Settles {α : Type} (l : List UInt8) : Parse α → Prop
  | .ok (_, r) => r.length < l.length
  | .error e => e = .malformed

theorem Settles.map {α β : Type} {l m : List UInt8} {p : Parse α} (h : Settles m p)
    (hm : m.length ≤ l.length) (f : α → β) : Settles l (Parse.map f p) := by
  cases p with
  | error e => exact h
  | ok v => exact Nat.lt_of_lt_of_le h hm

theorem parseString_settles (l : List UInt8) : Settles l (parseString l) := by
  cases h : parseString l with
  | ok v => exact parseString_length h
  | error e =>
    simp only [parseString] at h
    split at h
    · cases h
    · cases h; rfl

/-- What is left behind a character is shorter than the text. -/
theorem tail_lt {l r : List UInt8} {c : UInt8} (hr : r.length < (skip l).length)
    (hc : (skip r).head? = some c) : (skip r).tail.length + 1 < l.length := by
  have h₁ := skip_length l
  have h₂ := skip_length r
  cases hm : skip r with
  | nil => rw [hm] at hc; cases hc
  | cons d m =>
    rw [hm, List.length_cons] at h₂
    rw [List.tail_cons]; omega

theorem parseElements_settles {value : List UInt8 → Parse (Item D)} {b : ℕ}
    (hv : ∀ l, l.length ≤ b → Settles l (value l)) : ∀ (n : ℕ) (l : List UInt8), l.length ≤ b →
    l.length < n → Settles l (parseElements value n l) := by
  intro n
  induction n with
  | zero => intro l _ h; omega
  | succ n ih =>
    intro l hl hn
    have hvl := hv (skip l) ((skip_length l).trans hl)
    rw [parseElements]
    cases hval : value (skip l) with
    | error e =>
      rw [hval] at hvl
      exact hvl
    | ok v =>
      obtain ⟨v, r⟩ := v
      rw [hval] at hvl
      dsimp only
      split
      · next hc =>
        have hlt := tail_lt hvl hc
        exact (ih (skip r).tail (by omega) (by omega)).map (by omega) _
      split
      · next hc =>
        have hlt := tail_lt hvl hc
        simp only [Settles]; omega
      · rfl

theorem parseMembers_settles {value : List UInt8 → Parse (Item D)} {b : ℕ}
    (hv : ∀ l, l.length ≤ b → Settles l (value l)) : ∀ (n : ℕ) (l : List UInt8), l.length ≤ b →
    l.length < n → Settles l (parseMembers value n l) := by
  intro n
  induction n with
  | zero => intro l _ h; omega
  | succ n ih =>
    intro l hl hn
    have hname := parseString_settles (skip l)
    rw [parseMembers]
    cases hs : parseString (skip l) with
    | error e =>
      rw [hs] at hname
      exact hname
    | ok s =>
      obtain ⟨name, r⟩ := s
      rw [hs] at hname
      dsimp only
      split
      · rfl
      · next hc =>
        have hlt := tail_lt hname (not_not.1 hc)
        have hvl := hv (skip (skip r).tail) ((skip_length _).trans (by omega))
        cases hval : value (skip (skip r).tail) with
        | error e =>
          rw [hval] at hvl
          exact hvl
        | ok v =>
          obtain ⟨v, r'⟩ := v
          rw [hval] at hvl
          dsimp only
          split
          · next hc' =>
            have hlt' := tail_lt hvl hc'
            exact (ih (skip r').tail (by omega) (by omega)).map (by omega) _
          split
          · next hc' =>
            have hlt' := tail_lt hvl hc'
            simp only [Settles]; omega
          · rfl

theorem dropWhile_length (p : UInt8 → Bool) (l : List UInt8) :
    (l.dropWhile p).length ≤ l.length :=
  (List.dropWhile_sublist _).length_le

theorem scanInteger_length (l : List UInt8) : (scanInteger l).length ≤ l.length := by
  rw [scanInteger]
  split
  · exact dropWhile_length _ _
  · exact le_rfl

theorem scanRest_length (l : List UInt8) : (scanExponent (scanFraction l)).length ≤ l.length := by
  have hfrac : (scanFraction l).length ≤ l.length := by
    simp only [scanFraction]
    split
    · have := dropWhile_length isDigit l.tail
      rw [List.length_tail] at this; omega
    · exact le_rfl
  refine le_trans ?_ hfrac
  simp only [scanExponent]
  split
  · refine (dropWhile_length _ _).trans ?_
    split <;> simp only [List.length_tail] <;> omega
  · exact le_rfl

/-- The first character of a number is consumed. -/
theorem scanNumber_length {c : UInt8} {l : List UInt8} (h : c = 45 ∨ isDigit c) :
    (scanNumber (c :: l)).length < (c :: l).length := by
  refine (scanRest_length _).trans_lt ?_
  rw [List.length_cons, Nat.lt_succ_iff]
  by_cases hsign : c = 45
  · subst hsign
    refine (scanInteger_length _).trans ?_
    change (scanZero l).length ≤ l.length
    rw [scanZero]
    split <;> simp
  · have hdig : isDigit c = true := h.resolve_left hsign
    rw [scanSign, if_neg (by simpa using hsign)]
    by_cases hzero : c = 48
    · subst hzero
      exact scanInteger_length l
    · have hc : (49 ≤ c && c ≤ 57) = true := by
        rw [isDigit_iff] at hdig
        rw [← UInt8.toNat_inj] at hzero
        simp only [Bool.and_eq_true, decide_eq_true_eq, UInt8.le_iff_toNat_le]
        simp at hzero ⊢; omega
      rw [scanZero, if_neg (by simpa using hzero), scanInteger, List.head?_cons, Option.any_some,
        if_pos hc, List.dropWhile_cons_of_pos hdig]
      exact dropWhile_length _ _

/-- One round for each character, and one more. -/
theorem parseValue_settles : ∀ (n : ℕ) (l : List UInt8), l.length < n →
    Settles l (parseValue n l : Parse (Item D)) := by
  intro n
  induction n with
  | zero => intro l h; omega
  | succ n ih =>
    intro l hl
    have hword : ∀ (w : List UInt8) (v : Item D), w.isPrefixOf l = true → 0 < w.length →
        Settles l (.ok (v, l.drop w.length)) := by
      intro w v hw hpos
      have := (List.isPrefixOf_iff_prefix.1 hw).length_le
      simp only [Settles, List.length_drop]; omega
    rw [parseValue, parseValueWith.eq_def]
    split
    · next h => exact hword _ _ h (by simp)
    split
    · next h => exact hword _ _ h (by simp)
    split
    · next h => exact hword _ _ h (by simp)
    cases l with
    | nil => rfl
    | cons c l =>
      have hskip := skip_length l
      rw [List.length_cons] at hl
      dsimp only
      split
      · exact (parseString_settles (c :: l)).map le_rfl _
      split
      · next h => exact scanNumber_length h
      split
      · rw [parseArray]
        split
        · simp only [Settles, List.length_tail, List.length_cons]; omega
        · refine (parseElements_settles (b := (skip l).length) ?_ _ _ le_rfl (by omega)).map ?_ _
          · exact fun l' hl' => ih l' (by omega)
          · rw [List.length_cons]; omega
      split
      · rw [parseObject]
        split
        · simp only [Settles, List.length_tail, List.length_cons]; omega
        · refine (parseMembers_settles (b := (skip l).length) ?_ _ _ le_rfl (by omega)).map ?_ _
          · exact fun l' hl' => ih l' (by omega)
          · rw [List.length_cons]; omega
      · rfl

end EasyCore.CJson
