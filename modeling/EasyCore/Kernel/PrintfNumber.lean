import EasyCore.Kernel.PrintfBound

/-! The integer formats of `rt_vsnprintf` beside those of standard C.

    `stdText` is what the standard prescribes for a conversion with its flags and width: the digits of
    the base, the sign, and the padding on its side. The code agrees but for `o`: `divide` knows the
    bases 10 and 16 only, so octal numbers come out in hexadecimal. -/

namespace EasyCore.Printf
open Function Decimal Kernel Sinks

/-! ### What the standard says -/

/-- A flag character. -/
inductive Flag
  | minus | plus | space | zero
  deriving DecidableEq

/-- The field width of a conversion. It is an `int`; behind an argument the minus is a flag. -/
inductive Width
  | none
  | literal (w : ℕ) (pos : 0 < w) (isInt : w < 2 ^ 31)
  | star (v : UInt32) (isInt : v ≠ 0x80000000)

/-- The conversion character. -/
inductive Conv
  | d | i | u | x | X | o
  deriving DecidableEq

def Flag.char : Flag → UInt8
  | minus => ch '-'
  | plus => ch '+'
  | space => ch ' '
  | zero => ch '0'

def Conv.char : Conv → UInt8
  | d => ch 'd'
  | i => ch 'i'
  | u => ch 'u'
  | x => ch 'x'
  | X => ch 'X'
  | o => ch 'o'

/-- The conversion takes an `int`. -/
def Conv.signed : Conv → Bool
  | d | i => true
  | _ => false

def Conv.base : Conv → ℕ
  | d | i | u => 10
  | x | X => 16
  | o => 8

def Conv.large : Conv → Bool
  | X => true
  | _ => false

/-- The width, 0 without one. -/
def Width.value : Width → ℕ
  | none => 0
  | literal w _ _ => w
  | star v _ => (int32 v.toNat).natAbs

/-- The width is a negative argument. -/
def Width.negative : Width → Bool
  | star v _ => int32 v.toNat < 0
  | _ => false

def Width.text : Width → List UInt8
  | none => []
  | literal w _ _ => numeral w
  | star _ _ => [ch '*']

def Width.args : Width → List Arg
  | star v _ => [.word v]
  | _ => []

/-- A digit of a base up to 16. -/
def digitChar (large : Bool) (d : ℕ) : UInt8 :=
  UInt8.ofNat (if d < 10 then 48 + d else (if large then 55 else 87) + d)

/-- A number in a base, the highest digit first. -/
def digitsIn (base : ℕ) (large : Bool) (n : ℕ) : List UInt8 :=
  if n = 0 then [ch '0'] else ((Nat.digits base n).map (digitChar large)).reverse

/-- The sign of a number: a minus, or what the flags ask for. -/
def stdSign (flags : List Flag) (conv : Conv) (v : UInt32) : List UInt8 :=
  if conv.signed then
    if int32 v.toNat < 0 then [ch '-']
    else if .plus ∈ flags then [ch '+']
    else if .space ∈ flags then [ch ' ']
    else []
  else []

/-- The number without its sign. -/
def stdMagnitude (conv : Conv) (v : UInt32) : ℕ :=
  if conv.signed then (int32 v.toNat).natAbs else v.toNat

/-- Padding to the width: blanks behind, zeros behind the sign, or blanks in front. -/
def layout (left zero : Bool) (width : ℕ) (sign digits : List UInt8) : List UInt8 :=
  let pad := width - (sign.length + digits.length)
  if left then sign ++ digits ++ List.replicate pad (ch ' ')
  else if zero then sign ++ List.replicate pad (ch '0') ++ digits
  else List.replicate pad (ch ' ') ++ sign ++ digits

/-- The text of a conversion with its digits in a base. -/
def textIn (base : ℕ) (flags : List Flag) (width : Width) (conv : Conv) (v : UInt32) : List UInt8 :=
  layout (decide (.minus ∈ flags) || width.negative) (decide (.zero ∈ flags)) width.value
    (stdSign flags conv v) (digitsIn base conv.large (stdMagnitude conv v))

/-- The text standard C prescribes. -/
def stdText (flags : List Flag) (width : Width) (conv : Conv) (v : UInt32) : List UInt8 :=
  textIn conv.base flags width conv v

/-- The characters of the conversion behind the `%`. -/
def convText (flags : List Flag) (width : Width) (conv : Conv) : List UInt8 :=
  flags.map Flag.char ++ (width.text ++ [conv.char])

/-! ### Digits -/

theorem divide_eq (n : ℕ) {base : ℕ} {b : ℕ} (hb : b = if base = 10 then 10 else 16) :
    divide n base = (n % b, n / b) := by
  unfold divide
  rw [hb]
  split <;> rfl

/-- The digit loop writes the digits, the lowest first. -/
theorem digitLoop_eq (table : List UInt8) {base b : ℕ} (hb : b = if base = 10 then 10 else 16) :
    ∀ (fuel n : ℕ), n < b ^ fuel →
      digitLoop table base fuel n = (Nat.digits b n).map fun d => table.getD d 0
  | 0, n, hn => by
    obtain rfl : n = 0 := by simpa using hn
    rw [digitLoop, Nat.digits_zero]
    rfl
  | fuel + 1, n, hn => by
    have hb1 : 1 < b := by
      rw [hb]
      split <;> decide
    unfold digitLoop
    by_cases h0 : n = 0
    · rw [if_pos h0, h0, Nat.digits_zero]
      rfl
    · have hdiv : n / b < b ^ fuel := Nat.div_lt_of_lt_mul (by rwa [← Nat.pow_succ'])
      rw [if_neg h0, divide_eq n hb, Nat.digits_def' hb1 (Nat.pos_of_ne_zero h0), List.map_cons]
      dsimp only
      rw [digitLoop_eq table hb fuel (n / b) hdiv]

theorem table_eq (large : Bool) : ∀ d < 16,
    (if large then largeDigits else smallDigits).getD d 0 = digitChar large d := by
  cases large <;> decide

/-- The base `divide` works in. -/
def printedBase (base : ℕ) : ℕ := if base = 10 then 10 else 16

theorem tmpOf_eq {num : ℕ} (base : ℕ) {type : Flags} (hnum : magnitude num type < 2 ^ 32) :
    (tmpOf num base type).reverse = digitsIn (printedBase base) type.large (magnitude num type) := by
  unfold tmpOf digitsIn
  dsimp only
  by_cases h0 : magnitude num type = 0
  · rw [if_pos h0, if_pos h0]
    rfl
  · have hpow : magnitude num type < printedBase base ^ 16 := by
      refine hnum.trans_le ?_
      unfold printedBase
      split <;> decide
    have hbase : printedBase base ≤ 16 ∧ 1 < printedBase base := by
      unfold printedBase
      split <;> decide
    rw [if_neg h0, if_neg h0, digitLoop_eq _ rfl 16 _ hpow]
    congr 1
    refine List.map_congr_left fun d hd => ?_
    exact table_eq type.large d ((Nat.digits_lt_base hbase.2 hd).trans_le hbase.1)

/-- Without a precision `print_number` lays the number out as the standard does. -/
theorem numberText_eq {num : ℕ} (base : ℕ) {s : ℤ} {type : Flags}
    (hnum : magnitude num type < 2 ^ 32) :
    numberText true num base s (-1) type = layout type.left type.zeropad s.toNat (signText num type)
      (digitsIn (printedBase base) type.large (magnitude num type)) := by
  obtain ⟨ds, hds⟩ : ∃ ds, ds = digitsIn (printedBase base) type.large (magnitude num type) := ⟨_, rfl⟩
  have htmp : (tmpOf num base type).reverse = ds := hds ▸ tmpOf_eq base hnum
  have hlen : (tmpOf num base type).length = ds.length := by rw [← htmp, List.length_reverse]
  have hdigits : digitText num base (-1) type = ds := by
    unfold digitText
    rw [zeros_of_nonpos (by omega), List.nil_append, htmp]
  have hsize : sizeLeft num base s (-1) type = s - ds.length := by
    unfold sizeLeft
    omega
  have hsign : (signText num type).length = if signOf num type ≠ 0 then 1 else 0 := by
    unfold signText
    split <;> rfl
  have hrest : (if signOf num type ≠ 0 ∧ true = true then s - ds.length - 1 else s - ds.length).toNat =
      s.toNat - ((signText num type).length + ds.length) := by
    rw [hsign]
    by_cases h : signOf num type = 0
    · simp only [h, ne_eq, not_true_eq_false, false_and, if_false]
      omega
    · simp only [h, ne_eq, not_false_eq_true, true_and, if_true]
      omega
  have hfront : (s - ds.length - (signText num type).length).toNat =
      s.toNat - ((signText num type).length + ds.length) := by omega
  unfold numberText layout blanks zeros
  dsimp only
  rw [hdigits, hsize, ← hds, hrest, hfront]

/-! ### Reading the format -/

/-- The flags a list of flag characters sets. -/
def flagsOf (type : Flags) (flags : List Flag) : Flags :=
  { type with
    left := type.left || decide (.minus ∈ flags)
    plus := type.plus || decide (.plus ∈ flags)
    space := type.space || decide (.space ∈ flags)
    zeropad := type.zeropad || decide (.zero ∈ flags) }

/-- What stands behind the flags is no flag. -/
def NoFlag (c : UInt8) : Prop :=
  c ≠ ch '-' ∧ c ≠ ch '+' ∧ c ≠ ch ' ' ∧ c ≠ ch '#' ∧ c ≠ ch '0'

instance (c : UInt8) : Decidable (NoFlag c) := by unfold NoFlag; infer_instance

theorem parseFlags_eq {c : UInt8} (hc : NoFlag c) (rest : List UInt8) :
    ∀ (flags : List Flag) (type : Flags),
      parseFlags type (flags.map Flag.char ++ c :: rest) = (flagsOf type flags, c :: rest)
  | [], type => by
    obtain ⟨h1, h2, h3, h4, h5⟩ := hc
    rw [List.map_nil, List.nil_append, parseFlags, if_neg h1, if_neg h2, if_neg h3, if_neg h4,
      if_neg h5]
    simp [flagsOf]
  | f :: flags, type => by
    have ih := parseFlags_eq hc rest flags
    cases f with
    | minus =>
      have hstep : parseFlags type ((Flag.minus :: flags).map Flag.char ++ c :: rest) =
          parseFlags { type with left := true } (flags.map Flag.char ++ c :: rest) := rfl
      rw [hstep, ih]
      simp [flagsOf]
    | plus =>
      have hstep : parseFlags type ((Flag.plus :: flags).map Flag.char ++ c :: rest) =
          parseFlags { type with plus := true } (flags.map Flag.char ++ c :: rest) := rfl
      rw [hstep, ih]
      simp [flagsOf]
    | space =>
      have hstep : parseFlags type ((Flag.space :: flags).map Flag.char ++ c :: rest) =
          parseFlags { type with space := true } (flags.map Flag.char ++ c :: rest) := rfl
      rw [hstep, ih]
      simp [flagsOf]
    | zero =>
      have hstep : parseFlags type ((Flag.zero :: flags).map Flag.char ++ c :: rest) =
          parseFlags { type with zeropad := true } (flags.map Flag.char ++ c :: rest) := rfl
      rw [hstep, ih]
      simp [flagsOf]

/-- `skip_atoi` reads the digits up to a character that is none. -/
theorem skipAtoi_eq {c : UInt8} (hc : isDigit c = false) (rest : List UInt8) :
    ∀ (ds : List UInt8) (i : ℕ), (∀ d ∈ ds, isDigit d = true) →
      skipAtoi i (ds ++ c :: rest) = (ds.foldl (fun n d => 10 * n + digitValue d) i, c :: rest)
  | [], i, _ => by
    rw [List.nil_append, skipAtoi, hc]
    rfl
  | d :: ds, i, hds => by
    rw [List.cons_append, skipAtoi, if_pos (hds d List.mem_cons_self),
      skipAtoi_eq hc rest ds _ fun e he => hds e (List.mem_cons_of_mem d he), List.foldl_cons,
      Nat.mul_comm]

theorem parseInt_numeral {c : UInt8} (hc : isDigit c = false) (rest : List UInt8) {w : ℕ}
    (hw : w < 2 ^ 31) : parseInt (numeral w ++ c :: rest) = some ((w : ℤ), c :: rest) := by
  have hvalue : (numeral w).foldl (fun n d => 10 * n + digitValue d) 0 = w := value_numeral w
  unfold parseInt
  dsimp only
  rw [skipAtoi_eq hc rest _ 0 (numeral_isDigit w), hvalue, if_pos hw]

/-- The width as `rt_vsnprintf` keeps it. -/
def Width.field : Width → ℤ
  | none => -1
  | literal w _ _ => w
  | star v _ => (int32 v.toNat).natAbs

theorem parseFlags_convText (flags : List Flag) (width : Width) (conv : Conv) :
    parseFlags noFlags (convText flags width conv) =
      (flagsOf noFlags flags, width.text ++ [conv.char]) := by
  obtain ⟨c, rest, hrest, hc⟩ : ∃ c rest, width.text ++ [conv.char] = c :: rest ∧ NoFlag c := by
    cases width with
    | none =>
      refine ⟨conv.char, [], rfl, ?_⟩
      cases conv <;> decide
    | star v h => exact ⟨ch '*', [conv.char], rfl, by decide⟩
    | literal w pos isInt =>
      obtain ⟨d, ds, hnum⟩ := List.exists_cons_of_ne_nil (numeral_ne_nil w)
      have hdigit : isDigit d = true := numeral_isDigit w d (by rw [hnum]; exact List.mem_cons_self)
      have hhead : d ≠ 48 := numeral_head pos.ne' hnum
      refine ⟨d, ds ++ [conv.char], ?_, ?_, ?_, ?_, ?_, hhead⟩
      · have htext : (Width.literal w pos isInt).text = numeral w := rfl
        rw [htext, hnum, List.cons_append]
      all_goals
        rintro rfl
        exact absurd hdigit (by decide)
  unfold convText
  rw [hrest, parseFlags_eq hc]

theorem int32_min {v : UInt32} (hv : v ≠ 0x80000000) : int32 v.toNat ≠ -2 ^ 31 := by
  have hne : v.toNat ≠ 2 ^ 31 := fun h => hv (UInt32.toNat_inj.1 h)
  have hlt := v.toNat_lt
  unfold int32
  omega

theorem parseWidth_eq (type : Flags) (width : Width) (conv : Conv) (args : List Arg) :
    parseWidth type (width.text ++ [conv.char]) (width.args ++ args) =
      some (width.field, { type with left := type.left || width.negative }, [conv.char], args) := by
  have hdigit : isDigit conv.char = false := by cases conv <;> decide
  cases width with
  | none =>
    have hstar : conv.char ≠ ch '*' := by cases conv <;> decide
    have htype : { type with left := type.left || Width.none.negative } = type := by
      simp [Width.negative]
    have htext : Width.none.text = [] := rfl
    have hargs : Width.none.args = [] := rfl
    rw [htype, htext, hargs, List.nil_append, List.nil_append]
    unfold parseWidth
    dsimp only
    rw [hdigit, if_neg Bool.false_ne_true, if_neg hstar]
    rfl
  | literal w pos isInt =>
    obtain ⟨d, ds, hnum⟩ := List.exists_cons_of_ne_nil (numeral_ne_nil w)
    have hd : isDigit d = true := numeral_isDigit w d (by rw [hnum]; exact List.mem_cons_self)
    have hint := parseInt_numeral hdigit [] isInt
    have htype : { type with left := type.left || (Width.literal w pos isInt).negative } = type := by
      simp [Width.negative]
    have htext : (Width.literal w pos isInt).text = numeral w := rfl
    have hargs : (Width.literal w pos isInt).args = [] := rfl
    rw [hnum] at hint
    rw [htype, htext, hargs, hnum, List.nil_append, List.cons_append]
    unfold parseWidth
    dsimp only
    rw [hd, if_pos rfl, ← List.cons_append, hint]
    rfl
  | star v isInt =>
    have hmin := int32_min isInt
    have htext : (Width.star v isInt).text = [ch '*'] := rfl
    have hword : wordArg ((Width.star v isInt).args ++ args) = some (v, args) := rfl
    have hdig : ¬isDigit (ch '*') = true := by decide
    rw [htext, List.singleton_append]
    unfold parseWidth
    dsimp only
    rw [if_neg hdig, if_pos rfl, hword, Option.bind_some]
    dsimp only
    rw [if_neg hmin]
    unfold Width.field Width.negative
    dsimp only
    by_cases hneg : int32 v.toNat < 0
    · have habs : -int32 v.toNat = ((int32 v.toNat).natAbs : ℤ) := by omega
      rw [if_pos hneg, habs, decide_eq_true hneg, Bool.or_true]
    · have habs : int32 v.toNat = ((int32 v.toNat).natAbs : ℤ) := by omega
      rw [if_neg hneg, ← habs, decide_eq_false hneg, Bool.or_false]

/-- The flags `print_number` is called with. -/
def typeOf (flags : List Flag) (width : Width) (conv : Conv) : Flags :=
  { flagsOf noFlags flags with
    left := decide (.minus ∈ flags) || width.negative
    sign := conv.signed
    large := conv.large }

theorem width_field (width : Width) : width.field.toNat = width.value ∧ -1 ≤ width.field := by
  cases width with
  | none => exact ⟨rfl, le_rfl⟩
  | literal w pos isInt =>
    have hfield : (Width.literal w pos isInt).field = w := rfl
    exact ⟨rfl, by omega⟩
  | star v isInt =>
    have hfield : (Width.star v isInt).field = (int32 v.toNat).natAbs := rfl
    exact ⟨rfl, by omega⟩

theorem directive_eq (flags : List Flag) (width : Width) (conv : Conv) (v : UInt32) :
    directive (convText flags width conv) (width.args ++ [.word v]) =
      some (.number (typeOf flags width conv) width.field (-1) conv.base v.toNat, [], []) := by
  have hsize : ¬¬sizeIsInt width.field (-1) := by
    have h := (width_field width).2
    unfold sizeIsInt
    omega
  have hprecision : parsePrecision [conv.char] [.word v] = some (-1, [conv.char], [.word v]) := by
    cases conv <;> rfl
  have hqualifier : parseQualifier [conv.char] = (0, [conv.char]) := by
    cases conv <;> rfl
  have hformat : ∀ type, integerFormat type conv.char =
      some (conv.base, { type with
        sign := type.sign || conv.signed
        large := type.large || conv.large }) := fun type => by
    cases conv <;> simp [integerFormat, Conv.char, Conv.base, Conv.signed, Conv.large] <;>
      first | rfl | decide
  have hother : conv.char ≠ ch 'c' ∧ conv.char ≠ ch 's' ∧ conv.char ≠ ch 'p' ∧ conv.char ≠ ch '%' := by
    cases conv <;> decide
  obtain ⟨h1, h2, h3, h4⟩ := hother
  have hnum : ∀ type, numOf 0 type v = v.toNat := fun _ => rfl
  unfold directive
  rw [parseFlags_convText]
  simp only [parseWidth_eq, Option.bind_eq_bind, Option.bind_some, hprecision, hqualifier, if_neg h1,
    if_neg h2, if_neg h3, if_neg h4, hformat, wordArg, if_neg hsize, hnum]
  rfl

/-! ### The text -/

theorem convText_no_nul (flags : List Flag) (width : Width) (conv : Conv) :
    0 ∉ ch '%' :: convText flags width conv := by
  have hflag : ∀ f : Flag, f.char ≠ 0 := fun f => by cases f <;> decide
  have hconv : conv.char ≠ 0 := by cases conv <;> decide
  have hwidth : 0 ∉ width.text := by
    cases width with
    | none => exact List.not_mem_nil
    | literal w pos isInt =>
      intro h
      exact absurd (numeral_isDigit w 0 h) (by decide)
    | star v isInt =>
      have hstar : (0 : UInt8) ∉ [ch '*'] := by decide
      exact hstar
  unfold convText
  intro h
  rcases List.mem_cons.1 h with h | h
  · exact absurd h (by decide)
  rcases List.mem_append.1 h with h | h
  · obtain ⟨f, -, hf⟩ := List.mem_map.1 h
    exact hflag f hf
  rcases List.mem_append.1 h with h | h
  · exact hwidth h
  · exact hconv (List.mem_singleton.1 h).symm

/-- The format string of one conversion. -/
def convFormat (flags : List Flag) (width : Width) (conv : Conv) : CString :=
  ⟨ch '%' :: convText flags width conv, convText_no_nul flags width conv⟩

/-- The arguments of one conversion. -/
def convArgs (width : Width) (v : UInt32) : List Arg := width.args ++ [.word v]

/-- Its directive. -/
def convDirective (flags : List Flag) (width : Width) (conv : Conv) (v : UInt32) : Directive :=
  .number (typeOf flags width conv) width.field (-1) conv.base v.toNat

variable (flags : List Flag) (width : Width) (conv : Conv) (v : UInt32)

theorem convFormat_directives : (convFormat flags width conv).directives (convArgs width v) =
    some [convDirective flags width conv v] := by
  have hpercent : ¬ch '%' ≠ ch '%' := not_not.2 rfl
  have hnil : ∀ n args, directives n [] args = some [] := fun n args => by cases n <;> rfl
  unfold CString.directives convFormat convArgs
  rw [List.length_cons, directives, if_neg hpercent, directive_eq, Option.bind_some]
  dsimp only
  rw [hnil]
  rfl

theorem signText_eq : signText v.toNat (typeOf flags width conv) = stdSign flags conv v := by
  have hneg : 2 ^ 31 ≤ v.toNat ↔ int32 v.toNat < 0 := by
    have hlt := v.toNat_lt
    unfold int32
    omega
  have hplus : (typeOf flags width conv).plus = decide (.plus ∈ flags) := Bool.false_or _
  have hspace : (typeOf flags width conv).space = decide (.space ∈ flags) := Bool.false_or _
  have hsign : (typeOf flags width conv).sign = conv.signed := rfl
  have hchars : ch '-' ≠ 0 ∧ ch '+' ≠ 0 ∧ ch ' ' ≠ 0 := by decide
  obtain ⟨hm, hp, hb⟩ := hchars
  unfold signText stdSign signOf
  rw [hplus, hspace, hsign]
  cases conv.signed with
  | false => simp only [Bool.false_eq_true, if_false, ne_eq, not_true_eq_false]
  | true =>
    rw [if_pos rfl, if_pos rfl]
    by_cases h1 : int32 v.toNat < 0
    · rw [if_pos (hneg.2 h1), if_pos h1, if_pos hm]
    · rw [if_neg fun h => h1 (hneg.1 h), if_neg h1]
      by_cases h2 : Flag.plus ∈ flags
      · rw [decide_eq_true h2, if_pos rfl, if_pos h2, if_pos hp]
      · rw [decide_eq_false h2, if_neg Bool.false_ne_true, if_neg h2]
        by_cases h3 : Flag.space ∈ flags
        · rw [decide_eq_true h3, if_pos rfl, if_pos h3, if_pos hb]
        · simp only [h3, decide_false, Bool.false_eq_true, if_false, ne_eq, not_true_eq_false]

theorem magnitude_eq : magnitude v.toNat (typeOf flags width conv) = stdMagnitude conv v := by
  have hlt := v.toNat_lt
  have hsign : (typeOf flags width conv).sign = conv.signed := rfl
  unfold magnitude stdMagnitude
  rw [hsign]
  cases conv.signed with
  | false => simp
  | true =>
    rw [if_pos rfl]
    simp only [true_and]
    unfold int32
    split <;> omega

theorem stdMagnitude_lt : stdMagnitude conv v < 2 ^ 32 := by
  have hlt := v.toNat_lt
  unfold stdMagnitude int32
  split <;> omega

/-- The code writes the standard's text, with its digits in the base `divide` works in. -/
theorem fullText_conv : fullText [convDirective flags width conv v] =
    textIn (printedBase conv.base) flags width conv v := by
  have hleft : (typeOf flags width conv).left = (decide (.minus ∈ flags) || width.negative) := rfl
  have hzero : (typeOf flags width conv).zeropad = decide (.zero ∈ flags) := Bool.false_or _
  have hlarge : (typeOf flags width conv).large = conv.large := rfl
  have hmag := magnitude_eq flags width conv v
  have hnum : magnitude v.toNat (typeOf flags width conv) < 2 ^ 32 := hmag ▸ stdMagnitude_lt conv v
  have htext : fullText [convDirective flags width conv v] =
      numberText true v.toNat conv.base width.field (-1) (typeOf flags width conv) := by
    rw [fullText_eq, textFrom, textFrom, List.append_nil]
    rfl
  rw [htext, numberText_eq conv.base hnum, hleft, hzero, hlarge, hmag, signText_eq,
    (width_field width).1]
  rfl

/-! ### The wrong base -/

variable {base n : ℕ}

theorem digitChar_ne {large : Bool} : ∀ d < 16, digitChar large d ≠ 0 ∧ digitChar large d ≠ ch ' ' := by
  cases large <;> decide

/-- The value of a digit. -/
def digitVal (c : UInt8) : ℕ := if c.toNat < 58 then c.toNat - 48 else c.toNat - 87

theorem digitVal_digitChar : ∀ d < 16, digitVal (digitChar false d) = d := by decide

theorem digitsIn_mem {large : Bool} (hbase : base ≤ 16) (hone : 1 < base) {c : UInt8}
    (hc : c ∈ digitsIn base large n) : c ≠ 0 ∧ c ≠ ch ' ' := by
  unfold digitsIn at hc
  split at hc
  · rw [List.mem_singleton.1 hc]
    decide
  · obtain ⟨d, hd, rfl⟩ := List.mem_map.1 (List.mem_reverse.1 hc)
    exact digitChar_ne d ((Nat.digits_lt_base hone hd).trans_le hbase)

theorem layout_mem {left zero : Bool} {w : ℕ} {sign digits : List UInt8} {c : UInt8}
    (hc : c ∈ layout left zero w sign digits) : c ∈ sign ∨ c ∈ digits ∨ c = ch ' ' ∨ c = ch '0' := by
  unfold layout at hc
  dsimp only at hc
  split at hc
  · simp only [List.mem_append, List.mem_replicate] at hc
    tauto
  · split at hc
    · simp only [List.mem_append, List.mem_replicate] at hc
      tauto
    · simp only [List.mem_append, List.mem_replicate] at hc
      tauto

theorem layout_length (left zero : Bool) (w : ℕ) (sign digits : List UInt8) :
    (layout left zero w sign digits).length = max w (sign.length + digits.length) := by
  unfold layout
  dsimp only
  split
  · simp only [List.length_append, List.length_replicate]
    omega
  · split
    · simp only [List.length_append, List.length_replicate]
      omega
    · simp only [List.length_append, List.length_replicate]
      omega

/-- No character of the text is a NUL. -/
theorem textIn_ne_nul (hbase : base ≤ 16) (hone : 1 < base) {c : UInt8}
    (hc : c ∈ textIn base flags width conv v) : c ≠ 0 := by
  rcases layout_mem hc with h | h | rfl | rfl
  · unfold stdSign at h
    split at h
    · split at h
      · rw [List.mem_singleton.1 h]
        decide
      · split at h
        · rw [List.mem_singleton.1 h]
          decide
        · split at h
          · rw [List.mem_singleton.1 h]
            decide
          · exact absurd h List.not_mem_nil
    · exact absurd h List.not_mem_nil
  · exact (digitsIn_mem hbase hone h).1
  · decide
  · decide

theorem width_value_le : width.value ≤ 2 ^ 31 := by
  cases width with
  | none => exact Nat.zero_le _
  | literal w pos isInt => exact isInt.le
  | star v isInt =>
    have hlt := v.toNat_lt
    have hvalue : (Width.star v isInt).value = (int32 v.toNat).natAbs := rfl
    rw [hvalue]
    unfold int32
    omega

theorem textIn_length (hone : 1 < base) : (textIn base flags width conv v).length ≤ 2 ^ 31 := by
  have hsign : (stdSign flags conv v).length ≤ 1 := by
    unfold stdSign
    repeat' split
    all_goals simp
  have hdigits : (digitsIn base conv.large (stdMagnitude conv v)).length ≤ 32 := by
    unfold digitsIn
    split
    · decide
    · rw [List.length_reverse, List.length_map, Nat.digits_length_le_iff hone]
      exact (stdMagnitude_lt conv v).trans_le (Nat.pow_le_pow_left hone 32)
  have hwidth := width_value_le width
  unfold textIn
  rw [layout_length]
  omega

/-- What is left of an unsigned text without its blanks: the digits, and zeros in front. -/
def digitList (text : List UInt8) : List ℕ := ((text.filter (· ≠ ch ' ')).map digitVal).reverse

theorem digitList_layout (left zero : Bool) (w : ℕ) (hbase : base ≤ 16) (hone : 1 < base) :
    ∃ k, digitList (layout left zero w [] (digitsIn base false n)) =
      Nat.digits base n ++ List.replicate k 0 := by
  have hkeep : (digitsIn base false n).filter (· ≠ ch ' ') = digitsIn base false n :=
    List.filter_eq_self.2 fun c hc => decide_eq_true (digitsIn_mem hbase hone hc).2
  have hblanks : ∀ m, (List.replicate m (ch ' ')).filter (· ≠ ch ' ') = [] := fun m =>
    List.filter_eq_nil_iff.2 fun c hc => by
      rw [(List.mem_replicate.1 hc).2]
      decide
  have hzeros : ∀ m, (List.replicate m (ch '0')).filter (· ≠ ch ' ') = List.replicate m (ch '0') :=
    fun m => List.filter_eq_self.2 fun c hc => by
      rw [(List.mem_replicate.1 hc).2]
      decide
  have hval : ∃ k, ((digitsIn base false n).map digitVal).reverse =
      Nat.digits base n ++ List.replicate k 0 := by
    unfold digitsIn
    by_cases h0 : n = 0
    · rw [if_pos h0, h0, Nat.digits_zero]
      exact ⟨1, rfl⟩
    · refine ⟨0, ?_⟩
      have hid : (Nat.digits base n).map (digitVal ∘ digitChar false) = (Nat.digits base n).map id :=
        List.map_congr_left fun d hd =>
          digitVal_digitChar d ((Nat.digits_lt_base hone hd).trans_le hbase)
      rw [if_neg h0, ← List.map_reverse, List.reverse_reverse, List.map_map, hid, List.map_id,
        List.replicate_zero, List.append_nil]
  obtain ⟨k, hk⟩ := hval
  unfold layout digitList
  dsimp only
  split
  · refine ⟨k, ?_⟩
    rw [List.filter_append, List.filter_append, hkeep, hblanks, List.append_nil]
    exact hk
  · split
    · refine ⟨k + (w - (0 + (digitsIn base false n).length)), ?_⟩
      rw [List.filter_append, List.filter_append, hkeep, hzeros, List.map_append, List.reverse_append,
        hk, List.append_assoc, List.replicate_add]
      congr 2
      rw [List.filter_nil, List.nil_append, List.map_replicate, List.reverse_replicate]
      rfl
    · refine ⟨k, ?_⟩
      rw [List.filter_append, List.filter_append, hkeep, hblanks, List.nil_append]
      exact hk

/-- In the bases 8 and 16 only the numbers below 8 look the same. -/
theorem lt_of_digits_eq {k l : ℕ}
    (h : Nat.digits 8 n ++ List.replicate k 0 = Nat.digits 16 n ++ List.replicate l 0) : n < 8 := by
  rcases Nat.eq_zero_or_pos n with rfl | hn
  · decide
  rw [Nat.digits_def' (by decide) hn, Nat.digits_def' (by decide) hn, List.cons_append,
    List.cons_append] at h
  have htail := congrArg (Nat.ofDigits 8) (List.cons.inj h).2
  rw [Nat.ofDigits_append_replicate_zero, Nat.ofDigits_append_replicate_zero, Nat.ofDigits_digits] at htail
  have hle : Nat.ofDigits 8 (Nat.digits 16 (n / 16)) ≤ Nat.ofDigits 16 (Nat.digits 16 (n / 16)) :=
    Nat.ofDigits_monotone _ (by decide)
  rw [Nat.ofDigits_digits] at hle
  omega

theorem digitsIn_small {large : Bool} (hn : n < 8) : digitsIn 8 large n = digitsIn 16 large n := by
  unfold digitsIn
  by_cases h0 : n = 0
  · rw [if_pos h0, if_pos h0]
  · rw [if_neg h0, if_neg h0, Nat.digits_of_lt 8 n h0 hn, Nat.digits_of_lt 16 n h0 (by omega)]

/-- The code's text is the standard's, but for octal numbers from 8 on. -/
theorem textIn_eq_iff : textIn (printedBase conv.base) flags width conv v = stdText flags width conv v ↔
    (conv = .o → v.toNat < 8) := by
  unfold stdText
  rcases eq_or_ne conv .o with rfl | hne
  · have hsign : stdSign flags .o v = [] := rfl
    have hmag : stdMagnitude .o v = v.toNat := rfl
    have hbase : printedBase Conv.o.base = 16 := rfl
    constructor
    · intro heq _
      unfold textIn at heq
      rw [hsign, hmag, hbase] at heq
      obtain ⟨k, hk⟩ := digitList_layout (n := v.toNat) (decide (.minus ∈ flags) || width.negative)
        (decide (.zero ∈ flags)) width.value (by decide : 8 ≤ 16) (by decide)
      obtain ⟨l, hl⟩ := digitList_layout (n := v.toNat) (decide (.minus ∈ flags) || width.negative)
        (decide (.zero ∈ flags)) width.value (by decide : 16 ≤ 16) (by decide)
      have heq' := congrArg digitList heq
      refine lt_of_digits_eq (k := k) (l := l) ?_
      rw [← hk, ← hl]
      exact heq'.symm
    · intro hlt
      unfold textIn
      rw [hmag, hbase, ← digitsIn_small (hlt rfl)]
      rfl
  · have hbase : printedBase conv.base = conv.base := by
      cases conv
      case o => exact absurd rfl hne
      all_goals rfl
    rw [hbase]
    exact iff_of_true rfl fun h => absurd h hne

/-! ### The text in the buffer -/

/-- In every buffer that is large enough `rt_vsnprintf` produces the text. -/
def Produces (fmt : CString) (args : List Arg) (text : List UInt8) : Prop :=
  ∀ (buf size : RtSize) (mem : ℕ → UInt8), (buf : ℕ) + size ≤ 2 ^ 32 → text.length < size →
    ∃ mem' r, rtVsnprintf mem buf size fmt args = some (mem', r) ∧
      (∀ (i : ℕ) (h : i < text.length), mem' (buf + i) = text[i]) ∧ mem' (buf + text.length) = 0

/-- The texts a buffer holds up to its first NUL are the same. -/
theorem eq_of_terminated {mem : ℕ → UInt8} {buf : ℕ} {t u : List UInt8} (ht : ∀ c ∈ t, c ≠ 0)
    (hu : ∀ c ∈ u, c ≠ 0) (hmt : ∀ (i : ℕ) (h : i < t.length), mem (buf + i) = t[i])
    (hmu : ∀ (i : ℕ) (h : i < u.length), mem (buf + i) = u[i]) (ht0 : mem (buf + t.length) = 0)
    (hu0 : mem (buf + u.length) = 0) : t = u := by
  have hlen : t.length = u.length := by
    rcases lt_trichotomy t.length u.length with h | h | h
    · exact absurd ((hmu _ h).symm.trans ht0) (hu _ (List.getElem_mem h))
    · exact h
    · exact absurd ((hmt _ h).symm.trans hu0) (ht _ (List.getElem_mem h))
  refine List.ext_getElem hlen fun i hi hi' => ?_
  rw [← hmt i hi, ← hmu i hi']

/-- The buffer holds the code's text. -/
theorem convFormat_holds {buf size : ℕ} (hlt : buf < 2 ^ 32) (hsize : size < 2 ^ 32)
    (hlen : (textIn (printedBase conv.base) flags width conv v).length < size)
    (hmem : buf + size ≤ 2 ^ 32) (mem : ℕ → UInt8) :
    ∃ mem' r, rtVsnprintf mem buf size (convFormat flags width conv) (convArgs width v) =
      some (mem', r) ∧
      (∀ (i : ℕ) (h : i < (textIn (printedBase conv.base) flags width conv v).length),
        mem' (buf + i) = (textIn (printedBase conv.base) flags width conv v)[i]) ∧
      mem' (buf + (textIn (printedBase conv.base) flags width conv v).length) = 0 := by
  have hfull := fullText_conv flags width conv v
  obtain ⟨u, hu⟩ : ∃ u, u = textIn (printedBase conv.base) flags width conv v := ⟨_, rfl⟩
  rw [← hu] at hfull hlen ⊢
  obtain ⟨mem', heq, -, hin, hnul⟩ := rtVsnprintf_holds (convFormat_directives flags width conv v) hlt
    hsize (by omega) (by rw [hfull]; omega) (not_lateSign_one (by omega)) mem
  rw [hfull] at hin hnul heq
  refine ⟨mem', _, heq, fun i hi => hin i hi (by omega), ?_⟩
  rwa [min_eq_left (by omega)] at hnul

/-- CORRECT: for every 32-bit argument, every flags, width and conversion, `rt_vsnprintf` produces the
    text standard C prescribes in every buffer that is large enough, exactly if the conversion is not
    `o` or the argument is below 8. -/
theorem number_text_iff :
    Produces (convFormat flags width conv) (convArgs width v) (stdText flags width conv v) ↔
      (conv = .o → v.toNat < 8) := by
  have hprinted : printedBase conv.base ≤ 16 ∧ 1 < printedBase conv.base := by
    unfold printedBase
    split <;> decide
  have hstd : conv.base ≤ 16 ∧ 1 < conv.base := by cases conv <;> decide
  rw [← textIn_eq_iff flags width conv v]
  constructor
  · intro hall
    have hlen := textIn_length flags width conv v hstd.2
    have hlen' := textIn_length flags width conv v hprinted.2
    have hstdlen : (stdText flags width conv v).length ≤ 2 ^ 31 := hlen
    obtain ⟨mem', r, heq, hin, hnul⟩ := hall ⟨1, by decide⟩ ⟨2 ^ 32 - 1, by decide⟩ (fun _ => 0)
      (by decide) (by show _ < 2 ^ 32 - 1; omega)
    obtain ⟨mem'', r', heq', hin', hnul'⟩ := convFormat_holds flags width conv v
      (by decide : 1 < 2 ^ 32) (by decide : 2 ^ 32 - 1 < 2 ^ 32) (by omega) (by decide) fun _ => 0
    obtain ⟨rfl, -⟩ := Prod.mk.inj (Option.some.inj (heq.symm.trans heq'))
    exact eq_of_terminated (fun c hc => textIn_ne_nul flags width conv v hprinted.1 hprinted.2 hc)
      (fun c hc => textIn_ne_nul flags width conv v hstd.1 hstd.2 hc) hin' hin hnul' hnul
  · intro heq buf size mem hmem hlen
    have hlen' : (textIn (printedBase conv.base) flags width conv v).length < size := by rwa [heq]
    rw [← heq]
    exact convFormat_holds flags width conv v buf.isLt size.isLt hlen' hmem mem

/-- INCORRECT for octal numbers from 8 on: `%o` of 8 is `8`, not `10`. -/
theorem octal_is_hex : ¬∀ flags width conv v,
    Produces (convFormat flags width conv) (convArgs width v) (stdText flags width conv v) := by
  intro hall
  have hrun : (rtVsnprintf (fun _ => 0) 0x20000000 8 (convFormat [] .none .o)
      (convArgs .none 8)).map (fun r => r.1 0x20000000) = some (ch '8') := by decide +kernel
  have hdigits : Nat.digits 8 8 = [0, 1] := by norm_num
  have htext : stdText [] .none .o 8 = [ch '1', ch '0'] := by
    have hmag : stdMagnitude .o 8 = 8 := rfl
    have hbase : Conv.o.base = 8 := rfl
    unfold stdText textIn digitsIn
    rw [hmag, hbase, hdigits]
    decide
  obtain ⟨mem', r, heq, hin, -⟩ := hall [] .none .o 8 ⟨0x20000000, by decide⟩ ⟨8, by decide⟩
    (fun _ => 0) (by decide) (by rw [htext]; decide)
  obtain ⟨⟨mem'', r'⟩, heq', hchar⟩ := Option.map_eq_some_iff.1 hrun
  obtain ⟨rfl, -⟩ := Prod.mk.inj (Option.some.inj (heq.symm.trans heq'))
  simp only [htext] at hin
  have hone : mem' (0x20000000 + 0) = ch '1' := hin 0 (by decide)
  exact absurd (hchar.symm.trans hone) (by decide)

end EasyCore.Printf
