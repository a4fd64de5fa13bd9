import EasyCore.Lib.Decimal
import EasyCore.Lib.Sink

/-! `rt_vsnprintf` (`src/kservice.c`, with `RT_PRINTF_PRECISION` and without `RT_PRINTF_SPECIAL` and
    `RT_PRINTF_LONGLONG`).

    A format is read into directives: an ordinary character, or a `%` with its flags, width, precision
    and argument. Every directive writes through the same guarded store
    `if (str <= end) *str = c; ++str`, which is the `put` of a sink; the guard itself is asked once
    more, in `print_number`, where the width is counted down behind a sign only if the sign was stored.

    The format and the strings it refers to do not overlap the buffer: they are values. Counters that
    are `int` are integers; where one would leave `int`, or an argument is missing or of another type,
    C leaves the call undefined, and there is no directive. -/

namespace EasyCore.Printf
open Function Decimal Sinks

/-- The code of a character. -/
def ch (c : Char) : UInt8 := c.toNat.toUInt8

/-- A string in memory, without its NUL. -/
structure CString where
  chars : List UInt8
  no_nul : 0 ∉ chars

/-- An argument: a 32-bit word, or a `char *`, which may be `NULL`. -/
inductive Arg
  | word (v : UInt32)
  | str (s : Option CString)

/-- The value of a word as `rt_int32_t`. -/
def int32 (x : ℤ) : ℤ := (x + 2 ^ 31) % 2 ^ 32 - 2 ^ 31

/-- `flags`, one bit each. -/
structure Flags where
  zeropad : Bool
  sign : Bool
  plus : Bool
  space : Bool
  left : Bool
  special : Bool
  large : Bool
  deriving DecidableEq

/-- `flags = 0`. -/
def noFlags : Flags := ⟨false, false, false, false, false, false, false⟩

/-! ### `print_number` -/

section Emit
variable {σ : Type*} (k : Sink σ UInt8)

/-- `while (bound < n--) put(c)`: what is written, and what is left of `n`. Each round takes one off
    `n - bound`, so `fuel` is more than it needs. -/
def whileLt (c : UInt8) (bound : ℤ) : ℕ → ℤ → σ → σ × ℤ
  | 0, n, buf => (buf, n)
  | fuel + 1, n, buf =>
    if bound < n then whileLt c bound fuel (n - 1) (k.put buf c) else (buf, n - 1)

/-- `while (--n > 0) put(c)`. -/
def whilePre (c : UInt8) : ℕ → ℤ → σ → σ × ℤ
  | 0, n, buf => (buf, n)
  | fuel + 1, n, buf =>
    if 0 < n - 1 then whilePre c fuel (n - 1) (k.put buf c) else (buf, n - 1)

/-- `divide(n, base)`: the remainder, and what is left of `n`. -/
def divide (n base : ℕ) : ℕ × ℕ :=
  if base = 10 then (n % 10, n / 10) else (n % 16, n / 16)

def smallDigits : List UInt8 := "0123456789abcdef".toList.map ch
def largeDigits : List UInt8 := "0123456789ABCDEF".toList.map ch

/-- `while (num != 0) tmp[i++] = digits[divide(&num, base)]`: `tmp` has room for 16. -/
def digitLoop (digits : List UInt8) (base : ℕ) : ℕ → ℕ → List UInt8
  | 0, _ => []
  | fuel + 1, num =>
    if num = 0 then []
    else
      let r := divide num base
      digits.getD r.1 0 :: digitLoop digits base fuel r.2

/-- The sign `print_number` finds, 0 for none. `num` is the bit pattern of a `long`. -/
def signOf (num : ℕ) (type : Flags) : UInt8 :=
  if type.sign then
    if 2 ^ 31 ≤ num then ch '-'
    else if type.plus then ch '+'
    else if type.space then ch ' '
    else 0
  else 0

/-- `num` without its sign: `-num` for a negative one. -/
def magnitude (num : ℕ) (type : Flags) : ℕ :=
  if type.sign ∧ 2 ^ 31 ≤ num then (2 ^ 32 - num) % 2 ^ 32 else num

/-- `tmp`, the lowest digit first. -/
def tmpOf (num base : ℕ) (type : Flags) : List UInt8 :=
  let digits := if type.large then largeDigits else smallDigits
  let num := magnitude num type
  if num = 0 then [ch '0'] else digitLoop digits base 16 num

/-- The blanks in front of the number, unless it is padded with zeros or on the right. -/
def putBlanks (zeropad : Bool) (sign : UInt8) (type : Flags) (p : σ × ℤ) : σ × ℤ :=
  if !(zeropad || type.left) then
    let size := if sign ≠ 0 ∧ p.2 > 0 then p.2 - 1 else p.2
    whileLt k (ch ' ') 0 (size.toNat + 1) size p.1
  else p

/-- The sign. `--size` stands inside the guard. -/
def putSign (sign : UInt8) (p : σ × ℤ) : σ × ℤ :=
  if sign ≠ 0 then (k.put p.1 sign, if k.fits p.1 then p.2 - 1 else p.2) else p

/-- `c` up to the width, unless the number is padded on the right. -/
def putPadding (c : UInt8) (type : Flags) (p : σ × ℤ) : σ × ℤ :=
  if !type.left then whileLt k c 0 (p.2.toNat + 1) p.2 p.1 else p

/-- The zeros of the precision, the digits, and the blanks behind the number. -/
def putDigits (tmp : List UInt8) (precision : ℤ) (p : σ × ℤ) : σ :=
  let buf := (whileLt k (ch '0') tmp.length ((precision - tmp.length).toNat + 1) precision p.1).1
  let buf := k.puts buf tmp.reverse
  (whileLt k (ch ' ') 0 (p.2.toNat + 1) p.2 buf).1

/-- `print_number(buf, end, num, base, s, precision, type)`. -/
def printNumber (buf : σ) (num base : ℕ) (s precision : ℤ) (type : Flags) : σ :=
  let zeropad := if type.left then false else type.zeropad
  let c := if zeropad then ch '0' else ch ' '
  let sign := signOf num type
  let tmp := tmpOf num base type
  let i : ℤ := tmp.length
  let precision := if i > precision then i else precision
  let size := s - precision
  putDigits k tmp precision
    (putPadding k c type (putSign k sign (putBlanks k zeropad sign type (buf, size))))

/-! ### Directives -/

/-- One turn of the loop over the format. -/
inductive Directive
  /-- An ordinary character, or `%%`. -/
  | plain (c : UInt8)
  /-- `%c`. -/
  | char (flags : Flags) (width : ℤ) (c : UInt8)
  /-- `%s`. -/
  | string (flags : Flags) (width precision : ℤ) (s : List UInt8)
  /-- The integer formats and `%p`. -/
  | number (flags : Flags) (width precision : ℤ) (base num : ℕ)
  /-- A `%` that is no format, and the character behind it unless the format ends there. -/
  | other (c : Option UInt8)
  deriving DecidableEq

/-- What one turn of the loop writes. -/
def Directive.emit (str : σ) : Directive → σ
  | plain c => k.put str c
  | char flags width c =>
    let (str, width) :=
      if !flags.left then whilePre k (ch ' ') (width.toNat + 1) width str else (str, width)
    let str := k.put str c
    (whilePre k (ch ' ') (width.toNat + 1) width str).1
  | string flags width precision s =>
    let len := int32 s.length
    let len := if precision > 0 ∧ len > precision then precision else len
    let (str, width) :=
      if !flags.left then whileLt k (ch ' ') len ((width - len).toNat + 1) width str else (str, width)
    let str := k.puts str (s.take len.toNat)
    (whileLt k (ch ' ') len ((width - len).toNat + 1) width str).1
  | number flags width precision base num => printNumber k str num base width precision flags
  | other none => k.put str (ch '%')
  | other (some c) => k.put (k.put str (ch '%')) c

/-- The turns of the loop, one after the other. -/
def emitAll (ds : List Directive) (str : σ) : σ := ds.foldl (Directive.emit k) str

end Emit

/-! ### The format -/

/-- `while (1)` over the flags. -/
def parseFlags (flags : Flags) : List UInt8 → Flags × List UInt8
  | [] => (flags, [])
  | c :: fmt =>
    if c = ch '-' then parseFlags { flags with left := true } fmt
    else if c = ch '+' then parseFlags { flags with plus := true } fmt
    else if c = ch ' ' then parseFlags { flags with space := true } fmt
    else if c = ch '#' then parseFlags { flags with special := true } fmt
    else if c = ch '0' then parseFlags { flags with zeropad := true } fmt
    else (flags, c :: fmt)

/-- `skip_atoi(&fmt)`, over the integers. -/
def skipAtoi (i : ℕ) : List UInt8 → ℕ × List UInt8
  | [] => (i, [])
  | c :: s => if isDigit c then skipAtoi (i * 10 + digitValue c) s else (i, c :: s)

/-- A number of the format, if it is an `int`. -/
def parseInt (fmt : List UInt8) : Option (ℤ × List UInt8) :=
  let r := skipAtoi 0 fmt
  if r.1 < 2 ^ 31 then some (r.1, r.2) else none

/-- `va_arg(args, int)` and its like. -/
def wordArg : List Arg → Option (UInt32 × List Arg)
  | .word v :: args => some (v, args)
  | _ => none

/-- `va_arg(args, char *)`. -/
def strArg : List Arg → Option (Option CString × List Arg)
  | .str s :: args => some (s, args)
  | _ => none

/-- The field width: a number, or the next argument, whose minus is the flag `-`. -/
def parseWidth (flags : Flags) (fmt : List UInt8) (args : List Arg) :
    Option (ℤ × Flags × List UInt8 × List Arg) :=
  match fmt with
  | [] => some (-1, flags, [], args)
  | c :: rest =>
    if isDigit c then (parseInt fmt).map fun (w, fmt) => (w, flags, fmt, args)
    else if c = ch '*' then
      (wordArg args).bind fun (v, args) =>
        let w := int32 v.toNat
        if w = -2 ^ 31 then none
        else if w < 0 then some (-w, { flags with left := true }, rest, args)
        else some (w, flags, rest, args)
    else some (-1, flags, fmt, args)

/-- The precision: `-1` without one. -/
def parsePrecision (fmt : List UInt8) (args : List Arg) : Option (ℤ × List UInt8 × List Arg) :=
  match fmt with
  | [] => some (-1, [], args)
  | c :: fmt' =>
    if c = ch '.' then
      match fmt' with
      | [] => some (0, [], args)
      | c :: rest =>
        if isDigit c then (parseInt fmt').map fun (p, fmt) => (p, fmt, args)
        else if c = ch '*' then (wordArg args).map fun (v, args) => (max (int32 v.toNat) 0, rest, args)
        else some (0, fmt', args)
    else some (-1, fmt, args)

/-- The qualifier `h` or `l`, 0 without one. -/
def parseQualifier : List UInt8 → UInt8 × List UInt8
  | [] => (0, [])
  | c :: fmt => if c = ch 'h' ∨ c = ch 'l' then (c, fmt) else (0, c :: fmt)

/-- The integer formats: the base and the flags. -/
def integerFormat (flags : Flags) (c : UInt8) : Option (ℕ × Flags) :=
  if c = ch 'o' then some (8, flags)
  else if c = ch 'X' then some (16, { flags with large := true })
  else if c = ch 'x' then some (16, flags)
  else if c = ch 'd' ∨ c = ch 'i' then some (10, { flags with sign := true })
  else if c = ch 'u' then some (10, flags)
  else none

/-- `num`: a `h` keeps the low half of the argument. -/
def numOf (qualifier : UInt8) (flags : Flags) (v : UInt32) : ℕ :=
  if qualifier = ch 'h' then
    let n := v.toNat % 2 ^ 16
    if flags.sign ∧ 2 ^ 15 ≤ n then n + (2 ^ 32 - 2 ^ 16) else n
  else v.toNat

/-- `print_number` takes up to three off `s - precision`. -/
def sizeIsInt (s precision : ℤ) : Prop := -2 ^ 31 ≤ s - precision - 3

instance (s precision : ℤ) : Decidable (sizeIsInt s precision) := by unfold sizeIsInt; infer_instance

/-- A turn of the loop behind a `%`: the directive, and what is left of the format and of the
    arguments. -/
def directive (fmt : List UInt8) (args : List Arg) :
    Option (Directive × List UInt8 × List Arg) := do
  let (flags, fmt) := parseFlags noFlags fmt
  let (width, flags, fmt, args) ← parseWidth flags fmt args
  let (precision, fmt, args) ← parsePrecision fmt args
  let (qualifier, fmt) := parseQualifier fmt
  match fmt with
  | [] => some (.other none, [], args)
  | c :: fmt =>
    if c = ch 'c' then
      let (v, args) ← wordArg args
      some (.char flags width v.toUInt8, fmt, args)
    else if c = ch 's' then
      let (s, args) ← strArg args
      let s := (s.map CString.chars).getD ("(NULL)".toList.map ch)
      some (.string flags width precision s, fmt, args)
    else if c = ch 'p' then
      let (v, args) ← wordArg args
      if ¬sizeIsInt width precision then none
      else if width = -1 then
        some (.number { flags with zeropad := true } 8 precision 16 v.toNat, fmt, args)
      else some (.number flags width precision 16 v.toNat, fmt, args)
    else if c = ch '%' then some (.plain (ch '%'), fmt, args)
    else
      match integerFormat flags c with
      | some (base, flags) =>
        let (v, args) ← wordArg args
        if ¬sizeIsInt width precision then none
        else some (.number flags width precision base (numOf qualifier flags v), fmt, args)
      | none => some (.other (some c), fmt, args)

/-- The loop over the format; each turn takes a character at least. -/
def directives : ℕ → List UInt8 → List Arg → Option (List Directive)
  | _, [], _ => some []
  | 0, _ :: _, _ => none
  | fuel + 1, c :: fmt, args =>
    if c ≠ ch '%' then (directives fuel fmt args).map (.plain c :: ·)
    else (directive fmt args).bind fun (d, fmt, args) => (directives fuel fmt args).map (d :: ·)

/-- The directives of a format string with its arguments. -/
def CString.directives (fmt : CString) (args : List Arg) : Option (List Directive) :=
  Printf.directives fmt.chars.length fmt.chars args

/-- `end`: the last byte of the buffer, or of the memory if that comes before `buf`. -/
def lastOf (buf size : ℕ) : ℕ :=
  let last := (buf + size + 2 ^ 32 - 1) % 2 ^ 32
  if last < buf then 2 ^ 32 - 1 else last

/-- `rt_vsnprintf(buf, size, fmt, args)` on a memory: the memory left, and the number returned. -/
def rtVsnprintf (mem : ℕ → UInt8) (buf size : ℕ) (fmt : CString) (args : List Arg) :
    Option ((ℕ → UInt8) × ℤ) :=
  (fmt.directives args).map fun ds =>
    let last := lastOf buf size
    let o := emitAll (cursorSink UInt8 (2 ^ 32) last) ds ⟨mem, buf⟩
    let mem := if o.str ≤ last then update o.mem o.str 0 else update o.mem last 0
    (mem, int32 ((o.str : ℤ) - buf))

/-- The text an unbounded buffer would receive. -/
def fullText (ds : List Directive) : List UInt8 := emitAll (textSink UInt8) ds []

/-! ### The loop ends -/

variable {fmt fmt' : List UInt8} {args args' : List Arg} {d : Directive} {flags : Flags}

end EasyCore.Printf
