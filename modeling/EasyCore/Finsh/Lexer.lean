import EasyCore.Finsh.Parser

/-! The tokens of a line (`finsh/finsh_token.c`). Characters are taken one by one, and one can be
    put back; at the end of the line, or at a line feed, `eof` is set and the position goes to 0:

        p r i n t ( 1 ) ; \n         position
        ──▶ … ──▶ … ──▶ ●            9
        ●                            0, with `eof`

    A name takes `eof` away again. -/

namespace EasyCore.Finsh.Lexer

/-- A line, without the NUL behind it. -/
structure Line where
  chars : List UInt8
  no_nul : 0 ∉ chars

def charLf : UInt8 := 10
def charQuote : UInt8 := 39
def charDoubleQuote : UInt8 := 34
def charBackslash : UInt8 := 92

/-- `is_digit`, and what is not `is_separator`. -/
def isDigit (c : UInt8) : Bool := 48 ≤ c && c ≤ 57
def isAlpha (c : UInt8) : Bool := (97 ≤ c && c ≤ 122) || (65 ≤ c && c ≤ 90)
def isName (c : UInt8) : Bool := isAlpha c || isDigit c || c = 95

/-- The spaces of `token_trim_space`. -/
def isBlank (c : UInt8) : Bool := c = 32 || c = 9 || c = 13

/-- The errors that are set. -/
inductive FinshError
  | invalidToken
  | expectType
  | unknownType
  | variableExist
  | expectOperator
  | memoryFull
  | expectChar
  | unexpectEnd
  | unknownToken
  | unknownSymbol
  | nullNode
  deriving DecidableEq

/-! ### Characters -/

/-- `eof` and `position`. -/
structure Cursor where
  eof : Bool
  position : ℕ
  deriving DecidableEq

/-- `token_next_char` -/
def tokenNextChar (line : Line) (c : Cursor) : UInt8 × Cursor :=
  if c.eof then (0, c)
  else
    match line.chars[c.position]? with
    | none => (0, ⟨true, 0⟩)
    | some ch => if ch = charLf then (0, ⟨true, 0⟩) else (ch, ⟨false, c.position + 1⟩)

/-- `token_prev_char` -/
def tokenPrevChar (c : Cursor) : Cursor := if c.eof then c else ⟨false, c.position - 1⟩

/-- `while (p(ch)) { *p++ = ch; ch = token_next_char(self); }`: what it goes over, and how it ends;
    `none` if it does not in so many rounds. -/
def takeChars (line : Line) (p : UInt8 → Bool) :
    ℕ → UInt8 × Cursor → Option (List UInt8 × UInt8 × Cursor)
  | 0, _ => none
  | n + 1, (ch, c) =>
    if p ch then (takeChars line p n (tokenNextChar line c)).map fun t => (ch :: t.1, t.2)
    else some ([], ch, c)

/-- The rounds that a loop may take. -/
def rounds (line : Line) : ℕ := line.chars.length + 1

/-- The size of `string`, which is `FINSH_STRING_MAX`, and of the array for a number. -/
def stringMax : ℕ := 128

/-- Bytes are stored at the start of an array; `none` if they get behind it. -/
def store (bytes array : List UInt8) : Option (List UInt8) :=
  if bytes.length ≤ stringMax then some (bytes ++ array.drop bytes.length) else none

/-- The string in an array. -/
def cstring (array : List UInt8) : List UInt8 := array.takeWhile (· ≠ 0)

/-! ### The parts of a token -/

/-- `token_trim_space` -/
def tokenTrimSpace (line : Line) (c : Cursor) : Option Cursor :=
  (takeChars line isBlank (rounds line) (tokenNextChar line c)).map fun t => tokenPrevChar t.2.2

/-- `token_get_string` -/
def tokenGetString (line : Line) (c : Cursor) (string : List UInt8) :
    Option (Cursor × List UInt8) :=
  let r := tokenNextChar line c
  if r.2.eof then some (r.2, string)
  else if isDigit r.1 then (store [0] string).map fun string => (tokenPrevChar r.2, string)
  else do
    let (name, _, c) ← takeChars line isName (rounds line) r
    let string ← store (name ++ [0]) string
    some (tokenPrevChar { c with eof := false }, string)

def ascii (s : String) : List UInt8 := s.toList.map fun c => c.toNat.toUInt8

/-- `finsh_name_table` -/
def finshNameTable : List (List UInt8 × Token) :=
  [(ascii "void", .void), (ascii "char", .char), (ascii "short", .short), (ascii "int", .int),
   (ascii "long", .long), (ascii "unsigned", .unsigned), (ascii "NULL", .valueNull),
   (ascii "null", .valueNull)]

/-- `token_match_name`; what is not in the table is an identifier. -/
def tokenMatchName (name : List UInt8) : Token :=
  ((finshNameTable.find? fun e => e.1 = name).map Prod.snd).getD (.identifier name)

/-- The escapes of a character, up to `default`. -/
def charEscapes : List (UInt8 × UInt8) :=
  [(110, 10), (116, 9), (118, 11), (98, 8), (114, 13), (92, 92), (39, 39)]

/-- A character behind a backslash. For each digit the next character is stored in `buf`, which has
    4 bytes; `atoi` gets what is behind them. -/
def charEscape (line : Line) (c : Cursor) : Option (UInt8 × Cursor) :=
  let r := tokenNextChar line c
  match charEscapes.lookup r.1 with
  | some ch => some (ch, r.2)
  | none => do
    let (digits, _, c) ← takeChars line isDigit (rounds line) r
    if digits.length + 1 ≤ 4 then some (0, tokenPrevChar c) else none

/-- A character behind its quote. -/
def charValue (line : Line) (c : Cursor) : Option (UInt8 × Cursor) :=
  let r := tokenNextChar line c
  if r.1 = charBackslash then charEscape line r.2 else some r

/-- The other quote, and the error that is set if there is none. -/
def charClose (line : Line) (r : UInt8 × Cursor) : UInt8 × Cursor × Option FinshError :=
  let close := tokenNextChar line r.2
  if close.1 = charQuote then (r.1, close.2, none)
  else (r.1, tokenPrevChar close.2, some .expectChar)

/-- `token_proc_char` -/
def tokenProcChar (line : Line) (c : Cursor) : Option (UInt8 × Cursor × Option FinshError) :=
  (charValue line c).map (charClose line)

/-- The escapes of a string that are a single character. -/
def stringEscapes : List (UInt8 × UInt8) :=
  [(110, 10), (116, 9), (118, 11), (98, 8), (114, 13), (102, 12), (97, 7)]

/-- `(ch - '0') < 16u`, and `(ch - '0') < 8u`. -/
def isHex (c : UInt8) : Bool := 48 ≤ c && c < 64
def isOctal (c : UInt8) : Bool := 48 ≤ c && c < 56

def escapeValue (base : UInt8) (digits : List UInt8) : UInt8 :=
  digits.foldl (fun result c => result * base + (c - 48)) 0

/-- `token_proc_escape` -/
def tokenProcEscape (line : Line) (c : Cursor) : Option (UInt8 × Cursor) :=
  let r := tokenNextChar line c
  match stringEscapes.lookup r.1 with
  | some ch => some (ch, r.2)
  | none =>
    if r.1 = 120 then
      (takeChars line isHex (rounds line) (tokenNextChar line r.2)).map fun t =>
        (escapeValue 16 t.1, tokenPrevChar t.2.2)
    else if isOctal r.1 then
      (takeChars line isOctal (rounds line) r).map fun t =>
        (escapeValue 8 t.1, tokenPrevChar t.2.2)
    else some (0, r.2)

/-- `token_proc_string`, with room for so many bytes and those stored: what it has stored, and the
    error that is set. -/
def tokenProcString (line : Line) :
    ℕ → Cursor → List UInt8 → Option (List UInt8 × Cursor × Option FinshError)
  | 0, c, bytes => some (bytes, c, none)
  | n + 1, c, bytes =>
    let r := tokenNextChar line c
    if r.2.eof then some (bytes, r.2, some .unexpectEnd)
    else if r.1 = charBackslash then do
      let (ch, c) ← tokenProcEscape line r.2
      tokenProcString line n c (bytes ++ [ch])
    else if r.1 = charDoubleQuote then some (bytes ++ [0], r.2, none)
    else tokenProcString line n r.2 (bytes ++ [r.1])

/-- A digit for `token_spec_number`. -/
def digitValue (c : UInt8) : UInt32 :=
  if 97 ≤ c ∧ c ≤ 102 then c.toUInt32 - 87
  else if 65 ≤ c ∧ c ≤ 70 then c.toUInt32 - 55
  else c.toUInt32 - 48

/-- `token_spec_number`: the lower of the two words. -/
def tokenSpecNumber (shift : UInt32) (digits : List UInt8) : UInt32 :=
  digits.foldl (fun d c => d <<< shift ||| digitValue c) 0

def decimalValue (digits : List UInt8) : UInt32 :=
  digits.foldl (fun value c => value * 10 + (c.toUInt32 - 48)) 0

/-- The digits of a number with a base, in an array with a NUL behind them. -/
def specDigits (line : Line) (shift : UInt32) (p : UInt8 → Bool) (r : UInt8 × Cursor) :
    Option (UInt32 × UInt8 × Cursor) := do
  let (digits, r) ← takeChars line p (rounds line) r
  let _ ← store (digits ++ [0]) []
  some (tokenSpecNumber shift digits, r)

/-- The value of a number, and the character behind its digits. -/
def numberValue (line : Line) (c : Cursor) : Option (UInt32 × UInt8 × Cursor) :=
  let r := tokenNextChar line c
  if r.1 = 48 then
    let r := tokenNextChar line r.2
    if r.1 = 120 ∨ r.1 = 88 then
      specDigits line 4 (fun c => isDigit c || isAlpha c) (tokenNextChar line r.2)
    else if r.1 = 98 ∨ r.1 = 66 then
      specDigits line 1 (fun c => c = 48 || c = 49) (tokenNextChar line r.2)
    else specDigits line 3 isDigit r
  else (takeChars line isDigit (rounds line) r).map fun t => (decimalValue t.1, t.2)

/-- Another character than `l` is put back. -/
def numberEnd (r : UInt32 × UInt8 × Cursor) : Token × Cursor :=
  if r.2.1 = 108 ∨ r.2.1 = 76 then (.valueLong r.1, r.2.2)
  else (.valueInt r.1, tokenPrevChar r.2.2)

/-- `token_proc_number` -/
def tokenProcNumber (line : Line) (c : Cursor) : Option (Token × Cursor) :=
  (numberValue line c).map numberEnd

/-! ### Tokens -/

/-- `struct finsh_token`; no `current` is the end of the line. With it goes `global_errno`. -/
structure FinshToken where
  cursor : Cursor
  replay : Bool
  current : Option Token
  string : List UInt8
  errno : Option FinshError

/-- `finsh_token_init` -/
def finshTokenInit (errno : Option FinshError) : FinshToken :=
  ⟨⟨false, 0⟩, false, none, List.replicate stringMax 0, errno⟩

/-- The tokens of one character. -/
def singles : List (UInt8 × Token) :=
  [(40, .leftParen), (41, .rightParen), (44, .comma), (59, .semicolon), (38, .and), (42, .mul),
   (124, .or), (37, .mod), (126, .bitwise), (94, .xor), (61, .assign)]

/-- The characters that may be doubled, with the token then, and the token alone; a comment is the
    end of the line. -/
def doubles : List (UInt8 × Option Token × Option Token) :=
  [(43, some .inc, some .add), (45, some .dec, some .sub), (47, none, some .div),
   (60, some .shl, some .bad), (62, some .shr, some .bad)]

/-- `token_run` where no name comes. -/
def tokenOperator (line : Line) (t : FinshToken) : Option FinshToken :=
  let r := tokenNextChar line t.cursor
  match singles.lookup r.1 with
  | some token => some { t with cursor := r.2, current := some token }
  | none =>
    match doubles.lookup r.1 with
    | some (double, alone) =>
      let q := tokenNextChar line r.2
      if q.1 = r.1 then some { t with cursor := q.2, current := double }
      else some { t with cursor := tokenPrevChar q.2, current := alone }
    | none =>
      if r.1 = charQuote then
        (tokenProcChar line r.2).map fun (ch, c, error) =>
          { t with cursor := c, current := some (.valueChar ch), errno := error.or t.errno }
      else if r.1 = charDoubleQuote then do
        let (bytes, c, error) ← tokenProcString line stringMax r.2 []
        let string ← store bytes t.string
        some { t with
          cursor := c, current := some (.valueString (cstring string)), string
          errno := error.or t.errno }
      else if isDigit r.1 then
        (tokenProcNumber line (tokenPrevChar r.2)).map fun (token, c) =>
          { t with cursor := c, current := some token }
      else some { t with cursor := r.2, current := some .bad, errno := some .unknownToken }

/-- `token_run`; `none` if it stores behind an array, or does not end. -/
def tokenRun (line : Line) (t : FinshToken) : Option FinshToken := do
  let c ← tokenTrimSpace line t.cursor
  let (c, string) ← tokenGetString line c t.string
  let t := { t with cursor := c, string }
  if c.eof then some { t with current := none }
  else if cstring string = [] then tokenOperator line t
  else some { t with current := some (tokenMatchName (cstring string)) }

/-- `finsh_token_token` -/
def finshTokenToken (line : Line) (t : FinshToken) : Option (Option Token × FinshToken) :=
  if t.replay then some (t.current, { t with replay := false })
  else (tokenRun line t).map fun t => (t.current, t)

end EasyCore.Finsh.Lexer
