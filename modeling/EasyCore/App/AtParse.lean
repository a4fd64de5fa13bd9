import EasyCore.Lib.Decimal

/-! The parser of AT commands (`easyio_core/atparse.c`). The parser is a machine over the characters
    of the command, the terminating NUL among them; it keeps the name, and of each parameter the
    type and where it starts. A parameter is read again from there by two accessors. -/

namespace EasyCore.AtParse
open Decimal

/-- A C string: its characters, without the NUL behind them. -/
structure CStr where
  chars : List UInt8
  no_nul : 0 ∉ chars

/-- `ATCMD_NAME_LENGTH`, and the length of `param`. -/
def atcmdNameLength : ℕ := 16
def atcmdParams : ℕ := 16

/-- The characters that the parser knows. -/
def charA : UInt8 := 65
def charT : UInt8 := 84
def charPlus : UInt8 := 43
def charEqual : UInt8 := 61
def charQuote : UInt8 := 34
def charComma : UInt8 := 44
def charCr : UInt8 := 13

def isUpper (c : UInt8) : Bool := 65 ≤ c && c ≤ 90

inductive ParamType
  | string
  | integer
  deriving DecidableEq

/-- `struct ATCMD_PARAM`; `pos` is an index into the command. -/
structure AtcmdParam where
  type : ParamType
  pos : ℕ
  deriving DecidableEq

/-- `struct ATCMD_DATA`: what has been stored in the arrays `name` and `param`. The next letter goes
    to `name[appendname_index]`, the next parameter to `param[param_count]`. -/
structure AtcmdData where
  name : List UInt8
  param : List AtcmdParam
  deriving DecidableEq

def AtcmdData.paramCount (ad : AtcmdData) : ℕ := ad.param.length

/-- `PARSER_STATUS_*`. -/
inductive Status
  | init
  | recvA
  | recvT
  | recvPlus
  | startparse
  | parseString
  | parseStringEnd
  | parseInt
  | parseEnd

/-- What a character does: the machine goes on, the parser returns, or it writes behind the end of
    an array. -/
inductive Outcome
  | go (status : Status) (ad : AtcmdData)
  | ret (r : ℤ) (ad : AtcmdData)
  | overrun

/-- `ad->name[appendname_index++] = c`. -/
def appendName (ad : AtcmdData) (c : UInt8) (next : AtcmdData → Outcome) : Outcome :=
  if ad.name.length < atcmdNameLength then next { ad with name := ad.name ++ [c] } else .overrun

/-- The stores into `ad->param[ad->param_count]`, and `ad->param_count ++`. -/
def appendParam (ad : AtcmdData) (type : ParamType) (pos : ℕ) (status : Status) : Outcome :=
  if ad.paramCount < atcmdParams then .go status { ad with param := ad.param ++ [⟨type, pos⟩] }
  else .overrun

/-- The body of the loop of `parse_at_cmd_string`, for the character `c = at[i]`. -/
def parseChar (i : ℕ) (c : UInt8) (ad : AtcmdData) : Status → Outcome
  | .init =>
    if i = 0 ∧ c = charA then .go .recvA ad
    else if i = 0 ∧ c = charPlus then .go .recvPlus ad
    else .ret (-1) ad
  | .recvA => if i = 1 ∧ c = charT then .go .recvT ad else .ret (-1) ad
  | .recvT => if i = 2 ∧ c = charPlus then .go .recvPlus ad else .ret (-1) ad
  | .recvPlus =>
    if isUpper c then
      appendName ad c fun ad =>
        if atcmdNameLength - 1 ≤ ad.name.length then .ret (-1) ad else .go .recvPlus ad
    else if c = charEqual then .go .startparse ad
    else if c = charCr ∨ c = 0 then .go .parseEnd ad
    else .ret (-1) ad
  | .startparse =>
    if c = charQuote then appendParam ad .string i .parseString
    else if isDigit c then appendParam ad .integer i .parseInt
    else .ret (-1) ad
  | .parseString => if c = charQuote then .go .parseStringEnd ad else .go .parseString ad
  | .parseStringEnd =>
    if c = charComma then .go .startparse ad
    else if c = charCr ∨ c = 0 then .ret 0 ad
    else .ret (-1) ad
  | .parseInt =>
    if c = charComma then .go .startparse ad
    else if c = charCr ∨ c = 0 then .ret 0 ad
    else if isDigit c then .go .parseInt ad
    else .ret (-1) ad
  | .parseEnd => .ret 0 ad

/-- The loop, over the characters from `i` on; behind the last one is `parse_err`. -/
def parseLoop : ℕ → List UInt8 → Status → AtcmdData → Option (ℤ × AtcmdData)
  | _, [], _, ad => some (-1, ad)
  | i, c :: cs, status, ad =>
    match parseChar i c ad status with
    | .go status ad => parseLoop (i + 1) cs status ad
    | .ret r ad => some (r, ad)
    | .overrun => none

/-- `parse_at_cmd_string`; `none` if it writes behind the end of an array. -/
def parseAtCmdString (cmd : CStr) : Option (ℤ × AtcmdData) :=
  parseLoop 0 (cmd.chars ++ [0]) .init ⟨[], []⟩

/-! ### The accessors -/

/-- `isspace`. -/
def isSpace (c : UInt8) : Bool := c = 32 || 9 ≤ c && c ≤ 13

/-- The number that `sscanf(str, "%d", &ret)` stores: it skips white space, takes a sign and then
    digits. Nothing is said of a value that is no `int`, nor of memory without an end of the
    digits. -/
def sscanfInt (str : List UInt8) : Option ℤ :=
  let str := str.dropWhile isSpace
  let negative := str.head? = some 45
  let str := if str.head? = some 45 ∨ str.head? = some charPlus then str.tail else str
  let ds := str.takeWhile isDigit
  let n : ℤ := if negative then -value ds else value ds
  if ds = [] ∨ ds.length = str.length ∨ n < -2 ^ 31 ∨ 2 ^ 31 ≤ n then none else some n

/-- The stack above `numstr`: the bytes from `numstr` on, whatever they are. -/
structure Frame where
  bytes : List UInt8
  room : 8 ≤ bytes.length

/-- `get_at_param_int`: `memset(numstr, 8, 0x0)` stores nothing. -/
def getAtParamInt (cmd : CStr) (ad : AtcmdData) (frame : Frame) (idx : ℕ) : Option ℤ :=
  (ad.param[idx]?).bind fun param =>
    let str := (cmd.chars ++ [0]).drop param.pos
    let digits := (str.take 7).takeWhile isDigit
    sscanfInt (digits ++ frame.bytes.drop digits.length)

/-- The loop of `get_at_param_string` from `str[i]` on: `i` and `j` are of type `short`, and
    `outstrbuf` has room for `length` characters. -/
def copyString (length : ℕ) : ℕ → List UInt8 → List UInt8 → Option (List UInt8)
  | i, [], out => if i < 2 ^ 15 ∧ out.length < length then some out else none
  | i, c :: cs, out =>
    if i < 2 ^ 15 ∧ out.length < length then
      if c = charQuote then some out else copyString length (i + 1) cs (out ++ [c])
    else none

/-- `get_at_param_string`: what it returns, the string in `outstrbuf` or 0; `none` if it reads or
    writes outside. -/
def getAtParamString (cmd : CStr) (ad : AtcmdData) (length idx : ℕ) :
    Option (Option (List UInt8)) :=
  (ad.param[idx]?).bind fun param =>
    match cmd.chars.drop param.pos with
    | [] => if 0 < length then some none else none
    | c :: cs =>
      if c = charQuote then (copyString length 1 cs []).map some
      else if 0 < length then some none else none

end EasyCore.AtParse
