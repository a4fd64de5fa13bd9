import EasyCore.Lib.Runs

/-! The line editor of the shell (`finsh/shell.c`, with `list_prefix` of `finsh/cmd.c`), without `msh`.
    What it writes to the console is left out.

        normal ──1b──▶ specKey ──5b──▶ funcKey ──▶ 41 up, 42 down, 43 right, 44 left
          ▲              │               │
          └── any other character, which is handled as usual ──┘ -/

namespace EasyCore.Finsh.Shell

/-- `FINSH_CMD_SIZE` -/
def finshCmdSize : ℕ := 80

/-- `FINSH_HISTORY_LINES` -/
def finshHistoryLines : ℕ := 5

/-- `enum input_stat` -/
inductive InputStat
  | normal
  | specKey
  | funcKey
  deriving DecidableEq

/-- A string, without its terminator. -/
abbrev Text := List UInt8

/-- A character that is read, the one that is there to be read after it, if there is one, and the names
    of the functions and variables at that time. Strings hold no zero. -/
structure Received where
  ch : UInt8
  next : Option UInt8
  /-- The functions of the table, whose internal ones are left out of a completion. -/
  syscalls : List Text
  /-- The other functions, and the variables. -/
  others : List Text
  ch_ne : ch ≠ 0
  next_ne : next ≠ some 0
  names_ne : ∀ name ∈ syscalls ++ others, 0 ∉ name

/-- `struct finsh_shell`. `outside` says that something has been written beyond the line. -/
structure FinshShell where
  stat : InputStat
  currentHistory : ℕ
  historyCount : ℕ
  cmdHistory : List (List UInt8)
  line : List UInt8
  linePosition : ℕ
  lineCurpos : ℕ
  outside : Bool

/-- `strlen` of an array. -/
def strlen (s : List UInt8) : ℕ := (s.takeWhile (· ≠ 0)).length

/-- A string in an array of `FINSH_CMD_SIZE` bytes that has been cleared. -/
def pad (text : Text) : List UInt8 := text ++ List.replicate (finshCmdSize - text.length) 0

/-! ### Keys -/

/-- The line is a copy of the current one of the history. -/
def recallLine (s : FinshShell) : FinshShell :=
  let line := s.cmdHistory.getD s.currentHistory []
  { s with line := line, linePosition := strlen line, lineCurpos := strlen line }

def upKey (s : FinshShell) : FinshShell :=
  if 0 < s.currentHistory then recallLine { s with currentHistory := s.currentHistory - 1 }
  else { s with currentHistory := 0 }

def downKey (s : FinshShell) : FinshShell :=
  if s.currentHistory + 1 < s.historyCount then
    recallLine { s with currentHistory := s.currentHistory + 1 }
  else if s.historyCount ≠ 0 then recallLine { s with currentHistory := s.historyCount - 1 }
  else s

def leftKey (s : FinshShell) : FinshShell :=
  if s.lineCurpos ≠ 0 then { s with lineCurpos := s.lineCurpos - 1 } else s

def rightKey (s : FinshShell) : FinshShell :=
  if s.lineCurpos < s.linePosition then { s with lineCurpos := s.lineCurpos + 1 } else s

/-- `rt_memmove` inside of the line. -/
def memmove (line : List UInt8) (dst src n : ℕ) : List UInt8 :=
  line.take dst ++ (line.drop src).take n ++ line.drop (dst + n)

/-- One byte is written. -/
def FinshShell.store (s : FinshShell) (i : ℕ) (b : UInt8) : FinshShell :=
  { s with line := s.line.set i b, outside := s.outside || finshCmdSize ≤ i }

def backspace (s : FinshShell) : FinshShell :=
  if s.lineCurpos = 0 then s
  else
    let s := { s with linePosition := s.linePosition - 1, lineCurpos := s.lineCurpos - 1 }
    if s.lineCurpos < s.linePosition then
      { s with
        line := memmove s.line s.lineCurpos (s.lineCurpos + 1)
          (s.linePosition - s.lineCurpos) }.store s.linePosition 0
    else s.store s.linePosition 0

/-! ### Completion -/

/-- `str_common` -/
def strCommon : Text → Text → ℕ
  | a :: s, b :: t => if a = b then strCommon s t + 1 else 0
  | _, _ => 0

/-- The names that `list_prefix` goes through. -/
def Received.names (a : Received) : List Text :=
  a.syscalls.filter (fun name => ¬[0x5f, 0x5f].isPrefixOf name) ++ a.others

/-- `list_prefix`: the first name that goes on from the line, up to where all of them agree. -/
def listPrefix (names : List Text) (line : Text) : Option Text :=
  match names.filter (line.isPrefixOf ·) with
  | [] => none
  | name :: names =>
    if line = [] then none
    else some (name.take (names.foldl (fun n name' => min n (strCommon name name')) name.length))

def tab (names : List Text) (s : FinshShell) : FinshShell :=
  let s :=
    match listPrefix names (s.line.takeWhile (· ≠ 0)) with
    | some name =>
      { s with
        line := name ++ s.line.drop name.length
        outside := s.outside || finshCmdSize < name.length }
    | none => s
  { s with linePosition := strlen s.line, lineCurpos := strlen s.line }

/-! ### The end of a line -/

/-- `shell_push_history` -/
def shellPushHistory (s : FinshShell) : FinshShell :=
  let s :=
    if s.linePosition ≠ 0 then
      let row := pad (s.line.take s.linePosition)
      if finshHistoryLines ≤ s.historyCount then
        { s with cmdHistory := s.cmdHistory.tail ++ [row], historyCount := finshHistoryLines }
      else
        { s with
          cmdHistory := s.cmdHistory.set s.historyCount row
          historyCount := s.historyCount + 1 }
    else s
  { s with currentHistory := s.historyCount }

/-- The line is run, with a `;` behind it, and cleared. -/
def enter (s : FinshShell) : FinshShell :=
  let s := (shellPushHistory s).store s.linePosition 0x3b
  { s with line := List.replicate finshCmdSize 0, linePosition := 0, lineCurpos := 0 }

/-- A normal character. The positions are bytes. -/
def insert (s : FinshShell) (ch : UInt8) : FinshShell :=
  let s := if finshCmdSize ≤ s.linePosition then { s with linePosition := 0 } else s
  let s :=
    if s.lineCurpos < s.linePosition then
      { s with
        line := memmove s.line (s.lineCurpos + 1) s.lineCurpos (s.linePosition - s.lineCurpos)
        outside := s.outside || finshCmdSize ≤ s.linePosition }.store s.lineCurpos ch
    else s.store s.linePosition ch
  { s with
    linePosition := (s.linePosition + 1) % 256
    lineCurpos := (s.lineCurpos + 1) % 256 }

/-! ### The loop -/

/-- What is done with a character that is no part of a key. After a carriage return the next character
    takes its place. -/
def handle (s : FinshShell) (a : Received) : FinshShell :=
  if a.ch = 0x0d then
    let ch := a.next.getD 0x0d
    if ch = 0x0d ∨ ch = 0x0a then enter s else insert s ch
  else if a.ch = 0x09 then tab a.names s
  else if a.ch = 0x7f ∨ a.ch = 0x08 then backspace s
  else if a.ch = 0x0a then enter s
  else insert s a.ch

/-- One turn of the loop of `finsh_thread_entry`. -/
def step (s : FinshShell) (a : Received) : FinshShell :=
  if a.ch = 0x1b then { s with stat := .specKey }
  else
    match s.stat with
    | .specKey =>
      if a.ch = 0x5b then { s with stat := .funcKey } else handle { s with stat := .normal } a
    | .funcKey =>
      let s := { s with stat := .normal }
      if a.ch = 0x41 then upKey s
      else if a.ch = 0x42 then downKey s
      else if a.ch = 0x44 then leftKey s
      else if a.ch = 0x43 then rightKey s
      else handle s a
    | .normal => handle s a

/-- `finsh_system_init` -/
def start : FinshShell where
  stat := .normal
  currentHistory := 0
  historyCount := 0
  cmdHistory := List.replicate finshHistoryLines (List.replicate finshCmdSize 0)
  line := List.replicate finshCmdSize 0
  linePosition := 0
  lineCurpos := 0
  outside := false

/-! ### The editor that it stands for -/

/-- The line and the place of the cursor in it, all lines that have been entered and are not empty,
    and the place among those of the history. -/
structure Editor where
  stat : InputStat
  text : Text
  cursor : ℕ
  entered : List Text
  index : ℕ

namespace Editor

/-- The last lines. -/
def history (e : Editor) : List Text := e.entered.drop (e.entered.length - finshHistoryLines)

def recallLine (e : Editor) (index : ℕ) : Editor :=
  { e with
    index := index
    text := e.history.getD index []
    cursor := (e.history.getD index []).length }

/-- The line before in the history. -/
def up (e : Editor) : Editor := if e.index = 0 then e else e.recallLine (e.index - 1)

/-- The line after in the history, or the last one. -/
def down (e : Editor) : Editor :=
  if e.history = [] then e
  else if e.index + 1 < e.history.length then e.recallLine (e.index + 1)
  else e.recallLine (e.history.length - 1)

def left (e : Editor) : Editor := { e with cursor := e.cursor - 1 }

def right (e : Editor) : Editor := { e with cursor := min (e.cursor + 1) e.text.length }

/-- The character before the cursor is deleted. -/
def delete (e : Editor) : Editor :=
  if e.cursor = 0 then e
  else { e with text := e.text.eraseIdx (e.cursor - 1), cursor := e.cursor - 1 }

/-- A character is inserted before the cursor. -/
def type (e : Editor) (ch : UInt8) : Editor :=
  { e with text := e.text.insertIdx e.cursor ch, cursor := e.cursor + 1 }

/-- The longest common beginning of two strings. -/
def common : Text → Text → Text
  | a :: s, b :: t => if a = b then a :: common s t else []
  | _, _ => []

/-- The line as far as all names that begin with it go on alike. -/
def completion (names : List Text) (text : Text) : Text :=
  if text = [] then text
  else
    match names.filter (text.isPrefixOf ·) with
    | [] => text
    | name :: names => names.foldl common name

def complete (e : Editor) (names : List Text) : Editor :=
  let text := completion names e.text
  { e with text := text, cursor := text.length }

def enter (e : Editor) : Editor :=
  let e := { e with entered := if e.text = [] then e.entered else e.entered ++ [e.text] }
  { e with text := [], cursor := 0, index := e.history.length }

def handle (e : Editor) (names : List Text) (ch : UInt8) : Editor :=
  if ch = 0x0d ∨ ch = 0x0a then e.enter
  else if ch = 0x09 then e.complete names
  else if ch = 0x7f ∨ ch = 0x08 then e.delete
  else e.type ch

/-- One character. -/
def read (e : Editor) (names : List Text) (ch : UInt8) : Editor :=
  if ch = 0x1b then { e with stat := .specKey }
  else
    match e.stat with
    | .specKey =>
      if ch = 0x5b then { e with stat := .funcKey }
      else handle { e with stat := .normal } names ch
    | .funcKey =>
      let e := { e with stat := .normal }
      if ch = 0x41 then e.up
      else if ch = 0x42 then e.down
      else if ch = 0x44 then e.left
      else if ch = 0x43 then e.right
      else e.handle names ch
    | .normal => e.handle names ch

/-- A character, and the one after a carriage return that the shell reads with it. -/
def step (e : Editor) (a : Received) : Editor :=
  let e := e.read a.names a.ch
  match a.next with
  | some ch => if a.ch = 0x0d then e.read a.names ch else e
  | none => e

def start : Editor := ⟨.normal, [], 0, [], 0⟩

end Editor

/-- The shell holds what the editor does, with the same place in the history, and nothing has been
    written outside of the line. -/
structure Agrees (s : FinshShell) (e : Editor) : Prop where
  curpos : s.lineCurpos ≤ s.linePosition
  position : s.linePosition < finshCmdSize
  text : s.line.take s.linePosition = e.text
  cursor : s.lineCurpos = e.cursor
  inside : s.outside = false
  history : (s.cmdHistory.take s.historyCount).map (fun row => row.takeWhile (· ≠ 0)) = e.history
  place : s.currentHistory = e.index

end EasyCore.Finsh.Shell
