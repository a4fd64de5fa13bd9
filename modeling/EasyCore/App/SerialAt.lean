import EasyCore.App.AtParams
import EasyCore.App.FlashConfig
import EasyCore.App.HttpUpload
import EasyCore.Lib.Stores

/-! The handlers of the serial AT commands (`applications/serial_at.c`). A handler parses the
    command, asks for one block of memory, and has `get_at_param_string` copy parameters into parts
    of it:

        at_msg       param 0                            of 256 bytes
        at_msg       param 1 | param 0                  of 64 + 192
        at_sql       …       | param 1                  of 96 + 96
        at_confsrv   param 0, 2, 3, 4 in turn           of 128

    The copy does not look at `outstrbuf_length`. -/

namespace EasyCore.SerialAt
open AtParse Stores
open FlashConfig (UserConfig)
open HttpUpload (chars signed)

/-- What a handler does with its block, and with what it has read from there. -/
inductive Event
  | malloc (size : ℕ)
  | copy (ws : List (ℤ × UInt8))
  | format (ws : List (ℤ × UInt8))
  | free
  | setPresence (shown status : List UInt8)
  | sendMsg (dest body : List UInt8)
  | setUconfig (u : UserConfig)
  | writeUconfig (u : UserConfig)

/-- What a handler finds: whether there is a block, and what is in it; the stack, and `ret` in
    `get_at_param_int` where `sscanf` stores nothing there; the configuration. -/
structure Env where
  mem : Bool
  block : ℤ → UInt8
  frame : Frame
  ret : ℤ
  uconfig : UserConfig

structure Result where
  events : List Event
  respStr : List UInt8
  uconfig : UserConfig

/-- `snprintf` into `size` bytes. -/
def snprintf (size : ℕ) (text : List UInt8) : List UInt8 := text.take (size - 1)

/-- The string at `p`; there is none in a block that is as long as this. -/
def stringAt (mem : ℤ → UInt8) (p : ℤ) : List UInt8 :=
  ((List.range (2 ^ 16)).map fun i : ℕ => mem (p + i)).takeWhile (· ≠ 0)

/-- What `get_at_param_string` stores from `outstrbuf` on; `none` if its indices leave their range.
    A `short` cannot get to the end of the room that is passed here. -/
def paramBytes (cmd : CStr) (ad : AtcmdData) (idx : ℕ) : Option (List UInt8) :=
  (getAtParamString cmd ad (2 ^ 16) idx).map fun out => out.getD [] ++ [0]

def paramInt (cmd : CStr) (ad : AtcmdData) (env : Env) (idx : ℕ) : ℤ :=
  (getAtParamInt cmd ad env.frame idx).getD env.ret

/-- `RESPAT_STR_LENGTH`. -/
def respatStrLength : ℕ := 64

def atok (events : List Event) (u : UserConfig) : Result :=
  ⟨events, snprintf respatStrLength (chars "OK\r\n"), u⟩

/-- `aterr`, with no block to be freed. -/
def aterr (u : UserConfig) : Result := ⟨[], snprintf respatStrLength (chars "ERROR\r\n"), u⟩

/-- The start of a handler; `body` is what it does with `ret == 0`. -/
def handle (cmd : CStr) (env : Env) (body : AtcmdData → Option Result) : Option Result :=
  (parseAtCmdString cmd).bind fun p => if p.1 = 0 then body p.2 else some (aterr env.uconfig)

def paramTypes (ad : AtcmdData) : List ParamType := ad.param.map AtcmdParam.type

/-! ### `at_msg` -/

/-- One parameter: `str` is that of the function. -/
def msgPresence (cmd : CStr) (ad : AtcmdData) (env : Env) : Option Result :=
  (paramBytes cmd ad 0).map fun text =>
    let mem := after env.block (place 0 text)
    atok [.malloc 256, .copy (place 0 text), .setPresence (chars "online") (stringAt mem 0), .free]
      env.uconfig

/-- Two parameters: `str` is that of the block, and at `atok` there is a 0 in the other one. -/
def msgSend (cmd : CStr) (ad : AtcmdData) (env : Env) : Option Result :=
  (paramBytes cmd ad 1).bind fun dest =>
    (paramBytes cmd ad 0).map fun text =>
      let mem := after (after env.block (place 0 dest)) (place 64 text)
      atok [.malloc 256, .copy (place 0 dest), .copy (place 64 text),
        .sendMsg (stringAt mem 0) (stringAt mem 64)] env.uconfig

def atMsg (cmd : CStr) (env : Env) : Option Result :=
  handle cmd env fun ad =>
    if paramTypes ad = [.string] ∧ env.mem then msgPresence cmd ad env
    else if paramTypes ad = [.string, .string] ∧ env.mem then msgSend cmd ad env
    else some (aterr env.uconfig)

/-! ### `at_sql` -/

def sqlText (n : ℤ) (s : List UInt8) : List UInt8 :=
  chars "+SQL=" ++ signed n ++ chars ",\"" ++ s ++ chars "\""

def sqlPresence (cmd : CStr) (ad : AtcmdData) (env : Env) : Option Result :=
  (paramBytes cmd ad 1).map fun text =>
    let mem := after env.block (place 96 text)
    let out := place 0 (snprintf 128 (sqlText (paramInt cmd ad env 0) (stringAt mem 96)) ++ [0])
    atok [.malloc (128 + 64), .copy (place 96 text), .format out,
      .setPresence (chars "online") (stringAt (after mem out) 0), .free] env.uconfig

def atSql (cmd : CStr) (env : Env) : Option Result :=
  handle cmd env fun ad =>
    if paramTypes ad = [.integer, .string] ∧ env.mem then sqlPresence cmd ad env
    else some (aterr env.uconfig)

/-! ### `at_confsrv` -/

/-- `at_confsrv` on its way through the parameters. -/
structure Conf where
  events : List Event
  mem : ℤ → UInt8
  uconfig : UserConfig

/-- What is stored in the block goes on to a field. -/
def Conf.put (s : Conf) (set : List UInt8 → UserConfig → UserConfig) (text : List UInt8) : Conf :=
  let mem := after s.mem (place 0 text)
  let u := set (stringAt mem 0) s.uconfig
  ⟨s.events ++ [.copy (place 0 text), .setUconfig u], mem, u⟩

/-- A parameter goes to a field by way of the block, whatever its type. -/
def setField (cmd : CStr) (ad : AtcmdData) (idx : ℕ) (set : List UInt8 → UserConfig → UserConfig)
    (s : Conf) : Option Conf :=
  (paramBytes cmd ad idx).map (s.put set)

theorem takeWhile_no_nul (s : List UInt8) : 0 ∉ s.takeWhile (· ≠ 0) := by
  intro h
  simpa using List.mem_takeWhile_imp h

/-- `snprintf(field,sizeof(field),"%s",...)` into a field of `n + 1` bytes. -/
def fill (n : ℕ) (s : List UInt8) : FlashConfig.CStr (n + 1) :=
  ⟨(s.takeWhile (· ≠ 0)).take n, fun h => takeWhile_no_nul s (List.mem_of_mem_take h),
    Nat.lt_succ_of_le (List.length_take_le n _)⟩

def setHostname (s : List UInt8) (u : UserConfig) : UserConfig :=
  { u with openfireHostname := fill 63 s }

def setPort (n : ℤ) (u : UserConfig) : UserConfig := { u with openfirePort := Int16.ofInt n }

def setDomain (s : List UInt8) (u : UserConfig) : UserConfig :=
  { u with openfireDomain := fill 15 s }

def setUsername (s : List UInt8) (u : UserConfig) : UserConfig :=
  { u with openfireUsername := fill 31 s }

def setPassword (s : List UInt8) (u : UserConfig) : UserConfig :=
  { u with openfirePassword := fill 31 s }

/-- The answer at `atok`: the fourth value is the hostname once more. -/
def confsrvText (u : UserConfig) : List UInt8 :=
  chars "+CONFSRV=" ++ u.openfireHostname.1 ++ chars "," ++ signed u.openfirePort.toInt ++
    chars "," ++ u.openfireDomain.1 ++ chars "," ++ u.openfireHostname.1 ++ chars "," ++
    u.openfirePassword.1 ++ chars "\r\nOK\r\n"

/-- `atok`: the `tb` of the block is out of scope, and there is a 0 in the other one. -/
def confsrvOk (events : List Event) (u : UserConfig) : Result :=
  ⟨events, snprintf respatStrLength (confsrvText u), u⟩

/-- Five parameters. -/
def confsrvSet (cmd : CStr) (ad : AtcmdData) (env : Env) : Option Result := do
  let s ← setField cmd ad 0 setHostname ⟨[.malloc 128], env.block, env.uconfig⟩
  let s := { s with uconfig := setPort (paramInt cmd ad env 1) s.uconfig }
  let s ← setField cmd ad 2 setDomain s
  let s ← setField cmd ad 3 setUsername s
  let s ← setField cmd ad 4 setPassword s
  return confsrvOk (s.events ++ [.writeUconfig s.uconfig]) s.uconfig

def atConfsrv (cmd : CStr) (env : Env) : Option Result :=
  handle cmd env fun ad =>
    if env.mem then
      if ad.paramCount = 0 then some (confsrvOk [.malloc 128] env.uconfig)
      else if ad.paramCount = 5 then confsrvSet cmd ad env
      else some { aterr env.uconfig with events := [.malloc 128] }
    else some (aterr env.uconfig)

/-! ### What is asked of a handler -/

inductive Handler
  | msg
  | sql
  | confsrv

/-- What a handler does; `none` if the parser stores outside of its record, or a copy leaves the
    range of its indices. -/
def Handler.run : Handler → CStr → Env → Option Result
  | msg => atMsg
  | sql => atSql
  | confsrv => atConfsrv

instance (n : ℕ) (ws : List (ℤ × UInt8)) : Decidable (Inside n ws) :=
  inferInstanceAs (Decidable (∀ w ∈ ws, _))

/-- The block that is in use, by its size: what an event does with it, if it is one of those that
    may be done. -/
def useBlock : Option ℕ → Event → Option (Option ℕ)
  | none, .malloc size => some (some size)
  | some size, .copy ws => if Inside size ws then some (some size) else none
  | some size, .format ws => if Inside size ws then some (some size) else none
  | some _, .free => some none
  | some _, .malloc _ => none
  | none, .copy _ => none
  | none, .format _ => none
  | none, .free => none
  | block, _ => some block

/-- From one block to another one, by events that may be done. -/
def Uses (block : Option ℕ) (events : List Event) (block' : Option ℕ) : Prop :=
  events.foldlM useBlock block = some block'

/-- All stores are in the block. -/
def InBlock (events : List Event) : Prop := ∃ block, Uses none events block

/-- All stores are in the block, and it has been freed, once. -/
def Freed (events : List Event) : Prop := Uses none events none

/-- The second of two copies does not store where the first one has. -/
def Event.Clear : Event → Event → Prop
  | .copy ws, .copy vs => ∀ w ∈ ws, ∀ v ∈ vs, w.1 ≠ v.1
  | _, _ => True

/-- No copy is stored over before it has been read. -/
def Apart (events : List Event) : Prop := List.IsChain Event.Clear events

/-- A command that the parser accepts. -/
structure Accepted where
  cmd : CStr
  ad : AtcmdData
  accepted : parseAtCmdString cmd = some (0, ad)

/-- One of its string parameters. -/
abbrev StringParam (a : Accepted) := { idx : ℕ // ∃ pos, a.ad.param[idx]? = some ⟨.string, pos⟩ }

/-- The copy of a parameter stays in `outstrbuf_length` bytes; in each handler the copies stay in
    the block, and apart. -/
structure ParamsKept (a : Accepted) (idx : StringParam a) (outstrbufLength : ℕ) (env : Env) : Prop
    where
  copy : ∃ text, paramBytes a.cmd a.ad idx = some text ∧ Inside outstrbufLength (place 0 text)
  callers : ∀ h : Handler, ∃ r, h.run a.cmd env = some r ∧ InBlock r.events ∧ Apart r.events

/-- The text of a parameter: what there is up to the next quote, if it starts with one. -/
def paramText (cmd : CStr) (ad : AtcmdData) (idx : ℕ) : List UInt8 :=
  match (ad.param[idx]?).map fun param => cmd.chars.drop param.pos with
  | some (c :: cs) => if c = charQuote then cs.takeWhile (· ≠ charQuote) else []
  | _ => []

/-- The configuration with all five parameters. -/
def configured (cmd : CStr) (ad : AtcmdData) (port : ℤ) (u : UserConfig) : UserConfig :=
  setPassword (paramText cmd ad 4) (setUsername (paramText cmd ad 3) (setDomain (paramText cmd ad 2)
    (setPort port (setHostname (paramText cmd ad 0) u))))

/-- An answer with the values of a configuration. -/
def valuesText (u : UserConfig) : List UInt8 :=
  chars "+CONFSRV=" ++ u.openfireHostname.1 ++ chars "," ++ signed u.openfirePort.toInt ++
    chars "," ++ u.openfireDomain.1 ++ chars "," ++ u.openfireUsername.1 ++ chars "," ++
    u.openfirePassword.1 ++ chars "\r\nOK\r\n"

/-- Five parameters of the right types are applied and stored, and the answer has them. -/
def Applied (cmd : CStr) (env : Env) (r : Result) : Prop :=
  ∃ ad port, parseAtCmdString cmd = some (0, ad) ∧
    paramTypes ad = [.string, .integer, .string, .string, .string] ∧
    getAtParamInt cmd ad env.frame 1 = some port ∧
    r.uconfig = configured cmd ad port env.uconfig ∧ .writeUconfig r.uconfig ∈ r.events ∧
    r.respStr = valuesText r.uconfig

/-- The command is refused, and the configuration is as it was. -/
def Refused (env : Env) (r : Result) : Prop :=
  r.respStr = chars "ERROR\r\n" ∧ r.uconfig = env.uconfig ∧ ∀ u, .writeUconfig u ∉ r.events

/-- The handler frees what it has been given, once; `at_confsrv` applies the command or refuses
    it. -/
def Handled (h : Handler) (cmd : CStr) (env : Env) : Prop :=
  ∃ r, h.run cmd env = some r ∧ Freed r.events ∧
    (h = .confsrv → Applied cmd env r ∨ Refused env r)

/-! ### When they hold -/

/-- There is room for the text and a NUL, and for its indices in a `short`. -/
def Short (cmd : CStr) (ad : AtcmdData) (idx room : ℕ) : Prop :=
  (paramText cmd ad idx).length < room ∧ (paramText cmd ad idx).length + 1 < 2 ^ 15

/-- The parameters that a handler copies have room where it puts them. -/
def Handler.Fit : Handler → CStr → AtcmdData → Prop
  | msg, cmd, ad =>
    (paramTypes ad = [.string] → Short cmd ad 0 256) ∧
      (paramTypes ad = [.string, .string] → Short cmd ad 1 64 ∧ Short cmd ad 0 192)
  | sql, cmd, ad => paramTypes ad = [.integer, .string] → Short cmd ad 1 96
  | confsrv, cmd, ad => ad.paramCount = 5 → ∀ idx ∈ [0, 2, 3, 4], Short cmd ad idx 128

/-- The path that is taken with a block frees it, and the parameters have room there. -/
def Handler.Sound : Handler → CStr → AtcmdData → Prop
  | msg, cmd, ad =>
    (paramTypes ad = [.string] → Short cmd ad 0 256) ∧ paramTypes ad ≠ [.string, .string]
  | sql, cmd, ad => paramTypes ad = [.integer, .string] → Short cmd ad 1 96
  | confsrv, _, _ => False

/-! ### One copy -/

variable {cmd : CStr} {ad : AtcmdData} {env : Env} {idx : ℕ}

theorem paramBytes_eq (h : idx < ad.paramCount) : paramBytes cmd ad idx =
    if (paramText cmd ad idx).length + 1 < 2 ^ 15 then some (paramText cmd ad idx ++ [0])
    else none := by
  have hget : ad.param[idx]? = some ad.param[idx] := List.getElem?_eq_getElem h
  rw [paramBytes, getAtParamString, paramText, hget, Option.bind_some, Option.map_some]
  rcases cmd.chars.drop ad.param[idx].pos with _ | ⟨c, cs⟩
  · simp
  · by_cases hc : c = charQuote
    · simp only [if_pos hc, copyString_text, List.length_nil, zero_add, List.nil_append]
      split_ifs with h₁ h₂ h₂
      · rfl
      · omega
      · omega
      · rfl
    · simp [if_neg hc]

/-- The text goes in if there is room for one character more. -/
theorem inside_text {n : ℕ} {p : ℤ} {text : List UInt8} (hp : 0 ≤ p) :
    Inside n (place p (text ++ [0])) ↔ p + text.length < n := by
  rw [inside_place, List.length_append, List.length_singleton]
  simp only [List.append_eq_nil_iff, List.cons_ne_nil, and_false, false_or]
  omega

theorem copy_iff (h : idx < ad.paramCount) (room : ℕ) :
    (∃ text, paramBytes cmd ad idx = some text ∧ Inside room (place 0 text)) ↔
      Short cmd ad idx room := by
  rw [paramBytes_eq h, Short]
  split_ifs with hshort
  · simp only [Option.some.injEq, exists_eq_left', inside_text le_rfl]
    omega
  · refine iff_of_false ?_ fun h => hshort h.2
    rintro ⟨_, h, _⟩
    cases h

/-! ### One event -/

section Steps
variable {size : ℕ} {block block' : Option ℕ} {ws : List (ℤ × UInt8)} {events : List Event}

@[simp] theorem uses_nil : Uses block [] block' ↔ block = block' := Option.some_inj

@[simp] theorem uses_malloc :
    Uses none (.malloc size :: events) block' ↔ Uses (some size) events block' := Iff.rfl

@[simp] theorem uses_copy : Uses (some size) (.copy ws :: events) block' ↔
    Inside size ws ∧ Uses (some size) events block' := by
  by_cases h : Inside size ws <;> simp [Uses, useBlock, h]

@[simp] theorem uses_format : Uses (some size) (.format ws :: events) block' ↔
    Inside size ws ∧ Uses (some size) events block' := by
  by_cases h : Inside size ws <;> simp [Uses, useBlock, h]

@[simp] theorem uses_free :
    Uses (some size) (.free :: events) block' ↔ Uses none events block' := Iff.rfl

/-- The other events leave the block as it is. -/
@[simp] theorem uses_setPresence (shown status : List UInt8) :
    Uses block (.setPresence shown status :: events) block' ↔ Uses block events block' := by
  cases block <;> rfl

@[simp] theorem uses_sendMsg (dest body : List UInt8) :
    Uses block (.sendMsg dest body :: events) block' ↔ Uses block events block' := by
  cases block <;> rfl

@[simp] theorem uses_setUconfig (u : UserConfig) :
    Uses block (.setUconfig u :: events) block' ↔ Uses block events block' := by
  cases block <;> rfl

@[simp] theorem uses_writeUconfig (u : UserConfig) :
    Uses block (.writeUconfig u :: events) block' ↔ Uses block events block' := by
  cases block <;> rfl

end Steps

/-! ### The paths with a block -/

/-- A path goes on behind a copy iff the text does not get too long for its indices. -/
theorem bind_paramBytes {α : Type} (h : idx < ad.paramCount) (f : List UInt8 → Option α)
    (P : α → Prop) :
    (∃ r, (paramBytes cmd ad idx).bind f = some r ∧ P r) ↔
      (paramText cmd ad idx).length + 1 < 2 ^ 15 ∧
        ∃ r, f (paramText cmd ad idx ++ [0]) = some r ∧ P r := by
  rw [paramBytes_eq h]
  split_ifs with hshort
  · rw [Option.bind_some, and_iff_right hshort]
  · refine iff_of_false ?_ fun h => hshort h.1
    rintro ⟨_, h, _⟩
    cases h

theorem map_paramBytes {α : Type} (h : idx < ad.paramCount) (f : List UInt8 → α)
    (P : α → Prop) :
    (∃ r, (paramBytes cmd ad idx).map f = some r ∧ P r) ↔
      (paramText cmd ad idx).length + 1 < 2 ^ 15 ∧ P (f (paramText cmd ad idx ++ [0])) := by
  rw [Option.map_eq_bind, bind_paramBytes h]
  simp

theorem bind_setField (h : idx < ad.paramCount) (set : List UInt8 → UserConfig → UserConfig)
    (s : Conf) (f : Conf → Option Result) (P : Result → Prop) :
    (∃ r, (setField cmd ad idx set s).bind f = some r ∧ P r) ↔
      (paramText cmd ad idx).length + 1 < 2 ^ 15 ∧
        ∃ r, f (s.put set (paramText cmd ad idx ++ [0])) = some r ∧ P r := by
  rw [setField, Option.bind_map, bind_paramBytes h]
  rfl

theorem put_events (s : Conf) (set : List UInt8 → UserConfig → UserConfig) (text : List UInt8) :
    (s.put set text).events =
      s.events ++ [.copy (place 0 text), .setUconfig (s.put set text).uconfig] := rfl

/-- The first of two copies ends before the second one starts. -/
theorem clear_copy {p q : ℤ} (hpq : p ≤ q) (xs text : List UInt8) :
    Event.Clear (.copy (place p xs)) (.copy (place q (text ++ [0]))) ↔ p + xs.length ≤ q :=
  place_apart hpq (by simp)

theorem snprintf_length_lt {size : ℕ} (h : 0 < size) (text : List UInt8) :
    (snprintf size text).length < size := by
  rw [snprintf, List.length_take]
  omega

theorem msgPresence_iff (h : 0 < ad.paramCount) :
    (∃ r, msgPresence cmd ad env = some r ∧ InBlock r.events ∧ Apart r.events) ↔
      Short cmd ad 0 256 := by
  rw [msgPresence, map_paramBytes h, Short]
  simp [InBlock, Apart, atok, inside_text, Event.Clear]
  omega

theorem msgSend_iff (h : 1 < ad.paramCount) :
    (∃ r, msgSend cmd ad env = some r ∧ InBlock r.events ∧ Apart r.events) ↔
      Short cmd ad 1 64 ∧ Short cmd ad 0 192 := by
  have h64 : (0 : ℤ) ≤ 64 := by decide
  rw [msgSend, bind_paramBytes h, map_paramBytes (by omega), Short, Short]
  simp only [InBlock, Apart, atok, uses_malloc, uses_copy, uses_sendMsg, uses_nil,
    inside_text le_rfl, inside_text h64, List.isChain_cons_cons, clear_copy h64]
  simp [Event.Clear]
  omega

theorem sqlPresence_iff (h : 1 < ad.paramCount) :
    (∃ r, sqlPresence cmd ad env = some r ∧ InBlock r.events ∧ Apart r.events) ↔
      Short cmd ad 1 96 := by
  have hout : ∀ text, ((snprintf 128 text).length : ℤ) < 192 := by
    intro text
    have := @snprintf_length_lt 128 (by decide) text
    omega
  rw [sqlPresence, map_paramBytes h, Short]
  simp [InBlock, Apart, atok, inside_text, Event.Clear, hout]
  omega

theorem confsrvSet_iff (h : ad.paramCount = 5) :
    (∃ r, confsrvSet cmd ad env = some r ∧ InBlock r.events ∧ Apart r.events) ↔
      ∀ idx ∈ [0, 2, 3, 4], Short cmd ad idx 128 := by
  simp only [confsrvSet, Option.bind_eq_bind]
  rw [bind_setField (by omega), bind_setField (by omega), bind_setField (by omega),
    bind_setField (by omega)]
  simp [InBlock, Apart, inside_text, Event.Clear, confsrvOk, put_events, Short]
  omega

/-! ### A handler -/

theorem handle_accepted (a : Accepted) (env : Env) (body : AtcmdData → Option Result) :
    handle a.cmd env body = body a.ad := by
  rw [handle, a.accepted, Option.bind_some, if_pos rfl]

theorem paramCount_eq {types : List ParamType} (h : paramTypes ad = types) :
    ad.paramCount = types.length := by
  rw [← h, paramTypes, List.length_map, AtcmdData.paramCount]

section Paths
variable {P : List Event → Prop} (a : Accepted) (env : Env)

/-- What holds without events holds of a run iff it holds on the path that a block opens. -/
theorem atMsg_runs (hnil : P []) :
    (∃ r, atMsg a.cmd env = some r ∧ P r.events) ↔ (env.mem = true →
      (paramTypes a.ad = [.string] →
        ∃ r, msgPresence a.cmd a.ad env = some r ∧ P r.events) ∧
      (paramTypes a.ad = [.string, .string] →
        ∃ r, msgSend a.cmd a.ad env = some r ∧ P r.events)) := by
  rw [atMsg, handle_accepted]
  cases hmem : env.mem with
  | false => simpa [aterr] using hnil
  | true =>
    by_cases h₁ : paramTypes a.ad = [.string]
    · simp [h₁]
    · by_cases h₂ : paramTypes a.ad = [.string, .string]
      · simp [h₂]
      · simpa [h₁, h₂, aterr] using hnil

theorem atSql_runs (hnil : P []) :
    (∃ r, atSql a.cmd env = some r ∧ P r.events) ↔ (env.mem = true →
      paramTypes a.ad = [.integer, .string] →
        ∃ r, sqlPresence a.cmd a.ad env = some r ∧ P r.events) := by
  rw [atSql, handle_accepted]
  cases hmem : env.mem with
  | false => simpa [aterr] using hnil
  | true =>
    by_cases h : paramTypes a.ad = [.integer, .string]
    · simp [h]
    · simpa [h, aterr] using hnil

/-- `at_confsrv` asks for its block before it looks at the parameters. -/
theorem atConfsrv_runs (hnil : P []) :
    (∃ r, atConfsrv a.cmd env = some r ∧ P r.events) ↔ (env.mem = true →
      (a.ad.paramCount = 5 → ∃ r, confsrvSet a.cmd a.ad env = some r ∧ P r.events) ∧
      (a.ad.paramCount ≠ 5 → P [.malloc 128])) := by
  rw [atConfsrv, handle_accepted]
  cases hmem : env.mem with
  | false => simpa [aterr] using hnil
  | true =>
    by_cases h₀ : a.ad.paramCount = 0
    · simp [h₀, confsrvOk]
    · by_cases h₅ : a.ad.paramCount = 5
      · simp [h₅]
      · simp [h₀, h₅]

end Paths

theorem kept_nil : InBlock [] ∧ Apart [] := ⟨⟨none, uses_nil.2 rfl⟩, List.isChain_nil⟩

theorem atMsg_kept (a : Accepted) (env : Env) :
    (∃ r, atMsg a.cmd env = some r ∧ InBlock r.events ∧ Apart r.events) ↔
      (env.mem = true → Handler.msg.Fit a.cmd a.ad) := by
  refine (atMsg_runs (P := fun events => InBlock events ∧ Apart events) a env kept_nil).trans ?_
  refine imp_congr_right fun _ => and_congr ?_ ?_
  · refine imp_congr_right fun htypes => msgPresence_iff ?_
    rw [paramCount_eq htypes]
    decide
  · refine imp_congr_right fun htypes => msgSend_iff ?_
    rw [paramCount_eq htypes]
    decide

theorem atSql_kept (a : Accepted) (env : Env) :
    (∃ r, atSql a.cmd env = some r ∧ InBlock r.events ∧ Apart r.events) ↔
      (env.mem = true → Handler.sql.Fit a.cmd a.ad) := by
  refine (atSql_runs (P := fun events => InBlock events ∧ Apart events) a env kept_nil).trans ?_
  refine imp_congr_right fun _ => imp_congr_right fun htypes => sqlPresence_iff ?_
  rw [paramCount_eq htypes]
  decide

theorem atConfsrv_kept (a : Accepted) (env : Env) :
    (∃ r, atConfsrv a.cmd env = some r ∧ InBlock r.events ∧ Apart r.events) ↔
      (env.mem = true → Handler.confsrv.Fit a.cmd a.ad) := by
  have hmalloc : InBlock [.malloc 128] ∧ Apart [.malloc 128] :=
    ⟨⟨some 128, uses_malloc.2 (uses_nil.2 rfl)⟩, List.isChain_singleton _⟩
  refine (atConfsrv_runs (P := fun events => InBlock events ∧ Apart events) a env kept_nil).trans ?_
  refine imp_congr_right fun _ => (and_iff_left fun _ => hmalloc).trans ?_
  exact imp_congr_right fun hcount => confsrvSet_iff hcount

/-- CORRECT: the copies stay in their part of the block iff the text of the parameter has room in
    `outstrbuf_length` bytes, and so have those that the handlers copy. -/
theorem paramsKept_iff (a : Accepted) (idx : StringParam a) (outstrbufLength : ℕ) (env : Env) :
    ParamsKept a idx outstrbufLength env ↔
      Short a.cmd a.ad idx outstrbufLength ∧
        (env.mem = true → ∀ h : Handler, h.Fit a.cmd a.ad) := by
  have hidx : idx.1 < a.ad.paramCount := by
    obtain ⟨pos, hpos⟩ := idx.2
    exact (List.getElem?_eq_some_iff.1 hpos).1
  constructor
  · rintro ⟨hcopy, hcallers⟩
    refine ⟨(copy_iff hidx outstrbufLength).1 hcopy, ?_⟩
    rintro hmem (_ | _ | _)
    · exact (atMsg_kept a env).1 (hcallers .msg) hmem
    · exact (atSql_kept a env).1 (hcallers .sql) hmem
    · exact (atConfsrv_kept a env).1 (hcallers .confsrv) hmem
  · rintro ⟨hshort, hfit⟩
    refine ⟨(copy_iff hidx outstrbufLength).2 hshort, ?_⟩
    rintro (_ | _ | _)
    · exact (atMsg_kept a env).2 fun hmem => hfit hmem .msg
    · exact (atSql_kept a env).2 fun hmem => hfit hmem .sql
    · exact (atConfsrv_kept a env).2 fun hmem => hfit hmem .confsrv

/-- `AT+MSG="","x...x"` with 64 characters. -/
def longName : Accepted where
  cmd := ⟨[65, 84, 43, 77, 83, 71, 61, 34, 34, 44, 34] ++ List.replicate 64 120 ++ [34, 13],
    by decide⟩
  ad := ⟨[77, 83, 71], [⟨.string, 7⟩, ⟨.string, 10⟩]⟩
  accepted := by decide +kernel

/-- There is memory, with zeros in it. -/
def zeros : Env where
  mem := true
  block := fun _ => 0
  frame := ⟨List.replicate 8 0, by decide⟩
  ret := 0
  uconfig := FlashConfig.blank

/-- The NUL of the name is stored where the text goes. -/
theorem name_stored_over : ¬ParamsKept longName ⟨1, 10, rfl⟩ 64 zeros := by
  rintro ⟨_, hcallers⟩
  have hfit := (atMsg_kept longName zeros).1 (hcallers .msg) rfl
  have hshort := (hfit.2 rfl).1.1
  revert hshort
  decide +kernel

/-! ### The heap and the configuration -/

theorem msgPresence_freed (h : 0 < ad.paramCount) :
    (∃ r, msgPresence cmd ad env = some r ∧ Freed r.events) ↔ Short cmd ad 0 256 := by
  rw [msgPresence, map_paramBytes h, Short]
  simp [Freed, atok, inside_text]
  omega

theorem sqlPresence_freed (h : 1 < ad.paramCount) :
    (∃ r, sqlPresence cmd ad env = some r ∧ Freed r.events) ↔ Short cmd ad 1 96 := by
  have hout : ∀ text, ((snprintf 128 text).length : ℤ) < 192 := by
    intro text
    have := @snprintf_length_lt 128 (by decide) text
    omega
  rw [sqlPresence, map_paramBytes h, Short]
  simp [Freed, atok, inside_text, hout]
  omega

/-- The block of the two strings is not freed. -/
theorem msgSend_lost (h : 1 < ad.paramCount) :
    ¬∃ r, msgSend cmd ad env = some r ∧ Freed r.events := by
  rw [msgSend, bind_paramBytes h, map_paramBytes (by omega)]
  simp [Freed, atok]

/-- Nor is the one of the five parameters. -/
theorem confsrvSet_lost (h : ad.paramCount = 5) :
    ¬∃ r, confsrvSet cmd ad env = some r ∧ Freed r.events := by
  simp only [confsrvSet, Option.bind_eq_bind]
  rw [bind_setField (by omega), bind_setField (by omega), bind_setField (by omega),
    bind_setField (by omega)]
  simp [Freed, confsrvOk, put_events]

theorem atMsg_freed (a : Accepted) (env : Env) :
    (∃ r, atMsg a.cmd env = some r ∧ Freed r.events) ↔
      (env.mem = true → Handler.msg.Sound a.cmd a.ad) := by
  refine (atMsg_runs a env (uses_nil.2 rfl)).trans ?_
  refine imp_congr_right fun _ => and_congr ?_ ?_
  · refine imp_congr_right fun htypes => msgPresence_freed ?_
    rw [paramCount_eq htypes]
    decide
  · refine imp_congr_right fun htypes => iff_false_intro (msgSend_lost ?_)
    rw [paramCount_eq htypes]
    decide

theorem atSql_freed (a : Accepted) (env : Env) :
    (∃ r, atSql a.cmd env = some r ∧ Freed r.events) ↔
      (env.mem = true → Handler.sql.Sound a.cmd a.ad) := by
  refine (atSql_runs a env (uses_nil.2 rfl)).trans ?_
  refine imp_congr_right fun _ => imp_congr_right fun htypes => sqlPresence_freed ?_
  rw [paramCount_eq htypes]
  decide

theorem atConfsrv_lost (a : Accepted) (hmem : env.mem = true) :
    ¬∃ r, atConfsrv a.cmd env = some r ∧ Freed r.events := by
  intro hfreed
  obtain ⟨hset, hnone⟩ := (atConfsrv_runs a env (uses_nil.2 rfl)).1 hfreed hmem
  by_cases h₅ : a.ad.paramCount = 5
  · exact confsrvSet_lost h₅ (hset h₅)
  · simpa [Freed] using hnone h₅

theorem aterr_refused (env : Env) : Refused env (aterr env.uconfig) :=
  have htext : snprintf respatStrLength (chars "ERROR\r\n") = chars "ERROR\r\n" := by decide
  ⟨htext, rfl, fun _ h => by cases h⟩

/-- A handler that gets to `aterr` without a block. -/
theorem aterr_handled {h : Handler} (hrun : h.run cmd env = some (aterr env.uconfig)) :
    Handled h cmd env :=
  ⟨_, hrun, uses_nil.2 rfl, fun _ => .inr (aterr_refused env)⟩

theorem handled_accepted (a : Accepted) (h : Handler) (env : Env) :
    Handled h a.cmd env ↔ (env.mem = true → h.Sound a.cmd a.ad) := by
  cases h with
  | msg =>
    rw [← atMsg_freed, Handled]
    simp [Handler.run]
  | sql =>
    rw [← atSql_freed, Handled]
    simp [Handler.run]
  | confsrv =>
    cases hmem : env.mem with
    | false =>
      refine iff_of_true (aterr_handled ?_) (by simp)
      simp [Handler.run, atConfsrv, handle_accepted, hmem]
    | true =>
      refine iff_of_false ?_ fun h => h rfl
      rintro ⟨r, hrun, hfreed, _⟩
      exact atConfsrv_lost a hmem ⟨r, hrun, hfreed⟩

/-- CORRECT: a handler frees its block, and applies or refuses the command, iff the parser gets
    through the command, and, if it accepts it and there is a block, the path taken is a sound
    one. -/
theorem handled_iff (h : Handler) (cmd : CStr) (env : Env) :
    Handled h cmd env ↔ ¬Overruns cmd ∧
      ∀ ad, parseAtCmdString cmd = some (0, ad) → env.mem = true → h.Sound cmd ad := by
  by_cases hover : Overruns cmd
  · refine iff_of_false ?_ fun h => h.1 hover
    have hparse := parse_overruns hover
    rintro ⟨r, hrun, _⟩
    cases h <;> simp [Handler.run, atMsg, atSql, atConfsrv, handle, hparse] at hrun
  · rw [and_iff_right hover]
    obtain ⟨ad, hparse | hparse⟩ := parse_returns hover
    · rw [handled_accepted ⟨cmd, ad, hparse⟩]
      simp [hparse]
    · refine iff_of_true (aterr_handled ?_) (by simp [hparse])
      cases h <;> simp [Handler.run, atMsg, atSql, atConfsrv, handle, hparse]

/-- `AT+CONFSRV=1,1,1,1,1` -/
def fiveNumbers : Accepted where
  cmd := ⟨[65, 84, 43, 67, 79, 78, 70, 83, 82, 86, 61, 49, 44, 49, 44, 49, 44, 49, 44, 49, 13],
    by decide⟩
  ad := ⟨[67, 79, 78, 70, 83, 82, 86],
    [⟨.integer, 11⟩, ⟨.integer, 13⟩, ⟨.integer, 15⟩, ⟨.integer, 17⟩, ⟨.integer, 19⟩]⟩
  accepted := by decide

/-- Numbers are taken for a configuration, and the block is lost. -/
theorem numbers_not_handled : ¬Handled .confsrv fiveNumbers.cmd zeros := by
  rintro ⟨r, hrun, hfreed, _⟩
  exact atConfsrv_lost fiveNumbers rfl ⟨r, hrun, hfreed⟩

end EasyCore.SerialAt
