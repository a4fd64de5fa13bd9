import EasyCore.App.AtGrammar

/-! Reading back the parameters of a command (`easyio_core/atparse.c`): the command is written as
    "AT+NAME=p1,...,pn\r", parsed, and each parameter read again with its accessor.

    A string comes back if it fits. A number comes back if the stack helps: `get_at_param_int` copies
    at most 7 digits and, for want of a terminator, reads on in whatever stands behind them. -/

namespace EasyCore.AtParse
open Decimal

/-- A parameter: a number of type `int`, or a string without quote and NUL. -/
inductive Value
  | int (n : ℕ) (lt : n < 2 ^ 31)
  | string (chars : List UInt8) (no_quote : charQuote ∉ chars) (no_nul : 0 ∉ chars)

namespace Value

/-- How it is written. -/
def item : Value → Item
  | int n _ => .integer (numeral n) (numeral_ne_nil n) (numeral_isDigit n)
  | string chars no_quote _ => .string chars no_quote

end Value

/-- The command to be written: its name and its parameters. -/
structure Call where
  name : List UInt8
  upper : ∀ c ∈ name, isUpper c = true
  short : name.length ≤ 14
  params : List Value
  few : params.length ≤ 16

namespace Call

def chars (call : Call) : List UInt8 :=
  [charA, charT, charPlus] ++ call.name ++ charEqual :: itemsText (call.params.map Value.item) ++
    [charCr]

end Call

theorem itemsText_no_nul : ∀ ps : List Value, 0 ∉ itemsText (ps.map Value.item)
  | [] => by simp [itemsText]
  | p :: ps => by
    have hp : 0 ∉ p.item.text := by
      cases p with
      | int n => exact fun h => absurd (numeral_isDigit n 0 h) (by decide)
      | string chars _ no_nul => simp [Value.item, Item.text, no_nul, charQuote]
    have ih := itemsText_no_nul ps
    cases ps with
    | nil => simpa [itemsText] using hp
    | cons q ps =>
      simp only [List.map_cons] at ih ⊢
      rw [itemsText_cons_cons]
      simp [hp, ih, charComma]

/-- "AT+NAME=p1,...,pn\\r". -/
def Call.format (call : Call) : CStr where
  chars := call.chars
  no_nul := by
    have hname : 0 ∉ call.name := fun h => (upper_plain (call.upper 0 h)).2.2 rfl
    simp [Call.chars, hname, itemsText_no_nul, charA, charT, charPlus, charEqual, charCr]

/-- Parameter `idx` of the parsed command, read with the accessor for a value like `p`: by
    `get_at_param_int` with the stack as it is, or by `get_at_param_string` into a buffer with room
    for `room` characters. -/
def ReadsBack (cmd : CStr) (ad : AtcmdData) (idx : ℕ) (frame : Frame) (room : ℕ) : Value → Prop
  | .int n _ => getAtParamInt cmd ad frame idx = some (n : ℤ)
  | .string chars _ _ => getAtParamString cmd ad room idx = some (some chars)

/-- The command is parsed, and each parameter comes back. -/
def RoundTrip (call : Call) (frame : ℕ → Frame) (room : ℕ → ℕ) : Prop :=
  ∀ idx p, call.params[idx]? = some p → ∃ ad, parseAtCmdString call.format = some (0, ad) ∧
    ReadsBack call.format ad idx (frame idx) (room idx) p

/-- The stack behind the digits that `get_at_param_int` copies of `n`. -/
def Frame.behind (frame : Frame) (n : ℕ) : List UInt8 :=
  frame.bytes.drop (min 7 (numeral n).length)

/-- What it takes for a parameter to come back. For a number: the digits on the stack behind the
    copied ones are those left of the number, and end. For a string: its indices are of type
    `short`, and it fits the buffer with its NUL. -/
def Value.Survives (frame : Frame) (room : ℕ) : Value → Prop
  | int n _ =>
    let digits := (frame.behind n).takeWhile isDigit
    (∃ c ∈ frame.behind n, isDigit c = false) ∧
      (digits = (numeral n).drop 7 ∨ n = 0 ∧ ∀ c ∈ digits, c = 48)
  | string chars _ _ => chars.length + 1 < 2 ^ 15 ∧ chars.length < room

/-! ### The text behind a recorded position -/

/-- Item `i` of a list is recorded, at the position of its text. -/
theorem record_get {tail : List UInt8} (ht : ∃ rest, tail = charCr :: rest) :
    ∀ (ps : List Item) (i pos : ℕ) (p : Item), ps[i]? = some p →
      ∃ front c rest, itemsText ps ++ tail = front ++ (p.text ++ c :: rest) ∧
        isDigit c = false ∧ (record pos ps)[i]? = some ⟨p.type, pos + front.length⟩
  | [], i, _, p, h => by simp at h
  | q :: ps, 0, pos, p, h => by
    obtain rfl : q = p := by simpa using h
    cases ps with
    | nil =>
      obtain ⟨rest, rfl⟩ := ht
      exact ⟨[], charCr, rest, by simp [itemsText], by decide, by simp [record]⟩
    | cons q' ps =>
      refine ⟨[], charComma, itemsText (q' :: ps) ++ tail, ?_, by decide, by simp [record]⟩
      rw [itemsText_cons_cons]; simp
  | q :: ps, i + 1, pos, p, h => by
    simp only [List.getElem?_cons_succ] at h
    obtain ⟨front, c, rest, htext, hc, hrec⟩ := record_get ht ps i (pos + q.text.length + 1) p h
    cases ps with
    | nil => simp at h
    | cons q' ps =>
      refine ⟨q.text ++ charComma :: front, c, rest, ?_, hc, ?_⟩
      · rw [itemsText_cons_cons, List.append_assoc, List.cons_append, htext]; simp
      · simp only [record, List.getElem?_cons_succ] at hrec ⊢
        rw [hrec]
        simp only [List.length_append, List.length_cons, Option.some.injEq, AtcmdParam.mk.injEq,
          true_and]
        omega

/-! ### The accessors -/

theorem takeWhile_length_eq (p : UInt8 → Bool) (cs : List UInt8) :
    (cs.takeWhile p).length = cs.length ↔ ∀ c ∈ cs, p c = true := by
  rw [← List.takeWhile_eq_self_iff]
  constructor
  · exact (List.takeWhile_prefix p).eq_of_length
  · intro h
    rw [h]

/-- `sscanf` on digits with memory behind them. -/
theorem sscanfInt_digits {c : UInt8} {ds : List UInt8} (hds : ∀ d ∈ c :: ds, isDigit d = true)
    (mem : List UInt8) {m : ℕ} (hm : m < 2 ^ 31) :
    sscanfInt (c :: ds ++ mem) = some (m : ℤ) ↔
      (∃ d ∈ mem, isDigit d = false) ∧ value (c :: ds ++ mem.takeWhile isDigit) = m := by
  have hc := hds c (by simp)
  have hspace : isSpace c = false := by
    rw [isDigit_iff] at hc
    have h32 : c ≠ 32 := by rintro rfl; simp at hc
    have h13 : ¬c ≤ 13 := by rw [UInt8.le_iff_toNat_le]; simp; omega
    simp [isSpace, h32, h13]
  have hminus : c ≠ 45 := by rintro rfl; exact absurd hc (by decide)
  have hplus : c ≠ charPlus := by rintro rfl; exact absurd hc (by decide)
  have htake : (c :: ds ++ mem).takeWhile isDigit = c :: ds ++ mem.takeWhile isDigit :=
    List.takeWhile_append_of_pos hds
  -- the digits end before the memory does
  have hend : (c :: ds ++ mem.takeWhile isDigit).length = (c :: ds ++ mem).length ↔
      ¬∃ d ∈ mem, isDigit d = false := by
    rw [List.length_append, List.length_append, Nat.add_left_cancel_iff, takeWhile_length_eq]
    simp
  have hdrop : (c :: (ds ++ mem)).dropWhile isSpace = c :: (ds ++ mem) := by
    simp [hspace]
  simp only [sscanfInt, List.cons_append, hdrop, List.head?_cons, Option.some.injEq, hminus, hplus,
    or_self, if_false]
  simp only [List.cons_append] at htake hend
  simp only [htake, hend]
  constructor
  · intro h
    split at h
    · simp at h
    · next hok =>
      simp only [not_or, not_not] at hok
      exact ⟨hok.2.1, by simpa using h⟩
  · rintro ⟨hmem, hvalue⟩
    rw [hvalue, if_neg]
    simp only [not_or, not_not]
    exact ⟨by simp, hmem, by omega, by omega⟩

/-- `get_at_param_int` copies up to 7 digits and lets `sscanf` read on from there. -/
theorem getAtParamInt_numeral {cmd : CStr} {ad : AtcmdData} {idx : ℕ} {param : AtcmdParam}
    (hparam : ad.param[idx]? = some param) {n : ℕ} {c : UInt8} {rest : List UInt8}
    (htext : cmd.chars.drop param.pos = numeral n ++ c :: rest)
    (hc : isDigit c = false) (frame : Frame) :
    getAtParamInt cmd ad frame idx = sscanfInt ((numeral n).take 7 ++ frame.behind n) := by
  have hdigits : ((numeral n ++ c :: (rest ++ [0])).take 7).takeWhile isDigit = (numeral n).take 7 := by
    have hnum : ∀ d ∈ (numeral n).take 7, isDigit d = true := fun d hd =>
      numeral_isDigit n d (List.mem_of_mem_take hd)
    rw [List.take_append, List.takeWhile_append_of_pos hnum]
    cases 7 - (numeral n).length <;> simp [hc]
  have hle : param.pos ≤ cmd.chars.length := by
    apply Nat.le_of_not_lt
    intro hlt
    simp [List.drop_eq_nil_of_le hlt.le] at htext
  have hstr : (cmd.chars ++ [0]).drop param.pos = numeral n ++ c :: (rest ++ [0]) := by
    rw [List.drop_append_of_le_length hle, htext]; simp
  simp only [getAtParamInt, hparam, Option.bind_some, hstr, hdigits, List.length_take,
    Frame.behind]

/-- The copy of a string ends at the next quote, or with the command, unless an index leaves its
    range before. -/
theorem copyString_text (room : ℕ) : ∀ (cs : List UInt8) (i : ℕ) (out : List UInt8),
    copyString room i cs out =
      if i + (cs.takeWhile (· ≠ charQuote)).length < 2 ^ 15 ∧
          out.length + (cs.takeWhile (· ≠ charQuote)).length < room then
        some (out ++ cs.takeWhile (· ≠ charQuote))
      else none
  | [], i, out => by
    simp [copyString]
  | c :: cs, i, out => by
    by_cases hc : c = charQuote
    · simp [copyString, hc]
    · have ih := copyString_text room cs (i + 1) (out ++ [c])
      have htake : (c :: cs).takeWhile (· ≠ charQuote) = c :: cs.takeWhile (· ≠ charQuote) :=
        List.takeWhile_cons_of_pos (by simpa using hc)
      rw [htake, copyString, if_neg hc, ih]
      simp only [List.length_append, List.length_cons, List.length_nil, List.append_assoc,
        List.singleton_append]
      split_ifs with h₁ h₂ h₃ h₃ h₃
      · rfl
      · omega
      · omega
      · rfl
      · omega
      · rfl

theorem copyString_eq (room : ℕ) (rest chars : List UInt8) (i : ℕ) (out : List UInt8)
    (no_quote : charQuote ∉ chars) :
    copyString room i (chars ++ charQuote :: rest) out =
      if i + chars.length < 2 ^ 15 ∧ out.length + chars.length < room then some (out ++ chars)
      else none := by
  have htake : (chars ++ charQuote :: rest).takeWhile (· ≠ charQuote) = chars := by
    rw [List.takeWhile_append_of_pos fun c hc => by simpa using ne_of_mem_of_not_mem hc no_quote]
    simp
  rw [copyString_text, htake]

/-! ### One parameter -/

/-- A number comes back iff it survives. -/
theorem readsBack_int {cmd : CStr} {ad : AtcmdData} {idx : ℕ} {param : AtcmdParam}
    (hparam : ad.param[idx]? = some param) {n : ℕ} (lt : n < 2 ^ 31) {c : UInt8} {rest : List UInt8}
    (htext : cmd.chars.drop param.pos = numeral n ++ c :: rest)
    (hc : isDigit c = false) (frame : Frame) (room : ℕ) :
    ReadsBack cmd ad idx frame room (.int n lt) ↔ (Value.int n lt).Survives frame room := by
  have htail : ∀ d ∈ (frame.behind n).takeWhile isDigit, isDigit d = true := fun d hd =>
    List.mem_takeWhile_imp hd
  have hvalue : value ((numeral n).take 7 ++ (frame.behind n).takeWhile isDigit) = n ↔ _ :=
    value_take_append (by decide) htail
  simp only [ReadsBack, Value.Survives]
  rw [getAtParamInt_numeral hparam htext hc, ← hvalue]
  cases hnum : numeral n with
  | nil => exact absurd hnum (numeral_ne_nil n)
  | cons d ds =>
    rw [List.take_succ_cons]
    refine sscanfInt_digits ?_ _ lt
    intro e he
    refine numeral_isDigit n e ?_
    rw [hnum]
    rcases List.mem_cons.1 he with rfl | he
    · simp
    · exact List.mem_cons_of_mem _ (List.mem_of_mem_take he)

/-- A string comes back iff it survives. -/
theorem readsBack_string {cmd : CStr} {ad : AtcmdData} {idx : ℕ} {param : AtcmdParam}
    (hparam : ad.param[idx]? = some param) {chars rest : List UInt8} (no_quote : charQuote ∉ chars)
    (no_nul : 0 ∉ chars)
    (htext : cmd.chars.drop param.pos = charQuote :: (chars ++ charQuote :: rest))
    (frame : Frame) (room : ℕ) :
    ReadsBack cmd ad idx frame room (.string chars no_quote no_nul) ↔
      (Value.string chars no_quote no_nul).Survives frame room := by
  simp only [ReadsBack, Value.Survives, getAtParamString, hparam, Option.bind_some, htext, if_true]
  rw [copyString_eq room rest chars 1 [] no_quote]
  simp only [List.length_nil, Nat.zero_add, List.nil_append]
  split
  · next h => simp only [Option.map_some, true_iff]; omega
  · next h => simp only [Option.map_none, reduceCtorEq, false_iff]; omega

/-! ### The command -/

namespace Call

/-- The command of the grammar that is written. -/
def command (call : Call) : Command where
  hasAt := true
  name := call.name
  upper := call.upper
  short := call.short
  params := call.params.map Value.item
  few := by simpa using call.few

theorem chars_eq {call : Call} (h : call.params ≠ []) :
    call.chars = call.command.text ++ [charCr] := by
  simp [Call.chars, Command.text, Command.start, command, h]

/-- A command with parameters is parsed. -/
theorem parse_format {call : Call} (h : call.params ≠ []) :
    parseAtCmdString call.format = some (0, call.command.data) := by
  cases hps : call.command.params with
  | nil => simp [command, h] at hps
  | cons p ps =>
    have hchars : call.format.chars = call.command.text ++ [charCr] := chars_eq h
    rw [parseAtCmdString, hchars]
    exact parseLoop_command hps (.inr ⟨[], rfl⟩)

/-- Parameter `idx` is recorded at its text. -/
theorem format_get {call : Call} {idx : ℕ} {p : Value} (hp : call.params[idx]? = some p) :
    ∃ param c rest, call.command.data.param[idx]? = some param ∧ isDigit c = false ∧
      call.format.chars.drop param.pos = p.item.text ++ c :: rest := by
  have hitem : (call.params.map Value.item)[idx]? = some p.item := by
    rw [List.getElem?_map, hp]; rfl
  obtain ⟨front, c, rest, htext, hc, hrec⟩ := record_get ⟨[], rfl⟩ _ idx
    (call.command.start.length + 1) p.item hitem
  refine ⟨_, c, rest, hrec, hc, ?_⟩
  have hchars : call.format.chars =
      (call.command.start ++ charEqual :: front) ++ (p.item.text ++ c :: rest) := by
    rw [List.append_assoc, List.cons_append, ← htext]
    simp [format, Call.chars, Command.start, command]
  rw [hchars]
  apply List.drop_left'
  simp only [List.length_append, List.length_cons]; omega

end Call

/-- A parameter comes back iff it survives. -/
theorem comesBack_iff {call : Call} {idx : ℕ} {p : Value} (hp : call.params[idx]? = some p)
    (frame : Frame) (room : ℕ) :
    (∃ ad, parseAtCmdString call.format = some (0, ad) ∧
      ReadsBack call.format ad idx frame room p) ↔ p.Survives frame room := by
  have hne : call.params ≠ [] := by
    intro h
    simp [h] at hp
  obtain ⟨param, c, rest, hparam, hc, htext⟩ := Call.format_get hp
  have hreads : ReadsBack call.format call.command.data idx frame room p ↔
      p.Survives frame room := by
    cases p with
    | int n lt => exact readsBack_int hparam lt htext hc _ _
    | string chars no_quote no_nul =>
      have hquoted : call.format.chars.drop param.pos =
          charQuote :: (chars ++ charQuote :: c :: rest) := by
        rw [htext]
        simp [Value.item, Item.text]
      exact readsBack_string hparam no_quote no_nul hquoted _ _
  rw [← hreads, Call.parse_format hne]
  simp

/-- CORRECT: the parameters come back iff each of them survives. -/
theorem roundTrip_iff (call : Call) (frame : ℕ → Frame) (room : ℕ → ℕ) :
    RoundTrip call frame room ↔
      ∀ (idx : ℕ) (p : Value), call.params[idx]? = some p →
        p.Survives (frame idx) (room idx) := by
  constructor
  · intro h idx p hp
    exact (comesBack_iff hp _ _).1 (h idx p hp)
  · intro h idx p hp
    exact (comesBack_iff hp _ _).2 (h idx p hp)

/-- "AT+=12345678". -/
def longNumber : Call :=
  ⟨[], by simp, by simp, [.int 12345678 (by norm_num)], by simp⟩

/-- Read with zeros on the stack, it gives 1234567. -/
theorem eighth_digit_lost :
    ¬RoundTrip longNumber (fun _ => ⟨List.replicate 8 0, by decide⟩) fun _ => 32 := by
  intro h
  have hzero : isDigit 0 = false := by decide
  have hnum : numeral 12345678 = [49, 50, 51, 52, 53, 54, 55, 56] := by
    norm_num [numeral, digitOf]
    decide
  have hsurvives := (comesBack_iff rfl _ _).1 (h 0 (.int 12345678 (by norm_num)) rfl)
  simp [Value.Survives, Frame.behind, hnum, hzero] at hsurvives

end EasyCore.AtParse
