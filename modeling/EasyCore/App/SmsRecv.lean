import EasyCore.Lib.Stores
import EasyCore.Lib.Runs
import EasyCore.App.AtParse
import EasyCore.App.HttpResponse

/-! Incoming messages (`easyio_core/at_cmd.c`). `AT_INTERRUPT` gathers what the modem says in
    `parser_sms_buffer`, and posts `cmti`, which cuts a number and a text out of it:

        +CMT: "+8613821783003","","16/03/02,15:04:37+32"\r\nqqqqqhhhshdg\r\n
              p1             p2                           p1           p2

    An event is served some time after it has been posted; until then more may come. -/

namespace EasyCore.SmsRecv
open AtParse Stores Runs
open IspHttp (strstr)

/-- `sizeof(parser_sms_buffer)`, `sizeof(phoneNUM)`, and the size of `smsBody`. -/
def bufferSize : ℕ := 128
def phoneSize : ℕ := 16
def bodySize : ℕ := 64 + 32

def charLf : UInt8 := 10

/-- "+CMT", and "+CMT:". -/
def cmt : List UInt8 := [43, 67, 77, 84]
def cmtColon : List UInt8 := cmt ++ [58]

/-- `strncat`: the string, and what is stored from its start on. -/
def strncat (s src : CStr) (n : ℕ) : CStr :=
  ⟨s.chars ++ src.chars.take n, fun h => (List.mem_append.1 h).elim s.no_nul
    fun h => src.no_nul (List.mem_of_mem_take h)⟩

def strncatStores (s src : CStr) (n : ℕ) : List (ℤ × UInt8) :=
  place s.chars.length (src.chars.take n ++ [0])

theorem no_nul_nil : (0 : UInt8) ∉ [] := List.not_mem_nil

def empty : CStr := ⟨[], no_nul_nil⟩

/-- The string in `parser_sms_buffer`, `CNT_INTERRUPT_TIM`, and how many events with `cmti` wait to
    be served. -/
structure Sms where
  text : CStr
  cntInterruptTim : UInt32
  pending : ℕ
  le : text.chars.length ≤ 128

/-- `parser_sms_buffer[0] = 0x0`. -/
def Sms.clear (s : Sms) : Sms where
  text := empty
  cntInterruptTim := s.cntInterruptTim
  pending := s.pending
  le := by simp [empty]

/-- `post_default_event`. -/
def Sms.post (s : Sms) (posted : Bool) : Sms :=
  { s with pending := if posted then s.pending + 1 else s.pending }

/-- `strncat(parser_sms_buffer,input_str,128-strlen(parser_sms_buffer))`. -/
def Sms.append (s : Sms) (input : CStr) : Sms where
  text := strncat s.text input (128 - s.text.chars.length)
  cntInterruptTim := s.cntInterruptTim
  pending := s.pending
  le := by
    have := s.le
    simp only [strncat, List.length_append, List.length_take]
    omega

/-- `AT_INTERRUPT`, behind the call of `__ATINT`, with what it stores in `parser_sms_buffer`; `now`
    is `app_timer_second`. -/
def atInterrupt (s : Sms) (input : CStr) (now : UInt32) (posted : Bool) :
    Sms × List (ℤ × UInt8) :=
  if (strstr cmt input.chars).isSome then
    let s := { s.clear with cntInterruptTim := now }
    if input.chars.length < 128 then
      ((s.append input).post posted, place 0 [0] ++ strncatStores s.text input 128)
    else (s, place 0 [0])
  else if now - s.cntInterruptTim < 2 then
    ((s.append input).post posted,
      strncatStores s.text input (128 - s.text.chars.length))
  else (s, [])

/-- `for(i=1;i<(p2-p1);i++)`, with `d` for the difference: what is stored from the start of the
    other array on. `i` is of type `char`; once it has come round, the loop does not end. -/
def copyLoop (p1 : List UInt8) (d : ℕ) : ℕ → UInt8 → Option (List (ℤ × UInt8))
  | 0, _ => none
  | fuel + 1, i =>
    if i.toNat < d then
      (copyLoop p1 d fuel (i + 1)).map fun ws => ((i.toNat : ℤ) - 1, p1.getD i.toNat 0) :: ws
    else some []

/-- `p1 = strstr(str,...)`, `p2 = strstr(p1+1,...)` and the loop; `none` if there is no `p1` to go
    on from, or the loop does not end. -/
def cut (opening closing : UInt8) (str : List UInt8) : Option (List (ℤ × UInt8)) :=
  (strstr [opening] str).bind fun p1 =>
    match strstr [closing] (str.drop (p1 + 1)) with
    | none => some []
    | some k => copyLoop (str.drop p1) (k + 1) (2 ^ 8) 1

/-- What `cmti` finds: whether there is memory, and what is in the block; whether there is a
    `smsrecv`. -/
structure CmtiEnv where
  mem : Bool
  block : ℤ → UInt8
  smsrecv : Bool

/-- What is stored in `phoneNUM` and in `smsBody`, and the two as `smsrecv` gets them. -/
structure CmtiRun where
  phone : List (ℤ × UInt8)
  body : List (ℤ × UInt8)
  received : Option (List UInt8 × List UInt8)

/-- `cmti` with memory. -/
def cmti (recvStr : List UInt8) (env : CmtiEnv) : Option CmtiRun := do
  let phone ← cut charQuote charQuote recvStr
  let p3 ← strstr cmtColon recvStr
  let text ← cut charLf charCr (recvStr.drop p3)
  let body := place 0 [0] ++ text
  let smsBody := after env.block body
  let received := if env.smsrecv ∧ smsBody 0 ≠ 0 then
      some (contents (after (fun _ => 0) phone) phoneSize, contents smsBody bodySize)
    else none
  return ⟨phone, body, received⟩

/-- The modem says something, or an event is served. -/
inductive Action
  | interrupt (input : CStr) (now : UInt32) (posted : Bool)
  | serve (env : CmtiEnv)

def step (s : Sms) : Action → Sms
  | .interrupt input now posted => (atInterrupt s input now posted).1
  | .serve env =>
    if s.pending = 0 then s
    else if env.mem then { s.clear with pending := s.pending - 1 }
    else { s with pending := s.pending - 1 }

/-- Nothing has come yet. -/
def start : Sms := ⟨empty, 0, 0, by simp [empty]⟩

/-- The text stays in the buffer; `cmti` ends, goes on from what it has found, and stays in its two
    arrays. -/
def Safe (s : Sms) : Action → Prop
  | .interrupt input now posted => Inside bufferSize (atInterrupt s input now posted).2
  | .serve env => s.pending ≠ 0 → env.mem = true →
    ∃ r, cmti s.text.chars env = some r ∧ Inside phoneSize r.phone ∧ Inside bodySize r.body

/-- What comes behind the first `c`. -/
def behind (c : UInt8) (s : List UInt8) : List UInt8 := (s.dropWhile (· ≠ c)).tail

/-- There is an opening character, and if a closing one comes behind it, what is between them has no
    more than `n` characters. -/
def Enclosed (opening closing : UInt8) (n : ℕ) (s : List UInt8) : Prop :=
  opening ∈ s ∧ (closing ∈ behind opening s →
    ((behind opening s).takeWhile (· ≠ closing)).length ≤ n)

/-- What goes on in the buffer has room there with a NUL. A text that is served has a quote, "+CMT:"
    and a line behind it, with at most 16 characters between quotes and 96 in the line. -/
def Sound (s : Sms) : Action → Prop
  | .interrupt input now _ =>
    strstr cmt input.chars = none → now - s.cntInterruptTim < 2 →
      s.text.chars.length + input.chars.length < bufferSize
  | .serve env => s.pending ≠ 0 → env.mem = true →
    Enclosed charQuote charQuote phoneSize s.text.chars ∧
      ∃ p, strstr cmtColon s.text.chars = some p ∧
        Enclosed charLf charCr bodySize (s.text.chars.drop p)

/-! ### A character is looked for -/

variable {c : UInt8} {s : List UInt8}

theorem takeWhile_mem : ∀ {s : List UInt8}, c ∈ s →
    s = s.takeWhile (· ≠ c) ++ c :: behind c s
  | [], h => absurd h (by simp)
  | d :: s, h => by
    by_cases hd : d = c
    · subst hd
      simp [behind]
    · have hs : c ∈ s := (List.mem_cons.1 h).resolve_left (Ne.symm hd)
      have ih := takeWhile_mem hs
      rw [behind, List.takeWhile_cons_of_pos (by simpa using hd),
        List.dropWhile_cons_of_pos (by simpa using hd), List.cons_append]
      exact congrArg (d :: ·) ih

theorem cstring_eq (hs : 0 ∉ s) : s.takeWhile (· ≠ 0) = s :=
  List.takeWhile_eq_self_iff.2 fun d hd => by simpa using ne_of_mem_of_not_mem hd hs

theorem char_at (j : ℕ) : [c] <+: s.drop j ↔ s[j]? = some c := by
  rw [← List.head?_drop]
  cases s.drop j with
  | nil => simp
  | cons d t => simp [eq_comm]

/-- Where the first one is. -/
theorem strstr_char (hs : 0 ∉ s) :
    strstr [c] s = if c ∈ s then some (s.takeWhile (· ≠ c)).length else none := by
  split_ifs with h
  · have hsplit := takeWhile_mem h
    rw [HttpResponse.strstr_eq_some_iff, cstring_eq hs]
    refine ⟨?_, (List.takeWhile_prefix _).length_le, ?_⟩
    · nth_rewrite 2 [hsplit]
      rw [List.drop_left]
      exact List.prefix_append [c] _
    · rintro j hj hfound
      rw [char_at, hsplit, List.getElem?_append_left hj, List.getElem?_eq_getElem hj,
        Option.some_inj] at hfound
      have hmem : (s.takeWhile (· ≠ c))[j] ∈ s.takeWhile (· ≠ c) := List.getElem_mem hj
      have hne : (s.takeWhile (· ≠ c))[j] ≠ c := by simpa using List.mem_takeWhile_imp hmem
      exact hne hfound
  · rw [HttpResponse.strstr_eq_none_iff, cstring_eq hs]
    rintro j _ hfound
    rw [char_at] at hfound
    exact h (List.mem_of_getElem? hfound)

theorem drop_takeWhile (h : c ∈ s) :
    s.drop (s.takeWhile (· ≠ c)).length = c :: behind c s := by
  nth_rewrite 2 [takeWhile_mem h]
  exact List.drop_left

theorem drop_behind (h : c ∈ s) : s.drop ((s.takeWhile (· ≠ c)).length + 1) = behind c s := by
  rw [← List.tail_drop, drop_takeWhile h, List.tail_cons]

/-! ### The loops -/

/-- The counter does not get to the end of its range. -/
theorem copyLoop_eq {src : List UInt8} {d : ℕ} (hd : d < 2 ^ 8) (hlen : d ≤ src.length) :
    ∀ (fuel n : ℕ), n ≤ d → d < n + fuel →
      copyLoop src d fuel (UInt8.ofNat n) = some (place ((n : ℤ) - 1) ((src.take d).drop n))
  | 0, n, hn, hfuel => by omega
  | fuel + 1, n, hn, hfuel => by
    have hnat : (UInt8.ofNat n).toNat = n := by
      rw [UInt8.toNat_ofNat']
      omega
    rw [copyLoop, hnat]
    split_ifs with hlt
    · have ih := copyLoop_eq hd hlen fuel (n + 1) hlt (by omega)
      have hnext : UInt8.ofNat n + 1 = UInt8.ofNat (n + 1) := by
        rw [UInt8.ofNat_add]
        rfl
      have hdrop : (src.take d).drop n = src.getD n 0 :: (src.take d).drop (n + 1) := by
        rw [List.drop_eq_getElem_cons (by rw [List.length_take]; omega), List.getElem_take,
          List.getD_eq_getElem]
      rw [hnext, ih, hdrop, place, Option.map_some]
      push_cast
      rw [show (n : ℤ) + 1 - 1 = n - 1 + 1 by ring]
    · obtain rfl : n = d := by omega
      rw [List.drop_eq_nil_of_le (List.length_take_le _ _)]
      rfl

/-- What a part of `cmti` cuts out of a string that the counter can go through. -/
theorem cut_eq (opening closing : UInt8) (hs : 0 ∉ s) (hlen : s.length < 2 ^ 8) :
    cut opening closing s =
      if opening ∈ s then
        some (if closing ∈ behind opening s then
          place 0 ((behind opening s).takeWhile (· ≠ closing)) else [])
      else none := by
  rw [cut, strstr_char hs]
  by_cases hopening : opening ∈ s
  · have hbehind := drop_behind hopening
    have hsub : 0 ∉ behind opening s := fun h => hs (List.mem_of_mem_drop (hbehind ▸ h))
    rw [if_pos hopening, if_pos hopening, Option.bind_some, hbehind, strstr_char hsub,
      drop_takeWhile hopening]
    split_ifs with hclosing
    · have hle : (behind opening s).length + 1 ≤ s.length := by
        rw [← List.length_cons, ← drop_takeWhile hopening, List.length_drop]
        exact Nat.sub_le _ _
      have htake := (List.takeWhile_prefix (· ≠ closing) (l := behind opening s)).length_le
      have hcopy := @copyLoop_eq (opening :: behind opening s)
        (((behind opening s).takeWhile (· ≠ closing)).length + 1) (by omega)
        (by rw [List.length_cons]; omega) (2 ^ 8) 1 (by omega) (by omega)
      have hpart : (behind opening s).take ((behind opening s).takeWhile (· ≠ closing)).length =
          (behind opening s).takeWhile (· ≠ closing) :=
        (List.prefix_iff_eq_take.1 (List.takeWhile_prefix _)).symm
      rw [List.take_succ_cons, List.drop_one, List.tail_cons, hpart] at hcopy
      simpa using hcopy
    · rfl
  · rw [if_neg hopening, if_neg hopening, Option.bind_none]

theorem cut_iff (opening closing : UInt8) (hs : 0 ∉ s) (hlen : s.length < 2 ^ 8) (n : ℕ) :
    (∃ ws, cut opening closing s = some ws ∧ Inside n ws) ↔ Enclosed opening closing n s := by
  rw [cut_eq opening closing hs hlen, Enclosed]
  split_ifs with hopening hclosing
  · simp only [Option.some.injEq, exists_eq_left', inside_place, zero_add, le_rfl, true_and,
      hopening, hclosing, true_imp_iff]
    constructor
    · rintro (h | h)
      · rw [h]
        exact Nat.zero_le n
      · exact_mod_cast h
    · intro h
      exact .inr (by exact_mod_cast h)
  · simp [hopening, hclosing]
  · simp [hopening]

/-! ### One step -/

/-- The text is in the buffer. -/
def Inv (s : Sms) : Prop := s.text.chars.length < bufferSize

theorem inside_strncat (s input : CStr) (n : ℕ) :
    Inside bufferSize (strncatStores s input n) ↔
      s.chars.length + min n input.chars.length < bufferSize := by
  rw [strncatStores, inside_place, List.length_append, List.length_take, List.length_singleton]
  simp only [List.append_eq_nil_iff, List.cons_ne_nil, and_false, false_or]
  omega

theorem interrupt_iff (s : Sms) (input : CStr) (now : UInt32) (posted : Bool) :
    Safe s (.interrupt input now posted) ↔ Sound s (.interrupt input now posted) := by
  rw [Safe, Sound, atInterrupt]
  have hle := s.le
  split_ifs with hcmt hlen htime
  · -- what has "+CMT" in it is the only text
    refine iff_of_true ?_ fun h => by simp [h] at hcmt
    have hfirst : Inside bufferSize (place 0 [(0 : UInt8)]) := inside_place.2 (.inr (by decide))
    rw [inside_append, inside_strncat]
    refine ⟨hfirst, ?_⟩
    simp only [Sms.clear, empty, bufferSize, List.length_nil]
    omega
  · refine iff_of_true (inside_place.2 (.inr (by decide))) fun h => by simp [h] at hcmt
  · have hnone : strstr cmt input.chars = none := by simpa using hcmt
    rw [inside_strncat]
    simp only [hnone, htime, true_imp_iff, bufferSize]
    omega
  · exact iff_of_true inside_nil fun _ h => absurd h htime

theorem cmti_iff {recvStr : List UInt8} (hs : 0 ∉ recvStr) (hlen : recvStr.length < 2 ^ 8)
    (env : CmtiEnv) :
    (∃ r, cmti recvStr env = some r ∧ Inside phoneSize r.phone ∧ Inside bodySize r.body) ↔
      Enclosed charQuote charQuote phoneSize recvStr ∧ ∃ p, strstr cmtColon recvStr = some p ∧
        Enclosed charLf charCr bodySize (recvStr.drop p) := by
  have hfirst : Inside bodySize (place 0 [(0 : UInt8)]) := inside_place.2 (.inr (by decide))
  have hline : ∀ p, 0 ∉ recvStr.drop p ∧ (recvStr.drop p).length < 2 ^ 8 := by
    intro p
    refine ⟨fun h => hs (List.mem_of_mem_drop h), ?_⟩
    rw [List.length_drop]
    omega
  simp only [← cut_iff charQuote charQuote hs hlen, ← fun p => cut_iff charLf charCr (hline p).1
    (hline p).2]
  simp only [cmti, Option.bind_eq_bind, Option.pure_def, Option.bind_eq_some_iff]
  constructor
  · rintro ⟨r, ⟨phone, hphone, p, hp, text, htext, hr⟩, hin, hbody⟩
    obtain rfl := Option.some.inj hr
    exact ⟨⟨phone, hphone, hin⟩, p, hp, text, htext, (inside_append.1 hbody).2⟩
  · rintro ⟨⟨phone, hphone, hin⟩, p, hp, text, htext, hbody⟩
    exact ⟨_, ⟨phone, hphone, p, hp, text, htext, rfl⟩, hin, inside_append.2 ⟨hfirst, hbody⟩⟩

theorem safe_iff {s : Sms} (inv : Inv s) (a : Action) : Safe s a ↔ Sound s a := by
  cases a with
  | interrupt input now posted => exact interrupt_iff s input now posted
  | serve env =>
    have hlen : s.text.chars.length < 2 ^ 8 := inv.trans (by decide)
    rw [Safe, Sound, cmti_iff s.text.no_nul hlen env]

theorem Inv.step {s : Sms} (inv : Inv s) (a : Action) (hsound : Sound s a) : Inv (step s a) := by
  rw [Inv, bufferSize] at *
  cases a with
  | interrupt input now posted =>
    rw [SmsRecv.step, atInterrupt]
    split_ifs with hcmt hlen htime
    · simp only [Sms.post, Sms.append, Sms.clear, empty, strncat, List.nil_append,
        List.length_take]
      omega
    · simp [Sms.clear, empty]
    · have hroom := hsound (by simpa using hcmt) htime
      simp only [Sms.post, Sms.append, strncat, List.length_append, List.length_take, bufferSize]
        at hroom ⊢
      omega
    · exact inv
  | serve env =>
    rw [SmsRecv.step]
    split_ifs
    · exact inv
    · simp [Sms.clear, empty]
    · exact inv

/-- CORRECT: in a run the text stays in the buffer and `cmti` in its arrays iff what goes on in the
    buffer has room there, and each text that is served is a message. -/
theorem along_safe_iff (actions : List Action) :
    Along step Safe start actions ↔ Along step Sound start actions :=
  Along.iff (fun _ a inv => safe_iff inv a) (fun _ a inv hsound => inv.step a hsound) actions
    (show 0 < bufferSize by decide)

/-- `+CMT: "+8613821783003","","16/03/02,15:04:37+32"`, and `hello` in the next line. -/
def header : CStr :=
  ⟨cmtColon ++ [32, 34, 43, 56, 54, 49, 51, 56, 50, 49, 55, 56, 51, 48, 48, 51, 34, 44, 34, 34, 44,
    34, 49, 54, 47, 48, 51, 47, 48, 50, 44, 49, 53, 58, 48, 52, 58, 51, 55, 43, 51, 50, 34, 13,
    10], by decide⟩

def hello : CStr := ⟨[104, 101, 108, 108, 111, 13, 10], by decide⟩

def ready : CmtiEnv := ⟨true, fun _ => 0, true⟩

/-- Both lines post an event, and the second of them finds nothing in the buffer. -/
theorem served_twice : ¬Along step Safe start
    [.interrupt header 10 true, .interrupt hello 10 true, .serve ready, .serve ready] := by
  rintro ⟨_, _, _, hlast, _⟩
  obtain ⟨r, hr, _⟩ := hlast (by decide +kernel) rfl
  have hnone : (cmti (step (step (step start (.interrupt header 10 true))
      (.interrupt hello 10 true)) (.serve ready)).text.chars ready).isNone = true := by
    decide +kernel
  rw [hr] at hnone
  cases hnone

/-- The first one has cut both out. -/
example : (cmti (strncat header hello 128).chars ready).map (fun r => r.body.length) = some 6 := by
  decide +kernel

end EasyCore.SmsRecv
