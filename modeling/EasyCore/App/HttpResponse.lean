import EasyCore.App.IspHttp

/-! A response to the download client (`applications/isp_http_tcp.c`), as a server may write it: a
    status line, fields of which one says how long the body is, an empty line, and the body.

    The empty line is the first place where two line ends follow one another. -/

namespace EasyCore.HttpResponse
open IspHttp

/-- The end of a line. -/
def crlf : List UInt8 := [13, 10]

/-- What `recv` looks for: the end of the last line, and the empty line. -/
def headEnd : List UInt8 := [13, 10, 13, 10]

/-- A byte of the reason, or of a value. -/
def isText (c : UInt8) : Bool := c = 9 || (32 ≤ c && c ≠ 127)

/-- The bytes that may not stand in a name: brackets, quotes and the like. -/
def separators : List UInt8 :=
  [34, 40, 41, 44, 47, 58, 59, 60, 61, 62, 63, 64, 91, 92, 93, 123, 125]

/-- A byte of a name. -/
def isToken (c : UInt8) : Bool := 33 ≤ c && c ≤ 126 && !separators.contains c

/-- A small letter for a capital one. -/
def lower (c : UInt8) : UInt8 := if 65 ≤ c ∧ c ≤ 90 then c + 32 else c

/-- A blank or a tab. -/
def isBlank (c : UInt8) : Bool := c = 32 || c = 9

/-- A field of the header; there may be blanks before and behind its value. -/
structure Field where
  name : List UInt8
  value : List UInt8
  name_ne : name ≠ []
  name_token : ∀ c ∈ name, isToken c = true
  value_text : ∀ c ∈ value, isText c = true

/-- The line of a field. -/
def Field.line (f : Field) : List UInt8 := f.name ++ 58 :: f.value

/-- The field is about the length, in small letters or capital ones. -/
def Field.isLength (f : Field) : Prop := f.name.map lower = contentLengthField.map lower

/-- The value says so: digits between blanks. -/
def Field.Says (f : Field) (n : ℕ) : Prop :=
  ∃ before digits behind, f.value = before ++ digits ++ behind ∧
    (∀ c ∈ before ++ behind, isBlank c = true) ∧ digits ≠ [] ∧
    (∀ c ∈ digits, Decimal.isDigit c = true) ∧ Decimal.value digits = n

/-- A response of HTTP/1.x with the status 200, whose body is below the limit of the storage. -/
structure Response where
  version : UInt8
  reason : List UInt8
  fields : List Field
  body : List UInt8
  version_digit : Decimal.isDigit version = true
  reason_text : ∀ c ∈ reason, isText c = true
  length_named : ∃ f ∈ fields, f.isLength
  length_right : ∀ f ∈ fields, f.isLength → f.Says body.length
  body_small : body.length < storageSize.toNat

/-- "HTTP/1." -/
def protocol : List UInt8 := [72, 84, 84, 80, 47, 49, 46]

/-- " 200 " -/
def statusOk : List UInt8 := [32, 50, 48, 48, 32]

def Response.statusLine (r : Response) : List UInt8 :=
  protocol ++ r.version :: (statusOk ++ r.reason)

def Response.lines (r : Response) : List (List UInt8) := r.statusLine :: r.fields.map Field.line

/-- The text of lines, and the empty line. -/
def textOf (lines : List (List UInt8)) : List UInt8 := lines.flatMap (· ++ crlf) ++ crlf

def Response.head (r : Response) : List UInt8 := textOf r.lines

def Response.bytes (r : Response) : List UInt8 := r.head ++ r.body

/-! ### The end of the header -/

/-- A line has no control characters but tabs, and is not empty. -/
def IsLine (l : List UInt8) : Prop := l ≠ [] ∧ ∀ c ∈ l, isText c = true

theorem isText_of_token {c : UInt8} (h : isToken c = true) : isText c = true := by
  simp only [isToken, Bool.and_eq_true, decide_eq_true_eq] at h
  obtain ⟨⟨hlow, hhigh⟩, -⟩ := h
  simp only [isText, Bool.or_eq_true, Bool.and_eq_true, decide_eq_true_eq]
  have hlow := UInt8.le_iff_toNat_le.1 hlow
  have hhigh := UInt8.le_iff_toNat_le.1 hhigh
  refine .inr ⟨UInt8.le_iff_toNat_le.2 (le_trans (by decide) hlow), ?_⟩
  rintro rfl
  exact absurd hhigh (by decide)

theorem isText_of_digit {c : UInt8} (h : Decimal.isDigit c = true) : isText c = true := by
  revert c
  decide +kernel

theorem Field.isLine (f : Field) : IsLine f.line := by
  refine ⟨by simp [Field.line], fun c hc => ?_⟩
  rw [Field.line, List.mem_append, List.mem_cons] at hc
  rcases hc with hc | rfl | hc
  · exact isText_of_token (f.name_token c hc)
  · decide
  · exact f.value_text c hc

theorem Response.isLine (r : Response) {l : List UInt8} (hl : l ∈ r.lines) : IsLine l := by
  rcases List.mem_cons.1 hl with rfl | hl
  · have hprotocol : ∀ c ∈ protocol, isText c = true := by decide +kernel
    have hstatus : ∀ c ∈ statusOk, isText c = true := by decide +kernel
    refine ⟨by simp [Response.statusLine], fun c hc => ?_⟩
    rw [Response.statusLine, List.mem_append, List.mem_cons, List.mem_append] at hc
    rcases hc with hc | rfl | hc | hc
    · exact hprotocol c hc
    · exact isText_of_digit r.version_digit
    · exact hstatus c hc
    · exact r.reason_text c hc
  · obtain ⟨f, -, rfl⟩ := List.mem_map.1 hl
    exact f.isLine

/-- There is no NUL in a header. -/
theorem Response.head_ne_zero (r : Response) : ∀ c ∈ r.head, c ≠ 0 := by
  intro c hc
  have hcrlf : ∀ c ∈ crlf, c ≠ 0 := by simp [crlf]
  rw [Response.head, textOf, List.mem_append, List.mem_flatMap] at hc
  rcases hc with ⟨l, hl, hc⟩ | hc
  · rcases List.mem_append.1 hc with hc | hc
    · rintro rfl
      exact absurd ((r.isLine hl).2 0 hc) (by decide)
    · exact hcrlf c hc
  · exact hcrlf c hc

theorem textOf_cons (l : List UInt8) (lines : List (List UInt8)) :
    textOf (l :: lines) = l ++ (13 :: 10 :: textOf lines) := by
  simp [textOf, crlf]

/-- What the lines begin with is no line end, if there is a line. -/
theorem textOf_head {lines : List (List UInt8)} (hlines : ∀ l ∈ lines, IsLine l)
    (h : (textOf lines)[0]? = some 13) : lines = [] := by
  cases lines with
  | nil => rfl
  | cons l lines =>
    obtain ⟨hne, htext⟩ := hlines l (List.mem_cons_self ..)
    rw [textOf_cons, List.getElem?_append_left (List.length_pos_iff.2 hne)] at h
    exact absurd (htext 13 (List.mem_of_getElem? h)) (by decide)

/-- Two line ends follow one another only where the lines are over. -/
theorem headEnd_last : ∀ (lines : List (List UInt8)) (i : ℕ), (∀ l ∈ lines, IsLine l) →
    headEnd <+: (textOf lines).drop i → i + 4 = (textOf lines).length
  | [], i, _, h => by
    have hlen := h.length_le
    simp only [headEnd, textOf, List.flatMap_nil, List.nil_append, crlf, List.length_drop,
      List.length_cons, List.length_nil] at hlen
    omega
  | l :: lines, i, hlines, h => by
    obtain ⟨-, htext⟩ := hlines l (List.mem_cons_self ..)
    have hrest : ∀ l ∈ lines, IsLine l := fun l' hl' => hlines l' (List.mem_cons_of_mem _ hl')
    rw [textOf_cons] at h ⊢
    have hfirst : (l ++ 13 :: 10 :: textOf lines)[i]? = some 13 := by
      obtain ⟨t, ht⟩ := h
      have hget := congrArg (·[0]?) ht
      simpa [headEnd, List.getElem?_drop] using hget.symm
    rcases lt_trichotomy i l.length with hi | rfl | hi
    · -- within the line
      rw [List.getElem?_append_left hi] at hfirst
      exact absurd (htext 13 (List.mem_of_getElem? hfirst)) (by decide)
    · -- at its end: what comes next is the empty line
      rw [List.drop_left] at h
      obtain ⟨t, ht⟩ := h
      have hnext : [13, 10] ++ t = textOf lines := by
        simpa [headEnd] using ht
      have hnil : lines = [] := textOf_head hrest (by rw [← hnext]; rfl)
      rw [hnil]
      simp [textOf, crlf]
    · -- behind it
      obtain ⟨j, rfl⟩ : ∃ j, i = l.length + 1 + j := ⟨_, (Nat.add_sub_of_le hi).symm⟩
      cases j with
      | zero =>
        rw [Nat.add_zero, List.getElem?_append_right (Nat.le_succ _)] at hfirst
        simp at hfirst
      | succ j =>
        have hdrop : (l ++ 13 :: 10 :: textOf lines).drop (l.length + 1 + (j + 1)) =
            (textOf lines).drop j := by
          rw [show l.length + 1 + (j + 1) = l.length + (j + 1 + 1) by omega,
            List.drop_length_add_append]
          rfl
        rw [hdrop] at h
        have ih := headEnd_last lines j hrest h
        simp only [List.length_append, List.length_cons]
        omega

theorem Response.head_eq (r : Response) : ∃ text, r.head = text ++ headEnd := by
  have hne : r.lines ≠ [] := List.cons_ne_nil _ _
  obtain ⟨init, l, hlines⟩ := (List.eq_nil_or_concat' r.lines).resolve_left hne
  exact ⟨init.flatMap (· ++ crlf) ++ l, by simp [head, hlines, textOf, crlf, headEnd]⟩

theorem Response.head_length (r : Response) : 4 ≤ r.head.length := by
  obtain ⟨text, htext⟩ := r.head_eq
  rw [htext, List.length_append]
  exact Nat.le_add_left ..

/-- The header ends with the only place where two line ends follow one another. -/
theorem Response.headEnd_iff (r : Response) (i : ℕ) :
    headEnd <+: r.head.drop i ↔ i + 4 = r.head.length := by
  constructor
  · exact headEnd_last r.lines i fun _ hl => r.isLine hl
  · intro hi
    obtain ⟨text, htext⟩ := r.head_eq
    rw [htext, List.length_append] at hi
    have hlen : i = text.length := Nat.add_right_cancel hi
    rw [htext, hlen, List.drop_left]

/-! ### Looking for it -/

theorem strstr_eq_some_iff {pat buf : List UInt8} {p : ℕ} : strstr pat buf = some p ↔
    pat <+: (buf.takeWhile (· ≠ 0)).drop p ∧ p ≤ (buf.takeWhile (· ≠ 0)).length ∧
      ∀ j < p, ¬pat <+: (buf.takeWhile (· ≠ 0)).drop j := by
  simp [strstr, List.isPrefixOf_iff_prefix, ← Bool.not_eq_true]

theorem strstr_eq_none_iff {pat buf : List UInt8} : strstr pat buf = none ↔
    ∀ j ≤ (buf.takeWhile (· ≠ 0)).length, ¬pat <+: (buf.takeWhile (· ≠ 0)).drop j := by
  simp [strstr, List.isPrefixOf_iff_prefix]

/-- What has been found lies in the buffer. -/
theorem strstr_le {pat buf : List UInt8} {p : ℕ} (h : strstr pat buf = some p) :
    p + pat.length ≤ buf.length := by
  obtain ⟨hpat, hp, -⟩ := strstr_eq_some_iff.1 h
  have hlen := hpat.length_le
  have htake := (List.takeWhile_prefix (fun c : UInt8 => decide (c ≠ 0)) (l := buf)).length_le
  rw [List.length_drop] at hlen
  omega

/-- What has been found is found as well when more comes behind the buffer. -/
theorem strstr_append {pat buf : List UInt8} {p : ℕ} (hbuf : ∀ c ∈ buf, c ≠ 0)
    (h : strstr pat buf = some p) (more : List UInt8) : strstr pat (buf ++ more) = some p := by
  have hself : buf.takeWhile (· ≠ 0) = buf :=
    List.takeWhile_eq_self_iff.2 fun c hc => decide_eq_true (hbuf c hc)
  have htake : (buf ++ more).takeWhile (· ≠ 0) = buf ++ more.takeWhile (· ≠ 0) :=
    List.takeWhile_append_of_pos fun c hc => decide_eq_true (hbuf c hc)
  have hle := strstr_le h
  rw [strstr_eq_some_iff, hself] at h
  obtain ⟨hpat, hp, hfirst⟩ := h
  rw [strstr_eq_some_iff, htake]
  refine ⟨?_, ?_, fun j hj hfound => hfirst j hj ?_⟩
  · rw [List.drop_append_of_le_length hp]
    exact hpat.trans (List.prefix_append ..)
  · rw [List.length_append]
    exact hp.trans (Nat.le_add_right ..)
  · rw [List.drop_append_of_le_length (by omega)] at hfound
    refine List.prefix_of_prefix_length_le hfound (List.prefix_append ..) ?_
    rw [List.length_drop]
    omega

/-- A segment with the end of the header: it is found there. -/
theorem Response.strstr_end (r : Response) {before inside : List UInt8}
    (hhead : before ++ inside = r.head) (hlen : 4 ≤ inside.length) (body : List UInt8) :
    strstr headEnd (inside ++ body) = some (inside.length - 4) := by
  have htotal : before.length + inside.length = r.head.length := by
    rw [← hhead, List.length_append]
  have hin : ∀ j, inside.drop j = r.head.drop (before.length + j) := fun j => by
    rw [← hhead, List.drop_length_add_append]
  have hzero : ∀ c ∈ inside, c ≠ 0 := fun c hc => by
    refine r.head_ne_zero c ?_
    rw [← hhead]
    exact List.mem_append_right _ hc
  refine strstr_append hzero ?_ body
  rw [strstr_eq_some_iff, List.takeWhile_eq_self_iff.2 fun c hc => decide_eq_true (hzero c hc)]
  refine ⟨?_, Nat.sub_le .., fun j hj hfound => ?_⟩
  · rw [hin, r.headEnd_iff]
    omega
  · rw [hin, r.headEnd_iff] at hfound
    omega

/-- A segment in front of the end of the header: nothing is found. -/
theorem Response.strstr_inside (r : Response) {before inside more : List UInt8}
    (hhead : before ++ (inside ++ more) = r.head) (hmore : more ≠ []) :
    strstr headEnd inside = none := by
  have htotal : before.length + (inside.length + more.length) = r.head.length := by
    rw [← hhead, List.length_append, List.length_append]
  have hpos := List.length_pos_iff.2 hmore
  have htake : inside.takeWhile (· ≠ 0) = inside := by
    refine List.takeWhile_eq_self_iff.2 fun c hc => decide_eq_true (r.head_ne_zero c ?_)
    rw [← hhead]
    exact List.mem_append_right _ (List.mem_append_left _ hc)
  rw [strstr_eq_none_iff, htake]
  intro j hj hfound
  have hfour := hfound.length_le
  rw [List.length_drop] at hfour
  have hin : headEnd <+: r.head.drop (before.length + j) := by
    rw [← hhead, List.drop_length_add_append, List.drop_append_of_le_length hj]
    exact hfound.trans (List.prefix_append ..)
  rw [r.headEnd_iff] at hin
  simp only [headEnd, List.length_cons, List.length_nil] at hfour
  omega

/-! ### The length -/

/-- The first place where the name of the field stands is the field, as most servers write it: there
    is one blank between its colon and the digits. -/
def Response.Plain (r : Response) : Prop :=
  ∃ text digits rest,
    r.head = text ++ (contentLengthField ++ 58 :: 32 :: (digits ++ 13 :: rest)) ∧
      strstr contentLengthField r.head = some text.length ∧ digits ≠ [] ∧
      (∀ c ∈ digits, Decimal.isDigit c = true) ∧ Decimal.value digits = r.body.length

/-- A digit is no blank and no sign. -/
theorem isDigit_plain {c : UInt8} (h : Decimal.isDigit c = true) :
    (c = 32 || 9 ≤ c && c ≤ 13) = false ∧ c ≠ 45 ∧ c ≠ 43 := by
  revert c
  decide +kernel

theorem atoi_digits {digits rest : List UInt8} (hne : digits ≠ [])
    (hdigits : ∀ c ∈ digits, Decimal.isDigit c = true) :
    atoi (digits ++ 13 :: rest) = UInt32.ofNat (Decimal.value digits) := by
  have htake : (digits ++ 13 :: rest).takeWhile Decimal.isDigit = digits := by
    rw [List.takeWhile_append_of_pos hdigits, List.takeWhile_cons_of_neg (by decide),
      List.append_nil]
  cases digits with
  | nil => exact absurd rfl hne
  | cons c digits =>
    obtain ⟨hblank, hminus, hplus⟩ := isDigit_plain (hdigits c (List.mem_cons_self ..))
    simp only [atoi, List.cons_append, List.dropWhile_cons, hblank] at htake ⊢
    simp [hminus, hplus, htake]

/-- The length that is found in a segment with all of the header. -/
theorem Response.Plain.length {r : Response} (h : r.Plain) (more : List UInt8) :
    httpGetContentLength (r.head ++ more) = UInt32.ofNat r.body.length := by
  obtain ⟨text, digits, rest, hhead, hfound, hne, hdigits, hvalue⟩ := h
  have hdrop : (r.head ++ more).drop (text.length + contentLengthField.length + 2) =
      digits ++ 13 :: (rest ++ more) := by
    rw [hhead, Nat.add_assoc, List.append_assoc, List.drop_length_add_append, List.append_assoc,
      List.drop_length_add_append]
    simp
  simp only [httpGetContentLength, strstr_append r.head_ne_zero hfound more, hdrop,
    atoi_digits hne hdigits, hvalue]

end EasyCore.HttpResponse
