import EasyCore.Kernel.PrintfText
import EasyCore.Kernel.Word

/-! What `rt_vsnprintf` stores, and what it returns, for every size of the buffer.

        buf                 size - 1
        ├ text₀ │ text₁ │ ... │ NUL ┤   the rest of the text is counted, not stored

    There are two slips. A size of 0 gives `end < buf`, which is taken for a buffer up to the end of
    the memory. And `print_number` counts the width down inside the guard of the sign's store: behind
    a sign that was not stored one character too many is counted. -/

namespace EasyCore.Printf
open Function Kernel Sinks

/-- Bounded formatting of a text into `size` bytes at `buf`: nothing outside the buffer changes; the
    buffer holds the first `size - 1` characters and a NUL; the length of the text is returned. -/
def Bounded (buf size : ℕ) (fmt : CString) (args : List Arg) (text : List UInt8) : Prop :=
  ∀ mem, ∃ mem' r, rtVsnprintf mem buf size fmt args = some (mem', r) ∧
    (∀ a, a < buf ∨ buf + size ≤ a → mem' a = mem a) ∧
    (1 ≤ size → (∀ (i : ℕ) (h : i < text.length), i < size - 1 → mem' (buf + i) = text[i]) ∧
      mem' (buf + min text.length (size - 1)) = 0) ∧
    r = text.length

/-- A padded sign stands at the place `size` of the text or behind it. -/
def LateSign (size : ℕ) (ds : List Directive) : Prop :=
  ∃ pre d post, ds = pre ++ d :: post ∧ d.SignPadded ∧ size ≤ (fullText pre).length

/-- There is a buffer; the text ends before the memory does, and its length is an `int`; no padded
    sign stands behind the buffer. -/
def BoundedWhen (buf size : ℕ) (ds : List Directive) : Prop :=
  1 ≤ size ∧ buf + (fullText ds).length < 2 ^ 32 ∧ (fullText ds).length < 2 ^ 31 ∧ ¬LateSign size ds

variable {fmt : CString} {args : List Arg} {ds : List Directive} {buf size last : ℕ}

/-- The text `rt_vsnprintf` puts. -/
def textOf (buf last : ℕ) (ds : List Directive) : List UInt8 :=
  textFrom (fun p => (buf + p) % 2 ^ 32 ≤ last) 0 ds

/-- The NUL behind the text, or in the last byte. -/
def terminate (last : ℕ) (o : Cursor UInt8) : ℕ → UInt8 :=
  if o.str ≤ last then update o.mem o.str 0 else update o.mem last 0

theorem rtVsnprintf_eq (hds : fmt.directives args = some ds) (hbuf : buf < 2 ^ 32) (mem : ℕ → UInt8) :
    rtVsnprintf mem buf size fmt args =
      some (terminate (lastOf buf size) ((cursorSink UInt8 (2 ^ 32) (lastOf buf size)).puts ⟨mem, buf⟩
        (textOf buf (lastOf buf size) ds)),
        int32 (((buf + (textOf buf (lastOf buf size) ds).length) % 2 ^ 32 : ℕ) - buf)) := by
  have hrun := @emitAll_cursor (lastOf buf size) ds mem buf hbuf []
  have hstr : ((cursorSink UInt8 (2 ^ 32) (lastOf buf size)).puts ⟨mem, buf⟩
      (textOf buf (lastOf buf size) ds)).str =
      (buf + (textOf buf (lastOf buf size) ds).length) % 2 ^ 32 := puts_str hbuf
  rw [Sink.puts_nil, List.nil_append, List.length_nil] at hrun
  unfold rtVsnprintf
  rw [hds, Option.map_some]
  dsimp only
  rw [hrun, ← hstr]
  rfl

/-! ### Where it goes wrong -/

/-- A run that comes by an address outside the buffer changes it. -/
theorem not_bounded_of_visit {x i : ℕ} {text : List UInt8} (hds : fmt.directives args = some ds)
    (hbuf : buf < 2 ^ 32) (hout : x < buf ∨ buf + size ≤ x) (hlast : x ≤ lastOf buf size)
    (hi : i ≤ (textOf buf (lastOf buf size) ds).length) (hvisit : (buf + i) % 2 ^ 32 = x) :
    ¬Bounded buf size fmt args text := by
  intro hall
  obtain ⟨m₀, r₀, heq₀, hkeep₀, -⟩ := hall fun _ => 0
  obtain ⟨m₁, r₁, heq₁, hkeep₁, -⟩ := hall (update (fun _ => 0) x 1)
  rw [rtVsnprintf_eq hds hbuf] at heq₀ heq₁
  obtain ⟨rfl, -⟩ := Prod.mk.inj (Option.some.inj heq₀)
  obtain ⟨rfl, -⟩ := Prod.mk.inj (Option.some.inj heq₁)
  have h₀ := hkeep₀ x hout
  have h₁ := hkeep₁ x hout
  rw [update_self] at h₁
  obtain ⟨u, hu⟩ : ∃ u, u = textOf buf (lastOf buf size) ds := ⟨_, rfl⟩
  rw [← hu] at h₀ h₁ hi
  have hagree : AgreeOff x (⟨fun _ => 0, buf⟩ : Cursor UInt8) ⟨update (fun _ => 0) x 1, buf⟩ :=
    ⟨rfl, fun a ha => (update_of_ne ha _ _).symm⟩
  rcases hi.lt_or_eq with hlt | heq
  · -- a character is stored there
    rw [hagree.puts_eq hlast hlt hvisit hbuf, h₁] at h₀
    exact absurd h₀ (by decide)
  · -- the NUL is
    have hstr : ∀ m : ℕ → UInt8, ((cursorSink UInt8 (2 ^ 32) (lastOf buf size)).puts ⟨m, buf⟩ u).str =
        x := fun m => by
      rw [puts_str hbuf, ← heq]
      exact hvisit
    unfold terminate at h₁
    rw [hstr, if_pos hlast, update_self] at h₁
    exact absurd h₁ (by decide)

theorem lastOf_zero (hbuf : 0 < buf) (hlt : buf < 2 ^ 32) : lastOf buf 0 = 2 ^ 32 - 1 := by
  unfold lastOf
  dsimp only
  rw [if_pos (by omega)]

/-- With a size of 0 the text goes to `buf` all the same. -/
theorem not_bounded_zero {text : List UInt8} (hds : fmt.directives args = some ds) (hbuf : 0 < buf)
    (hlt : buf < 2 ^ 32) : ¬Bounded buf 0 fmt args text := by
  refine not_bounded_of_visit hds hlt (Or.inr (Nat.add_zero buf).le) ?_ (Nat.zero_le _)
    (Nat.mod_eq_of_lt hlt)
  rw [lastOf_zero hbuf hlt]
  omega

/-- A text that runs past the end of the memory goes on at address 0. -/
theorem not_bounded_wrap {text : List UInt8} (hds : fmt.directives args = some ds) (hbuf : 0 < buf)
    (hlt : buf < 2 ^ 32) (hlong : 2 ^ 32 ≤ buf + (textOf buf (lastOf buf size) ds).length) :
    ¬Bounded buf size fmt args text := by
  refine not_bounded_of_visit (x := 0) (i := 2 ^ 32 - buf) hds hlt (Or.inl hbuf) (Nat.zero_le _)
    (by omega) ?_
  rw [Nat.add_sub_of_le hlt.le, Nat.mod_self]

/-! ### Where it does not -/

/-- The places with room are those of the buffer, and of the memory. -/
theorem room_iff {p : ℕ} (hlt : buf < 2 ^ 32) (hsize : size < 2 ^ 32) (hpos : 1 ≤ size)
    (hp : buf + p < 2 ^ 32) : (buf + p) % 2 ^ 32 ≤ lastOf buf size ↔ p < size := by
  unfold lastOf
  dsimp only
  rw [Nat.mod_eq_of_lt hp]
  split <;> omega

/-- Without a late sign the text is the full one. -/
theorem textOf_eq (hlt : buf < 2 ^ 32) (hsize : size < 2 ^ 32) (hpos : 1 ≤ size)
    (hfull : buf + (fullText ds).length < 2 ^ 32) (hlate : ¬LateSign size ds) :
    textOf buf (lastOf buf size) ds = fullText ds := by
  rw [fullText_eq] at hfull ⊢
  refine textFrom_congr ds 0 fun pre d post heq hs => ?_
  have hlen : (textFrom (fun _ => true) 0 pre).length ≤ (textFrom (fun _ => true) 0 ds).length := by
    rw [← fullText_eq, ← fullText_eq, heq]
    exact fullText_length_le pre (d :: post)
  have hplace : (textFrom (fun _ => true) 0 pre).length < size := by
    by_contra hge
    refine hlate ⟨pre, d, post, heq, hs, ?_⟩
    rw [fullText_eq]
    exact not_lt.1 hge
  rw [Nat.zero_add]
  exact decide_eq_true ((room_iff hlt hsize hpos (by omega)).2 hplace)

/-- What stands in a buffer after formatting a text. -/
def Holds (mem mem' : ℕ → UInt8) (buf size : ℕ) (text : List UInt8) : Prop :=
  (∀ a, a < buf ∨ buf + size ≤ a → mem' a = mem a) ∧
    (∀ (i : ℕ) (h : i < text.length), i < size - 1 → mem' (buf + i) = text[i]) ∧
    mem' (buf + min text.length (size - 1)) = 0

theorem holds_of_puts {text : List UInt8} (hlt : buf < 2 ^ 32) (hsize : size < 2 ^ 32)
    (hpos : 1 ≤ size) (hfull : buf + text.length < 2 ^ 32) (mem : ℕ → UInt8) :
    Holds mem (terminate (lastOf buf size)
      ((cursorSink UInt8 (2 ^ 32) (lastOf buf size)).puts ⟨mem, buf⟩ text)) buf size text := by
  obtain ⟨o, ho⟩ : ∃ o, o = (cursorSink UInt8 (2 ^ 32) (lastOf buf size)).puts ⟨mem, buf⟩ text :=
    ⟨_, rfl⟩
  have hstr : o.str = buf + text.length := by
    rw [ho, puts_str hlt]
    exact Nat.mod_eq_of_lt hfull
  have hroom : ∀ p, p ≤ text.length → (buf + p ≤ lastOf buf size ↔ p < size) := fun p hp => by
    have h := room_iff (p := p) hlt hsize hpos (by omega)
    rwa [Nat.mod_eq_of_lt (by omega)] at h
  -- the NUL goes behind the text, or into the last byte
  have hend : terminate (lastOf buf size) o = update o.mem (buf + min text.length (size - 1)) 0 := by
    unfold terminate
    rw [hstr]
    rcases lt_or_ge text.length size with hin | hin
    · rw [if_pos ((hroom _ le_rfl).2 hin), min_eq_left (by omega)]
    · have hlast : lastOf buf size = buf + (size - 1) := by
        have h1 := (hroom (size - 1) (by omega)).2 (by omega)
        have h2 : ¬buf + size ≤ lastOf buf size := fun h => by
          have := (hroom size hin).1 h
          omega
        omega
      rw [if_neg fun h => (not_lt.2 hin) ((hroom _ le_rfl).1 h), hlast, min_eq_right (by omega)]
  rw [← ho, hend]
  refine ⟨fun a ha => ?_, fun i hi hlt' => ?_, update_self ..⟩
  · have hne : a ≠ buf + min text.length (size - 1) := by omega
    rw [update_of_ne hne, ho]
    refine puts_out hfull.le ?_
    rcases ha with h | h
    · exact Or.inl h
    · refine Or.inr ?_
      by_cases hin : buf + text.length ≤ a
      · exact Or.inl hin
      · refine Or.inr (not_le.1 fun hle => ?_)
        have h1 := (hroom (a - buf) (by omega)).1 (by omega)
        omega
  · have hne : buf + i ≠ buf + min text.length (size - 1) := by omega
    rw [update_of_ne hne, ho]
    exact puts_in hfull.le hi ((hroom i hi.le).2 (by omega))

/-- Without a late sign the buffer holds the text, for as long as there is memory for it. -/
theorem rtVsnprintf_holds (hds : fmt.directives args = some ds) (hlt : buf < 2 ^ 32)
    (hsize : size < 2 ^ 32) (hpos : 1 ≤ size) (hfull : buf + (fullText ds).length < 2 ^ 32)
    (hlate : ¬LateSign size ds) (mem : ℕ → UInt8) :
    ∃ mem', rtVsnprintf mem buf size fmt args = some (mem', int32 (fullText ds).length) ∧
      Holds mem mem' buf size (fullText ds) := by
  have htext := textOf_eq hlt hsize hpos hfull hlate
  refine ⟨_, ?_, holds_of_puts hlt hsize hpos hfull mem⟩
  rw [rtVsnprintf_eq hds hlt, htext, Nat.mod_eq_of_lt hfull]
  congr 3
  omega

theorem not_lateSign_one {d : Directive} {size : ℕ} (hpos : 0 < size) : ¬LateSign size [d] := by
  rintro ⟨pre, e, post, heq, -, hlate⟩
  cases pre with
  | nil => exact absurd hlate (not_le.2 hpos)
  | cons e' pre =>
    have htail := (List.cons.inj heq).2
    exact absurd htail (by simp)

theorem int32_eq {n : ℕ} (h : n < 2 ^ 31) : int32 n = n := by
  unfold int32
  omega

/-- CORRECT: for every buffer, format and arguments that fit it, nothing outside the buffer changes,
    it holds the first `size - 1` characters of the text and a NUL, and the length of the text is
    returned, exactly if the size is not 0, the text ends before the memory does and its length is an
    `int`, and no padded sign stands behind the buffer. -/
theorem vsnprintf_bounded_iff (hds : fmt.directives args = some ds) (buf size : RtSize) (hbuf : 0 < (buf : ℕ)) :
    Bounded buf size fmt args (fullText ds) ↔ BoundedWhen buf size ds := by
  have hlt := buf.isLt
  constructor
  · intro hall
    obtain ⟨u, hu⟩ : ∃ u, u = textOf buf (lastOf buf size) ds := ⟨_, rfl⟩
    have hpos : 1 ≤ (size : ℕ) := by
      by_contra hzero
      have hzero : (size : ℕ) = 0 := by omega
      rw [hzero] at hall
      exact not_bounded_zero hds hbuf hlt hall
    have hmem : (buf : ℕ) + u.length < 2 ^ 32 := by
      by_contra hlong
      exact not_bounded_wrap hds hbuf hlt (hu ▸ not_lt.1 hlong) hall
    have hle : (fullText ds).length ≤ u.length := by
      rw [hu, fullText_eq]
      exact textFrom_length_le _ ds 0 0
    -- the number returned is the length of both texts
    obtain ⟨mem', r, heq, -, -, hr⟩ := hall fun _ => 0
    rw [rtVsnprintf_eq hds hlt, ← hu, Nat.mod_eq_of_lt hmem] at heq
    obtain ⟨-, hr'⟩ := Prod.mk.inj (Option.some.inj heq)
    rw [← hr', int32] at hr
    have hlen : u.length = (fullText ds).length := by omega
    refine ⟨hpos, by omega, by omega, ?_⟩
    rintro ⟨pre, d, post, hsplit, hs, hlate⟩
    rw [hu, fullText_eq] at hlen
    have hfits := of_decide_eq_true (fits_of_length ds 0 hlen pre d post hsplit hs)
    have hpre := fullText_length_le pre (d :: post)
    rw [← hsplit] at hpre
    rw [← fullText_eq, Nat.zero_add, room_iff hlt size.isLt hpos (by omega)] at hfits
    omega
  · rintro ⟨hpos, hfull, hint, hlate⟩ mem
    obtain ⟨mem', heq, hout, hin, hnul⟩ := rtVsnprintf_holds hds hlt size.isLt hpos hfull hlate mem
    exact ⟨mem', _, heq, hout, fun _ => ⟨hin, hnul⟩, int32_eq hint⟩

/-- `%05d`, for -3. -/
def zeroPadded : CString := ⟨"%05d".toList.map ch, by decide⟩

/-- The same behind a character. -/
def charZeroPadded : CString := ⟨"a%05d".toList.map ch, by decide⟩

def minusThree : List Arg := [.word 0xfffffffd]

/-- `-0003` in four bytes: the sign is stored. -/
theorem vsnprintf_bounded_iff_run : ∃ ds, zeroPadded.directives minusThree = some ds ∧
    Bounded 0x20000000 4 zeroPadded minusThree (fullText ds) := by
  obtain ⟨d, hd⟩ : ∃ d : Directive,
      d = .number ⟨true, true, false, false, false, false, false⟩ 5 (-1) 10 0xfffffffd := ⟨_, rfl⟩
  have hds : zeroPadded.directives minusThree = some [d] := by
    rw [hd]
    decide +kernel
  have hlen : (fullText [d]).length = 5 := by
    rw [hd]
    decide +kernel
  refine ⟨[d], hds, (vsnprintf_bounded_iff hds ⟨0x20000000, by decide⟩ ⟨4, by decide⟩ (by decide)).2
    ⟨by decide, ?_, ?_, not_lateSign_one (by decide)⟩⟩
  · rw [hlen]
    decide
  · rw [hlen]
    decide

/-- INCORRECT where a padded sign stands behind the buffer: `a-0003` has 6 characters, and for a buffer
    of one byte 7 are counted. -/
theorem late_sign_counted : ¬∀ (buf size : RtSize) (fmt : CString) (args : List Arg)
    (ds : List Directive), 0 < (buf : ℕ) → fmt.directives args = some ds →
      Bounded buf size fmt args (fullText ds) := by
  intro hall
  have hlen : (charZeroPadded.directives minusThree).map (fun ds => (fullText ds).length) = some 6 := by
    decide +kernel
  have hrun : (rtVsnprintf (fun _ => 0) 0x20000000 1 charZeroPadded minusThree).map
      (fun r => r.2) = some 7 := by decide +kernel
  obtain ⟨ds, hds, hsix⟩ := Option.map_eq_some_iff.1 hlen
  obtain ⟨mem', r, heq, -, -, hr⟩ := hall ⟨0x20000000, by decide⟩ ⟨1, by decide⟩ _ _ ds (by decide) hds
    fun _ => 0
  obtain ⟨⟨mem'', r'⟩, heq', hseven⟩ := Option.map_eq_some_iff.1 hrun
  obtain ⟨-, rfl⟩ := Prod.mk.inj (Option.some.inj (heq.symm.trans heq'))
  have hr7 : r = 7 := hseven
  omega

end EasyCore.Printf
