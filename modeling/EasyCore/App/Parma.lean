import EasyCore.Lib.Stores
import EasyCore.Lib.Tokens
import EasyCore.App.AtParse

/-! Parameters between separators (`easyio_core/my_stdc_func/my_stdc_func.c`). The same text is
    walked over in three ways: character by character, counting the commas, and with `strtok`, which
    skips empty parameters and looks at a copy of 127 characters.

        NAME = f₁ , f₂ , … , fₙ
               └─ body ───────┘ -/

namespace EasyCore.Parma
open Stores Tokens AtParse

/-- `out_lmt`, an `unsigned char`, with room for the NUL. -/
structure Limit where
  value : ℕ
  pos : 1 ≤ value
  fits : value < 2 ^ 8

/-- The loop of `parser_multi_parameter_str`: the characters that it has stored. -/
def parserLoop (index : ℤ) (sp : UInt8) (outLmt : ℕ) : ℕ → List UInt8 → List UInt8 → List UInt8
  | _, [], out => out
  | pIdx, c :: cs, out =>
    let pIdx := if c = sp then pIdx + 1 else pIdx
    if pIdx = index ∧ c ≠ sp then
      if outLmt - 1 ≤ (out ++ [c]).length then out ++ [c]
      else parserLoop index sp outLmt pIdx cs (out ++ [c])
    else if index < pIdx then out
    else parserLoop index sp outLmt pIdx cs out

/-- `parser_multi_parameter_str`: the stores into `str_out`. -/
def parserMultiParameterStr (index : ℤ) (strIn : CStr) (sp : UInt8) (outLmt : Limit) :
    List (ℤ × UInt8) :=
  place 0 (parserLoop index sp outLmt.value 0 strIn.chars [] ++ [0])

/-- `get_parma_count`. -/
def getParmaCount (str : CStr) : ℤ :=
  match str.chars.dropWhile (· ≠ charEqual) with
  | [] => -1
  | _ :: body => body.foldl (fun ret c => if c = charComma then ret + 1 else ret) 1

/-- `get_parma_2`; `saved` is the text that an earlier call of `strtok` has left. What
    `body = body++` does is not defined in C: `bump` says whether `body` is one more behind it. With
    no `=` in the copy that would make a pointer out of `NULL`. -/
def getParma2 (bump : Bool) (saved : List UInt8) (index : ℕ) (instr : CStr) :
    Option (Option (List UInt8)) :=
  match (instr.chars.take 127).dropWhile (· ≠ charEqual) with
  | [] =>
    if bump then none else some (strtokAgain charComma (index - 1) (strtok charComma saved))
  | c :: body =>
    some (strtokAgain charComma (index - 1)
      (strtok charComma (if bump then body else c :: body)))

/-- A line `NAME=f₁,…,fₙ`. -/
structure Line where
  name : List UInt8
  fields : List (List UInt8)
  name_plain : charEqual ∉ name ∧ 0 ∉ name
  fields_plain : ∀ f ∈ fields, charComma ∉ f ∧ 0 ∉ f
  fields_ne : fields ≠ []

def Line.body (line : Line) : List UInt8 := [charComma].intercalate line.fields

theorem mem_intercalate {x sep : UInt8} : ∀ {fs : List (List UInt8)},
    x ∈ [sep].intercalate fs → x = sep ∨ ∃ f ∈ fs, x ∈ f
  | [], h => by simp at h
  | [f], h => .inr ⟨f, by simp, by simpa using h⟩
  | f :: g :: fs, h => by
    rw [List.intercalate_cons_cons, List.mem_append, List.mem_append, List.mem_singleton] at h
    rcases h with (h | h) | h
    · exact .inr ⟨f, by simp, h⟩
    · exact .inl h
    · rcases mem_intercalate h with h | ⟨f', hf', h⟩
      · exact .inl h
      · exact .inr ⟨f', List.mem_cons_of_mem _ hf', h⟩

def Line.text (line : Line) : CStr where
  chars := line.name ++ charEqual :: line.body
  no_nul h := by
    rcases List.mem_append.1 h with h | h
    · exact line.name_plain.2 h
    · rcases List.mem_cons.1 h with h | h
      · exact absurd h (by decide)
      · rcases mem_intercalate h with h | ⟨f, hf, h⟩
        · exact absurd h (by decide)
        · exact (line.fields_plain f hf).2 h

/-- The field with a number, from 0 on. -/
def field (index : ℤ) (s : List UInt8) (sp : UInt8) : List UInt8 :=
  if index < 0 then [] else (s.splitOn sp).getD index.toNat []

/-- The helpers do what splitting does, on these arguments and on this line. -/
structure Agrees (bump : Bool) (index : ℤ) (strIn : CStr) (sp : UInt8) (outLmt : Limit)
    (line : Line) : Prop where
  yields : ∀ mem : ℤ → UInt8,
    let out := (field index strIn.chars sp).take (outLmt.value - 1)
    contents (after mem (parserMultiParameterStr index strIn sp outLmt)) (out.length + 1) =
      out ++ [0]
  inside : Inside outLmt.value (parserMultiParameterStr index strIn sp outLmt)
  count : getParmaCount line.text = line.fields.length
  get : ∀ (saved : List UInt8) (i : ℕ) (h : i < line.fields.length),
    getParma2 bump saved (i + 1) line.text = some (some line.fields[i])

/-! ### Character by character -/

/-- With `k` separators to go the field after them is stored, up to the limit. A limit of 1 is too
    late for the first character. -/
theorem parserLoop_eq (sp : UInt8) {outLmt : ℕ} {index : ℤ} :
    ∀ (cs : List UInt8) (k pIdx : ℕ) (out : List UInt8), index = pIdx + k → (k ≠ 0 → out = []) →
    out.length < max 1 (outLmt - 1) →
    parserLoop index sp outLmt pIdx cs out =
      out ++ ((cs.splitOn sp).getD k []).take (max 1 (outLmt - 1) - out.length)
  | [], k, pIdx, out, _, _, _ => by
    cases k with
    | zero => simp [parserLoop]
    | succ k => simp [parserLoop]
  | c :: cs, k, pIdx, out, hindex, hout, hroom => by
    rw [parserLoop, List.splitOn_cons_eq_if_modifyHead]
    by_cases hc : c = sp
    · subst hc
      simp only [if_true, ne_eq, not_true_eq_false, and_false, if_false, beq_self_eq_true]
      cases k with
      | zero =>
        rw [if_pos (by push_cast; omega)]
        simp
      | succ k =>
        rw [if_neg (by push_cast; omega), hout (by omega),
          parserLoop_eq c cs k (pIdx + 1) [] (by push_cast; omega) (fun _ => rfl) (by simp)]
        simp
    · have hhead : ∀ k, ((cs.splitOn sp).modifyHead (List.cons c)).getD k [] =
          if k = 0 then c :: (cs.splitOn sp).getD 0 [] else (cs.splitOn sp).getD k [] := by
        intro k
        obtain ⟨f, fs, hfs⟩ := List.exists_cons_of_ne_nil (List.splitOn_ne_nil sp cs)
        rw [hfs]
        cases k with
        | zero => simp
        | succ k => simp
      simp only [hc, if_false, ne_eq, not_false_eq_true, and_true, beq_iff_eq, hhead]
      cases k with
      | zero =>
        rw [if_pos (by omega), if_pos rfl, List.length_append, List.length_singleton]
        split_ifs with hfull
        · have hlast : max 1 (outLmt - 1) - out.length = 1 := by omega
          rw [hlast]
          simp
        · have hnext : max 1 (outLmt - 1) - out.length =
              (max 1 (outLmt - 1) - (out ++ [c]).length) + 1 := by
            rw [List.length_append, List.length_singleton]
            omega
          rw [parserLoop_eq sp cs 0 pIdx (out ++ [c]) hindex (fun h => absurd rfl h)
            (by rw [List.length_append, List.length_singleton]; omega), hnext, List.take_succ_cons]
          simp
      | succ k =>
        rw [if_neg (by omega), if_neg (by omega), if_neg (by omega)]
        exact parserLoop_eq sp cs (k + 1) pIdx out hindex hout hroom

theorem parser_eq (index : ℤ) (strIn : CStr) (sp : UInt8) (outLmt : ℕ) :
    parserLoop index sp outLmt 0 strIn.chars [] =
      (field index strIn.chars sp).take (max 1 (outLmt - 1)) := by
  by_cases hindex : index < 0
  · rw [field, if_pos hindex, List.take_nil]
    rcases strIn.chars with _ | ⟨c, cs⟩
    · rfl
    · rw [parserLoop]
      split_ifs <;> first | rfl | omega
  · have hk : index = (0 : ℕ) + (index.toNat : ℤ) := by omega
    rw [field, if_neg hindex, parserLoop_eq sp _ index.toNat 0 [] hk (fun _ => rfl) (by simp)]
    simp

theorem parser_iff (index : ℤ) (strIn : CStr) (sp : UInt8) (outLmt : Limit) :
    (Inside outLmt.value (parserMultiParameterStr index strIn sp outLmt) ∧
      ∀ mem : ℤ → UInt8,
        let out := (field index strIn.chars sp).take (outLmt.value - 1)
        contents (after mem (parserMultiParameterStr index strIn sp outLmt)) (out.length + 1) =
          out ++ [0]) ↔ outLmt.value ≠ 1 ∨ field index strIn.chars sp = [] := by
  have hpos := outLmt.pos
  rw [parserMultiParameterStr, parser_eq, inside_place]
  set f := field index strIn.chars sp
  constructor
  · rintro ⟨hinside, _⟩
    rcases hinside with h | ⟨_, h⟩
    · simp at h
    · by_contra hboth
      rw [not_or, not_not] at hboth
      have hlength := List.length_pos_iff.2 hboth.2
      rw [List.length_append, List.length_take, hboth.1] at h
      simp only [List.length_singleton] at h
      omega
  · intro h
    have hmax : f.take (max 1 (outLmt.value - 1)) = f.take (outLmt.value - 1) := by
      rcases h with h | h
      · rw [max_eq_right (by omega)]
      · simp [h]
    have hle := List.length_take_le (outLmt.value - 1) f
    rw [hmax]
    refine ⟨.inr ⟨le_rfl, ?_⟩, ?_⟩
    · rw [List.length_append, List.length_singleton]
      push_cast
      omega
    · intro mem
      have hall := contents_after_place mem (f.take (outLmt.value - 1) ++ [0])
      rwa [List.length_append, List.length_singleton] at hall

/-! ### Commas -/

theorem Line.after_name (line : Line) :
    line.text.chars.dropWhile (· ≠ charEqual) = charEqual :: line.body := by
  have hname : ∀ c ∈ line.name, decide (c ≠ charEqual) = true := by
    rintro c hc
    refine decide_eq_true ?_
    rintro rfl
    exact line.name_plain.1 hc
  rw [Line.text, List.dropWhile_append_of_pos hname]
  simp

theorem foldl_count (s : List UInt8) (n : ℤ) :
    s.foldl (fun ret c => if c = charComma then ret + 1 else ret) n =
      n + (s.splitOn charComma).length - 1 := by
  induction s generalizing n with
  | nil => simp
  | cons c s ih =>
    rw [List.foldl_cons, ih, List.splitOn_cons_eq_if_modifyHead]
    by_cases hc : c = charComma
    · simp [hc]
      ring
    · simp [hc]

theorem Line.splitOn_body (line : Line) : line.body.splitOn charComma = line.fields :=
  List.splitOn_intercalate _ (fun f hf => (line.fields_plain f hf).1) line.fields_ne

theorem getParmaCount_eq (line : Line) : getParmaCount line.text = line.fields.length := by
  rw [getParmaCount, line.after_name]
  simp only [foldl_count, line.splitOn_body]
  omega

/-! ### Tokens -/

/-- The copy of the line, from its `=` on. -/
theorem Line.copy (line : Line) :
    (line.text.chars.take 127).dropWhile (· ≠ charEqual) =
      if line.name.length ≤ 126 then charEqual :: line.body.take (126 - line.name.length)
      else [] := by
  have hname : ∀ c ∈ line.name, decide (c ≠ charEqual) = true := by
    rintro c hc
    refine decide_eq_true ?_
    rintro rfl
    exact line.name_plain.1 hc
  rw [Line.text, List.take_append]
  split_ifs with hshort
  · rw [List.take_of_length_le (by omega), List.dropWhile_append_of_pos hname,
      show 127 - line.name.length = (126 - line.name.length) + 1 by omega, List.take_succ_cons]
    simp
  · rw [show 127 - line.name.length = 0 by omega, List.take_zero, List.append_nil,
      List.dropWhile_eq_nil_iff]
    intro c hc
    exact hname c (List.mem_of_mem_take hc)

theorem Line.text_length (line : Line) :
    line.text.chars.length = line.name.length + 1 + line.body.length := by
  rw [Line.text, List.length_append, List.length_cons]
  omega

theorem Line.fields_sum (line : Line) :
    (line.fields.map fun f => f.length + 1).sum = line.body.length + 1 := by
  rw [← line.splitOn_body, Tokens.fields_sum]

theorem tokens_of_nonempty {line : Line} (h : ∀ f ∈ line.fields, f ≠ []) :
    tokens charComma line.body = line.fields := by
  rw [tokens, line.splitOn_body, List.filter_eq_self]
  intro f hf
  exact decide_eq_true (h f hf)

/-- With `body` behind the `=`: all parameters are found when none is empty and the copy has the
    whole line. -/
theorem get_bump (line : Line) :
    (∀ (saved : List UInt8) (i : ℕ) (h : i < line.fields.length),
      getParma2 true saved (i + 1) line.text = some (some line.fields[i])) ↔
    (∀ f ∈ line.fields, f ≠ []) ∧ line.text.chars.length ≤ 127 := by
  have hpos := List.length_pos_iff.2 line.fields_ne
  rw [line.text_length]
  by_cases hname : line.name.length ≤ 126
  · have hget : ∀ (saved : List UInt8) (i : ℕ), getParma2 true saved (i + 1) line.text =
        some (tokens charComma (line.body.take (126 - line.name.length)))[i]? := by
      intro saved i
      rw [getParma2, line.copy, if_pos hname]
      simp only [if_true, Nat.add_sub_cancel, strtokAgain_eq]
    simp only [hget, Option.some.injEq, forall_const]
    rw [← List.prefix_iff_getElem?]
    constructor
    · intro hfound
      have hsum := sum_le_of_tokens hfound
      rw [line.fields_sum, List.length_take] at hsum
      refine ⟨?_, by omega⟩
      intro f hf
      have := List.of_mem_filter (hfound.subset hf)
      simpa using this
    · rintro ⟨hne, hlength⟩
      rw [List.take_of_length_le (by omega), tokens_of_nonempty hne]
  · have hget := line.copy
    rw [if_neg hname] at hget
    constructor
    · intro h
      have := h [] 0 hpos
      rw [getParma2, hget] at this
      cases this
    · rintro ⟨_, hlength⟩
      omega

theorem Line.head_body (line : Line) :
    ∃ f fs, line.fields = f :: fs ∧ line.body.takeWhile (· ≠ charComma) = f := by
  obtain ⟨f, fs, hfields⟩ := List.exists_cons_of_ne_nil line.fields_ne
  refine ⟨f, fs, hfields, ?_⟩
  have hf : ∀ c ∈ f, decide (c ≠ charComma) = true := by
    rintro c hc
    refine decide_eq_true ?_
    rintro rfl
    exact (line.fields_plain f (by simp [hfields])).1 hc
  rw [Line.body, hfields]
  cases fs with
  | nil => rw [List.intercalate_singleton, List.takeWhile_eq_self_iff.2 hf]
  | cons g gs =>
    rw [List.intercalate_cons_cons, List.append_assoc, List.takeWhile_append_of_pos hf]
    simp

/-- A text that stays the same behind one character more. -/
theorem eq_replicate_of_cons {x : UInt8} : ∀ (m : ℕ) (f : List UInt8), f = x :: f.take m →
    f = List.replicate (m + 1) x
  | _, [], h => by cases h
  | 0, y :: ys, h => by simpa using h
  | m + 1, y :: ys, h => by
    rw [List.take_succ_cons] at h
    obtain ⟨hy, hys⟩ := List.cons.inj h
    subst hy
    have := eq_replicate_of_cons m ys hys
    rw [List.replicate_succ, ← this]

/-- With `body` at the `=` the first token is one character too long; that is the parameter only
    where the copy ends in it and it is all `=`. -/
theorem get_stay (line : Line) :
    (∀ (saved : List UInt8) (i : ℕ) (h : i < line.fields.length),
      getParma2 false saved (i + 1) line.text = some (some line.fields[i])) ↔
    line.name.length ≤ 126 ∧
      line.fields = [List.replicate (127 - line.name.length) charEqual] := by
  have hpos := List.length_pos_iff.2 line.fields_ne
  by_cases hname : line.name.length ≤ 126
  · obtain ⟨m, hm⟩ : ∃ m, m = 126 - line.name.length := ⟨_, rfl⟩
    have hget : ∀ (saved : List UInt8) (i : ℕ), getParma2 false saved (i + 1) line.text =
        some (tokens charComma (charEqual :: line.body.take m))[i]? := by
      intro saved i
      rw [getParma2, line.copy, if_pos hname, ← hm]
      simp only [Bool.false_eq_true, if_false, Nat.add_sub_cancel, strtokAgain_eq]
    simp only [hget, Option.some.injEq, forall_const]
    rw [← List.prefix_iff_getElem?, and_iff_right hname,
      show 127 - line.name.length = m + 1 by omega]
    obtain ⟨f, fs, hfields, hbody⟩ := line.head_body
    have hplain : charComma ∉ f := (line.fields_plain f (by simp [hfields])).1
    constructor
    · intro hfound
      have hfirst := tokens_cons (c := charComma) (x := charEqual) (by decide)
        (line.body.take m)
      have htake : (line.body.take m).takeWhile (· ≠ charComma) = f.take m := by
        rw [← hbody, List.take_takeWhile]
      rw [hfirst, hfields, List.takeWhile_cons_of_pos (by decide), htake] at hfound
      obtain ⟨hf, hfs⟩ := List.cons_prefix_cons.1 hfound
      have hall := eq_replicate_of_cons m f hf
      -- the copy ends in the first parameter, so there is no second one
      have hend : (line.body.take m).dropWhile (· ≠ charComma) = [] := by
        have hsplit := congrArg List.length
          (List.takeWhile_append_dropWhile (p := (· ≠ charComma)) (l := line.body.take m))
        rw [htake, hall, List.take_replicate, List.length_append, List.length_replicate,
          List.length_take] at hsplit
        exact List.length_eq_zero_iff.1 (by omega)
      rw [List.dropWhile_cons_of_pos (by decide), hend, List.tail_nil, tokens_nil,
        List.prefix_nil] at hfs
      rw [hfields, hfs, ← hall]
    · intro hone
      have hreplicate : line.body.take m = List.replicate m charEqual := by
        rw [Line.body, hone, List.intercalate_singleton, List.take_replicate]
        simp
      have hno : charComma ∉ List.replicate (m + 1) charEqual := by
        intro h
        exact absurd (List.eq_of_mem_replicate h) (by decide)
      rw [hreplicate, ← List.replicate_succ, tokens, List.splitOn_eq_singleton hno, hone,
        List.filter_cons_of_pos (by simp)]
      exact List.prefix_append _ _
  · have hget := line.copy
    rw [if_neg hname] at hget
    constructor
    · intro h
      have := h [] 0 hpos
      rw [getParma2, hget] at this
      simp [strtokAgain_eq, tokens_nil] at this
    · rintro ⟨h, _⟩
      exact absurd h hname

/-! ### All of them -/

/-- The character-wise splitter is right but for a limit of 1; the count is right; and `strtok` is
    right for a line that fits the copy and has no empty parameter, if `body = body++` goes on. -/
theorem helpers_agree_iff (bump : Bool) (index : ℤ) (strIn : CStr) (sp : UInt8) (outLmt : Limit)
    (line : Line) :
    Agrees bump index strIn sp outLmt line ↔
      (outLmt.value ≠ 1 ∨ field index strIn.chars sp = []) ∧
      if bump then (∀ f ∈ line.fields, f ≠ []) ∧ line.text.chars.length ≤ 127
      else line.name.length ≤ 126 ∧
        line.fields = [List.replicate (127 - line.name.length) charEqual] := by
  have hget : (∀ (saved : List UInt8) (i : ℕ) (h : i < line.fields.length),
      getParma2 bump saved (i + 1) line.text = some (some line.fields[i])) ↔
      if bump then (∀ f ∈ line.fields, f ≠ []) ∧ line.text.chars.length ≤ 127
      else line.name.length ≤ 126 ∧
        line.fields = [List.replicate (127 - line.name.length) charEqual] := by
    cases bump with
    | true => exact get_bump line
    | false => exact get_stay line
  rw [← parser_iff, ← hget]
  constructor
  · rintro ⟨hyields, hinside, _, hget⟩
    exact ⟨⟨hinside, hyields⟩, hget⟩
  · rintro ⟨⟨hinside, hyields⟩, hget⟩
    exact ⟨hyields, hinside, getParmaCount_eq line, hget⟩

/-- `A=,B`: the first parameter is empty. -/
def emptyFirst : Line where
  name := [65]
  fields := [[], [66]]
  name_plain := by decide
  fields_plain := by decide
  fields_ne := by decide

/-- `strtok` gives `B` for it, and no second parameter. -/
theorem helpers_disagree :
    ¬Agrees true 0 ⟨[120], by decide⟩ charComma ⟨2, by decide, by decide⟩ emptyFirst := by
  intro h
  have hfirst := h.get [] 0 (by decide)
  revert hfirst
  decide

end EasyCore.Parma
