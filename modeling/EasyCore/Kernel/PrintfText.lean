import EasyCore.Kernel.Printf

/-! What a directive writes, as a text. It depends on the sink in one point: in a number with a sign
    and padding behind it, on whether the sign was stored. -/

namespace EasyCore.Printf
open Function Decimal Sinks

variable {σ : Type*} (k : Sink σ UInt8) {c : UInt8} {n bound s precision : ℤ} {num base : ℕ}
  {type : Flags} {buf : σ}

/-! ### The loops -/

/-- The loop pads up to its bound, and leaves its counter below it. -/
theorem whileLt_run : ∀ (fuel : ℕ) (n : ℤ) (buf : σ), (n - bound).toNat < fuel →
    (whileLt k c bound fuel n buf).1 = k.puts buf (List.replicate (n - bound).toNat c) ∧
      (whileLt k c bound fuel n buf).2 < bound
  | 0, _, _, h => absurd h (Nat.not_lt_zero _)
  | fuel + 1, n, buf, h => by
    unfold whileLt
    by_cases hn : bound < n
    · obtain ⟨m, hm⟩ : ∃ m, (n - bound).toNat = m + 1 := ⟨(n - 1 - bound).toNat, by omega⟩
      have hm' : (n - 1 - bound).toNat = m := by omega
      obtain ⟨h1, h2⟩ := whileLt_run fuel (n - 1) (k.put buf c) (by omega)
      rw [if_pos hn, h1, hm, hm', List.replicate_succ, Sink.puts_cons]
      exact ⟨rfl, h2⟩
    · have hzero : (n - bound).toNat = 0 := by omega
      rw [if_neg hn, hzero]
      exact ⟨rfl, by omega⟩

theorem whileLt_fst : (whileLt k c bound ((n - bound).toNat + 1) n buf).1 =
    k.puts buf (List.replicate (n - bound).toNat c) :=
  (whileLt_run k _ n buf (Nat.lt_succ_self _)).1

theorem whileLt_snd : (whileLt k c bound ((n - bound).toNat + 1) n buf).2 < bound :=
  (whileLt_run k _ n buf (Nat.lt_succ_self _)).2

theorem whilePos_fst : (whileLt k c 0 (n.toNat + 1) n buf).1 =
    k.puts buf (List.replicate n.toNat c) := by
  have h : (whileLt k c 0 ((n - 0).toNat + 1) n buf).1 =
      k.puts buf (List.replicate (n - 0).toNat c) := whileLt_fst k
  rwa [sub_zero] at h

theorem whilePos_snd : (whileLt k c 0 (n.toNat + 1) n buf).2 < 0 := by
  have h : (whileLt k c 0 ((n - 0).toNat + 1) n buf).2 < 0 := whileLt_snd k
  rwa [sub_zero] at h

theorem whilePre_run : ∀ (fuel : ℕ) (n : ℤ) (buf : σ), n.toNat < fuel →
    (whilePre k c fuel n buf).1 = k.puts buf (List.replicate (n - 1).toNat c) ∧
      (whilePre k c fuel n buf).2 ≤ 0
  | 0, _, _, h => absurd h (Nat.not_lt_zero _)
  | fuel + 1, n, buf, h => by
    unfold whilePre
    by_cases hn : 0 < n - 1
    · obtain ⟨m, hm⟩ : ∃ m, (n - 1).toNat = m + 1 := ⟨(n - 1 - 1).toNat, by omega⟩
      have hm' : (n - 1 - 1).toNat = m := by omega
      obtain ⟨h1, h2⟩ := whilePre_run fuel (n - 1) (k.put buf c) (by omega)
      rw [if_pos hn, h1, hm, hm', List.replicate_succ, Sink.puts_cons]
      exact ⟨rfl, h2⟩
    · have hzero : (n - 1).toNat = 0 := by omega
      rw [if_neg hn, hzero]
      exact ⟨rfl, by omega⟩

theorem whilePre_fst : (whilePre k c (n.toNat + 1) n buf).1 =
    k.puts buf (List.replicate (n - 1).toNat c) := (whilePre_run k _ n buf (Nat.lt_succ_self _)).1

theorem whilePre_snd : (whilePre k c (n.toNat + 1) n buf).2 ≤ 0 :=
  (whilePre_run k _ n buf (Nat.lt_succ_self _)).2

/-! ### The texts -/

/-- The padding of a width. -/
def blanks (n : ℤ) : List UInt8 := List.replicate n.toNat (ch ' ')

def zeros (n : ℤ) : List UInt8 := List.replicate n.toNat (ch '0')

theorem blanks_of_nonpos (h : n ≤ 0) : blanks n = [] := by
  unfold blanks
  rw [Int.toNat_of_nonpos h]
  rfl

theorem zeros_of_nonpos (h : n ≤ 0) : zeros n = [] := by
  unfold zeros
  rw [Int.toNat_of_nonpos h]
  rfl

/-- The sign of a number, as a text. -/
def signText (num : ℕ) (type : Flags) : List UInt8 :=
  if signOf num type ≠ 0 then [signOf num type] else []

/-- The digits of a number, with the zeros its precision asks for. -/
def digitText (num base : ℕ) (precision : ℤ) (type : Flags) : List UInt8 :=
  zeros (precision - (tmpOf num base type).length) ++ (tmpOf num base type).reverse

/-- What the width leaves beside the digits. -/
def sizeLeft (num base : ℕ) (s precision : ℤ) (type : Flags) : ℤ :=
  s - max ((tmpOf num base type).length : ℤ) precision

/-- What `print_number` writes, if its sign was stored or was not. -/
def numberText (stored : Bool) (num base : ℕ) (s precision : ℤ) (type : Flags) : List UInt8 :=
  let size := sizeLeft num base s precision type
  let rest := if signOf num type ≠ 0 ∧ stored then size - 1 else size
  if type.left then signText num type ++ digitText num base precision type ++ blanks rest
  else if type.zeropad then signText num type ++ zeros rest ++ digitText num base precision type
  else blanks (size - (signText num type).length) ++ signText num type ++
    digitText num base precision type

theorem putDigits_eq (tmp : List UInt8) (p : σ × ℤ) : putDigits k tmp precision p =
    k.puts p.1 (zeros (precision - tmp.length) ++ tmp.reverse ++ blanks p.2) := by
  unfold putDigits
  dsimp only
  rw [whilePos_fst, whileLt_fst, Sink.puts_append, Sink.puts_append]
  rfl

/-- Padding to the right of the sign; no width is left behind it. -/
theorem putPadding_digits (tmp : List UInt8) (hleft : type.left = false) (p : σ × ℤ) :
    putDigits k tmp precision (putPadding k c type p) = k.puts p.1 (List.replicate p.2.toNat c ++
      (zeros (precision - tmp.length) ++ tmp.reverse)) := by
  have hlt : (whileLt k c 0 (p.2.toNat + 1) p.2 p.1).2 < 0 := whilePos_snd k
  rw [putDigits_eq]
  unfold putPadding
  rw [hleft, Bool.not_false, if_pos rfl, whilePos_fst, blanks_of_nonpos hlt.le, List.append_nil,
    Sink.puts_append _ _ (List.replicate _ _)]

/-- The sign, and what is left of the width. -/
theorem putSign_eq (p : σ × ℤ) : putSign k (signOf num type) p =
    (k.puts p.1 (signText num type),
      if signOf num type ≠ 0 ∧ k.fits p.1 = true then p.2 - 1 else p.2) := by
  unfold putSign signText
  by_cases hs : signOf num type = 0
  · simp [hs]
  · simp [hs]

theorem printNumber_eq : printNumber k buf num base s precision type =
    k.puts buf (numberText (k.fits buf) num base s precision type) := by
  obtain ⟨tmp, htmp⟩ : ∃ t, t = tmpOf num base type := ⟨_, rfl⟩
  have hmax : (if (tmp.length : ℤ) > precision then (tmp.length : ℤ) else precision) =
      max (tmp.length : ℤ) precision := by
    split <;> omega
  have hzeros : zeros (max (tmp.length : ℤ) precision - tmp.length) = zeros (precision - tmp.length) := by
    unfold zeros
    congr 1
    omega
  unfold printNumber numberText digitText sizeLeft
  simp only [← htmp, hmax]
  generalize s - max (tmp.length : ℤ) precision = size
  cases hleft : type.left with
  | true =>
    -- blanks on the right
    have hblanks : putBlanks k false (signOf num type) type (buf, size) = (buf, size) := by
      unfold putBlanks
      rw [hleft]
      rfl
    have hpad : ∀ c p, putPadding k c type p = p := fun c p => by
      unfold putPadding
      rw [hleft]
      rfl
    rw [if_pos rfl, if_pos rfl, hblanks, hpad, putSign_eq, putDigits_eq, hzeros]
    simp only [Sink.puts_append]
  | false =>
    rw [if_neg Bool.false_ne_true, if_neg Bool.false_ne_true, putPadding_digits k tmp hleft, hzeros]
    cases hzero : type.zeropad with
    | true =>
      -- zeros behind the sign
      have hblanks : putBlanks k true (signOf num type) type (buf, size) = (buf, size) := rfl
      rw [if_pos rfl, if_pos rfl, hblanks, putSign_eq]
      simp only [Sink.puts_append, zeros]
    | false =>
      -- blanks in front of it, and no width is left behind them
      obtain ⟨q, hq⟩ : ∃ q, q = putBlanks k false (signOf num type) type (buf, size) := ⟨_, rfl⟩
      have hq₁ : q.1 = k.puts buf (blanks (size - (signText num type).length)) := by
        have hsize : (if signOf num type ≠ 0 ∧ size > 0 then size - 1 else size).toNat =
            (size - (signText num type).length).toNat := by
          unfold signText
          by_cases hs : signOf num type = 0
          · simp [hs]
          · by_cases hpos : size > 0
            · simp [hs, hpos]
            · simp [hs, hpos]
              omega
        rw [hq, blanks, ← hsize]
        unfold putBlanks
        rw [hleft]
        exact whilePos_fst k
      have hq₂ : q.2 < 0 := by
        rw [hq]
        unfold putBlanks
        rw [hleft]
        exact whilePos_snd k
      have hnone : (if signOf num type ≠ 0 ∧ k.fits q.1 = true then q.2 - 1 else q.2).toNat = 0 := by
        split <;> omega
      rw [if_neg Bool.false_ne_true, if_neg Bool.false_ne_true, ← hq, putSign_eq]
      dsimp only
      rw [hnone, hq₁]
      simp only [Sink.puts_append, List.replicate_zero, List.nil_append]

/-- What a directive writes, if its sign was stored or was not. -/
def Directive.text (stored : Bool) : Directive → List UInt8
  | plain c => [c]
  | char flags width c =>
    if flags.left then [c] ++ blanks (width - 1) else blanks (width - 1) ++ [c]
  | string flags width precision s =>
    let len := int32 s.length
    let len := if precision > 0 ∧ len > precision then precision else len
    if flags.left then s.take len.toNat ++ blanks (width - len)
    else blanks (width - len) ++ s.take len.toNat
  | number flags width precision base num => numberText stored num base width precision flags
  | other none => [ch '%']
  | other (some c) => [ch '%', c]

theorem emit_eq (d : Directive) (str : σ) : d.emit k str = k.puts str (d.text (k.fits str)) := by
  cases d with
  | plain c => rfl
  | other c =>
    cases c with
    | none => rfl
    | some c => rfl
  | number flags width precision base num => exact printNumber_eq k
  | char flags width c =>
    unfold Directive.emit Directive.text
    dsimp only
    cases hleft : flags.left with
    | true =>
      rw [if_pos rfl, Sink.puts_append]
      exact whilePre_fst k
    | false =>
      have hle : (whilePre k (ch ' ') (width.toNat + 1) width str).2 ≤ 0 := whilePre_snd k
      have hzero : ((whilePre k (ch ' ') (width.toNat + 1) width str).2 - 1).toNat = 0 := by omega
      rw [if_neg Bool.false_ne_true, Bool.not_false, if_pos rfl, whilePre_fst, whilePre_fst, hzero,
        Sink.puts_append]
      rfl
  | string flags width precision s =>
    unfold Directive.emit Directive.text
    dsimp only
    generalize (if precision > 0 ∧ int32 s.length > precision then precision else int32 s.length) = len
    cases hleft : flags.left with
    | true =>
      rw [if_pos rfl, Sink.puts_append]
      exact whileLt_fst k
    | false =>
      have hlt : (whileLt k (ch ' ') len ((width - len).toNat + 1) width str).2 < len := whileLt_snd k
      have hzero : ((whileLt k (ch ' ') len ((width - len).toNat + 1) width str).2 - len).toNat = 0 := by
        omega
      rw [if_neg Bool.false_ne_true, Bool.not_false, if_pos rfl, whileLt_fst, whileLt_fst, hzero,
        Sink.puts_append]
      rfl

/-- A number with a sign and padding behind it: the one place where the text asks the sink. -/
def Directive.SignPadded : Directive → Prop
  | number flags width precision base num => signOf num flags ≠ 0 ∧
      (flags.left = true ∨ flags.zeropad = true) ∧ 0 < sizeLeft num base width precision flags
  | _ => False

/-- Elsewhere the text is the same for every sink. -/
theorem text_stored {d : Directive} (hd : ¬d.SignPadded) (b b' : Bool) : d.text b = d.text b' := by
  cases d with
  | plain c => rfl
  | char flags width c => rfl
  | string flags width precision s => rfl
  | other c =>
    cases c with
    | none => rfl
    | some c => rfl
  | number flags width precision base num =>
    have hcases : signOf num flags = 0 ∨ (flags.left = false ∧ flags.zeropad = false) ∨
        sizeLeft num base width precision flags ≤ 0 := by
      by_contra hno
      rw [not_or, not_or, not_and_or, Bool.not_eq_false, Bool.not_eq_false, not_le] at hno
      exact hd hno
    unfold Directive.text numberText
    dsimp only
    rcases hcases with hsign | ⟨hleft, hzero⟩ | hsize
    · simp only [hsign, ne_eq, not_true_eq_false, false_and, if_false]
    · simp only [hleft, hzero, Bool.false_eq_true, if_false]
    · have hrest : ∀ b, (if signOf num flags ≠ 0 ∧ b = true then
          sizeLeft num base width precision flags - 1
          else sizeLeft num base width precision flags) ≤ 0 := fun b => by
        split <;> omega
      rw [blanks_of_nonpos (hrest b), blanks_of_nonpos (hrest b'), zeros_of_nonpos (hrest b),
        zeros_of_nonpos (hrest b')]

/-- There a sign that was not stored costs a character more. -/
theorem text_length {d : Directive} (hd : d.SignPadded) :
    (d.text false).length = (d.text true).length + 1 := by
  cases d with
  | number flags width precision base num =>
    obtain ⟨hsign, hpad, hsize⟩ := hd
    unfold Directive.text numberText
    simp only [hsign, ne_eq, not_false_eq_true, true_and, if_true, Bool.false_eq_true, if_false]
    cases hleft : flags.left with
    | true =>
      simp only [if_true, List.length_append, blanks, List.length_replicate]
      omega
    | false =>
      have hzero : flags.zeropad = true := hpad.resolve_left (by rw [hleft]; exact Bool.false_ne_true)
      simp only [hzero, if_true, Bool.false_eq_true, if_false, List.length_append, zeros,
        List.length_replicate]
      omega
  | plain c => exact hd.elim
  | char flags width c => exact hd.elim
  | string flags width precision s => exact hd.elim
  | other c => exact hd.elim

/-! ### The turns of the loop, one after the other -/

/-- The text of the directives from place `p` on, where the sink has room at the places `fits`. -/
def textFrom (fits : ℕ → Bool) : ℕ → List Directive → List UInt8
  | _, [] => []
  | p, d :: ds => d.text (fits p) ++ textFrom fits (p + (d.text (fits p)).length) ds

theorem emitAll_text (ds : List Directive) (t : List UInt8) :
    emitAll (textSink UInt8) ds t = t ++ textFrom (fun _ => true) t.length ds := by
  induction ds generalizing t with
  | nil => exact (List.append_nil t).symm
  | cons d ds ih =>
    have hd : d.emit (textSink UInt8) t = t ++ d.text true := by
      rw [emit_eq, textSink_puts]
      rfl
    have hstep : emitAll (textSink UInt8) (d :: ds) t = emitAll (textSink UInt8) ds (t ++ d.text true) := by
      rw [← hd]
      rfl
    rw [hstep, ih, List.length_append, List.append_assoc]
    rfl

theorem fullText_eq (ds : List Directive) : fullText ds = textFrom (fun _ => true) 0 ds :=
  emitAll_text ds []

theorem textFrom_append (fits : ℕ → Bool) (es : List Directive) : ∀ (ds : List Directive) (p : ℕ),
    textFrom fits p (ds ++ es) = textFrom fits p ds ++ textFrom fits (p + (textFrom fits p ds).length) es
  | [], _ => rfl
  | d :: ds, p => by
    rw [List.cons_append, textFrom, textFrom, textFrom_append fits es ds, List.append_assoc,
      List.length_append, Nat.add_assoc]

theorem fullText_length_le (ds es : List Directive) :
    (fullText ds).length ≤ (fullText (ds ++ es)).length := by
  rw [fullText_eq, fullText_eq, textFrom_append, List.length_append]
  exact Nat.le_add_right _ _

theorem emitAll_cursor {last : ℕ} (ds : List Directive) {mem : ℕ → UInt8} {buf : ℕ}
    (hbuf : buf < 2 ^ 32) (t : List UInt8) :
    emitAll (cursorSink UInt8 (2 ^ 32) last) ds ((cursorSink UInt8 (2 ^ 32) last).puts ⟨mem, buf⟩ t) =
      (cursorSink UInt8 (2 ^ 32) last).puts ⟨mem, buf⟩
        (t ++ textFrom (fun p => (buf + p) % 2 ^ 32 ≤ last) t.length ds) := by
  induction ds generalizing t with
  | nil => rw [textFrom, List.append_nil]; rfl
  | cons d ds ih =>
    have hfits : (cursorSink UInt8 (2 ^ 32) last).fits
        ((cursorSink UInt8 (2 ^ 32) last).puts ⟨mem, buf⟩ t) =
          decide ((buf + t.length) % 2 ^ 32 ≤ last) := by
      have hstr : ((cursorSink UInt8 (2 ^ 32) last).puts ⟨mem, buf⟩ t).str =
          (buf + t.length) % 2 ^ 32 := puts_str hbuf
      unfold cursorSink at hstr ⊢
      dsimp only at hstr ⊢
      rw [hstr]
    have hstep : emitAll (cursorSink UInt8 (2 ^ 32) last) (d :: ds)
        ((cursorSink UInt8 (2 ^ 32) last).puts ⟨mem, buf⟩ t) =
        emitAll (cursorSink UInt8 (2 ^ 32) last) ds ((cursorSink UInt8 (2 ^ 32) last).puts ⟨mem, buf⟩
          (t ++ d.text (decide ((buf + t.length) % 2 ^ 32 ≤ last)))) := by
      rw [Sink.puts_append, ← hfits, ← emit_eq]
      rfl
    rw [hstep, ih, List.length_append, List.append_assoc]
    rfl

/-- Where no padded sign stands at a place without room, the sink does not matter. -/
theorem textFrom_congr {fits fits' : ℕ → Bool} : ∀ (ds : List Directive) (p : ℕ),
    (∀ pre d post, ds = pre ++ d :: post → d.SignPadded →
      fits (p + (textFrom fits' p pre).length) = fits' (p + (textFrom fits' p pre).length)) →
    textFrom fits p ds = textFrom fits' p ds
  | [], _, _ => rfl
  | d :: ds, p, h => by
    have hd : d.text (fits p) = d.text (fits' p) := by
      by_cases hs : d.SignPadded
      · have hfits := h [] d ds rfl hs
        rw [textFrom, List.length_nil, Nat.add_zero] at hfits
        rw [hfits]
      · exact text_stored hs _ _
    rw [textFrom, textFrom, hd, textFrom_congr ds _ fun pre e post heq hs => ?_]
    have hfits := h (d :: pre) e post (by rw [heq, List.cons_append]) hs
    rwa [textFrom, List.length_append, ← Nat.add_assoc] at hfits

theorem text_length_le (d : Directive) (b : Bool) : (d.text true).length ≤ (d.text b).length := by
  cases b with
  | true => exact le_rfl
  | false =>
    by_cases hs : d.SignPadded
    · rw [text_length hs]
      exact Nat.le_succ _
    · rw [text_stored hs false true]

/-- A sign that was not stored never makes the text shorter. -/
theorem textFrom_length_le (fits : ℕ → Bool) : ∀ (ds : List Directive) (p q : ℕ),
    (textFrom (fun _ => true) p ds).length ≤ (textFrom fits q ds).length
  | [], _, _ => le_rfl
  | d :: ds, p, q => by
    rw [textFrom, textFrom, List.length_append, List.length_append]
    exact Nat.add_le_add (text_length_le d _) (textFrom_length_le fits ds _ _)

/-- A text of the full length has stored its padded signs. -/
theorem fits_of_length {fits : ℕ → Bool} : ∀ (ds : List Directive) (p : ℕ),
    (textFrom fits p ds).length = (textFrom (fun _ => true) p ds).length →
    ∀ pre d post, ds = pre ++ d :: post → d.SignPadded →
      fits (p + (textFrom (fun _ => true) p pre).length) = true
  | [], _, _, pre, d, post, heq, _ => by
    cases pre <;> cases heq
  | e :: ds, p, hlen, pre, d, post, heq, hs => by
    rw [textFrom, textFrom, List.length_append, List.length_append] at hlen
    have hle₁ := text_length_le e (fits p)
    have hle₂ := textFrom_length_le fits ds (p + (e.text true).length) (p + (e.text (fits p)).length)
    have hhead : (e.text (fits p)).length = (e.text true).length := by omega
    cases pre with
    | nil =>
      obtain ⟨rfl, -⟩ := List.cons.inj heq
      rw [textFrom, List.length_nil, Nat.add_zero]
      cases hfits : fits p with
      | true => rfl
      | false =>
        rw [hfits, text_length hs] at hhead
        omega
    | cons e' pre =>
      obtain ⟨rfl, htail⟩ := List.cons.inj heq
      rw [hhead] at hlen
      rw [textFrom, List.length_append, ← Nat.add_assoc]
      exact fits_of_length ds _ (by omega) pre d post htail hs

end EasyCore.Printf
