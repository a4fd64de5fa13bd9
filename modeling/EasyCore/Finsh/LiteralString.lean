import EasyCore.Finsh.LiteralChar

/-! The strings that `finsh_token.c` reads as C does. Its escapes go over as many digits as there are, and
    for a hexadecimal digit it takes the characters from `0` to `?`:

        "\1234"    one byte of four digits
        "\x41?"    the question mark is a digit
        "\x4a"     a byte 4, and an a
        "\\"       not in the table: a byte 0 -/

namespace EasyCore.Finsh.Lexer
open Hex

/-- A character that is no escape, of this kind. -/
def CChar.isPlain (p : UInt8 → Bool) : CChar → Bool
  | plain c => p c
  | _ => false

/-- The bytes that are stored for a string. -/
def stored : List CChar → List UInt8
  | [] => []
  | .plain c :: cs => c :: stored cs
  | .simple e :: cs => (stringEscapes.lookup e).getD 0 :: stored cs
  | .octal ds :: cs =>
    escapeValue 8 (ds ++ textOf (cs.takeWhile (CChar.isPlain isOctal))) ::
      stored (cs.dropWhile (CChar.isPlain isOctal))
  | .hex ds :: cs =>
    if ds.all isHex then
      escapeValue 16 (ds ++ textOf (cs.takeWhile (CChar.isPlain isHex))) ::
        stored (cs.dropWhile (CChar.isPlain isHex))
    else escapeValue 16 (ds.takeWhile isHex) :: (ds.dropWhile isHex ++ stored cs)
termination_by cs => cs.length
decreasing_by
  all_goals
    first
    | exact Nat.lt_succ_self _
    | exact Nat.lt_succ_of_le (List.dropWhile_suffix _).length_le

namespace CChar

/-- The lexer knows the escape. -/
def StringSound : CChar → Prop
  | simple e => (stringEscapes.lookup e).isSome
  | hex ds => ∀ d ∈ ds, isDigit d
  | _ => True

/-- The lexer does not take the second for a digit of the first. -/
def Clear : CChar → CChar → Prop
  | octal _, plain c => isOctal c = false
  | hex _, plain c => isHex c = false
  | _, _ => True

end CChar

/-! ### Bytes -/

section Bytes
variable {x : CChar} {cs : List CChar} {ds : List UInt8} {c : UInt8}

theorem isHex_table (c : UInt8) (h : isHexDigit c = true) : isHex c = isDigit c :=
  (hexDigit_table c h).2.2.2.1

theorem stringEscapes_value (e : UInt8) (h : (cEscapes.lookup e).isSome = true) :
    (stringEscapes.lookup e).getD 0 = (cEscapes.lookup e).getD 0 ↔
      (stringEscapes.lookup e).isSome = true := by
  rcases escape_cases h with rfl | rfl | rfl | rfl | rfl | rfl | rfl | rfl | rfl | rfl <;> decide

/-- The value of decimal digits in an escape. -/
theorem escapeValue_eq {base : UInt8} {b : ℕ} (hb : UInt8.ofNat b = base) (ds : List UInt8)
    (hd : ∀ d ∈ ds, isDigit d = true) : escapeValue base ds = UInt8.ofNat (numberIn b ds) := by
  induction ds using List.reverseRecOn with
  | nil => rfl
  | append_singleton ds d ih =>
    have hinit := ih fun e he => hd e (List.mem_append_left _ he)
    have hstep : escapeValue base (ds ++ [d]) = escapeValue base ds * base + (d - 48) := by
      unfold escapeValue
      rw [List.foldl_append]
      rfl
    have hdigit := (digit_table d (hd d (by simp))).2.2.1
    rw [hstep, numberIn_append, hinit, hdigit, UInt8.ofNat_add, UInt8.ofNat_mul, hb, UInt8.mul_comm]

theorem takeWhile_nil_iff (p : UInt8 → Bool) :
    cs.takeWhile (CChar.isPlain p) = [] ↔ ∀ y ∈ cs.head?, y.isPlain p = false := by
  cases cs with
  | nil => simp
  | cons y cs =>
    by_cases hy : y.isPlain p = true
    · simp [List.takeWhile_cons_of_pos hy, hy]
    · simp [List.takeWhile_cons_of_neg hy, hy]

theorem octal_clear (y : CChar) : y.isPlain isOctal = false ↔ CChar.Clear (.octal ds) y := by
  cases y with
  | plain c => exact Iff.rfl
  | simple e => exact iff_of_true rfl trivial
  | octal ds => exact iff_of_true rfl trivial
  | hex ds => exact iff_of_true rfl trivial

theorem hex_clear (y : CChar) : y.isPlain isHex = false ↔ CChar.Clear (.hex ds) y := by
  cases y with
  | plain c => exact Iff.rfl
  | simple e => exact iff_of_true rfl trivial
  | octal ds => exact iff_of_true rfl trivial
  | hex ds => exact iff_of_true rfl trivial

theorem numberIn_concat (b : ℕ) (xs ys : List UInt8) :
    numberIn b (xs ++ ys) = numberIn b xs * b ^ ys.length + numberIn b ys := by
  induction ys using List.reverseRecOn with
  | nil => simp [numberIn]
  | append_singleton ys y ih =>
    rw [← List.append_assoc, numberIn_append, numberIn_append, ih, List.length_append,
      List.length_singleton, pow_succ]
    ring

theorem digit_lt (c : UInt8) (h : isHexDigit c = true) : c.toNat < 160 := (hexDigit_table c h).2.2.2.2.1

theorem letter_table (c : UInt8) (h : isHexDigit c = true) (hletter : isHex c = false) :
    10 ≤ Hex.digitValue c ∧ Hex.digitValue c < 16 ∧ c.toNat % 16 = Hex.digitValue c - 9 ∧
      c.toNat < 160 :=
  have hvalue := (hexDigit_table c h).2.2.2.2.2 hletter
  ⟨hvalue.1, (hexDigit_table c h).2.1, hvalue.2, digit_lt c h⟩

/-- An escape with a letter: neither the byte that is stored for its first digits nor a character behind
    them is its value. -/
theorem hex_split (hd : ∀ d ∈ ds, isHexDigit d = true) (hlt : numberIn 16 ds < 256)
    (hletter : ds.all isHex = false) :
    escapeValue 16 (ds.takeWhile isHex) ≠ UInt8.ofNat (numberIn 16 ds) ∧
      UInt8.ofNat (numberIn 16 ds) ∉ ds.dropWhile isHex := by
  obtain ⟨lead, hlead⟩ : ∃ lead, lead = ds.takeWhile isHex := ⟨_, rfl⟩
  have hsplit := List.takeWhile_append_dropWhile (p := isHex) (l := ds)
  have hleadDigit : ∀ d ∈ lead, isDigit d = true := by
    rw [hlead]
    intro d hmem
    rw [← isHex_table d (hd d ((List.takeWhile_prefix isHex).subset hmem))]
    exact List.mem_takeWhile_imp hmem
  rcases hdrop : ds.dropWhile isHex with _ | ⟨a, post⟩
  · have hall : ds.all isHex = true := List.all_eq_true.2 (List.dropWhile_eq_nil_iff.1 hdrop)
    rw [hall] at hletter
    cases hletter
  have ha : isHex a = false := by
    have hhead := List.head?_dropWhile_not isHex ds
    rw [hdrop] at hhead
    simpa using hhead
  have hmem : ∀ d ∈ a :: post, isHexDigit d = true := fun d h =>
    hd d ((List.dropWhile_suffix isHex).subset (hdrop ▸ h))
  obtain ⟨hge, hlt16, hmod, hsmall⟩ := letter_table a (hmem a List.mem_cons_self) ha
  have hnumber : numberIn 16 ds =
      numberIn 16 lead * (16 * 16 ^ post.length) + Hex.digitValue a * 16 ^ post.length +
        numberIn 16 post := by
    rw [← hsplit, hdrop, ← hlead, numberIn_concat, ← List.singleton_append, numberIn_concat 16 [a],
      List.length_append, List.length_singleton, Nat.add_comm 1, pow_succ]
    have hone : numberIn 16 [a] = Hex.digitValue a := by simp [numberIn]
    rw [hone]
    ring
  have hw : (UInt8.ofNat (numberIn 16 ds)).toNat = numberIn 16 ds := UInt8.toNat_ofNat_of_lt' hlt
  have hu : escapeValue 16 lead = UInt8.ofNat (numberIn 16 lead) := escapeValue_eq rfl lead hleadDigit
  have hpost : post.length ≤ 1 := by
    by_contra hlong
    have hpow : 16 ^ 2 ≤ 16 ^ post.length := Nat.pow_le_pow_right (by decide) (by omega)
    have hmul : 10 * 16 ^ 2 ≤ Hex.digitValue a * 16 ^ post.length := Nat.mul_le_mul hge hpow
    omega
  rw [← hlead, hu]
  cases post with
  | nil =>
    rw [List.length_nil, pow_zero, mul_one, mul_one] at hnumber
    have hnil : numberIn 16 [] = 0 := rfl
    constructor
    · intro h
      have hnat := congrArg UInt8.toNat h
      rw [hw, UInt8.toNat_ofNat_of_lt' (by show _ < 256; omega)] at hnat
      omega
    · intro h
      rw [List.mem_singleton] at h
      have hnat := congrArg UInt8.toNat h
      rw [hw] at hnat
      omega
  | cons p post =>
    have hempty : post = [] := List.length_eq_zero_iff.1 (by
      rw [List.length_cons] at hpost
      omega)
    subst hempty
    rw [List.length_singleton, pow_one] at hnumber
    have hp := digit_lt p (hmem p (by simp))
    constructor
    · intro h
      have hnat := congrArg UInt8.toNat h
      rw [hw, UInt8.toNat_ofNat_of_lt' (by show _ < 256; omega)] at hnat
      omega
    · intro h
      simp only [List.mem_cons, List.not_mem_nil, or_false] at h
      rcases h with h | h
      · have hnat := congrArg UInt8.toNat h
        rw [hw] at hnat
        omega
      · have hnat := congrArg UInt8.toNat h
        rw [hw] at hnat
        omega

/-- The bytes for a character and those behind it: one byte, and what it goes over; or several. -/
theorem stored_cases (hx : x.Ok charDoubleQuote) (cs : List CChar) :
    (∃ b es ds, cs = es ++ ds ∧ stored (x :: cs) = b :: stored ds ∧ (x.StringSound → es = [] → b = x.value) ∧
        (¬ x.StringSound → b ≠ x.value) ∧ (es = [] ↔ ∀ y ∈ cs.head?, x.Clear y)) ∨
      ∃ b l, stored (x :: cs) = b :: (l ++ stored cs) ∧ b ≠ x.value ∧ x.value ∉ l ∧ ¬ x.StringSound := by
  have hrun : ∀ p : UInt8 → Bool, cs = cs.takeWhile (CChar.isPlain p) ++ cs.dropWhile (CChar.isPlain p) :=
    fun p => List.takeWhile_append_dropWhile.symm
  cases x with
  | plain c =>
    refine .inl ⟨c, [], cs, rfl, ?_, fun _ _ => rfl, fun h => absurd trivial h,
      iff_of_true rfl fun y _ => trivial⟩
    rw [stored]
  | simple e =>
    refine .inl ⟨(stringEscapes.lookup e).getD 0, [], cs, rfl, ?_, fun h _ => ?_, fun h => ?_,
      iff_of_true rfl fun y _ => trivial⟩
    · rw [stored]
    · exact (stringEscapes_value e hx).2 h
    · exact fun heq => h ((stringEscapes_value e hx).1 heq)
  | octal ds =>
    refine .inl ⟨_, _, _, hrun isOctal, by rw [stored], fun _ hes => ?_, fun h => absurd trivial h, ?_⟩
    · rw [hes, textOf, List.flatMap_nil, List.append_nil]
      exact escapeValue_eq rfl ds fun d hd => (isOctal_hex d (hx.2.2.1 d hd)).2.1
    · rw [takeWhile_nil_iff]
      exact forall₂_congr fun y _ => octal_clear y
  | hex ds =>
    have hdigits : ∀ d ∈ ds, isHex d = isDigit d := fun d hd => isHex_table d (hx.2.1 d hd)
    by_cases hall : ds.all isHex = true
    · have hsound : ∀ d ∈ ds, isDigit d = true := fun d hd =>
        (hdigits d hd).symm.trans (List.all_eq_true.1 hall d hd)
      refine .inl ⟨_, _, _, hrun isHex, by rw [stored, if_pos hall], fun _ hes => ?_,
        fun h => absurd hsound h, ?_⟩
      · rw [hes, textOf, List.flatMap_nil, List.append_nil]
        exact escapeValue_eq rfl ds hsound
      · rw [takeWhile_nil_iff]
        exact forall₂_congr fun y _ => hex_clear y
    · obtain ⟨hb, hl⟩ := hex_split hx.2.1 hx.2.2 (by simpa using hall)
      refine .inr ⟨_, _, by rw [stored, if_neg hall], hb, hl, fun h => hall ?_⟩
      exact List.all_eq_true.2 fun d hd => (hdigits d hd).trans (h d hd)

/-- Values that have been left out are not made up for. -/
theorem not_prefix_stored : ∀ (n : ℕ) {cs : List CChar} {q : List UInt8}, cs.length ≤ n →
    (∀ x ∈ cs, x.Ok charDoubleQuote) → q ≠ [] → ¬ (q ++ cs.map CChar.value <+: stored cs)
  | _, [], q, _, _, hq, h => by
    rw [List.map_nil, List.append_nil, stored] at h
    exact hq (List.prefix_nil.1 h)
  | 0, x :: cs, q, hn, _, _, _ => absurd hn (by simp)
  | n + 1, x :: cs, q, hn, hok, hq, h => by
    obtain ⟨a, q', rfl⟩ := List.exists_cons_of_ne_nil hq
    have hlen : cs.length ≤ n := by simpa using hn
    have hrest : ∀ y ∈ cs, y.Ok charDoubleQuote := fun y hy => hok y (List.mem_cons_of_mem _ hy)
    rcases stored_cases (hok x List.mem_cons_self) cs with
      ⟨b, es, ds, hcs, hstored, -⟩ | ⟨b, l, hstored, -, hl, -⟩
    · rw [hstored, List.cons_append] at h
      have htail := (List.cons_prefix_cons.1 h).2
      have hmap : q' ++ (x :: cs).map CChar.value =
          (q' ++ x.value :: es.map CChar.value) ++ ds.map CChar.value := by
        rw [List.map_cons, hcs, List.map_append, List.append_assoc, List.cons_append]
      rw [hmap] at htail
      have hds : ds.length ≤ n := by
        rw [hcs, List.length_append] at hlen
        omega
      refine not_prefix_stored n hds (fun y hy => hrest y ?_) (by simp) htail
      rw [hcs]
      exact List.mem_append_right _ hy
    · rw [hstored, List.map_cons] at h
      obtain ⟨t, ht⟩ := h
      rw [List.append_assoc, List.cons_append, List.cons_append] at ht
      have htail := (List.cons.inj ht).2
      rcases List.append_eq_append_iff.1 htail with ⟨m, hm, hrest'⟩ | ⟨m, hm, hrest'⟩
      · cases m with
        | nil =>
          rw [List.nil_append] at hrest'
          refine not_prefix_stored n (q := [x.value]) hlen hrest (by simp) ⟨t, ?_⟩
          rw [List.append_assoc]
          exact hrest'
        | cons w m =>
          rw [List.cons_append] at hrest'
          refine hl ?_
          rw [hm, (List.cons.inj hrest').1]
          simp
      · refine not_prefix_stored n (q := m ++ [x.value]) hlen hrest (by simp) ⟨t, ?_⟩
        rw [hrest']
        simp

/-- The bytes are the values exactly if the lexer knows every escape, and takes no more for its digits. -/
theorem stored_iff : ∀ {cs : List CChar}, (∀ x ∈ cs, x.Ok charDoubleQuote) →
    (cs.map CChar.value <+: stored cs → (∀ x ∈ cs, x.StringSound) ∧ cs.IsChain CChar.Clear) ∧
      ((∀ x ∈ cs, x.StringSound) ∧ cs.IsChain CChar.Clear → stored cs = cs.map CChar.value)
  | [], _ => by
    refine ⟨fun _ => ⟨by simp, List.isChain_nil⟩, fun _ => ?_⟩
    rw [stored, List.map_nil]
  | x :: cs, hok => by
    have hrest : ∀ y ∈ cs, y.Ok charDoubleQuote := fun y hy => hok y (List.mem_cons_of_mem _ hy)
    obtain ⟨ih, ih'⟩ := stored_iff hrest
    rw [List.forall_mem_cons, List.isChain_cons, List.map_cons]
    rcases stored_cases (hok x List.mem_cons_self) cs with
      ⟨b, es, ds, hcs, hstored, hsound, hunsound, hclear⟩ | ⟨b, l, hstored, hb, -, hunsound⟩
    · rw [hstored]
      constructor
      · intro h
        obtain ⟨hb, htail⟩ := List.cons_prefix_cons.1 h
        have hx : x.StringSound := by
          by_contra hnot
          exact hunsound hnot hb.symm
        have hes : es = [] := by
          by_contra hne
          rw [hcs, List.map_append] at htail
          refine not_prefix_stored ds.length le_rfl (fun y hy => hrest y ?_) (by simpa using hne) htail
          rw [hcs]
          exact List.mem_append_right _ hy
        have hds : cs = ds := by rw [hcs, hes, List.nil_append]
        rw [← hds] at htail
        obtain ⟨hs, hc⟩ := ih htail
        exact ⟨⟨hx, hs⟩, hclear.1 hes, hc⟩
      · rintro ⟨⟨hx, hs⟩, hc, hchain⟩
        have hes := hclear.2 hc
        have hds : cs = ds := by rw [hcs, hes, List.nil_append]
        rw [← hds, hsound hx hes, ih' ⟨hs, hchain⟩]
    · rw [hstored]
      constructor
      · intro h
        exact absurd (List.cons_prefix_cons.1 h).1.symm hb
      · rintro ⟨⟨hx, -⟩, -⟩
        exact absurd hx hunsound

end Bytes

/-! ### What is stored -/

section Runs
variable {line : Line} {t : FinshToken} {x : CChar} {cs : List CChar} {s r rest ds out : List UInt8}
  {b : UInt8} {c : Cursor}

/-- From here a string is stored as these bytes, up to its quote; without room for them the lexer stops
    in front of it. -/
def Stores (line : Line) (rest : List UInt8) (c : Cursor) (out : List UInt8) : Prop :=
  ∀ n bytes, ∃ q, tokenProcString line n c bytes = some q ∧
    ((out.length < n ∧ q = (bytes ++ out ++ [0], cursorAt line (some rest), none)) ∨
      (n ≤ out.length ∧ ∃ s, q.2.1 = cursorAt line (some s) ∧ rest.length < s.length ∧
        s.length ≤ (text line).length))

theorem stores_end (hs : charDoubleQuote :: rest <:+ text line) :
    Stores line rest (cursorAt line (some (charDoubleQuote :: rest))) [] := by
  intro n bytes
  cases n with
  | zero => exact ⟨_, rfl, .inr ⟨le_rfl, _, rfl, Nat.lt_succ_self _, hs.length_le⟩⟩
  | succ n =>
    refine ⟨_, ?_, .inl ⟨Nat.succ_pos n, rfl⟩⟩
    have heof : (cursorAt line (some rest)).eof = false := rfl
    rw [tokenProcString, next_cons hs]
    dsimp only
    rw [heof, if_neg Bool.false_ne_true, if_neg (by decide), if_pos rfl, List.append_nil]

/-- One byte. -/
theorem Stores.cons (hs : s <:+ text line) (hlt : rest.length < s.length)
    (hstep : ∀ n bytes, tokenProcString line (n + 1) (cursorAt line (some s)) bytes =
      tokenProcString line n c (bytes ++ [b])) (h : Stores line rest c out) :
    Stores line rest (cursorAt line (some s)) (b :: out) := by
  intro n bytes
  cases n with
  | zero => exact ⟨_, rfl, .inr ⟨Nat.zero_le _, _, rfl, hlt, hs.length_le⟩⟩
  | succ n =>
    obtain ⟨q, hq, hor⟩ := h n (bytes ++ [b])
    refine ⟨q, (hstep n bytes).trans hq, ?_⟩
    rcases hor with ⟨hroom, rfl⟩ | ⟨hfull, hcursor⟩
    · refine .inl ⟨by simpa using hroom, ?_⟩
      simp
    · exact .inr ⟨by simpa using hfull, hcursor⟩

/-- A character that is no escape. -/
theorem stores_plain (hs : b :: s <:+ text line) (hlt : rest.length ≤ s.length)
    (hquote : b ≠ charDoubleQuote) (hslash : b ≠ charBackslash)
    (h : Stores line rest (cursorAt line (some s)) out) :
    Stores line rest (cursorAt line (some (b :: s))) (b :: out) := by
  refine h.cons hs (Nat.lt_succ_of_le hlt) fun n bytes => ?_
  have heof : (cursorAt line (some s)).eof = false := rfl
  rw [tokenProcString, next_cons hs]
  dsimp only
  rw [heof, if_neg Bool.false_ne_true, if_neg hslash, if_neg hquote]

theorem stores_chars : ∀ {ds : List UInt8}, ds ++ s <:+ text line → rest.length ≤ s.length →
    (∀ d ∈ ds, d ≠ charDoubleQuote ∧ d ≠ charBackslash) → Stores line rest (cursorAt line (some s)) out →
    Stores line rest (cursorAt line (some (ds ++ s))) (ds ++ out)
  | [], _, _, _, h => h
  | d :: ds, hs, hlt, hd, h => by
    obtain ⟨hquote, hslash⟩ := hd d List.mem_cons_self
    have hlen : rest.length ≤ (ds ++ s).length := by
      rw [List.length_append]
      omega
    exact stores_plain hs hlen hquote hslash (stores_chars ((List.suffix_cons d _).trans hs) hlt
      (fun e he => hd e (List.mem_cons_of_mem d he)) h)

/-- An escape. -/
theorem stores_escape (hs : charBackslash :: s <:+ text line) (hlt : rest.length ≤ s.length)
    (hescape : tokenProcEscape line (cursorAt line (some s)) = some (b, c)) (h : Stores line rest c out) :
    Stores line rest (cursorAt line (some (charBackslash :: s))) (b :: out) := by
  refine h.cons hs (Nat.lt_succ_of_le hlt) fun n bytes => ?_
  have heof : (cursorAt line (some s)).eof = false := rfl
  rw [tokenProcString, next_cons hs]
  dsimp only
  rw [heof, if_neg Bool.false_ne_true, if_pos rfl, hescape]
  rfl

/-- The characters of a string up to one that is not of this kind. -/
theorem span_text {p : UInt8 → Bool} (hslash : p charBackslash = false)
    (hquote : p charDoubleQuote = false) : ∀ cs : List CChar,
    (textOf cs ++ charDoubleQuote :: rest).takeWhile p = textOf (cs.takeWhile (CChar.isPlain p)) ∧
      (textOf cs ++ charDoubleQuote :: rest).dropWhile p =
        textOf (cs.dropWhile (CChar.isPlain p)) ++ charDoubleQuote :: rest
  | [] => by
    have htext : textOf [] = [] := rfl
    rw [List.takeWhile_nil, List.dropWhile_nil, htext, List.nil_append]
    exact ⟨List.takeWhile_cons_of_neg (by simp [hquote]), List.dropWhile_cons_of_neg (by simp [hquote])⟩
  | x :: cs => by
    obtain ⟨htake, hdrop⟩ := span_text hslash hquote cs
    have htext : ∀ (x : CChar) (cs : List CChar), textOf (x :: cs) = x.text ++ textOf cs := fun x cs =>
      List.flatMap_cons
    have hescape : ∀ r, x.text = charBackslash :: r → x.isPlain p = false →
        (textOf (x :: cs) ++ charDoubleQuote :: rest).takeWhile p =
            textOf ((x :: cs).takeWhile (CChar.isPlain p)) ∧
          (textOf (x :: cs) ++ charDoubleQuote :: rest).dropWhile p =
            textOf ((x :: cs).dropWhile (CChar.isPlain p)) ++ charDoubleQuote :: rest := by
      intro r hr hplain
      have hneg : ¬ x.isPlain p = true := by simp [hplain]
      rw [List.takeWhile_cons_of_neg hneg, List.dropWhile_cons_of_neg hneg, htext, hr,
        List.cons_append, List.cons_append]
      exact ⟨List.takeWhile_cons_of_neg (by simp [hslash]),
        List.dropWhile_cons_of_neg (by simp [hslash])⟩
    cases x with
    | simple e => exact hescape _ rfl rfl
    | octal ds => exact hescape _ rfl rfl
    | hex ds => exact hescape _ rfl rfl
    | plain c =>
      have hcons : textOf (.plain c :: cs) ++ charDoubleQuote :: rest =
          c :: (textOf cs ++ charDoubleQuote :: rest) := rfl
      have hplain : CChar.isPlain p (.plain c) = p c := rfl
      rw [hcons]
      by_cases hc : p c = true
      · rw [List.takeWhile_cons_of_pos hc, List.dropWhile_cons_of_pos hc,
          List.takeWhile_cons_of_pos (hplain.trans hc), List.dropWhile_cons_of_pos (hplain.trans hc),
          htake, hdrop, htext]
        exact ⟨rfl, rfl⟩
      · rw [List.takeWhile_cons_of_neg hc, List.dropWhile_cons_of_neg hc,
          List.takeWhile_cons_of_neg (by rwa [hplain]), List.dropWhile_cons_of_neg (by rwa [hplain]),
          hcons]
        exact ⟨rfl, rfl⟩

theorem simple_escape (hs : b :: r <:+ text line) (hb : (cEscapes.lookup b).isSome = true) :
    tokenProcEscape line (cursorAt line (some (b :: r))) =
      some ((stringEscapes.lookup b).getD 0, cursorAt line (some r)) := by
  have hx : b ≠ 120 := by
    rintro rfl
    revert hb
    decide
  have hoctal : isOctal b = false := by
    rcases escape_cases hb with rfl | rfl | rfl | rfl | rfl | rfl | rfl | rfl | rfl | rfl <;> decide
  rw [tokenProcEscape, next_cons hs]
  dsimp only
  cases stringEscapes.lookup b with
  | some ch => rfl
  | none =>
    dsimp only
    rw [if_neg hx, if_neg (by simp [hoctal])]
    rfl

theorem octal_escape {s' : List UInt8} (hs : b :: r <:+ text line) (hb : isOctal b = true)
    (hrest : (b :: r).dropWhile isOctal = s') (hne : s' ≠ []) :
    tokenProcEscape line (cursorAt line (some (b :: r))) =
      some (escapeValue 8 ((b :: r).takeWhile isOctal), cursorAt line (some s')) := by
  have hx : b ≠ 120 := by
    rintro rfl
    revert hb
    decide
  have hlookup : stringEscapes.lookup b = none := by
    refine List.lookup_eq_none_iff.2 fun p hp => bne_iff_ne.2 fun hd => ?_
    subst hd
    simp only [stringEscapes, List.mem_cons, List.not_mem_nil, or_false] at hp
    rcases hp with rfl | rfl | rfl | rfl | rfl | rfl | rfl <;> revert hb <;> decide
  have htake := takeChars_next (p := isOctal) (by decide) hs
  have hprev := prev_first (suffix_drop hs isOctal)
  rw [next_cons hs] at htake
  rw [hrest, unread, if_neg hne] at hprev
  rw [tokenProcEscape, next_cons hs]
  dsimp only
  rw [hlookup]
  dsimp only
  rw [if_neg hx, if_pos hb, htake, hrest, Option.map_some, hprev]

theorem hex_escape {s' : List UInt8} (hs : 120 :: r <:+ text line) (hrest : r.dropWhile isHex = s')
    (hne : s' ≠ []) : tokenProcEscape line (cursorAt line (some (120 :: r))) =
      some (escapeValue 16 (r.takeWhile isHex), cursorAt line (some s')) := by
  have hsub : r <:+ text line := (List.suffix_cons _ _).trans hs
  have hlookup : stringEscapes.lookup 120 = none := by decide
  have htake := takeChars_next (p := isHex) (by decide) hsub
  have hprev := prev_first (suffix_drop hsub isHex)
  rw [hrest, unread, if_neg hne] at hprev
  rw [tokenProcEscape, next_cons hs]
  dsimp only
  rw [hlookup]
  dsimp only
  rw [if_pos rfl, htake, hrest, Option.map_some, hprev]

end Runs

end EasyCore.Finsh.Lexer
