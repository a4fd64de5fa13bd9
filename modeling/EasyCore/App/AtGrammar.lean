import EasyCore.App.AtParse

/-! The grammar of AT commands, and which strings the parser of `easyio_core/atparse.c` accepts.

        ("AT+" | "+") name [ "=" item { "," item } ] ( CR anything | end )

    A string either is such a command, or the parser returns -1, with two exceptions: a command
    without items that the string ends is rejected, and a 17th item is stored behind `param`. -/

namespace EasyCore.AtParse
open Decimal

/-- A parameter as it is written. -/
inductive Item
  | integer (digits : List UInt8) (ne_nil : digits ≠ []) (all : ∀ c ∈ digits, isDigit c = true)
  | string (body : List UInt8) (no_quote : charQuote ∉ body)

namespace Item

def text : Item → List UInt8
  | integer digits _ _ => digits
  | string body _ => charQuote :: body ++ [charQuote]

def type : Item → ParamType
  | integer .. => .integer
  | string .. => .string

/-- The state of the parser behind the item. -/
def after : Item → Status
  | integer .. => .parseInt
  | string .. => .parseStringEnd

end Item

/-- A comma-separated list. -/
def itemsText (ps : List Item) : List UInt8 := [charComma].intercalate (ps.map Item.text)

/-- What is to be recorded of a list that starts at `pos`. -/
def record : ℕ → List Item → List AtcmdParam
  | _, [] => []
  | pos, p :: ps => ⟨p.type, pos⟩ :: record (pos + p.text.length + 1) ps

/-- A command: whether it starts with "AT+", its name, and its parameters, if it has any. -/
structure Command where
  hasAt : Bool
  name : List UInt8
  upper : ∀ c ∈ name, isUpper c = true
  short : name.length ≤ 14
  params : List Item
  few : params.length ≤ 16

namespace Command

def start (cmd : Command) : List UInt8 :=
  (if cmd.hasAt then [charA, charT, charPlus] else [charPlus]) ++ cmd.name

def text (cmd : Command) : List UInt8 :=
  cmd.start ++ if cmd.params = [] then [] else charEqual :: itemsText cmd.params

def data (cmd : Command) : AtcmdData :=
  ⟨cmd.name, record (cmd.start.length + 1) cmd.params⟩

end Command

/-- What may stand behind a command: a CR and whatever follows it, or nothing. -/
def Ends (tail : List UInt8) : Prop := tail = [] ∨ ∃ rest, tail = charCr :: rest

/-- The character may start an item. -/
def isFront (c : UInt8) : Bool := c = charQuote || isDigit c

/-! ### One item -/

theorem ends_cons {tail : List UInt8} (h : Ends tail) :
    ∃ c rest, tail ++ [0] = c :: rest ∧ (c = charCr ∨ c = 0) := by
  rcases h with rfl | ⟨rest, rfl⟩
  · exact ⟨0, [], rfl, .inr rfl⟩
  · exact ⟨charCr, rest ++ [0], rfl, .inl rfl⟩

theorem digit_plain {c : UInt8} (h : isDigit c = true) :
    c ≠ charComma ∧ c ≠ charCr ∧ c ≠ 0 ∧ c ≠ charQuote := by
  refine ⟨?_, ?_, ?_, ?_⟩ <;> · rintro rfl; exact absurd h (by decide)

/-- The parser stays in `PARSE_INT` over digits. -/
theorem parseLoop_digits (ad : AtcmdData) (rest : List UInt8) :
    ∀ (ds : List UInt8) (i : ℕ), (∀ c ∈ ds, isDigit c = true) →
      parseLoop i (ds ++ rest) .parseInt ad = parseLoop (i + ds.length) rest .parseInt ad
  | [], _, _ => rfl
  | c :: ds, i, h => by
    have hc := h c (by simp)
    obtain ⟨h1, h2, h3, -⟩ := digit_plain hc
    simp only [List.cons_append, parseLoop, parseChar, h1, h2, h3, hc, if_false, if_true,
      false_or]
    rw [parseLoop_digits ad rest ds (i + 1) fun d hd => h d (by simp [hd])]
    simp only [List.length_cons]
    congr 1; omega

/-- The parser stays in `PARSE_STRING` up to a quote. -/
theorem parseLoop_body (ad : AtcmdData) (rest : List UInt8) :
    ∀ (body : List UInt8) (i : ℕ), charQuote ∉ body →
      parseLoop i (body ++ rest) .parseString ad = parseLoop (i + body.length) rest .parseString ad
  | [], _, _ => rfl
  | c :: body, i, h => by
    have hc : c ≠ charQuote := fun e => h (by simp [e])
    simp only [List.cons_append, parseLoop, parseChar, hc, if_false]
    rw [parseLoop_body ad rest body (i + 1) fun hb => h (by simp [hb])]
    simp only [List.length_cons]
    congr 1; omega

/-- The record with one more parameter. -/
def AtcmdData.push (ad : AtcmdData) (type : ParamType) (pos : ℕ) : AtcmdData :=
  { ad with param := ad.param ++ [⟨type, pos⟩] }

/-- A character that starts an item is stored as the next parameter, or behind `param`. -/
theorem parseChar_front {c : UInt8} (hc : isFront c = true) (i : ℕ) (ad : AtcmdData) :
    parseChar i c ad .startparse =
      if ad.paramCount < atcmdParams then
        if c = charQuote then .go .parseString (ad.push .string i)
        else .go .parseInt (ad.push .integer i)
      else .overrun := by
  simp only [isFront, Bool.or_eq_true, decide_eq_true_eq] at hc
  rcases hc with rfl | hc
  · simp [parseChar, appendParam, AtcmdData.push]
  · simp [parseChar, appendParam, AtcmdData.push, hc, (digit_plain hc).2.2.2]

/-- Any other character is an error. -/
theorem parseChar_not_front {c : UInt8} (hc : isFront c = false) (i : ℕ) (ad : AtcmdData) :
    parseChar i c ad .startparse = .ret (-1) ad := by
  simp only [isFront, Bool.or_eq_false_iff, decide_eq_false_iff_not] at hc
  simp [parseChar, hc]

theorem Item.text_cons (p : Item) : ∃ c rest, p.text = c :: rest ∧ isFront c = true := by
  cases p with
  | integer ds ne all =>
    cases ds with
    | nil => exact absurd rfl ne
    | cons c ds => exact ⟨c, ds, rfl, by simp [isFront, all c (by simp)]⟩
  | string body _ => exact ⟨charQuote, body ++ [charQuote], rfl, by decide⟩

/-- The parser reads one item. -/
theorem parseLoop_item (p : Item) (rest : List UInt8) (i : ℕ) (ad : AtcmdData)
    (hroom : ad.paramCount < atcmdParams) :
    parseLoop i (p.text ++ rest) .startparse ad =
      parseLoop (i + p.text.length) rest p.after (ad.push p.type i) := by
  cases p with
  | integer ds ne all =>
    cases ds with
    | nil => exact absurd rfl ne
    | cons c ds =>
      have hc := all c (by simp)
      have hf : isFront c = true := by simp [isFront, hc]
      simp only [Item.text, List.cons_append, parseLoop, parseChar_front hf, hroom, if_true,
        (digit_plain hc).2.2.2, if_false]
      rw [parseLoop_digits _ rest ds (i + 1) fun d hd => all d (by simp [hd])]
      simp only [List.length_cons, Item.after, Item.type]
      congr 1; omega
  | string body no_quote =>
    have hf : isFront charQuote = true := by decide
    simp only [Item.text, List.cons_append, List.append_assoc, parseLoop, parseChar_front hf,
      hroom, if_true]
    rw [parseLoop_body _ _ body (i + 1) no_quote]
    simp only [List.nil_append, parseLoop, parseChar, if_true, List.length_cons,
      List.length_append, List.length_nil, Item.after, Item.type]
    congr 1; omega

/-- Behind an item, a comma leads to the next one. -/
theorem parseLoop_comma (p : Item) (rest : List UInt8) (i : ℕ) (ad : AtcmdData) :
    parseLoop i (charComma :: rest) p.after ad = parseLoop (i + 1) rest .startparse ad := by
  cases p <;> simp [Item.after, parseLoop, parseChar]

/-- Behind an item, a CR or the NUL ends the command. -/
theorem parseLoop_end (p : Item) {c : UInt8} (hc : c = charCr ∨ c = 0) (rest : List UInt8) (i : ℕ)
    (ad : AtcmdData) : parseLoop i (c :: rest) p.after ad = some (0, ad) := by
  have hcomma : c ≠ charComma := by rcases hc with rfl | rfl <;> decide
  cases p <;> simp [Item.after, parseLoop, parseChar, hcomma, hc]

/-- Behind an item, any character that neither continues nor ends it is an error. -/
theorem parseLoop_bad (p : Item) {c : UInt8} (hcomma : c ≠ charComma) (hend : ¬(c = charCr ∨ c = 0))
    (hdigit : p.type = .integer → isDigit c = false) (rest : List UInt8) (i : ℕ) (ad : AtcmdData) :
    parseLoop i (c :: rest) p.after ad = some (-1, ad) := by
  cases p with
  | integer => simp [Item.after, parseLoop, parseChar, hcomma, hend, hdigit rfl]
  | string => simp [Item.after, parseLoop, parseChar, hcomma, hend]

/-! ### Lists of items -/

/-- The record with a list of parameters behind the ones that are there. -/
def AtcmdData.pushAll (ad : AtcmdData) (pos : ℕ) (ps : List Item) : AtcmdData :=
  { ad with param := ad.param ++ record pos ps }

@[simp] theorem push_paramCount (ad : AtcmdData) (type : ParamType) (pos : ℕ) :
    (ad.push type pos).paramCount = ad.paramCount + 1 := by
  simp [AtcmdData.push, AtcmdData.paramCount]

theorem pushAll_cons (ad : AtcmdData) (pos : ℕ) (p : Item) (ps : List Item) :
    ad.pushAll pos (p :: ps) = (ad.push p.type pos).pushAll (pos + p.text.length + 1) ps := by
  simp [AtcmdData.pushAll, AtcmdData.push, record]

theorem itemsText_cons_cons (p q : Item) (ps : List Item) :
    itemsText (p :: q :: ps) = p.text ++ charComma :: itemsText (q :: ps) := by
  simp [itemsText, List.intercalate_cons_cons]

/-- The parser reads a list of items, as long as there is room for them. -/
theorem parseLoop_items (rest : List UInt8) :
    ∀ (ps : List Item) (p : Item) (i : ℕ) (ad : AtcmdData),
      ad.paramCount + (p :: ps).length ≤ atcmdParams →
      ∃ q : Item, parseLoop i (itemsText (p :: ps) ++ rest) .startparse ad =
        parseLoop (i + (itemsText (p :: ps)).length) rest q.after (ad.pushAll i (p :: ps))
  | [], p, i, ad, hroom => by
    refine ⟨p, ?_⟩
    have htext : itemsText [p] = p.text := by simp [itemsText]
    rw [htext, parseLoop_item p rest i ad (by simpa using hroom), pushAll_cons]
    simp [AtcmdData.pushAll, record]
  | q :: ps, p, i, ad, hroom => by
    simp only [List.length_cons] at hroom
    obtain ⟨last, hlast⟩ := parseLoop_items rest ps q (i + p.text.length + 1) (ad.push p.type i)
      (by simp only [push_paramCount, List.length_cons]; omega)
    refine ⟨last, ?_⟩
    rw [itemsText_cons_cons, List.append_assoc, parseLoop_item p _ i ad (by omega),
      List.cons_append, parseLoop_comma, hlast, pushAll_cons ad i p]
    simp only [List.length_append, List.length_cons]
    congr 1; omega

/-- What lies before the next item: each item and its comma. -/
def before (ps : List Item) : List UInt8 := ps.flatMap fun p => p.text ++ [charComma]

theorem itemsText_comma (rest : List UInt8) : ∀ (p : Item) (ps : List Item),
    itemsText (p :: ps) ++ charComma :: rest = before (p :: ps) ++ rest
  | p, [] => by simp [itemsText, before]
  | p, q :: ps => by
    have ih := itemsText_comma rest q ps
    simp only [before, List.flatMap_cons, List.append_assoc] at ih ⊢
    rw [itemsText_cons_cons, List.append_assoc, List.cons_append, ih]
    simp

/-- The next item behind 16 others is stored outside. -/
theorem parseLoop_before {c : UInt8} (hc : isFront c = true) (rest : List UInt8) :
    ∀ (ps : List Item) (i : ℕ) (ad : AtcmdData), ad.paramCount + ps.length = atcmdParams →
      parseLoop i (before ps ++ c :: rest) .startparse ad = none
  | [], i, ad, hfull => by
    have hroom : ¬ad.paramCount < atcmdParams := by simp at hfull; omega
    simp [before, parseLoop, parseChar_front hc, hroom]
  | p :: ps, i, ad, hfull => by
    simp only [List.length_cons] at hfull
    have ih := parseLoop_before hc rest ps (i + p.text.length + 1) (ad.push p.type i)
      (by rw [push_paramCount]; omega)
    simp only [before, List.flatMap_cons, List.append_assoc] at ih ⊢
    rw [parseLoop_item p _ i ad (by omega), List.singleton_append, parseLoop_comma, ih]

/-! ### What the parser finds where it looks for an item -/

theorem split_while (p : UInt8 → Bool) (cs : List UInt8) :
    ∃ front rest, cs = front ++ rest ∧ (∀ c ∈ front, p c = true) ∧
      ∀ c rest', rest = c :: rest' → p c = false := by
  refine ⟨cs.takeWhile p, cs.dropWhile p, List.takeWhile_append_dropWhile.symm,
    fun c hc => List.mem_takeWhile_imp hc, ?_⟩
  intro c rest' h
  have := List.head?_dropWhile_not p cs
  rw [h] at this
  simpa using this

/-- What follows an item `p` if the parser goes on behind it. -/
def Follows (rest : List UInt8) : Prop := Ends rest ∨ ∃ rest', rest = charComma :: rest'

theorem follows_or_bad (p : Item) {rest : List UInt8} (hnul : 0 ∉ rest)
    (hdigit : p.type = .integer → ∀ c rest', rest = c :: rest' → isDigit c = false) (i : ℕ)
    (ad : AtcmdData) :
    Follows rest ∨ parseLoop i (rest ++ [0]) p.after ad = some (-1, ad) := by
  cases rest with
  | nil => exact .inl (.inl (.inl rfl))
  | cons c rest =>
    rcases Decidable.em (c = charComma) with rfl | hcomma
    · exact .inl (.inr ⟨rest, rfl⟩)
    rcases Decidable.em (c = charCr) with rfl | hcr
    · exact .inl (.inl (.inr ⟨rest, rfl⟩))
    have hc0 : c ≠ 0 := fun e => hnul (by simp [e])
    refine .inr (parseLoop_bad p hcomma (by simp [hcr, hc0]) ?_ _ i ad)
    intro hp
    exact hdigit hp c rest rfl

/-- Where an item may start, an item stands that the parser can go on behind, or it fails. -/
theorem item_cases {c : UInt8} {cs : List UInt8} (hc : isFront c = true) (hnul : 0 ∉ c :: cs)
    (i : ℕ) (ad : AtcmdData) (hroom : ad.paramCount < atcmdParams) :
    (∃ (p : Item) (rest : List UInt8), c :: cs = p.text ++ rest ∧ Follows rest) ∨
      ∃ ad', parseLoop i (c :: cs ++ [0]) .startparse ad = some (-1, ad') := by
  -- an item that starts here and takes in all it can
  have key : ∀ (p : Item) (rest : List UInt8), c :: cs = p.text ++ rest →
      (p.type = .integer → ∀ d rest', rest = d :: rest' → isDigit d = false) →
      (∃ (p : Item) (rest : List UInt8), c :: cs = p.text ++ rest ∧ Follows rest) ∨
        ∃ ad', parseLoop i (c :: cs ++ [0]) .startparse ad = some (-1, ad') := by
    intro p rest htext hdigit
    have hnul' : 0 ∉ rest := fun h => hnul (by rw [htext]; simp [h])
    rcases follows_or_bad p hnul' hdigit (i + p.text.length) (ad.push p.type i) with h | h
    · exact .inl ⟨p, rest, htext, h⟩
    · refine .inr ⟨ad.push p.type i, ?_⟩
      rw [htext, List.append_assoc, parseLoop_item p _ i ad hroom, h]
  rcases Decidable.em (c = charQuote) with rfl | hquote
  · rcases Decidable.em (charQuote ∈ cs) with hq | hq
    · obtain ⟨body, rest, rfl, hbody⟩ := List.eq_append_cons_of_mem hq
      exact key (.string body hbody) rest (by simp [Item.text]) (by simp [Item.type])
    · -- the string is not closed
      refine .inr ⟨ad.push .string i, ?_⟩
      simp only [List.cons_append, parseLoop, parseChar_front hc, hroom, if_true]
      rw [parseLoop_body _ _ cs _ hq]
      simp [parseLoop, parseChar, charQuote]
  · have hdigit : isDigit c = true := by simpa [isFront, hquote] using hc
    obtain ⟨ds, rest, hcs, hds, hrest⟩ := split_while isDigit cs
    refine key (.integer (c :: ds) (by simp) ?_) rest (by simp [Item.text, hcs]) fun _ => hrest
    intro d hd
    rcases List.mem_cons.1 hd with rfl | hd
    · exact hdigit
    · exact hds d hd

/-- Where an item is looked for, there is a list of items with an end behind it, or 16 items and
    the start of another, or the parser fails. -/
theorem items_cases (n : ℕ) : ∀ (cs : List UInt8), cs.length ≤ n → 0 ∉ cs → ∀ (i : ℕ)
    (ad : AtcmdData), ad.paramCount ≤ atcmdParams →
    (∃ (p : Item) (ps : List Item) (tail : List UInt8), cs = itemsText (p :: ps) ++ tail ∧
      Ends tail ∧ ad.paramCount + (p :: ps).length ≤ atcmdParams) ∨
    (∃ (ps : List Item) (c : UInt8) (rest : List UInt8), cs = before ps ++ c :: rest ∧
      isFront c = true ∧ ad.paramCount + ps.length = atcmdParams) ∨
    ∃ ad', parseLoop i (cs ++ [0]) .startparse ad = some (-1, ad') := by
  induction n with
  | zero =>
    intro cs hn _ i ad _
    obtain rfl : cs = [] := List.length_eq_zero_iff.1 (by omega)
    exact .inr (.inr ⟨ad, by simp [parseLoop, parseChar_not_front (show isFront 0 = false by decide)]⟩)
  | succ n ih =>
    intro cs hn hnul i ad hcount
    cases cs with
    | nil =>
      exact .inr (.inr ⟨ad, by
        simp [parseLoop, parseChar_not_front (show isFront 0 = false by decide)]⟩)
    | cons c cs =>
    cases hc : isFront c with
    | false => exact .inr (.inr ⟨ad, by simp [parseLoop, parseChar_not_front hc]⟩)
    | true =>
    rcases Nat.lt_or_ge ad.paramCount atcmdParams with hroom | hfull
    · rcases item_cases hc hnul i ad hroom with ⟨p, rest, htext, hrest | ⟨rest, rfl⟩⟩ | hbad
      · exact .inl ⟨p, [], rest, by simpa [itemsText] using htext, hrest, by simp; omega⟩
      · -- another item has to follow
        obtain ⟨d, r, hd, -⟩ := p.text_cons
        have hlen : rest.length ≤ n := by
          have := congrArg List.length htext
          simp only [hd, List.length_cons, List.cons_append, List.length_append] at this hn
          omega
        have hnul' : 0 ∉ rest := fun h => hnul (by rw [htext]; simp [h])
        have hstep : parseLoop i (c :: cs ++ [0]) .startparse ad =
            parseLoop (i + p.text.length + 1) (rest ++ [0]) .startparse (ad.push p.type i) := by
          rw [htext, List.append_assoc, parseLoop_item p _ i ad hroom, List.cons_append,
            parseLoop_comma]
        rcases ih rest hlen hnul' (i + p.text.length + 1) (ad.push p.type i)
          (by rw [push_paramCount]; omega) with
          ⟨q, ps, tail, hrest, htail, hcnt⟩ | ⟨ps, e, r, hrest, he, hcnt⟩ | ⟨ad', hbad⟩
        · refine .inl ⟨p, q :: ps, tail, ?_, htail, ?_⟩
          · rw [htext, hrest, itemsText_cons_cons]; simp
          · simp only [push_paramCount, List.length_cons] at hcnt ⊢; omega
        · refine .inr (.inl ⟨p :: ps, e, r, ?_, he, ?_⟩)
          · rw [htext, hrest]; simp [before]
          · simp only [push_paramCount, List.length_cons] at hcnt ⊢; omega
        · exact .inr (.inr ⟨ad', by rw [hstep, hbad]⟩)
      · exact .inr (.inr hbad)
    · exact .inr (.inl ⟨[], c, cs, rfl, hc, by simp; omega⟩)

/-! ### Prefix and name -/

theorem upper_plain {c : UInt8} (h : isUpper c = true) :
    c ≠ charEqual ∧ c ≠ charCr ∧ c ≠ 0 := by
  refine ⟨?_, ?_, ?_⟩ <;> · rintro rfl; exact absurd h (by decide)

/-- A name of up to 14 letters is stored. -/
theorem parseLoop_name (rest : List UInt8) :
    ∀ (name : List UInt8) (i : ℕ) (ad : AtcmdData), (∀ c ∈ name, isUpper c = true) →
      ad.name.length + name.length ≤ 14 →
      parseLoop i (name ++ rest) .recvPlus ad =
        parseLoop (i + name.length) rest .recvPlus { ad with name := ad.name ++ name }
  | [], i, ad, _, _ => by simp
  | c :: name, i, ad, hup, hlen => by
    simp only [List.length_cons] at hlen
    have h1 : ad.name.length < atcmdNameLength := by simp only [atcmdNameLength]; omega
    have h2 : ¬atcmdNameLength - 1 ≤ ad.name.length + 1 := by simp only [atcmdNameLength]; omega
    simp only [List.cons_append, parseLoop, parseChar, hup c (by simp), if_true, appendName, h1,
      List.length_append, List.length_cons, List.length_nil, Nat.zero_add, h2, if_false]
    rw [parseLoop_name rest name (i + 1) _ (fun d hd => hup d (by simp [hd]))
      (by simp only [List.length_append, List.length_singleton]; omega)]
    simp only [List.append_assoc, List.singleton_append]
    congr 1; omega

/-- A longer one is refused at its 15th letter. -/
theorem parseLoop_name_long (rest : List UInt8) :
    ∀ (name : List UInt8) (i : ℕ) (ad : AtcmdData), (∀ c ∈ name, isUpper c = true) →
      ad.name.length ≤ 14 → 14 < ad.name.length + name.length →
      ∃ ad', parseLoop i (name ++ rest) .recvPlus ad = some (-1, ad')
  | [], i, ad, _, h14, hlen => by simp at hlen; omega
  | c :: name, i, ad, hup, h14, hlen => by
    have h1 : ad.name.length < atcmdNameLength := by simp only [atcmdNameLength]; omega
    simp only [List.cons_append, parseLoop, parseChar, hup c (by simp), if_true, appendName, h1,
      List.length_append, List.length_cons, List.length_nil, Nat.zero_add]
    rcases Nat.lt_or_ge ad.name.length 14 with hlt | hge
    · have h2 : ¬atcmdNameLength - 1 ≤ ad.name.length + 1 := by
        simp only [atcmdNameLength]; omega
      simp only [h2, if_false]
      refine parseLoop_name_long rest name (i + 1) _ (fun d hd => hup d (by simp [hd])) ?_ ?_
      · simp only [List.length_append, List.length_singleton]; omega
      · simp only [List.length_append, List.length_cons] at hlen ⊢; omega
    · have h2 : atcmdNameLength - 1 ≤ ad.name.length + 1 := by simp only [atcmdNameLength]; omega
      refine ⟨{ ad with name := ad.name ++ [c] }, ?_⟩
      simp only [h2, if_true]

/-- What a command starts with. -/
def prefixText (hasAt : Bool) : List UInt8 :=
  if hasAt then [charA, charT, charPlus] else [charPlus]

theorem parseLoop_prefix (hasAt : Bool) (rest : List UInt8) :
    parseLoop 0 (prefixText hasAt ++ rest) .init ⟨[], []⟩ =
      parseLoop (prefixText hasAt).length rest .recvPlus ⟨[], []⟩ := by
  cases hasAt <;> rfl

/-- A string without the prefix is refused. -/
theorem prefix_cases (cs : List UInt8) :
    (∃ b rest, cs = prefixText b ++ rest) ∨
      parseLoop 0 (cs ++ [0]) .init ⟨[], []⟩ = some (-1, ⟨[], []⟩) := by
  obtain ⟨hA, hT, hP⟩ : (0 : UInt8) ≠ charA ∧ (0 : UInt8) ≠ charT ∧ (0 : UInt8) ≠ charPlus := by
    decide
  cases cs with
  | nil => exact .inr (by simp [parseLoop, parseChar, hA, hP])
  | cons c cs =>
  rcases Decidable.em (c = charPlus) with rfl | hplus
  · exact .inl ⟨false, cs, rfl⟩
  rcases Decidable.em (c = charA) with rfl | ha
  · cases cs with
    | nil => exact .inr (by simp [parseLoop, parseChar, hT])
    | cons c cs =>
    rcases Decidable.em (c = charT) with rfl | ht
    · cases cs with
      | nil => exact .inr (by simp [parseLoop, parseChar, hP])
      | cons c cs =>
      rcases Decidable.em (c = charPlus) with rfl | hp
      · exact .inl ⟨true, cs, rfl⟩
      · exact .inr (by simp [parseLoop, parseChar, hp])
    · exact .inr (by simp [parseLoop, parseChar, ht])
  · exact .inr (by simp [parseLoop, parseChar, hplus, ha])

/-! ### Commands -/

theorem Command.start_eq (cmd : Command) : cmd.start = prefixText cmd.hasAt ++ cmd.name := rfl

/-- The parser reads prefix and name of a command. -/
theorem parseLoop_start (cmd : Command) (rest : List UInt8) :
    parseLoop 0 (cmd.start ++ rest) .init ⟨[], []⟩ =
      parseLoop cmd.start.length rest .recvPlus ⟨cmd.name, []⟩ := by
  rw [cmd.start_eq, List.append_assoc, parseLoop_prefix,
    parseLoop_name rest cmd.name _ _ cmd.upper (by simpa using cmd.short)]
  simp

/-- The parser accepts a command with parameters. -/
theorem parseLoop_command {cmd : Command} {p : Item} {ps : List Item} (hps : cmd.params = p :: ps)
    {tail : List UInt8} (ht : Ends tail) :
    parseLoop 0 (cmd.text ++ tail ++ [0]) .init ⟨[], []⟩ = some (0, cmd.data) := by
  obtain ⟨c, rest, hrest, hc⟩ := ends_cons ht
  have hequal : isUpper charEqual = false := by decide
  rw [Command.text, hps, if_neg (by simp), List.append_assoc, List.append_assoc, hrest,
    parseLoop_start]
  simp only [List.cons_append, parseLoop, parseChar, hequal, Bool.false_eq_true, if_false, if_true]
  obtain ⟨q, hq⟩ := parseLoop_items (c :: rest) ps p (cmd.start.length + 1) ⟨cmd.name, []⟩
    (by simpa [AtcmdData.paramCount, atcmdParams, hps] using cmd.few)
  rw [hq, parseLoop_end q hc]
  simp [AtcmdData.pushAll, Command.data, hps]

/-- The parser accepts a command without parameters that a CR ends. -/
theorem parseLoop_bare_cr {cmd : Command} (hps : cmd.params = []) (rest : List UInt8) :
    parseLoop 0 (cmd.text ++ charCr :: rest ++ [0]) .init ⟨[], []⟩ = some (0, cmd.data) := by
  have hcr : isUpper charCr = false := by decide
  have hne : charCr ≠ charEqual := by decide
  rw [Command.text, hps, if_pos rfl, List.append_nil, List.append_assoc, parseLoop_start]
  simp only [List.cons_append, parseLoop, parseChar, hcr, hne, Bool.false_eq_true, if_false,
    true_or, if_true]
  -- any next character, the NUL at the latest, is read in `PARSE_END`
  cases rest <;> simp [parseLoop, parseChar, Command.data, hps, record]

/-- The parser refuses a command without parameters that the string ends: it gets to `PARSE_END`
    with the NUL, and there is no character left to return 0 at. -/
theorem parseLoop_bare_nul {cmd : Command} (hps : cmd.params = []) :
    parseLoop 0 (cmd.text ++ [0]) .init ⟨[], []⟩ = some (-1, cmd.data) := by
  have hup : isUpper 0 = false := by decide
  have hne : (0 : UInt8) ≠ charEqual := by decide
  rw [Command.text, hps, if_pos rfl, List.append_nil, parseLoop_start]
  simp [parseLoop, parseChar, hup, hne, Command.data, hps, record]

/-- Behind 16 parameters, the start of another is stored outside. -/
theorem parseLoop_overrun {cmd : Command} (hps : cmd.params.length = atcmdParams) {c : UInt8}
    (hc : isFront c = true) (rest : List UInt8) :
    parseLoop 0 (cmd.text ++ charComma :: c :: rest ++ [0]) .init ⟨[], []⟩ = none := by
  have hequal : isUpper charEqual = false := by decide
  cases hcmd : cmd.params with
  | nil => simp [hcmd, atcmdParams] at hps
  | cons p ps =>
    rw [Command.text, hcmd, if_neg (by simp), List.append_assoc, List.append_assoc,
      List.cons_append, List.cons_append, List.cons_append, parseLoop_start]
    simp only [parseLoop, parseChar, hequal, Bool.false_eq_true, if_false, if_true]
    rw [itemsText_comma, parseLoop_before hc]
    simpa [AtcmdData.paramCount, hcmd] using hps

/-! ### Which strings are accepted -/

/-- A command with neither parameters nor a CR. -/
def Bare (s : CStr) : Prop := ∃ cmd : Command, cmd.params = [] ∧ s.chars = cmd.text

/-- A command with 16 parameters and the start of another behind them. -/
def Overruns (s : CStr) : Prop :=
  ∃ (cmd : Command) (c : UInt8) (rest : List UInt8), cmd.params.length = atcmdParams ∧
    isFront c = true ∧ s.chars = cmd.text ++ charComma :: c :: rest

/-- A string is a command, or starts a 17th parameter, or is refused. -/
theorem parse_cases (s : CStr) :
    (∃ cmd tail, Ends tail ∧ s.chars = Command.text cmd ++ tail) ∨ Overruns s ∨
      ∃ ad, parseAtCmdString s = some (-1, ad) := by
  obtain ⟨cs, hnul⟩ := s
  rcases prefix_cases cs with ⟨b, cs', rfl⟩ | hbad
  swap
  · exact .inr (.inr ⟨_, hbad⟩)
  obtain ⟨name, rest, rfl, hname, hrest⟩ := split_while isUpper cs'
  rcases Nat.lt_or_ge 14 name.length with hlong | hshort
  · obtain ⟨ad, had⟩ := parseLoop_name_long (rest ++ [0]) name (prefixText b).length ⟨[], []⟩ hname
      (by simp) (by simpa using hlong)
    refine .inr (.inr ⟨ad, ?_⟩)
    rw [parseAtCmdString, List.append_assoc, List.append_assoc, parseLoop_prefix, had]
  cases rest with
  | nil => exact .inl ⟨⟨b, name, hname, hshort, [], by simp⟩, [], .inl rfl, by
      simp [Command.text, Command.start_eq]⟩
  | cons c rest =>
  have hup : isUpper c = false := hrest c rest rfl
  have hc0 : c ≠ 0 := fun e => hnul (by simp [e])
  rcases Decidable.em (c = charCr) with rfl | hcr
  · exact .inl ⟨⟨b, name, hname, hshort, [], by simp⟩, charCr :: rest, .inr ⟨rest, rfl⟩, by
      simp [Command.text, Command.start_eq]⟩
  -- the parser gets to the character behind the name
  have hstart : ∀ tail, parseLoop 0 (prefixText b ++ (name ++ c :: rest) ++ tail) .init ⟨[], []⟩ =
      parseLoop (prefixText b ++ name).length (c :: rest ++ tail) .recvPlus ⟨name, []⟩ := by
    intro tail
    have h := parseLoop_start ⟨b, name, hname, hshort, [], by simp⟩ (c :: rest ++ tail)
    rw [Command.start_eq] at h
    simpa using h
  rcases Decidable.em (c = charEqual) with rfl | heq
  swap
  · refine .inr (.inr ⟨⟨name, []⟩, ?_⟩)
    rw [parseAtCmdString, hstart]
    simp [parseLoop, parseChar, hup, hcr, hc0, heq]
  rcases items_cases rest.length rest le_rfl (fun h => hnul (by simp [h]))
    ((prefixText b ++ name).length + 1) ⟨name, []⟩ (by simp [AtcmdData.paramCount]) with
    ⟨p, ps, tail, htext, htail, hcnt⟩ | ⟨ps, d, r, htext, hd, hcnt⟩ | ⟨ad, hbad⟩
  · refine .inl ⟨⟨b, name, hname, hshort, p :: ps, by
      simpa [AtcmdData.paramCount, atcmdParams] using hcnt⟩, tail, htail, ?_⟩
    simp [Command.text, Command.start_eq, htext]
  · have hlen : ps.length = atcmdParams := by simpa [AtcmdData.paramCount] using hcnt
    cases ps with
    | nil => simp [atcmdParams] at hlen
    | cons p ps =>
      refine .inr (.inl ⟨⟨b, name, hname, hshort, p :: ps, hlen.le⟩, d, r, hlen, hd, ?_⟩)
      rw [← itemsText_comma] at htext
      simp [Command.text, Command.start_eq, htext]
  · refine .inr (.inr ⟨ad, ?_⟩)
    rw [parseAtCmdString, hstart]
    simpa [parseLoop, parseChar, hup] using hbad

/-- What the parser does with a command. -/
theorem parse_command {s : CStr} {cmd : Command} {tail : List UInt8} (ht : Ends tail)
    (hs : s.chars = cmd.text ++ tail) (hbare : ¬Bare s) :
    parseAtCmdString s = some (0, cmd.data) := by
  rw [parseAtCmdString, hs]
  cases hps : cmd.params with
  | cons p ps => exact parseLoop_command hps ht
  | nil =>
    rcases ht with rfl | ⟨rest, rfl⟩
    · exact absurd ⟨cmd, hps, by simpa using hs⟩ hbare
    · exact parseLoop_bare_cr hps rest

theorem parse_bare {s : CStr} (h : Bare s) : ∃ ad, parseAtCmdString s = some (-1, ad) := by
  obtain ⟨cmd, hps, hs⟩ := h
  exact ⟨cmd.data, by rw [parseAtCmdString, hs, parseLoop_bare_nul hps]⟩

theorem parse_overruns {s : CStr} (h : Overruns s) : parseAtCmdString s = none := by
  obtain ⟨cmd, c, rest, hps, hc, hs⟩ := h
  rw [parseAtCmdString, hs, parseLoop_overrun hps hc]

/-- But for a 17th parameter, the parser returns. -/
theorem parse_returns {s : CStr} (h : ¬Overruns s) :
    ∃ ad, parseAtCmdString s = some (0, ad) ∨ parseAtCmdString s = some (-1, ad) := by
  rcases parse_cases s with ⟨cmd, tail, ht, hs⟩ | hover | ⟨ad, had⟩
  · rcases Classical.em (Bare s) with hbare | hbare
    · obtain ⟨ad, had⟩ := parse_bare hbare
      exact ⟨ad, .inr had⟩
    · exact ⟨cmd.data, .inl (parse_command ht hs hbare)⟩
  · exact absurd hover h
  · exact ⟨ad, .inr had⟩

/-- The parser succeeds on the commands, and on nothing else, and records what they say. -/
def Correct (s : CStr) : Prop :=
  (∀ cmd tail, Ends tail → s.chars = Command.text cmd ++ tail →
    parseAtCmdString s = some (0, cmd.data)) ∧
  ((∀ cmd tail, Ends tail → s.chars ≠ Command.text cmd ++ tail) →
    ∃ ad, parseAtCmdString s = some (-1, ad))

/-- CORRECT: the parser is right about a string iff the string is no command without parameters and
    without CR, and has no 17th parameter. -/
theorem correct_iff (s : CStr) : Correct s ↔ ¬Bare s ∧ ¬Overruns s := by
  constructor
  · rintro ⟨haccept, hrefuse⟩
    constructor
    · intro hbare
      obtain ⟨ad, had⟩ := parse_bare hbare
      obtain ⟨cmd, -, hs⟩ := hbare
      have := haccept cmd [] (.inl rfl) (by simpa using hs)
      simp [had] at this
    · intro hover
      have hnone := parse_overruns hover
      rcases Classical.em (∃ cmd tail, Ends tail ∧ s.chars = Command.text cmd ++ tail) with
        ⟨cmd, tail, ht, hs⟩ | hno
      · have := haccept cmd tail ht hs
        simp [hnone] at this
      · obtain ⟨ad, had⟩ := hrefuse fun cmd tail ht hs => hno ⟨cmd, tail, ht, hs⟩
        simp [hnone] at had
  · rintro ⟨hbare, hover⟩
    refine ⟨fun cmd tail ht hs => parse_command ht hs hbare, fun hno => ?_⟩
    rcases parse_cases s with ⟨cmd, tail, ht, hs⟩ | h | h
    · exact absurd hs (hno cmd tail ht)
    · exact absurd h hover
    · exact h

/-- "AT+A" is a command, and is refused. -/
theorem bare_refused : ¬Correct ⟨[charA, charT, charPlus, charA], by decide⟩ := by
  rintro ⟨haccept, -⟩
  have hup : isUpper charA = true := by decide
  let cmd : Command := ⟨true, [charA], by simp [hup], by simp, [], by simp⟩
  have htext : [charA, charT, charPlus, charA] = cmd.text := by
    simp [cmd, Command.text, Command.start]
  obtain ⟨ad, had⟩ := @parse_bare ⟨[charA, charT, charPlus, charA], by decide⟩ ⟨cmd, rfl, htext⟩
  have h := haccept cmd [] (.inl rfl) (by simpa using htext)
  simp [had] at h

/-! ### Bounds -/

/-- What has been stored fits into the arrays. -/
def Fits (ad : AtcmdData) : Prop :=
  ad.paramCount ≤ atcmdParams ∧ ad.name.length ≤ atcmdNameLength

/-- What has been stored when a character is done. -/
def Outcome.Fits : Outcome → Prop
  | go _ ad => AtParse.Fits ad
  | ret _ ad => AtParse.Fits ad
  | overrun => True

theorem appendParam_fits {ad : AtcmdData} (h : Fits ad) (type : ParamType) (pos : ℕ)
    (status : Status) : (appendParam ad type pos status).Fits := by
  simp only [appendParam]
  split
  · next hroom => exact ⟨by simpa [AtcmdData.paramCount] using hroom, h.2⟩
  · trivial

theorem appendName_fits {ad : AtcmdData} (h : Fits ad) (c : UInt8) {next : AtcmdData → Outcome}
    (hnext : ∀ ad', Fits ad' → (next ad').Fits) : (appendName ad c next).Fits := by
  simp only [appendName]
  split
  · next hroom => exact hnext _ ⟨h.1, by simpa using hroom⟩
  · trivial

/-- A character leaves the bounds as they are, in every state of the parser. -/
theorem parseChar_fits {ad : AtcmdData} (h : Fits ad) (i : ℕ) (c : UInt8) (status : Status) :
    (parseChar i c ad status).Fits := by
  cases status with
  | recvPlus =>
    simp only [parseChar]
    split
    · refine appendName_fits h c fun ad' h' => ?_
      split <;> exact h'
    · split
      · exact h
      · split <;> exact h
  | startparse =>
    simp only [parseChar]
    split
    · exact appendParam_fits h ..
    · split
      · exact appendParam_fits h ..
      · exact h
  | parseEnd => exact h
  | parseString => simp only [parseChar]; split <;> exact h
  | recvA => simp only [parseChar]; split <;> exact h
  | recvT => simp only [parseChar]; split <;> exact h
  | init => simp only [parseChar]; split <;> [exact h; split <;> exact h]
  | parseStringEnd => simp only [parseChar]; split <;> [exact h; split <;> exact h]
  | parseInt =>
    simp only [parseChar]
    split
    · exact h
    · split
      · exact h
      · split <;> exact h

/-- So what a whole string stores fits. -/
theorem parseLoop_fits : ∀ (cs : List UInt8) (i : ℕ) (status : Status) (ad : AtcmdData), Fits ad →
    ∀ {r ad'}, parseLoop i cs status ad = some (r, ad') → Fits ad'
  | [], _, _, ad, h, r, ad', he => by
    simp only [parseLoop, Option.some.injEq, Prod.mk.injEq] at he
    exact he.2 ▸ h
  | c :: cs, i, status, ad, h, r, ad', he => by
    have hc := parseChar_fits h i c status
    rw [parseLoop] at he
    split at he
    · next status' ad'' hgo =>
      rw [hgo] at hc
      exact parseLoop_fits cs _ _ _ hc he
    · next r' ad'' hret =>
      rw [hret] at hc
      simp only [Option.some.injEq, Prod.mk.injEq] at he
      exact he.2 ▸ hc
    · simp at he

/-- The parser returns, without a store outside the arrays, and at most 16 parameters. -/
def Bounded (s : CStr) : Prop := ∃ r ad, parseAtCmdString s = some (r, ad) ∧ Fits ad

/-- CORRECT: the parser stays in bounds iff the string has no 17th parameter. -/
theorem bounded_iff (s : CStr) : Bounded s ↔ ¬Overruns s := by
  constructor
  · rintro ⟨r, ad, hparse, -⟩ hover
    simp [parse_overruns hover] at hparse
  · intro hover
    obtain ⟨r, ad, hparse⟩ : ∃ r ad, parseAtCmdString s = some (r, ad) := by
      obtain ⟨ad, had | had⟩ := parse_returns hover
      · exact ⟨0, ad, had⟩
      · exact ⟨-1, ad, had⟩
    exact ⟨r, ad, hparse, parseLoop_fits _ _ _ _ (by simp [Fits, AtcmdData.paramCount]) hparse⟩

/-- "+=0,0,0,0,0,0,0,0,0,0,0,0,0,0,0,0,0" has 17 parameters. -/
theorem seventeenth_stored_outside :
    ¬Bounded ⟨charPlus :: charEqual :: 48 :: (List.replicate 16 [charComma, 48]).flatten, by decide⟩ := by
  have hdigit : isDigit 48 = true := by decide
  let item : Item := .integer [48] (by simp) (by simp [hdigit])
  let cmd : Command := ⟨false, [], by simp, by simp, List.replicate 16 item, by simp⟩
  rintro ⟨r, ad, hparse, -⟩
  rw [parse_overruns ⟨cmd, 48, [], by simp [cmd, atcmdParams], by decide, ?_⟩] at hparse
  · simp at hparse
  · simp [cmd, Command.text, Command.start, itemsText, item, Item.text, List.replicate,
      List.intercalate]

end EasyCore.AtParse
