import EasyCore.Lib.Hex
import EasyCore.Lib.Stores
import EasyCore.App.AtParse

/-! Bytes as hexadecimal text and back (`easyio_core/conv_hex_str.c`). Both functions are modelled
    by what they store: the printer stores a NUL behind each pair of digits, the scanner a whole
    `unsigned int` for each pair.

        BufferToHex    0 A NUL
                           F F NUL
        HexToBuffer    0A 0 0 0
                          FF 0 0 0 -/

namespace EasyCore.ConvHexStr
open Hex Stores AtParse

/-- What an argument `outlen` can be, of type `short`. -/
abbrev Capacity := Fin (2 ^ 15)

/-- `inbuf`, with `inbuf_len` its length. -/
structure Inbuf where
  bytes : List UInt8
  fits : bytes.length < 2 ^ 15

/-- What a variable of type `short` gets. -/
def short (n : ℤ) : ℤ := Int.bmod n (2 ^ 16)

/-- The loop of `BufferToHex`, from `outlen_index` on; `snprintf` stores two digits and a NUL. -/
def hexLoop (outlen : ℤ) : List UInt8 → ℤ → List (ℤ × UInt8)
  | [], _ => []
  | x :: xs, outlenIndex =>
    place outlenIndex (pair x ++ [0]) ++
      if outlen ≤ short (outlenIndex + 2) then [] else hexLoop outlen xs (short (outlenIndex + 2))

/-- `BufferToHex`: the stores of `memset`, then those of the loop. -/
def bufferToHex (inbuf : Inbuf) (outlen : Capacity) : List (ℤ × UInt8) :=
  place 0 (List.replicate outlen 0) ++ hexLoop outlen inbuf.bytes 0

/-- What `sscanf(tstr, "%02X", …)` stores: it skips white space, takes a sign and then digits, two
    characters at most. It stores nothing if no digit is there, `0x` being the start of a number. -/
def sscanfHex (tstr : List UInt8) : Option ℕ :=
  let item := tstr.dropWhile isSpace
  let negative := item.head? = some 45
  let item := if item.head? = some 45 ∨ item.head? = some charPlus then item.tail else item
  let ds := item.takeWhile isHexDigit
  if ds = [] ∨ item = [48, 120] ∨ item = [48, 88] then none
  else some (if negative then (2 ^ 32 - value ds) % 2 ^ 32 else value ds)

/-- An `unsigned int` in memory, the lowest byte first. -/
def wordBytes (v : ℕ) : List UInt8 :=
  [UInt8.ofNat v, UInt8.ofNat (v / 2 ^ 8), UInt8.ofNat (v / 2 ^ 16), UInt8.ofNat (v / 2 ^ 24)]

/-- What one round of `HexToBuffer` stores at `out[out_index]`. -/
def scanStores (outIndex : ℕ) (tstr : List UInt8) : List (ℤ × UInt8) :=
  match sscanfHex tstr with
  | none => []
  | some v => place outIndex (wordBytes v)

/-- The loop of `HexToBuffer`: what it returns and what it stores. -/
def scanLoop (outlen : ℕ) : ℕ → List UInt8 → ℤ × List (ℤ × UInt8)
  | outIndex, c :: c' :: cs =>
    if outIndex + 1 = outlen then ((outIndex : ℤ) + 1, scanStores outIndex [c, c'])
    else
      let r := scanLoop outlen (outIndex + 1) cs
      (r.1, scanStores outIndex [c, c'] ++ r.2)
  | outIndex, _ => (outIndex, [])

/-- `hexstrlen`: what `strlen` returns, as a `short`. -/
def hexstrlen (hexstr : CStr) : ℤ := short hexstr.chars.length

/-- `HexToBuffer`. -/
def hexToBuffer (hexstr : CStr) (outlen : Capacity) : ℤ × List (ℤ × UInt8) :=
  if Int.tmod (hexstrlen hexstr) 2 ≠ 0 then (-1, [])
  else scanLoop outlen 0 (hexstr.chars.take (hexstrlen hexstr).toNat)

/-- The string that begins a buffer, if the buffer has a NUL. -/
def cstring (bytes : List UInt8) : Option CStr :=
  if 0 ∈ bytes then
    some ⟨bytes.takeWhile (· ≠ 0), fun h => by simpa using List.mem_takeWhile_imp h⟩
  else none

/-- The transport works on these arguments: what `BufferToHex` writes for `inbuf` is read back, and
    each function stores inside its own buffer. -/
structure Transports (inbuf : Inbuf) (outlen : Capacity) (hexstr : CStr) (outlen' : Capacity) :
    Prop where
  roundTrip : 2 * inbuf.bytes.length + 1 ≤ outlen →
    ∀ (mem mem' : ℤ → UInt8) (cap : Capacity), inbuf.bytes.length ≤ cap →
    ∃ s, cstring (contents (after mem (bufferToHex inbuf outlen)) outlen) = some s ∧
      (hexToBuffer s cap).1 = inbuf.bytes.length ∧
      contents (after mem' (hexToBuffer s cap).2) inbuf.bytes.length = inbuf.bytes
  encodes : Inside outlen (bufferToHex inbuf outlen)
  decodes : Inside outlen' (hexToBuffer hexstr outlen').2

/-- How many pairs `HexToBuffer` scans: it stops when `out` is full, which it does not see when
    `outlen` is 0. -/
def rounds (outlen outIndex pairs : ℕ) : ℕ :=
  if outlen ≤ outIndex then pairs else min pairs (outlen - outIndex)

def scanned (hexstr : CStr) (outlen : Capacity) : ℕ :=
  if Int.tmod (hexstrlen hexstr) 2 ≠ 0 then 0
  else rounds outlen 0 ((hexstrlen hexstr).toNat / 2)

/-! ### The printer -/

theorem short_of_lt {n : ℕ} (h : n < 2 ^ 15) : short n = n := by
  rw [short, Int.bmod_def]
  omega

def text (xs : List UInt8) : List UInt8 := xs.flatMap pair

theorem text_length (xs : List UInt8) : (text xs).length = 2 * xs.length := by
  induction xs with
  | nil => rfl
  | cons x xs ih =>
    simp only [text, List.flatMap_cons, List.length_append, List.length_cons] at ih ⊢
    simp only [pair, List.length_cons, List.length_nil]
    omega

theorem isHexDigit_of_mem_text {xs : List UInt8} {c : UInt8} (h : c ∈ text xs) :
    isHexDigit c = true := by
  obtain ⟨x, _, hc⟩ := List.mem_flatMap.1 h
  exact isHexDigit_of_mem_pair hc

/-- Each round needs room for its NUL; with that room the index stays small. -/
theorem hexLoop_inside {outlen : ℕ} (hlt : outlen < 2 ^ 15) : ∀ (xs : List UInt8) (k : ℕ),
    Inside outlen (hexLoop outlen xs k) ↔ xs = [] ∨ k + 2 * xs.length + 1 ≤ outlen
  | [], _ => by simp [hexLoop]
  | x :: xs, k => by
    have hround : Inside outlen (place (k : ℤ) (pair x ++ [0])) ↔ k + 3 ≤ outlen := by
      rw [inside_place]
      simp only [pair, List.cons_append, List.nil_append, List.length_cons, List.length_nil,
        reduceCtorEq, false_or]
      omega
    rw [hexLoop, inside_append, hround]
    by_cases hroom : k + 3 ≤ outlen
    · have hshort : short ((k : ℤ) + 2) = ((k + 2 : ℕ) : ℤ) := by
        rw [← short_of_lt (n := k + 2) (by omega)]
        norm_cast
      rw [hshort, if_neg (by omega), hexLoop_inside hlt xs (k + 2)]
      simp only [List.length_cons, reduceCtorEq, false_or]
      constructor
      · rintro ⟨_, rfl | h⟩
        · rw [List.length_nil]
          omega
        · omega
      · intro h
        refine ⟨hroom, ?_⟩
        rcases xs with _ | ⟨y, ys⟩
        · exact .inl rfl
        · exact .inr (by omega)
    · simp only [List.length_cons, reduceCtorEq, false_or]
      omega

theorem bufferToHex_inside (inbuf : Inbuf) (outlen : Capacity) :
    Inside outlen (bufferToHex inbuf outlen) ↔
      inbuf.bytes = [] ∨ 2 * inbuf.bytes.length + 1 ≤ outlen := by
  have hset : Inside outlen (place 0 (List.replicate outlen (0 : UInt8))) := by
    rw [inside_place]
    simp
  have hloop := hexLoop_inside outlen.isLt inbuf.bytes 0
  rw [Nat.cast_zero, zero_add] at hloop
  rw [bufferToHex, inside_append, hloop]
  exact and_iff_right hset

/-- The NUL of a round is stored over by the next one. -/
theorem after_hexLoop {outlen : ℕ} (hlt : outlen < 2 ^ 15) : ∀ (x : UInt8) (xs : List UInt8) (k : ℕ)
    (mem : ℤ → UInt8), k + 2 * (xs.length + 1) + 1 ≤ outlen →
    after mem (hexLoop outlen (x :: xs) k) = after mem (place k (text (x :: xs) ++ [0]))
  | x, [], k, mem, _ => by
    simp only [hexLoop, ite_self, List.append_nil, text, List.flatMap_cons, List.flatMap_nil]
  | x, y :: ys, k, mem, hroom => by
    rw [List.length_cons] at hroom
    have hshort : short ((k : ℤ) + 2) = ((k + 2 : ℕ) : ℤ) := by
      rw [← short_of_lt (n := k + 2) (by omega)]
      norm_cast
    have hnext := after_hexLoop hlt y ys (k + 2) (after mem (place k (pair x ++ [0]))) (by omega)
    have htext : text (x :: y :: ys) = pair x ++ text (y :: ys) := by simp [text]
    rw [hexLoop, hshort, if_neg (by omega), after_append, hnext, htext, List.append_assoc,
      place_append _ (pair x) [0], place_append _ (pair x) (text (y :: ys) ++ [0]), after_append,
      after_append]
    have hpair : (k : ℤ) + (pair x).length = ((k + 2 : ℕ) : ℤ) := by simp [pair]
    rw [hpair]
    exact after_place_idem _ _ _ (by simp)

/-- The digits and a NUL are in the buffer. -/
theorem contents_bufferToHex (inbuf : Inbuf) (outlen : Capacity) (mem : ℤ → UInt8)
    (h : 2 * inbuf.bytes.length + 1 ≤ outlen) :
    contents (after mem (bufferToHex inbuf outlen)) (2 * inbuf.bytes.length + 1) =
      text inbuf.bytes ++ [0] := by
  rw [bufferToHex, after_append]
  rcases hbytes : inbuf.bytes with _ | ⟨x, xs⟩
  · obtain ⟨m, hm⟩ := Nat.exists_eq_add_of_le (Nat.le_trans (Nat.le_add_left 1 _) h)
    have hset := after_place_get mem 0 (List.replicate outlen (0 : UInt8)) (j := 0) (by simp; omega)
    simpa [contents, hexLoop, text, after] using hset
  · rw [hbytes, List.length_cons] at h
    have hloop := after_hexLoop outlen.isLt x xs 0 (after mem (place 0 (List.replicate outlen 0)))
      (by omega)
    have hlength : 2 * (x :: xs).length + 1 = (text (x :: xs) ++ [0]).length := by
      rw [List.length_append, text_length, List.length_singleton]
    rw [Nat.cast_zero] at hloop
    rw [hloop, hlength]
    exact contents_after_place _ _

theorem cstring_bufferToHex (inbuf : Inbuf) (outlen : Capacity) (mem : ℤ → UInt8)
    (h : 2 * inbuf.bytes.length + 1 ≤ outlen) :
    ∃ s, cstring (contents (after mem (bufferToHex inbuf outlen)) outlen) = some s ∧
      s.chars = text inbuf.bytes := by
  obtain ⟨rest, hrest⟩ := contents_append (after mem (bufferToHex inbuf outlen)) h
  rw [contents_bufferToHex inbuf outlen mem h] at hrest
  have hdigit : ∀ c ∈ text inbuf.bytes, c ≠ 0 := by
    rintro c hc rfl
    exact absurd (isHexDigit_of_mem_text hc) (by decide)
  rw [cstring, hrest, if_pos (by simp)]
  refine ⟨_, rfl, ?_⟩
  have hstop : (text inbuf.bytes ++ [0] ++ rest).takeWhile (· ≠ 0) = text inbuf.bytes := by
    rw [List.append_assoc, List.takeWhile_append_of_pos (by simpa using hdigit)]
    simp
  exact hstop

/-! ### The scanner -/

theorem wordBytes_length (v : ℕ) : (wordBytes v).length = 4 := rfl

theorem scanStores_inside (n k : ℕ) (tstr : List UInt8) :
    Inside n (scanStores k tstr) ↔ (sscanfHex tstr ≠ none → k + 4 ≤ n) := by
  rcases h : sscanfHex tstr with _ | v
  · simp [scanStores, h]
  · rw [scanStores, h]
    simp only [inside_place, wordBytes_length, ne_eq, reduceCtorEq, not_false_eq_true, true_imp_iff]
    have hne : wordBytes v ≠ [] := by simp [wordBytes]
    rw [or_iff_right hne]
    omega

/-- Each pair that is a number needs room for a whole word. -/
theorem scanLoop_inside (n : ℕ) : ∀ (k : ℕ) (cs : List UInt8),
    Inside n (scanLoop n k cs).2 ↔
      ∀ j < rounds n k (cs.length / 2),
        sscanfHex ((cs.drop (2 * j)).take 2) ≠ none → k + j + 4 ≤ n
  | _, [] => by simp [scanLoop, rounds]
  | _, [_] => by simp [scanLoop, rounds]
  | k, c :: c' :: cs => by
    have hhalf : (c :: c' :: cs).length / 2 = cs.length / 2 + 1 := by
      simp only [List.length_cons]
      omega
    have hsucc : ∀ j, (c :: c' :: cs).drop (2 * (j + 1)) = cs.drop (2 * j) := by
      intro j
      rw [Nat.mul_add, List.drop_succ_cons, List.drop_succ_cons]
    have hfirst := scanStores_inside n k [c, c']
    by_cases hfull : k + 1 = n
    · have hone : rounds n k (cs.length / 2 + 1) = 1 := by
        rw [rounds, if_neg (by omega)]
        omega
      rw [scanLoop, if_pos hfull, hhalf, hone, hfirst]
      simp
    · have hmore : rounds n k (cs.length / 2 + 1) = rounds n (k + 1) (cs.length / 2) + 1 := by
        simp only [rounds]
        split_ifs <;> omega
      have hrest := scanLoop_inside n (k + 1) cs
      rw [scanLoop, if_neg hfull, hhalf, hmore, inside_append, hfirst, hrest]
      constructor
      · rintro ⟨h, h'⟩ j hj hnum
        cases j with
        | zero => exact h hnum
        | succ j =>
          rw [hsucc] at hnum
          have := h' j (by omega) hnum
          omega
      · intro h
        refine ⟨fun hnum => h 0 (by omega) hnum, fun j hj hnum => ?_⟩
        have := h (j + 1) (by omega) (by rwa [hsucc])
        omega

theorem hexstrlen_le (hexstr : CStr) : (hexstrlen hexstr).toNat ≤ hexstr.chars.length := by
  rw [hexstrlen, short, Int.bmod_def]
  omega

theorem rounds_le (n k m : ℕ) : rounds n k m ≤ m := by
  rw [rounds]
  split_ifs <;> omega

theorem scanLoop_take_inside (n m : ℕ) {cs : List UInt8} (hm : m ≤ cs.length) :
    Inside n (scanLoop n 0 (cs.take m)).2 ↔
      ∀ k < rounds n 0 (m / 2), sscanfHex ((cs.drop (2 * k)).take 2) ≠ none → k + 4 ≤ n := by
  rw [scanLoop_inside, List.length_take_of_le hm]
  refine forall₂_congr fun k hk => ?_
  have hk' := rounds_le n 0 (m / 2)
  rw [List.drop_take, List.take_take, min_eq_left (by omega), zero_add]

theorem hexToBuffer_inside (hexstr : CStr) (outlen : Capacity) :
    Inside outlen (hexToBuffer hexstr outlen).2 ↔
      ∀ k < scanned hexstr outlen,
        sscanfHex ((hexstr.chars.drop (2 * k)).take 2) ≠ none → k + 4 ≤ outlen := by
  by_cases hodd : Int.tmod (hexstrlen hexstr) 2 ≠ 0
  · rw [hexToBuffer, scanned, if_pos hodd, if_pos hodd]
    simp
  · rw [hexToBuffer, scanned, if_neg hodd, if_neg hodd]
    exact scanLoop_take_inside _ _ (hexstrlen_le hexstr)

/-! ### There and back -/

theorem sscanfHex_digits {ds : List UInt8} (hne : ds ≠ [])
    (h : ∀ c ∈ ds, isHexDigit c = true) : sscanfHex ds = some (value ds) := by
  obtain ⟨c, cs, rfl⟩ := List.exists_cons_of_ne_nil hne
  have hc := (isHexDigit_iff c).1 (h c (List.mem_cons_self ..))
  have hspace : isSpace c = false := by
    rw [Bool.eq_false_iff]
    intro hs
    simp only [isSpace, Bool.or_eq_true, Bool.and_eq_true, decide_eq_true_eq,
      UInt8.le_iff_toNat_le, ← UInt8.toNat_inj, UInt8.reduceToNat] at hs
    omega
  have hminus : c ≠ 45 := by
    rintro rfl
    revert hc
    decide
  have hplus : c ≠ charPlus := by
    rintro rfl
    revert hc
    decide
  have hx : ∀ x : UInt8, isHexDigit x = false → c :: cs ≠ [48, x] := by
    intro x hx heq
    rw [h x (by simp [heq])] at hx
    cases hx
  have hwhile : (c :: cs).takeWhile isHexDigit = c :: cs := List.takeWhile_eq_self_iff.2 h
  have hdrop : (c :: cs).dropWhile isSpace = c :: cs :=
    List.dropWhile_cons_of_neg (by simp [hspace])
  simp only [sscanfHex, hdrop, List.head?_cons, Option.some.injEq, hminus, hplus, or_self,
    if_false, hwhile]
  rw [if_neg]
  rintro (h | h | h)
  · cases h
  · exact hx 120 (by decide) h
  · exact hx 88 (by decide) h

theorem scanStores_pair (k : ℕ) (x : UInt8) :
    scanStores k (pair x) = place k (wordBytes x.toNat) := by
  have hpair : sscanfHex (pair x) = some x.toNat := by
    rw [sscanfHex_digits (by simp [pair]) fun c hc => isHexDigit_of_mem_pair hc, value_pair]
  rw [scanStores, hpair]

theorem scanLoop_cons (n k : ℕ) (x : UInt8) (cs : List UInt8) :
    scanLoop n k (pair x ++ cs) =
      if k + 1 = n then ((k : ℤ) + 1, place k (wordBytes x.toNat))
      else ((scanLoop n (k + 1) cs).1,
        place k (wordBytes x.toNat) ++ (scanLoop n (k + 1) cs).2) := by
  rw [← scanStores_pair]
  rfl

/-- The loop goes on behind what it has stored. -/
theorem scanLoop_from (n : ℕ) : ∀ (xs : List UInt8) (k : ℕ) {w : ℤ × UInt8},
    w ∈ (scanLoop n k (text xs)).2 → (k : ℤ) ≤ w.1
  | [], k, w, h => by simp [text, scanLoop] at h
  | x :: xs, k, w, h => by
    rw [text, List.flatMap_cons, scanLoop_cons] at h
    split_ifs at h
    · exact (mem_place h).1
    · rcases List.mem_append.1 h with h | h
      · exact (mem_place h).1
      · have := scanLoop_from n xs (k + 1) h
        omega

/-- A word begins with its lowest byte, and the words of the next rounds leave that one. -/
theorem scanLoop_text (n : ℕ) : ∀ (xs : List UInt8) (k : ℕ) (mem : ℤ → UInt8), k + xs.length ≤ n →
    (scanLoop n k (text xs)).1 = (k : ℤ) + xs.length ∧
    ∀ j (hj : j < xs.length), after mem (scanLoop n k (text xs)).2 (k + j) = xs[j]
  | [], k, mem, _ => by simp [text, scanLoop]
  | x :: xs, k, mem, hroom => by
    rw [List.length_cons] at hroom
    have hlow : ∀ mem : ℤ → UInt8, after mem (place k (wordBytes x.toNat)) k = x := by
      intro mem
      have := after_place_get mem k (wordBytes x.toNat) (j := 0) (by simp [wordBytes])
      simpa [wordBytes] using this
    have hnext := scanLoop_text n xs (k + 1) (after mem (place k (wordBytes x.toNat)))
    rw [text, List.flatMap_cons, scanLoop_cons]
    split_ifs with hfull
    · have hnil : xs = [] := List.length_eq_zero_iff.1 (by omega)
      subst hnil
      refine ⟨rfl, fun j hj => ?_⟩
      have hzero : j = 0 := by simpa using hj
      subst hzero
      simpa using hlow mem
    · obtain ⟨hcount, hbytes⟩ := hnext (by omega)
      refine ⟨?_, fun j hj => ?_⟩
      · rw [text] at hcount
        rw [hcount, List.length_cons]
        omega
      · rw [after_append]
        cases j with
        | zero =>
          rw [Nat.cast_zero, add_zero, after_of_ne, hlow, List.getElem_cons_zero]
          intro w hw
          have := scanLoop_from n xs (k + 1) hw
          omega
        | succ j =>
          have := hbytes j (by simpa using hj)
          rw [List.getElem_cons_succ, ← this, text]
          push_cast
          rw [add_right_comm, add_assoc]

theorem roundTrip (inbuf : Inbuf) (outlen : Capacity) (h : 2 * inbuf.bytes.length + 1 ≤ outlen)
    (mem mem' : ℤ → UInt8) (cap : Capacity) (hcap : inbuf.bytes.length ≤ cap) :
    ∃ s, cstring (contents (after mem (bufferToHex inbuf outlen)) outlen) = some s ∧
      (hexToBuffer s cap).1 = inbuf.bytes.length ∧
      contents (after mem' (hexToBuffer s cap).2) inbuf.bytes.length = inbuf.bytes := by
  obtain ⟨s, hs, hchars⟩ := cstring_bufferToHex inbuf outlen mem h
  have hlt := outlen.isLt
  have hlength : s.chars.length = 2 * inbuf.bytes.length := by rw [hchars, text_length]
  have hshort : hexstrlen s = (s.chars.length : ℕ) := short_of_lt (by omega)
  have heven : ¬Int.tmod (hexstrlen s) 2 ≠ 0 := by
    rw [hshort, hlength]
    simp
  have htake : s.chars.take (hexstrlen s).toNat = text inbuf.bytes := by
    rw [hshort, Int.toNat_natCast, List.take_length, hchars]
  have hread : hexToBuffer s cap = scanLoop cap 0 (text inbuf.bytes) := by
    rw [hexToBuffer, if_neg heven, htake]
  obtain ⟨hcount, hbytes⟩ := scanLoop_text cap inbuf.bytes 0 mem' (by omega)
  refine ⟨s, hs, ?_, ?_⟩
  · rw [hread, hcount, Nat.cast_zero, zero_add]
  · rw [hread]
    refine List.ext_getElem (by simp) fun j hj hj' => ?_
    have := hbytes j hj'
    simpa [contents] using this

/-- Both functions stay in their buffers exactly when the text and its NUL fit, and each number that
    is scanned has room for a whole word. The bytes come back in any case. -/
theorem transports_iff (inbuf : Inbuf) (outlen : Capacity) (hexstr : CStr) (outlen' : Capacity) :
    Transports inbuf outlen hexstr outlen' ↔
      (inbuf.bytes = [] ∨ 2 * inbuf.bytes.length + 1 ≤ outlen) ∧
      ∀ k < scanned hexstr outlen',
        sscanfHex ((hexstr.chars.drop (2 * k)).take 2) ≠ none → k + 4 ≤ outlen' := by
  rw [← bufferToHex_inside, ← hexToBuffer_inside]
  constructor
  · rintro ⟨_, hencodes, hdecodes⟩
    exact ⟨hencodes, hdecodes⟩
  · rintro ⟨hencodes, hdecodes⟩
    refine ⟨?_, hencodes, hdecodes⟩
    intro h mem mem' cap hcap
    exact roundTrip inbuf outlen h mem mem' cap hcap

/-- One byte and a buffer for its two digits: the NUL is stored behind it. -/
theorem not_transports : ¬Transports ⟨[10], by decide⟩ 2 ⟨[48, 65], by decide⟩ 1 := by
  intro h
  have := (bufferToHex_inside _ _).1 h.encodes
  revert this
  decide

end EasyCore.ConvHexStr
