import EasyCore.App.Base64

/-! The base64 decoder that is fed one character at a time (`decode_base64_stream`). It leaves a
    group at its first padding character. The second one of `==` is then taken for the first
    character of a group, and from there on the decoder is one character ahead.

        encoded   x y = =  x' y' z' w'
        aligned   0 1 2 0
        ahead           0  1  2  3  0 -/

namespace EasyCore.Base64

inductive StreamStatus
  | first
  | second
  | third
  | fourth
  deriving DecidableEq

/-- `struct dc_stream`; its `count` is only counted up. -/
structure DcStream where
  status : StreamStatus
  c : UInt8
  d : UInt8
  deriving DecidableEq

/-- `start_decode_base64_stream`. -/
def startDecodeBase64Stream : DcStream := ⟨.first, 0, 0⟩

/-- `decode_base64_stream`, with the byte that it stores when it returns 0. -/
def decodeBase64Stream (ds : DcStream) (input : UInt8) : DcStream × Option UInt8 :=
  match ds.status with
  | .first => ({ ds with c := table64 input, status := .second }, none)
  | .second =>
    let d := table64 input
    let c := byte₁ ds.c d
    (⟨.third, c, d⟩, some c)
  | .third =>
    if input = pad then ({ ds with c := input, status := .first }, none)
    else
      let c := table64 input
      let d := byte₂ ds.d c
      (⟨.fourth, c, d⟩, some d)
  | .fourth =>
    if input = pad then ({ ds with d := input, status := .first }, none)
    else
      let d := table64 input
      let c := byte₃ ds.c d
      (⟨.first, c, d⟩, some c)

/-- The decoder is fed with characters: what it becomes, and the bytes it has stored. -/
def feed (ds : DcStream) : List UInt8 → DcStream × List UInt8
  | [] => (ds, [])
  | x :: xs =>
    let r := decodeBase64Stream ds x
    let t := feed r.1 xs
    (t.1, r.2.toList ++ t.2)

/-- The bytes out of a stream of encoded messages. -/
def streamed (ds : DcStream) (msgs : List (List UInt8)) : List UInt8 :=
  (feed ds (msgs.flatMap encodeLoop)).2

/-- The stream gives the messages back, and a single one as `decode_base64` does. -/
structure Refines (msgs : List (List UInt8)) : Prop where
  output : streamed startDecodeBase64Stream msgs = msgs.flatten
  block : ∀ b, msgs = [b] →
    decodeBase64 (encodeBase64 b) =
      (streamed startDecodeBase64Stream msgs ++ [0], (streamed startDecodeBase64Stream msgs).length)

/-- A message that reads the same one character ahead. -/
def Harmless (b : List UInt8) : Prop := b.length % 3 = 0 ∧ ∀ x ∈ b, x = 0xFF

/-! ### Feeding -/

theorem feed_append (ds : DcStream) (xs ys : List UInt8) :
    feed ds (xs ++ ys) =
      ((feed (feed ds xs).1 ys).1, (feed ds xs).2 ++ (feed (feed ds xs).1 ys).2) := by
  induction xs generalizing ds with
  | nil => rfl
  | cons x xs ih => simp only [List.cons_append, feed, ih, List.append_assoc]

theorem streamed_cons (ds : DcStream) (b : List UInt8) (msgs : List (List UInt8)) :
    streamed ds (b :: msgs) =
      (feed ds (encodeLoop b)).2 ++ streamed (feed ds (encodeLoop b)).1 msgs := by
  rw [streamed, List.flatMap_cons, feed_append, streamed]

/-! ### Between two groups -/

/-- A message that is not padded twice leaves the decoder between two groups; one that is leaves it
    with `=` as the first character of a group. -/
theorem feed_aligned : ∀ (b : List UInt8) (ds : DcStream), ds.status = .first →
    (feed ds (encodeLoop b)).2 = b ∧
    if b.length % 3 = 1 then
      (feed ds (encodeLoop b)).1.status = .second ∧ (feed ds (encodeLoop b)).1.c = np
    else (feed ds (encodeLoop b)).1.status = .first
  | [], ds, h => by simpa [encodeLoop, feed] using h
  | [a], ⟨_, _, _⟩, rfl => by
    simp [encodeLoop, feed, decodeBase64Stream, char64_spec (sextet₁_lt a),
      char64_spec (sextet₂_lt a 0), byte₁_sextets]
    decide
  | [a, b], ⟨_, _, _⟩, rfl => by
    simp [encodeLoop, feed, decodeBase64Stream, char64_spec (sextet₁_lt a),
      char64_spec (sextet₂_lt a b), char64_spec (sextet₃_lt b 0), byte₁_sextets, byte₂_sextets]
  | a :: b :: c :: input, ⟨_, _, _⟩, rfl => by
    have hrest := feed_aligned input ⟨.first, byte₃ (sextet₃ b c) (sextet₄ c), sextet₄ c⟩ rfl
    have hlength : (a :: b :: c :: input).length % 3 = input.length % 3 := by
      simp only [List.length_cons]
      omega
    rw [hlength]
    simpa [encodeLoop, feed, decodeBase64Stream, char64_spec (sextet₁_lt a),
      char64_spec (sextet₂_lt a b), char64_spec (sextet₃_lt b c), char64_spec (sextet₄_lt c),
      byte₁_sextets, byte₂_sextets, byte₃_sextets] using hrest

/-! ### One character ahead -/

/-- The decoder has had the first character of a group, and its six bits are ones. -/
structure Ahead (ds : DcStream) : Prop where
  status : ds.status = .second
  ones : ds.c <<< (2 : UInt8) = 0xFC

/-- A whole group, one character ahead. -/
theorem feed_group (k d a b c : UInt8) (input : List UInt8) :
    feed ⟨.second, k, d⟩ (encodeLoop (a :: b :: c :: input)) =
      ((feed ⟨.second, sextet₄ c, sextet₃ b c⟩ (encodeLoop input)).1,
        byte₁ k (sextet₁ a) :: byte₂ (sextet₁ a) (sextet₂ a b) ::
          byte₃ (sextet₂ a b) (sextet₃ b c) ::
            (feed ⟨.second, sextet₄ c, sextet₃ b c⟩ (encodeLoop input)).2) := by
  simp [encodeLoop, feed, decodeBase64Stream, char64_spec (sextet₁_lt a),
    char64_spec (sextet₂_lt a b), char64_spec (sextet₃_lt b c), char64_spec (sextet₄_lt c)]

/-- Ahead, a padded message gives one byte too many. -/
theorem feed_second : ∀ (b : List UInt8) (ds : DcStream), ds.status = .second →
    (feed ds (encodeLoop b)).1.status = .second ∧
    (feed ds (encodeLoop b)).2.length = b.length + if b.length % 3 = 0 then 0 else 1
  | [], ds, h => by simpa [encodeLoop, feed] using h
  | [a], ⟨_, _, _⟩, rfl => by
    simp [encodeLoop, feed, decodeBase64Stream, char64_spec (sextet₁_lt a),
      char64_spec (sextet₂_lt a 0)]
  | [a, b], ⟨_, _, _⟩, rfl => by
    simp [encodeLoop, feed, decodeBase64Stream, char64_spec (sextet₁_lt a),
      char64_spec (sextet₂_lt a b), char64_spec (sextet₃_lt b 0)]
  | a :: b :: c :: input, ⟨_, k, d⟩, rfl => by
    obtain ⟨hstatus, hlength⟩ := feed_second input ⟨.second, sextet₄ c, sextet₃ b c⟩ rfl
    rw [feed_group]
    refine ⟨hstatus, ?_⟩
    simp only [List.length_cons, hlength, Nat.add_assoc, Nat.reduceAdd, Nat.add_mod_right]
    omega

/-- The bytes that a shift by six bits leaves as they are, behind six ones. -/
theorem ones_table : ∀ n < 256,
    (0xFC ||| (sextet₁ (UInt8.ofNat n) >>> (4 : UInt8)) &&& 0x3 = UInt8.ofNat n → n = 255) ∧
    (byte₂ (sextet₁ 0xFF) (sextet₂ 0xFF (UInt8.ofNat n)) = UInt8.ofNat n → n = 255) ∧
    (byte₃ (sextet₂ 0xFF 0xFF) (sextet₃ 0xFF (UInt8.ofNat n)) = UInt8.ofNat n → n = 255) := by
  decide +kernel

theorem eq_ones {x : UInt8} (h : x.toNat = 255) : x = 0xFF := UInt8.toNat_inj.1 h

theorem group_ones {k a b c : UInt8} (hk : k <<< (2 : UInt8) = 0xFC) :
    (byte₁ k (sextet₁ a) = a ∧ byte₂ (sextet₁ a) (sextet₂ a b) = b ∧
      byte₃ (sextet₂ a b) (sextet₃ b c) = c) ↔ a = 0xFF ∧ b = 0xFF ∧ c = 0xFF := by
  constructor
  · rintro ⟨ha, hb, hc⟩
    have hta := ones_table a.toNat a.toNat_lt
    have htb := ones_table b.toNat b.toNat_lt
    have htc := ones_table c.toNat c.toNat_lt
    simp only [UInt8.ofNat_toNat] at hta htb htc
    rw [byte₁, hk] at ha
    have hones := eq_ones (hta.1 ha)
    subst hones
    have hones := eq_ones (htb.2.1 hb)
    subst hones
    exact ⟨rfl, rfl, eq_ones (htc.2.2 hc)⟩
  · rintro ⟨rfl, rfl, rfl⟩
    refine ⟨?_, by decide, by decide⟩
    rw [byte₁, hk]
    decide

/-- Ahead, a message of whole groups is given back when it is all ones, and then the decoder is
    ahead again. -/
theorem feed_ahead : ∀ (b : List UInt8) (ds : DcStream), Ahead ds → b.length % 3 = 0 →
    ((feed ds (encodeLoop b)).2 = b ↔ ∀ x ∈ b, x = 0xFF) ∧
    ((∀ x ∈ b, x = 0xFF) → Ahead (feed ds (encodeLoop b)).1)
  | [], ds, h, _ => by simpa [encodeLoop, feed] using h
  | [_], _, _, h => by simp at h
  | [_, _], _, _, h => by simp at h
  | a :: b :: c :: input, ⟨_, k, d⟩, ⟨rfl, hk⟩, h => by
    have hinput : input.length % 3 = 0 := by
      simp only [List.length_cons] at h
      omega
    rw [feed_group]
    simp only [List.cons.injEq, List.forall_mem_cons]
    by_cases hones : a = 0xFF ∧ b = 0xFF ∧ c = 0xFF
    · obtain ⟨rfl, rfl, rfl⟩ := hones
      obtain ⟨hout, hahead⟩ := feed_ahead input ⟨.second, sextet₄ 0xFF, sextet₃ 0xFF 0xFF⟩
        ⟨rfl, by decide⟩ hinput
      have hgroup := (group_ones hk).2 ⟨rfl, rfl, rfl⟩
      simp only [hgroup, true_and, hout]
      exact hahead
    · have hgroup := mt (group_ones hk).1 hones
      constructor
      · constructor
        · rintro ⟨ha, hb, hc, _⟩
          exact absurd ⟨ha, hb, hc⟩ hgroup
        · rintro ⟨ha, hb, hc, _⟩
          exact absurd ⟨ha, hb, hc⟩ hones
      · rintro ⟨ha, hb, hc, _⟩
        exact absurd ⟨ha, hb, hc⟩ hones

/-- Ahead, the stream gives no fewer bytes than the messages have. -/
theorem streamed_length : ∀ (msgs : List (List UInt8)) (ds : DcStream), ds.status = .second →
    msgs.flatten.length ≤ (streamed ds msgs).length
  | [], _, _ => by simp
  | b :: msgs, ds, h => by
    obtain ⟨hstatus, hlength⟩ := feed_second b ds h
    have := streamed_length msgs _ hstatus
    rw [streamed_cons, List.flatten_cons, List.length_append, List.length_append, hlength]
    omega

theorem streamed_ahead : ∀ (msgs : List (List UInt8)) (ds : DcStream), Ahead ds →
    (streamed ds msgs = msgs.flatten ↔ ∀ b ∈ msgs, Harmless b)
  | [], _, _ => by simp [streamed, feed]
  | b :: msgs, ds, h => by
    obtain ⟨hstatus, hlength⟩ := feed_second b ds h.status
    have hmore := streamed_length msgs _ hstatus
    rw [streamed_cons, List.flatten_cons, List.forall_mem_cons]
    by_cases hmod : b.length % 3 = 0
    · obtain ⟨hout, hahead⟩ := feed_ahead b ds h hmod
      rw [if_pos hmod] at hlength
      constructor
      · intro heq
        obtain ⟨hb, hmsgs⟩ := List.append_inj heq hlength
        have hones := hout.1 hb
        exact ⟨⟨hmod, hones⟩, (streamed_ahead msgs _ (hahead hones)).1 hmsgs⟩
      · rintro ⟨⟨_, hones⟩, hmsgs⟩
        rw [hout.2 hones, (streamed_ahead msgs _ (hahead hones)).2 hmsgs]
    · rw [if_neg hmod] at hlength
      constructor
      · intro heq
        have := congrArg List.length heq
        rw [List.length_append, List.length_append] at this
        omega
      · rintro ⟨⟨hb, _⟩, _⟩
        exact absurd hb hmod

/-! ### The whole stream -/

theorem streamed_aligned : ∀ (msgs : List (List UInt8)) (ds : DcStream), ds.status = .first →
    (streamed ds msgs = msgs.flatten ↔
      msgs.Pairwise fun b b' => b.length % 3 = 1 → Harmless b')
  | [], _, _ => by simp [streamed, feed]
  | b :: msgs, ds, h => by
    obtain ⟨hout, hstatus⟩ := feed_aligned b ds h
    rw [streamed_cons, List.flatten_cons, hout, List.append_right_inj, List.pairwise_cons]
    by_cases hmod : b.length % 3 = 1
    · rw [if_pos hmod] at hstatus
      have hahead : Ahead (feed ds (encodeLoop b)).1 := ⟨hstatus.1, by rw [hstatus.2]; decide⟩
      rw [streamed_ahead msgs _ hahead]
      constructor
      · intro hall
        refine ⟨fun b' hb' _ => hall b' hb', ?_⟩
        refine List.pairwise_of_forall_mem_list fun b' hb' _ _ hone => ?_
        have := (hall b' hb').1
        omega
      · rintro ⟨hall, _⟩ b' hb'
        exact hall b' hb' hmod
    · rw [if_neg hmod] at hstatus
      rw [streamed_aligned msgs _ hstatus]
      constructor
      · intro hpair
        exact ⟨fun _ _ hone => absurd hone hmod, hpair⟩
      · rintro ⟨_, hpair⟩
        exact hpair

/-- The stream decoder does what the block decoder does as long as behind a message that ends in
    `==` there is nothing but whole groups of ones. -/
theorem refines_iff (msgs : List (List UInt8)) :
    Refines msgs ↔ msgs.Pairwise fun b b' => b.length % 3 = 1 → Harmless b' := by
  rw [← streamed_aligned msgs startDecodeBase64Stream rfl]
  constructor
  · rintro ⟨houtput, _⟩
    exact houtput
  · intro houtput
    refine ⟨houtput, ?_⟩
    rintro b rfl
    have hone : [b].flatten = b := by simp
    rw [houtput, hone]
    exact decode_encode b

/-- One byte, and then another message. -/
theorem not_refines : ¬Refines [[0x41], [0x42, 0x43, 0x44]] := by
  intro h
  have := h.output
  revert this
  decide

end EasyCore.Base64
