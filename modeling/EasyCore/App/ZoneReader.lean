import EasyCore.App.DownZone

/-! The readers of the download zone (`applications/spiflash_config.c`), call after call: what
    `get_down_zone_buffer` gives is the file, cut into the sizes that are asked for.

        file   : | size₀ | size₁ | .. | what is left | nothing | nothing ..

    `get_down_zone_buffer_offset` adds in 32 bits, and an offset near 2^32 wraps into the file. -/

namespace EasyCore.ZoneReader
open FlashOpt DownZone

/-! ### A list that is cut -/

section Cut

variable {β : Type*}

/-- Pieces of a list, of the sizes that are asked for, while there is something left. -/
def cut (xs : List β) : List ℕ → List (List β)
  | [] => []
  | n :: sizes => xs.take n :: cut (xs.drop n) sizes

/-- The pieces are a beginning of the list, as long as they are together. -/
theorem cut_flatten (xs : List β) (sizes : List ℕ) :
    (cut xs sizes).flatten = xs.take (cut xs sizes).flatten.length := by
  induction sizes generalizing xs with
  | nil => rfl
  | cons n sizes ih =>
    rw [cut, List.flatten_cons, List.length_append, List.length_take]
    rcases Nat.lt_or_ge n xs.length with hn | hn
    · rw [min_eq_left hn.le, List.take_add, ← ih]
    · have hrest : xs.drop n = [] := List.drop_eq_nil_of_le hn
      have hnone : (cut ([] : List β) sizes).flatten = [] := by rw [ih, List.take_nil]
      rw [hrest, hnone, List.take_of_length_le hn, List.append_nil, List.length_nil,
        List.take_of_length_le (by omega)]

/-- A piece has its size, or what the pieces in front of it have left. -/
theorem cut_getElem? (xs : List β) (sizes : List ℕ) {i : ℕ} (hi : i < sizes.length) :
    ∃ piece, (cut xs sizes)[i]? = some piece ∧
      piece.length = min sizes[i] (xs.length - ((cut xs sizes).take i).flatten.length) := by
  induction sizes generalizing xs i with
  | nil => exact absurd hi (Nat.not_lt_zero i)
  | cons n sizes ih =>
    cases i with
    | zero => exact ⟨xs.take n, rfl, by simp⟩
    | succ i =>
      obtain ⟨piece, hpiece, hlen⟩ := ih (xs.drop n) (Nat.lt_of_succ_lt_succ hi)
      refine ⟨piece, hpiece, ?_⟩
      simp only [cut, List.getElem_cons_succ, List.take_succ_cons, List.flatten_cons,
        List.length_append, List.length_take]
      rw [hlen, List.length_drop]
      omega

end Cut

/-! ### Call after call -/

/-- What calls of `get_down_zone_buffer` give, one after the other: the bytes, and the number that
    is returned. -/
def reads (m : Flash) : Zone → List Int16 → List (List UInt8 × Int16)
  | _, [] => []
  | z, outSize :: sizes =>
    let next := getDownZoneBuffer m outSize z
    next.2 :: reads m next.1 sizes

/-- The bytes behind some bytes. -/
theorem bytesAt_drop (m : Flash) (addr n k : ℕ) :
    (bytesAt m addr n).drop k = bytesAt m (addr + k) (n - k) := by
  apply List.ext_getElem
  · simp
  · intro i _ _
    simp [bytesAt, Nat.add_assoc]

theorem bytesAt_take (m : Flash) (addr n k : ℕ) :
    (bytesAt m addr n).take k = bytesAt m addr (min k n) := by
  apply List.ext_getElem
  · simp
  · intro i _ _
    simp [bytesAt]

/-- Each call takes the next piece of the file, and returns how long it is. -/
theorem reads_eq_cut (m : Flash) (sizes : List Int16) (hsizes : ∀ n ∈ sizes, 0 < n) {z : Zone}
    (hsize : z.downFileSize.toNat < 524284) (hread : z.readIndex ≤ z.downFileSize) :
    (reads m z sizes).map Prod.fst =
        cut (bytesAt m (4 + z.readIndex.toNat) (z.downFileSize.toNat - z.readIndex.toNat))
          (sizes.map fun n => n.toInt.toNat) ∧
      ∀ r ∈ reads m z sizes, r.2.toInt = r.1.length := by
  induction sizes generalizing z with
  | nil => exact ⟨rfl, by simp [reads]⟩
  | cons n sizes ih =>
    obtain ⟨hdata, hlen, hfile, hindex⟩ :=
      getDownZoneBuffer_spec m (hsizes n (List.mem_cons_self ..)) hsize hread
    have hread : z.readIndex.toNat ≤ z.downFileSize.toNat := UInt32.le_iff_toNat_le.1 hread
    have hle : (getDownZoneBuffer m n z).1.readIndex ≤ (getDownZoneBuffer m n z).1.downFileSize := by
      rw [UInt32.le_iff_toNat_le, hfile, hindex]
      omega
    obtain ⟨hpieces, hret⟩ := ih (fun k hk => hsizes k (List.mem_cons_of_mem _ hk))
      (by rw [hfile]; exact hsize) hle
    simp only [reads, List.map_cons, cut]
    constructor
    · rw [hdata, hpieces, bytesAt_take, bytesAt_drop, hfile, hindex]
      congr 2
      rcases Nat.le_total n.toInt.toNat (z.downFileSize.toNat - z.readIndex.toNat) with h | h
      · rw [min_eq_left h, Nat.add_assoc, Nat.sub_sub]
      · have hnone : z.downFileSize.toNat - (z.readIndex.toNat +
            min n.toInt.toNat (z.downFileSize.toNat - z.readIndex.toNat)) = 0 := by omega
        rw [hnone, Nat.sub_eq_zero_of_le h]
        rfl
    · intro r hr
      rcases List.mem_cons.1 hr with rfl | hr
      · rw [hlen, hdata, bytesAt_length]
      · exact hret r hr

/-- The file, as it was found when the reading started. -/
abbrev size (m : Flash) : ℕ := (startGetDownZoneSpiflash m).downFileSize.toNat

/-- Together the pieces are a beginning of the file; each has the size that was asked for, or what
    is left, and its length is returned. Behind the file every call returns 0. -/
structure InPieces (m : Flash) (sizes : List Int16) : Prop where
  begins : ((reads m (startGetDownZoneSpiflash m) sizes).map Prod.fst).flatten <+: file m
  each : ∀ i (hi : i < sizes.length), ∃ piece ret,
    (reads m (startGetDownZoneSpiflash m) sizes)[i]? = some (piece, ret) ∧
      ret.toInt = piece.length ∧
      piece.length = min sizes[i].toInt.toNat (size m -
        (((reads m (startGetDownZoneSpiflash m) sizes).map Prod.fst).take i).flatten.length)
  ends : ∀ i < sizes.length,
    (((reads m (startGetDownZoneSpiflash m) sizes).map Prod.fst).take i).flatten.length = size m →
    (reads m (startGetDownZoneSpiflash m) sizes)[i]? = some ([], 0)

theorem inPieces (m : Flash) (sizes : List Int16) (hsizes : ∀ n ∈ sizes, 0 < n) :
    InPieces m sizes := by
  obtain ⟨hcut, hret⟩ := reads_eq_cut m sizes hsizes (startGetDownZoneSpiflash_size m)
    UInt32.zero_le
  have hindex : (startGetDownZoneSpiflash m).readIndex = 0 := rfl
  rw [hindex, UInt32.toNat_zero, Nat.add_zero, Nat.sub_zero, ← file] at hcut
  have hlen : (file m).length = size m := bytesAt_length ..
  have heach : ∀ i (hi : i < sizes.length), ∃ piece ret,
      (reads m (startGetDownZoneSpiflash m) sizes)[i]? = some (piece, ret) ∧
        ret.toInt = piece.length ∧
        piece.length = min sizes[i].toInt.toNat (size m -
          (((reads m (startGetDownZoneSpiflash m) sizes).map Prod.fst).take i).flatten.length) := by
    intro i hi
    obtain ⟨piece, hpiece, hplen⟩ := cut_getElem? (file m)
      (sizes.map fun n => n.toInt.toNat) (i := i) (by simpa using hi)
    rw [← hcut, List.getElem?_map, Option.map_eq_some_iff] at hpiece
    obtain ⟨⟨piece', ret⟩, hget, rfl⟩ := hpiece
    refine ⟨piece', ret, hget, hret _ (List.mem_of_getElem? hget), ?_⟩
    rw [hcut, hplen, List.getElem_map, hlen]
  refine ⟨?_, heach, ?_⟩
  · rw [hcut, cut_flatten]
    exact List.take_prefix ..
  · intro i hi hall
    obtain ⟨piece, ret, hget, hr, hplen⟩ := heach i hi
    rw [hall, Nat.sub_self, Nat.min_zero] at hplen
    obtain rfl := List.eq_nil_of_length_eq_zero hplen
    obtain rfl : ret = 0 := Int16.toInt_inj.1 hr
    exact hget

/-! ### By an offset -/

/-- A read at an offset gives the bytes of the file, exactly when they are inside it. -/
def OffsetExact (m : Flash) (offset : UInt32) (n : Int16) : Prop :=
  getDownZoneBufferOffset m (startGetDownZoneSpiflash m) offset n =
    if (offset.toNat : ℤ) + n.toInt ≤ size m then
      some (((file m).drop offset.toNat).take n.toInt.toNat)
    else none

/-- The sum that the code compares. -/
theorem toNat_add_ofInt (offset : UInt32) (n : Int16) :
    ((offset + UInt32.ofInt n.toInt).toNat : ℤ) = ((offset.toNat : ℤ) + n.toInt) % 2 ^ 32 := by
  rw [UInt32.toNat_add, UInt32.ofInt, UInt32.toNat_ofNat']
  omega

/-- The number of bytes that are read. -/
theorem toNat_size (n : Int16) :
    ((UInt32.ofInt n.toInt).toUInt16.toNat : ℤ) = n.toInt % 2 ^ 16 := by
  rw [UInt32.toNat_toUInt16, UInt32.ofInt, UInt32.toNat_ofNat']
  omega

/-- An offset and a size are read right exactly when the size is not negative, but for an end that
    is behind the file all the same, and the 32-bit sum does not wrap into the file. -/
theorem offsetExact_iff (m : Flash) (offset : UInt32) (n : Int16) :
    OffsetExact m offset n ↔
      (0 ≤ n.toInt ∨ (size m : ℤ) < offset.toNat + n.toInt) ∧
        ((offset.toNat : ℤ) + n.toInt < 2 ^ 32 ∨
          (size m : ℤ) < ((offset.toNat : ℤ) + n.toInt) % 2 ^ 32) := by
  have hsize : size m < 524284 := startGetDownZoneSpiflash_size m
  have hoffset : offset.toNat < 2 ^ 32 := offset.toNat_lt
  have hn : n.toInt < 2 ^ 15 := n.toInt_lt
  have hn' : -2 ^ 15 ≤ n.toInt := n.le_toInt
  have hsum := toNat_add_ofInt offset n
  have hsum' : offset + UInt32.ofInt n.toInt ≤ (startGetDownZoneSpiflash m).downFileSize ↔
      ((offset.toNat : ℤ) + n.toInt) % 2 ^ 32 ≤ size m := by
    rw [UInt32.le_iff_toNat_le, ← hsum]
    exact Int.ofNat_le.symm
  have hcount := toNat_size n
  simp only [OffsetExact, getDownZoneBufferOffset]
  rcases lt_or_ge n.toInt 0 with hneg | hpos
  · rcases lt_or_ge (size m : ℤ) (offset.toNat + n.toInt) with hout | hin
    · rw [if_neg (by rw [hsum']; omega), if_neg (by omega)]
      exact ⟨fun _ => ⟨.inr hout, .inl (by omega)⟩, fun _ => rfl⟩
    · -- a negative size reads 2^16 - n bytes, or nothing
      rw [if_pos hin, Int.toNat_of_nonpos hneg.le, List.take_zero]
      constructor
      · intro h
        split at h
        · have hlen := congrArg List.length (Option.some.inj h)
          rw [bytesAt_length, List.length_nil] at hlen
          omega
        · exact absurd h.symm (Option.some_ne_none _)
      · rintro ⟨h, -⟩
        omega
  · rcases lt_or_ge ((offset.toNat : ℤ) + n.toInt) (2 ^ 32) with hlt | hwrap
    · have hsame : ((offset.toNat : ℤ) + n.toInt) % 2 ^ 32 = offset.toNat + n.toInt := by omega
      rw [hsame] at hsum'
      refine ⟨fun _ => ⟨.inl hpos, .inl hlt⟩, fun _ => ?_⟩
      simp only [hsum']
      split
      · next hin =>
        have haddr : (4 + offset).toNat = 4 + offset.toNat := by
          rw [UInt32.toNat_add]
          exact Nat.mod_eq_of_lt (by simp; omega)
        have hfile : file m = bytesAt m 4 (size m) := rfl
        have hmany : (UInt32.ofInt n.toInt).toUInt16.toNat =
            min n.toInt.toNat (size m - offset.toNat) := by omega
        rw [hfile, bytesAt_drop, bytesAt_take, haddr, hmany]
      · rfl
    · rw [if_neg (by omega : ¬ (offset.toNat : ℤ) + n.toInt ≤ size m)]
      constructor
      · intro h
        refine ⟨.inl hpos, .inr ?_⟩
        by_contra hle
        rw [if_pos (hsum'.2 (by omega))] at h
        exact Option.some_ne_none _ h
      · rintro ⟨-, h | h⟩
        · omega
        · rw [if_neg (by rw [hsum']; omega)]

/-- The readers are right, call after call, exactly when the sum of the offset and the size does not
    wrap into the file. -/
theorem readers_exact_iff (m : Flash) (sizes : List Int16) (hsizes : ∀ n ∈ sizes, 0 < n)
    (offset : UInt32) (n : Int16) :
    InPieces m sizes ∧ OffsetExact m offset n ↔
      (0 ≤ n.toInt ∨ (size m : ℤ) < offset.toNat + n.toInt) ∧
        ((offset.toNat : ℤ) + n.toInt < 2 ^ 32 ∨
          (size m : ℤ) < ((offset.toNat : ℤ) + n.toInt) % 2 ^ 32) := by
  rw [← offsetExact_iff]
  exact ⟨And.right, fun h => ⟨inPieces m sizes hsizes, h⟩⟩

/-- A file of five bytes behind its length. -/
def five : Flash := fun x => if x = 0 then 5 else if x < 4 then 0 else 7

theorem readers_exact_iff_five :
    InPieces five [2, 2, 2, 2] ∧ OffsetExact five 3 2 ↔
      (0 ≤ (2 : Int16).toInt ∨ (size five : ℤ) < (3 : UInt32).toNat + (2 : Int16).toInt) ∧
        (((3 : UInt32).toNat : ℤ) + (2 : Int16).toInt < 2 ^ 32 ∨
          (size five : ℤ) < (((3 : UInt32).toNat : ℤ) + (2 : Int16).toInt) % 2 ^ 32) :=
  readers_exact_iff five [2, 2, 2, 2] (by simp) 3 2

/-- The byte at 2^32 - 1 is not in the file, but the read of it succeeds. -/
theorem offset_wraps : ¬ OffsetExact five 0xFFFFFFFF 1 := by
  rw [OffsetExact]
  decide +kernel

end EasyCore.ZoneReader
