import EasyCore.App.FlashOpt

/-! The download zone in the SPI flash: the sector buffer that fills it (`drivers/extdrv/w25q16.c`),
    and the functions that read it back (`applications/spiflash_config.c`). A file is stored behind
    its length. -/

namespace EasyCore.DownZone
open FlashOpt

/-! ### The sector buffer -/

/-- `W25X_SECTION_SIZE` -/
abbrev sectionSize : ℕ := 4096

/-- The flash, the bytes in `spiflash_page_buffer`, and `spiflash_page_sector_index`. -/
structure W25x where
  flash : Flash
  buffer : List UInt8
  sector : UInt16

/-- `SPI_Flash_Write2`, at the start of a sector: it is erased, and then takes all of the buffer. -/
def writeSector (m : Flash) (secpos : ℕ) (data : List UInt8) : Flash := fun x =>
  if sectionSize * secpos ≤ x ∧ x < sectionSize * secpos + sectionSize then
    0xFF &&& data.getD (x - sectionSize * secpos) 0xFF
  else m x

/-- `init_write_flash`, at `DOWNLOAD_ZONE_ADDRESS`. -/
def initWriteFlash (w : W25x) : W25x := { w with buffer := [], sector := 0 }

/-- `append_w25x_byte` -/
def appendW25xByte (w : W25x) (data : UInt8) : W25x :=
  let buffer := w.buffer ++ [data]
  if sectionSize ≤ buffer.length then
    { flash := writeSector w.flash w.sector.toNat buffer, buffer := [], sector := w.sector + 1 }
  else { w with buffer }

/-- `append_w25x_append_buffer` -/
def appendW25xAppendBuffer (w : W25x) (data : List UInt8) : W25x := data.foldl appendW25xByte w

/-- `w25x_append_end` -/
def w25xAppendEnd (w : W25x) : W25x :=
  appendW25xAppendBuffer w (List.replicate (sectionSize - w.buffer.length) 0xFF)

/-! ### Reading -/

/-- `DOWNLOAD_ZONE_SIZE`; the zone begins at 0. -/
def downloadZoneSize : UInt32 := 524288

/-- `read_index` and `down_file_size`. -/
structure Zone where
  readIndex : UInt32
  downFileSize : UInt32

/-- Four bytes as a number, the lowest first. -/
def numberOf (b : List UInt8) : UInt32 :=
  UInt32.ofNat ((b.getD 0 0).toNat + 256 * ((b.getD 1 0).toNat + 256 * ((b.getD 2 0).toNat +
    256 * (b.getD 3 0).toNat)))

/-- `start_get_down_zone_spiflash` -/
def startGetDownZoneSpiflash (m : Flash) : Zone :=
  let size := numberOf (bytesAt m 0 4)
  ⟨0, if downloadZoneSize - 4 ≤ size then 0 else size⟩

/-- `get_down_zone_buffer`: the bytes that it reads, and their number. -/
def getDownZoneBuffer (m : Flash) (outSize : Int16) (z : Zone) : Zone × List UInt8 × Int16 :=
  let shengyu := z.downFileSize - z.readIndex
  if shengyu = 0 then (z, [], 0)
  else if UInt32.ofInt outSize.toInt ≤ shengyu then
    let n := UInt32.ofInt outSize.toInt
    ({ z with readIndex := z.readIndex + n },
      bytesAt m (4 + z.readIndex).toNat n.toUInt16.toNat, outSize)
  else
    ({ z with readIndex := z.readIndex + shengyu },
      bytesAt m (4 + z.readIndex).toNat shengyu.toUInt16.toNat, shengyu.toUInt16.toInt16)

/-- `get_down_zone_buffer_offset`; `none` is its -1. -/
def getDownZoneBufferOffset (m : Flash) (z : Zone) (offset : UInt32) (outSize : Int16) :
    Option (List UInt8) :=
  let n := UInt32.ofInt outSize.toInt
  if offset + n ≤ z.downFileSize then some (bytesAt m (4 + offset).toNat n.toUInt16.toNat) else none

/-- The loops that read a file in buffers of `outSize` bytes, until nothing more comes. -/
def readAll (m : Flash) (outSize : Int16) : ℕ → Zone → List UInt8
  | 0, _ => []
  | rounds + 1, z =>
    let next := getDownZoneBuffer m outSize z
    if next.2.2 ≤ 0 then [] else next.2.1 ++ readAll m outSize rounds next.1

/-- The file in the zone. -/
def file (m : Flash) : List UInt8 := bytesAt m 4 (startGetDownZoneSpiflash m).downFileSize.toNat

theorem startGetDownZoneSpiflash_size (m : Flash) :
    (startGetDownZoneSpiflash m).downFileSize.toNat < 524284 := by
  simp only [startGetDownZoneSpiflash]
  split
  · decide
  · next h => exact UInt32.lt_iff_toNat_lt.1 (UInt32.not_le.1 h)

/-! ### A file that is written -/

/-- The full sectors of the data are in the flash, and the rest is in the buffer. -/
structure Holds (m : Flash) (data : List UInt8) (w : W25x) : Prop where
  sector : w.sector.toNat = data.length / sectionSize
  buffer : w.buffer = data.drop (sectionSize * (data.length / sectionSize))
  flash : ∀ x, w.flash x =
    if x < sectionSize * (data.length / sectionSize) then data.getD x 0xFF else m x

theorem Holds.init (w : W25x) : Holds w.flash [] (initWriteFlash w) where
  sector := rfl
  buffer := rfl
  flash x := by simp [initWriteFlash]

/-- One byte more; the index of the sectors does not overflow. -/
theorem Holds.byte {m : Flash} {data : List UInt8} {w : W25x} (h : Holds m data w) (b : UInt8)
    (hlen : data.length < sectionSize * 65535) : Holds m (data ++ [b]) (appendW25xByte w b) := by
  simp only [sectionSize] at hlen
  have hbuffer : w.buffer.length = data.length % 4096 := by
    rw [h.buffer, List.length_drop, sectionSize]
    omega
  simp only [appendW25xByte, List.length_append, List.length_singleton, hbuffer]
  split
  · next hfull =>
    simp only [sectionSize] at hfull
    have hnext : (data.length + 1) / 4096 = data.length / 4096 + 1 := by omega
    refine ⟨?_, ?_, fun x => ?_⟩
    · rw [UInt16.toNat_add, h.sector, List.length_append, List.length_singleton, sectionSize, hnext]
      exact Nat.mod_eq_of_lt (by simp; omega)
    · rw [List.length_append, List.length_singleton, sectionSize, hnext]
      symm
      rw [List.drop_eq_nil_iff, List.length_append, List.length_singleton]
      omega
    · simp only [writeSector, h.sector, h.flash, h.buffer, List.length_append,
        List.length_singleton, erased_and]
      simp only [sectionSize, hnext]
      have hle : 4096 * (data.length / 4096) ≤ data.length := by omega
      obtain hx | hx | hx : x < 4096 * (data.length / 4096) ∨
          (4096 * (data.length / 4096) ≤ x ∧ x < 4096 * (data.length / 4096) + 4096) ∨
          4096 * (data.length / 4096) + 4096 ≤ x := by omega
      · rw [if_neg (by omega), if_pos hx, if_pos (by omega), List.getD_append _ _ _ _ (by omega)]
      · rw [if_pos hx, if_pos (by omega), ← List.drop_append_of_le_length hle,
          List.getD_eq_getElem?_getD, List.getElem?_drop, List.getD_eq_getElem?_getD]
        congr 2
        omega
      · rw [if_neg (by omega), if_neg (by omega), if_neg (by omega)]
  · next hroom =>
    simp only [sectionSize] at hroom
    have hsame : (data.length + 1) / 4096 = data.length / 4096 := by omega
    refine ⟨?_, ?_, fun x => ?_⟩
    · rw [List.length_append, List.length_singleton, sectionSize, hsame]
      exact h.sector
    · rw [List.length_append, List.length_singleton, sectionSize, hsame,
        List.drop_append_of_le_length (by omega), h.buffer, sectionSize]
    · rw [List.length_append, List.length_singleton, sectionSize, hsame]
      refine (h.flash x).trans ?_
      simp only [sectionSize]
      rcases Nat.lt_or_ge x (4096 * (data.length / 4096)) with hx | hx
      · rw [if_pos hx, if_pos hx, List.getD_append _ _ _ _ (by omega)]
      · rw [if_neg (by omega), if_neg (by omega)]

theorem Holds.append {m : Flash} : ∀ (more : List UInt8) {data : List UInt8} {w : W25x},
    Holds m data w → data.length + more.length ≤ sectionSize * 65535 →
    Holds m (data ++ more) (appendW25xAppendBuffer w more)
  | [], data, w, h, _ => by
    rw [List.append_nil]
    exact h
  | b :: more, data, w, h, hlen => by
    rw [List.length_cons] at hlen
    have hnext := Holds.append more (h.byte b (by omega)) (by
      rw [List.length_append, List.length_singleton]
      omega)
    rw [List.append_assoc, List.singleton_append] at hnext
    exact hnext

/-- When the writing has ended, the data is in the flash. -/
theorem Holds.finish {m : Flash} {data : List UInt8} {w : W25x} (h : Holds m data w)
    (hlen : data.length + sectionSize ≤ sectionSize * 65535) :
    bytesAt (w25xAppendEnd w).flash 0 data.length = data := by
  have hbuffer : w.buffer.length = data.length % 4096 := by
    rw [h.buffer, List.length_drop, sectionSize]
    omega
  have hend := h.append (List.replicate (sectionSize - w.buffer.length) 0xFF) (by
    rw [List.length_replicate]
    omega)
  apply List.ext_getElem
  · rw [bytesAt_length]
  · intro i hi _
    rw [bytesAt_length] at hi
    simp only [bytesAt, List.getElem_map, List.getElem_range, Nat.zero_add]
    refine (hend.flash i).trans ?_
    rw [if_pos ?_, List.getD_append _ _ _ _ hi, List.getD_eq_getElem _ _ hi]
    rw [List.length_append, List.length_replicate, hbuffer]
    simp only [sectionSize]
    omega

/-! ### A file that is read in buffers -/

/-- A read gives what comes next of the file, as much as the buffer holds. -/
theorem getDownZoneBuffer_spec (m : Flash) {outSize : Int16} (hout : 0 < outSize) {z : Zone}
    (hsize : z.downFileSize.toNat < 524284) (hread : z.readIndex ≤ z.downFileSize) :
    let n := min outSize.toInt.toNat (z.downFileSize.toNat - z.readIndex.toNat)
    (getDownZoneBuffer m outSize z).2.1 = bytesAt m (4 + z.readIndex.toNat) n ∧
      (getDownZoneBuffer m outSize z).2.2.toInt = n ∧
      (getDownZoneBuffer m outSize z).1.downFileSize = z.downFileSize ∧
      (getDownZoneBuffer m outSize z).1.readIndex.toNat = z.readIndex.toNat + n := by
  have hread : z.readIndex.toNat ≤ z.downFileSize.toNat := UInt32.le_iff_toNat_le.1 hread
  have hpos : 0 < outSize.toInt := by simpa using Int16.lt_iff_toInt_lt.1 hout
  have hmax : outSize.toInt < 2 ^ 15 := outSize.toInt_lt
  obtain ⟨o, ho⟩ : ∃ o : ℕ, outSize.toInt = o := ⟨outSize.toInt.toNat, by omega⟩
  have hout32 : (UInt32.ofInt outSize.toInt).toNat = o := by
    simp only [ho, UInt32.ofInt, UInt32.toNat_ofNat']
    omega
  have haddr : (4 + z.readIndex).toNat = 4 + z.readIndex.toNat := by
    rw [UInt32.toNat_add]
    exact Nat.mod_eq_of_lt (by simp; omega)
  have hleft : (z.downFileSize - z.readIndex).toNat = z.downFileSize.toNat - z.readIndex.toNat :=
    UInt32.toNat_sub_of_le _ _ (UInt32.le_iff_toNat_le.2 hread)
  have ho16 : o < 2 ^ 15 := by omega
  simp only [getDownZoneBuffer, ho, Int.toNat_natCast]
  split
  · next hzero =>
    have hnone : z.downFileSize.toNat - z.readIndex.toNat = 0 := by
      rw [← hleft, hzero]
      rfl
    simp [hnone, bytesAt]
  · rw [← ho]
    split
    · next hle =>
      have hle : o ≤ z.downFileSize.toNat - z.readIndex.toNat := by
        rw [← hleft, ← hout32]
        exact UInt32.le_iff_toNat_le.1 hle
      have hmin : min o (z.downFileSize.toNat - z.readIndex.toNat) = o := by omega
      have hn : (UInt32.ofInt outSize.toInt).toUInt16.toNat = o := by
        rw [UInt32.toNat_toUInt16, hout32]
        omega
      refine ⟨by rw [haddr, hn, hmin], by rw [hmin, ho], rfl, ?_⟩
      rw [hmin]
      change (z.readIndex + UInt32.ofInt outSize.toInt).toNat = _
      rw [UInt32.toNat_add, hout32]
      exact Nat.mod_eq_of_lt (by omega)
    · next hlt =>
      have hlt : z.downFileSize.toNat - z.readIndex.toNat < o := by
        rw [← hleft, ← hout32]
        exact UInt32.lt_iff_toNat_lt.1 (UInt32.not_le.1 hlt)
      have hmin : min o (z.downFileSize.toNat - z.readIndex.toNat) =
          z.downFileSize.toNat - z.readIndex.toNat := by omega
      have hn : (z.downFileSize - z.readIndex).toUInt16.toNat =
          z.downFileSize.toNat - z.readIndex.toNat := by
        rw [UInt32.toNat_toUInt16, hleft]
        omega
      refine ⟨by rw [haddr, hn, hmin], ?_, rfl, ?_⟩
      · rw [hmin]
        change ((z.downFileSize - z.readIndex).toUInt16.toBitVec).toInt = _
        rw [BitVec.toInt_eq_toNat_of_lt (by rw [UInt16.toNat_toBitVec, hn]; omega),
          UInt16.toNat_toBitVec, hn]
      · rw [hmin]
        change (z.readIndex + (z.downFileSize - z.readIndex)).toNat = _
        rw [UInt32.toNat_add, hleft]
        exact Nat.mod_eq_of_lt (by omega)

/-- Enough rounds read the rest of the file. -/
theorem readAll_eq (m : Flash) {outSize : Int16} (hout : 0 < outSize) : ∀ (rounds : ℕ) {z : Zone},
    z.downFileSize.toNat < 524284 → z.readIndex ≤ z.downFileSize →
    z.downFileSize.toNat - z.readIndex.toNat < rounds →
    readAll m outSize rounds z =
      bytesAt m (4 + z.readIndex.toNat) (z.downFileSize.toNat - z.readIndex.toNat)
  | 0, _, _, _, h => by omega
  | rounds + 1, z, hsize, hread, hrounds => by
    obtain ⟨hdata, hlen, hfile, hindex⟩ := getDownZoneBuffer_spec m hout hsize hread
    have hread : z.readIndex.toNat ≤ z.downFileSize.toNat := UInt32.le_iff_toNat_le.1 hread
    have hpos : 0 < outSize.toInt := by simpa using Int16.lt_iff_toInt_lt.1 hout
    simp only [readAll]
    split
    · next hend =>
      have hend : ((getDownZoneBuffer m outSize z).2.2).toInt ≤ 0 := by
        simpa using Int16.le_iff_toInt_le.1 hend
      have hnone : z.downFileSize.toNat - z.readIndex.toNat = 0 := by omega
      rw [hnone]
      rfl
    · next hmore =>
      have hmore : 0 < ((getDownZoneBuffer m outSize z).2.2).toInt := by
        simpa using Int16.lt_iff_toInt_lt.1 (Int16.not_le.1 hmore)
      have hle : (getDownZoneBuffer m outSize z).1.readIndex ≤
          (getDownZoneBuffer m outSize z).1.downFileSize := by
        rw [UInt32.le_iff_toNat_le, hfile, hindex]
        omega
      rw [readAll_eq m hout rounds (by rw [hfile]; exact hsize) hle (by rw [hfile, hindex]; omega),
        hdata, hfile, hindex, ← Nat.add_assoc, ← bytesAt_add]
      congr 1
      omega

/-- A read from the start, with a buffer of any size, gives the file. -/
theorem readAll_file (m : Flash) {outSize : Int16} (hout : 0 < outSize) {rounds : ℕ}
    (hrounds : (startGetDownZoneSpiflash m).downFileSize.toNat < rounds) :
    readAll m outSize rounds (startGetDownZoneSpiflash m) = file m :=
  readAll_eq m hout rounds (startGetDownZoneSpiflash_size m) UInt32.zero_le
    (lt_of_le_of_lt (Nat.sub_le ..) hrounds)

/-- A byte of the file, by its offset. -/
theorem getDownZoneBufferOffset_byte (m : Flash) {z : Zone} (hsize : z.downFileSize.toNat < 524284)
    {offset : UInt32} (h : offset < z.downFileSize) :
    getDownZoneBufferOffset m z offset 1 = some [m (4 + offset.toNat)] := by
  have h : offset.toNat < z.downFileSize.toNat := UInt32.lt_iff_toNat_lt.1 h
  have hone : (UInt32.ofInt (1 : Int16).toInt) = 1 := by decide
  have hle : offset + 1 ≤ z.downFileSize := by
    rw [UInt32.le_iff_toNat_le, UInt32.toNat_add]
    simp only [UInt32.reduceToNat]
    omega
  have haddr : (4 + offset).toNat = 4 + offset.toNat := by
    rw [UInt32.toNat_add]
    exact Nat.mod_eq_of_lt (by simp; omega)
  simp only [getDownZoneBufferOffset, hone, if_pos hle, haddr]
  rfl

end EasyCore.DownZone
