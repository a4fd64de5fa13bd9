import EasyCore.App.FlashOpt
import EasyCore.App.HttpUpload

/-! The picture in `JpegBuffer`, block by block (`get_upload_data`, `applications/isp_http_tcp.c`).

        | 512 | 512 | .. | rest |
        ^0    ^512       ^cnt - rest, where the last block belongs; it is taken from `rest` -/

namespace EasyCore.JpegUpload

/-- A part of `JpegBuffer`: `opt->buf`, from its begin, and `opt->buflen`. -/
structure Block where
  buf : UInt32
  buflen : UInt32

/-- `get_upload_data`, with `JpegDataCnt` and `JpegBuffer_put_total`; `buflen` is what it
    returns. -/
def getUploadData (jpegDataCnt : UInt32) (putTotal : UInt16) : UInt16 × Block :=
  if 512 ≤ jpegDataCnt - putTotal.toUInt32 then
    (putTotal + 512, ⟨putTotal.toUInt32, 512⟩)
  else
    (jpegDataCnt.toUInt16, ⟨jpegDataCnt - putTotal.toUInt32, jpegDataCnt - putTotal.toUInt32⟩)

/-- The blocks of repeated calls, up to one of length 0; `none` when there is none so far. -/
def blocks (jpegDataCnt : UInt32) : ℕ → UInt16 → Option (List Block)
  | 0, _ => none
  | fuel + 1, putTotal =>
    let next := getUploadData jpegDataCnt putTotal
    if next.2.buflen = 0 then some []
    else (next.2 :: ·) <$> blocks jpegDataCnt fuel next.1

/-- Each block starts where the one in front of it ends; from `a` to `e`. -/
def Contiguous : ℕ → List Block → ℕ → Prop
  | a, [], e => a = e
  | a, b :: bs, e => b.buf.toNat = a ∧ Contiguous (a + b.buflen.toNat) bs e

/-- The bytes of blocks. -/
def bytes (jpegBuffer : ℕ → UInt8) (bs : List Block) : List UInt8 :=
  bs.flatMap fun b => FlashOpt.bytesAt jpegBuffer b.buf.toNat b.buflen.toNat

/-- The blocks come to an end, and join to the picture. -/
structure Joined (jpegDataCnt : UInt32) (bs : List Block) : Prop where
  ends : ∃ fuel, blocks jpegDataCnt fuel 0 = some bs
  contiguous : Contiguous 0 bs jpegDataCnt.toNat
  concat : ∀ jpegBuffer, bytes jpegBuffer bs = FlashOpt.bytesAt jpegBuffer 0 jpegDataCnt.toNat

theorem contiguous_bytes (jpegBuffer : ℕ → UInt8) : ∀ {bs : List Block} {a e : ℕ},
    Contiguous a bs e → a ≤ e ∧ bytes jpegBuffer bs = FlashOpt.bytesAt jpegBuffer a (e - a)
  | [], a, e, h => by
    obtain rfl : a = e := h
    rw [Nat.sub_self]
    exact ⟨le_rfl, rfl⟩
  | b :: bs, a, e, ⟨hbuf, hrest⟩ => by
    obtain ⟨hle, hbytes⟩ := contiguous_bytes jpegBuffer hrest
    refine ⟨by omega, ?_⟩
    have hsplit : e - a = b.buflen.toNat + (e - (a + b.buflen.toNat)) := by omega
    rw [hsplit, FlashOpt.bytesAt_add, ← hbytes, ← hbuf]
    rfl

section Block

variable {cnt : UInt32} {total : UInt16}

theorem toNat_rest (h : total.toNat ≤ cnt.toNat) :
    (cnt - total.toUInt32).toNat = cnt.toNat - total.toNat := by
  rw [UInt32.toNat_sub_of_le _ _ (UInt32.le_iff_toNat_le.2 (by rwa [UInt16.toNat_toUInt32])),
    UInt16.toNat_toUInt32]

theorem blocks_full (h : total.toNat + 512 ≤ cnt.toNat) (fuel : ℕ) :
    blocks cnt (fuel + 1) total =
      (⟨total.toUInt32, 512⟩ :: ·) <$> blocks cnt fuel (total + 512) := by
  have hfull : 512 ≤ cnt - total.toUInt32 := by
    rw [UInt32.le_iff_toNat_le, toNat_rest (by omega)]
    simp only [UInt32.reduceToNat]
    omega
  rw [blocks, getUploadData, if_pos hfull]
  exact if_neg (by decide : ¬ (512 : UInt32) = 0)

theorem blocks_short (h : total.toNat ≤ cnt.toNat) (hshort : cnt.toNat < total.toNat + 512)
    (fuel : ℕ) :
    blocks cnt (fuel + 1) total = if cnt - total.toUInt32 = 0 then some []
      else (⟨cnt - total.toUInt32, cnt - total.toUInt32⟩ :: ·) <$> blocks cnt fuel cnt.toUInt16 := by
  have hrest : ¬ 512 ≤ cnt - total.toUInt32 := by
    rw [UInt32.le_iff_toNat_le, toNat_rest h]
    simp only [UInt32.reduceToNat]
    omega
  rw [blocks, getUploadData, if_neg hrest]

theorem toNat_full (total : UInt16) (h : total.toNat + 512 < 65536) : (total + 512).toNat = total.toNat + 512 := by
  rw [UInt16.toNat_add]
  exact Nat.mod_eq_of_lt h

end Block

/-- The total wraps before it reaches a length of 65536 or more, and there is always another
    block. -/
theorem blocks_long {cnt : UInt32} (hlong : 65536 ≤ cnt.toNat) : ∀ (fuel : ℕ) {total : UInt16},
    total.toNat % 512 = 0 → blocks cnt fuel total = none
  | 0, _, _ => rfl
  | fuel + 1, total, htotal => by
    have hlt : total.toNat < 65536 := total.toNat_lt
    have hnext : (total + 512).toNat % 512 = 0 := by
      rw [UInt16.toNat_add]
      simp only [UInt16.reduceToNat]
      omega
    rw [blocks_full (by omega), blocks_long hlong fuel hnext]
    rfl

/-- Whole blocks go from one to the next, to the end. -/
theorem blocks_whole {cnt : UInt32} (hcnt : cnt.toNat < 65536) : ∀ (n : ℕ) (total : UInt16),
    total.toNat + 512 * n = cnt.toNat →
    ∃ bs, blocks cnt (n + 1) total = some bs ∧ Contiguous total.toNat bs cnt.toNat
  | 0, total, h => by
    have hnone : cnt - total.toUInt32 = 0 := by
      apply UInt32.toNat_inj.1
      rw [toNat_rest (by omega)]
      simp only [UInt32.reduceToNat]
      omega
    refine ⟨[], ?_, by simpa [Contiguous] using h⟩
    rw [blocks_short (by omega) (by omega), if_pos hnone]
  | n + 1, total, h => by
    have hnext := toNat_full total (by omega)
    obtain ⟨bs, hbs, hjoin⟩ := blocks_whole hcnt n (total + 512) (by omega)
    refine ⟨⟨total.toUInt32, 512⟩ :: bs, ?_, ?_, ?_⟩
    · rw [blocks_full (by omega), hbs]
      rfl
    · rw [UInt16.toNat_toUInt32]
    · rw [hnext] at hjoin
      exact hjoin

/-- A block that is not whole starts in the wrong place. -/
theorem mod_of_contiguous {cnt : UInt32} (hcnt : cnt.toNat < 65536) : ∀ (fuel : ℕ) {total : UInt16}
    {bs : List Block}, total.toNat % 512 = 0 → total.toNat ≤ cnt.toNat →
    blocks cnt fuel total = some bs → Contiguous total.toNat bs cnt.toNat → cnt.toNat % 512 = 0
  | 0, _, _, _, _, h, _ => absurd h.symm (Option.some_ne_none _)
  | fuel + 1, total, bs, htotal, hle, h, hjoin => by
    rcases Nat.lt_or_ge cnt.toNat (total.toNat + 512) with hshort | hfull
    · have hrest := toNat_rest hle
      rw [blocks_short hle hshort] at h
      split at h
      · next hnone =>
        have hnone : cnt.toNat - total.toNat = 0 := by
          rw [← hrest, hnone]
          rfl
        omega
      · next hsome =>
        obtain ⟨bs', -, rfl⟩ := Option.map_eq_some_iff.1 h
        have hstart : (cnt - total.toUInt32).toNat = total.toNat := hjoin.1
        have hpos : (cnt - total.toUInt32).toNat ≠ 0 := fun h0 => hsome (UInt32.toNat_inj.1 h0)
        omega
    · have hnext := toNat_full total
      rw [blocks_full hfull] at h
      obtain ⟨bs', hbs, rfl⟩ := Option.map_eq_some_iff.1 h
      rcases Nat.lt_or_ge (total.toNat + 512) 65536 with hlt | hge
      · refine mod_of_contiguous hcnt fuel ?_ ?_ hbs ?_
        · rw [hnext hlt]
          omega
        · rw [hnext hlt]
          exact hfull
        · rw [hnext hlt]
          exact hjoin.2
      · omega

/-- The blocks join to the picture exactly when all of them are whole, and the total has room for
    the length. -/
theorem joined_iff (cnt : UInt32) :
    (∃ bs, Joined cnt bs) ↔ cnt.toNat % 512 = 0 ∧ cnt.toNat < 65536 := by
  constructor
  · rintro ⟨bs, ⟨fuel, hbs⟩, hjoin, -⟩
    rcases Nat.lt_or_ge cnt.toNat 65536 with hcnt | hlong
    · exact ⟨mod_of_contiguous hcnt fuel rfl (Nat.zero_le _) hbs hjoin, hcnt⟩
    · rw [blocks_long hlong fuel rfl] at hbs
      exact absurd hbs.symm (Option.some_ne_none _)
  · rintro ⟨hmod, hcnt⟩
    obtain ⟨bs, hbs, hjoin⟩ := blocks_whole hcnt (cnt.toNat / 512) 0 (by
      simp only [UInt16.reduceToNat]
      omega)
    exact ⟨bs, ⟨_, hbs⟩, hjoin, fun jpegBuffer => (contiguous_bytes jpegBuffer hjoin).2⟩

/-- A picture of 700 bytes: its second block is taken from offset 188. -/
theorem not_joined_700 : ¬ ∃ bs, Joined 700 bs := by
  rintro ⟨bs, ⟨fuel, hbs⟩, hjoin, -⟩
  have hmod : (700 : UInt32).toNat % 512 = 0 :=
    mod_of_contiguous (by decide) fuel rfl (Nat.zero_le _) hbs hjoin
  exact absurd hmod (by decide)

/-- The block that the upload client takes is this one. -/
theorem getUploadData_upload (p : HttpUpload.Picture) (u : HttpUpload.Upload) :
    let block := getUploadData (UInt32.ofNat p.image.length) u.index
    HttpUpload.getUploadData p u =
      { u with
        index := block.1
        buf := some (HttpUpload.jpegBytes p block.2.buf.toNat block.2.buflen.toNat)
        buflen := block.2.buflen.toNat } := by
  have hcnt : (UInt32.ofNat p.image.length).toUInt16 = UInt16.ofNat p.image.length := by
    apply UInt16.toNat_inj.1
    rw [UInt32.toNat_toUInt16, UInt32.toNat_ofNat', UInt16.toNat_ofNat']
    omega
  simp only [getUploadData, HttpUpload.getUploadData, ← hcnt]
  split
  · rw [UInt16.toNat_toUInt32]
    rfl
  · rfl

end EasyCore.JpegUpload
