import EasyCore.App.FlashOpt
import EasyCore.Lib.Nor

/-! The SPI flash (`drivers/extdrv/w25q16.c`): it is erased by sectors and programmed by pages.

        SPI_Flash_Write          sectors: read, look for 0xFF, erase, copy
          SPI_Flash_Write_NoCheck     pages of 256 bytes
            SPI_Flash_Write_Page           one command -/

namespace EasyCore.SpiFlash
open FlashOpt

/-! ### Commands -/

/-- The chip has the sectors 0~511. -/
def chipSize : ℕ := 512 * 4096

/-- The commands that change the flash, with the addresses that are sent. -/
inductive SpiOp
  | eraseSector (addr : ℕ)
  | programPage (addr : ℕ) (data : List UInt8)
  deriving DecidableEq

/-- A page that is programmed ends in its page, or else it would go on at the page's begin. -/
def SpiOp.InPage : SpiOp → Prop
  | eraseSector _ => True
  | programPage addr data => addr % 256 + data.length ≤ 256

def SpiOp.Within (lo hi : ℕ) : SpiOp → Prop
  | eraseSector addr => lo ≤ addr ∧ addr + 4096 ≤ hi
  | programPage addr data => lo ≤ addr ∧ addr + data.length ≤ hi

def SpiOp.run (m : Flash) : SpiOp → Flash
  | eraseSector addr => Nor.erase m addr 4096
  | programPage addr data => Nor.program m addr data

/-- The flash, what has been sent to it, and `SPI_FLASH_BUF`. -/
structure Dev where
  flash : Flash
  ops : List SpiOp
  buf : ℕ → UInt8

def Dev.send (d : Dev) (op : SpiOp) : Dev :=
  { d with
    flash := op.run d.flash
    ops := d.ops ++ [op] }

/-- Three bytes of an address are sent. -/
def addr24 (addr : UInt32) : ℕ := addr.toNat % 2 ^ 24

/-- `SPI_Flash_Read`, into `SPI_FLASH_BUF`. -/
def spiFlashRead (d : Dev) (readAddr : UInt32) (numByteToRead : UInt16) : Dev :=
  { d with
    buf := fun i => if i < numByteToRead.toNat then d.flash (addr24 readAddr + i) else d.buf i }

/-- `SPI_Flash_Erase_Sector` -/
def spiFlashEraseSector (d : Dev) (dstAddr : UInt32) : Dev :=
  d.send (.eraseSector (addr24 (dstAddr * 4096)))

/-- `SPI_Flash_Write_Page` -/
def spiFlashWritePage (d : Dev) (pBuffer : List UInt8) (writeAddr : UInt32)
    (numByteToWrite : UInt16) : Dev :=
  d.send (.programPage (addr24 writeAddr) (pBuffer.take numByteToWrite.toNat))

/-! ### Writing -/

/-- The loop of `SPI_Flash_Write_NoCheck`; `none` when it has not ended. -/
def noCheckLoop : ℕ → Dev → List UInt8 → UInt32 → UInt16 → UInt16 → Option Dev
  | 0, _, _, _, _, _ => none
  | fuel + 1, d, pBuffer, writeAddr, numByteToWrite, pageremain =>
    let d := spiFlashWritePage d pBuffer writeAddr pageremain
    if numByteToWrite = pageremain then some d
    else
      let left := numByteToWrite - pageremain
      noCheckLoop fuel d (pBuffer.drop pageremain.toNat) (writeAddr + pageremain.toUInt32) left
        (if 256 < left then 256 else left)

/-- `SPI_Flash_Write_NoCheck` -/
def spiFlashWriteNoCheck (d : Dev) (pBuffer : List UInt8) (writeAddr : UInt32)
    (numByteToWrite : UInt16) : Option Dev :=
  let pageremain := 256 - (writeAddr % 256).toUInt16
  noCheckLoop (numByteToWrite.toNat + 1) d pBuffer writeAddr numByteToWrite
    (if numByteToWrite ≤ pageremain then numByteToWrite else pageremain)

/-- What `SPI_Flash_Write` does in one sector; `SPI_Flash_Write2` does not check, and always
    erases. -/
def writeSector (check : Bool) (d : Dev) (pBuffer : List UInt8) (secpos writeAddr : UInt32)
    (secoff secremain : UInt16) : Option Dev :=
  let d := if check then spiFlashRead d (secpos * 4096) 4096 else d
  let i := if check then
      (List.range secremain.toNat).findIdx fun i => d.buf (secoff.toNat + i) != 0xFF
    else 0
  if i < secremain.toNat then
    let d := spiFlashEraseSector d secpos
    let d := { d with buf := Nor.put d.buf secoff.toNat (pBuffer.take secremain.toNat) }
    spiFlashWriteNoCheck d (bytesAt d.buf 0 4096) (secpos * 4096) 4096
  else spiFlashWriteNoCheck d pBuffer writeAddr secremain

/-- The loop of both. -/
def writeLoop (check : Bool) : ℕ → Dev → List UInt8 → UInt32 → UInt32 → UInt16 → UInt16 → UInt16 →
    Option Dev
  | 0, _, _, _, _, _, _, _ => none
  | fuel + 1, d, pBuffer, secpos, writeAddr, secoff, numByteToWrite, secremain => do
    let d ← writeSector check d pBuffer secpos writeAddr secoff secremain
    if numByteToWrite = secremain then some d
    else
      let left := numByteToWrite - secremain
      writeLoop check fuel d (pBuffer.drop secremain.toNat) (secpos + 1)
        (writeAddr + secremain.toUInt32) 0 left (if 4096 < left then 4096 else left)

def write (check : Bool) (d : Dev) (pBuffer : List UInt8) (writeAddr : UInt32)
    (numByteToWrite : UInt16) : Option Dev :=
  let secoff := (writeAddr % 4096).toUInt16
  let secremain := 4096 - secoff
  writeLoop check (numByteToWrite.toNat + 1) d pBuffer (writeAddr / 4096) writeAddr secoff
    numByteToWrite (if numByteToWrite ≤ secremain then numByteToWrite else secremain)

/-- `SPI_Flash_Write`, from a buffer that is not `SPI_FLASH_BUF`. -/
def spiFlashWrite : Dev → List UInt8 → UInt32 → UInt16 → Option Dev := write true

/-- `SPI_Flash_Write2` -/
def spiFlashWrite2 : Dev → List UInt8 → UInt32 → UInt16 → Option Dev := write false

/-! ### Pages -/

/-- What has been sent since: nothing outside of `[lo, hi)`, and each page stays in its page. -/
def Wrote (lo hi : ℕ) (d d' : Dev) : Prop :=
  ∃ new, d'.ops = d.ops ++ new ∧ ∀ op ∈ new, op.InPage ∧ op.Within lo hi

theorem SpiOp.Within.mono {lo hi lo' hi' : ℕ} {op : SpiOp} (h : op.Within lo hi) (hlo : lo' ≤ lo)
    (hhi : hi ≤ hi') : op.Within lo' hi' := by
  cases op with
  | eraseSector addr => exact ⟨hlo.trans h.1, h.2.trans hhi⟩
  | programPage addr data => exact ⟨hlo.trans h.1, h.2.trans hhi⟩

theorem Wrote.trans {lo hi : ℕ} {d d' d'' : Dev} (h : Wrote lo hi d d') (h' : Wrote lo hi d' d'') :
    Wrote lo hi d d'' := by
  obtain ⟨new, hops, hnew⟩ := h
  obtain ⟨new', hops', hnew'⟩ := h'
  refine ⟨new ++ new', by rw [hops', hops, List.append_assoc], ?_⟩
  intro op hop
  rcases List.mem_append.1 hop with hop | hop
  · exact hnew op hop
  · exact hnew' op hop

theorem Wrote.mono {lo hi lo' hi' : ℕ} {d d' : Dev} (h : Wrote lo hi d d') (hlo : lo' ≤ lo)
    (hhi : hi ≤ hi') : Wrote lo' hi' d d' := by
  obtain ⟨new, hops, hnew⟩ := h
  exact ⟨new, hops, fun op hop => ⟨(hnew op hop).1, (hnew op hop).2.mono hlo hhi⟩⟩

theorem Wrote.of_ops {lo hi : ℕ} {e d d' : Dev} (h : Wrote lo hi e d') (hops : e.ops = d.ops) :
    Wrote lo hi d d' := by
  rwa [Wrote, hops] at h

theorem wrote_send {lo hi : ℕ} {d : Dev} {op : SpiOp} (hpage : op.InPage)
    (hwithin : op.Within lo hi) : Wrote lo hi d (d.send op) := by
  refine ⟨[op], rfl, ?_⟩
  intro o ho
  rw [List.mem_singleton] at ho
  subst ho
  exact ⟨hpage, hwithin⟩

theorem addr24_eq {a : UInt32} (h : a.toNat < 2 ^ 24) : addr24 a = a.toNat := Nat.mod_eq_of_lt h

theorem toNat_add_toUInt32 {a : UInt32} {n : UInt16} (h : a.toNat + n.toNat ≤ 2 ^ 24) :
    (a + n.toUInt32).toNat = a.toNat + n.toNat := by
  rw [UInt32.toNat_add, UInt16.toNat_toUInt32]
  exact Nat.mod_eq_of_lt (by omega)

/-- The rest of what is written, after a part of it. -/
theorem toNat_left {num part : UInt16} (h : part ≤ num) (most : UInt16) :
    (num - part).toNat = num.toNat - part.toNat ∧
      (if most < num - part then most else num - part).toNat =
        min (num.toNat - part.toNat) most.toNat := by
  have hleft : (num - part).toNat = num.toNat - part.toNat := UInt16.toNat_sub_of_le _ _ h
  refine ⟨hleft, ?_⟩
  split
  · next hmost =>
    have := UInt16.lt_iff_toNat_lt.1 hmost
    omega
  · next hmost =>
    have := UInt16.le_iff_toNat_le.1 (UInt16.not_lt.1 hmost)
    omega

/-- The loop programs all of the bytes, a page after the other. -/
theorem noCheckLoop_spec : ∀ (fuel : ℕ) (d : Dev) (data : List UInt8) (a : UInt32)
    (num pageremain : UInt16), num.toNat < fuel → num.toNat ≤ data.length →
    a.toNat + num.toNat ≤ 2 ^ 24 → pageremain.toNat = min num.toNat (256 - a.toNat % 256) →
    (a.toNat < 2 ^ 24) →
    ∃ d', noCheckLoop fuel d data a num pageremain = some d' ∧ d'.buf = d.buf ∧
      d'.flash = Nor.program d.flash a.toNat (data.take num.toNat) ∧
      Wrote a.toNat (a.toNat + num.toNat) d d' := by
  intro fuel
  induction fuel with
  | zero => intro _ _ _ _ _ h; omega
  | succ fuel ih =>
    intro d data a num pageremain hfuel hdata hend hpage ha
    have hpageLe : pageremain ≤ num := UInt16.le_iff_toNat_le.2 (by omega)
    have hlen : (data.take pageremain.toNat).length = pageremain.toNat := by
      rw [List.length_take]
      omega
    have hsent : Wrote a.toNat (a.toNat + num.toNat) d (spiFlashWritePage d data a pageremain) := by
      apply wrote_send
      · rw [SpiOp.InPage, hlen, addr24_eq ha]
        omega
      · rw [SpiOp.Within, hlen, addr24_eq ha]
        omega
    simp only [noCheckLoop]
    split
    · next hlast =>
      refine ⟨_, rfl, rfl, ?_, hsent⟩
      rw [hlast]
      exact congrArg (Nor.program d.flash · _) (addr24_eq ha)
    · next hmore =>
      have hmore : pageremain.toNat ≠ num.toNat := fun h => hmore (UInt16.toNat_inj.1 h).symm
      obtain ⟨hleft, hnext⟩ := toNat_left hpageLe 256
      have hadd := toNat_add_toUInt32 (a := a) (n := pageremain) (by omega)
      have hpageSize : (256 : UInt16).toNat = 256 := rfl
      obtain ⟨d', hrun, hbuf, hflash, hwrote⟩ := ih (spiFlashWritePage d data a pageremain)
        (data.drop pageremain.toNat) (a + pageremain.toUInt32) (num - pageremain)
        (if 256 < num - pageremain then 256 else num - pageremain) (by omega)
        (by rw [List.length_drop]; omega) (by omega) (by omega) (by omega)
      refine ⟨d', hrun, hbuf, ?_, hsent.trans (hwrote.mono (by omega) (by omega))⟩
      have hfirst : (spiFlashWritePage d data a pageremain).flash =
          Nor.program d.flash a.toNat (data.take pageremain.toNat) :=
        congrArg (Nor.program d.flash · _) (addr24_eq ha)
      have hrest : a.toNat + pageremain.toNat =
          a.toNat + (data.take pageremain.toNat).length := by rw [hlen]
      rw [hflash, hadd, hleft, hfirst, hrest, Nor.program_append, ← List.take_add,
        Nat.add_sub_cancel' (by omega)]

/-- What is left of a block of which `a` is inside. -/
theorem toNat_rest (a : UInt32) {block : UInt32} {size : UInt16} (hsize : size.toNat = block.toNat)
    (hpos : 0 < block.toNat) :
    (size - (a % block).toUInt16).toNat = size.toNat - a.toNat % block.toNat := by
  have hlt : a.toNat % block.toNat < block.toNat := Nat.mod_lt _ hpos
  have hsmall : size.toNat < 65536 := size.toNat_lt
  have hoff : (a % block).toUInt16.toNat = a.toNat % block.toNat := by
    rw [UInt32.toNat_toUInt16, UInt32.toNat_mod]
    exact Nat.mod_eq_of_lt (by omega)
  rw [UInt16.toNat_sub_of_le _ _ (UInt16.le_iff_toNat_le.2 (by omega)), hoff]

theorem toNat_least (num rest : UInt16) :
    (if num ≤ rest then num else rest).toNat = min num.toNat rest.toNat := by
  split
  · next h =>
    have := UInt16.le_iff_toNat_le.1 h
    omega
  · next h =>
    have := UInt16.lt_iff_toNat_lt.1 (UInt16.not_le.1 h)
    omega

theorem spiFlashWriteNoCheck_spec (d : Dev) (data : List UInt8) (a : UInt32) (num : UInt16)
    (hdata : num.toNat ≤ data.length) (hend : a.toNat + num.toNat ≤ 2 ^ 24)
    (ha : a.toNat < 2 ^ 24) :
    ∃ d', spiFlashWriteNoCheck d data a num = some d' ∧ d'.buf = d.buf ∧
      d'.flash = Nor.program d.flash a.toNat (data.take num.toNat) ∧
      Wrote a.toNat (a.toNat + num.toNat) d d' := by
  have hrest : (256 - (a % 256).toUInt16).toNat = 256 - a.toNat % 256 :=
    toNat_rest a rfl (by decide)
  exact noCheckLoop_spec _ d data a num _ (Nat.lt_succ_self _) hdata hend
    (by rw [toNat_least, hrest]) ha

/-! ### Sectors -/

theorem toNat_sector {secpos : UInt32} (h : secpos.toNat * 4096 + 4096 ≤ 2 ^ 24) :
    (secpos * 4096).toNat = secpos.toNat * 4096 ∧
      addr24 (secpos * 4096) = secpos.toNat * 4096 := by
  have hmul : (secpos * 4096).toNat = secpos.toNat * 4096 := by
    rw [UInt32.toNat_mul]
    exact Nat.mod_eq_of_lt (by simp; omega)
  exact ⟨hmul, by rw [addr24_eq (by omega), hmul]⟩

theorem bytesAt_zero (m : Flash) (n : ℕ) : bytesAt m 0 n = (List.range n).map m := by
  simp [bytesAt]

theorem bytesAt_put (m : Flash) (a : ℕ) (data : List UInt8) :
    bytesAt (Nor.put m a data) a data.length = data := by
  apply List.ext_getElem
  · rw [bytesAt_length]
  · intro i _ hi
    simp only [bytesAt, List.getElem_map, List.getElem_range]
    exact Nor.put_inside hi

/-- A sector is erased, and then takes an image of all of it. -/
theorem eraseSector_image (d : Dev) (buf : ℕ → UInt8) (secpos : UInt32) (image : List UInt8)
    (hsector : secpos.toNat * 4096 + 4096 ≤ 2 ^ 24) (hlen : image.length = 4096) :
    ∃ d', spiFlashWriteNoCheck { spiFlashEraseSector d secpos with buf } image (secpos * 4096) 4096 =
        some d' ∧
      d'.flash = Nor.put d.flash (secpos.toNat * 4096) image ∧
      (∃ new, d'.ops = d.ops ++ new ∧ .eraseSector (secpos.toNat * 4096) ∈ new) ∧
      Wrote (secpos.toNat * 4096) (secpos.toNat * 4096 + 4096) d d' := by
  obtain ⟨hmul, haddr⟩ := toNat_sector hsector
  have hsize : (4096 : UInt16).toNat = 4096 := rfl
  obtain ⟨d', hrun, -, hflash, hwrote⟩ := spiFlashWriteNoCheck_spec
    { spiFlashEraseSector d secpos with buf } image (secpos * 4096) 4096 (by omega) (by omega)
    (by omega)
  have herase : Wrote (secpos.toNat * 4096) (secpos.toNat * 4096 + 4096) d
      (spiFlashEraseSector d secpos) := by
    apply wrote_send
    · trivial
    · rw [haddr]
      exact ⟨le_rfl, le_rfl⟩
  rw [hmul, hsize] at hwrote
  refine ⟨d', hrun, ?_, ?_, herase.trans hwrote⟩
  · rw [hflash, hmul, hsize, List.take_of_length_le hlen.le]
    change Nor.program (Nor.erase d.flash (addr24 (secpos * 4096)) 4096) _ _ = _
    rw [haddr, Nor.program_erase hlen]
  · obtain ⟨new, hops, -⟩ := hwrote
    refine ⟨.eraseSector (secpos.toNat * 4096) :: new, ?_, List.mem_cons_self ..⟩
    rw [hops]
    change d.ops ++ [.eraseSector (addr24 (secpos * 4096))] ++ new = _
    rw [haddr, List.append_assoc, List.singleton_append]

/-- `SPI_Flash_Write` in one sector: what stands around the data is kept. -/
theorem writeSector_checked (d : Dev) (data : List UInt8) {secpos a : UInt32}
    {secoff : UInt16} (secremain : UInt16) (ha : a.toNat = secpos.toNat * 4096 + secoff.toNat)
    (hfits : secoff.toNat + secremain.toNat ≤ 4096) (hoff : secoff.toNat < 4096)
    (hsector : secpos.toNat * 4096 + 4096 ≤ 2 ^ 24) (hdata : secremain.toNat ≤ data.length) :
    ∃ d', writeSector true d data secpos a secoff secremain = some d' ∧
      d'.flash = Nor.put d.flash a.toNat (data.take secremain.toNat) ∧
      Wrote (secpos.toNat * 4096) (secpos.toNat * 4096 + 4096) d d' := by
  have hlen : (data.take secremain.toNat).length = secremain.toNat := by
    rw [List.length_take]
    omega
  simp only [writeSector, if_true]
  generalize hd : spiFlashRead d (secpos * 4096) 4096 = e
  have hread : ∀ i, i < 4096 → e.buf i = d.flash (secpos.toNat * 4096 + i) := by
    intro i hi
    subst hd
    simp only [spiFlashRead, (toNat_sector hsector).2]
    exact if_pos hi
  have hflash : e.flash = d.flash := by rw [← hd]; rfl
  have hops : e.ops = d.ops := by rw [← hd]; rfl
  split
  · obtain ⟨d', hrun, hput, -, hwrote⟩ := eraseSector_image e
      (Nor.put e.buf secoff.toNat (data.take secremain.toNat)) secpos
      (bytesAt (Nor.put e.buf secoff.toNat (data.take secremain.toNat)) 0 4096) hsector
      (bytesAt_length ..)
    refine ⟨d', hrun, ?_, hwrote.of_ops hops⟩
    rw [hput, ha, hflash]
    rw [bytesAt_zero, Nor.put_window hread (by omega)]
  · next hblank =>
    obtain ⟨d', hrun, -, hprogram, hwrote⟩ := spiFlashWriteNoCheck_spec e data a secremain hdata
      (by omega) (by omega)
    have hinside : secpos.toNat * 4096 ≤ a.toNat ∧
        a.toNat + secremain.toNat ≤ secpos.toNat * 4096 + 4096 := by omega
    refine ⟨d', hrun, ?_, (hwrote.of_ops hops).mono hinside.1 hinside.2⟩
    rw [hprogram, hflash]
    apply Nor.program_blank
    intro x hx hlt
    rw [hlen] at hlt
    have hall := List.findIdx_eq_length.1 (le_antisymm List.findIdx_le_length
      ((List.length_range ..).trans_le (Nat.not_lt.1 hblank)))
    have hbyte := hall (x - a.toNat) (List.mem_range.2 (by omega))
    rw [hread _ (by omega)] at hbyte
    have hx' : secpos.toNat * 4096 + (secoff.toNat + (x - a.toNat)) = x := by omega
    rw [hx'] at hbyte
    exact bne_eq_false_iff_eq.1 hbyte

/-- Sector after sector; what is sent stays in the sectors that the data covers. -/
theorem writeLoop_checked : ∀ (fuel : ℕ) (d : Dev) (data : List UInt8) (secpos a : UInt32)
    (secoff num secremain : UInt16), num.toNat < fuel → num.toNat ≤ data.length →
    a.toNat = secpos.toNat * 4096 + secoff.toNat → secoff.toNat < 4096 →
    secremain.toNat = min num.toNat (4096 - secoff.toNat) → 0 < num.toNat →
    a.toNat + num.toNat ≤ 2 ^ 24 →
    ∃ d', writeLoop true fuel d data secpos a secoff num secremain = some d' ∧
      d'.flash = Nor.put d.flash a.toNat (data.take num.toNat) ∧
      Wrote (secpos.toNat * 4096) ((a.toNat + num.toNat + 4095) / 4096 * 4096) d d' := by
  intro fuel
  induction fuel with
  | zero => intro _ _ _ _ _ _ _ h; omega
  | succ fuel ih =>
    intro d data secpos a secoff num secremain hfuel hdata ha hoff hrem hpos hend
    have hremLe : secremain ≤ num := UInt16.le_iff_toNat_le.2 (by omega)
    have hlen : (data.take secremain.toNat).length = secremain.toNat := by
      rw [List.length_take]
      omega
    obtain ⟨e, hsector, hput, hsent⟩ := writeSector_checked d data secremain ha
      (by omega) hoff (by omega) (by omega)
    have hcover : secpos.toNat * 4096 + 4096 ≤ (a.toNat + num.toNat + 4095) / 4096 * 4096 := by
      omega
    simp only [writeLoop, hsector, Option.bind_eq_bind, Option.bind_some]
    split
    · next hlast =>
      refine ⟨e, rfl, ?_, hsent.mono le_rfl hcover⟩
      rw [hput, hlast]
    · next hmore =>
      have hmore : secremain.toNat ≠ num.toNat := fun h => hmore (UInt16.toNat_inj.1 h).symm
      obtain ⟨hleft, hnext⟩ := toNat_left hremLe 4096
      have hsize : (4096 : UInt16).toNat = 4096 := rfl
      have hzero : (0 : UInt16).toNat = 0 := rfl
      have hadd := toNat_add_toUInt32 (a := a) (n := secremain) (by omega)
      have hsucc : (secpos + 1).toNat = secpos.toNat + 1 := by
        rw [UInt32.toNat_add]
        exact Nat.mod_eq_of_lt (by simp; omega)
      obtain ⟨d', hrun, hflash, hwrote⟩ := ih e (data.drop secremain.toNat) (secpos + 1)
        (a + secremain.toUInt32) 0 (num - secremain)
        (if 4096 < num - secremain then 4096 else num - secremain) (by omega)
        (by rw [List.length_drop]; omega) (by omega) (by omega) (by omega) (by omega) (by omega)
      have htotal : (a + secremain.toUInt32).toNat + (num - secremain).toNat =
          a.toNat + num.toNat := by omega
      have hnextSector : secpos.toNat * 4096 ≤ (secpos + 1).toNat * 4096 :=
        Nat.mul_le_mul_right 4096 (hsucc ▸ Nat.le_succ _)
      rw [htotal] at hwrote
      refine ⟨d', hrun, ?_, (hsent.mono le_rfl hcover).trans (hwrote.mono hnextSector le_rfl)⟩
      have hrest : a.toNat + secremain.toNat = a.toNat + (data.take secremain.toNat).length := by
        rw [hlen]
      rw [hflash, hadd, hleft, hput, hrest, Nor.put_append, ← List.take_add,
        Nat.add_sub_cancel' (by omega)]

/-- `SPI_Flash_Write` leaves the data where it belongs, and all else as it was. -/
theorem spiFlashWrite_spec (d : Dev) (data : List UInt8) (a : UInt32) (num : UInt16)
    (hdata : num.toNat ≤ data.length) (hpos : 0 < num.toNat)
    (hend : a.toNat + num.toNat ≤ 2 ^ 24) :
    ∃ d', spiFlashWrite d data a num = some d' ∧
      d'.flash = Nor.put d.flash a.toNat (data.take num.toNat) ∧
      Wrote (a.toNat / 4096 * 4096) ((a.toNat + num.toNat + 4095) / 4096 * 4096) d d' := by
  have hrest : (4096 - (a % 4096).toUInt16).toNat = 4096 - a.toNat % 4096 :=
    toNat_rest a rfl (by decide)
  have hsec : (a / 4096).toNat = a.toNat / 4096 := UInt32.toNat_div ..
  have hoff : (a % 4096).toUInt16.toNat = a.toNat % 4096 := by
    rw [UInt32.toNat_toUInt16, UInt32.toNat_mod]
    exact Nat.mod_eq_of_lt (by simp; omega)
  have h := writeLoop_checked (num.toNat + 1) d data (a / 4096) a (a % 4096).toUInt16 num
    (if num ≤ 4096 - (a % 4096).toUInt16 then num else 4096 - (a % 4096).toUInt16)
    (Nat.lt_succ_self _) hdata (by rw [hsec, hoff]; omega) (by omega)
    (by rw [toNat_least, hrest, hoff]) hpos hend
  rwa [hsec] at h

/-- The data is at its address, nothing else has changed, and no page program crosses a page. -/
theorem spiFlashWrite_exact (d : Dev) (data : List UInt8) (a : UInt32) (hpos : 1 ≤ data.length)
    (hmax : data.length ≤ 65535) (hchip : a.toNat + data.length ≤ chipSize) :
    ∃ d', spiFlashWrite d data a (UInt16.ofNat data.length) = some d' ∧
      bytesAt d'.flash a.toNat data.length = data ∧
      (∀ x, x < a.toNat ∨ a.toNat + data.length ≤ x → d'.flash x = d.flash x) ∧
      ∃ new, d'.ops = d.ops ++ new ∧ ∀ op ∈ new, op.InPage := by
  have hnum : (UInt16.ofNat data.length).toNat = data.length := by
    rw [UInt16.toNat_ofNat']
    exact Nat.mod_eq_of_lt (by omega)
  simp only [chipSize] at hchip
  obtain ⟨d', hrun, hput, new, hops, hnew⟩ := spiFlashWrite_spec d data a
    (UInt16.ofNat data.length) (by omega) (by omega) (by omega)
  rw [hnum, List.take_length] at hput
  refine ⟨d', hrun, ?_, ?_, new, hops, fun op hop => (hnew op hop).1⟩
  · rw [hput]
    exact bytesAt_put ..
  · intro x hx
    rw [hput, Nor.put_outside hx]

/-- Across the end of a sector, into flash that is not blank. -/
theorem spiFlashWrite_exact_edge :
    ∃ d', spiFlashWrite ⟨fun _ => 0, [], fun _ => 0⟩ [1, 2, 3] 4095 (UInt16.ofNat 3) = some d' ∧
      bytesAt d'.flash 4095 3 = [1, 2, 3] ∧ (∀ x, x < 4095 ∨ 4098 ≤ x → d'.flash x = 0) ∧
      ∃ new, d'.ops = [] ++ new ∧ ∀ op ∈ new, op.InPage :=
  spiFlashWrite_exact ⟨fun _ => 0, [], fun _ => 0⟩ [1, 2, 3] 4095 (by decide) (by decide)
    (by decide)

/-- `SPI_Flash_Write2`, of a whole sector. -/
theorem spiFlashWrite2_sector (d : Dev) (image : List UInt8) {a : UInt32}
    (ha : a.toNat % 4096 = 0) (hlen : image.length = 4096) (hend : a.toNat + 4096 ≤ 2 ^ 24) :
    ∃ d', spiFlashWrite2 d image a 4096 = some d' ∧ d'.flash = Nor.put d.flash a.toNat image ∧
      (∃ new, d'.ops = d.ops ++ new ∧ .eraseSector a.toNat ∈ new) ∧
      Wrote a.toNat (a.toNat + 4096) d d' := by
  have hoff : (a % 4096).toUInt16 = 0 := by
    apply UInt16.toNat_inj.1
    rw [UInt32.toNat_toUInt16, UInt32.toNat_mod]
    simp only [UInt32.reduceToNat, ha]
    rfl
  have hsec : (a / 4096).toNat * 4096 = a.toNat := by
    rw [UInt32.toNat_div]
    simp only [UInt32.reduceToNat]
    omega
  have himage : bytesAt (Nor.put d.buf 0 (image.take 4096)) 0 4096 = image := by
    rw [List.take_of_length_le hlen.le, ← hlen]
    exact bytesAt_put ..
  have h := eraseSector_image d (Nor.put d.buf 0 (image.take 4096)) (a / 4096 : UInt32) image
    (by omega) hlen
  rw [hsec] at h
  obtain ⟨d', hrun, hflash, herased, hwrote⟩ := h
  have hround : writeSector false d image (a / 4096) a 0 4096 = some d' := by
    simp only [writeSector, Bool.false_eq_true, if_false]
    rw [if_pos (by decide)]
    change spiFlashWriteNoCheck _ (bytesAt (Nor.put d.buf 0 (image.take 4096)) 0 4096) _ _ = _
    rw [himage]
    exact hrun
  have hrest : (if (4096 : UInt16) ≤ 4096 - 0 then (4096 : UInt16) else 4096 - 0) = 4096 := by
    decide
  refine ⟨d', ?_, hflash, herased, hwrote⟩
  simp only [spiFlashWrite2, write, hoff, hrest, writeLoop, hround, Option.bind_eq_bind,
    Option.bind_some, if_true]

end EasyCore.SpiFlash
