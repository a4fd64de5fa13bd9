import EasyCore.App.DownZone
import EasyCore.App.SpiFlash

/-! The stream that fills the SPI flash sector by sector (`drivers/extdrv/w25q16.c`): bytes wait in
    `SPI_FLASH_BUF` until there is a sector of them.

        s          :  | 4096 | 4096 | rest |
        the flash  :  | 4096 | 4096 | rest FF .. FF |

    When nothing is left over, `w25x_append_end` writes one sector more, all of 0xFF. -/

namespace EasyCore.SpiStream
open FlashOpt (Flash bytesAt bytesAt_length bytesAt_add)
open SpiFlash

/-- The device, `spiflash_page_buffer_index`, `spiflash_page_sector_index` and
    `history_baseaddr`. -/
structure Stream where
  dev : Dev
  index : UInt16
  sector : UInt16
  base : UInt32

/-- `init_write_flash` -/
def initWriteFlash (s : Stream) (addr : UInt32) : Stream :=
  { s with
    index := 0
    sector := 0
    base := addr }

def Stream.addr (s : Stream) : UInt32 := s.sector.toUInt32 * 4096 + s.base

/-- `append_w25x_byte`; a full buffer is written, cleared and read back. `spiflash_page_buffer` is
    `SPI_FLASH_BUF`, and `SPI_Flash_Write2` copies it to itself. -/
def appendW25xByte (s : Stream) (data : UInt8) : Option Stream :=
  let dev := { s.dev with buf := Function.update s.dev.buf s.index.toNat data }
  let index := s.index + 1
  if 4096 ≤ index then do
    let dev ← spiFlashWrite2 dev (bytesAt dev.buf 0 4096) s.addr 4096
    let dev := { dev with buf := fun i => if i < 4096 then 0 else dev.buf i }
    some
      { s with
        dev := spiFlashRead dev s.addr 4096
        index := 0
        sector := s.sector + 1 }
  else
    some
      { s with
        dev
        index }

/-- `append_w25x_append_buffer` -/
def appendW25xAppendBuffer (s : Stream) (buffer : List UInt8) : Option Stream :=
  buffer.foldlM appendW25xByte s

/-- `w25x_append_end` -/
def w25xAppendEnd (s : Stream) : Option Stream :=
  appendW25xAppendBuffer s (List.replicate (4096 - s.index.toNat) 0xFF)

/-- A byte string that comes in pieces. -/
def writeStream (s : Stream) (base : UInt32) (pieces : List (List UInt8)) : Option Stream := do
  let s ← pieces.foldlM appendW25xAppendBuffer (initWriteFlash s base)
  w25xAppendEnd s

/-- The bytes of the sectors that `n` bytes need. -/
def cover (n : ℕ) : ℕ := (n + 4095) / 4096 * 4096

/-- The flash has the bytes, and 0xFF behind them; no other sector has been touched. -/
structure Stored (d₀ : Dev) (base : ℕ) (data : List UInt8) (d : Dev) : Prop where
  inside : base + data.length ≤ chipSize
  holds : bytesAt d.flash base data.length = data
  padding : ∀ x, base + data.length ≤ x → x < base + cover data.length → d.flash x = 0xFF
  frame : ∃ new, d.ops = d₀.ops ++ new ∧
    ∀ op ∈ new, op.Within base (base + cover data.length)

/-! ### Sectors that are full -/

/-- The full sectors are in the flash, each erased for them, and the rest is in the buffer. -/
structure Holds (d₀ : Dev) (start : ℕ) (full rest : List UInt8) (s : Stream) : Prop where
  whole : full.length % 4096 = 0
  room : rest.length < 4096
  base : s.base.toNat = start
  index : s.index.toNat = rest.length
  sector : 4096 * s.sector.toNat = full.length
  buffer : bytesAt s.dev.buf 0 rest.length = rest
  flash : s.dev.flash = Nor.put d₀.flash start full
  ops : ∃ new, s.dev.ops = d₀.ops ++ new ∧
    (∀ op ∈ new, op.Within start (start + full.length)) ∧
    ∀ k, 4096 * k < full.length → .eraseSector (start + 4096 * k) ∈ new

theorem Holds.init (s : Stream) (base : UInt32) :
    Holds s.dev base.toNat [] [] (initWriteFlash s base) where
  whole := rfl
  room := by decide
  base := rfl
  index := rfl
  sector := rfl
  buffer := rfl
  flash := (Nor.put_nil).symm
  ops := ⟨[], (List.append_nil _).symm, by simp, by simp⟩

theorem bytesAt_update (buf : ℕ → UInt8) (n : ℕ) (b : UInt8) :
    bytesAt (Function.update buf n b) 0 (n + 1) = bytesAt buf 0 n ++ [b] := by
  rw [bytesAt_zero, bytesAt_zero, List.range_succ, List.map_append, List.map_singleton,
    Function.update_self]
  congr 1
  apply List.map_congr_left
  intro i hi
  exact Function.update_of_ne (List.mem_range.1 hi).ne _ _

/-- The buffer is full, and becomes a sector. -/
theorem Holds.flush {d₀ : Dev} {start : ℕ} {full rest : List UInt8} {s : Stream}
    (h : Holds d₀ start full rest s) (hstart : start % 4096 = 0) (b : UInt8)
    (hlast : rest.length = 4095) (hend : start + full.length + 4096 ≤ 2 ^ 24) :
    ∃ s', appendW25xByte s b = some s' ∧ Holds d₀ start (full ++ (rest ++ [b])) [] s' := by
  have hwhole := h.whole
  have hsize : (4096 : UInt16).toNat = 4096 := rfl
  have hindex : (4096 : UInt16) ≤ s.index + 1 := by
    rw [UInt16.le_iff_toNat_le, UInt16.toNat_add, h.index, hlast]
    decide
  have haddr : s.addr.toNat = start + full.length := by
    have hsection : (4096 : UInt32).toNat = 4096 := rfl
    rw [Stream.addr, UInt32.toNat_add, UInt32.toNat_mul, UInt16.toNat_toUInt32, h.base, hsection,
      Nat.mul_comm, h.sector]
    omega
  have hbuffer : bytesAt (Function.update s.dev.buf s.index.toNat b) 0 4096 = rest ++ [b] := by
    have hlen : 4096 = s.index.toNat + 1 := by
      rw [h.index, hlast]
    rw [hlen, bytesAt_update, h.index, h.buffer]
  obtain ⟨d, hrun, hflash, ⟨new, hnew, herase⟩, more, hmore, hwithin⟩ := spiFlashWrite2_sector
    { s.dev with buf := Function.update s.dev.buf s.index.toNat b } (rest ++ [b]) (a := s.addr)
    (by omega) (by simp [hlast]) (by omega)
  have hlen : (full ++ (rest ++ [b])).length = full.length + 4096 := by simp [hlast]
  simp only [appendW25xByte, if_pos hindex, hbuffer, hrun, Option.bind_eq_bind, Option.bind_some]
  refine ⟨_, rfl, ?_⟩
  obtain ⟨old, hold, hinside, herased⟩ := h.ops
  exact
    { whole := by omega
      room := by decide
      base := h.base
      index := rfl
      sector := by
        have hone : (1 : UInt16).toNat = 1 := rfl
        have hsector := h.sector
        rw [hlen, UInt16.toNat_add, hone]
        omega
      buffer := rfl
      flash := by
        change d.flash = _
        rw [hflash, haddr, h.flash, Nor.put_append]
      ops := by
        have hsame : new = more := List.append_cancel_left (hnew.symm.trans hmore)
        refine ⟨old ++ more, ?_, ?_, ?_⟩
        · rw [← List.append_assoc, ← hold]
          exact hmore
        · intro op hop
          rw [hlen]
          rcases List.mem_append.1 hop with hop | hop
          · exact (hinside op hop).mono le_rfl (by omega)
          · exact (hwithin op hop).2.mono (by omega) (by omega)
        · intro k hk
          rw [hlen] at hk
          rcases Nat.lt_or_ge (4096 * k) full.length with hk' | hk'
          · exact List.mem_append_left _ (herased k hk')
          · have hlastSector : start + 4096 * k = s.addr.toNat := by omega
            rw [hlastSector, ← hsame]
            exact List.mem_append_right _ herase }

/-- One byte more, while the data is inside what an address reaches. -/
theorem Holds.byte {d₀ : Dev} {start : ℕ} {full rest : List UInt8} {s : Stream}
    (h : Holds d₀ start full rest s) (hstart : start % 4096 = 0) (b : UInt8)
    (hend : start + (full ++ rest).length + 1 ≤ 2 ^ 24) :
    ∃ s' full' rest', appendW25xByte s b = some s' ∧ full' ++ rest' = full ++ rest ++ [b] ∧
      Holds d₀ start full' rest' s' := by
  have hroom := h.room
  rw [List.length_append] at hend
  rcases Nat.lt_or_ge (rest.length + 1) 4096 with hmore | hlast
  · have hindex : (s.index + 1).toNat = rest.length + 1 := by
      rw [UInt16.toNat_add, h.index]
      exact Nat.mod_eq_of_lt (by simp; omega)
    have hsize : (4096 : UInt16).toNat = 4096 := rfl
    simp only [appendW25xByte]
    rw [if_neg (by rw [UInt16.le_iff_toNat_le]; omega)]
    refine ⟨_, full, rest ++ [b], rfl, (List.append_assoc ..).symm, h.whole, by simpa using hmore,
      h.base, by simpa using hindex, h.sector, ?_, h.flash, h.ops⟩
    have hupdate := bytesAt_update s.dev.buf s.index.toNat b
    rw [h.index, h.buffer] at hupdate
    rw [List.length_append, List.length_singleton]
    simpa only [h.index] using hupdate
  · obtain ⟨s', hrun, hholds⟩ := h.flush hstart b (by omega) (by omega)
    exact ⟨s', _, [], hrun, by rw [List.append_nil, List.append_assoc], hholds⟩

theorem Holds.append {d₀ : Dev} {start : ℕ} (hstart : start % 4096 = 0) :
    ∀ (data : List UInt8) {full rest : List UInt8} {s : Stream}, Holds d₀ start full rest s →
    start + (full ++ rest).length + data.length ≤ 2 ^ 24 →
    ∃ s' full' rest', appendW25xAppendBuffer s data = some s' ∧
      full' ++ rest' = full ++ rest ++ data ∧ Holds d₀ start full' rest' s' := by
  intro data
  induction data with
  | nil =>
    intro full rest s h _
    exact ⟨s, full, rest, rfl, (List.append_nil _).symm, h⟩
  | cons b data ih =>
    intro full rest s h hend
    rw [List.length_cons] at hend
    obtain ⟨s₁, full₁, rest₁, hrun₁, hdata₁, h₁⟩ := h.byte hstart b (by omega)
    obtain ⟨s', full', rest', hrun, hdata, h'⟩ := ih h₁ (by
      rw [hdata₁, List.length_append, List.length_singleton]
      omega)
    refine ⟨s', full', rest', ?_, ?_, h'⟩
    · rw [appendW25xAppendBuffer, List.foldlM_cons, hrun₁]
      exact hrun
    · rw [hdata, hdata₁, List.append_assoc, List.singleton_append]

theorem Holds.pieces {d₀ : Dev} {start : ℕ} (hstart : start % 4096 = 0) :
    ∀ (pieces : List (List UInt8)) {full rest : List UInt8} {s : Stream},
    Holds d₀ start full rest s → start + (full ++ rest).length + pieces.flatten.length ≤ 2 ^ 24 →
    ∃ s' full' rest', pieces.foldlM appendW25xAppendBuffer s = some s' ∧
      full' ++ rest' = full ++ rest ++ pieces.flatten ∧ Holds d₀ start full' rest' s' := by
  intro pieces
  induction pieces with
  | nil =>
    intro full rest s h _
    exact ⟨s, full, rest, rfl, (List.append_nil _).symm, h⟩
  | cons piece pieces ih =>
    intro full rest s h hend
    have hflat : (piece :: pieces).flatten.length = piece.length + pieces.flatten.length := by
      rw [List.flatten_cons, List.length_append]
    obtain ⟨s₁, full₁, rest₁, hrun₁, hdata₁, h₁⟩ := h.append hstart piece (by omega)
    obtain ⟨s', full', rest', hrun, hdata, h'⟩ := ih h₁ (by
      rw [hdata₁, List.length_append]
      omega)
    refine ⟨s', full', rest', ?_, ?_, h'⟩
    · rw [List.foldlM_cons, hrun₁]
      exact hrun
    · rw [hdata, hdata₁, List.flatten_cons, List.append_assoc]

/-- In the end all that has been written stands in full sectors: the data, and 0xFF behind it. -/
theorem writeStream_holds (s : Stream) (base : UInt32) (hbase : base.toNat % 4096 = 0)
    (pieces : List (List UInt8)) (hend : base.toNat + pieces.flatten.length + 4096 ≤ 2 ^ 24) :
    ∃ s', writeStream s base pieces = some s' ∧
      Holds s.dev base.toNat
        (pieces.flatten ++ List.replicate (4096 - pieces.flatten.length % 4096) 0xFF) [] s' := by
  obtain ⟨s₁, full, rest, hrun₁, hdata, h₁⟩ := (Holds.init s base).pieces hbase pieces (by
    rw [List.append_nil, List.length_nil]
    omega)
  rw [List.append_nil, List.nil_append] at hdata
  have hwhole := h₁.whole
  have hroom := h₁.room
  have hlen : full.length + rest.length = pieces.flatten.length := by
    rw [← hdata, List.length_append]
  have hpad : 4096 - s₁.index.toNat = 4096 - pieces.flatten.length % 4096 := by
    rw [h₁.index]
    omega
  obtain ⟨s', full', rest', hrun, hall, h'⟩ := h₁.append hbase
    (List.replicate (4096 - s₁.index.toNat) 0xFF) (by
      rw [hdata, List.length_replicate]
      omega)
  have hlen' : full'.length + rest'.length = pieces.flatten.length + (4096 - s₁.index.toNat) := by
    rw [← List.length_append, hall, hdata, List.length_append, List.length_replicate]
  have hnone : rest' = [] := by
    have hwhole' := h'.whole
    have hroom' := h'.room
    apply List.eq_nil_of_length_eq_zero
    omega
  subst hnone
  rw [List.append_nil, hdata, hpad] at hall
  refine ⟨s', ?_, hall ▸ h'⟩
  rw [writeStream, hrun₁]
  exact hrun

/-! ### What is stored -/

variable {s' : Stream} {data : List UInt8}

/-- Data with a part of a sector left over is stored. -/
theorem Holds.stored {d₀ : Dev} {start : ℕ}
    (h : Holds d₀ start (data ++ List.replicate (4096 - data.length % 4096) 0xFF) [] s')
    (hrest : data.length % 4096 ≠ 0) (hinside : start + data.length ≤ chipSize) :
    Stored d₀ start data s'.dev := by
  have hcover : cover data.length = data.length + (4096 - data.length % 4096) := by
    rw [cover]
    omega
  have hlen : (data ++ List.replicate (4096 - data.length % 4096) (0xFF : UInt8)).length =
      cover data.length := by
    rw [List.length_append, List.length_replicate, hcover]
  obtain ⟨new, hops, hnew, -⟩ := h.ops
  refine ⟨hinside, ?_, ?_, new, hops, ?_⟩
  · rw [h.flash]
    apply List.ext_getElem
    · rw [bytesAt_length]
    · intro i _ hi
      simp only [bytesAt, List.getElem_map, List.getElem_range]
      rw [Nor.put_inside (by rw [List.length_append]; omega), List.getElem_append_left hi]
  · intro x hx hlt
    obtain ⟨i, rfl⟩ := Nat.exists_eq_add_of_le hx
    rw [h.flash, Nat.add_assoc, Nor.put_inside (by rw [hlen]; omega),
      List.getElem_append_right (by omega), List.getElem_replicate]
  · rwa [hlen] at hnew

/-- Data that ends with a sector is not: another sector has been erased behind it. -/
theorem Holds.not_stored {d₀ : Dev} {start : ℕ}
    (h : Holds d₀ start (data ++ List.replicate (4096 - data.length % 4096) 0xFF) [] s')
    (hrest : data.length % 4096 = 0) : ¬ Stored d₀ start data s'.dev := by
  intro hstored
  obtain ⟨new, hops, hwithin⟩ := hstored.frame
  obtain ⟨new', hops', -, herased⟩ := h.ops
  have hsame : new = new' := List.append_cancel_left (hops.symm.trans hops')
  have herase := herased (data.length / 4096) (by
    rw [List.length_append, List.length_replicate]
    omega)
  have hin : SpiOp.Within start (start + cover data.length)
      (.eraseSector (start + 4096 * (data.length / 4096))) := hwithin _ (hsame ▸ herase)
  simp only [SpiOp.Within, cover] at hin
  omega

/-- The stream stores the byte string, in whatever pieces, exactly when it fits the chip and does
    not end where a sector ends. -/
theorem writeStream_stored_iff (s : Stream) (base : UInt32) (hbase : base.toNat % 4096 = 0)
    (pieces : List (List UInt8)) :
    (∃ s', writeStream s base pieces = some s' ∧
        Stored s.dev base.toNat pieces.flatten s'.dev) ↔
      pieces.flatten.length % 4096 ≠ 0 ∧ base.toNat + pieces.flatten.length ≤ chipSize := by
  have hends (hchip : base.toNat + pieces.flatten.length ≤ chipSize) :
      base.toNat + pieces.flatten.length + 4096 ≤ 2 ^ 24 := by
    simp only [chipSize] at hchip
    omega
  constructor
  · rintro ⟨s', hrun, hstored⟩
    obtain ⟨s₁, hrun₁, hholds⟩ := writeStream_holds s base hbase pieces (hends hstored.inside)
    obtain rfl : s₁ = s' := Option.some.inj (hrun₁.symm.trans hrun)
    exact ⟨fun hrest => hholds.not_stored hrest hstored, hstored.inside⟩
  · rintro ⟨hrest, hchip⟩
    obtain ⟨s', hrun, hholds⟩ := writeStream_holds s base hbase pieces (hends hchip)
    exact ⟨s', hrun, hholds.stored hrest hchip⟩

def blank : Stream := ⟨⟨fun _ => 0xFF, [], fun _ => 0⟩, 0, 0, 0⟩

theorem writeStream_stored_iff_pieces :
    (∃ s', writeStream blank 0 [[1], [2, 3]] = some s' ∧
        Stored blank.dev (0 : UInt32).toNat [[1], [2, 3]].flatten s'.dev) ↔
      [[1], [2, 3]].flatten.length % 4096 ≠ 0 ∧
        (0 : UInt32).toNat + [[1], [2, 3]].flatten.length ≤ chipSize :=
  writeStream_stored_iff blank 0 rfl [[1], [2, 3]]

/-- 4096 bytes are one sector, and a second one is erased behind them. -/
theorem writeStream_full_sector :
    ¬ ∃ s', writeStream blank 0 [List.replicate 4096 0] = some s' ∧
      Stored blank.dev 0 (List.replicate 4096 0) s'.dev := by
  rintro ⟨s', hrun, hstored⟩
  have hlen : ([List.replicate 4096 (0 : UInt8)].flatten).length = 4096 := by
    rw [List.flatten_singleton, List.length_replicate]
  obtain ⟨s₁, hrun₁, hholds⟩ := writeStream_holds blank 0 rfl [List.replicate 4096 0] (by
    rw [hlen]
    decide)
  obtain rfl : s₁ = s' := Option.some.inj (hrun₁.symm.trans hrun)
  rw [List.flatten_singleton] at hholds
  exact hholds.not_stored (by rw [List.length_replicate]) hstored

end EasyCore.SpiStream
