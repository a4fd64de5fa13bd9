import EasyCore.App.ZoneReader
import EasyCore.Lib.Loop

/-! Programming an AVR (`applications/isp_http_tcp.c`, `ISP_PROG_AVR`): the file in the download zone
    goes out in blocks of 128 bytes, each behind its address, which counts words.

        0x55 address 0x20 ▶ 0x64 CRC size, data .. FF, 0x20 ▶ next address
          ↺ no ACK                   ↺ no ACK, and no memory

    The length and the count of the bytes are kept in 16 bits. -/

namespace EasyCore.IspAvr
open FlashOpt DownZone ZoneReader

/-! ### The check of a block (`my_stdc_func/my_stdc_func.c`) -/

/-- `crc_tab16` -/
def crcTab16 : Array UInt16 :=
  #[0x0000, 0xc0c1, 0xc181, 0x0140, 0xc301, 0x03c0, 0x0280, 0xc241,
    0xc601, 0x06c0, 0x0780, 0xc741, 0x0500, 0xc5c1, 0xc481, 0x0440,
    0xcc01, 0x0cc0, 0x0d80, 0xcd41, 0x0f00, 0xcfc1, 0xce81, 0x0e40,
    0x0a00, 0xcac1, 0xcb81, 0x0b40, 0xc901, 0x09c0, 0x0880, 0xc841,
    0xd801, 0x18c0, 0x1980, 0xd941, 0x1b00, 0xdbc1, 0xda81, 0x1a40,
    0x1e00, 0xdec1, 0xdf81, 0x1f40, 0xdd01, 0x1dc0, 0x1c80, 0xdc41,
    0x1400, 0xd4c1, 0xd581, 0x1540, 0xd701, 0x17c0, 0x1680, 0xd641,
    0xd201, 0x12c0, 0x1380, 0xd341, 0x1100, 0xd1c1, 0xd081, 0x1040,
    0xf001, 0x30c0, 0x3180, 0xf141, 0x3300, 0xf3c1, 0xf281, 0x3240,
    0x3600, 0xf6c1, 0xf781, 0x3740, 0xf501, 0x35c0, 0x3480, 0xf441,
    0x3c00, 0xfcc1, 0xfd81, 0x3d40, 0xff01, 0x3fc0, 0x3e80, 0xfe41,
    0xfa01, 0x3ac0, 0x3b80, 0xfb41, 0x3900, 0xf9c1, 0xf881, 0x3840,
    0x2800, 0xe8c1, 0xe981, 0x2940, 0xeb01, 0x2bc0, 0x2a80, 0xea41,
    0xee01, 0x2ec0, 0x2f80, 0xef41, 0x2d00, 0xedc1, 0xec81, 0x2c40,
    0xe401, 0x24c0, 0x2580, 0xe541, 0x2700, 0xe7c1, 0xe681, 0x2640,
    0x2200, 0xe2c1, 0xe381, 0x2340, 0xe101, 0x21c0, 0x2080, 0xe041,
    0xa001, 0x60c0, 0x6180, 0xa141, 0x6300, 0xa3c1, 0xa281, 0x6240,
    0x6600, 0xa6c1, 0xa781, 0x6740, 0xa501, 0x65c0, 0x6480, 0xa441,
    0x6c00, 0xacc1, 0xad81, 0x6d40, 0xaf01, 0x6fc0, 0x6e80, 0xae41,
    0xaa01, 0x6ac0, 0x6b80, 0xab41, 0x6900, 0xa9c1, 0xa881, 0x6840,
    0x7800, 0xb8c1, 0xb981, 0x7940, 0xbb01, 0x7bc0, 0x7a80, 0xba41,
    0xbe01, 0x7ec0, 0x7f80, 0xbf41, 0x7d00, 0xbdc1, 0xbc81, 0x7c40,
    0xb401, 0x74c0, 0x7580, 0xb541, 0x7700, 0xb7c1, 0xb681, 0x7640,
    0x7200, 0xb2c1, 0xb381, 0x7340, 0xb101, 0x71c0, 0x7080, 0xb041,
    0x5000, 0x90c1, 0x9181, 0x5140, 0x9301, 0x53c0, 0x5280, 0x9241,
    0x9601, 0x56c0, 0x5780, 0x9741, 0x5500, 0x95c1, 0x9481, 0x5440,
    0x9c01, 0x5cc0, 0x5d80, 0x9d41, 0x5f00, 0x9fc1, 0x9e81, 0x5e40,
    0x5a00, 0x9ac1, 0x9b81, 0x5b40, 0x9901, 0x59c0, 0x5880, 0x9841,
    0x8801, 0x48c0, 0x4980, 0x8941, 0x4b00, 0x8bc1, 0x8a81, 0x4a40,
    0x4e00, 0x8ec1, 0x8f81, 0x4f40, 0x8d01, 0x4dc0, 0x4c80, 0x8c41,
    0x4400, 0x84c1, 0x8581, 0x4540, 0x8701, 0x47c0, 0x4680, 0x8641,
    0x8201, 0x42c0, 0x4380, 0x8341, 0x4100, 0x81c1, 0x8081, 0x4040]

/-- `crc16_update` -/
def crc16Update (crc : UInt16) (ch : UInt8) : UInt16 :=
  crc >>> 8 ^^^ crcTab16.getD ((crc ^^^ ch.toUInt16) &&& 0xff).toNat 0

/-- `sdk_stream_crc16_calc`, from `CRC_INIT` on. -/
def sdkStreamCrc16Calc (msg : List UInt8) : UInt16 := msg.foldl crc16Update 0x3AA3

/-! ### The loop -/

/-- The values of `isp_step` that the loop sets. -/
inductive IspStep
  | progAvr
  | progAvrErr
  | progAvrA
  deriving DecidableEq

/-- A block: what its header announces, and its bytes of the file. -/
structure Block where
  address : UInt16
  crc : UInt16
  pkgsize : UInt8
  data : List UInt8
  deriving DecidableEq

def addressCommand (address : UInt16) : List UInt8 :=
  [0x55, address.toUInt8, (address >>> 8).toUInt8, 0x20]

def Block.header (b : Block) : List UInt8 :=
  [0x64, b.crc.toUInt8, (b.crc >>> 8).toUInt8, b.pkgsize]

/-- What is written for a block: the header goes out once more behind the data. -/
def Block.writes (b : Block) : List UInt8 :=
  b.header ++ (b.data ++ List.replicate (128 - b.data.length) 0xFF) ++ [0x20] ++ b.header

/-- The variables of the loop, what has been written to the target, and the blocks among it; a block
    has been acknowledged or not. -/
structure Avr where
  ispStep : IspStep
  writeCount : UInt16
  writeAddress : UInt32
  written : List UInt8
  sent : List (Block × Bool)

/-- What the target answers in a round, to the address, the block and the last command. -/
structure Answers where
  address : List UInt8
  block : List UInt8
  done : List UInt8

/-- The last byte but one is an ACK. -/
def acks (answer : List UInt8) : Bool :=
  2 ≤ answer.length && answer.getD (answer.length - 2) 0 = 0x14

/-- A round finds memory for a block, with what stands in it, or it finds none; and it gets its
    answers. -/
abbrev Input := Option (List UInt8) × Answers

/-- The block that a round sends. -/
def blockOf (m : Flash) (z : Zone) (fwSize : UInt16) (s : Avr) (mem : List UInt8) : Block :=
  let left : ℤ := fwSize.toNat - s.writeCount.toNat
  let pkgsize : UInt8 := if 128 ≤ left then 128 else UInt8.ofInt left
  let tmpbuf :=
    match getDownZoneBufferOffset m z s.writeCount.toUInt32 pkgsize.toUInt16.toInt16 with
    | some bytes => bytes ++ mem.drop bytes.length
    | none => mem
  { address := s.writeAddress.toUInt16
    crc := sdkStreamCrc16Calc (tmpbuf.take pkgsize.toNat)
    pkgsize
    data := if 128 ≤ left then tmpbuf.take 128 else tmpbuf.take left.toNat }

/-- A round of the loop. -/
def round (m : Flash) (z : Zone) (fwSize : UInt16) (s : Avr) (i : Input) : Loop Avr :=
  let s := { s with written := s.written ++ addressCommand s.writeAddress.toUInt16 }
  if ¬ acks i.2.address then .running s
  else
    match i.1 with
    | none => .running { s with ispStep := .progAvrErr }
    | some mem =>
      let b := blockOf m z fwSize s mem
      let s :=
        { s with
          written := s.written ++ b.writes
          sent := s.sent ++ [(b, acks i.2.block)] }
      if ¬ acks i.2.block then .running s
      else
        let s :=
          { s with
            writeCount := s.writeCount + 128
            writeAddress := s.writeAddress + 64 }
        if fwSize ≤ s.writeCount then
          .left
            { s with
              written := s.written ++ [0x40, 0x20]
              ispStep := if acks i.2.done then .progAvrA else .progAvrErr }
        else .running s

/-- `fw_size` -/
def fwSize (m : Flash) : UInt16 := (startGetDownZoneSpiflash m).downFileSize.toUInt16

def start : Avr := ⟨.progAvr, 0, 0, [], []⟩

/-- The loop, after some rounds. -/
def loopAfter (m : Flash) (inputs : ℕ → Input) : ℕ → Loop Avr :=
  Loop.after (round m (startGetDownZoneSpiflash m) (fwSize m)) start inputs

/-! ### What is to be sent -/

/-- The bytes of a block. -/
def part (xs : List UInt8) (i : ℕ) : List UInt8 := (xs.drop (128 * i)).take 128

/-- The blocks are the file, in its order, at the addresses 0, 64, 128, .. -/
structure Whole (m : Flash) (blocks : List Block) : Prop where
  each : ∀ i b, blocks[i]? = some b → b.address.toNat = 64 * i ∧ b.data = part (file m) i ∧
    b.crc = sdkStreamCrc16Calc b.data
  all : blocks.flatMap Block.data = file m

/-- The answers of a target that acknowledges every command. -/
def Answers.Acks (r : Answers) : Prop := acks r.address ∧ acks r.block ∧ acks r.done

/-- A round in which a block is taken by the target. -/
def Taken (i : Input) : Prop := acks i.2.address ∧ i.1.isSome ∧ acks i.2.block

/-- With a target that acknowledges every command, the loop comes to its end when the whole file has
    been acknowledged; and with any target, a block that is not taken is sent again. -/
structure Programs (m : Flash) (mem : ℕ → Option (List UInt8)) : Prop where
  ends : ∀ answers : ℕ → Answers, (∀ n, (answers n).Acks) → ∃ n s,
    loopAfter m (fun n => (mem n, answers n)) n = .left s ∧ s.ispStep = .progAvrA ∧
      (∀ b ∈ s.sent, b.2 = true) ∧ Whole m (s.sent.map Prod.fst)
  again : ∀ (inputs : ℕ → Input) n s, loopAfter m inputs n = .running s → ¬ Taken (inputs n) →
    ∃ s', loopAfter m inputs (n + 1) = .running s' ∧ s'.writeAddress = s.writeAddress ∧
      ∀ mem mem', blockOf m (startGetDownZoneSpiflash m) (fwSize m) s' mem' =
        blockOf m (startGetDownZoneSpiflash m) (fwSize m) s mem

/-- The rounds among the first `n` that find memory. -/
def memCount (mem : ℕ → Option (List UInt8)) : ℕ → ℕ
  | 0 => 0
  | n + 1 => memCount mem n + (mem n).isSome.toNat

/-! ### A block -/

theorem part_take (xs : List UInt8) (n p : ℕ) :
    part (xs.take n) p = (xs.drop (128 * p)).take (min 128 (n - 128 * p)) := by
  rw [part, List.drop_take, List.take_take]

/-- Parts that follow one another, from the first. -/
theorem parts_flatten (xs : List UInt8) (n : ℕ) :
    (List.range n).flatMap (part xs) = xs.take (128 * n) := by
  induction n with
  | zero => rfl
  | succ n ih =>
    rw [List.range_succ, List.flatMap_append, ih, List.flatMap_singleton, part, ← List.take_add,
      Nat.mul_succ]

/-- A block of the file, for a length of `n`. -/
def fileBlock (m : Flash) (n : ℕ) (address : UInt16) (i : ℕ) : Block :=
  { address
    crc := sdkStreamCrc16Calc (part ((file m).take n) i)
    pkgsize := UInt8.ofNat (part ((file m).take n) i).length
    data := part ((file m).take n) i }

theorem fwSize_toNat (m : Flash) : (fwSize m).toNat = size m % 2 ^ 16 := UInt32.toNat_toUInt16 ..

theorem file_length (m : Flash) : (file m).length = size m := bytesAt_length ..

theorem toInt_ofUInt8 (b : UInt8) : b.toUInt16.toInt16.toInt = b.toNat := by
  have hlt : b.toNat < 256 := b.toNat_lt
  have hnat : b.toUInt16.toBitVec.toNat = b.toNat := UInt8.toNat_toUInt16 ..
  change b.toUInt16.toBitVec.toInt = _
  rw [BitVec.toInt_eq_toNat_of_lt (by rw [hnat]; omega), hnat]

/-- `pkgsize` is what is left, up to 128. -/
theorem pkgsize_toNat (left : ℕ) :
    (if (128 : ℤ) ≤ left then (128 : UInt8) else UInt8.ofInt left).toNat = min 128 left := by
  split
  · next h =>
    have hsize : (128 : UInt8).toNat = 128 := rfl
    omega
  · next h =>
    rw [UInt8.ofInt, UInt8.toNat_ofNat']
    omega

/-- Whatever stands in the memory, the block has the bytes of the file, as far as the length goes. -/
theorem blockOf_eq (m : Flash) (s : Avr) (mem : List UInt8) {p : ℕ}
    (hcount : s.writeCount.toNat = 128 * p) (hle : 128 * p ≤ (fwSize m).toNat) :
    blockOf m (startGetDownZoneSpiflash m) (fwSize m) s mem =
      fileBlock m (fwSize m).toNat s.writeAddress.toUInt16 p := by
  have hfw := fwSize_toNat m
  have hfwLt : (fwSize m).toNat < 65536 := (fwSize m).toNat_lt
  have hsize : size m < 524284 := startGetDownZoneSpiflash_size m
  obtain ⟨left, hleft⟩ : ∃ left : ℕ, left = (fwSize m).toNat - 128 * p := ⟨_, rfl⟩
  have hleftInt : ((fwSize m).toNat : ℤ) - s.writeCount.toNat = left := by omega
  have hpkg := pkgsize_toNat left
  generalize hpkgsize : (if (128 : ℤ) ≤ left then (128 : UInt8) else UInt8.ofInt left) = pkgsize
    at hpkg
  have hpart : part ((file m).take (fwSize m).toNat) p =
      ((file m).drop (128 * p)).take pkgsize.toNat := by
    rw [part_take, hpkg, hleft]
  have hlen : (part ((file m).take (fwSize m).toNat) p).length = pkgsize.toNat := by
    rw [hpart, List.length_take, List.length_drop, file_length]
    omega
  have hread : getDownZoneBufferOffset m (startGetDownZoneSpiflash m) s.writeCount.toUInt32
      pkgsize.toUInt16.toInt16 = some (part ((file m).take (fwSize m).toNat) p) := by
    have hexact : OffsetExact m s.writeCount.toUInt32 pkgsize.toUInt16.toInt16 := by
      apply (offsetExact_iff m _ _).2
      rw [toInt_ofUInt8, UInt16.toNat_toUInt32]
      omega
    rw [OffsetExact, toInt_ofUInt8, UInt16.toNat_toUInt32, hcount, if_pos (by omega),
      Int.toNat_natCast] at hexact
    rw [hexact, hpart]
  have htake : (part ((file m).take (fwSize m).toNat) p ++
      mem.drop (part ((file m).take (fwSize m).toNat) p).length).take pkgsize.toNat =
        part ((file m).take (fwSize m).toNat) p := List.take_left' hlen
  simp only [blockOf, hleftInt, hpkgsize, hread, htake, fileBlock]
  congr 1
  · rw [hlen, UInt8.ofNat_toNat]
  · split
    · next h =>
      have hfull : pkgsize.toNat = 128 := by omega
      rw [← hfull]
      exact htake
    · next h =>
      have hshort : (left : ℤ).toNat = pkgsize.toNat := by omega
      rw [hshort]
      exact htake

/-! ### A round -/

/-- A block that is not taken leaves the loop where it is. -/
theorem round_untaken (m : Flash) (z : Zone) (fw : UInt16) (s : Avr) {i : Input} (h : ¬ Taken i) :
    ∃ s', round m z fw s i = .running s' ∧ s'.writeCount = s.writeCount ∧
      s'.writeAddress = s.writeAddress ∧ (i.1 = none → s'.sent = s.sent) := by
  simp only [round]
  split
  · exact ⟨_, rfl, rfl, rfl, fun _ => rfl⟩
  next haddress =>
  split
  · exact ⟨_, rfl, rfl, rfl, fun _ => rfl⟩
  next mem hmem =>
  split
  · exact ⟨_, rfl, rfl, rfl, fun hnone => absurd (hmem.symm.trans hnone) (Option.some_ne_none _)⟩
  next hblock =>
  exact absurd ⟨not_not.1 haddress, by rw [hmem]; rfl, not_not.1 hblock⟩ h

/-- A block that is taken moves it on, and it is left when the count has reached the length. -/
theorem round_taken (m : Flash) (z : Zone) (fw : UInt16) (s : Avr) {i : Input} (h : Taken i) :
    ∃ mem s', s'.writeCount = s.writeCount + 128 ∧ s'.writeAddress = s.writeAddress + 64 ∧
      s'.sent = s.sent ++ [(blockOf m z fw s mem, true)] ∧
      ((fw ≤ s.writeCount + 128 ∧ round m z fw s i = .left s' ∧
          (acks i.2.done = true → s'.ispStep = .progAvrA)) ∨
        (¬ fw ≤ s.writeCount + 128 ∧ round m z fw s i = .running s')) := by
  obtain ⟨haddress, hmem, hblock⟩ := h
  obtain ⟨mem, hmem⟩ := Option.isSome_iff_exists.1 hmem
  simp only [round, haddress, hmem, hblock, not_true, if_false]
  split
  · next hend => exact ⟨mem, _, rfl, rfl, rfl, .inl ⟨hend, rfl, fun hdone => if_pos hdone⟩⟩
  · next hmore => exact ⟨mem, _, rfl, rfl, rfl, .inr ⟨hmore, rfl⟩⟩

/-- While the loop goes on, its variables count blocks, inside the length. -/
def Aligned (m : Flash) : Loop Avr → Prop
  | .running s => ∃ p, s.writeCount.toNat = 128 * p ∧ 128 * p ≤ (fwSize m).toNat
  | .left _ => True

theorem add_block {c : UInt16} {p : ℕ} (hc : c.toNat = 128 * p) :
    ∃ p', (c + 128).toNat = 128 * p' ∧ (128 * p < 65408 → p' = p + 1) := by
  have hlt := c.toNat_lt
  have hsize : (128 : UInt16).toNat = 128 := rfl
  rcases Nat.lt_or_ge (128 * p) 65408 with h | h
  · refine ⟨p + 1, ?_, fun _ => rfl⟩
    rw [UInt16.toNat_add, hc, hsize]
    omega
  · refine ⟨0, ?_, fun h' => absurd h' (Nat.not_lt.2 h)⟩
    rw [UInt16.toNat_add, hc, hsize]
    omega

theorem aligned (m : Flash) (inputs : ℕ → Input) (n : ℕ) : Aligned m (loopAfter m inputs n) := by
  refine Loop.after_invariant (I := fun _ l => Aligned m l) ⟨0, rfl, Nat.zero_le _⟩ ?_ ?_ n
  · rintro n s ⟨p, hcount, hle⟩
    rcases Classical.em (Taken (inputs n)) with htaken | huntaken
    · obtain ⟨mem, s', hnext, -, -, h⟩ := round_taken m (startGetDownZoneSpiflash m) (fwSize m) s
        htaken
      rcases h with ⟨-, hround, -⟩ | ⟨hmore, hround⟩
      · rw [hround]
        trivial
      · obtain ⟨p', hp', -⟩ := add_block hcount
        rw [hround]
        refine ⟨p', by rw [hnext, hp'], ?_⟩
        rw [← hp']
        exact (UInt16.lt_iff_toNat_lt.1 (UInt16.not_le.1 hmore)).le
    · obtain ⟨s', hround, hsame, -, -⟩ := round_untaken m (startGetDownZoneSpiflash m) (fwSize m) s
        huntaken
      rw [hround]
      exact ⟨p, by rw [hsame, hcount], hle⟩
  · intro n s _
    trivial

/-- A block that is not taken is sent again, at the same address. -/
theorem sent_again (m : Flash) (inputs : ℕ → Input) (n : ℕ) {s : Avr}
    (hs : loopAfter m inputs n = .running s) (h : ¬ Taken (inputs n)) :
    ∃ s', loopAfter m inputs (n + 1) = .running s' ∧ s'.writeAddress = s.writeAddress ∧
      ∀ mem mem', blockOf m (startGetDownZoneSpiflash m) (fwSize m) s' mem' =
        blockOf m (startGetDownZoneSpiflash m) (fwSize m) s mem := by
  have haligned := aligned m inputs n
  rw [hs] at haligned
  obtain ⟨p, hcount, hle⟩ := haligned
  obtain ⟨s', hround, hsame, haddress, -⟩ :=
    round_untaken m (startGetDownZoneSpiflash m) (fwSize m) s h
  refine ⟨s', (Loop.after_running hs).trans hround, haddress, fun mem mem' => ?_⟩
  rw [blockOf_eq m s' mem' (by rw [hsame, hcount]) hle, blockOf_eq m s mem hcount hle, haddress]

/-! ### A target that acknowledges every command -/

/-- The blocks that are needed for a length; one for nothing. -/
def blockCount (n : ℕ) : ℕ := max 1 ((n + 127) / 128)

/-- Blocks from the first. -/
def blocksTo (m : Flash) (n k : ℕ) : List Block :=
  (List.range k).map fun i => fileBlock m n (UInt16.ofNat (64 * i)) i

/-- Each round with memory sends the next block, until there are all. -/
def Counted (m : Flash) (mem : ℕ → Option (List UInt8)) (n : ℕ) : Loop Avr → Prop
  | .running s => s.writeCount.toNat = 128 * memCount mem n ∧
      s.writeAddress.toNat = 64 * memCount mem n ∧
      memCount mem n < blockCount (fwSize m).toNat ∧
      s.sent = (blocksTo m (fwSize m).toNat (memCount mem n)).map fun b => (b, true)
  | .left s => s.ispStep = .progAvrA ∧ blockCount (fwSize m).toNat ≤ memCount mem n ∧
      s.sent = (blocksTo m (fwSize m).toNat (blockCount (fwSize m).toNat)).map fun b => (b, true)

theorem blocksTo_succ (m : Flash) (n k : ℕ) :
    blocksTo m n (k + 1) = blocksTo m n k ++ [fileBlock m n (UInt16.ofNat (64 * k)) k] := by
  rw [blocksTo, List.range_succ, List.map_append]
  rfl

theorem counted (m : Flash) (mem : ℕ → Option (List UInt8)) (hsize : (fwSize m).toNat ≤ 65408)
    {answers : ℕ → Answers} (hacks : ∀ n, (answers n).Acks) (n : ℕ) :
    Counted m mem n (loopAfter m (fun n => (mem n, answers n)) n) := by
  have hblocks : blockCount (fwSize m).toNat = max 1 (((fwSize m).toNat + 127) / 128) := rfl
  refine Loop.after_invariant (I := Counted m mem) ⟨rfl, rfl, ?_, rfl⟩ ?_ ?_ n
  · change 0 < blockCount _
    omega
  · rintro n s ⟨hcount, haddress, hfew, hsent⟩
    have hmem : memCount mem (n + 1) = memCount mem n + (mem n).isSome.toNat := rfl
    cases hn : mem n with
    | none =>
      have huntaken : ¬ Taken (mem n, answers n) := by
        rintro ⟨-, h, -⟩
        rw [hn] at h
        exact Bool.false_ne_true h
      obtain ⟨s', hround, hc, ha, hb⟩ :=
        round_untaken m (startGetDownZoneSpiflash m) (fwSize m) s huntaken
      rw [hn] at hmem
      rw [← hn, hround]
      have hsame : memCount mem (n + 1) = memCount mem n := hmem
      rw [Counted, hsame, hc, ha, hb hn]
      exact ⟨hcount, haddress, hfew, hsent⟩
    | some junk =>
      have htaken : Taken (mem n, answers n) :=
        ⟨(hacks n).1, by rw [hn]; rfl, (hacks n).2.1⟩
      obtain ⟨junk', s', hc, ha, hb, hend⟩ :=
        round_taken m (startGetDownZoneSpiflash m) (fwSize m) s htaken
      have hle : 128 * memCount mem n ≤ (fwSize m).toNat := by omega
      have haddr : s.writeAddress.toUInt16 = UInt16.ofNat (64 * memCount mem n) := by
        apply UInt16.toNat_inj.1
        rw [UInt32.toNat_toUInt16, haddress, UInt16.toNat_ofNat']
      have hsucc : memCount mem (n + 1) = memCount mem n + 1 := by
        rw [hmem, hn]
        rfl
      have hcount' : s'.writeCount.toNat = 128 * (memCount mem n + 1) := by
        obtain ⟨p', hp', hnext⟩ := add_block hcount
        rw [hc, hp', hnext (by omega)]
      have haddress' : s'.writeAddress.toNat = 64 * (memCount mem n + 1) := by
        have hsector : (64 : UInt32).toNat = 64 := rfl
        rw [ha, UInt32.toNat_add, haddress, hsector]
        omega
      have hsent' : s'.sent =
          (blocksTo m (fwSize m).toNat (memCount mem n + 1)).map fun b => (b, true) := by
        rw [hb, blockOf_eq m s junk' hcount hle, haddr, hsent, blocksTo_succ, List.map_append]
        rfl
      rw [← hc] at hend
      rw [← hn]
      rcases hend with ⟨hlast, hround, hdone⟩ | ⟨hmore, hround⟩
      · have hlast : (fwSize m).toNat ≤ s'.writeCount.toNat := UInt16.le_iff_toNat_le.1 hlast
        have hfull : blockCount (fwSize m).toNat = memCount mem n + 1 := by omega
        rw [hround, Counted, hsucc, hfull]
        exact ⟨hdone (hacks n).2.2, le_rfl, hsent'⟩
      · have hmore : s'.writeCount.toNat < (fwSize m).toNat :=
          UInt16.lt_iff_toNat_lt.1 (UInt16.not_le.1 hmore)
        rw [hround, Counted, hsucc]
        exact ⟨hcount', haddress', by omega, hsent'⟩
  · rintro n s ⟨hstep, hall, hsent⟩
    exact ⟨hstep, hall.trans (Nat.le_add_right _ _), hsent⟩

/-- With a length that the count does not reach, the loop has no end. -/
theorem endless (m : Flash) (hsize : 65408 < (fwSize m).toNat) (inputs : ℕ → Input) (n : ℕ) :
    ∃ s, loopAfter m inputs n = .running s := by
  induction n with
  | zero => exact ⟨start, rfl⟩
  | succ n ih =>
    obtain ⟨s, hs⟩ := ih
    have haligned := aligned m inputs n
    rw [hs] at haligned
    obtain ⟨p, hcount, -⟩ := haligned
    have hnext : loopAfter m inputs (n + 1) =
      round m (startGetDownZoneSpiflash m) (fwSize m) s (inputs n) := Loop.after_running hs
    rw [hnext]
    rcases Classical.em (Taken (inputs n)) with htaken | huntaken
    · obtain ⟨mem, s', -, -, -, h⟩ := round_taken m (startGetDownZoneSpiflash m) (fwSize m) s htaken
      rcases h with ⟨hlast, -, -⟩ | ⟨-, hround⟩
      · obtain ⟨p', hp', -⟩ := add_block hcount
        have hlast := UInt16.le_iff_toNat_le.1 hlast
        have hlt := (s.writeCount + 128).toNat_lt
        omega
      · exact ⟨s', hround⟩
    · obtain ⟨s', hround, -⟩ := round_untaken m (startGetDownZoneSpiflash m) (fwSize m) s huntaken
      exact ⟨s', hround⟩

theorem blocksTo_data (m : Flash) (n k : ℕ) :
    (blocksTo m n k).flatMap Block.data = ((file m).take n).take (128 * k) := by
  rw [blocksTo, List.flatMap_map]
  exact parts_flatten _ k

theorem map_fst_acked (bs : List Block) : (bs.map fun b => (b, true)).map Prod.fst = bs := by
  rw [List.map_map]
  exact List.map_id _

/-- All blocks of a file that the variables have room for. -/
theorem whole_blocksTo (m : Flash) (hsize : size m ≤ 65408) :
    Whole m (blocksTo m (fwSize m).toNat (blockCount (fwSize m).toNat)) := by
  have hfw : (fwSize m).toNat = size m := by
    rw [fwSize_toNat]
    omega
  have hall : (file m).take (size m) = file m := List.take_of_length_le (file_length m).le
  have hblocks : blockCount (size m) = max 1 ((size m + 127) / 128) := rfl
  rw [hfw]
  constructor
  · intro i b hb
    rw [blocksTo, List.getElem?_map, Option.map_eq_some_iff] at hb
    obtain ⟨j, hj, rfl⟩ := hb
    obtain ⟨hi, rfl⟩ := List.getElem?_eq_some_iff.1 hj
    rw [List.length_range] at hi
    rw [List.getElem_range]
    refine ⟨?_, by rw [fileBlock, hall], rfl⟩
    rw [fileBlock, UInt16.toNat_ofNat']
    omega
  · rw [blocksTo_data, hall, List.take_of_length_le (by rw [file_length]; omega)]

/-! ### Which files are programmed -/

/-- A target that always acknowledges. -/
def acking : Answers := ⟨[0x14, 0x10], [0x14, 0x10], [0x14, 0x10]⟩

theorem acking_acks : acking.Acks := ⟨rfl, rfl, rfl⟩

/-- A file that is programmed has at most 65408 bytes, and there has been memory for all its
    blocks. -/
theorem Programs.room {m : Flash} {mem : ℕ → Option (List UInt8)} (h : Programs m mem) :
    size m ≤ 65408 ∧ ∃ n, blockCount (size m) ≤ memCount mem n := by
  obtain ⟨n, s, hleft, -, -, hwhole⟩ := h.ends (fun _ => acking) fun _ => acking_acks
  have hfw := fwSize_toNat m
  rcases Nat.lt_or_ge 65408 (fwSize m).toNat with hlong | hshort
  · obtain ⟨t, ht⟩ := endless m hlong (fun n => (mem n, acking)) n
    rw [ht] at hleft
    exact absurd hleft (by simp)
  · have hcount := counted m mem hshort (fun _ => acking_acks) n
    rw [hleft] at hcount
    obtain ⟨-, hmem, hsent⟩ := hcount
    have hdata := hwhole.all
    rw [hsent, map_fst_acked, blocksTo_data] at hdata
    have hlen := congrArg List.length hdata
    rw [List.length_take, List.length_take, file_length] at hlen
    have hsame : (fwSize m).toNat = size m := by omega
    rw [hsame] at hmem hshort
    exact ⟨hshort, n, hmem⟩

/-- A file of 65536 bytes: `fw_size` is 0, and the loop is done after a block without data. -/
def bigFile : Flash := fun x => if x = 2 then 1 else 0

end EasyCore.IspAvr
