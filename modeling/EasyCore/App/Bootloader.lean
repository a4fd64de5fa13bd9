import EasyCore.App.DownZone
import EasyCore.App.FlashConfig
import EasyCore.App.IspHttp
import EasyCore.App.Md5Nat

/-! The boot loader (`applications/bootloader_main.c`): when an update is pending, `mainloop` compares
    the MD5 of the download with the recorded one, programs the application and compares again; then
    it jumps to the application. The flash may fail at any step. -/

namespace EasyCore.Bootloader
open FlashOpt DownZone FlashConfig Md5

abbrev otaflagReadyUpdata : UInt8 := 1
abbrev otafalgProgfinish : UInt8 := 5
abbrev otafalgProgerror : UInt8 := 6

/-- `SYSTEM_APP_ADDRESS`: behind the boot loader. -/
def systemAppAddress : ℕ := 0x8000000 + 1024 * 96

/-- `SYSTEM_APP_SIZE` -/
def systemAppSize : ℕ := 1024 * (256 + 128)

/-! ### The MD5 of a file -/

def hexDigit (n : UInt8) : UInt8 := if n < 10 then 48 + n else 87 + n

/-- `"%02x"`, of every byte. -/
def hex (digest : List UInt8) : List UInt8 :=
  digest.flatMap fun b => [hexDigit (b / 16), hexDigit (b % 16)]

/-- A `md5_state_t` on the stack. -/
abbrev Stack := { s : Md5State // s.buf.length = 64 }

/-- The MD5 of a text that comes in pieces. -/
def md5Hex (s : Stack) (pieces : List (List UInt8)) : List UInt8 :=
  hex (md5Finish (pieces.foldl md5Append (md5Init s.1)))

/-- The file in the zone, in buffers of `outSize` bytes. -/
def buffers (m : Flash) (outSize : Int16) : ℕ → Zone → List (List UInt8)
  | 0, _ => []
  | rounds + 1, z =>
    let next := getDownZoneBuffer m outSize z
    if next.2.2 ≤ 0 then [] else next.2.1 :: buffers m outSize rounds next.1

/-- `check_down_zone_buffer_md5`, into a string that is empty before; `tmpbuf` says whether there is
    memory for a buffer. -/
def checkDownZoneBufferMd5 (m : Flash) (s : Stack) (tmpbuf : Bool) : List UInt8 :=
  if tmpbuf then
    md5Hex s (buffers m 128 downloadZoneSize.toNat (startGetDownZoneSpiflash m))
  else []

/-! ### The flash -/

/-- The number of bytes that an operation works on. -/
def opSize : FlashOp → ℕ
  | .erasePage _ => pageSize
  | .programHalfWord .. => 2

/-- An operation works, or it leaves other bytes where it should work. -/
def attempt (m : Flash) (op : FlashOp) : Option Flash → Flash
  | none => op.run m
  | some other => fun x => if op.addr ≤ x ∧ x < op.addr + opSize op then other x else m x

/-- Operations with their outcomes. -/
def attemptAll (m : Flash) : List FlashOp → (ℕ → Option Flash) → Flash
  | [], _ => m
  | op :: ops, outcomes => attemptAll (attempt m op (outcomes 0)) ops fun n => outcomes (n + 1)

/-! ### A boot -/

/-- What a boot finds: the configuration that `__read_uconfig` has given, the flashes and the
    outcomes of what is done to the second, and the memory. -/
structure Boot where
  uconfig : UserConfig
  spi : Flash
  chip : Flash
  outcomes : ℕ → Option Flash
  writer : Writer
  tmpbuf : Bool
  stack₁ : Stack
  stack₂ : Stack

inductive Event
  | flash (op : FlashOp)
  | writeUconfig (u : UserConfig)
  | jumpToApp

variable (b : Boot)

/-- `uconfig.ota_target_fw_md5` -/
def Boot.record : List UInt8 := b.uconfig.otaTargetFwMd5.1

/-- `start_get_down_zone_spiflash` -/
def Boot.size : ℕ := (startGetDownZoneSpiflash b.spi).downFileSize.toNat

/-- What is done to the region of the application. -/
def Boot.program : List FlashOp :=
  (FlashOpt.program b.writer systemAppAddress systemAppSize
    (buffers b.spi 1024 downloadZoneSize.toNat (startGetDownZoneSpiflash b.spi))).2

/-- What is read back from there. -/
def Boot.readBack : List UInt8 :=
  bytesAt (attemptAll b.chip b.program b.outcomes) systemAppAddress b.size

/-- `mainloop` -/
def mainloop : List Event :=
  if b.uconfig.otaFlag = otaflagReadyUpdata then
    if (IspHttp.strstr b.record (checkDownZoneBufferMd5 b.spi b.stack₁ b.tmpbuf)).isSome then
      if b.size < 1024 * 100 then
        [.writeUconfig { b.uconfig with otaFlag := otafalgProgerror }, .jumpToApp]
      else
        b.program.map .flash ++
          if (IspHttp.strstr b.record (md5Hex b.stack₂ [b.readBack])).isSome then
            [.writeUconfig { b.uconfig with otaFlag := otafalgProgfinish }, .jumpToApp]
          else [.jumpToApp]
    else [.writeUconfig { b.uconfig with otaFlag := otafalgProgerror }, .jumpToApp]
  else [.jumpToApp]

/-- The update is begun: it is pending, the recorded MD5 is found, and the file is large enough. -/
structure Begun : Prop where
  pending : b.uconfig.otaFlag = otaflagReadyUpdata
  found : (IspHttp.strstr b.record (checkDownZoneBufferMd5 b.spi b.stack₁ b.tmpbuf)).isSome
  size : 1024 * 100 ≤ b.size

/-- The verification fails: the recorded MD5 is not the one of what is read back. -/
structure VerifyFails : Prop where
  begun : Begun b
  notFound : ¬(IspHttp.strstr b.record (hex (md5 b.readBack))).isSome

/-- When the verification fails, the boot loader does not jump to the application, and the update
    stays pending. -/
def Retries : Prop :=
  VerifyFails b → .jumpToApp ∉ mainloop b ∧
    ∀ u, .writeUconfig u ∈ mainloop b → u.otaFlag = otaflagReadyUpdata

/-- The application is programmed only when the recorded MD5 is the one of the download. -/
def Sound : Prop :=
  (∃ op, .flash op ∈ mainloop b) → b.record = hex (md5 (file b.spi))

/-! ### What the hashes are of -/

theorem buffers_flatten (m : Flash) (outSize : Int16) : ∀ (rounds : ℕ) (z : Zone),
    (buffers m outSize rounds z).flatten = readAll m outSize rounds z := by
  intro rounds
  induction rounds with
  | zero => intro z; rfl
  | succ rounds ih =>
    intro z
    simp only [buffers, readAll]
    split
    · rfl
    · rw [List.flatten_cons, ih]

theorem buffers_file (m : Flash) {outSize : Int16} (hout : 0 < outSize) :
    (buffers m outSize downloadZoneSize.toNat (startGetDownZoneSpiflash m)).flatten = file m := by
  have hsize := startGetDownZoneSpiflash_size m
  have hzone : downloadZoneSize.toNat = 524288 := rfl
  rw [buffers_flatten]
  generalize downloadZoneSize.toNat = rounds at hzone
  exact readAll_file m hout (by omega)

theorem md5Hex_eq (s : Stack) (pieces : List (List UInt8)) :
    md5Hex s pieces = hex (md5 pieces.flatten) := by
  rw [md5Hex, md5Finish_appends s.2]

theorem hex_length (digest : List UInt8) : (hex digest).length = 2 * digest.length := by
  rw [hex, List.length_flatMap]
  simp [Nat.mul_comm]

theorem hex_md5_length (message : List UInt8) : (hex (md5 message)).length = 32 := by
  rw [hex_length]
  rfl

theorem hexDigit_ne_zero (n : UInt8) (h : n < 16) : hexDigit n ≠ 0 := by
  have h : n.toNat < 16 := UInt8.lt_iff_toNat_lt.1 h
  intro hzero
  have hzero := congrArg UInt8.toNat hzero
  rw [hexDigit] at hzero
  split at hzero
  all_goals
    rw [UInt8.toNat_add] at hzero
    simp only [UInt8.reduceToNat] at hzero
    omega

theorem hex_noNul (digest : List UInt8) : ∀ c ∈ hex digest, c ≠ 0 := by
  intro c hc
  simp only [hex, List.mem_flatMap, List.mem_cons, List.not_mem_nil, or_false] at hc
  obtain ⟨b, _, rfl | rfl⟩ := hc
  · refine hexDigit_ne_zero _ ?_
    rw [UInt8.lt_iff_toNat_lt, UInt8.toNat_div]
    have hb := b.toNat_lt
    simp only [UInt8.reduceToNat]
    omega
  · refine hexDigit_ne_zero _ ?_
    rw [UInt8.lt_iff_toNat_lt, UInt8.toNat_mod]
    exact Nat.mod_lt _ (by decide)

/-- A string that is found is a part of the other. -/
theorem strstr_isSome {pat buf : List UInt8} (h : (IspHttp.strstr pat buf).isSome) :
    ∃ i, pat <+: (buf.takeWhile (· ≠ 0)).drop i := by
  simp only [IspHttp.strstr, List.find?_isSome] at h
  obtain ⟨i, _, hi⟩ := h
  exact ⟨i, List.isPrefixOf_iff_prefix.1 hi⟩

/-- A string is found in itself. -/
theorem strstr_self {s : List UInt8} (h : ∀ c ∈ s, c ≠ 0) : (IspHttp.strstr s s).isSome := by
  have hs : s.takeWhile (· ≠ 0) = s := List.takeWhile_eq_self_iff.2 (by simpa using h)
  simp only [IspHttp.strstr, hs, List.find?_isSome]
  exact ⟨0, List.mem_range.2 (by omega), List.isPrefixOf_iff_prefix.2 (List.prefix_refl _)⟩

theorem strstr_nil (buf : List UInt8) : (IspHttp.strstr [] buf).isSome := by
  simp only [IspHttp.strstr, List.find?_isSome]
  exact ⟨0, List.mem_range.2 (by omega), rfl⟩

/-- A string that is as long as the other and is found in it is the same. -/
theorem eq_of_strstr {pat buf : List UInt8} (h : (IspHttp.strstr pat buf).isSome)
    (hlen : buf.length ≤ pat.length) : pat = buf := by
  obtain ⟨i, hi⟩ := strstr_isSome h
  have hsub : pat <:+: buf := hi.isInfix.trans
    ((List.drop_suffix ..).isInfix.trans (List.takeWhile_prefix _).isInfix)
  exact hsub.eq_of_length_le hlen

variable {b}

/-! ### The verification -/

theorem mainloop_begun (h : Begun b) : mainloop b = b.program.map .flash ++
    if (IspHttp.strstr b.record (hex (md5 b.readBack))).isSome then
      [.writeUconfig { b.uconfig with otaFlag := otafalgProgfinish }, .jumpToApp]
    else [.jumpToApp] := by
  have hread : md5Hex b.stack₂ [b.readBack] = hex (md5 b.readBack) := by
    rw [md5Hex_eq, List.flatten_singleton]
  rw [mainloop, if_pos h.pending, if_pos h.found, if_neg (Nat.not_lt.2 h.size), hread]

/-- After a failed verification the configuration is left alone, and the boot goes on to the
    application. -/
theorem mainloop_verifyFails (h : VerifyFails b) :
    mainloop b = b.program.map .flash ++ [.jumpToApp] := by
  rw [mainloop_begun h.begun, if_neg h.notFound]

/-- The region of the application is written only after the gate. -/
theorem begun_of_flash {op : FlashOp} (h : .flash op ∈ mainloop b) : Begun b := by
  rw [mainloop] at h
  split at h
  · next hpending =>
    split at h
    · next hfound =>
      split at h
      · simp at h
      · next hsize => exact ⟨hpending, hfound, Nat.not_lt.1 hsize⟩
    · simp at h
  · simp at h

/-- The pages are erased first. -/
theorem flash_of_begun (h : Begun b) : ∃ op, .flash op ∈ mainloop b := by
  obtain ⟨fill, -, -, hops⟩ := program_ops b.writer systemAppAddress systemAppSize
    (buffers b.spi 1024 downloadZoneSize.toNat (startGetDownZoneSpiflash b.spi))
  refine ⟨.erasePage systemAppAddress, ?_⟩
  rw [mainloop_begun h, Boot.program, hops]
  have hpages : pagesMask systemAppSize = 192 := by
    rw [pagesMask]
    norm_num [systemAppSize, pageSize]
  refine List.mem_append_left _ (List.mem_map_of_mem (List.mem_append_left _ ?_))
  rw [erases, hpages]
  exact List.mem_map.2 ⟨0, List.mem_range.2 (by omega), by rw [Nat.mul_zero, Nat.add_zero]⟩

/-- An update to the image with this MD5 is pending. -/
def pendingConfig (record : CStr 40) : UserConfig :=
  { blank with otaFlag := otaflagReadyUpdata, otaTargetFwMd5 := record }

/-- 102400 zeros in the download zone. -/
def zeros : Flash := fun x => if x = 1 then 0x90 else if x = 2 then 1 else 0

theorem zeros_size : (startGetDownZoneSpiflash zeros).downFileSize = 102400 := by decide

theorem zeros_file : file zeros = List.replicate 102400 0 := by
  rw [file, zeros_size]
  refine List.eq_replicate_iff.2 ⟨bytesAt_length .., fun c hc => ?_⟩
  obtain ⟨i, -, rfl⟩ := List.mem_map.1 hc
  rw [zeros, if_neg (by omega), if_neg (by omega)]

/-- The application that is there: one byte is different. -/
def oldApp : Flash := fun x => if x = systemAppAddress + 102399 then 1 else 0

theorem oldApp_bytes :
    bytesAt oldApp systemAppAddress 102400 = List.replicate 102336 0 ++
      (List.replicate 63 0 ++ [1]) := by
  have hzeros : ∀ addr n, addr + n ≤ systemAppAddress + 102399 →
      bytesAt oldApp addr n = List.replicate n 0 := by
    intro addr n h
    refine List.eq_replicate_iff.2 ⟨bytesAt_length .., fun c hc => ?_⟩
    obtain ⟨i, hi, rfl⟩ := List.mem_map.1 hc
    rw [oldApp, if_neg (by have := List.mem_range.1 hi; omega)]
  rw [show 102400 = 102336 + (63 + 1) by rfl, bytesAt_add, bytesAt_add, hzeros _ _ (by omega),
    hzeros _ _ (by omega)]
  congr 2

def stack : Stack := ⟨⟨0, 0, abcd₀, List.replicate 64 0⟩, rfl⟩

/-- An update whose flash is locked: whatever is done to it, it stays as it is. -/
def lockedBoot (record : CStr 40) : Boot where
  uconfig := pendingConfig record
  spi := zeros
  chip := oldApp
  outcomes := fun _ => some oldApp
  writer := ⟨(0, 0), 0, 0⟩
  tmpbuf := true
  stack₁ := stack
  stack₂ := stack

theorem attemptAll_locked (m : Flash) : ∀ ops, attemptAll m ops (fun _ => some m) = m := by
  intro ops
  induction ops with
  | nil => rfl
  | cons op ops ih =>
    have hone : attempt m op (some m) = m := by
      funext x
      simp only [attempt, ite_self]
    rw [attemptAll, hone, ih]

theorem begun_locked {record : CStr 40}
    (h : (IspHttp.strstr record.1 (hex (md5 (List.replicate 102400 0)))).isSome) :
    Begun (lockedBoot record) where
  pending := rfl
  found := by
    have hread : checkDownZoneBufferMd5 zeros stack true = hex (md5 (file zeros)) := by
      rw [checkDownZoneBufferMd5, if_pos rfl, md5Hex_eq, buffers_file _ (by decide)]
    rw [zeros_file] at hread
    exact hread ▸ h
  size := by
    have hsize : (lockedBoot record).size = 102400 := congrArg UInt32.toNat zeros_size
    rw [hsize]

end EasyCore.Bootloader
