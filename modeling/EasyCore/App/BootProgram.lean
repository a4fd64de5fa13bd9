import EasyCore.App.Bootloader

/-! How much the boot loader can program: the region of the application has 384 KiB, and the download
    zone takes files of nearly 512 KiB.

        0x8018000              0x8078000
        |  SYSTEM_APP_SIZE     |  configuration ..
        |  image, two bytes at a time ------->        -/

namespace EasyCore.BootProgram
open FlashOpt DownZone Bootloader

/-! ### The driver, with pages that cannot be erased -/

/-- The loop of `FLASH_ProgramStart`, which ends when a page is not erased; `ok` has the statuses. -/
def eraseLoop (ok : ℕ → Bool) (addr : ℕ) : ℕ → ℕ → List FlashOp
  | 0, _ => []
  | left + 1, eraseCounter =>
    .erasePage (addr + pageSize * eraseCounter) ::
      if ok eraseCounter then eraseLoop ok addr left (eraseCounter + 1) else []

/-- `FLASH_ProgramStart` -/
def flashProgramStart (ok : ℕ → Bool) (w : Writer) (addr size : ℕ) : Writer × List FlashOp :=
  ({ w with
      bufferIndex := 0
      bufferAddr := addr },
    eraseLoop ok addr (pagesMask size) 0)

/-- From `FLASH_ProgramStart` to `FLASH_AppendEnd`, with an image that comes in pieces. -/
def programApp (ok : ℕ → Bool) (w : Writer) (pieces : List (List UInt8)) : List FlashOp :=
  let body := pieces.foldl (fun s data =>
    let next := appendBuffer s.1 data
    (next.1, s.2 ++ next.2)) (flashProgramStart ok w systemAppAddress systemAppSize)
  body.2 ++ (appendEnd body.1).2

/-! ### The region -/

def FlashOp.programs : FlashOp → Bool
  | .erasePage _ => false
  | .programHalfWord .. => true

/-- What the operation works on is inside the region of the application. -/
def InRegion (op : FlashOp) : Prop :=
  systemAppAddress ≤ op.addr ∧ op.addr + opSize op ≤ systemAppAddress + systemAppSize

/-- The image is programmed from the begin of the region on, with a byte more when its length is
    odd, and nothing is done outside of the region. -/
structure Programmed (image : List UInt8) (ops : List FlashOp) : Prop where
  inOrder : ∃ fill : List UInt8, fill.length = image.length % 2 ∧
    ops.filter FlashOp.programs = halfWords systemAppAddress (image ++ fill)
  inside : ∀ op ∈ ops, InRegion op

theorem eraseLoop_mem {ok : ℕ → Bool} {addr : ℕ} {op : FlashOp} : ∀ {left i : ℕ},
    op ∈ eraseLoop ok addr left i → ∃ k, i ≤ k ∧ k < i + left ∧ op = .erasePage (addr + pageSize * k)
  | 0, _, h => absurd h List.not_mem_nil
  | left + 1, i, h => by
    rcases List.mem_cons.1 h with rfl | h
    · exact ⟨i, le_rfl, by omega, rfl⟩
    · split at h
      · obtain ⟨k, hik, hk, hop⟩ := eraseLoop_mem h
        exact ⟨k, by omega, by omega, hop⟩
      · exact absurd h List.not_mem_nil

theorem halfWords_mem {op : FlashOp} : ∀ {addr : ℕ} {data : List UInt8}, op ∈ halfWords addr data →
    ∃ k lo hi, 2 * k + 2 ≤ data.length ∧ op = .programHalfWord (addr + 2 * k) lo hi
  | addr, lo :: hi :: data, h => by
    rw [halfWords] at h
    rcases List.mem_cons.1 h with rfl | h
    · exact ⟨0, lo, hi, by simp, rfl⟩
    · obtain ⟨k, lo', hi', hk, rfl⟩ := halfWords_mem h
      refine ⟨k + 1, lo', hi', by simp only [List.length_cons]; omega, ?_⟩
      rw [Nat.add_assoc]
      congr 1
      omega
  | _, [], h => absurd h List.not_mem_nil
  | _, [_], h => absurd h List.not_mem_nil

/-- Each half word of the data has its place. -/
theorem mem_halfWords : ∀ (addr : ℕ) (data : List UInt8) (k : ℕ), 2 * k + 2 ≤ data.length →
    ∃ op ∈ halfWords addr data, op.addr = addr + 2 * k ∧ opSize op = 2
  | addr, lo :: hi :: data, 0, _ => ⟨_, List.mem_cons_self .., rfl, rfl⟩
  | addr, lo :: hi :: data, k + 1, h => by
    obtain ⟨op, hop, haddr, hsize⟩ := mem_halfWords (addr + 2) data k (by
      simp only [List.length_cons] at h
      omega)
    exact ⟨op, List.mem_cons_of_mem _ hop, by rw [haddr]; omega, hsize⟩
  | _, [], k, h => absurd h (by simp)
  | _, [_], k, h => absurd h (by simp)

theorem programApp_ops (ok : ℕ → Bool) (w : Writer) (pieces : List (List UInt8)) :
    ∃ fill : List UInt8, fill.length = pieces.flatten.length % 2 ∧
      programApp ok w pieces = eraseLoop ok systemAppAddress (pagesMask systemAppSize) 0 ++
        halfWords systemAppAddress (pieces.flatten ++ fill) := by
  obtain ⟨fill, hone, heven, hops⟩ := ((wrote_nothing w.buffer systemAppAddress
    (eraseLoop ok systemAppAddress (pagesMask systemAppSize) 0)).pieces pieces).finish
  rw [List.nil_append] at heven hops
  rw [List.length_append] at heven
  exact ⟨fill, by omega, hops⟩

/-- A longer image is programmed behind the region. -/
theorem not_programmed (ok : ℕ → Bool) (w : Writer) (pieces : List (List UInt8))
    (hlong : systemAppSize < pieces.flatten.length) :
    ¬ Programmed pieces.flatten (programApp ok w pieces) := by
  intro h
  obtain ⟨fill, hfill, hops⟩ := programApp_ops ok w pieces
  have heven : systemAppSize % 2 = 0 := by decide
  obtain ⟨op, hop, haddr, hsize⟩ := mem_halfWords systemAppAddress (pieces.flatten ++ fill)
    (systemAppSize / 2) (by rw [List.length_append]; omega)
  have hin := h.inside op (by rw [hops]; exact List.mem_append_right _ hop)
  rw [InRegion] at hin
  omega

/-- The image is programmed, and nothing else, exactly when the region has room for it. -/
theorem programApp_iff (ok : ℕ → Bool) (w : Writer) (pieces : List (List UInt8)) :
    Programmed pieces.flatten (programApp ok w pieces) ↔ pieces.flatten.length ≤ systemAppSize := by
  obtain ⟨fill, hfill, hops⟩ := programApp_ops ok w pieces
  have hpages : pagesMask systemAppSize = 192 := by decide
  have hregion : pageSize * 192 = systemAppSize := by decide
  have heven : systemAppSize % 2 = 0 := by decide
  constructor
  · intro h
    exact Nat.not_lt.1 fun hlong => not_programmed ok w pieces hlong h
  · intro hroom
    refine ⟨⟨fill, hfill, ?_⟩, ?_⟩
    · rw [hops, List.filter_append, List.filter_eq_nil_iff.2, List.nil_append,
        List.filter_eq_self.2]
      · intro op hop
        obtain ⟨k, lo, hi, -, rfl⟩ := halfWords_mem hop
        rfl
      · intro op hop
        obtain ⟨k, -, -, rfl⟩ := eraseLoop_mem hop
        exact Bool.false_ne_true
    · intro op hop
      rw [hops, hpages] at hop
      rcases List.mem_append.1 hop with hop | hop
      · obtain ⟨k, -, hk, rfl⟩ := eraseLoop_mem hop
        have hpage : pageSize * (k + 1) ≤ pageSize * 192 := Nat.mul_le_mul_left _ (by omega)
        rw [Nat.mul_succ] at hpage
        rw [InRegion, FlashOp.addr, opSize]
        omega
      · obtain ⟨k, lo, hi, hk, rfl⟩ := halfWords_mem hop
        rw [List.length_append] at hk
        rw [InRegion, FlashOp.addr, opSize]
        omega

/-- A zone with a file of 393218 bytes, two more than the region has. -/
def longFile : Flash := fun x => if x = 0 then 2 else if x = 2 then 6 else 0

/-- The download zone gives the file, and its last half word is programmed behind the region. -/
theorem programApp_long : (startGetDownZoneSpiflash longFile).downFileSize = 393218 ∧
    ¬ Programmed (file longFile) (programApp (fun _ => true) ⟨(0, 0), 0, 0⟩
      (buffers longFile 1024 downloadZoneSize.toNat (startGetDownZoneSpiflash longFile))) := by
  have hsize : (startGetDownZoneSpiflash longFile).downFileSize = 393218 := by decide +kernel
  have hlong : systemAppSize < (file longFile).length := by
    rw [file, bytesAt_length, hsize]
    decide
  rw [← buffers_file longFile (by decide : (0 : Int16) < 1024)] at hlong
  have h := not_programmed (fun _ => true) ⟨(0, 0), 0, 0⟩ _ hlong
  rw [buffers_file _ (by decide)] at h
  exact ⟨hsize, h⟩

end EasyCore.BootProgram
