import EasyCore.Lib.Runs
import EasyCore.Lib.Stores

/-! The serial camera (`drivers/extdrv/uart4_cam_drv.c`). A picture is fetched in blocks: a command
    names a range, and the answer is taken for good if it has the bytes of the range and ten more.
    The interrupt handler puts each byte in at an index that only the next command sets back.

        getImg:  index = 0,  command  ──▶  answer, byte by byte  ──▶  index - 10 = READLEN ? -/

namespace EasyCore.SerialCam
open Runs Stores

def uartBufferLength : ℕ := 1024

/-- The globals of the driver. `stores` are the stores into `uartrx_buffer`, `sent` the commands,
    and `fetched` those of them that were answered as they should be. -/
structure Cam where
  imglen : UInt16
  imgidx : UInt16
  uartrxBufferIndex : UInt32
  stores : List (ℤ × UInt8)
  sent : List (List UInt8)
  fetched : List (List UInt8)

/-- `UART4_IRQHandler`, for a byte `ch`. -/
def uart4IrqHandler (s : Cam) (ch : UInt8) : Cam :=
  { s with
    stores := s.stores ++ [((s.uartrxBufferIndex.toNat : ℤ), ch)]
    uartrxBufferIndex := s.uartrxBufferIndex + 1 }

/-- `READLEN`. -/
def readlen (s : Cam) (blockSize : UInt16) : UInt16 :=
  if blockSize.toNat < s.imglen.toNat - s.imgidx.toNat then blockSize else s.imglen - s.imgidx

def highByte (n : UInt16) : UInt8 := (n >>> 8).toUInt8
def lowByte (n : UInt16) : UInt8 := n.toUInt8

/-- `cam_cmd_3`. -/
def command (s : Cam) (blockSize : UInt16) : List UInt8 :=
  [0x56, 0x00, 0x32, 0x0C, 0x00, 0x0A, 0x00, 0x00, highByte s.imgidx, lowByte s.imgidx, 0x00, 0x00,
    highByte (readlen s blockSize), lowByte (readlen s blockSize), 0x00, 0x0a]

/-- `getImg`, with the bytes that are received between `uartrx_buffer_index = 0` and the test. -/
def getImg (s : Cam) (blockSize : UInt16) (answer : List UInt8) : Cam × ℤ :=
  if s.imgidx < s.imglen then
    let n := readlen s blockSize
    let cmd := command s blockSize
    let s := { s with uartrxBufferIndex := 0, sent := s.sent ++ [cmd] }
    let s := answer.foldl uart4IrqHandler s
    if n.toUInt32 = s.uartrxBufferIndex - 0x0A then
      ({ s with imgidx := s.imgidx + n, fetched := s.fetched ++ [cmd] }, n.toNat)
    else (s, -1)
  else (s, 0)

/-- A byte comes while no call waits for an answer, or there is a call. -/
inductive Act
  | receive (ch : UInt8)
  | getImg (blockSize : UInt16) (answer : List UInt8)

def step (s : Cam) : Act → Cam
  | .receive ch => uart4IrqHandler s ch
  | .getImg blockSize answer => (getImg s blockSize answer).1

/-- A picture has been taken: its length is known, and nothing of it has been fetched. -/
def start (imglen : UInt16) (index : UInt32) : Cam := ⟨imglen, 0, index, [], [], []⟩

/-- The range that a command names: where it starts, and its length. -/
def range (cmd : List UInt8) : ℕ × ℕ :=
  (256 * (cmd.getD 8 0).toNat + (cmd.getD 9 0).toNat,
    256 * (cmd.getD 12 0).toNat + (cmd.getD 13 0).toNat)

/-- The ranges lie one behind the other, from `a` to `b`. -/
def Tiles : ℕ → List (ℕ × ℕ) → ℕ → Prop
  | a, [], b => a = b
  | a, r :: rs, b => r.1 = a ∧ Tiles (a + r.2) rs b

/-- What a step does right. -/
structure Right (s : Cam) (a : Act) : Prop where
  inside : Inside uartBufferLength (step s a).stores
  le : (step s a).imgidx ≤ (step s a).imglen
  tiles : Tiles 0 ((step s a).fetched.map range) (step s a).imgidx.toNat
  again : ∀ blockSize answer, a = .getImg blockSize answer →
    (getImg s blockSize answer).2 = -1 →
    (step s a).imgidx = s.imgidx ∧ ∀ b, command (step s a) b = command s b

/-- No more bytes are received, from one command to the next, than the buffer has room for. -/
def HasRoom (s : Cam) : Act → Prop
  | .receive _ => s.uartrxBufferIndex.toNat < uartBufferLength
  | .getImg _ answer => s.imgidx < s.imglen → answer.length ≤ uartBufferLength

/-! ### The interrupt handler -/

theorem foldl_irq_fields : ∀ (chs : List UInt8) (s : Cam),
    (chs.foldl uart4IrqHandler s).imglen = s.imglen ∧
      (chs.foldl uart4IrqHandler s).imgidx = s.imgidx ∧
      (chs.foldl uart4IrqHandler s).fetched = s.fetched
  | [], _ => ⟨rfl, rfl, rfl⟩
  | ch :: chs, s => foldl_irq_fields chs (uart4IrqHandler s ch)

theorem irq_inside (s : Cam) (ch : UInt8) :
    Inside uartBufferLength (uart4IrqHandler s ch).stores ↔
      Inside uartBufferLength s.stores ∧ s.uartrxBufferIndex.toNat < uartBufferLength := by
  rw [uart4IrqHandler, inside_append]
  refine and_congr_right fun _ => ?_
  simp only [Inside, List.mem_singleton, forall_eq]
  omega

/-- The bytes of an answer need a place each. -/
theorem foldl_irq_inside : ∀ (chs : List UInt8) (s : Cam),
    Inside uartBufferLength (chs.foldl uart4IrqHandler s).stores ↔
      Inside uartBufferLength s.stores ∧
        (chs = [] ∨ s.uartrxBufferIndex.toNat + chs.length ≤ uartBufferLength)
  | [], s => by simp
  | ch :: chs, s => by
    rw [List.foldl_cons, foldl_irq_inside chs, irq_inside, and_assoc]
    refine and_congr_right fun _ => ?_
    simp only [List.length_cons, reduceCtorEq, false_or]
    by_cases hroom : s.uartrxBufferIndex.toNat < uartBufferLength
    · have hnext : (uart4IrqHandler s ch).uartrxBufferIndex.toNat =
          s.uartrxBufferIndex.toNat + 1 := by
        rw [uartBufferLength] at hroom
        simp only [uart4IrqHandler, UInt32.toNat_add, UInt32.reduceToNat]
        omega
      rw [hnext]
      constructor
      · rintro ⟨_, rfl | h⟩
        · simpa using hroom
        · omega
      · intro h
        exact ⟨hroom, .inr (by omega)⟩
    · constructor
      · rintro ⟨h, _⟩
        exact absurd h hroom
      · intro h
        omega

/-! ### The ranges -/

theorem bytes_eq (n : UInt16) : 256 * (highByte n).toNat + (lowByte n).toNat = n.toNat := by
  have := n.toNat_lt
  simp only [highByte, lowByte, UInt16.toNat_toUInt8, UInt16.toNat_shiftRight, UInt16.reduceToNat,
    Nat.reduceMod, Nat.shiftRight_eq_div_pow]
  omega

theorem range_command (s : Cam) (blockSize : UInt16) :
    range (command s blockSize) = (s.imgidx.toNat, (readlen s blockSize).toNat) :=
  Prod.ext (bytes_eq _) (bytes_eq _)

theorem readlen_le (s : Cam) (blockSize : UInt16) (h : s.imgidx < s.imglen) :
    s.imgidx.toNat + (readlen s blockSize).toNat ≤ s.imglen.toNat := by
  have hlt := UInt16.lt_iff_toNat_lt.1 h
  rw [readlen]
  split_ifs with hblock
  · omega
  · rw [UInt16.toNat_sub_of_le _ _ (UInt16.le_iff_toNat_le.2 hlt.le)]
    omega

theorem Tiles.concat : ∀ {a b : ℕ} {rs : List (ℕ × ℕ)} (n : ℕ), Tiles a rs b →
    Tiles a (rs ++ [(b, n)]) (b + n)
  | _, _, [], _, rfl => ⟨rfl, rfl⟩
  | _, _, _ :: _, n, ⟨hr, hrs⟩ => ⟨hr, Tiles.concat n hrs⟩

/-! ### One call -/

/-- What a call does when there is something left of the picture. -/
theorem getImg_cases (s : Cam) (blockSize : UInt16) (answer : List UInt8)
    (h : s.imgidx < s.imglen) :
    (Inside uartBufferLength (getImg s blockSize answer).1.stores ↔
      Inside uartBufferLength s.stores ∧ answer.length ≤ uartBufferLength) ∧
    (getImg s blockSize answer).1.imglen = s.imglen ∧
    ((getImg s blockSize answer).1.imgidx = s.imgidx + readlen s blockSize ∧
        (getImg s blockSize answer).1.fetched = s.fetched ++ [command s blockSize] ∧
        (getImg s blockSize answer).2 = (readlen s blockSize).toNat ∨
      (getImg s blockSize answer).1.imgidx = s.imgidx ∧
        (getImg s blockSize answer).1.fetched = s.fetched ∧
        (getImg s blockSize answer).2 = -1) := by
  obtain ⟨t, ht⟩ : ∃ t : Cam, t = answer.foldl uart4IrqHandler
      { s with uartrxBufferIndex := 0, sent := s.sent ++ [command s blockSize] } := ⟨_, rfl⟩
  have hinside := foldl_irq_inside answer
    { s with uartrxBufferIndex := 0, sent := s.sent ++ [command s blockSize] }
  obtain ⟨himglen, himgidx, hfetched⟩ := foldl_irq_fields answer
    { s with uartrxBufferIndex := 0, sent := s.sent ++ [command s blockSize] }
  rw [← ht] at hinside himglen himgidx hfetched
  have hstores : Inside uartBufferLength t.stores ↔
      Inside uartBufferLength s.stores ∧ answer.length ≤ uartBufferLength := by
    rw [hinside]
    refine and_congr_right fun _ => ?_
    constructor
    · rintro (rfl | h)
      · exact Nat.zero_le _
      · simpa using h
    · intro h
      exact .inr (by simpa using h)
  simp only [getImg, if_pos h, ← ht]
  split_ifs with hlength
  · refine ⟨hstores, himglen, .inl ⟨?_, ?_, rfl⟩⟩
    · exact congrArg (· + readlen s blockSize) himgidx
    · exact congrArg (· ++ [command s blockSize]) hfetched
  · exact ⟨hstores, himglen, .inr ⟨himgidx, hfetched, rfl⟩⟩

/-- And when there is nothing left. -/
theorem getImg_done (s : Cam) (blockSize : UInt16) (answer : List UInt8)
    (h : ¬s.imgidx < s.imglen) : getImg s blockSize answer = (s, 0) := by
  rw [getImg, if_neg h]

theorem command_congr {s s' : Cam} (hlen : s'.imglen = s.imglen) (hidx : s'.imgidx = s.imgidx)
    (b : UInt16) : command s' b = command s b := by
  simp only [command, readlen, hlen, hidx]

/-! ### Runs -/

/-- What has been fetched is all that lies before `imgidx`. -/
structure Inv (s : Cam) : Prop where
  inside : Inside uartBufferLength s.stores
  le : s.imgidx ≤ s.imglen
  tiles : Tiles 0 (s.fetched.map range) s.imgidx.toNat

theorem inv_start (imglen : UInt16) (index : UInt32) : Inv (start imglen index) where
  inside := inside_nil
  le := UInt16.zero_le
  tiles := rfl

/-- A byte goes to the index, and the ranges stay as they are. -/
theorem Inv.receive {s : Cam} (inv : Inv s) (ch : UInt8) :
    Right s (.receive ch) ↔ HasRoom s (.receive ch) := by
  have hinside := irq_inside s ch
  constructor
  · intro h
    exact (hinside.1 h.inside).2
  · intro h
    refine ⟨hinside.2 ⟨inv.inside, h⟩, inv.le, inv.tiles, ?_⟩
    intro _ _ hact
    cases hact

/-- An answer is stored from the start on; the next range starts where the last one ended. -/
theorem Inv.getImg {s : Cam} (inv : Inv s) (blockSize : UInt16) (answer : List UInt8) :
    Right s (.getImg blockSize answer) ↔ HasRoom s (.getImg blockSize answer) := by
  by_cases hmore : s.imgidx < s.imglen
  · obtain ⟨hinside, himglen, hcases⟩ := getImg_cases s blockSize answer hmore
    have hsum := readlen_le s blockSize hmore
    constructor
    · intro h _
      exact (hinside.1 h.inside).2
    · intro h
      refine ⟨hinside.2 ⟨inv.inside, h hmore⟩, ?_, ?_, ?_⟩
      · rcases hcases with ⟨hidx, _, _⟩ | ⟨hidx, _, _⟩
        · rw [step, himglen, hidx, UInt16.le_iff_toNat_le, UInt16.toNat_add]
          exact (Nat.mod_le _ _).trans hsum
        · rw [step, himglen, hidx]
          exact inv.le
      · rcases hcases with ⟨hidx, hfetched, _⟩ | ⟨hidx, hfetched, _⟩
        · have hlt := s.imglen.toNat_lt
          rw [step, hfetched, hidx, UInt16.toNat_add, Nat.mod_eq_of_lt (by omega), List.map_append,
            List.map_singleton, range_command]
          exact inv.tiles.concat _
        · rw [step, hfetched, hidx]
          exact inv.tiles
      · rintro b a hact hfailed
        cases hact
        rcases hcases with ⟨_, _, hret⟩ | ⟨hidx, _, _⟩
        · rw [hret] at hfailed
          omega
        · exact ⟨hidx, command_congr himglen hidx⟩
  · have hdone := getImg_done s blockSize answer hmore
    refine iff_of_true ?_ fun h => absurd h hmore
    have hstep : step s (.getImg blockSize answer) = s := by rw [step, hdone]
    refine ⟨?_, ?_, ?_, ?_⟩
    · rw [hstep]
      exact inv.inside
    · rw [hstep]
      exact inv.le
    · rw [hstep]
      exact inv.tiles
    · intro _ _ _ _
      rw [hstep]
      exact ⟨rfl, fun _ => rfl⟩

theorem right_iff_hasRoom {s : Cam} (inv : Inv s) (a : Act) : Right s a ↔ HasRoom s a := by
  cases a with
  | receive ch => exact inv.receive ch
  | getImg blockSize answer => exact inv.getImg blockSize answer

theorem Inv.step {s : Cam} (inv : Inv s) (a : Act) (hroom : HasRoom s a) :
    Inv (SerialCam.step s a) := by
  have hright := (right_iff_hasRoom inv a).2 hroom
  exact ⟨hright.inside, hright.le, hright.tiles⟩

/-- CORRECT: whatever the camera answers and whatever block sizes are asked for, every step of the
    run is right iff no more bytes than the buffer has room for come between two commands. -/
theorem reads_right_iff (imglen : UInt16) (index : UInt32) (acts : List Act) :
    Along step Right (start imglen index) acts ↔ Along step HasRoom (start imglen index) acts :=
  Along.iff (fun _ a inv => right_iff_hasRoom inv a) (fun _ a inv hroom => inv.step a hroom) acts
    (inv_start imglen index)

/-- A thousand and twenty-five bytes for a range of 512. -/
theorem not_reads_right :
    ¬Along step Right (start 2000 9) [.getImg 512 (List.replicate 1025 0)] := by
  have hlength : (List.replicate 1025 (0 : UInt8)).length = 1025 := List.length_replicate
  generalize List.replicate 1025 (0 : UInt8) = answer at hlength ⊢
  rintro ⟨hright, _⟩
  have hroom := (getImg_cases (start 2000 9) 512 answer (by decide)).1.1 hright.inside
  rw [hlength, uartBufferLength] at hroom
  omega

end EasyCore.SerialCam
