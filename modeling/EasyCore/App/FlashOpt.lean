import Mathlib

/-! The flash of the processor (`drivers/extdrv/flash_opt.c`): pages are erased, and half words are
    programmed from a buffer of two bytes. -/

namespace EasyCore.FlashOpt

/-- `PAGE_SIZE`, of a high-density device. -/
def pageSize : ℕ := 0x800

/-- What the driver does to the flash; the page begins at `addr`. -/
inductive FlashOp
  | erasePage (addr : ℕ)
  | programHalfWord (addr : ℕ) (lo hi : UInt8)
  deriving DecidableEq

def FlashOp.addr : FlashOp → ℕ
  | erasePage addr => addr
  | programHalfWord addr _ _ => addr

/-- The bytes at the addresses. -/
abbrev Flash := ℕ → UInt8

/-- Erasing sets every bit of a page, and programming only clears bits. -/
def FlashOp.run (m : Flash) : FlashOp → Flash
  | erasePage addr => fun x => if addr ≤ x ∧ x < addr + pageSize then 0xFF else m x
  | programHalfWord addr lo hi => fun x =>
    if x = addr then m x &&& lo else if x = addr + 1 then m x &&& hi else m x

def runAll (m : Flash) (ops : List FlashOp) : Flash := ops.foldl FlashOp.run m

/-- `buffer`, `buffer_index` and `buffer_addr`. -/
structure Writer where
  buffer : UInt8 × UInt8
  bufferIndex : ℕ
  bufferAddr : ℕ

/-- `FLASH_PagesMask`. -/
def pagesMask (size : ℕ) : ℕ :=
  if size % pageSize ≠ 0 then size / pageSize + 1 else size / pageSize

/-- The loop of `FLASH_ProgramStart`. -/
def erases (addr size : ℕ) : List FlashOp :=
  (List.range (pagesMask size)).map fun i => .erasePage (addr + pageSize * i)

/-- `FLASH_ProgramStart`. -/
def programStart (w : Writer) (addr size : ℕ) : Writer × List FlashOp :=
  ({ w with bufferIndex := 0, bufferAddr := addr }, erases addr size)

/-- `FLASH_AppendOneByte`; `FLASH_WriteBank` finds a half word that was not written, and nobody
    asks. -/
def appendOneByte (w : Writer) (data : UInt8) : Writer × List FlashOp :=
  if w.bufferIndex = 0 then ({ w with buffer := (data, w.buffer.2), bufferIndex := 1 }, [])
  else
    ({ buffer := (w.buffer.1, data), bufferIndex := 0, bufferAddr := w.bufferAddr + 2 },
      [.programHalfWord w.bufferAddr w.buffer.1 data])

/-- `FLASH_AppendBuffer`. -/
def appendBuffer (w : Writer) : List UInt8 → Writer × List FlashOp
  | [] => (w, [])
  | x :: data =>
    let one := appendOneByte w x
    let more := appendBuffer one.1 data
    (more.1, one.2 ++ more.2)

/-- `FLASH_AppendEnd`: a byte that waits goes out with what `buffer` has behind it. -/
def appendEnd (w : Writer) : Writer × List FlashOp :=
  if 0 < w.bufferIndex then
    ({ w with bufferAddr := w.bufferAddr + 2 },
      [.programHalfWord w.bufferAddr w.buffer.1 w.buffer.2])
  else (w, [])

/-- Data that comes in pieces is written to `addr`, behind `FLASH_ProgramStart`. -/
def program (w : Writer) (addr size : ℕ) (pieces : List (List UInt8)) : Writer × List FlashOp :=
  let start := programStart w addr size
  let body := pieces.foldl (fun s data =>
    let next := appendBuffer s.1 data
    (next.1, s.2 ++ next.2)) start
  let last := appendEnd body.1
  (last.1, body.2 ++ last.2)

/-! ### What is programmed -/

/-- Two bytes at a time. -/
def halfWords : ℕ → List UInt8 → List FlashOp
  | addr, lo :: hi :: data => .programHalfWord addr lo hi :: halfWords (addr + 2) data
  | _, _ => []

theorem halfWords_append : ∀ (addr : ℕ) (data more : List UInt8), data.length % 2 = 0 →
    halfWords addr (data ++ more) = halfWords addr data ++ halfWords (addr + data.length) more
  | addr, [], more, _ => by simp [halfWords]
  | _, [_], _, h => by simp at h
  | addr, lo :: hi :: data, more, h => by
    have ih := halfWords_append (addr + 2) data more (by simp at h; omega)
    simp only [List.cons_append, halfWords, ih, List.length_cons]
    rw [show addr + 2 + data.length = addr + (data.length + 1 + 1) by omega]

/-- The driver and what it has done after data has been appended from `addr` on: all of it is
    programmed, or its last byte waits. -/
inductive Wrote (addr : ℕ) (ops : List FlashOp) : Writer × List FlashOp → List UInt8 → Prop
  | all (b : UInt8 × UInt8) (data : List UInt8) (heven : data.length % 2 = 0) :
      Wrote addr ops (⟨b, 0, addr + data.length⟩, ops ++ halfWords addr data) data
  | waits (b : UInt8 × UInt8) {data : List UInt8} (heven : data.length % 2 = 0) :
      Wrote addr ops (⟨b, 1, addr + data.length⟩, ops ++ halfWords addr data) (data ++ [b.1])

theorem Wrote.one {addr : ℕ} {ops : List FlashOp} {s : Writer × List FlashOp}
    {data : List UInt8} (h : Wrote addr ops s data) (x : UInt8) :
    Wrote addr ops ((appendOneByte s.1 x).1, s.2 ++ (appendOneByte s.1 x).2) (data ++ [x]) := by
  cases h with
  | all b data heven =>
    simp only [appendOneByte, if_true, List.append_nil]
    exact .waits (x, b.2) heven
  | @waits b data heven =>
    have hpair : (data ++ [b.1] ++ [x]).length % 2 = 0 := by
      simp only [List.length_append, List.length_singleton]; omega
    have hnext : addr + data.length + 2 = addr + (data ++ [b.1] ++ [x]).length := by
      simp only [List.length_append, List.length_singleton]; omega
    have hops : ops ++ halfWords addr data ++ [.programHalfWord (addr + data.length) b.1 x] =
        ops ++ halfWords addr (data ++ [b.1] ++ [x]) := by
      rw [List.append_assoc data, halfWords_append _ _ _ heven, List.append_assoc]
      rfl
    simp only [appendOneByte, Nat.one_ne_zero, if_false, hops, hnext]
    exact .all (b.1, x) _ hpair

theorem Wrote.buffer {addr : ℕ} {ops : List FlashOp} : ∀ (more : List UInt8)
    {s : Writer × List FlashOp} {data : List UInt8}, Wrote addr ops s data →
    Wrote addr ops ((appendBuffer s.1 more).1, s.2 ++ (appendBuffer s.1 more).2) (data ++ more)
  | [], s, data, h => by
    simpa only [appendBuffer, List.append_nil] using h
  | x :: more, s, data, h => by
    have hrest := Wrote.buffer more (h.one x)
    simpa only [appendBuffer, List.append_assoc, List.singleton_append] using hrest

theorem Wrote.pieces {addr : ℕ} {ops : List FlashOp} : ∀ (pieces : List (List UInt8))
    {s : Writer × List FlashOp} {data : List UInt8}, Wrote addr ops s data →
    Wrote addr ops (pieces.foldl (fun s data =>
      let next := appendBuffer s.1 data
      (next.1, s.2 ++ next.2)) s) (data ++ pieces.flatten)
  | [], s, data, h => by
    simpa only [List.foldl_nil, List.flatten_nil, List.append_nil] using h
  | piece :: pieces, s, data, h => by
    have hrest := Wrote.pieces pieces (h.buffer piece)
    simpa only [List.foldl_cons, List.flatten_cons, List.append_assoc] using hrest

/-- `FLASH_AppendEnd` leaves nothing that waits: with a byte more, all of the data is programmed. -/
theorem Wrote.finish {addr : ℕ} {ops : List FlashOp} {s : Writer × List FlashOp}
    {data : List UInt8} (h : Wrote addr ops s data) :
    ∃ fill : List UInt8, fill.length ≤ 1 ∧ (data ++ fill).length % 2 = 0 ∧
      s.2 ++ (appendEnd s.1).2 = ops ++ halfWords addr (data ++ fill) := by
  cases h with
  | all b data heven =>
    refine ⟨[], by simp, by simpa using heven, ?_⟩
    simp [appendEnd]
  | @waits b data heven =>
    refine ⟨[b.2], by simp, ?_, ?_⟩
    · simp only [List.length_append, List.length_singleton]; omega
    · rw [List.append_assoc data, halfWords_append _ _ _ heven]
      simp [appendEnd, halfWords]

theorem wrote_nothing (b : UInt8 × UInt8) (addr : ℕ) (ops : List FlashOp) :
    Wrote addr ops (⟨b, 0, addr⟩, ops) [] := by
  have h : Wrote addr ops (⟨b, 0, addr + 0⟩, ops ++ halfWords addr []) [] := .all b [] rfl
  rwa [halfWords, List.append_nil] at h
  simp

/-- The pages are erased, and then the data is programmed; a byte more, to fill a half word. -/
theorem program_ops (w : Writer) (addr size : ℕ) (pieces : List (List UInt8)) :
    ∃ fill : List UInt8, fill.length ≤ 1 ∧ (pieces.flatten ++ fill).length % 2 = 0 ∧
      (program w addr size pieces).2 =
        erases addr size ++ halfWords addr (pieces.flatten ++ fill) := by
  have hstart : Wrote addr (erases addr size) (programStart w addr size) [] :=
    wrote_nothing w.buffer addr (erases addr size)
  exact (hstart.pieces pieces).finish

/-! ### What the flash holds then -/

/-- The `n` bytes from `addr` on. -/
def bytesAt (m : Flash) (addr n : ℕ) : List UInt8 := (List.range n).map fun i => m (addr + i)

@[simp] theorem bytesAt_length (m : Flash) (addr n : ℕ) : (bytesAt m addr n).length = n := by
  simp [bytesAt]

theorem bytesAt_add (m : Flash) (addr n k : ℕ) :
    bytesAt m addr (n + k) = bytesAt m addr n ++ bytesAt m (addr + n) k := by
  simp only [bytesAt, List.range_add, List.map_append, List.map_map]
  congr 1
  apply List.map_congr_left
  intro i _
  rw [Function.comp, Nat.add_assoc]

theorem runAll_append (m : Flash) (ops more : List FlashOp) :
    runAll m (ops ++ more) = runAll (runAll m ops) more := List.foldl_append ..

/-- A page after the other. -/
theorem erases_run (m : Flash) (addr : ℕ) (x : ℕ) : ∀ n : ℕ,
    runAll m ((List.range n).map fun i => .erasePage (addr + pageSize * i)) x =
      if addr ≤ x ∧ x < addr + pageSize * n then 0xFF else m x := by
  intro n
  induction n with
  | zero => rw [if_neg (by omega)]; rfl
  | succ n ih =>
    rw [List.range_succ, List.map_append, runAll_append]
    change (FlashOp.erasePage (addr + pageSize * n)).run _ x = _
    simp only [FlashOp.run, ih, Nat.mul_succ]
    split
    · rw [if_pos (by omega)]
    · split
      · rw [if_pos (by omega)]
      · rw [if_neg (by omega)]

theorem halfWords_run (x : ℕ) : ∀ (data : List UInt8) (m : Flash) (addr : ℕ),
    data.length % 2 = 0 → runAll m (halfWords addr data) x =
      if h : addr ≤ x ∧ x - addr < data.length then m x &&& data[x - addr] else m x
  | [], m, addr, _ => by
    rw [dif_neg (by simp)]; rfl
  | [_], _, _, h => by simp at h
  | lo :: hi :: data, m, addr, h => by
    have ih := halfWords_run x data ((FlashOp.programHalfWord addr lo hi).run m) (addr + 2)
      (by simp at h; omega)
    change runAll ((FlashOp.programHalfWord addr lo hi).run m) (halfWords (addr + 2) data) x = _
    rw [ih]
    simp only [FlashOp.run, List.length_cons]
    obtain hlt | rfl | rfl | hgt : x < addr ∨ x = addr ∨ x = addr + 1 ∨ addr + 2 ≤ x := by omega
    · rw [dif_neg (by omega), if_neg (by omega), if_neg (by omega), dif_neg (by omega)]
    · rw [dif_neg (by omega), if_pos rfl, dif_pos (by omega)]
      simp
    · rw [dif_neg (by omega), if_neg (by omega), if_pos rfl, dif_pos (by omega)]
      simp
    · rw [if_neg (by omega), if_neg (by omega)]
      obtain ⟨i, rfl⟩ : ∃ i, x = addr + 2 + i := ⟨x - (addr + 2), by omega⟩
      have hsub : addr + 2 + i - addr = i + 1 + 1 := by omega
      simp only [Nat.add_sub_cancel_left, hsub, List.getElem_cons_succ]
      by_cases hi : i < data.length
      · rw [dif_pos (by omega), dif_pos (by omega)]
      · rw [dif_neg (by omega), dif_neg (by omega)]

/-- An erased byte takes what is programmed. -/
theorem erased_and (b : UInt8) : 0xFF &&& b = b :=
  UInt8.toBitVec_inj.1 BitVec.allOnes_and

/-- Pages are erased, and data is programmed from their start on. -/
def written (m : Flash) (addr size : ℕ) (data : List UInt8) : Flash :=
  runAll (runAll m (erases addr size)) (halfWords addr data)

theorem written_bytesAt (m : Flash) (addr size n : ℕ) {data : List UInt8}
    (heven : data.length % 2 = 0) (hn : n ≤ pageSize * pagesMask size) :
    bytesAt (written m addr size data) addr n =
      data.take n ++ List.replicate (n - data.length) 0xFF := by
  apply List.ext_getElem
  · simp only [bytesAt_length, List.length_append, List.length_take, List.length_replicate]
    omega
  · intro i hi _
    rw [bytesAt_length] at hi
    simp only [bytesAt, List.getElem_map, List.getElem_range, written, halfWords_run _ _ _ _ heven,
      Nat.add_sub_cancel_left, erases, erases_run]
    rw [if_pos (by omega)]
    by_cases hlen : i < data.length
    · rw [dif_pos ⟨by omega, hlen⟩, erased_and, List.getElem_append_left (by simp; omega),
        List.getElem_take]
    · rw [dif_neg (by omega), List.getElem_append_right (by simp; omega), List.getElem_replicate]

/-- What lies before stays. -/
theorem written_before (m : Flash) (addr size x : ℕ) {data : List UInt8}
    (heven : data.length % 2 = 0) (hx : x < addr) : written m addr size data x = m x := by
  rw [written, halfWords_run _ _ _ _ heven, dif_neg (by omega), erases, erases_run,
    if_neg (by omega)]

/-- What lies behind the pages stays, if the data fits in. -/
theorem written_behind (m : Flash) (addr size x : ℕ) {data : List UInt8}
    (heven : data.length % 2 = 0) (hdata : data.length ≤ pageSize * pagesMask size)
    (hx : addr + pageSize * pagesMask size ≤ x) : written m addr size data x = m x := by
  rw [written, halfWords_run _ _ _ _ heven, dif_neg (by omega), erases, erases_run,
    if_neg (by omega)]

end EasyCore.FlashOpt
