import EasyCore.Finsh.Compiler

/-! The virtual machine of the shell (`finsh/finsh_vm.c`, `finsh_ops.c`): a stack of slots of four
    bytes, of which an operation in a smaller width changes the low bytes only, and the memory with
    the variables. It runs through the whole text segment. -/

namespace EasyCore.Finsh

/-- `FINSH_TEXT_MAX` -/
def textMax : ℕ := 128

/-- `FINSH_STACK_MAX` -/
def stackMax : ℕ := 64

/-- The bytes at the addresses. -/
abbrev Mem := UInt32 → UInt8

/-- A read or a write of some bytes of the memory. -/
inductive Access
  | read (w : Width) (addr : UInt32)
  | write (w : Width) (addr : UInt32)
  deriving DecidableEq

/-- The machine: `sp` is the index of the next free slot; `accesses` is kept for the statements
    about the memory. -/
structure Vm where
  pc : ℕ
  sp : ℤ
  stack : ℤ → UInt32
  mem : Mem
  accesses : List Access

/-- What the functions that can be called do: a result, and the memory. -/
abbrev Calls := UInt32 → List UInt32 → Mem → UInt32 × Mem

/-! ### Values in a width -/

/-- The low bytes of a slot are set, the others stay. -/
def Width.set : Width → UInt32 → UInt32 → UInt32
  | byte, old, new => old &&& 0xFFFFFF00 ||| new &&& 0xFF
  | word, old, new => old &&& 0xFFFF0000 ||| new &&& 0xFFFF
  | dword, _, new => new

/-- The value of the low bytes: a `char` has no sign, a `short` has one. -/
def Width.get : Width → UInt32 → UInt32
  | byte, slot => slot &&& 0xFF
  | word, slot => slot.toUInt16.toInt16.toInt32.toUInt32
  | dword, slot => slot

/-- A little-endian number in the memory. -/
def Width.load : Width → Mem → UInt32 → UInt32
  | byte, m, a => (m a).toUInt32
  | word, m, a => (m a).toUInt32 ||| (m (a + 1)).toUInt32 <<< 8
  | dword, m, a => (m a).toUInt32 ||| (m (a + 1)).toUInt32 <<< 8 |||
      (m (a + 2)).toUInt32 <<< 16 ||| (m (a + 3)).toUInt32 <<< 24

def Mem.set (m : Mem) (a : UInt32) (b : UInt8) : Mem := fun x => if x = a then b else m x

/-- The low bytes of a slot go to the memory. -/
def Width.store : Width → Mem → UInt32 → UInt32 → Mem
  | byte, m, a, v => m.set a v.toUInt8
  | word, m, a, v => (m.set a v.toUInt8).set (a + 1) (v >>> 8).toUInt8
  | dword, m, a, v => (((m.set a v.toUInt8).set (a + 1) (v >>> 8).toUInt8).set (a + 2)
      (v >>> 16).toUInt8).set (a + 3) (v >>> 24).toUInt8

/-- The operators of C on `long`; a shift by 32 or more, which C leaves open, goes on bit by bit. -/
def Op.long : Op → UInt32 → UInt32 → UInt32
  | add, a, b => a + b
  | sub, a, b => a - b
  | div, a, b => (a.toInt32 / b.toInt32).toUInt32
  | mod, a, b => (a.toInt32 % b.toInt32).toUInt32
  | mul, a, b => a * b
  | and, a, b => a &&& b
  | or, a, b => a ||| b
  | xor, a, b => a ^^^ b
  | bitwise, a, _ => ~~~a
  | shl, a, b => if b < 32 then a <<< b else 0
  | shr, a, b => (a.toInt32 >>> (if b < 32 then b else 31).toInt32).toUInt32

/-! ### Operations -/

namespace Vm

def push (v : Vm) (slot : UInt32) : Vm :=
  { v with sp := v.sp + 1, stack := fun k => if k = v.sp then slot else v.stack k }

/-- The slot `n` below the top is set. -/
def setSlot (v : Vm) (n : ℤ) (slot : UInt32) : Vm :=
  { v with stack := fun k => if k = v.sp - n then slot else v.stack k }

def drop (v : Vm) (n : ℕ) : Vm := { v with sp := v.sp - n }

/-- The slot `n` below the top. -/
def slot (v : Vm) (n : ℤ) : UInt32 := v.stack (v.sp - n)

def log (v : Vm) (a : Access) : Vm := { v with accesses := v.accesses ++ [a] }

def setMem (v : Vm) (mem : Mem) : Vm := { v with mem }

@[simp] theorem push_slot (v : Vm) (x : UInt32) (n : ℤ) :
    (v.push x).slot n = if n = 1 then x else v.slot (n - 1) := by
  have hkey : v.sp + 1 - n = v.sp ↔ n = 1 := by omega
  have hindex : v.sp + 1 - n = v.sp - (n - 1) := by omega
  simp only [push, slot, hkey]
  rw [hindex]

@[simp] theorem setSlot_slot (v : Vm) (m : ℤ) (x : UInt32) (n : ℤ) :
    (v.setSlot m x).slot n = if n = m then x else v.slot n := by
  have hkey : v.sp - n = v.sp - m ↔ n = m := by omega
  simp only [setSlot, slot, hkey]

@[simp] theorem drop_slot (v : Vm) (k : ℕ) (n : ℤ) : (v.drop k).slot n = v.slot (n + k) := by
  simp only [drop, slot]
  congr 1
  omega

@[simp] theorem log_slot (v : Vm) (a : Access) (n : ℤ) : (v.log a).slot n = v.slot n := rfl

@[simp] theorem setMem_slot (v : Vm) (mem : Mem) (n : ℤ) : (v.setMem mem).slot n = v.slot n := rfl

@[simp] theorem push_sp (v : Vm) (x : UInt32) : (v.push x).sp = v.sp + 1 := rfl

@[simp] theorem setSlot_sp (v : Vm) (m : ℤ) (x : UInt32) : (v.setSlot m x).sp = v.sp := rfl

@[simp] theorem drop_sp (v : Vm) (k : ℕ) : (v.drop k).sp = v.sp - k := rfl

@[simp] theorem log_sp (v : Vm) (a : Access) : (v.log a).sp = v.sp := rfl

@[simp] theorem setMem_sp (v : Vm) (mem : Mem) : (v.setMem mem).sp = v.sp := rfl

@[simp] theorem push_mem (v : Vm) (x : UInt32) : (v.push x).mem = v.mem := rfl

@[simp] theorem setSlot_mem (v : Vm) (m : ℤ) (x : UInt32) : (v.setSlot m x).mem = v.mem := rfl

@[simp] theorem drop_mem (v : Vm) (k : ℕ) : (v.drop k).mem = v.mem := rfl

@[simp] theorem log_mem (v : Vm) (a : Access) : (v.log a).mem = v.mem := rfl

@[simp] theorem setMem_mem (v : Vm) (mem : Mem) : (v.setMem mem).mem = mem := rfl

end Vm

/-- `OP_call`: the function and its parameters are replaced by the result. -/
def opCall (call : Calls) (n : ℕ) (v : Vm) : Vm :=
  let parameters := (List.range n).map fun i => v.slot (n - i)
  let r := if n ≤ 16 then call (v.slot (n + 1)) parameters v.mem else (0, v.mem)
  ((v.drop (n + 1)).push r.1).setMem r.2

/-- The functions of `op_table`, with their operands. -/
def Instr.run (call : Calls) (v : Vm) : Instr → Vm
  | .noop => v
  | .op .bitwise w => v.setSlot 1 (w.set (v.slot 1) (Op.long .bitwise (w.get (v.slot 1)) 0))
  | .op o w =>
    (v.setSlot 2 (w.set (v.slot 2) (o.long (w.get (v.slot 2)) (w.get (v.slot 1))))).drop 1
  | .ldByte c => v.push (Width.set .byte (v.slot 0) c.toUInt32)
  | .ldWord s => v.push (Width.set .word (v.slot 0) s.toUInt32)
  | .ldDword l => v.push l
  | .ldValue w addr => (v.log (.read w addr)).push (w.set (v.slot 0) (w.load v.mem addr))
  | .st w =>
    ((v.setMem (w.store v.mem (v.slot 2) (v.slot 1))).log (.write w (v.slot 2))).drop 1
  | .pop => v.drop 1
  | .syscall n => opCall call n.toNat v
  | .ldValueStack w =>
    (v.log (.read w (v.slot 1))).setSlot 1 (w.set (v.slot 1) (w.load v.mem (v.slot 1)))

/-- A code, one instruction after the other. -/
def exec (call : Calls) (v : Vm) (code : List Instr) : Vm :=
  code.foldl (fun v i => i.run call v) v

/-! ### Fetching -/

/-- `FINSH_GET16` -/
def get16 (text : ℕ → UInt8) (pc : ℕ) : UInt16 :=
  (text pc).toUInt16 ||| (text (pc + 1)).toUInt16 <<< 8

/-- `FINSH_GET32` -/
def get32 (text : ℕ → UInt8) (pc : ℕ) : UInt32 :=
  (text pc).toUInt32 ||| (text (pc + 1)).toUInt32 <<< 8 ||| (text (pc + 2)).toUInt32 <<< 16 |||
    (text (pc + 3)).toUInt32 <<< 24

def opcodeWidth : ℕ → Width
  | 0 => .byte
  | 1 => .word
  | _ => .dword

def opcodeOp : ℕ → Op
  | 0 => .add
  | 1 => .sub
  | 2 => .div
  | 3 => .mod
  | 4 => .mul
  | 5 => .and
  | 6 => .or
  | 7 => .xor
  | 8 => .bitwise
  | 9 => .shl
  | _ => .shr

/-- The entry of `op_table` for the opcode at `pc`, with the operands behind it; `none` is outside of
    the table. -/
def fetch (text : ℕ → UInt8) (pc : ℕ) : Option Instr :=
  let op := (text pc).toNat
  if op = 0 then some .noop
  else if op < 34 then some (.op (opcodeOp ((op - 1) / 3)) (opcodeWidth ((op - 1) % 3)))
  else if op = 34 then some (.ldByte (text (pc + 1)))
  else if op = 35 then some (.ldWord (get16 text (pc + 1)))
  else if op = 36 then some (.ldDword (get32 text (pc + 1)))
  else if op < 40 then some (.ldValue (opcodeWidth (op - 37)) (get32 text (pc + 1)))
  else if op < 43 then some (.st (opcodeWidth (op - 40)))
  else if op = 43 then some .pop
  else if op = 44 then some (.syscall (text (pc + 1)))
  else if op < 48 then some (.ldValueStack (opcodeWidth (op - 45)))
  else none

/-- One round of `finsh_vm_run`. -/
def vmStep (call : Calls) (text : ℕ → UInt8) (v : Vm) : Option Vm :=
  (fetch text v.pc).map fun i =>
    i.run call { v with pc := v.pc + 1 + i.operands.length }

/-- `finsh_vm_run`, for at most so many rounds. -/
def vmRun (call : Calls) (text : ℕ → UInt8) : ℕ → Vm → Option Vm
  | 0, v => some v
  | rounds + 1, v =>
    if v.pc < textMax then (vmStep call text v).bind (vmRun call text rounds) else some v

/-- The text segment with a code; the rest of it has been cleared. -/
def textOf (code : List Instr) : ℕ → UInt8 := fun i => (codeBytes code).getD i 0

/-- The machine before a run: the stack and the memory are what they are. -/
def Vm.start (stack : ℤ → UInt32) (m : Mem) : Vm := ⟨0, 0, stack, m, []⟩

/-! ### A code in the text segment -/

/-- An instruction neither looks at `pc` nor changes it. -/
theorem run_pc (call : Calls) (v : Vm) (pc : ℕ) (i : Instr) :
    i.run call { v with pc } = { i.run call v with pc } := by
  cases i with
  | op o w => cases o <;> rfl
  | _ => rfl

theorem exec_append (call : Calls) (v : Vm) (code more : List Instr) :
    exec call v (code ++ more) = exec call (exec call v code) more := List.foldl_append ..

/-- The rounds of the machine up to a state. -/
inductive Reach (call : Calls) (text : ℕ → UInt8) (v : Vm) : Vm → Prop
  | refl : Reach call text v v
  | step {v' v'' : Vm} (h : Reach call text v v') (hpc : v'.pc < textMax)
      (hstep : vmStep call text v' = some v'') : Reach call text v v''

/-- The bytes of a number, put together again. -/
theorem join32 (l : UInt32) : l.toUInt8.toUInt32 ||| (l >>> 8).toUInt8.toUInt32 <<< 8 |||
    (l >>> 16).toUInt8.toUInt32 <<< 16 ||| (l >>> 24).toUInt8.toUInt32 <<< 24 = l := by
  apply UInt32.toBitVec_inj.1
  simp only [UInt32.toBitVec_or, UInt32.toBitVec_shiftLeft, UInt8.toBitVec_toUInt32,
    UInt32.toBitVec_toUInt8, UInt32.toBitVec_shiftRight]
  ext i hi
  simp
  -- Every bit comes from one of the bytes.
  obtain h | ⟨h, h'⟩ | ⟨h, h'⟩ | h : i < 8 ∨ 8 ≤ i ∧ i < 16 ∨ 16 ≤ i ∧ i < 24 ∨ 24 ≤ i := by
    omega
  · have h16 : i < 16 := by omega
    have h24 : i < 24 := by omega
    simp [h, h16, h24, BitVec.getLsbD_eq_getElem hi]
  · have h24 : i < 24 := by omega
    have hbit : 8 + (i - 8) = i := by omega
    simp [Nat.not_lt.2 h, show i - 8 < 8 by omega, hbit, h', h24, BitVec.getLsbD_eq_getElem hi]
  · have hbit : 16 + (i - 16) = i := by omega
    simp [show ¬i < 8 by omega, Nat.not_lt.2 h, show ¬i - 8 < 8 by omega,
      show i - 16 < 8 by omega, hbit, h', BitVec.getLsbD_eq_getElem hi]
  · have hbit : 24 + (i - 24) = i := by omega
    simp [show ¬i < 8 by omega, show ¬i < 16 by omega, Nat.not_lt.2 h,
      show ¬i - 8 < 8 by omega, show ¬i - 16 < 8 by omega, show i - 24 < 8 by omega, hbit,
      BitVec.getLsbD_eq_getElem hi]

theorem join16 (s : UInt16) :
    s.toUInt8.toUInt16 ||| (s >>> 8).toUInt8.toUInt16 <<< 8 = s := by
  apply UInt16.toBitVec_inj.1
  simp only [UInt16.toBitVec_or, UInt16.toBitVec_shiftLeft, UInt8.toBitVec_toUInt16,
    UInt16.toBitVec_toUInt8, UInt16.toBitVec_shiftRight]
  ext i hi
  simp
  grind

/-- The bytes of an instruction stand at `pc`. -/
def At (text : ℕ → UInt8) (pc : ℕ) (l : List UInt8) : Prop :=
  ∀ k < l.length, text (pc + k) = l.getD k 0

theorem get32_at {text : ℕ → UInt8} {pc : ℕ} {l : UInt32} (h : At text pc (bytes32 l)) :
    get32 text pc = l := by
  have h0 : text pc = l.toUInt8 := h 0 (by simp [bytes32])
  have h1 : text (pc + 1) = (l >>> 8).toUInt8 := h 1 (by simp [bytes32])
  have h2 : text (pc + 2) = (l >>> 16).toUInt8 := h 2 (by simp [bytes32])
  have h3 : text (pc + 3) = (l >>> 24).toUInt8 := h 3 (by simp [bytes32])
  rw [get32, h0, h1, h2, h3, join32]

theorem get16_at {text : ℕ → UInt8} {pc : ℕ} {s : UInt16} (h : At text pc (bytes16 s)) :
    get16 text pc = s := by
  have h0 : text pc = s.toUInt8 := h 0 (by simp [bytes16])
  have h1 : text (pc + 1) = (s >>> 8).toUInt8 := h 1 (by simp [bytes16])
  rw [get16, h0, h1, join16]

/-- An instruction is fetched as it was emitted. -/
theorem fetch_at {text : ℕ → UInt8} {pc : ℕ} {i : Instr} (h : At text pc i.bytes) :
    fetch text pc = some i := by
  have hop : text pc = i.opcode := h 0 (by simp [Instr.bytes])
  have hoperands : At text (pc + 1) i.operands := by
    intro k hk
    have hbyte := h (k + 1) (by simp [Instr.bytes]; omega)
    rw [show pc + 1 + k = pc + (k + 1) by omega, hbyte]
    rfl
  cases i with
  | noop | pop => simp [fetch, hop, Instr.opcode]
  | op o w => cases o <;> cases w <;> simp [fetch, hop, Instr.opcode, Op.opcode, Width.offset,
      opcodeOp, opcodeWidth]
  | ldByte c =>
    have hc : text (pc + 1) = c := hoperands 0 (by simp [Instr.operands])
    simp [fetch, hop, Instr.opcode, hc]
  | syscall n =>
    have hn : text (pc + 1) = n := hoperands 0 (by simp [Instr.operands])
    simp [fetch, hop, Instr.opcode, hn]
  | ldWord s => simp [fetch, hop, Instr.opcode, get16_at hoperands]
  | ldDword l => simp [fetch, hop, Instr.opcode, get32_at hoperands]
  | ldValue w addr =>
    cases w <;> simp [fetch, hop, Instr.opcode, Width.offset, opcodeWidth, get32_at hoperands]
  | st w => cases w <;> simp [fetch, hop, Instr.opcode, Width.offset, opcodeWidth]
  | ldValueStack w => cases w <;> simp [fetch, hop, Instr.opcode, Width.offset, opcodeWidth]

theorem codeBytes_append (code more : List Instr) :
    codeBytes (code ++ more) = codeBytes code ++ codeBytes more := List.flatMap_append ..

theorem at_textOf (done : List Instr) (i : Instr) (rest : List Instr) :
    At (textOf (done ++ i :: rest)) (codeBytes done).length i.bytes := by
  intro k hk
  have hcode : codeBytes (done ++ i :: rest) = codeBytes done ++ (i.bytes ++ codeBytes rest) := by
    rw [codeBytes_append]
    rfl
  rw [textOf, hcode, List.getD_append_right _ _ _ _ (Nat.le_add_right ..),
    Nat.add_sub_cancel_left, List.getD_append _ _ _ _ hk]

/-- Behind the code the text segment is clear. -/
theorem fetch_behind {code : List Instr} {pc : ℕ} (h : (codeBytes code).length ≤ pc) :
    fetch (textOf code) pc = some .noop := by
  rw [fetch, textOf, List.getD_eq_default _ _ h]
  rfl

/-- A state of a run: a part of the code has been executed, or all of it and some of what is behind. -/
inductive Along (call : Calls) (code : List Instr) (v : Vm) : Vm → Prop
  | inside (done rest : List Instr) (h : done ++ rest = code) :
      Along call code v { exec call v done with pc := (codeBytes done).length }
  | behind {pc : ℕ} (h : (codeBytes code).length ≤ pc) :
      Along call code v { exec call v code with pc }

theorem step_inside (call : Calls) (v : Vm) (done : List Instr) (i : Instr) (rest : List Instr) :
    vmStep call (textOf (done ++ i :: rest))
        { exec call v done with pc := (codeBytes done).length } =
      some { exec call v (done ++ [i]) with pc := (codeBytes (done ++ [i])).length } := by
  have hpc : (codeBytes (done ++ [i])).length =
      (codeBytes done).length + 1 + i.operands.length := by
    rw [codeBytes_append, List.length_append]
    simp [codeBytes, Instr.bytes]
    omega
  rw [vmStep, fetch_at (at_textOf done i rest), hpc, exec_append]
  exact congrArg some (run_pc call (exec call v done) _ i)

theorem step_behind (call : Calls) (v : Vm) {code : List Instr} (h : (codeBytes code).length ≤ v.pc) :
    vmStep call (textOf code) v = some { v with pc := v.pc + 1 } := by
  rw [vmStep, fetch_behind h]
  rfl

/-- Every state that is reached is one of them. -/
theorem Reach.along {call : Calls} {code : List Instr} {v v' : Vm} (hpc : v.pc = 0)
    (h : Reach call (textOf code) v v') : Along call code v v' := by
  induction h with
  | refl =>
    have hstart : v = { exec call v [] with pc := (codeBytes []).length } := by
      rw [exec, List.foldl_nil]
      exact congrArg (fun pc => { v with pc }) hpc
    rw [hstart]
    exact .inside [] code rfl
  | @step v₁ v₂ _ _ hstep ih =>
    cases ih with
    | inside done rest hcode =>
      cases rest with
      | nil =>
        rw [List.append_nil] at hcode
        subst hcode
        rw [step_behind call _ (le_refl _)] at hstep
        cases hstep
        exact .behind (Nat.le_succ _)
      | cons i rest =>
        rw [← hcode, step_inside] at hstep
        cases hstep
        exact .inside (done ++ [i]) rest (by rw [← hcode, List.append_assoc]; rfl)
    | behind hbehind =>
      rw [step_behind call _ hbehind] at hstep
      cases hstep
      exact .behind (Nat.le_succ_of_le hbehind)

/-- Behind the code the machine goes to the end of the text segment. -/
theorem vmRun_behind (call : Calls) {code : List Instr} : ∀ (rounds : ℕ) (v : Vm),
    (codeBytes code).length ≤ v.pc → v.pc ≤ textMax → textMax ≤ v.pc + rounds →
    vmRun call (textOf code) rounds v = some { v with pc := textMax } := by
  intro rounds
  induction rounds with
  | zero =>
    intro v _ hle hge
    have hpc : v.pc = textMax := by omega
    rw [vmRun, ← hpc]
  | succ rounds ih =>
    intro v hbehind hle hge
    rw [vmRun]
    split
    · rw [step_behind call v hbehind, Option.bind_some,
        ih _ (Nat.le_succ_of_le hbehind) (by simp only; omega) (by simp only; omega)]
    · have hpc : v.pc = textMax := by omega
      rw [← hpc]

/-- A code that fits into the text segment is executed, and the run ends. -/
theorem vmRun_textOf (call : Calls) {code : List Instr} (v : Vm)
    (hfits : (codeBytes code).length ≤ textMax) (hpc : v.pc = 0) :
    vmRun call (textOf code) textMax v = some { exec call v code with pc := textMax } := by
  have hrun : ∀ (rest done : List Instr) (rounds : ℕ), done ++ rest = code →
      textMax ≤ (codeBytes done).length + rounds →
      vmRun call (textOf code) rounds
          { exec call v done with pc := (codeBytes done).length } =
        some { exec call v code with pc := textMax } := by
    intro rest
    induction rest with
    | nil =>
      intro done rounds hcode hrounds
      rw [List.append_nil] at hcode
      subst hcode
      rw [vmRun_behind call rounds _ (le_refl _) hfits hrounds]
    | cons i rest ih =>
      intro done rounds hcode hrounds
      have hnext : done ++ [i] ++ rest = code := by rw [← hcode, List.append_assoc]; rfl
      have hlen : (codeBytes done).length + 1 ≤ (codeBytes (done ++ [i])).length := by
        rw [codeBytes_append, List.length_append]
        simp [codeBytes, Instr.bytes]
      have hle : (codeBytes (done ++ [i])).length ≤ (codeBytes code).length := by
        rw [← hnext, codeBytes_append (done ++ [i]), List.length_append]
        exact Nat.le_add_right ..
      obtain ⟨rounds, rfl⟩ : ∃ n, rounds = n + 1 := ⟨rounds - 1, by omega⟩
      rw [vmRun, if_pos (by simp only; omega)]
      have hstep := step_inside call v done i rest
      rw [hcode] at hstep
      rw [hstep, Option.bind_some]
      exact ih (done ++ [i]) rounds hnext (by omega)
  have hstart := hrun code [] textMax rfl (Nat.le_add_left ..)
  have hv : { exec call v [] with pc := (codeBytes []).length } = v := by
    rw [exec, List.foldl_nil]
    exact congrArg (fun pc => { v with pc }) hpc.symm
  rwa [hv] at hstart

end EasyCore.Finsh
