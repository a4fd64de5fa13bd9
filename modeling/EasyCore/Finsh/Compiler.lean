import EasyCore.Finsh.Node

/-! The compiler of the shell (`finsh/finsh_compiler.c`): `finsh_type_check` derives the type of data
    of every node and marks the addresses, and `finsh_compile` emits the code of a tree, children
    first. -/

namespace EasyCore.Finsh

/-- `FINSH_DATA_TYPE_BYTE`, `_WORD` and `_DWORD`. -/
inductive Width
  | byte
  | word
  | dword
  deriving DecidableEq

/-- The number of bytes. -/
def Width.bytes : Width → ℕ
  | byte => 1
  | word => 2
  | dword => 4

/-- The width that a type of data stands for; the code has no branch for the others. -/
def width : ℕ → Option Width
  | 1 => some .byte
  | 2 => some .word
  | 3 => some .dword
  | _ => none

/-! ### Types -/

/-- The type of data of a declared type. -/
def FinshType.dataType : FinshType → ℕ
  | void => 0
  | char | uchar => 1
  | short | ushort => 2
  | voidp | charp | shortp | int | uint | intp | long | ulong | longp => 3

/-- The type of data of a node without a child; a system call keeps what a cast has set. -/
def Kind.leafType : Kind → ℕ → ℕ
  | .id (.var type _), _ => type.dataType
  | .id (.sysvar type ..), _ => type.dataType
  | .valueChar _, _ => 1
  | .valueInt _, _ | .valueLong _, _ | .valueString _, _ | .valueNull, _ => 3
  | _, old => old

/-- Whether the child is to be an address. -/
def Kind.childAddress : Kind → Bool → Bool
  | .assign, _ | .preinc, _ | .predec, _ | .getaddr, _ => true
  | .getvalue, true => false
  | _, address => address

def Kind.isSyscall : Kind → Bool
  | .id (.syscall ..) => true
  | _ => false

/-- The type of data of a node, from its child. -/
def Tree.typeOr : Tree → ℕ → ℕ
  | nil, leaf => leaf
  | node _ dataType .., _ => dataType

/-- `finsh_type_check` -/
def typeCheck : Bool → Tree → Tree
  | _, .nil => .nil
  | isAddr, .node kind dataType address child sibling =>
    let child := typeCheck (kind.childAddress isAddr) child
    let sibling := typeCheck false sibling
    .node kind (child.typeOr (kind.leafType dataType))
      (if kind.isSyscall then address else address || isAddr) child sibling

/-! ### Code -/

/-- An opcode with its operands. -/
inductive Instr
  | noop
  | op (op : Op) (w : Width)
  | ldByte (c : UInt8)
  | ldWord (s : UInt16)
  | ldDword (l : UInt32)
  | ldValue (w : Width) (addr : UInt32)
  | st (w : Width)
  | pop
  | syscall (parameters : UInt8)
  | ldValueStack (w : Width)
  deriving DecidableEq

/-- The load of an identifier: its address or its value. -/
def loadId (type : FinshType) (address : Bool) (addr : UInt32) : List Instr :=
  match type with
  | .void | .voidp => []
  | type =>
    match width type.dataType with
    | some w => if address then [.ldDword addr] else [.ldValue w addr]
    | none => []

/-- A one. -/
def ldOne : Width → Instr
  | .byte => .ldByte 1
  | .word => .ldWord 1
  | .dword => .ldDword 1

/-- The store to a place of this type of data; the value is loaded again. -/
def store (dataType : ℕ) : List Instr :=
  match width dataType with
  | some w => [.st w, .ldValueStack w]
  | none => []

/-- `FINSH_NODE_SYS_PREINC` and `_PREDEC`: the address of the identifier is on the stack. -/
def stepBefore (op : Op) (dataType : ℕ) : Tree → List Instr
  | .node (.id sym) .. =>
    match width dataType with
    | some w => [.ldValue w sym.valueAddr, ldOne w, .op op w, .st w, .ldValueStack .dword]
    | none => []
  | _ => []

/-- `FINSH_NODE_SYS_INC` and `_DEC`: the value of the identifier is on the stack, and stays. -/
def stepAfter (op : Op) (dataType : ℕ) : Tree → List Instr
  | .node (.id sym) .. =>
    match width dataType with
    | some w =>
      [.ldDword sym.valueAddr, .ldValue w sym.valueAddr, ldOne w, .op op w, .st w, .pop]
    | none => []
  | _ => []

/-- `FINSH_NODE_SYS_ASSIGN` -/
def assignCode : Tree → List Instr
  | .node (.id _) dataType .. => store dataType
  | .node .getvalue dataType .. => store (dataType % 16)
  | _ => []

/-- What is emitted for a node, behind the code of its child. -/
def nodeCode (kind : Kind) (dataType : ℕ) (address : Bool) (child : Tree) : List Instr :=
  match kind with
  | .id (.syscall _ func) => [.ldDword func]
  | .id (.sysvar type _ var) => loadId type address var
  | .id (.var type addr) => loadId type address addr
  | .valueChar c => [.ldByte c]
  | .valueInt l | .valueLong l | .valueString l => [.ldDword l]
  | .valueNull => [.ldDword 0]
  | .sys op =>
    match width dataType with
    | some w => [.op op w]
    | none => []
  | .func => if child = .nil then [] else [.syscall (UInt8.ofNat (child.siblings - 1))]
  | .assign => assignCode child
  | .preinc => stepBefore .add dataType child
  | .predec => stepBefore .sub dataType child
  | .inc => stepAfter .add dataType child
  | .dec => stepAfter .sub dataType child
  | .getvalue =>
    if address then []
    else
      match width dataType with
      | some w => [.ldValueStack w]
      | none => []
  | .getaddr => []

/-- `finsh_compile` -/
def compile : Tree → List Instr
  | .nil => []
  | .node kind dataType address child sibling =>
    compile child ++ nodeCode kind dataType address child ++ compile sibling

/-- The targets of assignments that are an error: of no type of data. -/
def untyped : Tree → Bool
  | .node (.id _) dataType .. => (width dataType).isNone
  | .node .getvalue dataType .. => (width (dataType % 16)).isNone
  | _ => false

/-- Whether `finsh_compile` reports an error. -/
def compileError : Tree → Bool
  | .nil => false
  | .node kind _ _ child sibling =>
    compileError child || (kind = .assign && untyped child) || compileError sibling

/-- The statements, one after the other; a value that is not the last is popped. -/
def compileStatements : Tree → List Instr
  | .nil => []
  | .node kind dataType address child .nil => compile (.node kind dataType address child .nil)
  | .node kind dataType address child sibling =>
    compile (.node kind dataType address child .nil) ++ .pop :: compileStatements sibling

/-- `finsh_compiler_run` -/
def finshCompilerRun (root : Tree) : List Instr := compileStatements (typeCheck false root)

/-! ### Bytes -/

/-- The first opcode of an operator. -/
def Op.opcode : Op → UInt8
  | add => 1
  | sub => 4
  | div => 7
  | mod => 10
  | mul => 13
  | and => 16
  | or => 19
  | xor => 22
  | bitwise => 25
  | shl => 28
  | shr => 31

/-- The opcodes for the widths stand one after the other. -/
def Width.offset : Width → UInt8
  | byte => 0
  | word => 1
  | dword => 2

def Instr.opcode : Instr → UInt8
  | noop => 0
  | op o w => o.opcode + w.offset
  | ldByte _ => 34
  | ldWord _ => 35
  | ldDword _ => 36
  | ldValue w _ => 37 + w.offset
  | st w => 40 + w.offset
  | pop => 43
  | syscall _ => 44
  | ldValueStack w => 45 + w.offset

/-- `FINSH_SET16` -/
def bytes16 (v : UInt16) : List UInt8 := [v.toUInt8, (v >>> 8).toUInt8]

/-- `FINSH_SET32` -/
def bytes32 (v : UInt32) : List UInt8 :=
  [v.toUInt8, (v >>> 8).toUInt8, (v >>> 16).toUInt8, (v >>> 24).toUInt8]

def Instr.operands : Instr → List UInt8
  | ldByte c => [c]
  | ldWord s => bytes16 s
  | ldDword l => bytes32 l
  | ldValue _ addr => bytes32 addr
  | syscall parameters => [parameters]
  | _ => []

/-- The bytes of an instruction. -/
def Instr.bytes (i : Instr) : List UInt8 := i.opcode :: i.operands

/-- The bytes of the code. -/
def codeBytes (code : List Instr) : List UInt8 := code.flatMap Instr.bytes

end EasyCore.Finsh
