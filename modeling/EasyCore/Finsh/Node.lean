import Mathlib

/-! The syntax trees of the shell (`finsh/finsh_node.c`): a node has its first child and its next
    sibling, a type of data, and a flag for an address. -/

namespace EasyCore.Finsh

/-- `enum finsh_type` -/
inductive FinshType
  | void
  | voidp
  | char
  | uchar
  | charp
  | short
  | ushort
  | shortp
  | int
  | uint
  | intp
  | long
  | ulong
  | longp
  deriving DecidableEq

/-- The place of a type in the enumeration. -/
def FinshType.code : FinshType → ℕ
  | void => 1
  | voidp => 2
  | char => 3
  | uchar => 4
  | charp => 5
  | short => 6
  | ushort => 7
  | shortp => 8
  | int => 9
  | uint => 10
  | intp => 11
  | long => 12
  | ulong => 13
  | longp => 14

/-- What an identifier stands for: a variable, by the address of its value; a system variable or a
    system call, by the address of its table entry and what the entry points to. -/
inductive Sym
  | var (type : FinshType) (addr : UInt32)
  | sysvar (type : FinshType) (self var : UInt32)
  | syscall (self func : UInt32)
  deriving DecidableEq

/-- `&(node->id.var->value)`: whatever the identifier is, it is taken for a variable, whose value is
    20 bytes behind its name. -/
def Sym.valueAddr : Sym → UInt32
  | var _ addr => addr
  | sysvar _ self _ => self + 20
  | syscall self _ => self + 20

/-- The operators, in the order of their opcodes. -/
inductive Op
  | add
  | sub
  | div
  | mod
  | mul
  | and
  | or
  | xor
  | bitwise
  | shl
  | shr
  deriving DecidableEq

/-- `node_type` -/
inductive Kind
  | id (sym : Sym)
  | valueChar (c : UInt8)
  | valueInt (i : UInt32)
  | valueLong (l : UInt32)
  | valueString (ptr : UInt32)
  | valueNull
  | sys (op : Op)
  | func
  | assign
  | preinc
  | predec
  | inc
  | dec
  | getvalue
  | getaddr
  deriving DecidableEq

/-- A node and its siblings; `nil` is `NULL`. -/
inductive Tree
  | nil
  | node (kind : Kind) (dataType : ℕ) (address : Bool) (child sibling : Tree)
  deriving DecidableEq

namespace Tree

/-- `finsh_node_sibling(node) = sibling` -/
def setSibling : Tree → Tree → Tree
  | nil, _ => nil
  | node kind dataType address child _, sibling => node kind dataType address child sibling

/-- `node->data_type = type` -/
def setDataType : Tree → ℕ → Tree
  | nil, _ => nil
  | node kind _ address child sibling, type => node kind type address child sibling

/-- The number of nodes. -/
def size : Tree → ℕ
  | nil => 0
  | node _ _ _ child sibling => 1 + child.size + sibling.size

/-- The number of siblings, with the node itself. -/
def siblings : Tree → ℕ
  | nil => 0
  | node _ _ _ _ sibling => 1 + sibling.siblings

end Tree

/-- `FINSH_NODE_MAX` -/
def nodeMax : ℕ := 16

end EasyCore.Finsh
