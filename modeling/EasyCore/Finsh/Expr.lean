import EasyCore.Finsh.CodeSize
import EasyCore.Lib.LowBits

/-! What C says about an expression: its type, its value and what it changes. A value stands in 32 bits,
    as the promotions give it. `char` has no sign on this machine, `int` and `long` have 32 bits; the
    operands are evaluated from left to right, and signed numbers wrap. -/

namespace EasyCore.Finsh
open LowBits

/-! ### Types -/

/-- The types of numbers. -/
def FinshType.isArith : FinshType → Bool
  | char | uchar | short | ushort | int | uint | long | ulong => true
  | _ => false

/-- The bytes of an object of the type. -/
def FinshType.width : FinshType → Width
  | char | uchar => .byte
  | short | ushort => .word
  | _ => .dword

/-- A value is converted to the type. -/
def FinshType.convert : FinshType → UInt32 → UInt32
  | char, v | uchar, v => v &&& 0xFF
  | short, v => v.toUInt16.toInt16.toInt32.toUInt32
  | ushort, v => v &&& 0xFFFF
  | _, v => v

/-- The integer promotions. -/
def FinshType.promote : FinshType → FinshType
  | uint => uint
  | long => long
  | ulong => ulong
  | _ => int

/-- The usual arithmetic conversions, for types that have been promoted; a `long` does not hold every
    `unsigned int`. -/
def FinshType.common : FinshType → FinshType → FinshType
  | ulong, _ | _, ulong => ulong
  | long, uint | uint, long => ulong
  | long, _ | _, long => long
  | uint, _ | _, uint => uint
  | _, _ => int

def FinshType.isUnsigned : FinshType → Bool
  | uint | ulong => true
  | _ => false

/-- A binary operator on promoted values; C says nothing about a division by zero, and about a shift by
    32 or more. -/
def Op.eval (isUnsigned : Bool) : Op → UInt32 → UInt32 → Option UInt32
  | add, a, b => some (a + b)
  | sub, a, b => some (a - b)
  | mul, a, b => some (a * b)
  | and, a, b => some (a &&& b)
  | or, a, b => some (a ||| b)
  | xor, a, b => some (a ^^^ b)
  | div, a, b =>
    if b = 0 then none
    else some (if isUnsigned then a / b else (a.toInt32 / b.toInt32).toUInt32)
  | mod, a, b =>
    if b = 0 then none
    else some (if isUnsigned then a % b else (a.toInt32 % b.toInt32).toUInt32)
  | shl, a, b => if b < 32 then some (a <<< b) else none
  | shr, a, b =>
    if b < 32 then some (if isUnsigned then a >>> b else (a.toInt32 >>> b.toInt32).toUInt32)
    else none
  | bitwise, _, _ => none

/-! ### Expressions -/

/-- A variable, or a system variable with its entry of the table at `entry`. -/
structure Variable where
  type : FinshType
  entry : Option UInt32
  addr : UInt32
  arith : type.isArith

/-- The symbol of a variable. -/
def Variable.sym (x : Variable) : Sym :=
  match x.entry with
  | none => .var x.type x.addr
  | some entry => .sysvar x.type entry x.addr

/-- Expressions over numbers. -/
inductive Expr
  | char (c : UInt8)
  | int (i : UInt32)
  | long (l : UInt32)
  | var (x : Variable)
  | neg (e : Expr)
  | bitwise (e : Expr)
  | bin (o : Op) (e₁ e₂ : Expr)
  | assign (x : Variable) (e : Expr)
  | preinc (x : Variable)
  | predec (x : Variable)
  | inc (x : Variable)
  | dec (x : Variable)

/-- A node without children. -/
def Tree.leaf (kind : Kind) : Tree := .node kind 0 false .nil .nil

/-- A node over its children. -/
def Tree.over (kind : Kind) (child : Tree) : Tree := .node kind 0 false child .nil

/-- The tree that the parser builds; a minus sign subtracts from zero. -/
def Expr.tree : Expr → Tree
  | char c => .leaf (.valueChar c)
  | int i => .leaf (.valueInt i)
  | long l => .leaf (.valueLong l)
  | var x => .leaf (.id x.sym)
  | neg e => .over (.sys .sub) ((Tree.leaf (.valueLong 0)).setSibling e.tree)
  | bitwise e => .over (.sys .bitwise) e.tree
  | bin o e₁ e₂ => .over (.sys o) (e₁.tree.setSibling e₂.tree)
  | assign x e => .over .assign ((Tree.leaf (.id x.sym)).setSibling e.tree)
  | preinc x => .over .preinc (.leaf (.id x.sym))
  | predec x => .over .predec (.leaf (.id x.sym))
  | inc x => .over .inc (.leaf (.id x.sym))
  | dec x => .over .dec (.leaf (.id x.sym))

/-- The type of an expression. -/
def Expr.type : Expr → FinshType
  | char _ => .char
  | int _ => .int
  | long _ => .long
  | var x | assign x _ | preinc x | predec x | inc x | dec x => x.type
  | neg e | bitwise e => e.type.promote
  | bin .shl e₁ _ | bin .shr e₁ _ => e₁.type.promote
  | bin _ e₁ e₂ => e₁.type.promote.common e₂.type.promote

/-- The value of a variable. -/
def Variable.get (x : Variable) (m : Mem) : UInt32 := x.type.convert (x.type.width.load m x.addr)

/-- A value goes to a variable. -/
def Variable.put (x : Variable) (m : Mem) (v : UInt32) : Mem := x.type.width.store m x.addr v

/-- The value of an expression, and the memory behind it, where C says one. -/
def Expr.eval : Expr → Mem → Option (UInt32 × Mem)
  | char c, m => some (c.toUInt32, m)
  | int i, m => some (i, m)
  | long l, m => some (l, m)
  | var x, m => some (x.get m, m)
  | neg e, m => (e.eval m).map fun r => (-r.1, r.2)
  | bitwise e, m => (e.eval m).map fun r => (~~~r.1, r.2)
  | bin o e₁ e₂, m =>
    (e₁.eval m).bind fun r₁ => (e₂.eval r₁.2).bind fun r₂ =>
      (o.eval (bin o e₁ e₂).type.isUnsigned r₁.1 r₂.1).map fun v => (v, r₂.2)
  | assign x e, m => (e.eval m).map fun r => (x.type.convert r.1, x.put r.2 r.1)
  | preinc x, m => some (x.type.convert (x.get m + 1), x.put m (x.get m + 1))
  | predec x, m => some (x.type.convert (x.get m - 1), x.put m (x.get m - 1))
  | inc x, m => some (x.get m, x.put m (x.get m + 1))
  | dec x, m => some (x.get m, x.put m (x.get m - 1))

/-! ### Low bits -/

def Width.bits : Width → ℕ
  | byte => 8
  | word => 16
  | dword => 32

theorem Width.bits_le (w : Width) : w.bits ≤ 32 := by cases w <;> decide

/-- A conversion keeps the low bits. -/
theorem same_convert (type : FinshType) (v : UInt32) :
    Same type.width.bits (type.convert v) v := by
  cases type with
  | char | uchar => exact same_and_mask v (by decide) (by decide)
  | short => exact same_signed16 v
  | ushort => exact same_and_mask v (by decide) (by decide)
  | _ => exact .refl _ v

/-- It only looks at them. -/
theorem convert_of_same {type : FinshType} {a b : UInt32} (h : Same type.width.bits a b) :
    type.convert a = type.convert b := by
  cases type with
  | char | uchar => exact h.and_mask (by decide)
  | short => exact h.signed16
  | ushort => exact h.and_mask (by decide)
  | _ => exact same_iff.1 h

/-- A value of a type is not changed by a conversion to it. -/
theorem convert_convert (type : FinshType) (v : UInt32) :
    type.convert (type.convert v) = type.convert v := convert_of_same (same_convert type v)

theorem convert_promote (type : FinshType) (v : UInt32) : type.promote.convert v = v := by
  cases type <;> rfl

theorem convert_common (a b : FinshType) (v : UInt32) :
    (a.promote.common b.promote).convert v = v := by
  cases a <;> cases b <;> rfl

/-- An expression has a value of its type. -/
theorem eval_convert {e : Expr} {m m' : Mem} {v : UInt32} (h : e.eval m = some (v, m')) :
    e.type.convert v = v := by
  cases e with
  | char c =>
    cases h
    have hlow : c.toUInt32 &&& 0xFF = c.toUInt32 := by
      apply UInt32.toNat_inj.1
      have hlt := c.toNat_lt
      rw [UInt32.toNat_and, UInt8.toNat_toUInt32]
      exact (Nat.and_two_pow_sub_one_eq_mod _ 8).trans (Nat.mod_eq_of_lt hlt)
    exact hlow
  | int i => rfl
  | long l => rfl
  | var x =>
    cases h
    exact convert_convert ..
  | neg e => exact convert_promote ..
  | bitwise e => exact convert_promote ..
  | bin o e₁ e₂ =>
    cases o with
    | shl => exact convert_promote ..
    | shr => exact convert_promote ..
    | _ => exact convert_common ..
  | assign x e =>
    obtain ⟨r, -, h⟩ := Option.map_eq_some_iff.1 h
    cases h
    exact convert_convert ..
  | preinc x =>
    cases h
    exact convert_convert ..
  | predec x =>
    cases h
    exact convert_convert ..
  | inc x =>
    cases h
    exact convert_convert ..
  | dec x =>
    cases h
    exact convert_convert ..

end EasyCore.Finsh
