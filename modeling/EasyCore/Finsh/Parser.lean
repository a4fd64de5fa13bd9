import EasyCore.Finsh.Node

/-! The parser of the shell (`finsh/finsh_parser.c`, with `finsh_node.c` and `finsh_var.c`): recursive
    descent over tokens, one of which can be put back. A line with an error is not compiled, whatever
    else is done with it; here the first error ends it. -/

namespace EasyCore.Finsh

/-- `enum finsh_token_type`, with the values; the end of the line is the end of the tokens. -/
inductive Token
  | leftParen
  | rightParen
  | comma
  | semicolon
  | mul
  | add
  | inc
  | sub
  | dec
  | div
  | mod
  | assign
  | and
  | or
  | xor
  | bitwise
  | shl
  | shr
  | void
  | char
  | short
  | int
  | long
  | unsigned
  | valueChar (c : UInt8)
  | valueInt (i : UInt32)
  | valueLong (l : UInt32)
  | valueString (s : List UInt8)
  | valueNull
  | identifier (name : List UInt8)
  | bad
  deriving DecidableEq

/-- `is_base_type` -/
def Token.isBaseType : Token → Bool
  | void | char | short | int | long => true
  | _ => false

/-- What a line finds: the tables of the system, where the table of variables is, and the addresses
    that the heap gives for strings. -/
structure Env where
  sysvar : List UInt8 → Option (FinshType × UInt32 × UInt32)
  syscall : List UInt8 → Option (UInt32 × UInt32)
  globalVariable : UInt32
  heap : ℕ → UInt32

/-- `global_variable`: eight entries. -/
abbrev Vars := List (Option (List UInt8 × FinshType))

/-- The parser: the tokens that come, with the one that has been put back, the number of nodes, and
    the variables. -/
structure Parser where
  tokens : List Token
  nodes : ℕ
  vars : Vars

/-- The next token. -/
def Parser.head (p : Parser) : Option Token := p.tokens.head?

/-- The next token is taken. -/
def Parser.skip (p : Parser) : Parser := { p with tokens := p.tokens.tail }

/-- A procedure of the parser: a result and the parser, or an error. -/
abbrev Proc (α : Type) := Parser → Option (α × Parser)

/-- `match_token` -/
def matchToken (token : Token) : Proc Unit := fun p =>
  if p.head = some token then some ((), p.skip) else none

/-! ### Nodes -/

/-- `finsh_node_allocate`, for a node without children. -/
def newNode (kind : Kind) : Proc Tree := fun p =>
  if p.nodes < nodeMax then some (.node kind 0 false .nil .nil, { p with nodes := p.nodes + 1 })
  else none

/-- `make_sys_node` -/
def makeSysNode (kind : Kind) (node₁ node₂ : Tree) : Proc Tree := fun p =>
  if p.nodes < nodeMax ∧ node₁ ≠ .nil then
    some (.node kind 0 false (node₁.setSibling node₂) .nil, { p with nodes := p.nodes + 1 })
  else none

/-- Names are compared in 16 characters. -/
def sameName (a b : List UInt8) : Bool := a.take 16 = b.take 16

/-- `finsh_var_insert` -/
def varInsert (name : List UInt8) (type : FinshType) (vars : Vars) : Option Vars :=
  if vars.any fun v => (v.map fun v => sameName v.1 name).getD false then none
  else
    (vars.findIdx? fun v => v.isNone).map fun i => vars.set i (some (name, type))

/-- `finsh_var_lookup`: the entry, and its type. -/
def varLookup (name : List UInt8) (vars : Vars) : Option (ℕ × FinshType) :=
  (vars.findIdx? fun v => (v.map fun v => sameName v.1 name).getD false).bind fun i =>
    ((vars[i]?).bind id).map fun v => (i, v.2)

/-- The symbol of a name, in `finsh_node_new_id`; an entry of `global_variable` has 24 bytes, and its
    value is the last of them. -/
def symbol (env : Env) (name : List UInt8) (vars : Vars) : Option Sym :=
  match varLookup name vars with
  | some (i, type) => some (.var type (env.globalVariable + 24 * UInt32.ofNat i + 20))
  | none =>
    match env.sysvar name with
    | some (type, self, var) => some (.sysvar type self var)
    | none => (env.syscall name).map fun s => .syscall s.1 s.2

/-- `finsh_node_new_id` -/
def newId (env : Env) (name : List UInt8) : Proc Tree := fun p =>
  (symbol env name p.vars).bind fun sym => newNode (.id sym) p

/-! ### Types and names -/

/-- A basic type. -/
def Token.baseType : Token → Option FinshType
  | void => some .void
  | char => some .char
  | short => some .short
  | int => some .int
  | long => some .long
  | _ => none

/-- A basic type behind `unsigned`. -/
def Token.unsignedType : Token → Option FinshType
  | char => some .uchar
  | short => some .ushort
  | int => some .uint
  | long => some .ulong
  | _ => none

/-- The pointer to a type. -/
def FinshType.pointer : FinshType → FinshType
  | char | uchar => charp
  | short | ushort => shortp
  | int | uint => intp
  | long | ulong => longp
  | _ => voidp

/-- `proc_type` -/
def procType : Proc FinshType := fun p =>
  let basic :=
    match p.head with
    | some .unsigned => (p.skip.head.bind Token.unsignedType).map fun type => (type, p.skip.skip)
    | token => (token.bind Token.baseType).map fun type => (type, p.skip)
  basic.map fun (type, p) => if p.head = some .mul then (type.pointer, p.skip) else (type, p)

/-- `proc_identifier` -/
def procIdentifier : Proc (List UInt8) := fun p =>
  match p.head with
  | some (.identifier name) => some (name, p.skip)
  | _ => none

/-! ### Expressions -/

/-- The loop over operators of one precedence: the operands are taken by `operand`. -/
def binaryLoop (ops : Token → Option Op) (operand : Proc Tree) : ℕ → Tree → Proc Tree
  | 0, _, _ => none
  | n + 1, left, p =>
    match p.head.bind ops with
    | some op => do
      let (right, p) ← operand p.skip
      let (left, p) ← makeSysNode (.sys op) left right p
      binaryLoop ops operand n left p
    | none => some (left, p)

def procBinary (ops : Token → Option Op) (operand : Proc Tree) (n : ℕ) : Proc Tree := fun p => do
  let (left, p) ← operand p
  binaryLoop ops operand n left p

def mulOps : Token → Option Op
  | .mul => some .mul
  | .div => some .div
  | .mod => some .mod
  | _ => none

def addOps : Token → Option Op
  | .sub => some .sub
  | .add => some .add
  | _ => none

def shiftOps : Token → Option Op
  | .shl => some .shl
  | .shr => some .shr
  | _ => none

def andOps : Token → Option Op
  | .and => some .and
  | _ => none

def xorOps : Token → Option Op
  | .xor => some .xor
  | _ => none

def orOps : Token → Option Op
  | .or => some .or
  | _ => none

/-- `proc_multiplicative_expr` -/
def procMultiplicativeExpr (cast : Proc Tree) (n : ℕ) : Proc Tree := procBinary mulOps cast n

/-- `proc_additive_expr` -/
def procAdditiveExpr (cast : Proc Tree) (n : ℕ) : Proc Tree :=
  procBinary addOps (procMultiplicativeExpr cast n) n

/-- `proc_shift_expr` -/
def procShiftExpr (cast : Proc Tree) (n : ℕ) : Proc Tree :=
  procBinary shiftOps (procAdditiveExpr cast n) n

/-- `proc_and_expr` -/
def procAndExpr (cast : Proc Tree) (n : ℕ) : Proc Tree :=
  procBinary andOps (procShiftExpr cast n) n

/-- `proc_exclusive_or_expr` -/
def procExclusiveOrExpr (cast : Proc Tree) (n : ℕ) : Proc Tree :=
  procBinary xorOps (procAndExpr cast n) n

/-- `proc_inclusive_or_expr` -/
def procInclusiveOrExpr (cast : Proc Tree) (n : ℕ) : Proc Tree :=
  procBinary orOps (procExclusiveOrExpr cast n) n

/-- Trees as siblings, with the last of them. -/
def link (trees : List Tree) (last : Tree) : Tree := trees.foldr Tree.setSibling last

/-- The loop of `proc_param_list`. -/
def paramLoop (assign : Proc Tree) : ℕ → List Tree → Proc (List Tree)
  | 0, _, _ => none
  | n + 1, params, p =>
    if p.head = some .comma then do
      let (param, p) ← assign p.skip
      paramLoop assign n (params ++ [param]) p
    else some (params, p)

/-- `proc_param_list` -/
def procParamList (assign : Proc Tree) (n : ℕ) : Proc Tree := fun p => do
  let (param, p) ← assign p
  let (params, p) ← paramLoop assign n [param] p
  some (link params .nil, p)

/-- `proc_primary_expr` -/
def procPrimaryExpr (env : Env) (assign : Proc Tree) : Proc Tree := fun p =>
  match p.head with
  | some (.identifier name) => newId env name p.skip
  | some .leftParen => do
    let (expr, p) ← assign p.skip
    let (_, p) ← matchToken .rightParen p
    some (expr, p)
  | some (.valueInt i) => newNode (.valueInt i) p.skip
  | some (.valueLong l) => newNode (.valueLong l) p.skip
  | some (.valueChar c) => newNode (.valueChar c) p.skip
  | some (.valueString _) => newNode (.valueString (env.heap p.nodes)) p.skip
  | some .valueNull => newNode .valueNull p.skip
  | _ => none

/-- The parameters of a call, up to the parenthesis behind them. -/
def callParams (assign : Proc Tree) (n : ℕ) : Proc Tree := fun p =>
  if p.head = some .rightParen then some (.nil, p.skip)
  else do
    let (params, p) ← procParamList assign n p
    let (_, p) ← matchToken .rightParen p
    some (params, p)

/-- The loop of `proc_postfix_expr`. -/
def postfixLoop (assign : Proc Tree) : ℕ → Tree → Proc Tree
  | 0, _, _ => none
  | n + 1, left, p =>
    match p.head with
    | some .inc => do
      let (left, p) ← makeSysNode .inc left .nil p.skip
      postfixLoop assign n left p
    | some .dec => do
      let (left, p) ← makeSysNode .dec left .nil p.skip
      postfixLoop assign n left p
    | some .leftParen => do
      let (params, p) ← callParams assign n p.skip
      let (left, p) ← makeSysNode .func left params p
      postfixLoop assign n left p
    | _ => some (left, p)

/-- `proc_postfix_expr` -/
def procPostfixExpr (env : Env) (assign : Proc Tree) (n : ℕ) : Proc Tree := fun p => do
  let (left, p) ← procPrimaryExpr env assign p
  postfixLoop assign n left p

/-- A prefix operator. -/
def prefixNode (cast : Proc Tree) (kind : Kind) : Proc Tree := fun p => do
  let (operand, p) ← cast p
  makeSysNode kind operand .nil p

/-- `proc_unary_expr` -/
def procUnaryExpr (env : Env) (cast assign : Proc Tree) (n : ℕ) : Proc Tree := fun p =>
  match p.head with
  | some .add => cast p.skip
  | some .inc => prefixNode cast .preinc p.skip
  | some .sub => do
    let (operand, p) ← cast p.skip
    let (zero, p) ← newNode (.valueLong 0) p
    makeSysNode (.sys .sub) zero operand p
  | some .dec => prefixNode cast .predec p.skip
  | some .bitwise => prefixNode cast (.sys .bitwise) p.skip
  | some .mul => prefixNode cast .getvalue p.skip
  | some .and => prefixNode cast .getaddr p.skip
  | _ => procPostfixExpr env assign n p

mutual

/-- `proc_assign_expr`; its left side is whatever stands before the `=`. -/
def procAssignExpr (env : Env) : ℕ → Proc Tree
  | 0, _ => none
  | n + 1, p => do
    let (left, p) ← procInclusiveOrExpr (procCastExpr env n) n p
    if p.head = some .assign then do
      let (right, p) ← procAssignExpr env n p.skip
      makeSysNode .assign left right p
    else some (left, p)

/-- `proc_cast_expr`: a parenthesis begins a cast here, and nothing else. -/
def procCastExpr (env : Env) : ℕ → Proc Tree
  | 0, _ => none
  | n + 1, p =>
    if p.head = some .leftParen then do
      let (type, p) ← procType p.skip
      let (_, p) ← matchToken .rightParen p
      let (operand, p) ← procCastExpr env n p
      some (operand.setDataType type.code, p)
    else procUnaryExpr env (procCastExpr env n) (procAssignExpr env n) n p

end

/-! ### Statements -/

/-- `proc_expr_statement` -/
def procExprStatement (env : Env) (n : ℕ) : Proc Tree := fun p =>
  if p.head = some .semicolon then some (.nil, p.skip)
  else do
    let (expr, p) ← procAssignExpr env n p
    let (_, p) ← matchToken .semicolon p
    some (expr, p)

/-- A variable is declared. -/
def declare (type : FinshType) : Proc (List UInt8) := fun p => do
  let (name, p) ← procIdentifier p
  let vars ← varInsert name type p.vars
  some (name, { p with vars })

/-- The initial value of a variable, behind `=`. -/
def initialise (env : Env) (n : ℕ) (name : List UInt8) : Proc Tree := fun p => do
  let (right, p) ← procAssignExpr env n p
  let (left, p) ← newId env name p
  makeSysNode .assign left right p

/-- The loop of `proc_variable_decl`, with the assignments so far. -/
def declLoop (env : Env) (type : FinshType) : ℕ → List Tree → Proc (List Tree)
  | 0, _, _ => none
  | n + 1, assigns, p =>
    if p.head = some .comma then do
      let (name, p) ← declare type p.skip
      if p.head = some .assign then do
        let (assign, p) ← initialise env n name p.skip
        declLoop env type n (assigns ++ [assign]) p
      else declLoop env type n assigns p
    else do
      let (_, p) ← matchToken .semicolon p
      some (assigns, p)

/-- `proc_variable_decl` -/
def procVariableDecl (env : Env) (n : ℕ) : Proc Tree := fun p => do
  let (type, p) ← procType p
  let (name, p) ← declare type p
  if p.head = some .assign then do
    let (assign, p) ← initialise env n name p.skip
    let (assigns, p) ← declLoop env type n [assign] p
    some (link assigns .nil, p)
  else do
    let (assigns, p) ← declLoop env type n [] p
    some (link assigns .nil, p)

/-- Whether a token begins a declaration. -/
def Token.isDecl (token : Token) : Bool := token.isBaseType || token = .unsigned

/-- A statement, or a declaration. -/
def procStatement (env : Env) (n : ℕ) : Proc Tree := fun p =>
  if (p.head.map Token.isDecl).getD false then procVariableDecl env n p
  else procExprStatement env n p

/-- The loop of `finsh_parser_run` behind the first statement. `nodes` are the roots before `node`,
    in which the next sibling is set: a declaration with several assignments loses all but the first
    then. Behind an empty statement one more token is lost. -/
def statementLoop (env : Env) : ℕ → List Tree → Tree → Proc Tree
  | 0, _, _, _ => none
  | n + 1, nodes, node, p =>
    match p.head with
    | none | some .bad => some (link nodes node, p)
    | some token => do
      let (next, p) ← procStatement env n p
      if next = .nil then
        statementLoop env n nodes (node.setSibling .nil) (if token.isDecl then p else p.skip)
      else statementLoop env n (nodes ++ [node]) next p

/-- `finsh_parser_run`: the root. Where the first statement leaves no node, the rest of the line is
    not looked at. -/
def finshParserRun (env : Env) (vars : Vars) (tokens : List Token) : Option Tree :=
  let n := 2 * tokens.length + 4
  let p : Parser := ⟨tokens, 0, vars⟩
  match p.head with
  | none | some .bad => some .nil
  | some _ => do
    let (root, p) ← procStatement env n p
    if root = .nil then some .nil
    else do
      let (root, _) ← statementLoop env n [] root p
      some root

end EasyCore.Finsh
