import EasyCore.Finsh.Lexer

/-! The parser of the shell on a line (`finsh/finsh_parser.c`): it takes the tokens one by one from
    the lexer, the last of which it can put back, notes an error and goes on. A tree that could not
    be made is `NULL`:

        int = 5 ;      no name: noted, and `=` is put back
        a + ;          no operand: noted, and `;` is lost -/

namespace EasyCore.Finsh.Lexer

/-! ### Nodes -/

/-- What an identifier is: an entry of `global_variable`, or one of the tables of the system. -/
inductive Entry
  | var (i : ℕ)
  | sysvar (addr : UInt32)
  | syscall (addr : UInt32)
  deriving DecidableEq

/-- `node_type`, with the value; of a string it is what `string` holds. -/
inductive NodeType
  | id (entry : Entry)
  | valueChar (c : UInt8)
  | valueInt (i : UInt32)
  | valueLong (l : UInt32)
  | valueString (s : List UInt8)
  | valueNull
  | sys (op : Op)
  | func
  | assign
  | preinc
  | predec
  | inc
  | dec
  | getvalue
  | getaddr
  deriving DecidableEq

/-- A node and its siblings; a data type is not set at first, and may be unknown. -/
inductive Node
  | null
  | node (type : NodeType) (dataType : Option FinshType) (child sibling : Node)
  deriving DecidableEq

/-- `finsh_node_sibling(node) = sibling` -/
def Node.setSibling : Node → Node → Node
  | null, _ => null
  | node type dataType child _, sibling => node type dataType child sibling

/-- `finsh_node_child(node) = child` -/
def Node.setChild : Node → Node → Node
  | null, _ => null
  | node type dataType _ sibling, child => node type dataType child sibling

/-- `node->data_type = type` -/
def Node.setDataType : Node → Option FinshType → Node
  | null, _ => null
  | node type _ child sibling, dataType => node type dataType child sibling

/-- Nodes as siblings, with the last of them. -/
def linkNodes (nodes : List Node) (last : Node) : Node := nodes.foldr Node.setSibling last

/-! ### Variables -/

/-- An entry of `global_variable`; its type may be unknown, and then it counts as empty. -/
structure VarEntry where
  name : List UInt8
  type : Option FinshType

/-- `finsh_var_insert` -/
def finshVarInsert (name : List UInt8) (type : Option FinshType) (vars : List VarEntry) :
    Option (List VarEntry) :=
  if vars.any fun v => sameName v.name name then none
  else (vars.findIdx? fun v => v.type.isNone).map fun i => vars.set i ⟨name.take 16, type⟩

/-- `finsh_var_lookup` -/
def finshVarLookup (name : List UInt8) (vars : List VarEntry) : Option ℕ :=
  vars.findIdx? fun v => sameName v.name name

/-- The tables of the system. -/
structure Tables where
  sysvar : List UInt8 → Option UInt32
  syscall : List UInt8 → Option UInt32

/-- The entry that `finsh_node_new_id` finds. -/
def idEntry (tables : Tables) (name : List UInt8) (vars : List VarEntry) : Option Entry :=
  match finshVarLookup name vars with
  | some i => some (.var i)
  | none =>
    match tables.sysvar name with
    | some addr => some (.sysvar addr)
    | none => (tables.syscall name).map .syscall

/-! ### Procedures -/

/-- `struct finsh_parser`, with the number of nodes and the variables. -/
structure Parser where
  token : FinshToken
  nodes : ℕ
  vars : List VarEntry

/-- A procedure of the parser; there is no result if it does not end, or takes a null pointer for a
    node. -/
abbrev Proc := StateT Parser Option

/-- `next_token` -/
def nextToken (line : Line) : Proc (Option Token) := fun p =>
  (finshTokenToken line p.token).map fun r => (r.1, { p with token := r.2 })

/-- `finsh_token_replay` -/
def replayToken : Proc Unit := fun p => some ((), { p with token.replay := true })

/-- `finsh_error_set` -/
def errorSet (error : FinshError) : Proc Unit := fun p =>
  some ((), { p with token.errno := some error })

/-- `check_token` -/
def checkToken (ok : Bool) : Proc Unit :=
  if ok then pure ()
  else do
    errorSet .invalidToken
    replayToken

/-- `match_token` -/
def matchToken (line : Line) (ok : Option Token → Bool) : Proc Unit := do
  let token ← nextToken line
  checkToken (ok token)

/-- `finsh_node_allocate` -/
def finshNodeAllocate (type : NodeType) : Proc Node := fun p =>
  if p.nodes < nodeMax then some (.node type none .null .null, { p with nodes := p.nodes + 1 })
  else some (.null, p)

/-- A node with a value: `finsh_node_new_int`, and the like. -/
def finshNodeNew (type : NodeType) : Proc Node := do
  let node ← finshNodeAllocate type
  if node = .null then do
    errorSet .memoryFull
    pure .null
  else pure node

/-- `finsh_node_new_id` -/
def finshNodeNewId (tables : Tables) (name : List UInt8) : Proc Node := do
  let p ← get
  match idEntry tables name p.vars with
  | some entry => finshNodeNew (.id entry)
  | none => do
    errorSet .unknownSymbol
    pure .null

/-- `make_sys_node` -/
def makeSysNode (type : NodeType) (node₁ node₂ : Node) : Proc Node := do
  let node ← finshNodeAllocate type
  if node₁ ≠ .null ∧ node ≠ .null then pure (node.setChild (node₁.setSibling node₂))
  else do
    errorSet .nullNode
    pure node

/-! ### Types and names -/

/-- `__return`, in `proc_type` -/
def typeReturn : Proc (Option FinshType) := do
  replayToken
  errorSet .unknownType
  pure none

/-- The pointer to a type, where a `*` follows. -/
def typePointer (line : Line) (type : Option FinshType) : Proc (Option FinshType) := do
  let token ← nextToken line
  if token = some .mul then pure (some ((type.map FinshType.pointer).getD .voidp))
  else do
    replayToken
    pure type

/-- The type behind `unsigned`. -/
def typeUnsigned (line : Line) : Proc (Option FinshType) := do
  let token ← nextToken line
  if (token.map Token.isBaseType).getD false then
    match token.bind Token.unsignedType with
    | some type => typePointer line (some type)
    | none => typeReturn
  else do
    replayToken
    errorSet .expectType
    typePointer line none

/-- `proc_type`; `none` is `finsh_type_unknown`. -/
def procType (line : Line) : Proc (Option FinshType) := do
  let token ← nextToken line
  if token = some .unsigned then typeUnsigned line
  else
    match token.bind Token.baseType with
    | some type => typePointer line (some type)
    | none => typeReturn

/-- `token == finsh_token_type_identifier` -/
def isIdentifier : Option Token → Bool
  | some (.identifier _) => true
  | _ => false

/-- `proc_identifier`: the name is what `string` holds, whatever the token is. -/
def procIdentifier (line : Line) : Proc (List UInt8) := do
  matchToken line isIdentifier
  let p ← get
  pure ((cstring p.token.string).take 16)

/-! ### Expressions -/

/-- The loop over operators of one precedence: the operands are taken by `operand`. -/
def binaryLoop (line : Line) (ops : Token → Option Op) (operand : Proc Node) : ℕ → Node → Proc Node
  | 0, _ => failure
  | n + 1, left => do
    let token ← nextToken line
    match token.bind ops with
    | some op => do
      let right ← operand
      if right = .null then do
        errorSet .expectOperator
        binaryLoop line ops operand n left
      else do
        let left ← makeSysNode (.sys op) left right
        binaryLoop line ops operand n left
    | none => do
      replayToken
      pure left

def procBinary (line : Line) (ops : Token → Option Op) (operand : Proc Node) (n : ℕ) :
    Proc Node := do
  let left ← operand
  binaryLoop line ops operand n left

/-- `proc_multiplicative_expr` -/
def procMultiplicativeExpr (line : Line) (cast : Proc Node) (n : ℕ) : Proc Node :=
  procBinary line mulOps cast n

/-- `proc_additive_expr` -/
def procAdditiveExpr (line : Line) (cast : Proc Node) (n : ℕ) : Proc Node :=
  procBinary line addOps (procMultiplicativeExpr line cast n) n

/-- `proc_shift_expr` -/
def procShiftExpr (line : Line) (cast : Proc Node) (n : ℕ) : Proc Node :=
  procBinary line shiftOps (procAdditiveExpr line cast n) n

/-- `proc_and_expr` -/
def procAndExpr (line : Line) (cast : Proc Node) (n : ℕ) : Proc Node :=
  procBinary line andOps (procShiftExpr line cast n) n

/-- `proc_exclusive_or_expr` -/
def procExclusiveOrExpr (line : Line) (cast : Proc Node) (n : ℕ) : Proc Node :=
  procBinary line xorOps (procAndExpr line cast n) n

/-- `proc_inclusive_or_expr` -/
def procInclusiveOrExpr (line : Line) (cast : Proc Node) (n : ℕ) : Proc Node :=
  procBinary line orOps (procExclusiveOrExpr line cast n) n

/-- The loop of `proc_param_list`, with the parameters so far. -/
def paramLoop (line : Line) (assign : Proc Node) : ℕ → List Node → Proc (List Node)
  | 0, _ => failure
  | n + 1, params => do
    let token ← nextToken line
    if token = some .comma then do
      let param ← assign
      if param = .null then do
        errorSet .expectOperator
        paramLoop line assign n params
      else paramLoop line assign n (params ++ [param])
    else do
      replayToken
      pure params

/-- `proc_param_list` -/
def procParamList (line : Line) (assign : Proc Node) (n : ℕ) : Proc Node := do
  let param ← assign
  if param = .null then pure .null
  else do
    let params ← paramLoop line assign n [param]
    pure (linkNodes params .null)

/-- The value of a token that is one. -/
def Token.value : Token → Option NodeType
  | .valueInt i => some (.valueInt i)
  | .valueLong l => some (.valueLong l)
  | .valueChar c => some (.valueChar c)
  | .valueString s => some (.valueString s)
  | .valueNull => some .valueNull
  | _ => none

/-- `proc_primary_expr` -/
def procPrimaryExpr (line : Line) (tables : Tables) (assign : Proc Node) : Proc Node := do
  let token ← nextToken line
  if isIdentifier token then do
    replayToken
    let name ← procIdentifier line
    finshNodeNewId tables name
  else if token = some .leftParen then do
    let expr ← assign
    matchToken line (· = some .rightParen)
    pure expr
  else
    match token.bind Token.value with
    | some type => finshNodeNew type
    | none => do
      errorSet .invalidToken
      pure .null

/-- The parameters of a call, up to the parenthesis behind them. -/
def callParams (line : Line) (assign : Proc Node) (n : ℕ) : Proc Node := do
  let token ← nextToken line
  if token = some .rightParen then pure .null
  else do
    replayToken
    let params ← procParamList line assign n
    matchToken line (· = some .rightParen)
    pure params

/-- The loop of `proc_postfix_expr`. -/
def postfixLoop (line : Line) (assign : Proc Node) : ℕ → Node → Proc Node
  | 0, _ => failure
  | n + 1, left => do
    let token ← nextToken line
    match token with
    | some .inc => do
      let left ← makeSysNode .inc left .null
      postfixLoop line assign n left
    | some .dec => do
      let left ← makeSysNode .dec left .null
      postfixLoop line assign n left
    | some .leftParen => do
      let params ← callParams line assign n
      let left ← makeSysNode .func left params
      postfixLoop line assign n left
    | _ => do
      replayToken
      pure left

/-- `proc_postfix_expr` -/
def procPostfixExpr (line : Line) (tables : Tables) (assign : Proc Node) (n : ℕ) : Proc Node := do
  let left ← procPrimaryExpr line tables assign
  postfixLoop line assign n left

/-- The prefix operators that make a node of the operand alone. -/
def Token.prefixType : Token → Option NodeType
  | .inc => some .preinc
  | .dec => some .predec
  | .bitwise => some (.sys .bitwise)
  | .mul => some .getvalue
  | .and => some .getaddr
  | _ => none

/-- `proc_unary_expr` -/
def procUnaryExpr (line : Line) (tables : Tables) (cast assign : Proc Node) (n : ℕ) :
    Proc Node := do
  let token ← nextToken line
  if token = some .add then cast
  else if token = some .sub then do
    let operand ← cast
    let zero ← finshNodeNew (.valueLong 0)
    makeSysNode (.sys .sub) zero operand
  else
    match token.bind Token.prefixType with
    | some type => do
      let operand ← cast
      makeSysNode type operand .null
    | none => do
      replayToken
      procPostfixExpr line tables assign n

mutual

/-- `proc_assign_expr` -/
def procAssignExpr (line : Line) (tables : Tables) : ℕ → Proc Node
  | 0 => failure
  | n + 1 => do
    let left ← procInclusiveOrExpr line (procCastExpr line tables n) n
    let token ← nextToken line
    if token = some .assign then do
      let right ← procAssignExpr line tables n
      makeSysNode .assign left right
    else do
      replayToken
      pure left

/-- `proc_cast_expr`: the last token of a cast without an operand is put back. -/
def procCastExpr (line : Line) (tables : Tables) : ℕ → Proc Node
  | 0 => failure
  | n + 1 => do
    let unary := procUnaryExpr line tables (procCastExpr line tables n)
      (procAssignExpr line tables n) n
    let token ← nextToken line
    if token = some .leftParen then do
      let type ← procType line
      matchToken line (· = some .rightParen)
      let operand ← procCastExpr line tables n
      if operand = .null then do
        replayToken
        unary
      else pure (operand.setDataType type)
    else do
      replayToken
      unary

end

/-! ### Statements -/

/-- `proc_expr_statement` -/
def procExprStatement (line : Line) (tables : Tables) (n : ℕ) : Proc Node := do
  let token ← nextToken line
  if token = some .semicolon then pure .null
  else do
    replayToken
    let expr ← procAssignExpr line tables n
    matchToken line (· = some .semicolon)
    pure expr

/-- `proc_identifier`, and the variable is inserted. -/
def declare (line : Line) (type : Option FinshType) : Proc (List UInt8) := do
  let name ← procIdentifier line
  let p ← get
  match finshVarInsert name type p.vars with
  | some vars => do
    set { p with vars }
    pure name
  | none => do
    errorSet .variableExist
    pure name

/-- `node` and `end`, in `proc_variable_decl`: the assignments so far, the last of which is `end`,
    unless that is `NULL`. -/
structure Assigns where
  nodes : List Node
  broken : Bool

def Assigns.none : Assigns := ⟨[], false⟩

/-- An assignment becomes the sibling of `end`, and `end`. -/
def Assigns.link (assigns : Assigns) (assign : Node) : Option Assigns :=
  if assigns.nodes = [] then
    if assign = .null then some assigns else some { assigns with nodes := [assign] }
  else if assigns.broken then Option.none
  else if assign = .null then some { assigns with broken := true }
  else some { assigns with nodes := assigns.nodes ++ [assign] }

/-- Behind `=`: without a value, the `=` is still the token. -/
def declAssign (line : Line) (tables : Tables) (n : ℕ) (name : List UInt8) (assigns : Assigns) :
    Proc (Assigns × Option Token) := do
  let right ← procAssignExpr line tables n
  if right = .null then pure (assigns, some .assign)
  else do
    let left ← finshNodeNewId tables name
    let assign ← makeSysNode .assign left right
    let assigns ← StateT.lift (assigns.link assign)
    let token ← nextToken line
    pure (assigns, token)

/-- The loop of `proc_variable_decl`, and what is behind it. -/
def declLoop (line : Line) (tables : Tables) (type : Option FinshType) :
    ℕ → Assigns → Option Token → Proc Node
  | 0, _, _ => failure
  | n + 1, assigns, token =>
    if token = some .comma then do
      let name ← declare line type
      let token ← nextToken line
      if token = some .assign then do
        let (assigns, token) ← declAssign line tables n name assigns
        declLoop line tables type n assigns token
      else declLoop line tables type n assigns token
    else do
      checkToken (token = some .semicolon)
      pure (linkNodes assigns.nodes .null)

/-- `proc_variable_decl` -/
def procVariableDecl (line : Line) (tables : Tables) (n : ℕ) : Proc Node := do
  let type ← procType line
  let name ← declare line type
  let token ← nextToken line
  if token = some .comma then declLoop line tables type n .none token
  else if token = some .assign then do
    let (assigns, token) ← declAssign line tables n name .none
    declLoop line tables type n assigns token
  else if token = some .semicolon then pure .null
  else do
    errorSet .expectType
    pure .null

/-- Whether a token begins a declaration. -/
def isDecl (token : Option Token) : Bool := (token.map Token.isDecl).getD false

/-- A declaration, or a statement, whose first token is put back. -/
def procStatement (line : Line) (tables : Tables) (n : ℕ) (token : Option Token) : Proc Node := do
  replayToken
  if isDecl token then procVariableDecl line tables n
  else procExprStatement line tables n

/-- The loop of `finsh_parser_run` behind the first statement; `nodes` are the roots before `node`,
    in which the next sibling is set. -/
def statementLoop (line : Line) (tables : Tables) : ℕ → List Node → Node → Proc Node
  | 0, _, _ => failure
  | n + 1, nodes, node => do
    let token ← nextToken line
    if token = none ∨ token = some .bad then pure (linkNodes nodes node)
    else do
      let next ← procStatement line tables n token
      if next ≠ .null then statementLoop line tables n (nodes ++ [node]) next
      else if isIdentifier token ∨ isDecl token then
        statementLoop line tables n nodes (node.setSibling .null)
      else do
        let _ ← nextToken line
        statementLoop line tables n nodes (node.setSibling .null)

/-- `finsh_parser_run`, where the parser has been initialised: the root. If the first statement
    leaves no node, the rest of the line is not looked at. -/
def finshParserRun (line : Line) (tables : Tables) (n : ℕ) : Proc Node := do
  modify fun p => { p with token := finshTokenInit p.token.errno }
  let token ← nextToken line
  if token = none ∨ token = some .bad then pure .null
  else do
    let root ← procStatement line tables n token
    if root = .null then pure .null
    else statementLoop line tables n [] root

end EasyCore.Finsh.Lexer
