import EasyCore.Finsh.Shape

/-! The grammar of a line, as the comments of `finsh_parser.c` write it and as its procedures read it:
    what a sequence of tokens derives is the tree that stands for it. Operators of one precedence
    associate to the left, and an operand binds tighter. The number that goes with a derivation is
    the number of nodes before it, by which the heap gives the addresses of strings. -/

namespace EasyCore.Finsh

/-- A node without children. -/
def leaf (kind : Kind) : Tree := .node kind 0 false .nil .nil

/-- A node over a child and what stands behind it. -/
def sysNode (kind : Kind) (node₁ node₂ : Tree) : Tree :=
  .node kind 0 false (node₁.setSibling node₂) .nil

/-- A tree behind the last of its siblings. -/
def Tree.append : Tree → Tree → Tree
  | nil, last => last
  | node kind dataType address child sibling, last =>
    node kind dataType address child (sibling.append last)

/-- What expressions are built of; the expressions with binary operators by their precedence. -/
inductive NonTerm
  | exprAssign
  | exprBinary (level : ℕ)
  | exprUnary
  | exprPostfix
  | exprPrimary
  | paramList

abbrev exprCast : NonTerm := .exprBinary 0

abbrev exprInclusiveOr : NonTerm := .exprBinary 6

/-- The operators of a level: `expr_multiplicative` is the first, `expr_inclusive_or` the last. -/
def binaryOps : ℕ → Token → Option Op
  | 1 => mulOps
  | 2 => addOps
  | 3 => shiftOps
  | 4 => andOps
  | 5 => xorOps
  | 6 => orOps
  | _ => fun _ => none

/-- The operators before a cast that make a node over it. -/
def prefixKind : Token → Option Kind
  | .inc => some .preinc
  | .dec => some .predec
  | .bitwise => some (.sys .bitwise)
  | .mul => some .getvalue
  | .and => some .getaddr
  | _ => none

def postfixKind : Token → Option Kind
  | .inc => some .inc
  | .dec => some .dec
  | _ => none

/-- The node of a literal. -/
def literalKind (env : Env) (nodes : ℕ) : Token → Option Kind
  | .valueInt i => some (.valueInt i)
  | .valueLong l => some (.valueLong l)
  | .valueChar c => some (.valueChar c)
  | .valueString _ => some (.valueString (env.heap nodes))
  | .valueNull => some .valueNull
  | _ => none

/-- Where the comments and the procedures part: the types, the left side of an assignment, the
    expressions in parentheses, and the lists of parameters whose first one is empty. -/
structure Dialect where
  type : List Token → FinshType → Prop
  assigned : NonTerm
  parens : Prop
  noFirst : Prop

/-- `Derives nt n ts t`: the tokens `ts` are an `nt`, and `t` is its tree, behind `n` nodes. -/
inductive Derives (g : Dialect) (env : Env) (vars : Vars) :
    NonTerm → ℕ → List Token → Tree → Prop
  | ofOr {n ts t} (h : Derives g env vars exprInclusiveOr n ts t) :
      Derives g env vars .exprAssign n ts t
  | assign {n ts us left right} (hleft : Derives g env vars g.assigned n ts left)
      (hright : Derives g env vars .exprAssign (n + left.size) us right) :
      Derives g env vars .exprAssign n (ts ++ .assign :: us) (sysNode .assign left right)
  | ofOperand {k n ts t} (h : Derives g env vars (.exprBinary k) n ts t) :
      Derives g env vars (.exprBinary (k + 1)) n ts t
  | operator {k n ts us left right} {token : Token} {op : Op}
      (hop : binaryOps (k + 1) token = some op)
      (hleft : Derives g env vars (.exprBinary (k + 1)) n ts left)
      (hright : Derives g env vars (.exprBinary k) (n + left.size) us right) :
      Derives g env vars (.exprBinary (k + 1)) n (ts ++ token :: us)
        (sysNode (.sys op) left right)
  | ofUnary {n ts t} (h : Derives g env vars .exprUnary n ts t) :
      Derives g env vars exprCast n ts t
  | cast {n ts us t type} (htype : g.type ts type) (h : Derives g env vars exprCast n us t) :
      Derives g env vars exprCast n (.leftParen :: (ts ++ .rightParen :: us))
        (t.setDataType type.code)
  | ofPostfix {n ts t} (h : Derives g env vars .exprPostfix n ts t) :
      Derives g env vars .exprUnary n ts t
  | plus {n ts t} (h : Derives g env vars exprCast n ts t) :
      Derives g env vars .exprUnary n (.add :: ts) t
  | minus {n ts t} (h : Derives g env vars exprCast n ts t) :
      Derives g env vars .exprUnary n (.sub :: ts) (sysNode (.sys .sub) (leaf (.valueLong 0)) t)
  | before {n ts t} {token : Token} {kind : Kind} (hkind : prefixKind token = some kind)
      (h : Derives g env vars exprCast n ts t) :
      Derives g env vars .exprUnary n (token :: ts) (sysNode kind t .nil)
  | ofPrimary {n ts t} (h : Derives g env vars .exprPrimary n ts t) :
      Derives g env vars .exprPostfix n ts t
  | behind {n ts t} {token : Token} {kind : Kind} (hkind : postfixKind token = some kind)
      (h : Derives g env vars .exprPostfix n ts t) :
      Derives g env vars .exprPostfix n (ts ++ [token]) (sysNode kind t .nil)
  | call {n ts us func params} (hfunc : Derives g env vars .exprPostfix n ts func)
      (hparams : Derives g env vars .paramList (n + func.size) us params) :
      Derives g env vars .exprPostfix n (ts ++ .leftParen :: (us ++ [.rightParen]))
        (sysNode .func func params)
  | literal {n} {token : Token} {kind : Kind} (hkind : literalKind env n token = some kind) :
      Derives g env vars .exprPrimary n [token] (leaf kind)
  | identifier {n} {name : List UInt8} {sym : Sym} (hsym : symbol env name vars = some sym) :
      Derives g env vars .exprPrimary n [.identifier name] (leaf (.id sym))
  | parens {n ts t} (hparens : g.parens) (h : Derives g env vars .exprAssign n ts t) :
      Derives g env vars .exprPrimary n (.leftParen :: (ts ++ [.rightParen])) t
  | noParams {n} : Derives g env vars .paramList n [] .nil
  | param {n ts t} (h : Derives g env vars .exprAssign n ts t) :
      Derives g env vars .paramList n ts t
  | moreParams {n ts us params t} (hfirst : ts = [] → g.noFirst)
      (hparams : Derives g env vars .paramList n ts params)
      (h : Derives g env vars .exprAssign (n + params.size) us t) :
      Derives g env vars .paramList n (ts ++ .comma :: us) (params.append t)

/-! ### Statements -/

/-- The nodes of some roots. -/
def sizes (roots : List Tree) : ℕ := (roots.map Tree.size).sum

/-- A declarator: the variables behind it, and its assignment. -/
inductive Declarator (g : Dialect) (env : Env) (type : FinshType) :
    Vars → ℕ → List Token → Vars → List Tree → Prop
  | plain {vars vars' n} {name : List UInt8} (hinsert : varInsert name type vars = some vars') :
      Declarator g env type vars n [.identifier name] vars' []
  | init {vars vars' n ts right} {name : List UInt8} {sym : Sym}
      (hinsert : varInsert name type vars = some vars')
      (hright : Derives g env vars' .exprAssign n ts right)
      (hsym : symbol env name vars' = some sym) :
      Declarator g env type vars n (.identifier name :: .assign :: ts) vars'
        [sysNode .assign (leaf (.id sym)) right]

inductive DeclaratorList (g : Dialect) (env : Env) (type : FinshType) :
    Vars → ℕ → List Token → Vars → List Tree → Prop
  | one {vars vars' n ts roots} (h : Declarator g env type vars n ts vars' roots) :
      DeclaratorList g env type vars n ts vars' roots
  | more {vars vars₁ vars₂ n ts us roots more}
      (hlist : DeclaratorList g env type vars n ts vars₁ roots)
      (h : Declarator g env type vars₁ (n + sizes roots) us vars₂ more) :
      DeclaratorList g env type vars n (ts ++ .comma :: us) vars₂ (roots ++ more)

/-- A statement, or a declaration: the variables behind it, and its roots. -/
inductive Statement (g : Dialect) (env : Env) : Vars → ℕ → List Token → Vars → List Tree → Prop
  | empty {vars n} : Statement g env vars n [.semicolon] vars []
  | expr {vars n ts t} (h : Derives g env vars .exprAssign n ts t) :
      Statement g env vars n (ts ++ [.semicolon]) vars [t]
  | decl {vars vars' n ts us roots type} (htype : g.type ts type)
      (hlist : DeclaratorList g env type vars n us vars' roots) :
      Statement g env vars n (ts ++ (us ++ [.semicolon])) vars' roots

/-- `start`: one statement, with at most 16 nodes. -/
def Sentence (g : Dialect) (env : Env) (vars : Vars) (tokens : List Token) (t : Tree) : Prop :=
  ∃ vars' roots, Statement g env vars 0 tokens vars' roots ∧ t = link roots .nil ∧
    t.size ≤ nodeMax

/-! ### The comments -/

/-- The types of the comments; no token is a `STRING`. -/
inductive CommentType : List Token → FinshType → Prop
  | basic {token : Token} {type : FinshType} (h : token.baseType = some type)
      (hlong : token ≠ .long) : CommentType [token] type
  | unsigned {token : Token} {type : FinshType} (h : token.unsignedType = some type)
      (hlong : token ≠ .long) : CommentType [.unsigned, token] type
  | unsignedVoid : CommentType [.unsigned, .void] .void

/-- The grammar of the comments. -/
def comments : Dialect where
  type := CommentType
  assigned := .exprUnary
  parens := True
  noFirst := True

/-! ### The procedures -/

inductive BasicType : List Token → FinshType → Prop
  | basic {token : Token} {type : FinshType} (h : token.baseType = some type) :
      BasicType [token] type
  | unsigned {token : Token} {type : FinshType} (h : token.unsignedType = some type) :
      BasicType [.unsigned, token] type

/-- The types of `proc_type`. -/
inductive CodeType : List Token → FinshType → Prop
  | basic {ts type} (h : BasicType ts type) : CodeType ts type
  | pointer {ts} {type : FinshType} (h : BasicType ts type) : CodeType (ts ++ [.mul]) type.pointer

/-- The grammar that the procedures read, with parentheses around expressions, or without. -/
def procedures (parens : Prop) : Dialect where
  type := CodeType
  assigned := exprInclusiveOr
  parens := parens
  noFirst := False

/-- The line is at its end, or at a token that is none. -/
def AtEnd (tokens : List Token) : Prop := tokens = [] ∨ tokens.head? = some .bad

/-- The statements behind the first one. -/
inductive Statements (g : Dialect) (env : Env) : Vars → ℕ → List Token → List Tree → Prop
  | done {vars n tokens} (h : AtEnd tokens) : Statements g env vars n tokens []
  | more {vars vars' n ts us roots more} (h : Statement g env vars n ts vars' roots)
      (hmore : Statements g env vars' (n + sizes roots) us more) :
      Statements g env vars n (ts ++ us) (roots ++ more)

/-- A line; where its first statement leaves no root, the rest of it is not read. -/
inductive Line (g : Dialect) (env : Env) (vars : Vars) : List Token → List Tree → Prop
  | blank {tokens} (h : AtEnd tokens) : Line g env vars tokens []
  | unread {vars' ts rest} (h : Statement g env vars 0 ts vars' []) :
      Line g env vars (ts ++ rest) []
  | read {vars' ts us roots more} (h : Statement g env vars 0 ts vars' roots) (hne : roots ≠ [])
      (hmore : Statements g env vars' (sizes roots) us more) :
      Line g env vars (ts ++ us) (roots ++ more)

/-- Behind the first statement, an empty one stands before other tokens, or a declaration with
    several assignments before another statement. -/
inductive Loses (g : Dialect) (env : Env) : Vars → ℕ → List Token → Prop
  | empty {vars n us} (hus : us ≠ []) : Loses g env vars n (.semicolon :: us)
  | several {vars vars' n ts us roots} (h : Statement g env vars n ts vars' roots)
      (hroots : 2 ≤ roots.length) (hus : ¬AtEnd us) : Loses g env vars n (ts ++ us)
  | later {vars vars' n ts us roots} (h : Statement g env vars n ts vars' roots)
      (hlater : Loses g env vars' (n + sizes roots) us) : Loses g env vars n (ts ++ us)

/-- The line loses a token or a root: a declaration with several assignments stands before another
    statement, or an empty statement that is not the first before other tokens. -/
def Lossy (g : Dialect) (env : Env) (vars : Vars) (tokens : List Token) : Prop :=
  ∃ ts us vars' roots, tokens = ts ++ us ∧ Statement g env vars 0 ts vars' roots ∧ roots ≠ [] ∧
    ((2 ≤ roots.length ∧ ¬AtEnd us) ∨ Loses g env vars' (sizes roots) us)

/-! ### Trees of derivations -/

theorem setSibling_nil {t : Tree} (h : t.siblings = 1) : t.setSibling .nil = t := by
  cases t with
  | nil => rfl
  | node kind dataType address child sibling =>
    cases sibling with
    | nil => rfl
    | node => simp only [Tree.siblings] at h; omega

theorem setSibling_size_one {t : Tree} (h : t.siblings = 1) (s : Tree) :
    (t.setSibling s).size = t.size + s.size := by
  cases t with
  | nil => cases h
  | node kind dataType address child sibling =>
    cases sibling with
    | nil => simp only [Tree.setSibling, Tree.size]; omega
    | node => simp only [Tree.siblings] at h; omega

theorem sysNode_size {node₁ : Tree} (h : node₁.siblings = 1) (kind : Kind) (node₂ : Tree) :
    (sysNode kind node₁ node₂).size = node₁.size + node₂.size + 1 := by
  simp only [sysNode, Tree.size, setSibling_size_one h]
  omega

theorem append_size (t last : Tree) : (t.append last).size = t.size + last.size := by
  induction t with
  | nil => simp [Tree.append, Tree.size]
  | node kind dataType address child sibling _ ih =>
    simp only [Tree.append, Tree.size, ih]
    omega

theorem link_append (trees more : List Tree) (last : Tree) :
    link (trees ++ more) last = link trees (link more last) := List.foldr_append

theorem link_one {t : Tree} (h : t.siblings = 1) : link [t] .nil = t := setSibling_nil h

/-- One more tree behind linked ones. -/
theorem link_snoc {trees : List Tree} {t : Tree} (h : ∀ x ∈ trees, x.siblings = 1)
    (ht : t.siblings = 1) : link (trees ++ [t]) .nil = (link trees .nil).append t := by
  induction trees with
  | nil => exact link_one ht
  | cons x trees ih =>
    have hx := h x (List.mem_cons_self ..)
    have hlink : link (x :: trees ++ [t]) .nil = x.setSibling (link (trees ++ [t]) .nil) := rfl
    rw [hlink, ih fun y hy => h y (List.mem_cons_of_mem _ hy)]
    cases x with
    | nil => cases hx
    | node => rfl

theorem sizes_append (trees more : List Tree) : sizes (trees ++ more) = sizes trees + sizes more := by
  simp [sizes]

theorem sizes_one (t : Tree) : sizes [t] = t.size := by
  simp [sizes]

section
variable {g : Dialect} {env : Env} {vars vars' : Vars} {type : FinshType}

/-- Every expression is one tree. -/
theorem Derives.siblings {nt : NonTerm} {n : ℕ} {ts : List Token} {t : Tree}
    (h : Derives g env vars nt n ts t) (hnt : nt ≠ .paramList) : t.siblings = 1 := by
  induction h with
  | ofOr _ ih | ofOperand _ ih | ofUnary _ ih | ofPostfix _ ih | plus _ ih | ofPrimary _ ih
  | parens _ _ ih => exact ih (by simp)
  | cast _ _ ih => exact (setDataType_spec _ _).2.1.trans (ih (by simp))
  | noParams | param | moreParams => exact absurd rfl hnt
  | _ => rfl

theorem Derives.ne_nil {nt : NonTerm} {n : ℕ} {ts : List Token} {t : Tree}
    (h : Derives g env vars nt n ts t) (hnt : nt ≠ .paramList) : ts ≠ [] := by
  induction h with
  | ofOr _ ih | ofOperand _ ih | ofUnary _ ih | ofPostfix _ ih | ofPrimary _ ih =>
    exact ih (by simp)
  | noParams | param | moreParams => exact absurd rfl hnt
  | _ => simp

theorem Derives.params_nil {n : ℕ} {ts : List Token} {t : Tree}
    (h : Derives g env vars .paramList n ts t) (hts : ts = []) : t = .nil := by
  cases h with
  | noParams => rfl
  | param h => exact absurd hts (h.ne_nil (by simp))
  | moreParams => simp at hts

theorem Declarator.siblings {n : ℕ} {ts : List Token} {roots : List Tree}
    (h : Declarator g env type vars n ts vars' roots) : ∀ t ∈ roots, t.siblings = 1 := by
  cases h with
  | plain => simp
  | init => simp [sysNode, Tree.siblings]

theorem DeclaratorList.siblings {n : ℕ} {ts : List Token} {roots : List Tree}
    (h : DeclaratorList g env type vars n ts vars' roots) : ∀ t ∈ roots, t.siblings = 1 := by
  induction h with
  | one h => exact h.siblings
  | more _ h ih =>
    intro t ht
    exact (List.mem_append.1 ht).elim (ih t) (h.siblings t)

theorem Statement.siblings {n : ℕ} {ts : List Token} {roots : List Tree}
    (h : Statement g env vars n ts vars' roots) : ∀ t ∈ roots, t.siblings = 1 := by
  cases h with
  | empty => simp
  | expr h => simpa using h.siblings (by simp)
  | decl _ hlist => exact hlist.siblings

end

end EasyCore.Finsh
