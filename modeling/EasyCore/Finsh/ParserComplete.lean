import EasyCore.Finsh.ParserSound

/-! What the grammar derives without parentheses around expressions is accepted, and the parser builds
    its tree. -/

namespace EasyCore.Finsh
variable {env : Env} {vars : Vars}

/-- The level at which a token goes on with the expression before it. -/
def Token.level : Token → ℕ
  | .inc | .dec | .leftParen => 0
  | .mul | .div | .mod => 1
  | .sub | .add => 2
  | .shl | .shr => 3
  | .and => 4
  | .xor => 5
  | .or => 6
  | .assign => 7
  | _ => 8

/-- No token follows that goes on with an expression of the level. -/
def Stops (level : ℕ) (rest : List Token) : Prop :=
  ∀ token, rest.head? = some token → level < token.level

theorem Stops.le {k j : ℕ} {rest : List Token} (h : Stops k rest) (hj : j ≤ k) : Stops j rest :=
  fun token htoken => Nat.lt_of_le_of_lt hj (h token htoken)

theorem stops_cons {k : ℕ} {token : Token} {rest : List Token} (h : k < token.level) :
    Stops k (token :: rest) := by
  rintro x hx
  cases hx
  exact h

theorem level_of_binaryOps {k : ℕ} {token : Token} {op : Op} (h : binaryOps k token = some op) :
    token.level = k := by
  unfold binaryOps at h
  split at h
  all_goals
    cases token <;> cases h
    all_goals rfl

theorem binaryOps_of_stops {k : ℕ} {rest : List Token} (h : Stops k rest) :
    rest.head?.bind (binaryOps k) = none := by
  cases hhead : rest.head? with
  | none => rfl
  | some token =>
    cases hop : binaryOps k token with
    | none => exact hop
    | some op =>
      have hlevel := h token hhead
      rw [level_of_binaryOps hop] at hlevel
      exact absurd hlevel (lt_irrefl _)

/-- A name or a literal. -/
def Token.isOperand : Token → Bool
  | .identifier _ | .valueInt _ | .valueLong _ | .valueChar _ | .valueString _ | .valueNull => true
  | _ => false

/-- What an expression may begin with. -/
def Token.isFirst : Token → Bool
  | .add | .sub | .inc | .dec | .bitwise | .mul | .and | .leftParen => true
  | token => token.isOperand

theorem isOperand_of_literal {n : ℕ} {token : Token} {kind : Kind}
    (h : literalKind env n token = some kind) : token.isOperand = true := by
  cases token <;> cases h <;> rfl

theorem isFirst_of_operand {token : Token} (h : token.isOperand = true) :
    token.isFirst = true := by
  cases token <;> first | rfl | cases h

theorem Derives.first {parens : Prop} {nt : NonTerm} {n : ℕ} {ts : List Token} {t : Tree}
    (h : Derives (procedures parens) env vars nt n ts t) (hts : ts ≠ []) :
    ∃ token us, ts = token :: us ∧ token.isFirst = true := by
  have happend : ∀ {ts us : List Token}, (∃ token us, ts = token :: us ∧ token.isFirst = true) →
      ∃ token vs, ts ++ us = token :: vs ∧ token.isFirst = true := by
    rintro ts us ⟨token, vs, rfl, hfirst⟩
    exact ⟨token, vs ++ us, rfl, hfirst⟩
  induction h with
  | ofOr _ ih | ofOperand _ ih | ofUnary _ ih | ofPostfix _ ih | ofPrimary _ ih | param _ ih =>
    exact ih hts
  | assign hleft _ ih => exact happend (ih (hleft.ne_nil (by simp [procedures])))
  | operator _ hleft _ ih => exact happend (ih (hleft.ne_nil (by simp)))
  | behind _ hleft ih => exact happend (ih (hleft.ne_nil (by simp)))
  | call hfunc _ ih => exact happend (ih (hfunc.ne_nil (by simp)))
  | cast | parens | plus | minus => exact ⟨_, _, rfl, rfl⟩
  | @before _ _ _ token _ hkind =>
    refine ⟨_, _, rfl, ?_⟩
    cases token <;> first | rfl | cases hkind
  | literal hkind => exact ⟨_, _, rfl, isFirst_of_operand (isOperand_of_literal hkind)⟩
  | identifier => exact ⟨_, _, rfl, rfl⟩
  | noParams => exact absurd rfl hts
  | moreParams hfirst _ _ ih => exact happend (ih fun hnil => hfirst hnil)

/-- Without parentheses, calls and their likes begin with a name or a literal. -/
theorem Derives.operand {nt : NonTerm} {n : ℕ} {ts : List Token} {t : Tree}
    (h : Derives (procedures False) env vars nt n ts t)
    (hnt : nt = .exprPostfix ∨ nt = .exprPrimary) :
    ∃ token us, ts = token :: us ∧ token.isOperand = true := by
  have happend : ∀ {ts us : List Token}, (∃ token us, ts = token :: us ∧ token.isOperand = true) →
      ∃ token vs, ts ++ us = token :: vs ∧ token.isOperand = true := by
    rintro ts us ⟨token, vs, rfl, hfirst⟩
    exact ⟨token, vs ++ us, rfl, hfirst⟩
  induction h with
  | ofPrimary _ ih => exact ih (.inr rfl)
  | behind _ _ ih => exact happend (ih (.inl rfl))
  | call _ _ ih => exact happend (ih (.inl rfl))
  | literal hkind => exact ⟨_, _, rfl, isOperand_of_literal hkind⟩
  | identifier => exact ⟨_, _, rfl, rfl⟩
  | parens hparens => exact hparens.elim
  | _ => simp at hnt

/-- Without parentheses, an expression that is no cast does not begin with one. -/
theorem Derives.unary_head {n : ℕ} {ts : List Token} {t : Tree}
    (h : Derives (procedures False) env vars .exprUnary n ts t) :
    ∃ token us, ts = token :: us ∧ token ≠ .leftParen := by
  cases h with
  | ofPostfix h =>
    obtain ⟨token, us, rfl, hoperand⟩ := h.operand (.inl rfl)
    refine ⟨token, us, rfl, ?_⟩
    rintro rfl
    cases hoperand
  | plus | minus => exact ⟨_, _, rfl, by simp⟩
  | before hkind =>
    refine ⟨_, _, rfl, ?_⟩
    rintro rfl
    cases hkind

/-! ### Steps of the parser -/

@[simp] theorem head_mk (ts : List Token) (n : ℕ) (vars : Vars) :
    Parser.head ⟨ts, n, vars⟩ = ts.head? := rfl

@[simp] theorem skip_cons (token : Token) (ts : List Token) (n : ℕ) (vars : Vars) :
    Parser.skip ⟨token :: ts, n, vars⟩ = ⟨ts, n, vars⟩ := rfl

theorem newNode_some {n : ℕ} (h : n < nodeMax) (kind : Kind) (ts : List Token) (vars : Vars) :
    newNode kind ⟨ts, n, vars⟩ = some (leaf kind, ⟨ts, n + 1, vars⟩) := if_pos h

theorem makeSysNode_some {n : ℕ} {a : Tree} (ha : a.siblings = 1) (h : n < nodeMax) (kind : Kind)
    (b : Tree) (ts : List Token) (vars : Vars) :
    makeSysNode kind a b ⟨ts, n, vars⟩ = some (sysNode kind a b, ⟨ts, n + 1, vars⟩) :=
  if_pos ⟨h, ne_nil_of_siblings ha⟩

theorem matchToken_some (token : Token) (ts : List Token) (n : ℕ) (vars : Vars) :
    matchToken token ⟨token :: ts, n, vars⟩ = some ((), ⟨ts, n, vars⟩) := if_pos rfl

theorem procType_some {ts : List Token} {type : FinshType} (h : CodeType ts type) {rest : List Token}
    (hrest : rest.head? ≠ some .mul) (n : ℕ) (vars : Vars) :
    procType ⟨ts ++ rest, n, vars⟩ = some (type, ⟨rest, n, vars⟩) := by
  have hbasic : ∀ {ts : List Token} {type : FinshType}, BasicType ts type → ∀ rest : List Token,
      procType ⟨ts ++ rest, n, vars⟩ = some (if rest.head? = some .mul then
        (type.pointer, ⟨rest.tail, n, vars⟩) else (type, ⟨rest, n, vars⟩)) := by
    intro ts type h rest
    cases h with
    | @basic token type h =>
      have hunsigned : token ≠ .unsigned := by
        rintro rfl
        cases h
      simp only [procType, head_mk, List.cons_append, List.nil_append, List.head?_cons]
      split
      · next hhead => exact absurd (Option.some.inj hhead) hunsigned
      · simp [h, Parser.skip]
        rfl
    | @unsigned token type h =>
      simp [procType, h, Parser.skip]
      rfl
  cases h with
  | basic h => rw [hbasic h, if_neg hrest]
  | pointer h =>
    rw [List.append_assoc, hbasic h]
    rfl

/-- The levels of the operators over casts. -/
def levelExpr (cast : Proc Tree) (n : ℕ) : ℕ → Proc Tree
  | 0 => cast
  | k + 1 => procBinary (binaryOps (k + 1)) (levelExpr cast n k) n

/-- What the procedures do with a derivation: loops over operators have gone through it. -/
def Complete (env : Env) (vars : Vars) : NonTerm → ℕ → List Token → Tree → Prop
  | .exprAssign, n, ts, t => ∀ f rest, ts.length + 2 ≤ f → Stops 7 rest →
    procAssignExpr env f ⟨ts ++ rest, n, vars⟩ = some (t, ⟨rest, n + t.size, vars⟩)
  | .exprBinary 0, n, ts, t => ∀ f rest, ts.length + 1 ≤ f → Stops 0 rest →
    procCastExpr env f ⟨ts ++ rest, n, vars⟩ = some (t, ⟨rest, n + t.size, vars⟩)
  | .exprBinary (k + 1), n, ts, t => ∀ f m rest, ts.length + 1 ≤ f → ts.length ≤ m →
    Stops k rest → ∃ l, m + 1 ≤ l + ts.length ∧
      levelExpr (procCastExpr env f) m (k + 1) ⟨ts ++ rest, n, vars⟩ =
        binaryLoop (binaryOps (k + 1)) (levelExpr (procCastExpr env f) m k) l t
          ⟨rest, n + t.size, vars⟩
  | .exprUnary, n, ts, t => ∀ f rest, ts.length ≤ f → Stops 0 rest →
    procUnaryExpr env (procCastExpr env f) (procAssignExpr env f) f ⟨ts ++ rest, n, vars⟩ =
      some (t, ⟨rest, n + t.size, vars⟩)
  | .exprPostfix, n, ts, t => ∀ f rest, ts.length ≤ f → ∃ l, f + 1 ≤ l + ts.length ∧
    procPostfixExpr env (procAssignExpr env f) f ⟨ts ++ rest, n, vars⟩ =
      postfixLoop (procAssignExpr env f) l t ⟨rest, n + t.size, vars⟩
  | .exprPrimary, n, ts, t => ∀ f rest,
    procPrimaryExpr env (procAssignExpr env f) ⟨ts ++ rest, n, vars⟩ =
      some (t, ⟨rest, n + t.size, vars⟩)
  | .paramList, n, ts, t => ts ≠ [] → ∀ f m rest, ts.length + 2 ≤ f → ts.length ≤ m →
    Stops 7 rest → ∃ params l, m + 1 ≤ l + ts.length ∧ (∀ x ∈ params, x.siblings = 1) ∧
      link params .nil = t ∧ procParamList (procAssignExpr env f) m ⟨ts ++ rest, n, vars⟩ =
        (paramLoop (procAssignExpr env f) l params ⟨rest, n + t.size, vars⟩).map
          fun (params, p) => (link params .nil, p)

/-- A loop over operators ends where none follows. -/
theorem level_complete {k n : ℕ} {ts : List Token} {t : Tree}
    (h : Complete env vars (.exprBinary k) n ts t) (f m : ℕ) (rest : List Token)
    (hf : ts.length + 1 ≤ f) (hm : ts.length ≤ m) (hrest : Stops k rest) :
    levelExpr (procCastExpr env f) m k ⟨ts ++ rest, n, vars⟩ =
      some (t, ⟨rest, n + t.size, vars⟩) := by
  cases k with
  | zero => exact h f rest hf hrest
  | succ k =>
    obtain ⟨l, hl, heq⟩ := h f m rest hf hm (hrest.le (Nat.le_succ k))
    cases l with
    | zero => omega
    | succ l =>
      rw [heq, binaryLoop]
      simp only [head_mk, binaryOps_of_stops hrest]

theorem postfixLoop_stops {assign : Proc Tree} {rest : List Token} (h : Stops 0 rest) (l n : ℕ)
    (t : Tree) (vars : Vars) :
    postfixLoop assign (l + 1) t ⟨rest, n, vars⟩ = some (t, ⟨rest, n, vars⟩) := by
  cases rest with
  | nil => rfl
  | cons token rest =>
    have hlevel := h token rfl
    cases token <;> first | rfl | exact absurd hlevel (lt_irrefl _)

theorem procUnaryExpr_operand {cast assign : Proc Tree} {token : Token}
    (h : token.isOperand = true) (f n : ℕ) (rest : List Token) (vars : Vars) :
    procUnaryExpr env cast assign f ⟨token :: rest, n, vars⟩ =
      procPostfixExpr env assign f ⟨token :: rest, n, vars⟩ := by
  cases token <;> first | rfl | cases h

theorem procPrimaryExpr_literal {assign : Proc Tree} {token : Token} {kind : Kind} {n : ℕ}
    (h : literalKind env n token = some kind) (hn : n < nodeMax) (rest : List Token) (vars : Vars) :
    procPrimaryExpr env assign ⟨token :: rest, n, vars⟩ =
      some (leaf kind, ⟨rest, n + 1, vars⟩) := by
  cases token <;> cases h <;> exact newNode_some hn ..

/-- The parameters of a call. -/
theorem callParams_complete {n f m : ℕ} {us : List Token} {params : Tree}
    (h : Derives (procedures False) env vars .paramList n us params)
    (hcomplete : Complete env vars .paramList n us params) (hf : us.length + 2 ≤ f)
    (hm : us.length ≤ m) (rest : List Token) :
    callParams (procAssignExpr env f) m ⟨us ++ .rightParen :: rest, n, vars⟩ =
      some (params, ⟨rest, n + params.size, vars⟩) := by
  by_cases hus : us = []
  · rw [h.params_nil hus, hus]
    rfl
  · obtain ⟨token, vs, hts, hfirst⟩ := h.first hus
    have hhead : Parser.head ⟨us ++ .rightParen :: rest, n, vars⟩ ≠ some .rightParen := by
      rw [hts]
      rintro h
      cases h
      cases hfirst
    obtain ⟨trees, l, hl, -, hlink, heq⟩ :=
      hcomplete hus f m (.rightParen :: rest) hf hm (stops_cons (by decide))
    cases l with
    | zero => omega
    | succ l =>
      have hloop : paramLoop (procAssignExpr env f) (l + 1) trees
          ⟨.rightParen :: rest, n + params.size, vars⟩ =
          some (trees, ⟨.rightParen :: rest, n + params.size, vars⟩) := rfl
      rw [callParams, if_neg hhead, heq, hloop]
      simp only [Option.map_some, hlink, Option.bind_eq_bind, Option.bind_some, matchToken_some]

/-- What is derived without parentheses around expressions is read, and its tree is built. -/
theorem Derives.complete {nt : NonTerm} {n : ℕ} {ts : List Token} {t : Tree}
    (h : Derives (procedures False) env vars nt n ts t) :
    n + t.size ≤ nodeMax → Complete env vars nt n ts t := by
  induction h with
  | @ofOr n ts t _ ih =>
    intro hn f rest hf hrest
    cases f with
    | zero => omega
    | succ f =>
      have hlevel := level_complete (ih hn) f f rest (by omega) (by omega) (hrest.le (by decide))
      have hhead : Parser.head ⟨rest, n + t.size, vars⟩ ≠ some .assign :=
        fun h => absurd (hrest .assign h) (by decide)
      change procInclusiveOrExpr (procCastExpr env f) f _ = _ at hlevel
      rw [procAssignExpr]
      simp only [hlevel, Option.bind_eq_bind, Option.bind_some, if_neg hhead]
  | @assign n ts us left right hleft _ ihleft ihright =>
    intro hn f rest hf hrest
    have hone := hleft.siblings (by simp [procedures])
    have hsize := sysNode_size hone .assign right
    simp only [List.length_append, List.length_cons] at hf
    cases f with
    | zero => omega
    | succ f =>
      have hlevel := level_complete (ihleft (by omega)) f f (.assign :: (us ++ rest)) (by omega)
        (by omega) (stops_cons (by decide))
      have hright := ihright (by omega) f rest (by omega) hrest
      change procInclusiveOrExpr (procCastExpr env f) f _ = _ at hlevel
      rw [procAssignExpr, List.append_assoc, List.cons_append]
      simp only [hlevel, Option.bind_eq_bind, Option.bind_some, head_mk, List.head?_cons, if_true,
        skip_cons, hright]
      rw [makeSysNode_some hone (by omega), hsize, ← Nat.add_assoc, ← Nat.add_assoc]
  | @ofOperand k n ts t h ih =>
    intro hn f m rest hf hm hrest
    have hlevel := level_complete (ih hn) f m rest hf hm hrest
    have hpos := List.length_pos_of_ne_nil (h.ne_nil (by simp))
    refine ⟨m, by omega, ?_⟩
    rw [levelExpr, procBinary, hlevel]
    rfl
  | @operator k n ts us left right token op hop hleft _ ihleft ihright =>
    intro hn f m rest hf hm hrest
    have hone := hleft.siblings (by simp)
    have hsize := sysNode_size hone (.sys op) right
    simp only [List.length_append, List.length_cons] at hf hm ⊢
    have htoken : k < token.level := by
      rw [level_of_binaryOps hop]
      exact Nat.lt_succ_self k
    obtain ⟨l, hl, heq⟩ := ihleft (by omega) f m (token :: (us ++ rest)) (by omega) (by omega)
      (stops_cons htoken)
    have hright := level_complete (ihright (by omega)) f m rest (by omega) (by omega) hrest
    cases l with
    | zero => omega
    | succ l =>
      refine ⟨l, by omega, ?_⟩
      rw [List.append_assoc, List.cons_append, heq, binaryLoop]
      simp only [head_mk, List.head?_cons, Option.bind_some, hop, skip_cons, hright,
        Option.bind_eq_bind]
      rw [makeSysNode_some hone (by omega), hsize, ← Nat.add_assoc, ← Nat.add_assoc]
      rfl
  | @ofUnary n ts t h ih =>
    intro hn f rest hf hrest
    obtain ⟨token, us, hts, htoken⟩ := h.unary_head
    cases f with
    | zero => omega
    | succ f =>
      have hhead : Parser.head ⟨ts ++ rest, n, vars⟩ ≠ some .leftParen := by
        rw [hts]
        rintro h
        exact htoken (Option.some.inj h)
      rw [procCastExpr, if_neg hhead]
      exact ih hn f rest (by omega) hrest
  | @cast n ts us t type htype h ih =>
    intro hn f rest hf hrest
    have hsize := (setDataType_spec t type.code).2.2
    simp only [List.length_append, List.length_cons] at hf
    cases f with
    | zero => omega
    | succ f =>
      have hcast := ih (by omega) f rest (by omega) hrest
      have hparen : (Token.rightParen :: (us ++ rest)).head? ≠ some .mul := by simp
      have hhead : Parser.head ⟨.leftParen :: (ts ++ .rightParen :: (us ++ rest)), n, vars⟩ =
        some .leftParen := rfl
      rw [procCastExpr, List.cons_append, List.append_assoc, List.cons_append, if_pos hhead,
        skip_cons]
      simp only [procType_some htype hparen, matchToken_some, hcast, hsize, Option.bind_eq_bind,
        Option.bind_some]
  | @ofPostfix n ts t h ih =>
    intro hn f rest hf hrest
    obtain ⟨token, us, hts, htoken⟩ := h.operand (.inl rfl)
    obtain ⟨l, hl, heq⟩ := ih hn f rest hf
    cases l with
    | zero => omega
    | succ l =>
      rw [postfixLoop_stops hrest] at heq
      rw [← heq, hts]
      exact procUnaryExpr_operand htoken f n (us ++ rest) vars
  | plus _ ih =>
    intro hn f rest hf hrest
    exact ih hn f rest hf hrest
  | @minus n ts t h ih =>
    intro hn f rest hf hrest
    have hone := h.siblings (by simp)
    have hsize : (sysNode (.sys .sub) (leaf (.valueLong 0)) t).size = t.size + 2 := by
      rw [sysNode_size rfl]
      simp only [leaf, Tree.size]
      omega
    have hcast := ih (by omega) f rest hf hrest
    rw [hsize] at hn ⊢
    rw [procUnaryExpr, List.cons_append]
    simp only [head_mk, List.head?_cons, skip_cons, hcast, Option.bind_eq_bind, Option.bind_some]
    rw [newNode_some (by omega)]
    simp only [Option.bind_some]
    rw [makeSysNode_some rfl (by omega)]
    rfl
  | @before n ts t token kind hkind h ih =>
    intro hn f rest hf hrest
    have hone := h.siblings (by simp)
    have hsize : (sysNode kind t .nil).size = t.size + 1 := sysNode_size hone kind .nil
    have hcast := ih (by omega) f rest hf hrest
    have hprefix : prefixNode (procCastExpr env f) kind ⟨ts ++ rest, n, vars⟩ =
        some (sysNode kind t .nil, ⟨rest, n + (sysNode kind t .nil).size, vars⟩) := by
      rw [hsize] at hn ⊢
      simp only [prefixNode, hcast, Option.bind_eq_bind, Option.bind_some]
      exact makeSysNode_some hone (by omega) ..
    rw [← hprefix]
    cases token <;> cases hkind <;> rfl
  | @ofPrimary n ts t h ih =>
    intro hn f rest hf
    have hpos := List.length_pos_of_ne_nil (h.ne_nil (by simp))
    refine ⟨f, by omega, ?_⟩
    rw [procPostfixExpr, ih hn f rest]
    rfl
  | @behind n ts t token kind hkind h ih =>
    intro hn f rest hf
    have hone := h.siblings (by simp)
    have hsize : (sysNode kind t .nil).size = t.size + 1 := sysNode_size hone kind .nil
    simp only [List.length_append, List.length_singleton] at hf ⊢
    obtain ⟨l, hl, heq⟩ := ih (by omega) f (token :: rest) (by omega)
    cases l with
    | zero => omega
    | succ l =>
      refine ⟨l, by omega, ?_⟩
      rw [List.append_assoc, List.singleton_append, heq]
      have hnode := makeSysNode_some (n := n + t.size) hone (by omega) kind .nil rest vars
      rw [hsize]
      cases token <;> cases hkind
      all_goals
        rw [postfixLoop]
        simp only [head_mk, List.head?_cons, skip_cons, hnode, Option.bind_eq_bind,
          Option.bind_some]
        rfl
  | @call n ts us func params hfunc hparams ihfunc ihparams =>
    intro hn f rest hf
    have hone := hfunc.siblings (by simp)
    have hsize := sysNode_size hone .func params
    simp only [List.length_append, List.length_cons] at hf ⊢
    obtain ⟨l, hl, heq⟩ := ihfunc (by omega) f (.leftParen :: (us ++ .rightParen :: rest)) (by omega)
    cases l with
    | zero => omega
    | succ l =>
      refine ⟨l, by omega, ?_⟩
      have hcall := callParams_complete hparams (ihparams (by omega)) (f := f) (m := l) (by omega)
        (by omega) rest
      have happend : ts ++ .leftParen :: (us ++ [.rightParen]) ++ rest =
          ts ++ .leftParen :: (us ++ .rightParen :: rest) := by simp
      rw [happend, heq, postfixLoop]
      simp only [head_mk, List.head?_cons, skip_cons, hcall, Option.bind_eq_bind, Option.bind_some]
      rw [makeSysNode_some hone (by omega), hsize, ← Nat.add_assoc, ← Nat.add_assoc]
      rfl
  | literal hkind =>
    intro hn f rest
    exact procPrimaryExpr_literal hkind (Nat.lt_of_lt_of_le (Nat.lt_succ_self _) hn) rest vars
  | @identifier n name sym hsym =>
    intro hn f rest
    have hnew := newNode_some (Nat.lt_of_lt_of_le (Nat.lt_succ_self _) hn) (.id sym) rest vars
    have hid : newId env name ⟨rest, n, vars⟩ = newNode (.id sym) ⟨rest, n, vars⟩ := by
      rw [newId, hsym]
      rfl
    exact hid.trans hnew
  | parens hparens => exact hparens.elim
  | noParams =>
    intro _ hne
    exact absurd rfl hne
  | @param n ts t h ih =>
    intro hn hne f m rest hf hm hrest
    have hone := h.siblings (by simp)
    have hpos := List.length_pos_of_ne_nil hne
    refine ⟨[t], m, by omega, by simpa using hone, link_one hone, ?_⟩
    have hassign := ih hn f rest hf hrest
    rw [procParamList, hassign]
    exact Option.map_eq_bind.symm
  | @moreParams n ts us params t hfirst hparams h ihparams ih =>
    intro hn hne f m rest hf hm hrest
    have hone := h.siblings (by simp)
    have hsize := append_size params t
    simp only [List.length_append, List.length_cons] at hf hm ⊢
    obtain ⟨trees, l, hl, htrees, hlink, heq⟩ := ihparams (by omega) (fun hnil => hfirst hnil) f m
      (.comma :: (us ++ rest)) (by omega) (by omega) (stops_cons (by decide))
    have hassign := ih (by omega) f rest (by omega) hrest
    cases l with
    | zero => omega
    | succ l =>
      refine ⟨trees ++ [t], l, by omega, ?_, ?_, ?_⟩
      · intro x hx
        obtain hx | hx := List.mem_append.1 hx
        · exact htrees x hx
        · exact List.mem_singleton.1 hx ▸ hone
      · rw [link_snoc htrees hone, hlink]
      · rw [List.append_assoc, List.cons_append, heq, paramLoop]
        simp only [head_mk, List.head?_cons, if_true, skip_cons, hassign, Option.bind_eq_bind,
          Option.bind_some, hsize, Nat.add_assoc]

/-! ### Statements -/

/-- The declarators of `proc_variable_decl`. -/
def procDeclarators (env : Env) (type : FinshType) (n : ℕ) : Proc (List Tree) := fun p => do
  let (name, p) ← declare type p
  if p.head = some .assign then do
    let (assign, p) ← initialise env n name p.skip
    declLoop env type n [assign] p
  else declLoop env type n [] p

theorem procVariableDecl_eq (n : ℕ) (p : Parser) : procVariableDecl env n p =
    (procType p).bind fun (type, p) =>
      (procDeclarators env type n p).map fun (assigns, p) => (link assigns .nil, p) := by
  rw [procVariableDecl]
  cases procType p with
  | none => rfl
  | some typed =>
    obtain ⟨type, p₁⟩ := typed
    simp only [Option.bind_eq_bind, Option.bind_some, procDeclarators]
    cases declare type p₁ with
    | none => rfl
    | some named =>
      obtain ⟨name, p₂⟩ := named
      simp only [Option.bind_some]
      split
      · cases initialise env n name p₂.skip with
        | none => rfl
        | some assigned => exact Option.map_eq_bind.symm
      · exact Option.map_eq_bind.symm

theorem declare_some {type : FinshType} {name : List UInt8} {vars vars' : Vars}
    (h : varInsert name type vars = some vars') (ts : List Token) (n : ℕ) :
    declare type ⟨.identifier name :: ts, n, vars⟩ = some (name, ⟨ts, n, vars'⟩) := by
  rw [declare, procIdentifier]
  simp only [head_mk, List.head?_cons, skip_cons, Option.bind_eq_bind, Option.bind_some, h]

/-- The assignment of a declarator. -/
theorem initialise_some {name : List UInt8} {sym : Sym} {n f : ℕ} {ts : List Token} {right : Tree}
    (hright : Derives (procedures False) env vars .exprAssign n ts right)
    (hsym : symbol env name vars = some sym)
    (hn : n + (sysNode .assign (leaf (.id sym)) right).size ≤ nodeMax) (hf : ts.length + 2 ≤ f)
    {rest : List Token} (hrest : Stops 7 rest) :
    initialise env f name ⟨ts ++ rest, n, vars⟩ = some (sysNode .assign (leaf (.id sym)) right,
      ⟨rest, n + (sysNode .assign (leaf (.id sym)) right).size, vars⟩) := by
  have hsize : (sysNode .assign (leaf (.id sym)) right).size = right.size + 2 := by
    rw [sysNode_size rfl]
    simp only [leaf, Tree.size]
    omega
  rw [hsize] at hn ⊢
  have hassign := hright.complete (by omega) f rest hf hrest
  have hid : newId env name ⟨rest, n + right.size, vars⟩ =
      newNode (.id sym) ⟨rest, n + right.size, vars⟩ := by
    rw [newId, hsym]
    rfl
  rw [initialise, hassign]
  simp only [Option.bind_eq_bind, Option.bind_some, hid]
  rw [newNode_some (by omega)]
  simp only [Option.bind_some]
  rw [makeSysNode_some rfl (by omega)]
  rfl

/-- Neither a value nor an expression goes on: a comma, a semicolon. -/
theorem head_ne_assign {rest : List Token} (h : Stops 7 rest) (n : ℕ) (vars : Vars) :
    Parser.head ⟨rest, n, vars⟩ ≠ some .assign :=
  fun hassign => absurd (h .assign hassign) (by decide)

theorem DeclaratorList.complete {type : FinshType} {vars vars' : Vars} {n : ℕ} {ts : List Token}
    {roots : List Tree} (h : DeclaratorList (procedures False) env type vars n ts vars' roots)
    (hn : n + sizes roots ≤ nodeMax) (f : ℕ) (rest : List Token) (hf : ts.length + 2 ≤ f)
    (hrest : Stops 7 rest) : ∃ l, f + 1 ≤ l + ts.length ∧
      procDeclarators env type f ⟨ts ++ rest, n, vars⟩ =
        declLoop env type l roots ⟨rest, n + sizes roots, vars'⟩ := by
  induction h generalizing rest with
  | @one vars' n ts roots h =>
    cases h with
    | @plain _ _ name hinsert =>
      refine ⟨f, le_refl _, ?_⟩
      rw [procDeclarators, List.singleton_append, declare_some hinsert]
      simp only [Option.bind_eq_bind, Option.bind_some, if_neg (head_ne_assign hrest n vars')]
      rfl
    | @init _ _ ts right name sym hinsert hright hsym =>
      simp only [List.length_cons] at hf ⊢
      rw [sizes_one] at hn ⊢
      refine ⟨f, by omega, ?_⟩
      rw [procDeclarators, List.cons_append, declare_some hinsert]
      simp only [Option.bind_eq_bind, Option.bind_some, List.cons_append, head_mk, List.head?_cons,
        if_true, skip_cons, initialise_some hright hsym hn (f := f) (by omega) hrest]
  | @more vars₁ vars₂ n ts us roots more hlist h ih =>
    rw [sizes_append] at hn
    simp only [List.length_append, List.length_cons] at hf ⊢
    obtain ⟨l, hl, heq⟩ := ih (by omega) (.comma :: (us ++ rest)) (by omega)
      (stops_cons (by decide))
    cases l with
    | zero => omega
    | succ l =>
      refine ⟨l, by omega, ?_⟩
      rw [List.append_assoc, List.cons_append, heq, declLoop]
      simp only [head_mk, List.head?_cons, if_true, skip_cons, sizes_append]
      cases h with
      | @plain _ _ name hinsert =>
        rw [List.singleton_append, declare_some hinsert]
        simp only [Option.bind_eq_bind, Option.bind_some,
          if_neg (head_ne_assign hrest (n + sizes roots) vars₂), List.append_nil]
        rfl
      | @init _ _ ts right name sym hinsert hright hsym =>
        simp only [List.length_cons] at hf hl
        rw [sizes_one] at hn
        rw [List.cons_append, declare_some hinsert]
        simp only [Option.bind_eq_bind, Option.bind_some, List.cons_append, head_mk,
          List.head?_cons, if_true, skip_cons,
          initialise_some hright hsym (n := n + sizes roots) (by omega) (f := l) (by omega) hrest,
          sizes_one, Nat.add_assoc]

theorem DeclaratorList.head {g : Dialect} {type : FinshType} {vars vars' : Vars} {n : ℕ}
    {ts : List Token} {roots : List Tree} (h : DeclaratorList g env type vars n ts vars' roots) :
    ∃ name us, ts = .identifier name :: us := by
  induction h with
  | one h =>
    cases h with
    | plain => exact ⟨_, _, rfl⟩
    | init => exact ⟨_, _, rfl⟩
  | more _ _ ih =>
    obtain ⟨name, us, rfl⟩ := ih
    exact ⟨name, _, rfl⟩

theorem CodeType.isDecl {ts : List Token} {type : FinshType} (h : CodeType ts type) :
    ∃ token us, ts = token :: us ∧ token.isDecl = true := by
  have hbasic : ∀ {ts : List Token} {type : FinshType}, BasicType ts type →
      ∃ token us, ts = token :: us ∧ token.isDecl = true := by
    intro ts type h
    cases h with
    | @basic token type h =>
      refine ⟨token, [], rfl, ?_⟩
      cases token <;> first | rfl | cases h
    | unsigned h => exact ⟨_, _, rfl, rfl⟩
  cases h with
  | basic h => exact hbasic h
  | pointer h =>
    obtain ⟨token, us, rfl, hdecl⟩ := hbasic h
    exact ⟨token, us ++ [.mul], rfl, hdecl⟩

theorem Statement.complete {vars vars' : Vars} {n : ℕ} {ts : List Token} {roots : List Tree}
    (h : Statement (procedures False) env vars n ts vars' roots) (hn : n + sizes roots ≤ nodeMax)
    (f : ℕ) (rest : List Token) (hf : ts.length + 2 ≤ f) :
    procStatement env f ⟨ts ++ rest, n, vars⟩ =
      some (link roots .nil, ⟨rest, n + sizes roots, vars'⟩) := by
  cases h with
  | empty => rfl
  | @expr _ ts t h =>
    obtain ⟨token, us, hts, hfirst⟩ := h.first (h.ne_nil (by simp))
    rw [sizes_one] at hn ⊢
    rw [List.length_append] at hf
    have hdecl : ¬((Parser.head ⟨ts ++ [.semicolon] ++ rest, n, vars⟩).map
        Token.isDecl).getD false = true := by
      rw [hts]
      cases token <;> first | exact Bool.false_ne_true | cases hfirst
    have hsemi : Parser.head ⟨ts ++ [.semicolon] ++ rest, n, vars⟩ ≠ some .semicolon := by
      rw [hts]
      rintro h
      cases h
      cases hfirst
    have hassign := h.complete hn f (.semicolon :: rest) (by omega) (stops_cons (by decide))
    rw [procStatement, if_neg hdecl, procExprStatement, if_neg hsemi, List.append_assoc,
      List.singleton_append, hassign]
    simp only [Option.bind_eq_bind, Option.bind_some, matchToken_some]
    rw [link_one (h.siblings (by simp))]
  | @decl _ _ ts us roots type htype hlist =>
    obtain ⟨token, vs, hts, hdecl⟩ := CodeType.isDecl htype
    simp only [List.length_append, List.length_singleton] at hf
    have hhead : ((Parser.head ⟨ts ++ (us ++ [.semicolon]) ++ rest, n, vars⟩).map
        Token.isDecl).getD false = true := by
      rw [hts]
      exact hdecl
    have hname : (us ++ (.semicolon :: rest)).head? ≠ some .mul := by
      obtain ⟨name, vs, rfl⟩ := hlist.head
      simp
    obtain ⟨l, hl, heq⟩ := hlist.complete hn f (.semicolon :: rest) (by omega)
      (stops_cons (by decide))
    cases l with
    | zero => omega
    | succ l =>
      rw [procStatement, if_pos hhead, procVariableDecl_eq]
      have happend : ts ++ (us ++ [.semicolon]) ++ rest = ts ++ (us ++ .semicolon :: rest) := by
        simp
      rw [happend, procType_some htype hname]
      simp only [Option.bind_some, heq, declLoop, head_mk, List.head?_cons]
      rfl

end EasyCore.Finsh
