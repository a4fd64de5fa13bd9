import EasyCore.Finsh.Grammar

/-! What the parser accepts is derived by the grammar that its procedures read. -/

namespace EasyCore.Finsh
variable {env : Env}

/-- A tree has been read: of the tokens that are gone, which are an `nt`. -/
structure Reads (env : Env) (nt : NonTerm) (p : Parser) (t : Tree) (p' : Parser) : Prop where
  derives : ∃ ts, p.tokens = ts ++ p'.tokens ∧
    Derives (procedures True) env p.vars nt p.nodes ts t
  nodes : p'.nodes = p.nodes + t.size
  vars : p'.vars = p.vars

/-- A procedure that reads an `nt`. -/
def Parses (env : Env) (nt : NonTerm) (proc : Proc Tree) : Prop :=
  ∀ ⦃p p' : Parser⦄ ⦃t : Tree⦄, proc p = some (t, p') → Reads env nt p t p'

theorem tokens_of_head {p : Parser} {token : Token} (h : p.head = some token) :
    p.tokens = token :: p.skip.tokens := by
  obtain ⟨tokens, nodes, vars⟩ := p
  cases tokens with
  | nil => cases h
  | cons x tokens =>
    cases h
    rfl

theorem newNode_eq {kind : Kind} {p p' : Parser} {t : Tree} (h : newNode kind p = some (t, p')) :
    t = leaf kind ∧ p' = { p with nodes := p.nodes + 1 } := by
  rw [newNode] at h
  split at h
  · cases h
    exact ⟨rfl, rfl⟩
  · cases h

theorem makeSysNode_eq {kind : Kind} {a b t : Tree} {p p' : Parser}
    (h : makeSysNode kind a b p = some (t, p')) :
    t = sysNode kind a b ∧ p' = { p with nodes := p.nodes + 1 } := by
  rw [makeSysNode] at h
  split at h
  · cases h
    exact ⟨rfl, rfl⟩
  · cases h

theorem matchToken_eq {token : Token} {p p' : Parser} {u : Unit}
    (h : matchToken token p = some (u, p')) : p.tokens = token :: p'.tokens ∧ p' = p.skip := by
  rw [matchToken] at h
  split at h
  · next hhead =>
    cases h
    exact ⟨tokens_of_head hhead, rfl⟩
  · cases h

theorem procType_eq {p p' : Parser} {type : FinshType} (h : procType p = some (type, p')) :
    ∃ ts, p.tokens = ts ++ p'.tokens ∧ CodeType ts type ∧ p'.nodes = p.nodes ∧
      p'.vars = p.vars := by
  simp only [procType, Option.map_eq_some_iff] at h
  obtain ⟨⟨basic, p₁⟩, hbasic, h⟩ := h
  have hp₁ : ∃ ts, p.tokens = ts ++ p₁.tokens ∧ BasicType ts basic ∧ p₁.nodes = p.nodes ∧
      p₁.vars = p.vars := by
    split at hbasic
    · next hhead =>
      obtain ⟨type, htype, h⟩ := Option.map_eq_some_iff.1 hbasic
      cases h
      obtain ⟨token, htoken, htype⟩ := Option.bind_eq_some_iff.1 htype
      refine ⟨[.unsigned, token], ?_, .unsigned htype, rfl, rfl⟩
      rw [tokens_of_head hhead, tokens_of_head htoken]
      rfl
    · obtain ⟨type, htype, h⟩ := Option.map_eq_some_iff.1 hbasic
      cases h
      obtain ⟨token, htoken, htype⟩ := Option.bind_eq_some_iff.1 htype
      exact ⟨[token], tokens_of_head htoken, .basic htype, rfl, rfl⟩
  obtain ⟨ts, htokens, htype, hnodes, hvars⟩ := hp₁
  dsimp only at h
  split at h
  · next hhead =>
    cases h
    refine ⟨ts ++ [.mul], ?_, .pointer htype, hnodes, hvars⟩
    rw [htokens, tokens_of_head hhead, List.append_assoc]
    rfl
  · cases h
    exact ⟨ts, htokens, .basic htype, hnodes, hvars⟩

/-! ### Expressions -/

theorem Reads.one {nt : NonTerm} {p p' : Parser} {t : Tree} (h : Reads env nt p t p')
    (hnt : nt ≠ .paramList) : t.siblings = 1 := by
  obtain ⟨_, _, hderives⟩ := h.derives
  exact hderives.siblings hnt

/-- What is derived of the same tokens is read as well. -/
theorem Reads.imp {nt nt' : NonTerm} {p p' : Parser} {t : Tree} (h : Reads env nt p t p')
    (himp : ∀ {ts}, Derives (procedures True) env p.vars nt p.nodes ts t →
      Derives (procedures True) env p.vars nt' p.nodes ts t) : Reads env nt' p t p' := by
  obtain ⟨ts, htokens, hderives⟩ := h.derives
  exact ⟨⟨ts, htokens, himp hderives⟩, h.nodes, h.vars⟩

/-- A node is made over two trees, with a token between them. -/
theorem Reads.infixed {nt₁ nt₂ nt : NonTerm} {kind : Kind} {token : Token} {p p₁ p₂ p' : Parser}
    {a b t : Tree} (ha : Reads env nt₁ p a p₁) (hone : nt₁ ≠ .paramList)
    (hhead : p₁.head = some token) (hb : Reads env nt₂ p₁.skip b p₂)
    (hnode : makeSysNode kind a b p₂ = some (t, p'))
    (hrule : ∀ {ts us}, Derives (procedures True) env p.vars nt₁ p.nodes ts a →
      Derives (procedures True) env p.vars nt₂ (p.nodes + a.size) us b →
      Derives (procedures True) env p.vars nt p.nodes (ts ++ token :: us) (sysNode kind a b)) :
    Reads env nt p t p' := by
  obtain ⟨ts, hts, hleft⟩ := ha.derives
  obtain ⟨us, hus, hright⟩ := hb.derives
  obtain ⟨rfl, rfl⟩ := makeSysNode_eq hnode
  have hsize := sysNode_size (ha.one hone) kind b
  have hnodes₁ := ha.nodes
  have hnodes₂ := hb.nodes
  rw [skip_nodes, hnodes₁] at hright hnodes₂
  have hvars : p₁.skip.vars = p.vars := ha.vars
  rw [hvars] at hright
  refine ⟨⟨ts ++ token :: us, ?_, hrule hleft hright⟩, ?_, hb.vars.trans hvars⟩
  · rw [hts, tokens_of_head hhead, hus, List.append_assoc, List.cons_append]
  · simp only
    omega

theorem binaryLoop_reads {k : ℕ} {operand : Proc Tree} (hoperand : Parses env (.exprBinary k) operand)
    {p : Parser} : ∀ (n : ℕ) {left t : Tree} {p₁ p' : Parser},
    Reads env (.exprBinary (k + 1)) p left p₁ →
    binaryLoop (binaryOps (k + 1)) operand n left p₁ = some (t, p') →
    Reads env (.exprBinary (k + 1)) p t p' := by
  intro n
  induction n with
  | zero =>
    intro left t p₁ p' _ h
    cases h
  | succ n ih =>
    intro left t p₁ p' hleft h
    rw [binaryLoop] at h
    split at h
    · next op hop =>
      obtain ⟨token, hhead, hop⟩ := Option.bind_eq_some_iff.1 hop
      obtain ⟨⟨right, p₂⟩, hright, h⟩ := Option.bind_eq_some_iff.1 h
      obtain ⟨⟨node, p₃⟩, hnode, h⟩ := Option.bind_eq_some_iff.1 h
      exact ih (hleft.infixed (by simp) hhead (hoperand hright) hnode (.operator hop)) h
    · cases h
      exact hleft

theorem procBinary_parses {k : ℕ} {operand : Proc Tree} (hoperand : Parses env (.exprBinary k) operand)
    (n : ℕ) : Parses env (.exprBinary (k + 1)) (procBinary (binaryOps (k + 1)) operand n) := by
  intro p p' t h
  obtain ⟨⟨left, p₁⟩, hleft, h⟩ := Option.bind_eq_some_iff.1 h
  exact binaryLoop_reads hoperand n ((hoperand hleft).imp .ofOperand) h

theorem procInclusiveOrExpr_parses {cast : Proc Tree} (hcast : Parses env exprCast cast) (n : ℕ) :
    Parses env exprInclusiveOr (procInclusiveOrExpr cast n) := by
  have hmul := procBinary_parses (k := 0) hcast n
  have hadd := procBinary_parses (k := 1) hmul n
  have hshift := procBinary_parses (k := 2) hadd n
  have hand := procBinary_parses (k := 3) hshift n
  have hxor := procBinary_parses (k := 4) hand n
  exact procBinary_parses (k := 5) hxor n

/-- Parameters have been read, which are to be linked. -/
theorem paramLoop_reads {assign : Proc Tree} (hassign : Parses env .exprAssign assign) {p : Parser} :
    ∀ (n : ℕ) {params trees : List Tree} {p₁ p' : Parser}, params ≠ [] →
    (∀ t ∈ params, t.siblings = 1) → Reads env .paramList p (link params .nil) p₁ →
    paramLoop assign n params p₁ = some (trees, p') →
    Reads env .paramList p (link trees .nil) p' := by
  intro n
  induction n with
  | zero =>
    intro params trees p₁ p' _ _ _ h
    cases h
  | succ n ih =>
    intro params trees p₁ p' hne hone hparams h
    rw [paramLoop] at h
    split at h
    · next hhead =>
      obtain ⟨⟨param, p₂⟩, hparam, h⟩ := Option.bind_eq_some_iff.1 h
      have hread := hassign hparam
      have hparam := hread.one (by simp)
      have hlink := link_snoc hone hparam
      refine ih (by simp) ?_ ?_ h
      · intro t ht
        obtain ht | ht := List.mem_append.1 ht
        · exact hone t ht
        · exact List.mem_singleton.1 ht ▸ hparam
      · obtain ⟨ts, hts, hleft⟩ := hparams.derives
        obtain ⟨us, hus, hright⟩ := hread.derives
        have hvars : p₁.skip.vars = p.vars := hparams.vars
        have hnodes₁ := hparams.nodes
        have hnodes₂ := hread.nodes
        rw [skip_nodes, hnodes₁] at hright hnodes₂
        rw [hvars] at hright
        have hnil : ts = [] → False := by
          intro hnil
          have hparams : link params .nil = .nil := hleft.params_nil hnil
          cases params with
          | nil => exact hne rfl
          | cons x params =>
            have hx := hone x (List.mem_cons_self ..)
            cases x with
            | nil => cases hx
            | node => cases hparams
        rw [hlink]
        refine ⟨⟨ts ++ .comma :: us, ?_, .moreParams hnil hleft hright⟩, ?_,
          hread.vars.trans hvars⟩
        · rw [hts, tokens_of_head hhead, hus, List.append_assoc, List.cons_append]
        · rw [append_size]
          omega
    · cases h
      exact hparams

theorem procParamList_reads {assign : Proc Tree} (hassign : Parses env .exprAssign assign) {n : ℕ}
    {p p' : Parser} {params : Tree} (h : procParamList assign n p = some (params, p')) :
    Reads env .paramList p params p' := by
  obtain ⟨⟨param, p₁⟩, hparam, h⟩ := Option.bind_eq_some_iff.1 h
  obtain ⟨⟨trees, p₂⟩, htrees, h⟩ := Option.bind_eq_some_iff.1 h
  cases h
  have hread := hassign hparam
  have hone := hread.one (by simp)
  refine paramLoop_reads hassign n (by simp) (by simpa using hone) ?_ htrees
  rw [link_one hone]
  exact hread.imp .param

/-- The parameters of a call, with the parenthesis behind them. -/
theorem callParams_reads {assign : Proc Tree} (hassign : Parses env .exprAssign assign) {n : ℕ}
    {p p' : Parser} {params : Tree} (h : callParams assign n p = some (params, p')) :
    ∃ us, p.tokens = us ++ .rightParen :: p'.tokens ∧
      Derives (procedures True) env p.vars .paramList p.nodes us params ∧
      p'.nodes = p.nodes + params.size ∧ p'.vars = p.vars := by
  rw [callParams] at h
  split at h
  · next hhead =>
    cases h
    exact ⟨[], tokens_of_head hhead, .noParams, rfl, rfl⟩
  · obtain ⟨⟨list, p₁⟩, hlist, h⟩ := Option.bind_eq_some_iff.1 h
    obtain ⟨⟨u, p₂⟩, hmatch, h⟩ := Option.bind_eq_some_iff.1 h
    cases h
    have hread := procParamList_reads hassign hlist
    obtain ⟨us, hus, hderives⟩ := hread.derives
    obtain ⟨htokens, rfl⟩ := matchToken_eq hmatch
    exact ⟨us, hus.trans (by rw [htokens]), hderives, hread.nodes, hread.vars⟩

theorem procPrimaryExpr_parses {assign : Proc Tree} (hassign : Parses env .exprAssign assign) :
    Parses env .exprPrimary (procPrimaryExpr env assign) := by
  intro p p' t h
  have hliteral : ∀ {token : Token} {kind : Kind}, p.head = some token →
      literalKind env p.nodes token = some kind → newNode kind p.skip = some (t, p') →
      Reads env .exprPrimary p t p' := by
    intro token kind hhead hkind hnew
    obtain ⟨rfl, rfl⟩ := newNode_eq hnew
    exact ⟨⟨[token], tokens_of_head hhead, .literal hkind⟩, rfl, rfl⟩
  unfold procPrimaryExpr at h
  generalize hhead : p.head = head at h hliteral
  cases head with
  | none => cases h
  | some token =>
    cases token with
    | identifier name =>
      obtain ⟨sym, hsym, hnew⟩ := Option.bind_eq_some_iff.1 h
      obtain ⟨rfl, rfl⟩ := newNode_eq hnew
      exact ⟨⟨[.identifier name], tokens_of_head hhead, .identifier hsym⟩, rfl, rfl⟩
    | leftParen =>
      obtain ⟨⟨expr, p₁⟩, hexpr, h⟩ := Option.bind_eq_some_iff.1 h
      obtain ⟨⟨u, p₂⟩, hmatch, h⟩ := Option.bind_eq_some_iff.1 h
      cases h
      have hread := hassign hexpr
      obtain ⟨ts, hts, hderives⟩ := hread.derives
      obtain ⟨htokens, rfl⟩ := matchToken_eq hmatch
      have hderives := Derives.parens (g := procedures True) trivial hderives
      refine ⟨⟨_, ?_, hderives⟩, hread.nodes, hread.vars⟩
      rw [tokens_of_head hhead, hts, htokens]
      simp
    | valueInt i => exact hliteral rfl rfl h
    | valueLong l => exact hliteral rfl rfl h
    | valueChar c => exact hliteral rfl rfl h
    | valueString s => exact hliteral rfl rfl h
    | valueNull => exact hliteral rfl rfl h
    | _ => cases h

theorem postfixLoop_reads {assign : Proc Tree} (hassign : Parses env .exprAssign assign)
    {p : Parser} : ∀ (n : ℕ) {left t : Tree} {p₁ p' : Parser}, Reads env .exprPostfix p left p₁ →
    postfixLoop assign n left p₁ = some (t, p') → Reads env .exprPostfix p t p' := by
  intro n
  induction n with
  | zero =>
    intro left t p₁ p' _ h
    cases h
  | succ n ih =>
    intro left t p₁ p' hleft h
    have hone := hleft.one (by simp)
    obtain ⟨ts, hts, hderives⟩ := hleft.derives
    have hbehind : ∀ {token : Token} {kind : Kind} {node : Tree} {p₂ : Parser},
        p₁.head = some token → postfixKind token = some kind →
        makeSysNode kind left .nil p₁.skip = some (node, p₂) →
        Reads env .exprPostfix p node p₂ := by
      intro token kind node p₂ hhead hkind hnode
      obtain ⟨rfl, rfl⟩ := makeSysNode_eq hnode
      refine ⟨⟨ts ++ [token], ?_, .behind hkind hderives⟩, ?_, hleft.vars⟩
      · rw [hts, tokens_of_head hhead, List.append_assoc]
        rfl
      · have hnodes := hleft.nodes
        rw [sysNode_size hone]
        simp only [skip_nodes, hnodes, Tree.size]
        rfl
    rw [postfixLoop] at h
    split at h
    · next hhead =>
      obtain ⟨⟨node, p₂⟩, hnode, h⟩ := Option.bind_eq_some_iff.1 h
      exact ih (hbehind hhead rfl hnode) h
    · next hhead =>
      obtain ⟨⟨node, p₂⟩, hnode, h⟩ := Option.bind_eq_some_iff.1 h
      exact ih (hbehind hhead rfl hnode) h
    · next hhead =>
      obtain ⟨⟨params, p₂⟩, hparams, h⟩ := Option.bind_eq_some_iff.1 h
      obtain ⟨⟨node, p₃⟩, hnode, h⟩ := Option.bind_eq_some_iff.1 h
      obtain ⟨us, hus, hright, hnodes, hvars⟩ := callParams_reads hassign hparams
      obtain ⟨rfl, rfl⟩ := makeSysNode_eq hnode
      have hvars₁ : p₁.skip.vars = p.vars := hleft.vars
      have hnodes₁ := hleft.nodes
      rw [skip_nodes, hnodes₁] at hright hnodes
      rw [hvars₁] at hright
      refine ih ?_ h
      refine ⟨⟨ts ++ .leftParen :: (us ++ [.rightParen]), ?_, .call hderives hright⟩, ?_,
        hvars.trans hvars₁⟩
      · rw [hts, tokens_of_head hhead, hus]
        simp
      · rw [sysNode_size hone]
        simp only
        omega
    · cases h
      exact hleft

theorem procUnaryExpr_parses {cast assign : Proc Tree} (hcast : Parses env exprCast cast)
    (hassign : Parses env .exprAssign assign) (n : ℕ) :
    Parses env .exprUnary (procUnaryExpr env cast assign n) := by
  intro p p' t h
  have hbefore : ∀ {token : Token} {kind : Kind}, p.head = some token →
      prefixKind token = some kind → prefixNode cast kind p.skip = some (t, p') →
      Reads env .exprUnary p t p' := by
    intro token kind hhead hkind h
    obtain ⟨⟨operand, p₁⟩, hoperand, hnode⟩ := Option.bind_eq_some_iff.1 h
    have hread := hcast hoperand
    obtain ⟨ts, hts, hderives⟩ := hread.derives
    obtain ⟨rfl, rfl⟩ := makeSysNode_eq hnode
    refine ⟨⟨token :: ts, ?_, .before hkind hderives⟩, ?_, hread.vars⟩
    · rw [tokens_of_head hhead, hts]
      rfl
    · have hnodes := hread.nodes
      rw [sysNode_size (hread.one (by simp))]
      simp only [hnodes, skip_nodes, Tree.size]
      rfl
  rw [procUnaryExpr] at h
  split at h
  · next hhead =>
    have hread := hcast h
    obtain ⟨ts, hts, hderives⟩ := hread.derives
    refine ⟨⟨.add :: ts, ?_, .plus hderives⟩, hread.nodes, hread.vars⟩
    rw [tokens_of_head hhead, hts]
    rfl
  · next hhead => exact hbefore hhead rfl h
  · next hhead =>
    obtain ⟨⟨operand, p₁⟩, hoperand, h⟩ := Option.bind_eq_some_iff.1 h
    obtain ⟨⟨zero, p₂⟩, hzero, hnode⟩ := Option.bind_eq_some_iff.1 h
    have hread := hcast hoperand
    obtain ⟨ts, hts, hderives⟩ := hread.derives
    obtain ⟨rfl, rfl⟩ := newNode_eq hzero
    obtain ⟨rfl, rfl⟩ := makeSysNode_eq hnode
    refine ⟨⟨.sub :: ts, ?_, .minus hderives⟩, ?_, hread.vars⟩
    · rw [tokens_of_head hhead, hts]
      rfl
    · have hnodes := hread.nodes
      rw [sysNode_size rfl]
      simp only [hnodes, skip_nodes, Tree.size, leaf]
      omega
  · next hhead => exact hbefore hhead rfl h
  · next hhead => exact hbefore hhead rfl h
  · next hhead => exact hbefore hhead rfl h
  · next hhead => exact hbefore hhead rfl h
  · obtain ⟨⟨left, p₁⟩, hleft, h⟩ := Option.bind_eq_some_iff.1 h
    have hprimary := (procPrimaryExpr_parses hassign hleft).imp .ofPrimary
    exact (postfixLoop_reads hassign n hprimary h).imp .ofPostfix

/-- Expressions and casts, by the depth that is left. -/
theorem procExpr_parses (env : Env) (n : ℕ) :
    Parses env .exprAssign (procAssignExpr env n) ∧ Parses env exprCast (procCastExpr env n) := by
  induction n with
  | zero =>
    constructor
    · intro p p' t h
      cases h
    · intro p p' t h
      cases h
  | succ n ih =>
    obtain ⟨hassign, hcast⟩ := ih
    constructor
    · intro p p' t h
      rw [procAssignExpr] at h
      obtain ⟨⟨left, p₁⟩, hleft, h⟩ := Option.bind_eq_some_iff.1 h
      have hread := procInclusiveOrExpr_parses hcast n hleft
      dsimp only at h
      split at h
      · next hhead =>
        obtain ⟨⟨right, p₂⟩, hright, hnode⟩ := Option.bind_eq_some_iff.1 h
        exact hread.infixed (by simp) hhead (hassign hright) hnode .assign
      · cases h
        exact hread.imp .ofOr
    · intro p p' t h
      rw [procCastExpr] at h
      split at h
      · next hhead =>
        obtain ⟨⟨type, p₁⟩, htype, h⟩ := Option.bind_eq_some_iff.1 h
        obtain ⟨⟨u, p₂⟩, hmatch, h⟩ := Option.bind_eq_some_iff.1 h
        obtain ⟨⟨operand, p₃⟩, hoperand, h⟩ := Option.bind_eq_some_iff.1 h
        cases h
        obtain ⟨ts, hts, htype, hnodes₁, hvars₁⟩ := procType_eq htype
        obtain ⟨htokens, rfl⟩ := matchToken_eq hmatch
        have hread := hcast hoperand
        obtain ⟨us, hus, hderives⟩ := hread.derives
        have hnodes := hread.nodes
        have hvars : p₁.skip.vars = p.vars := hvars₁
        rw [hvars, skip_nodes, hnodes₁] at hderives
        refine ⟨⟨.leftParen :: (ts ++ .rightParen :: us), ?_, .cast htype hderives⟩, ?_,
          hread.vars.trans hvars⟩
        · rw [tokens_of_head hhead, hts, htokens, hus]
          simp
        · rw [hnodes, (setDataType_spec _ _).2.2, skip_nodes, hnodes₁, skip_nodes]
      · exact (procUnaryExpr_parses hcast hassign n h).imp .ofUnary

/-! ### Statements -/

theorem declare_eq {type : FinshType} {p p' : Parser} {name : List UInt8}
    (h : declare type p = some (name, p')) : p.tokens = .identifier name :: p'.tokens ∧
      varInsert name type p.vars = some p'.vars ∧ p'.nodes = p.nodes := by
  obtain ⟨⟨found, p₁⟩, hfound, h⟩ := Option.bind_eq_some_iff.1 h
  obtain ⟨vars, hvars, h⟩ := Option.bind_eq_some_iff.1 h
  cases h
  rw [procIdentifier] at hfound
  split at hfound
  · next hhead =>
    cases hfound
    exact ⟨tokens_of_head hhead, hvars, rfl⟩
  · cases hfound

/-- Declarators have been read, with their assignments. -/
structure Declares (env : Env) (type : FinshType) (p : Parser) (roots : List Tree) (p' : Parser) :
    Prop where
  declares : ∃ ts, p.tokens = ts ++ p'.tokens ∧
    DeclaratorList (procedures True) env type p.vars p.nodes ts p'.vars roots
  nodes : p'.nodes = p.nodes + sizes roots

/-- The declarator of a name that has been declared, up to the token behind it. -/
def Declared (env : Env) (type : FinshType) (p : Parser) (roots : List Tree) (p' : Parser) : Prop :=
  ∃ ts, p.tokens = ts ++ p'.tokens ∧
    Declarator (procedures True) env type p.vars p.nodes ts p'.vars roots ∧
    p'.nodes = p.nodes + sizes roots

theorem declare_declared {type : FinshType} {p p' : Parser} {name : List UInt8}
    (h : declare type p = some (name, p')) : Declared env type p [] p' := by
  obtain ⟨htokens, hinsert, hnodes⟩ := declare_eq h
  exact ⟨[.identifier name], htokens, .plain hinsert, hnodes⟩

theorem initialise_declared {type : FinshType} {n : ℕ} {p p₁ p' : Parser} {name : List UInt8}
    {t : Tree} (hdeclare : declare type p = some (name, p₁)) (hhead : p₁.head = some .assign)
    (h : initialise env n name p₁.skip = some (t, p')) : Declared env type p [t] p' := by
  obtain ⟨htokens, hinsert, hnodes₁⟩ := declare_eq hdeclare
  obtain ⟨⟨right, p₂⟩, hright, h⟩ := Option.bind_eq_some_iff.1 h
  obtain ⟨⟨left, p₃⟩, hleft, hnode⟩ := Option.bind_eq_some_iff.1 h
  obtain ⟨sym, hsym, hleft⟩ := Option.bind_eq_some_iff.1 hleft
  obtain ⟨rfl, rfl⟩ := newNode_eq hleft
  obtain ⟨rfl, rfl⟩ := makeSysNode_eq hnode
  have hread := (procExpr_parses env n).1 hright
  obtain ⟨ts, hts, hderives⟩ := hread.derives
  have hnodes := hread.nodes
  have hvars : p₂.vars = p₁.vars := hread.vars
  rw [skip_nodes, hnodes₁] at hderives hnodes
  refine ⟨.identifier name :: .assign :: ts, ?_, ?_, ?_⟩
  · rw [htokens, tokens_of_head hhead, hts]
    rfl
  · rw [hvars] at hsym ⊢
    exact .init hinsert hderives hsym
  · rw [sizes_one, sysNode_size rfl]
    simp only [hnodes, leaf, Tree.size]
    omega

theorem Declared.first {type : FinshType} {p p' : Parser} {roots : List Tree}
    (h : Declared env type p roots p') : Declares env type p roots p' := by
  obtain ⟨ts, htokens, hdeclares, hnodes⟩ := h
  exact ⟨⟨ts, htokens, .one hdeclares⟩, hnodes⟩

theorem Declares.snoc {type : FinshType} {p p₁ p' : Parser} {roots more : List Tree}
    (h : Declares env type p roots p₁) (hhead : p₁.head = some .comma)
    (hmore : Declared env type p₁.skip more p') : Declares env type p (roots ++ more) p' := by
  obtain ⟨ts, hts, hlist⟩ := h.declares
  obtain ⟨us, hus, hdeclares, hnodes⟩ := hmore
  rw [skip_nodes, h.nodes] at hdeclares hnodes
  refine ⟨⟨ts ++ .comma :: us, ?_, .more hlist hdeclares⟩, ?_⟩
  · rw [hts, tokens_of_head hhead, hus, List.append_assoc, List.cons_append]
  · rw [hnodes, sizes_append, Nat.add_assoc]

theorem declLoop_reads {type : FinshType} {p : Parser} : ∀ (n : ℕ) {assigns trees : List Tree}
    {p₁ p' : Parser}, Declares env type p assigns p₁ →
    declLoop env type n assigns p₁ = some (trees, p') →
    ∃ us, p.tokens = us ++ .semicolon :: p'.tokens ∧
      DeclaratorList (procedures True) env type p.vars p.nodes us p'.vars trees ∧
      p'.nodes = p.nodes + sizes trees := by
  intro n
  induction n with
  | zero =>
    intro assigns trees p₁ p' _ h
    cases h
  | succ n ih =>
    intro assigns trees p₁ p' hassigns h
    rw [declLoop] at h
    split at h
    · next hcomma =>
      obtain ⟨⟨name, p₂⟩, hname, h⟩ := Option.bind_eq_some_iff.1 h
      dsimp only at h
      split at h
      · next hassign =>
        obtain ⟨⟨assign, p₃⟩, hinit, h⟩ := Option.bind_eq_some_iff.1 h
        exact ih (hassigns.snoc hcomma (initialise_declared hname hassign hinit)) h
      · have hsnoc := hassigns.snoc hcomma (declare_declared hname)
        rw [List.append_nil] at hsnoc
        exact ih hsnoc h
    · obtain ⟨⟨u, p₂⟩, hmatch, h⟩ := Option.bind_eq_some_iff.1 h
      cases h
      obtain ⟨us, hus, hlist⟩ := hassigns.declares
      obtain ⟨htokens, rfl⟩ := matchToken_eq hmatch
      exact ⟨us, hus.trans (by rw [htokens]), hlist, hassigns.nodes⟩

/-- A statement has been read, with its roots. -/
structure Stated (env : Env) (p : Parser) (roots : List Tree) (p' : Parser) : Prop where
  states : ∃ ts, p.tokens = ts ++ p'.tokens ∧
    Statement (procedures True) env p.vars p.nodes ts p'.vars roots
  nodes : p'.nodes = p.nodes + sizes roots

theorem procVariableDecl_stated {n : ℕ} {p p' : Parser} {t : Tree}
    (h : procVariableDecl env n p = some (t, p')) :
    ∃ roots, Stated env p roots p' ∧ t = link roots .nil := by
  obtain ⟨⟨type, p₁⟩, htype, h⟩ := Option.bind_eq_some_iff.1 h
  obtain ⟨⟨name, p₂⟩, hname, h⟩ := Option.bind_eq_some_iff.1 h
  obtain ⟨ts, hts, htype, hnodes₁, hvars₁⟩ := procType_eq htype
  have hloop : ∀ {assigns trees : List Tree} {p₃ p₄ : Parser}, Declares env type p₁ assigns p₃ →
      declLoop env type n assigns p₃ = some (trees, p₄) → Stated env p trees p₄ := by
    intro assigns trees p₃ p₄ hassigns h
    obtain ⟨us, hus, hlist, hnodes⟩ := declLoop_reads n hassigns h
    rw [hnodes₁] at hlist hnodes
    rw [hvars₁] at hlist
    refine ⟨⟨ts ++ (us ++ [.semicolon]), ?_, .decl htype hlist⟩, hnodes⟩
    rw [hts, hus]
    simp
  dsimp only at h
  split at h
  · next hassign =>
    obtain ⟨⟨assign, p₃⟩, hinit, h⟩ := Option.bind_eq_some_iff.1 h
    obtain ⟨⟨assigns, p₄⟩, hdecl, h⟩ := Option.bind_eq_some_iff.1 h
    cases h
    exact ⟨assigns, hloop (initialise_declared hname hassign hinit).first hdecl, rfl⟩
  · obtain ⟨⟨assigns, p₄⟩, hdecl, h⟩ := Option.bind_eq_some_iff.1 h
    cases h
    exact ⟨assigns, hloop (declare_declared hname).first hdecl, rfl⟩

/-- A statement; without a declaration, only the empty one leaves no root. -/
theorem procStatement_stated {n : ℕ} {p p' : Parser} {t : Tree}
    (h : procStatement env n p = some (t, p')) :
    ∃ roots, Stated env p roots p' ∧ t = link roots .nil ∧
      (roots = [] → (p.head.map Token.isDecl).getD false = false →
        p.tokens = .semicolon :: p'.tokens) := by
  rw [procStatement] at h
  split at h
  · next hdecl =>
    obtain ⟨roots, hstated, hlink⟩ := procVariableDecl_stated h
    refine ⟨roots, hstated, hlink, ?_⟩
    intro _ hexpr
    rw [hdecl] at hexpr
    cases hexpr
  · rw [procExprStatement] at h
    split at h
    · next hhead =>
      cases h
      have htokens := tokens_of_head hhead
      exact ⟨[], ⟨⟨[.semicolon], htokens, .empty⟩, rfl⟩, rfl, fun _ _ => htokens⟩
    · obtain ⟨⟨expr, p₁⟩, hexpr, h⟩ := Option.bind_eq_some_iff.1 h
      obtain ⟨⟨u, p₂⟩, hmatch, h⟩ := Option.bind_eq_some_iff.1 h
      cases h
      have hread := (procExpr_parses env n).1 hexpr
      obtain ⟨ts, hts, hderives⟩ := hread.derives
      obtain ⟨htokens, rfl⟩ := matchToken_eq hmatch
      refine ⟨[t], ⟨⟨ts ++ [.semicolon], ?_, ?_⟩, ?_⟩, (link_one (hread.one (by simp))).symm,
        fun h => absurd h (by simp)⟩
      · rw [hts, htokens]
        simp
      · have hvars : p₁.skip.vars = p.vars := hread.vars
        rw [hvars]
        exact .expr hderives
      · rw [sizes_one]
        exact hread.nodes

/-! ### Lines -/

theorem link_ne_nil {roots : List Tree} (hone : ∀ t ∈ roots, t.siblings = 1) (hne : roots ≠ []) :
    link roots .nil ≠ .nil := by
  cases roots with
  | nil => exact absurd rfl hne
  | cons t roots =>
    have ht := hone t (List.mem_cons_self ..)
    cases t with
    | nil => cases ht
    | node => simp [link, Tree.setSibling]

theorem atEnd_of_head {p : Parser} (h : p.head = none ∨ p.head = some .bad) : AtEnd p.tokens := by
  obtain ⟨tokens, nodes, vars⟩ := p
  cases tokens with
  | nil => exact .inl rfl
  | cons x tokens => exact .inr (h.elim (fun h => absurd h (by simp [Parser.head])) id)

theorem not_atEnd_of_head {p : Parser} {token : Token} (h : p.head = some token)
    (hbad : token ≠ .bad) : ¬AtEnd p.tokens := by
  rintro (hnil | hhead)
  · rw [Parser.head, hnil] at h
    cases h
  · exact hbad (Option.some.inj (h.symm.trans hhead))

/-- Behind the last token there is none to lose. -/
theorem skip_of_nil {p : Parser} (h : p.tokens = []) : p.skip = p := by
  obtain ⟨tokens, nodes, vars⟩ := p
  cases h
  rfl

/-- The statements behind `roots`; these are one tree, if a statement comes. -/
theorem statementLoop_reads : ∀ (n : ℕ) {nodes roots : List Tree} {t : Tree} {p p' : Parser},
    (∀ t ∈ roots, t.siblings = 1) → (roots.length = 1 ∨ AtEnd p.tokens) →
    ¬Loses (procedures True) env p.vars p.nodes p.tokens →
    statementLoop env n nodes (link roots .nil) p = some (t, p') →
    ∃ more, Statements (procedures True) env p.vars p.nodes p.tokens more ∧
      t = link nodes (link (roots ++ more) .nil) := by
  intro n
  induction n with
  | zero =>
    intro nodes roots t p p' _ _ _ h
    cases h
  | succ n ih =>
    intro nodes roots t p p' hone hroots hlose h
    have hend : AtEnd p.tokens → t = link nodes (link roots .nil) →
        ∃ more, Statements (procedures True) env p.vars p.nodes p.tokens more ∧
          t = link nodes (link (roots ++ more) .nil) := by
      intro hend ht
      exact ⟨[], .done hend, by rw [ht, List.append_nil]⟩
    rw [statementLoop] at h
    split at h
    · next hhead =>
      cases h
      exact hend (atEnd_of_head (.inl hhead)) rfl
    · next hhead =>
      cases h
      exact hend (atEnd_of_head (.inr hhead)) rfl
    · next token hbad hhead =>
      obtain ⟨⟨next, p₁⟩, hnext, h⟩ := Option.bind_eq_some_iff.1 h
      obtain ⟨roots', hstated, hlink, hempty⟩ := procStatement_stated hnext
      obtain ⟨ts, hts, hstates⟩ := hstated.states
      have hnotEnd := not_atEnd_of_head hhead hbad
      obtain ⟨root, rfl⟩ := List.length_eq_one_iff.1 (hroots.resolve_right hnotEnd)
      have hroot := hone root (List.mem_singleton.2 rfl)
      rw [link_one hroot] at h
      -- What the loop does with the rest of the line.
      have hrest : ¬Loses (procedures True) env p₁.vars p₁.nodes p₁.tokens := by
        intro hloses
        rw [hstated.nodes] at hloses
        exact hlose (hts ▸ .later hstates hloses)
      have hmore : ∀ {more : List Tree},
          Statements (procedures True) env p₁.vars p₁.nodes p₁.tokens more →
          Statements (procedures True) env p.vars p.nodes p.tokens (roots' ++ more) := by
        intro more hmore
        rw [hstated.nodes] at hmore
        exact hts ▸ .more hstates hmore
      dsimp only at h
      split at h
      · next hnil =>
        have hnone : roots' = [] := by
          by_contra hne
          exact link_ne_nil hstates.siblings hne (hlink.symm.trans hnil)
        subst hnone
        have hskip : (if token.isDecl then p₁ else p₁.skip) = p₁ := by
          split
          · rfl
          · next hexpr =>
            have htokens := hempty rfl (by simpa [hhead] using hexpr)
            refine skip_of_nil ?_
            by_contra hne
            exact hlose (htokens ▸ .empty hne)
        rw [hskip, setSibling_nil hroot] at h
        obtain ⟨more, hstatements, ht⟩ := @ih nodes [root] t p₁ p' hone (.inl rfl) hrest
          (by rw [link_one hroot]; exact h)
        exact ⟨more, hmore hstatements, ht⟩
      · next hne =>
        have hlength : roots'.length = 1 ∨ AtEnd p₁.tokens := by
          by_contra hnot
          obtain ⟨hlength, hend⟩ := not_or.1 hnot
          have hpos : roots' ≠ [] := by
            rintro rfl
            exact hne hlink
          have := List.length_pos_of_ne_nil hpos
          exact hlose (hts ▸ .several hstates (by omega) hend)
        rw [hlink] at h
        obtain ⟨more, hstatements, ht⟩ := ih hstates.siblings hlength hrest h
        refine ⟨roots' ++ more, hmore hstatements, ?_⟩
        rw [ht, link_append]
        rfl

/-- A line that is accepted is derived, if it loses nothing. -/
theorem finshParserRun_sound {vars : Vars} {tokens : List Token} {t : Tree}
    (hlossy : ¬Lossy (procedures True) env vars tokens)
    (h : finshParserRun env vars tokens = some t) :
    ∃ roots, Line (procedures True) env vars tokens roots ∧ t = link roots .nil := by
  rw [finshParserRun] at h
  dsimp only at h
  split at h
  · next hhead =>
    cases h
    exact ⟨[], .blank (atEnd_of_head (.inl hhead)), rfl⟩
  · next hhead =>
    cases h
    exact ⟨[], .blank (atEnd_of_head (.inr hhead)), rfl⟩
  · obtain ⟨⟨root, p₁⟩, hroot, h⟩ := Option.bind_eq_some_iff.1 h
    obtain ⟨roots, hstated, hlink, -⟩ := procStatement_stated hroot
    obtain ⟨ts, hts, hstates⟩ := hstated.states
    have hnodes : p₁.nodes = sizes roots := hstated.nodes.trans (Nat.zero_add _)
    simp only at hts hstates
    dsimp only at h
    split at h
    · next hnil =>
      cases h
      have hnone : roots = [] := by
        by_contra hne
        exact link_ne_nil hstates.siblings hne (hlink.symm.trans hnil)
      subst hnone
      exact ⟨[], hts ▸ .unread hstates, rfl⟩
    · next hne =>
      obtain ⟨⟨all, p₂⟩, hloop, h⟩ := Option.bind_eq_some_iff.1 h
      cases h
      have hpos : roots ≠ [] := by
        rintro rfl
        exact hne hlink
      have hlength : roots.length = 1 ∨ AtEnd p₁.tokens := by
        by_contra hnot
        obtain ⟨hlength, hend⟩ := not_or.1 hnot
        have := List.length_pos_of_ne_nil hpos
        exact hlossy ⟨ts, _, _, roots, hts, hstates, hpos, .inl ⟨by omega, hend⟩⟩
      have hrest : ¬Loses (procedures True) env p₁.vars p₁.nodes p₁.tokens := by
        intro hloses
        rw [hnodes] at hloses
        exact hlossy ⟨ts, _, _, roots, hts, hstates, hpos, .inr hloses⟩
      rw [hlink] at hloop
      obtain ⟨more, hmore, ht⟩ := statementLoop_reads _ hstates.siblings hlength hrest hloop
      rw [hnodes] at hmore
      exact ⟨roots ++ more, hts ▸ .read hstates hpos hmore, ht⟩

end EasyCore.Finsh
