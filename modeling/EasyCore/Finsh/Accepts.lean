import EasyCore.Finsh.ParserComplete

/-! The lines that `finsh_parser_run` accepts, next to the grammar. It reads a line statement by
    statement, with more types than the comments have and with any expression before an `=`; but an
    expression in parentheses is never read, because `proc_cast_expr` takes the parenthesis for that of
    a cast. -/

namespace EasyCore.Finsh
variable {env : Env}

/-! ### With parentheses -/

theorem Derives.withParens {vars : Vars} {nt : NonTerm} {n : ℕ} {ts : List Token} {t : Tree}
    (h : Derives (procedures False) env vars nt n ts t) :
    Derives (procedures True) env vars nt n ts t := by
  induction h with
  | ofOr _ ih => exact .ofOr ih
  | assign _ _ ihleft ihright => exact .assign (g := procedures True) ihleft ihright
  | ofOperand _ ih => exact .ofOperand ih
  | operator hop _ _ ihleft ihright => exact .operator hop ihleft ihright
  | ofUnary _ ih => exact .ofUnary ih
  | cast htype _ ih => exact .cast htype ih
  | ofPostfix _ ih => exact .ofPostfix ih
  | plus _ ih => exact .plus ih
  | minus _ ih => exact .minus ih
  | before hkind _ ih => exact .before hkind ih
  | ofPrimary _ ih => exact .ofPrimary ih
  | behind hkind _ ih => exact .behind hkind ih
  | call _ _ ihfunc ihparams => exact .call ihfunc ihparams
  | literal hkind => exact .literal hkind
  | identifier hsym => exact .identifier hsym
  | parens hparens => exact hparens.elim
  | noParams => exact .noParams
  | param _ ih => exact .param ih
  | moreParams hfirst _ _ ihparams ih => exact .moreParams hfirst ihparams ih

theorem Declarator.withParens {type : FinshType} {vars vars' : Vars} {n : ℕ} {ts : List Token}
    {roots : List Tree} (h : Declarator (procedures False) env type vars n ts vars' roots) :
    Declarator (procedures True) env type vars n ts vars' roots := by
  cases h with
  | plain hinsert => exact .plain hinsert
  | init hinsert hright hsym => exact .init hinsert hright.withParens hsym

theorem DeclaratorList.withParens {type : FinshType} {vars vars' : Vars} {n : ℕ} {ts : List Token}
    {roots : List Tree} (h : DeclaratorList (procedures False) env type vars n ts vars' roots) :
    DeclaratorList (procedures True) env type vars n ts vars' roots := by
  induction h with
  | one h => exact .one h.withParens
  | more _ h ih => exact .more ih h.withParens

theorem Statement.withParens {vars vars' : Vars} {n : ℕ} {ts : List Token} {roots : List Tree}
    (h : Statement (procedures False) env vars n ts vars' roots) :
    Statement (procedures True) env vars n ts vars' roots := by
  cases h with
  | empty => exact .empty
  | expr h => exact .expr h.withParens
  | decl htype hlist => exact .decl htype hlist.withParens

/-! ### Lines without parentheses -/

/-- What a statement begins with, and what it is when it leaves no root. -/
theorem Statement.head {parens : Prop} {vars vars' : Vars} {n : ℕ} {ts : List Token}
    {roots : List Tree} (h : Statement (procedures parens) env vars n ts vars' roots) :
    ∃ token us, ts = token :: us ∧ token ≠ .bad ∧
      (roots = [] → token.isDecl = false → ts = [.semicolon]) := by
  cases h with
  | empty => exact ⟨_, _, rfl, by simp, fun _ _ => rfl⟩
  | @expr _ ts t h =>
    obtain ⟨token, us, rfl, hfirst⟩ := h.first (h.ne_nil (by simp))
    refine ⟨token, us ++ [.semicolon], rfl, ?_, fun hroots => absurd hroots (by simp)⟩
    rintro rfl
    cases hfirst
  | decl htype =>
    obtain ⟨token, us, rfl, hdecl⟩ := CodeType.isDecl htype
    refine ⟨token, _, rfl, ?_, fun _ hexpr => ?_⟩
    · rintro rfl
      cases hdecl
    · rw [hdecl] at hexpr
      cases hexpr

/-- A step of the loop over a statement. -/
theorem statementLoop_step {vars vars' : Vars} {n f : ℕ} {ts us : List Token} {roots nodes : List Tree}
    {root : Tree} (h : Statement (procedures False) env vars n ts vars' roots)
    (hn : n + sizes roots ≤ nodeMax) (hf : ts.length + 2 ≤ f) (hroot : root.siblings = 1)
    (hlose : ¬Loses (procedures True) env vars n (ts ++ us)) :
    statementLoop env (f + 1) nodes root ⟨ts ++ us, n, vars⟩ =
      if roots = [] then statementLoop env f nodes root ⟨us, n + sizes roots, vars'⟩
      else statementLoop env f (nodes ++ [root]) (link roots .nil)
        ⟨us, n + sizes roots, vars'⟩ := by
  obtain ⟨token, vs, hts, hbad, hempty⟩ := h.head
  have hhead : Parser.head ⟨ts ++ us, n, vars⟩ = some token := by rw [hts]; rfl
  have hstatement := h.complete hn f us hf
  rw [statementLoop]
  split
  · next hnone => cases hhead.symm.trans hnone
  · next hbad' => exact absurd (Option.some.inj (hhead.symm.trans hbad')) hbad
  · next token' _ htoken =>
    cases Option.some.inj (htoken.symm.trans hhead)
    simp only [hstatement, Option.bind_eq_bind, Option.bind_some]
    by_cases hroots : roots = []
    · have hnil : link roots .nil = .nil := by rw [hroots]; rfl
      have hskip : (if token.isDecl then (⟨us, n + sizes roots, vars'⟩ : Parser)
          else Parser.skip ⟨us, n + sizes roots, vars'⟩) = ⟨us, n + sizes roots, vars'⟩ := by
        split
        · rfl
        · next hexpr =>
          have hsemi := hempty hroots (by simpa using hexpr)
          refine skip_of_nil ?_
          by_contra hne
          exact hlose (hsemi ▸ .empty hne)
      rw [if_pos hnil, if_pos hroots, setSibling_nil hroot, hskip]
    · rw [if_neg (link_ne_nil h.siblings hroots), if_neg hroots]

/-- A statement is the last one, or leaves one root. -/
theorem one_or_atEnd {us : List Token} {roots : List Tree} (hne : roots ≠ [])
    (hlose : ¬(2 ≤ roots.length ∧ ¬AtEnd us)) : roots.length = 1 ∨ AtEnd us := by
  by_contra hnot
  obtain ⟨hlength, hend⟩ := not_or.1 hnot
  have := List.length_pos_of_ne_nil hne
  exact hlose ⟨by omega, hend⟩

theorem statementLoop_atEnd {tokens : List Token} (h : AtEnd tokens) (f n : ℕ) (vars : Vars)
    (nodes : List Tree) (node : Tree) :
    statementLoop env (f + 1) nodes node ⟨tokens, n, vars⟩ =
      some (link nodes node, ⟨tokens, n, vars⟩) := by
  obtain rfl | hhead := h
  · rfl
  · cases tokens with
    | nil => cases hhead
    | cons token tokens =>
      cases hhead
      rfl

theorem Statements.complete {vars : Vars} {n : ℕ} {tokens : List Token} {more : List Tree}
    (h : Statements (procedures False) env vars n tokens more) : n + sizes more ≤ nodeMax →
    ∀ (f : ℕ) (nodes roots : List Tree), tokens.length + 3 ≤ f →
    (∀ t ∈ roots, t.siblings = 1) → (roots.length = 1 ∨ AtEnd tokens) →
    ¬Loses (procedures True) env vars n tokens →
    ∃ p', statementLoop env f nodes (link roots .nil) ⟨tokens, n, vars⟩ =
      some (link nodes (link (roots ++ more) .nil), p') := by
  induction h with
  | done hend =>
    intro hn f nodes roots hf _ _ _
    cases f with
    | zero => omega
    | succ f =>
      rw [List.append_nil]
      exact ⟨_, statementLoop_atEnd hend f ..⟩
  | @more vars vars' n ts us roots' more hstatement _ ih =>
    intro hn f nodes roots hf hone hroots hlose
    rw [sizes_append] at hn
    rw [List.length_append] at hf
    obtain ⟨token, vs, hts, hbad, -⟩ := hstatement.head
    have hlength : 0 < ts.length := by rw [hts]; exact Nat.succ_pos _
    have hnotEnd : ¬AtEnd (ts ++ us) :=
      not_atEnd_of_head (p := ⟨ts ++ us, n, vars⟩) (by rw [hts]; rfl) hbad
    obtain ⟨root, rfl⟩ := List.length_eq_one_iff.1 (hroots.resolve_right hnotEnd)
    have hroot := hone root (List.mem_singleton.2 rfl)
    have hrest : ¬Loses (procedures True) env vars' (n + sizes roots') us :=
      fun hloses => hlose (.later hstatement.withParens hloses)
    cases f with
    | zero => omega
    | succ f =>
      rw [link_one hroot, statementLoop_step hstatement (by omega) (by omega) hroot hlose]
      split
      · next hnone =>
        subst hnone
        have hmore := ih (by omega) f nodes [root] (by omega) hone (.inl rfl) hrest
        rw [link_one hroot] at hmore
        exact hmore
      · next hne =>
        have hend : roots'.length = 1 ∨ AtEnd us := one_or_atEnd hne
          fun h => hlose (.several hstatement.withParens h.1 h.2)
        obtain ⟨p', hloop⟩ := ih (by omega) f (nodes ++ [root]) roots' (by omega)
          hstatement.siblings hend hrest
        refine ⟨p', hloop.trans ?_⟩
        rw [link_append]
        rfl

/-- A line that is derived without parentheses around expressions is accepted. -/
theorem finshParserRun_complete {vars : Vars} {tokens : List Token} {roots : List Tree}
    (hlossy : ¬Lossy (procedures True) env vars tokens)
    (h : Line (procedures False) env vars tokens roots) (hn : sizes roots ≤ nodeMax) :
    finshParserRun env vars tokens = some (link roots .nil) := by
  have hrun : ∀ {vars' : Vars} {ts us : List Token} {first : List Tree},
      Statement (procedures False) env vars 0 ts vars' first → sizes first ≤ nodeMax →
      finshParserRun env vars (ts ++ us) =
        if first = [] then some .nil
        else (statementLoop env (2 * (ts ++ us).length + 4) [] (link first .nil)
          ⟨us, sizes first, vars'⟩).map Prod.fst := by
    intro vars' ts us first hstatement hsize
    obtain ⟨token, vs, hts, hbad, -⟩ := hstatement.head
    have hhead : Parser.head ⟨ts ++ us, 0, vars⟩ = some token := by rw [hts]; rfl
    have hfirst := hstatement.complete (by omega) (2 * (ts ++ us).length + 4) us
      (by rw [List.length_append]; omega)
    rw [Nat.zero_add] at hfirst
    rw [finshParserRun]
    split
    · next hnone => cases hhead.symm.trans hnone
    · next hbad' => exact absurd (Option.some.inj (hhead.symm.trans hbad')) hbad
    · simp only [hfirst, Option.bind_eq_bind, Option.bind_some]
      by_cases hroots : first = []
      · have hnil : link first .nil = .nil := by rw [hroots]; rfl
        rw [if_pos hnil, if_pos hroots]
      · rw [if_neg (link_ne_nil hstatement.siblings hroots), if_neg hroots]
        exact Option.map_eq_bind.symm
  cases h with
  | blank hend =>
    obtain rfl | hhead := hend
    · rfl
    · cases tokens with
      | nil => cases hhead
      | cons token tokens =>
        cases hhead
        rfl
  | unread hstatement => exact (hrun hstatement (Nat.zero_le _)).trans (if_pos rfl)
  | @read vars' ts us first more hstatement hne hmore =>
    rw [sizes_append] at hn
    have hend : first.length = 1 ∨ AtEnd us := one_or_atEnd hne
      fun h => hlossy ⟨ts, us, vars', first, rfl, hstatement.withParens, hne, .inl h⟩
    have hrest : ¬Loses (procedures True) env vars' (sizes first) us :=
      fun h => hlossy ⟨ts, us, vars', first, rfl, hstatement.withParens, hne, .inr h⟩
    obtain ⟨p', hloop⟩ := hmore.complete hn (2 * (ts ++ us).length + 4) [] first
      (by rw [List.length_append]; omega) hstatement.siblings hend hrest
    rw [hrun hstatement (by omega), if_neg hne, hloop]
    rfl

/-! ### The lines that are accepted -/

theorem Statement.last {g : Dialect} {vars vars' : Vars} {n : ℕ} {ts : List Token}
    {roots : List Tree} (h : Statement g env vars n ts vars' roots) :
    ts.getLast? = some .semicolon := by
  cases h <;> simp

theorem Loses.ne_nil {parens : Prop} {vars : Vars} {n : ℕ} {ts : List Token}
    (h : Loses (procedures parens) env vars n ts) : ts ≠ [] := by
  cases h with
  | empty => simp
  | several h =>
    obtain ⟨_, _, rfl, _⟩ := h.head
    simp
  | later h =>
    obtain ⟨_, _, rfl, _⟩ := h.head
    simp

/-- No names are known. -/
def noNames : Env := ⟨fun _ => none, fun _ => none, 0, fun _ => 0⟩

/-- `1;` -/
def oneStatement : List Token := [.valueInt 1, .semicolon]

theorem oneStatement_not_lossy : ¬Lossy (procedures True) noNames [] oneStatement := by
  rintro ⟨ts, us, vars', roots, htokens, hstatement, -, hlose⟩
  have hus : us = [] := by
    have hlast := hstatement.last
    match ts, htokens with
    | [], _ => cases hlast
    | [_], htokens =>
      cases htokens
      cases hlast
    | [_, _], htokens =>
      cases htokens
      rfl
  subst hus
  obtain ⟨-, hend⟩ | hloses := hlose
  · exact hend (.inl rfl)
  · exact hloses.ne_nil rfl

theorem no_semicolon_of_type {ts : List Token} {type : FinshType} (h : CommentType ts type) :
    ts.count .semicolon = 0 := by
  cases h with
  | @basic token _ h => cases token <;> first | rfl | cases h
  | @unsigned token _ h => cases token <;> first | rfl | cases h
  | unsignedVoid => rfl

/-- No expression of the comments has a semicolon. -/
theorem Derives.no_semicolon {vars : Vars} {nt : NonTerm} {n : ℕ} {ts : List Token} {t : Tree}
    (h : Derives comments env vars nt n ts t) : ts.count .semicolon = 0 := by
  induction h with
  | ofOr _ ih | ofOperand _ ih | ofUnary _ ih | ofPostfix _ ih | ofPrimary _ ih | param _ ih =>
    exact ih
  | assign _ _ ihleft ihright => simp [ihleft, ihright]
  | @operator _ _ _ _ _ _ token _ hop _ _ ihleft ihright =>
    have htoken : token ≠ .semicolon := by
      rintro rfl
      have hlevel := level_of_binaryOps hop
      rw [← hlevel] at hop
      cases hop
    simp [ihleft, ihright, htoken]
  | cast h _ ih => simp [no_semicolon_of_type h, ih]
  | plus _ ih | minus _ ih => simp [ih]
  | @before _ _ _ token _ hkind _ ih =>
    have htoken : token ≠ .semicolon := by
      rintro rfl
      cases hkind
    simp [ih, htoken]
  | @behind _ _ _ token _ hkind _ ih =>
    have htoken : token ≠ .semicolon := by
      rintro rfl
      cases hkind
    simp [ih, htoken]
  | call _ _ ihfunc ihparams => simp [ihfunc, ihparams]
  | @literal _ token _ hkind =>
    have htoken : token ≠ .semicolon := by
      rintro rfl
      cases hkind
    simp [htoken]
  | identifier => simp
  | parens _ _ ih => simp [ih]
  | noParams => rfl
  | moreParams _ _ _ ihparams ih => simp [ihparams, ih]

/-- A sentence of the comments has one semicolon. -/
theorem Sentence.one_semicolon {vars : Vars} {tokens : List Token} {t : Tree}
    (h : Sentence comments env vars tokens t) : tokens.count .semicolon = 1 := by
  have hdeclarator : ∀ {type : FinshType} {vars vars' : Vars} {n : ℕ} {ts : List Token}
      {roots : List Tree}, Declarator comments env type vars n ts vars' roots →
      ts.count .semicolon = 0 := by
    intro type vars vars' n ts roots h
    cases h with
    | plain => simp
    | init _ hright => simp [hright.no_semicolon]
  have hlist : ∀ {type : FinshType} {vars vars' : Vars} {n : ℕ} {ts : List Token}
      {roots : List Tree}, DeclaratorList comments env type vars n ts vars' roots →
      ts.count .semicolon = 0 := by
    intro type vars vars' n ts roots h
    induction h with
    | one h => exact hdeclarator h
    | more _ h ih => simp [ih, hdeclarator h]
  obtain ⟨vars', roots, hstatement, -, -⟩ := h
  cases hstatement with
  | empty => rfl
  | expr h => simp [h.no_semicolon]
  | decl htype h => simp [no_semicolon_of_type htype, hlist h]

/-- `(1);` -/
def parenthesised : List Token := [.leftParen, .valueInt 1, .rightParen, .semicolon]

/-- `1;1;` -/
def twoStatements : List Token := [.valueInt 1, .semicolon, .valueInt 1, .semicolon]

end EasyCore.Finsh
