import EasyCore.Finsh.Measure

/-! The parser ends where the lexer goes on; where a name is the end of the text, it does not. -/

namespace EasyCore.Finsh.Lexer
open Procs

/-! ### A full table of nodes -/

/-- There is no node left. -/
def Full (p : Parser) : Prop := nodeMax ≤ p.nodes

/-- No node is made where none is left. -/
def NoNode (m : Proc Node) : Prop := Ensures Full m fun node p => Full p ∧ node = .null

/-- The table stays full. -/
def StaysFull {α : Type} (m : Proc α) : Prop := Ensures Full m fun _ => Full

section Full
variable {line : Line} {α β : Type} {m : Proc α} {f : α → Proc β} {operand cast assign : Proc Node}
  {ops : Token → Option Op} {tables : Tables}

theorem StaysFull.of_nodes (h : ∀ p a p', m p = some (a, p') → p'.nodes = p.nodes) : StaysFull m :=
  fun p a p' hp hm => hp.trans (h p a p' hm).ge

theorem get_bind (f : Parser → Proc α) (p : Parser) : ((get : Proc Parser) >>= f) p = f p p := rfl

theorem StaysFull.bind (h : StaysFull m) (hf : ∀ a, StaysFull (f a)) : StaysFull (m >>= f) :=
  Ensures.bind h hf

theorem StaysFull.pure (a : α) : StaysFull (Pure.pure a : Proc α) := Ensures.pure fun _ hp => hp

theorem StaysFull.then {f : α → Proc Node} (h : StaysFull m) (hf : ∀ a, NoNode (f a)) :
    NoNode (m >>= f) :=
  Ensures.bind h hf

theorem NoNode.null : NoNode (pure .null) := Ensures.pure fun _ hp => ⟨hp, rfl⟩

theorem NoNode.bind {f : Node → Proc Node} (h : NoNode operand) (hf : NoNode (f .null)) :
    NoNode (operand >>= f) := by
  refine Ensures.bind h fun node p a p' => ?_
  rintro ⟨hp, rfl⟩
  exact hf p a p' hp

theorem nextToken_staysFull (line : Line) : StaysFull (nextToken line) := by
  refine .of_nodes fun p a p' h => ?_
  obtain ⟨r, _, heq⟩ := Option.map_eq_some_iff.1 h
  obtain ⟨rfl, rfl⟩ := Prod.mk.inj heq
  rfl

theorem replayToken_staysFull : StaysFull replayToken := by
  refine .of_nodes fun p a p' h => ?_
  obtain ⟨rfl, rfl⟩ := Prod.mk.inj (Option.some.inj h)
  rfl

theorem errorSet_staysFull (error : FinshError) : StaysFull (errorSet error) := by
  refine .of_nodes fun p a p' h => ?_
  obtain ⟨rfl, rfl⟩ := Prod.mk.inj (Option.some.inj h)
  rfl

theorem get_staysFull : StaysFull (get : Proc Parser) := by
  refine .of_nodes fun p a p' h => ?_
  obtain ⟨rfl, rfl⟩ := Prod.mk.inj (Option.some.inj h)
  rfl

theorem checkToken_staysFull (ok : Bool) : StaysFull (checkToken ok) := by
  cases ok with
  | true => exact .pure _
  | false => exact (errorSet_staysFull _).bind fun _ => replayToken_staysFull

theorem matchToken_staysFull (line : Line) (ok : Option Token → Bool) :
    StaysFull (matchToken line ok) :=
  (nextToken_staysFull line).bind fun _ => checkToken_staysFull _

theorem finshNodeAllocate_noNode (type : NodeType) : NoNode (finshNodeAllocate type) := by
  intro p a p' hp h
  rw [finshNodeAllocate, if_neg (Nat.not_lt.2 hp)] at h
  obtain ⟨rfl, rfl⟩ := Prod.mk.inj (Option.some.inj h)
  exact ⟨hp, rfl⟩

theorem finshNodeNew_noNode (type : NodeType) : NoNode (finshNodeNew type) := by
  refine (finshNodeAllocate_noNode type).bind ?_
  rw [if_pos rfl]
  exact (errorSet_staysFull _).then fun _ => .null

theorem finshNodeNewId_noNode (tables : Tables) (name : List UInt8) :
    NoNode (finshNodeNewId tables name) := by
  refine get_staysFull.then fun p => ?_
  split
  · exact finshNodeNew_noNode _
  · exact (errorSet_staysFull _).then fun _ => .null

theorem makeSysNode_noNode (type : NodeType) (node₁ node₂ : Node) :
    NoNode (makeSysNode type node₁ node₂) := by
  refine (finshNodeAllocate_noNode type).bind ?_
  rw [if_neg (fun h => h.2 rfl)]
  exact (errorSet_staysFull _).then fun _ => .null

theorem typeReturn_staysFull : StaysFull typeReturn :=
  replayToken_staysFull.bind fun _ => (errorSet_staysFull _).bind fun _ => .pure _

theorem typePointer_staysFull (line : Line) (type : Option FinshType) :
    StaysFull (typePointer line type) := by
  refine (nextToken_staysFull line).bind fun token => ?_
  split_ifs
  · exact .pure _
  · exact replayToken_staysFull.bind fun _ => .pure _

theorem typeUnsigned_staysFull (line : Line) : StaysFull (typeUnsigned line) := by
  refine (nextToken_staysFull line).bind fun token => ?_
  split_ifs
  · split
    · exact typePointer_staysFull line _
    · exact typeReturn_staysFull
  · exact replayToken_staysFull.bind fun _ => (errorSet_staysFull _).bind fun _ =>
      typePointer_staysFull line _

theorem procType_staysFull (line : Line) : StaysFull (procType line) := by
  refine (nextToken_staysFull line).bind fun token => ?_
  split_ifs
  · exact typeUnsigned_staysFull line
  · split
    · exact typePointer_staysFull line _
    · exact typeReturn_staysFull

theorem procIdentifier_staysFull (line : Line) : StaysFull (procIdentifier line) :=
  (matchToken_staysFull line _).bind fun _ => get_staysFull.bind fun _ => .pure _

theorem binaryLoop_noNode (hop : NoNode operand) : ∀ n,
    NoNode (binaryLoop line ops operand n .null)
  | 0 => Ensures.failure
  | n + 1 => by
    rw [binaryLoop]
    refine (nextToken_staysFull line).then fun token => ?_
    split
    · refine hop.bind ?_
      rw [if_pos rfl]
      exact (errorSet_staysFull _).then fun _ => binaryLoop_noNode hop n
    · exact replayToken_staysFull.then fun _ => .null

theorem procBinary_noNode (hop : NoNode operand) (n : ℕ) :
    NoNode (procBinary line ops operand n) :=
  hop.bind (binaryLoop_noNode hop n)

theorem procInclusiveOrExpr_noNode (hcast : NoNode cast) (n : ℕ) :
    NoNode (procInclusiveOrExpr line cast n) :=
  procBinary_noNode (procBinary_noNode (procBinary_noNode (procBinary_noNode (procBinary_noNode
    (procBinary_noNode hcast n) n) n) n) n) n

theorem procPrimaryExpr_noNode (hassign : NoNode assign) :
    NoNode (procPrimaryExpr line tables assign) := by
  refine (nextToken_staysFull line).then fun token => ?_
  split_ifs
  · exact replayToken_staysFull.then fun _ => (procIdentifier_staysFull line).then fun name =>
      finshNodeNewId_noNode tables name
  · exact hassign.bind ((matchToken_staysFull line _).then fun _ => .null)
  · split
    · exact finshNodeNew_noNode _
    · exact (errorSet_staysFull _).then fun _ => .null

theorem callParams_noNode (hassign : NoNode assign) (n : ℕ) :
    NoNode (callParams line assign n) := by
  refine (nextToken_staysFull line).then fun token => ?_
  split_ifs
  · exact .null
  · have hparams : NoNode (procParamList line assign n) := by
      refine hassign.bind ?_
      rw [if_pos rfl]
      exact .null
    exact replayToken_staysFull.then fun _ =>
      hparams.bind ((matchToken_staysFull line _).then fun _ => .null)

theorem postfixLoop_noNode (hassign : NoNode assign) : ∀ n,
    NoNode (postfixLoop line assign n .null)
  | 0 => Ensures.failure
  | n + 1 => by
    rw [postfixLoop]
    refine (nextToken_staysFull line).then fun token => ?_
    split
    · exact (makeSysNode_noNode _ _ _).bind (postfixLoop_noNode hassign n)
    · exact (makeSysNode_noNode _ _ _).bind (postfixLoop_noNode hassign n)
    · exact (callParams_noNode hassign n).bind
        ((makeSysNode_noNode _ _ _).bind (postfixLoop_noNode hassign n))
    · exact replayToken_staysFull.then fun _ => .null

theorem procUnaryExpr_noNode (hcast : NoNode cast) (hassign : NoNode assign) (n : ℕ) :
    NoNode (procUnaryExpr line tables cast assign n) := by
  refine (nextToken_staysFull line).then fun token => ?_
  split_ifs
  · exact hcast
  · exact hcast.bind ((finshNodeNew_noNode _).bind (makeSysNode_noNode _ _ _))
  · split
    · exact hcast.bind (makeSysNode_noNode _ _ _)
    · exact replayToken_staysFull.then fun _ =>
        (procPrimaryExpr_noNode hassign).bind (postfixLoop_noNode hassign n)

theorem procExpr_noNode (line : Line) (tables : Tables) : ∀ n,
    NoNode (procCastExpr line tables n) ∧ NoNode (procAssignExpr line tables n)
  | 0 =>
    ⟨by rw [procCastExpr]; exact Ensures.failure, by rw [procAssignExpr]; exact Ensures.failure⟩
  | n + 1 => by
    obtain ⟨hcast, hassign⟩ := procExpr_noNode line tables n
    have hunary : NoNode (procUnaryExpr line tables _ _ n) := procUnaryExpr_noNode hcast hassign n
    rw [procCastExpr, procAssignExpr]
    constructor
    · refine (nextToken_staysFull line).then fun token => ?_
      split_ifs
      · refine (procType_staysFull line).then fun type =>
          (matchToken_staysFull line _).then fun _ => hcast.bind ?_
        rw [if_pos rfl]
        exact replayToken_staysFull.then fun _ => hunary
      · exact replayToken_staysFull.then fun _ => hunary
    · refine (procInclusiveOrExpr_noNode hcast n).bind
        ((nextToken_staysFull line).then fun token => ?_)
      split_ifs
      · exact hassign.bind (makeSysNode_noNode _ _ _)
      · exact replayToken_staysFull.then fun _ => .null

end Full

/-! ### Declarations -/

/-- Between the variables of a declaration: `end` is `NULL` only if no node is left. -/
structure Declaring (line : Line) (k : ℕ) (assigns : Assigns) (token : Option Token) (p : Parser) :
    Prop where
  sane : Sane line p.token
  todo_le : base line p + weight token ≤ k
  comma : token = some .comma → todo line p = base line p
  ended : token = none → p.token.current = none
  broken : assigns.broken = true → Full p

section Declarations
variable {line : Line} {p p' : Parser} {token : Option Token} {k n : ℕ} {tables : Tables}
  {assigns : Assigns} {assign : Node}

theorem declare_ends (h : Sane line p.token) (type : Option FinshType) :
    Ends line (declare line type) p (todo line p) := by
  refine (procIdentifier_ends h).bind fun name p₁ hp₁ hk₁ => Ends.get ?_
  split
  · exact Gives.pure ⟨hp₁, hk₁⟩
  · exact Ends.error (.pure hp₁ hk₁)

theorem declare_staysFull (line : Line) (type : Option FinshType) :
    StaysFull (declare line type) := by
  refine (procIdentifier_staysFull line).bind fun name p a p' hp h => ?_
  rw [get_bind] at h
  cases hinsert : finshVarInsert name type p.vars with
  | none =>
    rw [hinsert] at h
    obtain ⟨rfl, rfl⟩ := Prod.mk.inj (Option.some.inj h)
    exact hp
  | some vars =>
    rw [hinsert] at h
    obtain ⟨rfl, rfl⟩ := Prod.mk.inj (Option.some.inj h)
    exact hp

theorem link_eq (assign : Node) (h : assigns.broken = false) :
    ∃ assigns', assigns.link assign = some assigns' ∧
      (assigns'.broken = true → assign = .null) := by
  rw [Assigns.link]
  split_ifs with hnodes hnull hbroken hnull
  · exact ⟨assigns, rfl, fun _ => hnull⟩
  · exact ⟨_, rfl, fun hb => absurd (h.symm.trans hb) Bool.false_ne_true⟩
  · exact absurd (h.symm.trans hbroken) Bool.false_ne_true
  · exact ⟨_, rfl, fun _ => hnull⟩
  · exact ⟨_, rfl, fun hb => absurd (h.symm.trans hb) Bool.false_ne_true⟩

/-- There is no node only where none was left. -/
theorem makeSysNode_null (h : Sane line p.token) (type : NodeType) (node₁ node₂ : Node) :
    Gives (makeSysNode type node₁ node₂) p fun node p' =>
      (Sane line p'.token ∧ todo line p' ≤ todo line p) ∧ (node = .null → Full p') := by
  obtain ⟨node, p', hmake, hends⟩ := (quiet_makeSysNode type node₁ node₂).ends h
  refine ⟨node, p', hmake, hends, fun hnull => ?_⟩
  by_cases hroom : p.nodes < nodeMax
  · have hallocate : finshNodeAllocate type p =
        some (.node type none .null .null, { p with nodes := p.nodes + 1 }) := if_pos hroom
    rw [makeSysNode, bind_some hallocate] at hmake
    split_ifs at hmake
    · obtain ⟨rfl, -⟩ := Prod.mk.inj (Option.some.inj hmake)
      cases hnull
    · obtain ⟨rfl, -⟩ := Prod.mk.inj (Option.some.inj hmake)
      cases hnull
  · exact (makeSysNode_noNode type node₁ node₂ p node p' (Nat.not_lt.1 hroom) hmake).1

/-- A token that comes in a declaration. -/
theorem Next.declaring (h : Next line p token p') (hk : todo line p ≤ k)
    (hbroken : assigns.broken = true → Full p') : Declaring line k assigns token p' :=
  ⟨h.sane, h.todo_le.trans hk, fun _ => h.todo_eq, fun hnone => h.current.trans hnone, hbroken⟩

theorem Declaring.replayed_le (h : Declaring line k assigns token p) :
    todo line (replayed p) ≤ k := by
  have htodo := h.todo_le
  cases token with
  | none =>
    rw [todo_replayed, h.ended rfl]
    exact htodo
  | some t => exact (Lexer.replayed_le line p).trans htodo

theorem declAssign_gives (h : Sane line p.token) (hk : todo line p < k) (hn : 2 * k + 1 ≤ n)
    (hbroken : assigns.broken = true → Full p) (name : List UInt8) :
    Gives (declAssign line tables n name assigns) p fun r p' => Declaring line k r.1 r.2 p' := by
  have hbase := base_le_todo line p
  have hassign := ((procExpr_operand line tables n).2 k hn p h hk).leaving
    (procExpr_noNode line tables n).2
  refine Gives.bind hassign fun right p₁ ⟨⟨hp₁, hk₁⟩, hfull₁⟩ => ?_
  have hbase₁ := base_le_todo line p₁
  split_ifs with hnull
  -- the `=` makes up for the token that has been put back
  · refine Gives.pure ⟨hp₁, ?_, nofun, nofun, fun hb => (hfull₁ (hbroken hb)).1⟩
    rw [weight_some]
    omega
  · have hnot : assigns.broken = false := by
      rw [← Bool.not_eq_true]
      exact fun hb => hnull (hfull₁ (hbroken hb)).2
    refine Gives.bind ((quiet_finshNodeNewId tables name).ends hp₁) fun left p₂ ⟨hp₂, hk₂⟩ => ?_
    refine Gives.bind (makeSysNode_null hp₂ .assign left right)
      fun assign p₃ ⟨⟨hp₃, hk₃⟩, hfull₃⟩ => ?_
    obtain ⟨assigns', hlink, hnull'⟩ := link_eq assign hnot
    rw [hlink]
    show Gives (nextToken line >>= fun token => pure (assigns', token)) p₃ _
    refine Gives.bind ((nextToken_gives hp₃).leaving (nextToken_staysFull line))
      fun token p₄ ⟨h₄, hfull₄⟩ => Gives.pure ?_
    exact h₄.declaring (by omega) fun hb => hfull₄ (hfull₃ (hnull' hb))

theorem declLoop_ends (type : Option FinshType) : ∀ (n k : ℕ) (assigns : Assigns)
    (token : Option Token) (p : Parser), Declaring line k assigns token p → 2 * k + 1 ≤ n →
      Ends line (declLoop line tables type n assigns token) p k
  | 0, _, _, _, _, _, hn => absurd hn (Nat.not_succ_le_zero _)
  | n + 1, k, assigns, token, p, h, hn => by
    have htodo := h.todo_le
    rw [declLoop]
    split_ifs with hcomma
    · have heq := h.comma hcomma
      rw [hcomma, weight_some] at htodo
      refine Gives.bind (((declare_ends h.sane type)).leaving (declare_staysFull line type))
        fun name p₁ ⟨⟨hp₁, hk₁⟩, hfull₁⟩ => ?_
      refine Gives.bind ((nextToken_gives hp₁).leaving (nextToken_staysFull line))
        fun token p₂ ⟨h₂, hfull₂⟩ => ?_
      have hbroken₂ : assigns.broken = true → Full p₂ :=
        fun hb => hfull₂ (hfull₁ (h.broken hb))
      have htodo₂ := h₂.todo_le
      have hfresh₂ := h₂.todo_eq
      split_ifs with hset
      · rw [hset, weight_some] at htodo₂
        refine Gives.bind (declAssign_gives h₂.sane (k := k - 1) (by omega) (by omega) hbroken₂
          name) fun r p₃ h₃ => ?_
        exact (declLoop_ends type n (k - 1) r.1 r.2 p₃ h₃ (by omega)).mono (Nat.sub_le k 1)
      · have hdeclaring : Declaring line (k - 1) assigns token p₂ :=
          h₂.declaring (by omega) hbroken₂
        exact (declLoop_ends type n (k - 1) assigns token p₂ hdeclaring (by omega)).mono
          (Nat.sub_le k 1)
    · have hreplayed := h.replayed_le
      exact Ends.bind (checkToken_ends h.sane ((todo_le_replayed line p).trans hreplayed)
        fun _ => hreplayed) fun _ p₁ hp₁ hk₁ => .pure hp₁ hk₁

theorem procVariableDecl_replayed (h : Sane line p.token) (hreplay : p.token.replay = true)
    (hdecl : isDecl p.token.current = true) (hn : 2 * base line p + 1 ≤ n) :
    Ends line (procVariableDecl line tables n) p (base line p) := by
  refine (procType_replayed h hreplay hdecl).bind fun type p₁ hp₁ hk₁ => ?_
  refine (declare_ends hp₁ type).bind fun name p₂ hp₂ hk₂ => ?_
  refine Ends.next hp₂ fun token p₃ h₃ => ?_
  have htodo := h₃.todo_le
  have hfresh := h₃.todo_eq
  have hnone : Assigns.none.broken = true → Full p₃ := nofun
  split_ifs with hcomma hset
  · exact declLoop_ends type n _ _ _ p₃ (h₃.declaring (hk₂.trans hk₁) hnone) hn
  · rw [hset, weight_some] at htodo
    refine Gives.bind (declAssign_gives h₃.sane (by omega) hn hnone name) fun r p₄ h₄ => ?_
    exact declLoop_ends type n _ r.1 r.2 p₄ h₄ hn
  · exact .pure h₃.sane (by omega)
  · exact Ends.error (.pure h₃.sane (by rw [todo_noted]; omega))

/-! ### Statements -/

theorem procExprStatement_ends (h : Sane line p.token) (hn : 2 * todo line p + 3 ≤ n) :
    Ends line (procExprStatement line tables n) p (base line p) := by
  refine Ends.next h fun token p₁ h₁ => ?_
  have hbase := h₁.base_le
  have hfresh := h₁.todo_eq
  have hreplayed := h₁.replayed_le
  split_ifs
  · exact .pure h₁.sane (by omega)
  · refine Ends.replay ?_
    refine ((procExpr_operand line tables n).2 (todo line p + 1) (by omega) (replayed p₁) h₁.sane
      (by omega)).bind fun node p₂ hp₂ hk₂ => ?_
    rw [base_replayed] at hk₂
    refine (matchToken_ends hp₂).bind fun _ p₃ hp₃ hk₃ => ?_
    exact .pure hp₃ (by omega)

/-- A statement takes its first token, and more. -/
theorem procStatement_ends (h : Next line p token p') (hn : 2 * todo line p + 3 ≤ n) :
    Ends line (procStatement line tables n token) p' (base line p') := by
  have htodo := h.todo_le
  have hreplayed := h.replayed_le
  refine Ends.replay ?_
  split_ifs with hdecl
  · rw [← h.current] at hdecl
    exact procVariableDecl_replayed (p := replayed p') h.sane rfl hdecl
      (by rw [base_replayed]; omega)
  · exact procExprStatement_ends (p := replayed p') h.sane (by omega)

theorem statementLoop_ends : ∀ (n k : ℕ) (nodes : List Node) (node : Node) (p : Parser),
    Sane line p.token → todo line p ≤ k → 2 * k + 4 ≤ n →
      Ends line (statementLoop line tables n nodes node) p k
  | 0, _, _, _, _, _, _, hn => by omega
  | n + 1, k, nodes, node, p, hp, hk, hn => by
    rw [statementLoop]
    refine Ends.next hp fun token p₁ h₁ => ?_
    have htodo := h₁.todo_le
    have hfresh := h₁.todo_eq
    by_cases hend : token = none ∨ token = some .bad
    · rw [if_pos hend]
      exact .pure h₁.sane (by omega)
    · have hweight : weight token = 1 := if_neg fun hnone => hend (.inl hnone)
      rw [if_neg hend]
      refine (procStatement_ends h₁ (by omega)).bind fun next p₂ hp₂ hk₂ => ?_
      have hloop : ∀ nodes node p₃, Sane line p₃.token → todo line p₃ ≤ todo line p₂ →
          Ends line (statementLoop line tables n nodes node) p₃ k := by
        intro nodes node p₃ hp₃ hk₃
        exact (statementLoop_ends n (k - 1) nodes node p₃ hp₃ (by omega) (by omega)).mono
          (Nat.sub_le k 1)
      split_ifs
      · exact hloop _ _ p₂ hp₂ le_rfl
      · exact hloop _ _ p₂ hp₂ le_rfl
      · refine Ends.next hp₂ fun token p₃ h₃ => ?_
        exact hloop _ _ p₃ h₃.sane (h₃.todo_eq.le.trans ((Nat.le_add_right _ _).trans h₃.todo_le))

/-- So many rounds are enough for a line of whole tokens. -/
theorem finshParserRun_ends (hwhole : Whole (text line)) (p : Parser) :
    ∃ n node p', finshParserRun line tables n p = some (node, p') := by
  have hsane : Sane line (finshTokenInit p.token.errno) :=
    .inr ⟨_, init_cursor line _, List.suffix_rfl, hwhole⟩
  have hrun : ∀ p₀ : Parser, Sane line p₀.token → ∃ n, Ends line (do
      let token ← nextToken line
      if token = none ∨ token = some .bad then pure .null
      else do
        let root ← procStatement line tables n token
        if root = .null then pure .null
        else statementLoop line tables n [] root) p₀ (todo line p₀) := by
    intro p₀ hp₀
    refine ⟨2 * todo line p₀ + 4, Ends.next hp₀ fun token p₁ h₁ => ?_⟩
    have htodo := h₁.todo_le
    have hfresh := h₁.todo_eq
    split_ifs
    · exact .pure h₁.sane (by omega)
    · refine (procStatement_ends h₁ (by omega)).bind fun root p₂ hp₂ hk₂ => ?_
      split_ifs
      · exact .pure hp₂ (by omega)
      · exact statementLoop_ends _ _ [] root p₂ hp₂ (by omega) le_rfl
  obtain ⟨n, node, p', h, -⟩ := hrun { p with token := finshTokenInit p.token.errno } hsane
  exact ⟨n, node, p', h⟩

end Declarations

/-! ### A name at the end of the text -/

/-- The text is one name. -/
structure NameText (line : Line) (name : List UInt8) : Prop where
  text_eq : text line = name
  first : ∃ c r, name = c :: r ∧ isDigit c = false
  chars : ∀ c ∈ name, isName c = true
  length_lt : name.length < stringMax
  identifier : tokenMatchName name = .identifier name

/-- The name is the last token, and the position is at the start of the line. -/
structure Round (name : List UInt8) (p : Parser) : Prop where
  cursor : p.token.cursor = ⟨false, 0⟩
  current : p.token.current = some (.identifier name)
  string : cstring p.token.string = name

/-- Besides, something that is not about tokens. -/
def RoundWith (name : List UInt8) (K : ℕ → List VarEntry → Prop) (p : Parser) : Prop :=
  Round name p ∧ K p.nodes p.vars

section Endless
variable {line : Line} {name : List UInt8} {K : ℕ → List VarEntry → Prop} {E : Node → Prop}
  {α : Type} {Q : α → Parser → Prop} {operand cast assign : Proc Node} {ops : Token → Option Op}
  {tables : Tables} {p : Parser}

theorem isBlank_of_isName {c : UInt8} (h : isName c = true) : isBlank c = false := by
  rw [← Bool.not_eq_true, isBlank]
  simp only [Bool.or_eq_true, decide_eq_true_eq]
  rintro ((rfl | rfl) | rfl) <;> cases h

/-- The name is found once more, and again the position is at the start. -/
theorem NameText.tokenRun_eq (h : NameText line name) {t : FinshToken}
    (hcursor : t.cursor = ⟨false, 0⟩) : ∃ string, cstring string = name ∧
      tokenRun line t = some { t with current := some (.identifier name), string } := by
  obtain ⟨c, r, hname, hdigit⟩ := h.first
  have hs : c :: r <:+ text line := by rw [h.text_eq, hname]
  have hstart : t.cursor = cursorAt line (some (c :: r)) := by
    rw [hcursor, cursorAt, h.text_eq, hname, Nat.sub_self]
  have htrim : trim (c :: r) = c :: r := by
    refine List.dropWhile_cons_of_neg ?_
    rw [isBlank_of_isName (h.chars c (hname ▸ List.mem_cons_self))]
    exact Bool.false_ne_true
  have htake : (c :: r).takeWhile isName = name := by
    rw [← hname]
    exact List.takeWhile_eq_self_iff.2 h.chars
  have hdrop : (c :: r).dropWhile isName = [] := by
    rw [← hname]
    exact List.dropWhile_eq_nil_iff.2 h.chars
  have hroom : (name ++ [0]).length ≤ stringMax := by
    rw [List.length_append, List.length_singleton]
    exact h.length_lt
  have hzero : 0 ∉ name := fun hmem => absurd (h.chars 0 hmem) (by decide)
  have hstore : store (name ++ [0]) t.string = some (name ++ [0] ++ t.string.drop _) := if_pos hroom
  have hstring := cstring_store hzero hstore
  have hne : name ≠ [] := by
    rw [hname]
    exact List.cons_ne_nil c r
  refine ⟨_, hstring, ?_⟩
  rw [tokenRun, hstart, tokenTrimSpace_eq hs, htrim]
  simp only [Option.bind_eq_bind, Option.bind_some, unread, reduceCtorEq, if_false,
    tokenGetString_eq hs hdigit, htake, hdrop, hstore, Option.map_some, Bool.false_eq_true,
    hstring, hne, h.identifier]
  rw [← hstart, hcursor]

theorem nextToken_round (h : NameText line name) : Ensures (RoundWith name K) (nextToken line)
    fun token p => token = some (.identifier name) ∧ RoundWith name K p := by
  rintro p token p' ⟨hround, hK⟩ hnext
  obtain ⟨r, hr, heq⟩ := Option.map_eq_some_iff.1 hnext
  obtain ⟨rfl, rfl⟩ := Prod.mk.inj heq
  cases hreplay : p.token.replay with
  | true =>
    rw [finshTokenToken, if_pos hreplay] at hr
    obtain rfl := Option.some.inj hr
    exact ⟨hround.current, ⟨hround.cursor, hround.current, hround.string⟩, hK⟩
  | false =>
    obtain ⟨string, hstring, hrun⟩ := h.tokenRun_eq hround.cursor
    rw [finshTokenToken_fresh hreplay, hrun] at hr
    obtain rfl := Option.some.inj hr
    exact ⟨rfl, ⟨hround.cursor, rfl, hstring⟩, hK⟩

theorem ensures_next {f : Option Token → Proc α} (h : NameText line name)
    (hf : Ensures (RoundWith name K) (f (some (.identifier name))) Q) :
    Ensures (RoundWith name K) (nextToken line >>= f) Q := by
  refine (nextToken_round h).bind fun token p a p' => ?_
  rintro ⟨rfl, hp⟩
  exact hf p a p' hp

theorem ensures_replay {f : Unit → Proc α} (hf : Ensures (RoundWith name K) (f ()) Q) :
    Ensures (RoundWith name K) (replayToken >>= f) Q :=
  fun p a p' hp h => hf (replayed p) a p' ⟨⟨hp.1.cursor, hp.1.current, hp.1.string⟩, hp.2⟩ h

theorem ensures_error {error : FinshError} {f : Unit → Proc α}
    (hf : Ensures (RoundWith name K) (f ()) Q) :
    Ensures (RoundWith name K) (errorSet error >>= f) Q :=
  fun p a p' hp h => hf (noted error p) a p' ⟨⟨hp.1.cursor, hp.1.current, hp.1.string⟩, hp.2⟩ h

/-- What is behind the name is the name again, and is put back. -/
theorem ensures_peek (h : NameText line name) {f : Option Token → Proc Node} {node : Node}
    (hE : E node) (hf : f (some (.identifier name)) = do replayToken; pure node) :
    Ensures (RoundWith name K) (nextToken line >>= f) fun node p => E node ∧ Round name p := by
  refine ensures_next h ?_
  rw [hf]
  exact ensures_replay (.pure fun p hp => ⟨hE, hp.1⟩)

/-- A procedure that takes the name, and leaves such a node. -/
def Takes (name : List UInt8) (K : ℕ → List VarEntry → Prop) (E : Node → Prop) (m : Proc Node) :
    Prop :=
  Ensures (RoundWith name K) m fun node p => E node ∧ Round name p

/-- Then something else is done with the node. -/
theorem Takes.bind (hop : Takes name K E operand) {f : Node → Proc α}
    (hf : ∀ node, E node → Ensures (RoundWith name fun _ _ => True) (f node) Q) :
    Ensures (RoundWith name K) (operand >>= f) Q :=
  Ensures.bind hop fun node p a p' hp h => hf node hp.1 p a p' ⟨hp.2, trivial⟩ h

theorem procBinary_takes (h : NameText line name) (hops : ops (.identifier name) = none)
    (hop : Takes name K E operand) (n : ℕ) : Takes name K E (procBinary line ops operand n) := by
  refine hop.bind fun node hE => ?_
  cases n with
  | zero => exact Ensures.failure
  | succ n =>
    rw [binaryLoop]
    refine ensures_peek h hE ?_
    simp only [Option.bind_some, hops]

theorem procInclusiveOrExpr_takes (h : NameText line name) (hcast : Takes name K E cast) (n : ℕ) :
    Takes name K E (procInclusiveOrExpr line cast n) :=
  procBinary_takes h rfl (procBinary_takes h rfl (procBinary_takes h rfl (procBinary_takes h rfl
    (procBinary_takes h rfl (procBinary_takes h rfl hcast n) n) n) n) n) n

theorem procIdentifier_round (h : NameText line name) :
    Ensures (RoundWith name K) (procIdentifier line) fun id p =>
      id = name.take 16 ∧ RoundWith name K p := by
  have hmatch : Ensures (RoundWith name K) (matchToken line isIdentifier) fun _ =>
      RoundWith name K := ensures_next h (.pure fun _ hp => hp)
  refine hmatch.bind fun _ p id p' hp hid => ?_
  obtain ⟨rfl, rfl⟩ := Prod.mk.inj (Option.some.inj hid)
  exact ⟨by rw [hp.1.string], hp⟩

theorem procPrimaryExpr_takes (h : NameText line name)
    (hid : Takes name K E (finshNodeNewId tables (name.take 16))) :
    Takes name K E (procPrimaryExpr line tables assign) := by
  have hname : isIdentifier (some (.identifier name)) = true := rfl
  refine ensures_next h ?_
  rw [if_pos hname]
  refine ensures_replay ((procIdentifier_round h).bind fun id p node p' => ?_)
  rintro ⟨rfl, hp⟩
  exact hid p node p' hp

theorem procUnaryExpr_takes (h : NameText line name)
    (hid : Takes name K E (finshNodeNewId tables (name.take 16))) (n : ℕ) :
    Takes name K E (procUnaryExpr line tables cast assign n) := by
  refine ensures_next h ?_
  rw [if_neg (by simp), if_neg (by simp)]
  refine ensures_replay ((procPrimaryExpr_takes h hid).bind fun node hE => ?_)
  cases n with
  | zero => exact Ensures.failure
  | succ n =>
    rw [postfixLoop]
    exact ensures_peek h hE rfl

theorem procAssignExpr_takes (h : NameText line name)
    (hid : Takes name K E (finshNodeNewId tables (name.take 16))) (n : ℕ) :
    Takes name K E (procAssignExpr line tables n) := by
  cases n with
  | zero =>
    rw [procAssignExpr]
    exact Ensures.failure
  | succ n =>
    have hcast : Takes name K E (procCastExpr line tables n) := by
      cases n with
      | zero =>
        rw [procCastExpr]
        exact Ensures.failure
      | succ n =>
        rw [procCastExpr]
        refine ensures_next h ?_
        rw [if_neg (by simp)]
        exact ensures_replay (procUnaryExpr_takes h hid n)
    rw [procAssignExpr]
    refine (procInclusiveOrExpr_takes h hcast n).bind fun node hE => ensures_peek h hE ?_
    rw [if_neg (by simp)]

theorem procStatement_takes (h : NameText line name)
    (hid : Takes name K E (finshNodeNewId tables (name.take 16))) (n : ℕ) :
    Takes name K E (procStatement line tables n (some (.identifier name))) := by
  refine ensures_replay ?_
  rw [if_neg (by simp [isDecl, Token.isDecl, Token.isBaseType])]
  refine ensures_next h ?_
  rw [if_neg (by simp)]
  refine ensures_replay ((procAssignExpr_takes h hid n).bind fun node hE => ?_)
  have hmatch : Ensures (RoundWith name fun _ _ => True) (matchToken line (· = some .semicolon))
      fun _ => Round name := by
    refine ensures_next h ?_
    have hno : checkToken (decide (some (Token.identifier name) = some Token.semicolon)) =
        errorSet .invalidToken >>= fun _ => replayToken := if_neg (by simp)
    rw [hno]
    refine ensures_error fun p a p' hp hreplay => ?_
    obtain ⟨rfl, rfl⟩ := Prod.mk.inj (Option.some.inj hreplay)
    exact ⟨hp.1.cursor, hp.1.current, hp.1.string⟩
  exact hmatch.bind fun _ => .pure fun p hp => ⟨hE, hp⟩

theorem Quiet.takes {m : Proc Node} (hm : Quiet m) :
    Takes name (fun _ _ => True) (fun _ => True) m := by
  intro p node p' hp h
  obtain ⟨node', p₁, h₁, hcursor, -, hcurrent, hstring⟩ := hm p
  obtain ⟨rfl, rfl⟩ := Prod.mk.inj (Option.some.inj (h.symm.trans h₁))
  exact ⟨trivial, hcursor.trans hp.1.cursor, hcurrent.trans hp.1.current,
    (congrArg cstring hstring).trans hp.1.string⟩

/-- A name that is known, while there is a node left. -/
theorem finshNodeNewId_takes (tables : Tables) (id : List UInt8) :
    Takes name (fun nodes vars => (idEntry tables id vars).isSome ∧ nodes < nodeMax) (· ≠ .null)
      (finshNodeNewId tables id) := by
  rintro p node p' ⟨hround, hknown, hroom⟩ h
  obtain ⟨entry, hentry⟩ := Option.isSome_iff_exists.1 hknown
  have hallocate : finshNodeAllocate (.id entry) p =
      some (.node (.id entry) none .null .null, { p with nodes := p.nodes + 1 }) := if_pos hroom
  have hnew : finshNodeNewId tables id p = finshNodeNew (.id entry) p := by
    rw [finshNodeNewId, get_bind, hentry]
  rw [hnew, finshNodeNew, bind_some hallocate, if_neg (by simp)] at h
  obtain ⟨rfl, rfl⟩ := Prod.mk.inj (Option.some.inj h)
  exact ⟨by simp, hround.cursor, hround.current, hround.string⟩

/-- The statements behind the first one never end. -/
theorem statementLoop_round (h : NameText line name) : ∀ (n : ℕ) (nodes : List Node) (node : Node),
    Ensures (RoundWith name fun _ _ => True) (statementLoop line tables n nodes node)
      fun _ _ => False
  | 0, _, _ => Ensures.failure
  | n + 1, nodes, node => by
    have hname : isIdentifier (some (.identifier name)) = true := rfl
    rw [statementLoop]
    refine ensures_next h ?_
    rw [if_neg (by simp)]
    refine (procStatement_takes h (quiet_finshNodeNewId tables _).takes n).bind fun next _ => ?_
    by_cases hnull : next = .null
    · rw [if_neg (not_not.2 hnull), if_pos (.inl hname)]
      exact statementLoop_round h n _ _
    · rw [if_pos hnull]
      exact statementLoop_round h n _ _

/-- INCORRECT where the text is a name that is known: `finsh_parser_run` takes the name again and
    again, for ever. -/
theorem finshParserRun_endless (h : NameText line name)
    (hknown : (idEntry tables (name.take 16) p.vars).isSome) (hroom : p.nodes < nodeMax) (n : ℕ) :
    finshParserRun line tables n p = none := by
  obtain ⟨string, hstring, hrun⟩ := h.tokenRun_eq (t := finshTokenInit p.token.errno) rfl
  rw [Option.eq_none_iff_forall_ne_some]
  rintro ⟨node, p'⟩ hresult
  have hnext : nextToken line { p with token := finshTokenInit p.token.errno } =
      some (some (.identifier name), { p with token :=
        { finshTokenInit p.token.errno with current := some (.identifier name), string } }) := by
    rw [nextToken, finshTokenToken_fresh rfl, hrun]
    rfl
  replace hresult : (nextToken line >>= fun token =>
      if token = none ∨ token = some .bad then pure .null
      else do
        let root ← procStatement line tables n token
        if root = .null then pure .null
        else statementLoop line tables n [] root)
      { p with token := finshTokenInit p.token.errno } = some (node, p') := hresult
  rw [bind_some hnext, if_neg (by simp)] at hresult
  have hstatement := procStatement_takes h (finshNodeNewId_takes tables (name.take 16)) n
  have hnever := hstatement.bind (Q := fun _ _ => False)
    (f := fun root => if root = .null then pure .null else statementLoop line tables n [] root)
    fun root hroot => by
      rw [if_neg hroot]
      exact statementLoop_round h n [] root
  refine hnever _ node p' ?_ hresult
  exact ⟨⟨rfl, rfl, hstring⟩, hknown, hroom⟩

theorem no_nul_name : (0 : UInt8) ∉ [97, 10, 59] := by decide

/-- A system variable, alone before the line feed. -/
theorem finshParserRun_endless_name : ¬∃ n node p', finshParserRun ⟨[97, 10, 59], no_nul_name⟩
    ⟨fun _ => some 0, fun _ => none⟩ n ⟨finshTokenInit none, 0, []⟩ = some (node, p') := by
  rintro ⟨n, node, p', h⟩
  have hname : NameText ⟨[97, 10, 59], no_nul_name⟩ [97] :=
    ⟨rfl, ⟨97, [], rfl, rfl⟩, List.forall_mem_singleton.2 rfl, by decide, rfl⟩
  rw [finshParserRun_endless hname rfl (by decide)] at h
  cases h

end Endless

/-- The calls of `finsh_token_token` take the position on, and `finsh_parser_run` ends, whatever is
    in the tables, the variables and the nodes. -/
def Terminates (line : Line) : Prop :=
  Advances line ∧ ∀ tables p, ∃ n node p', finshParserRun line tables n p = some (node, p')

/-- CORRECT: lexer and parser end on a line if and only if its text, which a line feed ends, is made
    of whole tokens: none of them runs into the end of the text, and none is too long for where it
    is stored. -/
theorem terminates_iff (line : Line) : Terminates line ↔ Whole (text line) :=
  ⟨fun h => (advances_iff_whole line).1 h.1,
    fun h => ⟨(advances_iff_whole line).2 h, fun _ p => finshParserRun_ends h p⟩⟩

/-- A name before a line feed: the position goes back to the start of the line. -/
theorem name_starts_over : ¬ Terminates ⟨[97, 10, 59], no_nul_name⟩ := by
  intro h
  obtain ⟨token, t', htoken, hpos⟩ := h.1 _ (.init none) rfl
  have hcall : finshTokenToken ⟨[97, 10, 59], no_nul_name⟩ (finshTokenInit none) =
      some (some (.identifier [97]), ⟨⟨false, 0⟩, false, some (.identifier [97]),
        [97, 0] ++ List.replicate 126 0, none⟩) := by rfl
  rw [hcall] at htoken
  obtain ⟨rfl, rfl⟩ := Prod.mk.inj (Option.some.inj htoken)
  exact absurd (hpos (by simp)) (Nat.not_lt_zero _)

end EasyCore.Finsh.Lexer
