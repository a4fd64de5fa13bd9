import EasyCore.Finsh.Advance
import EasyCore.Finsh.Recovery
import EasyCore.Lib.Procs

/-! What the parser has to do yet, where the lexer goes on: twice the text that is left, and one
    more for a token that has been put back. No procedure makes it more, and an expression takes the
    token that has been put back, whatever it is. -/

namespace EasyCore.Finsh.Lexer
open Procs

/-- Twice the text that is left. -/
def base (line : Line) (p : Parser) : ℕ := 2 * rest line p.token.cursor

/-- The end of the line does not count. -/
def weight (token : Option Token) : ℕ := if token = none then 0 else 1

/-- What is to do yet. -/
def todo (line : Line) (p : Parser) : ℕ :=
  base line p + if p.token.replay then weight p.token.current else 0

section Measure
variable {line : Line} {p : Parser} {token : Option Token}

theorem weight_le (token : Option Token) : weight token ≤ 1 := by
  rw [weight]
  split_ifs <;> omega

@[simp] theorem weight_some (t : Token) : weight (some t) = 1 := rfl

theorem weight_bind {α : Type} {f : Token → Option α} {a : α} (h : token.bind f = some a) :
    weight token = 1 := by
  obtain ⟨t, rfl, _⟩ := Option.bind_eq_some_iff.1 h
  rfl

theorem base_le_todo (line : Line) (p : Parser) : base line p ≤ todo line p := Nat.le_add_right _ _

theorem todo_fresh (h : p.token.replay = false) : todo line p = base line p := by
  simp [todo, h]

/-- The token is put back. -/
def replayed (p : Parser) : Parser := { p with token.replay := true }

@[simp] theorem base_replayed (line : Line) (p : Parser) :
    base line (replayed p) = base line p := rfl

theorem todo_replayed (line : Line) (p : Parser) :
    todo line (replayed p) = base line p + weight p.token.current := rfl

theorem todo_le_replayed (line : Line) (p : Parser) : todo line p ≤ todo line (replayed p) := by
  rw [todo, todo_replayed]
  split_ifs <;> omega

theorem replayed_le (line : Line) (p : Parser) : todo line (replayed p) ≤ base line p + 1 := by
  rw [todo_replayed]
  exact Nat.add_le_add_left (weight_le _) _

/-- An error is noted. -/
def noted (error : FinshError) (p : Parser) : Parser := { p with token.errno := some error }

@[simp] theorem base_noted (line : Line) (error : FinshError) (p : Parser) :
    base line (noted error p) = base line p := rfl

@[simp] theorem todo_noted (line : Line) (error : FinshError) (p : Parser) :
    todo line (noted error p) = todo line p := rfl

end Measure

/-! ### Tokens -/

/-- What taking a token does. -/
structure Next (line : Line) (p : Parser) (token : Option Token) (p' : Parser) : Prop where
  sane : Sane line p'.token
  fresh : p'.token.replay = false
  current : p'.token.current = token
  base_le : base line p' ≤ base line p
  todo_le : base line p' + weight token ≤ todo line p
  again : p.token.replay = true → token = p.token.current

/-- A procedure ends, with no more to do than that. -/
def Ends {α : Type} (line : Line) (m : Proc α) (p : Parser) (k : ℕ) : Prop :=
  Gives m p fun _ p' => Sane line p'.token ∧ todo line p' ≤ k

/-- A procedure that leaves the tokens alone. -/
def Quiet {α : Type} (m : Proc α) : Prop :=
  ∀ p, Gives m p fun _ p' => p'.token.cursor = p.token.cursor ∧ p'.token.replay = p.token.replay ∧
    p'.token.current = p.token.current ∧ p'.token.string = p.token.string

section Rules
variable {line : Line} {p p' : Parser} {token : Option Token} {k k' : ℕ} {α β : Type}
  {m : Proc α} {f : α → Proc β}

theorem Next.todo_eq (h : Next line p token p') : todo line p' = base line p' := todo_fresh h.fresh

theorem Next.replayed_le (h : Next line p token p') : todo line (replayed p') ≤ todo line p := by
  rw [todo_replayed, h.current]
  exact h.todo_le

theorem nextToken_gives (h : Sane line p.token) : Gives (nextToken line) p (Next line p) := by
  cases hreplay : p.token.replay with
  | true =>
    refine ⟨p.token.current, { p with token.replay := false }, ?_, h, rfl, rfl, le_rfl, ?_,
      fun _ => rfl⟩
    · simp [nextToken, finshTokenToken, hreplay]
    · simp [todo, hreplay, base]
  | false =>
    obtain ⟨t', hrun, hsane, hreplay', hle, hcurrent⟩ := tokenRun_sane h hreplay
    refine ⟨t'.current, { p with token := t' }, ?_, hsane, hreplay', rfl, ?_, ?_, ?_⟩
    · rw [nextToken, finshTokenToken_fresh hreplay, hrun]
      rfl
    · exact Nat.mul_le_mul_left 2 hle
    · rw [todo_fresh hreplay, weight]
      split_ifs with hnone
      · exact Nat.mul_le_mul_left 2 hle
      · have hlt := (hcurrent hnone).1
        simp only [base]
        omega
    · intro htrue
      rw [hreplay] at htrue
      cases htrue

theorem Ends.pure {a : α} (h : Sane line p.token) (hk : todo line p ≤ k) :
    Ends line (pure a : Proc α) p k := Gives.pure ⟨h, hk⟩

theorem Ends.mono (h : Ends line m p k) (hk : k ≤ k') : Ends line m p k' :=
  Gives.mono h fun _ _ h => ⟨h.1, h.2.trans hk⟩

theorem Ends.bind (h : Ends line m p k)
    (hf : ∀ a p', Sane line p'.token → todo line p' ≤ k → Ends line (f a) p' k') :
    Ends line (m >>= f) p k' :=
  Gives.bind h fun a p' h => hf a p' h.1 h.2

theorem Ends.next {f : Option Token → Proc β} (h : Sane line p.token)
    (hf : ∀ token p', Next line p token p' → Ends line (f token) p' k) :
    Ends line (nextToken line >>= f) p k :=
  Gives.bind (nextToken_gives h) hf

theorem Ends.replay {f : Unit → Proc β} (h : Ends line (f ()) (replayed p) k) :
    Ends line (replayToken >>= f) p k := h

theorem Ends.error {error : FinshError} {f : Unit → Proc β}
    (h : Ends line (f ()) (noted error p) k) : Ends line (errorSet error >>= f) p k := h

theorem Ends.get {f : Parser → Proc β} (h : Ends line (f p) p k) : Ends line (get >>= f) p k := h

/-- The last token is put back, and that is all. -/
theorem Next.replay {a : α} (h : Next line p token p') :
    Ends line (do replayToken; Pure.pure a) p' (todo line p) :=
  Ends.replay (.pure h.sane h.replayed_le)

/-! ### Procedures that leave the tokens alone -/

theorem Quiet.bind (h : Quiet m) (hf : ∀ a, Quiet (f a)) : Quiet (m >>= f) := by
  intro p
  refine Gives.bind (h p) fun a p₁ h₁ => (hf a p₁).mono fun _ p₂ h₂ => ?_
  exact ⟨h₂.1.trans h₁.1, h₂.2.1.trans h₁.2.1, h₂.2.2.1.trans h₁.2.2.1, h₂.2.2.2.trans h₁.2.2.2⟩

theorem Quiet.pure (a : α) : Quiet (Pure.pure a : Proc α) :=
  fun _ => Gives.pure ⟨rfl, rfl, rfl, rfl⟩

theorem Quiet.ends (hm : Quiet m) (h : Sane line p.token) : Ends line m p (todo line p) := by
  refine Gives.mono (hm p) fun _ p' ⟨hcursor, hreplay, hcurrent, _⟩ => ⟨?_, ?_⟩
  · simpa only [Sane, hcursor] using h
  · rw [todo, todo, base, base, hcursor, hreplay, hcurrent]

theorem quiet_errorSet (error : FinshError) : Quiet (errorSet error) :=
  fun _ => ⟨_, _, rfl, rfl, rfl, rfl, rfl⟩

theorem quiet_finshNodeAllocate (type : NodeType) : Quiet (finshNodeAllocate type) := by
  intro p
  by_cases h : p.nodes < nodeMax
  · exact ⟨_, _, if_pos h, rfl, rfl, rfl, rfl⟩
  · exact ⟨_, _, if_neg h, rfl, rfl, rfl, rfl⟩

theorem quiet_finshNodeNew (type : NodeType) : Quiet (finshNodeNew type) := by
  refine (quiet_finshNodeAllocate type).bind fun node => ?_
  split_ifs
  · exact (quiet_errorSet _).bind fun _ => .pure _
  · exact .pure _

theorem quiet_get : Quiet (get : Proc Parser) := fun _ => ⟨_, _, rfl, rfl, rfl, rfl, rfl⟩

theorem quiet_finshNodeNewId (tables : Tables) (name : List UInt8) :
    Quiet (finshNodeNewId tables name) := by
  refine quiet_get.bind fun p => ?_
  split
  · exact quiet_finshNodeNew _
  · exact (quiet_errorSet _).bind fun _ => .pure _

theorem quiet_makeSysNode (type : NodeType) (node₁ node₂ : Node) :
    Quiet (makeSysNode type node₁ node₂) := by
  refine (quiet_finshNodeAllocate type).bind fun node => ?_
  split_ifs
  · exact .pure _
  · exact (quiet_errorSet _).bind fun _ => .pure _

/-! ### Types and names -/

theorem checkToken_ends {ok : Bool} (h : Sane line p.token) (hk : todo line p ≤ k)
    (hreplay : ok = false → todo line (replayed p) ≤ k) : Ends line (checkToken ok) p k := by
  cases ok with
  | true => exact .pure h hk
  | false => exact Gives.pure ⟨h, hreplay rfl⟩

theorem matchToken_ends {ok : Option Token → Bool} (h : Sane line p.token) :
    Ends line (matchToken line ok) p (todo line p) :=
  Ends.next h fun _ _ h₁ => checkToken_ends h₁.sane
    (h₁.todo_eq.le.trans ((Nat.le_add_right _ _).trans h₁.todo_le)) fun _ => h₁.replayed_le

/-- The token that has been put back is the one. -/
theorem matchToken_replayed {ok : Option Token → Bool} (h : Sane line p.token)
    (hreplay : p.token.replay = true) (hok : ok p.token.current = true) :
    Ends line (matchToken line ok) p (base line p) := by
  refine Ends.next h fun token p₁ h₁ => ?_
  refine checkToken_ends h₁.sane (h₁.todo_eq.le.trans h₁.base_le) fun hno => ?_
  rw [h₁.again hreplay, hok] at hno
  cases hno

theorem procIdentifier_ends (h : Sane line p.token) :
    Ends line (procIdentifier line) p (todo line p) :=
  (matchToken_ends h).bind fun _ _ h₁ hk => Ends.get (.pure h₁ hk)

theorem procIdentifier_replayed (h : Sane line p.token) (hreplay : p.token.replay = true)
    (hok : isIdentifier p.token.current = true) :
    Ends line (procIdentifier line) p (base line p) :=
  (matchToken_replayed h hreplay hok).bind fun _ _ h₁ hk => Ends.get (.pure h₁ hk)

theorem typeReturn_ends (h : Next line p token p') : Ends line typeReturn p' (todo line p) :=
  Ends.replay (Ends.error (.pure h.sane h.replayed_le))

theorem typePointer_ends (h : Sane line p.token) (type : Option FinshType) :
    Ends line (typePointer line type) p (todo line p) := by
  refine Ends.next h fun token p₁ h₁ => ?_
  split_ifs
  · exact .pure h₁.sane (h₁.todo_eq.le.trans ((Nat.le_add_right _ _).trans h₁.todo_le))
  · exact h₁.replay

/-- A type that follows a token that has been taken. -/
theorem Next.typePointer (h : Next line p token p') (type : Option FinshType) :
    Ends line (typePointer line type) p' (base line p') :=
  (typePointer_ends h.sane type).mono h.todo_eq.le

theorem typeUnsigned_ends (h : Sane line p.token) :
    Ends line (typeUnsigned line) p (todo line p) := by
  refine Ends.next h fun token p₁ h₁ => ?_
  have htodo := h₁.todo_le
  split_ifs
  · split
    · exact (h₁.typePointer _).mono (by omega)
    · exact typeReturn_ends h₁
  · exact Ends.replay (Ends.error ((typePointer_ends (p := noted .expectType (replayed p₁))
      h₁.sane none).mono h₁.replayed_le))

theorem procType_ends (h : Sane line p.token) : Ends line (procType line) p (todo line p) := by
  refine Ends.next h fun token p₁ h₁ => ?_
  have htodo := h₁.todo_le
  have hfresh := h₁.todo_eq
  split_ifs
  · exact (typeUnsigned_ends h₁.sane).mono (by omega)
  · split
    · exact (h₁.typePointer _).mono (by omega)
    · exact typeReturn_ends h₁

theorem baseType_of_isDecl (h : isDecl token = true) (hunsigned : token ≠ some .unsigned) :
    token.bind Token.baseType ≠ none := by
  rcases token with _ | token
  · cases h
  · cases token with
    | unsigned => exact absurd rfl hunsigned
    | void | char | short | int | long => nofun
    | _ => cases h

/-- The type that begins with the token that has been put back. -/
theorem procType_replayed (h : Sane line p.token) (hreplay : p.token.replay = true)
    (hdecl : isDecl p.token.current = true) : Ends line (procType line) p (base line p) := by
  refine Ends.next h fun token p₁ h₁ => ?_
  have hfresh := h₁.todo_eq
  have hbase := h₁.base_le
  rw [← h₁.again hreplay] at hdecl
  split_ifs with hunsigned
  · exact (typeUnsigned_ends h₁.sane).mono (by omega)
  · split
    · exact (h₁.typePointer _).mono hbase
    · rename_i hnone
      exact absurd hnone (baseType_of_isDecl hdecl hunsigned)

/-! ### Expressions -/

/-- Operands that end, where there is less than that to do. -/
def Operand (line : Line) (k : ℕ) (m : Proc Node) : Prop :=
  ∀ p, Sane line p.token → todo line p < k → Ends line m p (base line p)

variable {operand cast assign : Proc Node} {ops : Token → Option Op} {n : ℕ} {tables : Tables}

theorem binaryLoop_ends (hop : Operand line k operand) : ∀ (n : ℕ) (node : Node) (p : Parser),
    Sane line p.token → todo line p < k → todo line p < n →
      Ends line (binaryLoop line ops operand n node) p (todo line p)
  | 0, _, _, _, _, hn => absurd hn (Nat.not_lt_zero _)
  | n + 1, node, p, hp, hk, hn => by
    rw [binaryLoop]
    refine Ends.next hp fun token p₁ h₁ => ?_
    have htodo := h₁.todo_le
    have hfresh := h₁.todo_eq
    rcases hops : token.bind ops with _ | op
    · exact h₁.replay
    · have hweight := weight_bind hops
      refine (hop p₁ h₁.sane (by omega)).bind fun right p₂ hp₂ hk₂ => ?_
      have hloop : ∀ node p₃, Sane line p₃.token → todo line p₃ ≤ todo line p₂ →
          Ends line (binaryLoop line ops operand n node) p₃ (todo line p) := by
        intro node p₃ hp₃ hk₃
        exact (binaryLoop_ends hop n node p₃ hp₃ (by omega) (by omega)).mono (by omega)
      split_ifs
      · exact Ends.error (hloop node _ hp₂ le_rfl)
      · exact ((quiet_makeSysNode _ _ _).ends hp₂).bind fun node p₃ hp₃ hk₃ => hloop node p₃ hp₃ hk₃

theorem procBinary_operand (hop : Operand line k operand) (hn : k ≤ n) :
    Operand line k (procBinary line ops operand n) := by
  intro p hp hk
  have hbase := base_le_todo line p
  refine (hop p hp hk).bind fun node p₁ hp₁ hk₁ => ?_
  exact (binaryLoop_ends hop n node p₁ hp₁ (by omega) (by omega)).mono hk₁

theorem procInclusiveOrExpr_operand (hcast : Operand line k cast) (hn : k ≤ n) :
    Operand line k (procInclusiveOrExpr line cast n) := by
  have hmul : Operand line k (procMultiplicativeExpr line cast n) := procBinary_operand hcast hn
  have hadd : Operand line k (procAdditiveExpr line cast n) := procBinary_operand hmul hn
  have hshift : Operand line k (procShiftExpr line cast n) := procBinary_operand hadd hn
  have hand : Operand line k (procAndExpr line cast n) := procBinary_operand hshift hn
  have hxor : Operand line k (procExclusiveOrExpr line cast n) := procBinary_operand hand hn
  exact procBinary_operand hxor hn

theorem paramLoop_ends (hassign : Operand line k assign) : ∀ (n : ℕ) (params : List Node)
    (p : Parser), Sane line p.token → todo line p < k → todo line p < n →
      Ends line (paramLoop line assign n params) p (todo line p)
  | 0, _, _, _, _, hn => absurd hn (Nat.not_lt_zero _)
  | n + 1, params, p, hp, hk, hn => by
    rw [paramLoop]
    refine Ends.next hp fun token p₁ h₁ => ?_
    have htodo := h₁.todo_le
    have hfresh := h₁.todo_eq
    split_ifs with hcomma
    · rw [hcomma, weight_some] at htodo
      refine (hassign p₁ h₁.sane (by omega)).bind fun param p₂ hp₂ hk₂ => ?_
      have hloop : ∀ params p₃, Sane line p₃.token → todo line p₃ ≤ todo line p₂ →
          Ends line (paramLoop line assign n params) p₃ (todo line p) := by
        intro params p₃ hp₃ hk₃
        exact (paramLoop_ends hassign n params p₃ hp₃ (by omega) (by omega)).mono (by omega)
      split_ifs
      · exact Ends.error (hloop params _ hp₂ le_rfl)
      · exact hloop _ p₂ hp₂ le_rfl
    · exact h₁.replay

theorem procParamList_ends (hassign : Operand line k assign) (h : Sane line p.token)
    (hk : todo line p < k) (hn : todo line p < n) :
    Ends line (procParamList line assign n) p (base line p) := by
  have hbase := base_le_todo line p
  refine (hassign p h hk).bind fun param p₁ hp₁ hk₁ => ?_
  split_ifs
  · exact .pure hp₁ hk₁
  · exact (paramLoop_ends hassign n _ p₁ hp₁ (by omega) (by omega)).bind fun params p₂ hp₂ hk₂ =>
      .pure hp₂ (hk₂.trans hk₁)

theorem procPrimaryExpr_operand (hassign : Operand line k assign) :
    Operand line (k + 1) (procPrimaryExpr line tables assign) := by
  intro p hp hk
  refine Ends.next hp fun token p₁ h₁ => ?_
  have htodo := h₁.todo_le
  have hbase := h₁.base_le
  have hfresh := h₁.todo_eq
  split_ifs with hid hparen
  · refine Ends.replay ?_
    have hcurrent : isIdentifier (replayed p₁).token.current = true := by
      rw [← h₁.current] at hid
      exact hid
    refine (procIdentifier_replayed (p := replayed p₁) h₁.sane rfl hcurrent).bind
      fun name p₂ hp₂ hk₂ => ?_
    exact ((quiet_finshNodeNewId tables name).ends hp₂).mono (hk₂.trans hbase)
  · rw [hparen, weight_some] at htodo
    refine (hassign p₁ h₁.sane (by omega)).bind fun expr p₂ hp₂ hk₂ => ?_
    refine (matchToken_ends hp₂).bind fun _ p₃ hp₃ hk₃ => ?_
    exact .pure hp₃ (by omega)
  · split
    · exact ((quiet_finshNodeNew _).ends h₁.sane).mono (by omega)
    · exact Ends.error (.pure h₁.sane (hfresh.le.trans hbase))

theorem callParams_ends (hassign : Operand line k assign) (h : Sane line p.token)
    (hk : todo line p < k) (hn : todo line p < n) :
    Ends line (callParams line assign n) p (todo line p) := by
  refine Ends.next h fun token p₁ h₁ => ?_
  have htodo := h₁.todo_le
  have hfresh := h₁.todo_eq
  have hreplayed := h₁.replayed_le
  split_ifs
  · exact .pure h₁.sane (by omega)
  · refine Ends.replay ?_
    refine (procParamList_ends (p := replayed p₁) hassign h₁.sane (by omega) (by omega)).bind
      fun params p₂ hp₂ hk₂ => ?_
    rw [base_replayed] at hk₂
    refine (matchToken_ends hp₂).bind fun _ p₃ hp₃ hk₃ => ?_
    exact .pure hp₃ (by omega)

theorem postfixLoop_ends (hassign : Operand line k assign) : ∀ (n : ℕ) (node : Node) (p : Parser),
    Sane line p.token → todo line p < k + 1 → todo line p < n →
      Ends line (postfixLoop line assign n node) p (todo line p)
  | 0, _, _, _, _, hn => absurd hn (Nat.not_lt_zero _)
  | n + 1, node, p, hp, hk, hn => by
    rw [postfixLoop]
    refine Ends.next hp fun token p₁ h₁ => ?_
    have htodo := h₁.todo_le
    have hfresh := h₁.todo_eq
    have hloop : ∀ t : Token, token = some t → ∀ node p₂, Sane line p₂.token →
        todo line p₂ ≤ todo line p₁ →
          Ends line (postfixLoop line assign n node) p₂ (todo line p) := by
      rintro t rfl node p₂ hp₂ hk₂
      rw [weight_some] at htodo
      exact (postfixLoop_ends hassign n node p₂ hp₂ (by omega) (by omega)).mono (by omega)
    split
    · exact ((quiet_makeSysNode _ _ _).ends h₁.sane).bind fun node p₂ hp₂ hk₂ =>
        hloop .inc rfl node p₂ hp₂ hk₂
    · exact ((quiet_makeSysNode _ _ _).ends h₁.sane).bind fun node p₂ hp₂ hk₂ =>
        hloop .dec rfl node p₂ hp₂ hk₂
    · rw [weight_some] at htodo
      refine (callParams_ends hassign h₁.sane (by omega) (by omega)).bind
        fun params p₂ hp₂ hk₂ => ?_
      exact ((quiet_makeSysNode _ _ _).ends hp₂).bind fun node p₃ hp₃ hk₃ =>
        hloop .leftParen rfl node p₃ hp₃ (hk₃.trans hk₂)
    · exact h₁.replay

theorem procPostfixExpr_operand (hassign : Operand line k assign) (hn : k < n) :
    Operand line (k + 1) (procPostfixExpr line tables assign n) := by
  intro p hp hk
  have hbase := base_le_todo line p
  refine (procPrimaryExpr_operand hassign p hp hk).bind fun node p₁ hp₁ hk₁ => ?_
  exact (postfixLoop_ends hassign n node p₁ hp₁ (by omega) (by omega)).mono hk₁

theorem procUnaryExpr_operand (hcast : Operand line k cast) (hassign : Operand line k assign)
    (hn : k < n) : Operand line (k + 1) (procUnaryExpr line tables cast assign n) := by
  intro p hp hk
  refine Ends.next hp fun token p₁ h₁ => ?_
  have htodo := h₁.todo_le
  have hbase := h₁.base_le
  have hreplayed := h₁.replayed_le
  have hfresh := h₁.todo_eq
  have hoperand : weight token = 1 → Ends line cast p₁ (base line p) := by
    intro hweight
    exact (hcast p₁ h₁.sane (by omega)).mono hbase
  split_ifs with hadd hsub
  · exact hoperand (hadd ▸ rfl)
  · refine (hoperand (hsub ▸ rfl)).bind fun node p₂ hp₂ hk₂ => ?_
    refine ((quiet_finshNodeNew _).ends hp₂).bind fun zero p₃ hp₃ hk₃ => ?_
    exact ((quiet_makeSysNode _ _ _).ends hp₃).mono (hk₃.trans hk₂)
  · rcases htype : token.bind Token.prefixType with _ | type
    · refine Ends.replay ?_
      exact (procPostfixExpr_operand hassign hn (replayed p₁) h₁.sane (by omega)).mono hbase
    · refine (hoperand (weight_bind htype)).bind fun node p₂ hp₂ hk₂ => ?_
      exact ((quiet_makeSysNode _ _ _).ends hp₂).mono hk₂

theorem procCastExpr_operand (hcast : Operand line k (procCastExpr line tables n))
    (hassign : Operand line k (procAssignExpr line tables n)) (hn : k < n) :
    Operand line (k + 1) (procCastExpr line tables (n + 1)) := by
  intro p hp hk
  have hunary : Operand line (k + 1) (procUnaryExpr line tables _ _ n) :=
    procUnaryExpr_operand hcast hassign hn
  rw [procCastExpr]
  refine Ends.next hp fun token p₁ h₁ => ?_
  have htodo := h₁.todo_le
  have hbase := h₁.base_le
  have hreplayed := h₁.replayed_le
  have hfresh := h₁.todo_eq
  split_ifs with hparen
  · rw [hparen, weight_some] at htodo
    refine (procType_ends h₁.sane).bind fun type p₂ hp₂ hk₂ => ?_
    refine (matchToken_ends hp₂).bind fun _ p₃ hp₃ hk₃ => ?_
    have hbase₃ := base_le_todo line p₃
    refine (hcast p₃ hp₃ (by omega)).bind fun node p₄ hp₄ hk₄ => ?_
    have hbase₄ := base_le_todo line p₄
    have hreplayed₄ := replayed_le line p₄
    split_ifs
    -- the parenthesis makes up for the token that is put back
    · refine Ends.replay ?_
      exact (hunary (replayed p₄) hp₄ (by omega)).mono (by rw [base_replayed]; omega)
    · exact .pure hp₄ (by omega)
  · refine Ends.replay ?_
    exact (hunary (replayed p₁) h₁.sane (by omega)).mono hbase

theorem procAssignExpr_operand (hcast : Operand line k (procCastExpr line tables n))
    (hassign : Operand line (k - 1) (procAssignExpr line tables n)) (hn : k ≤ n) :
    Operand line k (procAssignExpr line tables (n + 1)) := by
  intro p hp hk
  have hbase := base_le_todo line p
  rw [procAssignExpr]
  refine (procInclusiveOrExpr_operand hcast hn p hp hk).bind fun node p₁ hp₁ hk₁ => ?_
  refine Ends.next hp₁ fun token p₂ h₂ => ?_
  have htodo := h₂.todo_le
  have hbase₂ := h₂.base_le
  have hfresh := h₂.todo_eq
  split_ifs with hset
  · rw [hset, weight_some] at htodo
    refine (hassign p₂ h₂.sane (by omega)).bind fun right p₃ hp₃ hk₃ => ?_
    exact ((quiet_makeSysNode _ _ _).ends hp₃).mono (by omega)
  · exact Ends.mono h₂.replay hk₁

/-- So many rounds are enough for an expression. -/
theorem procExpr_operand (line : Line) (tables : Tables) : ∀ n,
    (∀ k, 2 * k ≤ n → Operand line k (procCastExpr line tables n)) ∧
      ∀ k, 2 * k + 1 ≤ n → Operand line k (procAssignExpr line tables n)
  | 0 => by
    refine ⟨fun k hk p _ hlt => ?_, fun k hk => absurd hk (Nat.not_succ_le_zero _)⟩
    omega
  | n + 1 => by
    obtain ⟨hcast, hassign⟩ := procExpr_operand line tables n
    refine ⟨fun k hk => ?_, fun k hk => ?_⟩
    · cases k with
      | zero => exact fun p _ hlt => absurd hlt (Nat.not_lt_zero _)
      | succ k => exact procCastExpr_operand (hcast k (by omega)) (hassign k (by omega)) (by omega)
    · cases k with
      | zero => exact fun p _ hlt => absurd hlt (Nat.not_lt_zero _)
      | succ k =>
        exact procAssignExpr_operand (hcast _ (by omega)) (hassign k (by omega)) (by omega)

end Rules

end EasyCore.Finsh.Lexer
