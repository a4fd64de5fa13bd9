import EasyCore.Finsh.Shape
import EasyCore.Finsh.Vm

/-! The size of the code of a line. The bytes of a node depend on its kind, on the type of data of the
    identifier that stands leftmost below it, and on whether it is taken as an address. The text segment
    has 128 bytes, and nothing checks that the code stays inside. -/

namespace EasyCore.Finsh

/-- The type of data that the type check derives. -/
def Tree.typeOf : Tree → ℕ
  | nil => 0
  | node kind dataType _ child _ =>
    if child = .nil then kind.leafType dataType else child.typeOf

/-- The bytes for a place in memory: an opcode and an address. -/
def typedBytes (type n : ℕ) : ℕ := if (width type).isSome then n else 0

/-- The bytes of a one that is loaded. -/
def oneBytes (type : ℕ) : ℕ :=
  match width type with
  | some w => 1 + w.bytes
  | none => 0

/-- The bytes of an identifier. -/
def Sym.bytes : Sym → ℕ
  | .var type _ | .sysvar type .. => if type = .void ∨ type = .voidp then 0 else 5
  | .syscall .. => 5

/-- The bytes of an assignment, from what stands on the left. -/
def assignBytes (type : ℕ) : Tree → ℕ
  | .node (.id _) .. => typedBytes type 2
  | .node .getvalue .. => typedBytes (type % 16) 2
  | _ => 0

/-- The bytes of `++` and `--`: behind an identifier, and so many more than the one that is loaded. -/
def stepBytes (n type : ℕ) : Tree → ℕ
  | .node (.id _) .. => n + oneBytes type
  | _ => 0

/-- The bytes of a node, without those of its child. -/
def nodeBytes (kind : Kind) (isAddr : Bool) (type : ℕ) (child : Tree) : ℕ :=
  match kind with
  | .id sym => sym.bytes
  | .valueChar _ => 2
  | .valueInt _ | .valueLong _ | .valueString _ | .valueNull => 5
  | .sys _ => typedBytes type 1
  | .func => if child = .nil then 0 else 2
  | .assign => assignBytes child.typeOf child
  | .preinc | .predec => typedBytes type (stepBytes 8 type child)
  | .inc | .dec => typedBytes type (stepBytes 13 type child)
  | .getvalue => if isAddr then 0 else typedBytes type 1
  | .getaddr => 0

/-- The bytes of a tree and of its siblings. -/
def Tree.bytes : Bool → Tree → ℕ
  | _, nil => 0
  | isAddr, node kind dataType _ child sibling =>
    child.bytes (kind.childAddress isAddr) +
      nodeBytes kind isAddr (node kind dataType false child nil).typeOf child + sibling.bytes false

/-- The bytes of a line: between the statements a value is popped. -/
def lineBytes (root : Tree) : ℕ := root.bytes false + (root.siblings - 1)

/-! ### The code has this size -/

theorem codeBytes_cons (i : Instr) (code : List Instr) :
    (codeBytes (i :: code)).length = 1 + i.operands.length + (codeBytes code).length := by
  rw [codeBytes, List.flatMap_cons, List.length_append, Instr.bytes, List.length_cons,
    Nat.add_comm i.operands.length]
  rfl

@[simp] theorem codeBytes_nil : (codeBytes []).length = 0 := rfl

theorem typeCheck_nil (isAddr : Bool) {t : Tree} : typeCheck isAddr t = .nil ↔ t = .nil := by
  cases t with
  | nil => simp [typeCheck]
  | node => simp [typeCheck]

theorem typeCheck_siblings (t : Tree) (isAddr : Bool) :
    (typeCheck isAddr t).siblings = t.siblings := by
  induction t generalizing isAddr with
  | nil => rfl
  | node kind dataType address child sibling _ ih => exact congrArg (1 + ·) (ih false)

/-- The root of a tree that has been checked. -/
theorem typeCheck_node (kind : Kind) (dataType : ℕ) (address isAddr : Bool) (child sibling : Tree) :
    typeCheck isAddr (.node kind dataType address child sibling) =
      .node kind (Tree.node kind dataType address child sibling).typeOf
        (if kind.isSyscall then address else address || isAddr)
        (typeCheck (kind.childAddress isAddr) child) (typeCheck false sibling) := by
  have htype : ∀ (t : Tree) (isAddr : Bool) (leaf : ℕ), t ≠ .nil →
      (typeCheck isAddr t).typeOr leaf = t.typeOf := by
    intro t
    induction t with
    | nil => exact fun _ _ h => absurd rfl h
    | node kind dataType address child sibling ih _ =>
      intro isAddr leaf _
      rw [typeCheck, Tree.typeOr]
      cases child with
      | nil => rfl
      | node => exact ih _ _ (by simp)
  rw [typeCheck]
  cases child with
  | nil => rfl
  | node kind₁ dataType₁ address₁ child₁ sibling₁ =>
    rw [htype _ _ _ (by simp)]
    rfl

theorem codeBytes_store (type : ℕ) : (codeBytes (store type)).length = typedBytes type 2 := by
  rw [store, typedBytes]
  cases width type <;> rfl

theorem codeBytes_loadId (type : FinshType) (address : Bool) (addr : UInt32) :
    (codeBytes (loadId type address addr)).length =
      if type = .void ∨ type = .voidp then 0 else 5 := by
  cases type <;> cases address <;> rfl

theorem codeBytes_assignCode (isAddr : Bool) (child : Tree) :
    (codeBytes (assignCode (typeCheck isAddr child))).length = assignBytes child.typeOf child := by
  cases child with
  | nil => rfl
  | node kind dataType address child sibling =>
    rw [typeCheck_node]
    cases kind with
    | id sym => exact codeBytes_store _
    | getvalue => exact codeBytes_store _
    | _ => rfl

theorem codeBytes_stepBefore (o : Op) (type : ℕ) (isAddr : Bool) (child : Tree) :
    (codeBytes (stepBefore o type (typeCheck isAddr child))).length =
      typedBytes type (stepBytes 8 type child) := by
  cases child with
  | nil => simp [typeCheck, stepBefore, stepBytes, typedBytes]
  | node kind dataType address child sibling =>
    rw [typeCheck_node]
    cases kind with
    | id sym =>
      simp only [stepBefore, stepBytes, typedBytes, oneBytes]
      cases width type with
      | none => rfl
      | some w => cases w <;> rfl
    | _ => simp [stepBefore, stepBytes, typedBytes]

theorem codeBytes_stepAfter (o : Op) (type : ℕ) (isAddr : Bool) (child : Tree) :
    (codeBytes (stepAfter o type (typeCheck isAddr child))).length =
      typedBytes type (stepBytes 13 type child) := by
  cases child with
  | nil => simp [typeCheck, stepAfter, stepBytes, typedBytes]
  | node kind dataType address child sibling =>
    rw [typeCheck_node]
    cases kind with
    | id sym =>
      simp only [stepAfter, stepBytes, typedBytes, oneBytes]
      cases width type with
      | none => rfl
      | some w => cases w <;> rfl
    | _ => simp [stepAfter, stepBytes, typedBytes]

/-- The bytes of the code of a node, behind its child. -/
theorem codeBytes_nodeCode (kind : Kind) (type : ℕ) (isAddr isAddr' : Bool) (child : Tree) :
    (codeBytes (nodeCode kind type isAddr (typeCheck isAddr' child))).length =
      nodeBytes kind isAddr type child := by
  cases kind with
  | id sym =>
    cases sym with
    | var type addr => exact codeBytes_loadId ..
    | sysvar type self var => exact codeBytes_loadId ..
    | syscall self func => rfl
  | sys o =>
    simp only [nodeCode, nodeBytes, typedBytes]
    cases width type <;> rfl
  | func =>
    simp only [nodeCode, nodeBytes, typeCheck_nil]
    split <;> rfl
  | assign => exact codeBytes_assignCode isAddr' child
  | preinc => exact codeBytes_stepBefore .add type isAddr' child
  | predec => exact codeBytes_stepBefore .sub type isAddr' child
  | inc => exact codeBytes_stepAfter .add type isAddr' child
  | dec => exact codeBytes_stepAfter .sub type isAddr' child
  | getvalue =>
    simp only [nodeCode, nodeBytes, typedBytes]
    cases isAddr <;> cases width type <;> rfl
  | _ => rfl

theorem codeBytes_compile : ∀ {t : Tree}, t.Shaped → ∀ isAddr : Bool,
    (codeBytes (compile (typeCheck isAddr t))).length = t.bytes isAddr := by
  intro t
  induction t with
  | nil => exact fun _ _ => rfl
  | node kind dataType address child sibling ihchild ihsibling =>
    rintro ⟨-, rfl, hchild, hsibling⟩ isAddr
    have htype : (Tree.node kind dataType false child sibling).typeOf =
        (Tree.node kind dataType false child .nil).typeOf := rfl
    rw [typeCheck_node, compile, codeBytes_append, codeBytes_append, List.length_append,
      List.length_append, ihchild hchild, ihsibling hsibling, Tree.bytes, codeBytes_nodeCode, htype]
    -- A system call keeps its mark, and its code does not depend on it.
    cases kind with
    | id sym => cases sym <;> rfl
    | _ => rfl

/-- The code of the first statement, and of the others. -/
theorem finshCompilerRun_node (kind : Kind) (dataType : ℕ) (address : Bool) (child sibling : Tree) :
    finshCompilerRun (.node kind dataType address child sibling) =
      compile (typeCheck false (.node kind dataType address child .nil)) ++
        (if sibling = .nil then [] else .pop :: finshCompilerRun sibling) := by
  rw [finshCompilerRun, typeCheck_node, typeCheck_node]
  cases sibling with
  | nil => rw [typeCheck, compileStatements, if_pos rfl, List.append_nil]
  | node kind₂ dataType₂ address₂ child₂ sibling₂ =>
    have hne : Tree.node kind₂ dataType₂ address₂ child₂ sibling₂ ≠ .nil := by simp
    rw [if_neg hne, finshCompilerRun, typeCheck_node, compileStatements]
    · rfl
    · simp

theorem codeBytes_finshCompilerRun : ∀ {t : Tree}, t.Shaped →
    (codeBytes (finshCompilerRun t)).length = lineBytes t := by
  intro t
  induction t with
  | nil => exact fun _ => rfl
  | node kind dataType address child sibling _ ih =>
    intro h
    have hone : Tree.Shaped (.node kind dataType address child .nil) :=
      ⟨h.1, h.2.1, h.2.2.1, trivial⟩
    rw [finshCompilerRun_node, codeBytes_append, List.length_append, codeBytes_compile hone false]
    cases sibling with
    | nil => rfl
    | node =>
      have hrest := ih h.2.2.2
      rw [if_neg (by simp), codeBytes_cons, hrest]
      simp only [lineBytes, Tree.bytes, Tree.siblings, Instr.operands, List.length_nil]
      have htype : ∀ sibling, (Tree.node kind dataType address child sibling).typeOf =
        (Tree.node kind dataType address child .nil).typeOf := fun _ => rfl
      omega

/-! ### The text segment -/

/-- What the machine does with the code of a line: it stays in the text segment, and fetches the
    instructions that have been emitted, or, behind them, what the compiler has cleared. -/
structure Fetches (code : List Instr) : Prop where
  inside : (codeBytes code).length ≤ textMax
  fetched : ∀ {call : Calls} {stack : ℤ → UInt32} {m : Mem} {v : Vm},
    Reach call (textOf code) (.start stack m) v → v.pc < textMax →
    (∃ done i rest, done ++ i :: rest = code ∧ v.pc = (codeBytes done).length ∧
      fetch (textOf code) v.pc = some i) ∨
    (codeBytes code).length ≤ v.pc ∧ fetch (textOf code) v.pc = some .noop

theorem fetches_of_fits {code : List Instr} (h : (codeBytes code).length ≤ textMax) :
    Fetches code := by
  refine ⟨h, ?_⟩
  intro call stack m v hreach _
  cases hreach.along rfl with
  | inside done rest hcode =>
    cases rest with
    | nil =>
      rw [List.append_nil] at hcode
      subst hcode
      exact .inr ⟨le_refl _, fetch_behind (le_refl _)⟩
    | cons i rest => exact .inl ⟨done, i, rest, hcode, rfl, hcode ▸ fetch_at (at_textOf done i rest)⟩
  | behind hbehind => exact .inr ⟨hbehind, fetch_behind hbehind⟩

/-- Every line that is accepted is an error of the compiler, or its code stays in the text segment. -/
def CodeSafe (env : Env) (vars : Vars) (tokens : List Token) : Prop :=
  ∀ root, finshParserRun env vars tokens = some root →
    compileError (typeCheck false root) ∨ Fetches (finshCompilerRun root)

/-- The code of a line stays in the text segment if it has at most 128 bytes. -/
theorem codeSafe_iff (env : Env) (vars : Vars) (tokens : List Token) :
    CodeSafe env vars tokens ↔ ∀ root, finshParserRun env vars tokens = some root →
      compileError (typeCheck false root) ∨ lineBytes root ≤ textMax := by
  constructor
  · intro h root hroot
    obtain herror | hfetches := h root hroot
    · exact .inl herror
    · exact .inr (codeBytes_finshCompilerRun (finshParserRun_shaped hroot).1 ▸ hfetches.inside)
  · intro h root hroot
    obtain herror | hfits := h root hroot
    · exact .inl herror
    · rw [← codeBytes_finshCompilerRun (finshParserRun_shaped hroot).1] at hfits
      exact .inr (fetches_of_fits hfits)

/-- `a++;a++;a++;a++;a++;a++;a++;a++;` with a `long`: sixteen nodes, and 191 bytes. -/
theorem not_codeSafe : ¬∀ env vars tokens, CodeSafe env vars tokens := by
  intro h
  let env : Env := ⟨fun _ => none, fun _ => none, 0x20000000, fun _ => 0⟩
  let tokens : List Token := (List.replicate 8 [.identifier [97], .inc, .semicolon]).flatten
  obtain ⟨root, hroot, herror, hsize⟩ : ∃ root,
      finshParserRun env [some ([97], .long)] tokens = some root ∧
        compileError (typeCheck false root) = false ∧ lineBytes root = 191 := by
    refine ⟨_, rfl, ?_, ?_⟩
    · decide +kernel
    · decide +kernel
  obtain herror' | hfetches := h env _ tokens root hroot
  · rw [herror] at herror'
    cases herror'
  · have hfits := hfetches.inside
    rw [codeBytes_finshCompilerRun (finshParserRun_shaped hroot).1, hsize] at hfits
    exact absurd hfits (by decide)

end EasyCore.Finsh
