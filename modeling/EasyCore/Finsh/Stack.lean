import EasyCore.Finsh.CodeSize

/-! The stack of the machine. What an instruction takes and gives is fixed, and so is what the code of
    a tree leaves: one value, but for identifiers that load nothing and operators and assignments that
    emit nothing. -/

namespace EasyCore.Finsh

/-- The values that an instruction takes from the stack. -/
def Instr.takes : Instr → ℕ
  | noop | ldByte _ | ldWord _ | ldDword _ | ldValue .. => 0
  | op .bitwise _ => 1
  | op .. => 2
  | st _ => 2
  | pop => 1
  | syscall n => n.toNat + 1
  | ldValueStack _ => 1

/-- The values that it puts there. -/
def Instr.gives : Instr → ℕ
  | noop | pop => 0
  | _ => 1

/-- What it adds to the stack. -/
def Instr.effect (i : Instr) : ℤ := i.gives - i.takes

theorem run_sp (call : Calls) (v : Vm) (i : Instr) : (i.run call v).sp = v.sp + i.effect := by
  cases i with
  | noop => exact (Int.add_zero _).symm
  | op o w => cases o <;> simp [Instr.run, Instr.effect, Instr.gives, Instr.takes, Vm.setSlot,
      Vm.drop, Int.sub_eq_add_neg]
  | syscall n =>
    simp only [Instr.run, opCall, Vm.setMem, Vm.push, Vm.drop, Instr.effect, Instr.gives,
      Instr.takes]
    push_cast
    omega
  | _ => simp [Instr.run, Instr.effect, Instr.gives, Instr.takes, Vm.setSlot, Vm.push, Vm.log,
      Vm.setMem, Vm.drop, Int.sub_eq_add_neg]

/-- What a code adds to the stack. -/
def effect (code : List Instr) : ℤ := (code.map Instr.effect).sum
@[simp] theorem effect_nil : effect [] = 0 := rfl

theorem effect_cons (i : Instr) (code : List Instr) : effect (i :: code) = i.effect + effect code :=
  List.sum_cons

theorem effect_append (code more : List Instr) : effect (code ++ more) = effect code + effect more := by
  rw [effect, List.map_append, List.sum_append]
  rfl

theorem exec_sp (call : Calls) (code : List Instr) (v : Vm) :
    (exec call v code).sp = v.sp + effect code := by
  induction code generalizing v with
  | nil => exact (Int.add_zero _).symm
  | cons i code ih =>
    have hrest := ih (i.run call v)
    rw [run_sp] at hrest
    rw [effect_cons, ← Int.add_assoc]
    exact hrest

/-- On `k` values, every instruction of a code finds what it takes. -/
def Fed : ℤ → List Instr → Prop
  | _, [] => True
  | k, i :: code => (i.takes : ℤ) ≤ k ∧ Fed (k + i.effect) code

theorem fed_append {k : ℤ} {code more : List Instr} :
    Fed k (code ++ more) ↔ Fed k code ∧ Fed (k + effect code) more := by
  induction code generalizing k with
  | nil => simp [Fed]
  | cons i code ih => simp only [List.cons_append, Fed, ih, effect_cons, and_assoc, Int.add_assoc]

/-- A code that is fed leaves no less than an empty stack. -/
theorem Fed.nonneg {k : ℤ} {code : List Instr} (hk : 0 ≤ k) (h : Fed k code) :
    0 ≤ k + effect code := by
  induction code generalizing k with
  | nil => simpa using hk
  | cons i code ih =>
    have hnext : 0 ≤ k + i.effect := by
      have := h.1
      rw [Instr.effect]
      omega
    rw [effect_cons, ← Int.add_assoc]
    exact ih hnext h.2

/-! ### What a tree leaves -/

/-- An identifier of the type `void` or `void *`, for which nothing is loaded. -/
def Sym.isVoid : Sym → Bool
  | .var type _ | .sysvar type .. => type = .void || type = .voidp
  | .syscall .. => false

/-- Whether an assignment stores: the target is an identifier or a dereference, with a type of data. -/
def stores (type : ℕ) : Tree → Bool
  | .node (.id _) .. => (width type).isSome
  | .node .getvalue .. => (width (type % 16)).isSome
  | _ => false

/-- What the code of a node leaves too much, or too little: a void identifier leaves nothing; a binary
    operator without a type of data leaves both operands, and so does an assignment that does not
    store. -/
def nodeDrift (kind : Kind) (type : ℕ) (child : Tree) : ℤ :=
  match kind with
  | .id sym => if sym.isVoid then -1 else 0
  | .sys .bitwise => 0
  | .sys _ => if (width type).isSome then 0 else 1
  | .assign => if stores child.typeOf child then 0 else 1
  | _ => 0

/-- What the code of a tree and of its siblings leaves besides one value for each. -/
def Tree.drift : Tree → ℤ
  | nil => 0
  | node kind dataType _ child sibling =>
    child.drift + nodeDrift kind (node kind dataType false child nil).typeOf child + sibling.drift

/-- Whether `++` or `--` in front stands before an identifier. -/
def Tree.isId : Tree → Bool
  | node (.id _) .. => true
  | _ => false

/-- The values that the code of a node takes from those that stand there. -/
def nodeTakes (kind : Kind) (isAddr : Bool) (type : ℕ) (child : Tree) : ℕ :=
  match kind with
  | .sys .bitwise => if (width type).isSome then 1 else 0
  | .sys _ => if (width type).isSome then 2 else 0
  | .func => child.siblings
  | .assign => if stores child.typeOf child then 2 else 0
  | .preinc | .predec => if (width type).isSome && child.isId then 1 else 0
  | .getvalue => if !isAddr && (width type).isSome then 1 else 0
  | _ => 0

/-- On `k` values, the code of every node of a tree finds as many as it takes. -/
def Tree.Enough : Bool → ℤ → Tree → Prop
  | _, _, nil => True
  | isAddr, k, node kind dataType _ child sibling =>
    child.Enough (kind.childAddress isAddr) k ∧
    nodeTakes kind isAddr (node kind dataType false child nil).typeOf child ≤
      k + (child.siblings + child.drift) ∧
    sibling.Enough false (k + 1 +
      (child.drift + nodeDrift kind (node kind dataType false child nil).typeOf child))

theorem effect_loadId (type : FinshType) (address : Bool) (addr : UInt32) :
    effect (loadId type address addr) = 1 + if type = .void || type = .voidp then -1 else 0 := by
  cases type <;> cases address <;> rfl

theorem effect_store (type : ℕ) :
    effect (store type) = if (width type).isSome then -1 else 0 := by
  rw [store]
  cases width type with
  | none => rfl
  | some w => cases w <;> rfl

theorem effect_assignCode (isAddr : Bool) (child : Tree) :
    effect (assignCode (typeCheck isAddr child)) =
      if stores child.typeOf child then -1 else 0 := by
  cases child with
  | nil => rfl
  | node kind dataType address child sibling =>
    rw [typeCheck_node]
    cases kind with
    | id sym => exact effect_store _
    | getvalue => exact effect_store _
    | _ => rfl

theorem effect_stepBefore (o : Op) (ho : o = .add ∨ o = .sub) (type : ℕ) (isAddr : Bool)
    (child : Tree) : effect (stepBefore o type (typeCheck isAddr child)) = 0 := by
  cases child with
  | nil => rfl
  | node kind dataType address child sibling =>
    rw [typeCheck_node]
    cases kind with
    | id sym =>
      simp only [stepBefore]
      cases width type with
      | none => rfl
      | some w => obtain rfl | rfl := ho <;> cases w <;> rfl
    | _ => rfl

theorem effect_stepAfter (o : Op) (ho : o = .add ∨ o = .sub) (type : ℕ) (isAddr : Bool)
    (child : Tree) : effect (stepAfter o type (typeCheck isAddr child)) = 0 := by
  cases child with
  | nil => rfl
  | node kind dataType address child sibling =>
    rw [typeCheck_node]
    cases kind with
    | id sym =>
      simp only [stepAfter]
      cases width type with
      | none => rfl
      | some w => obtain rfl | rfl := ho <;> cases w <;> rfl
    | _ => rfl

theorem siblings_le_size (t : Tree) : t.siblings ≤ t.size := by
  induction t with
  | nil => exact le_refl _
  | node kind dataType address child sibling _ ih =>
    rw [Tree.siblings, Tree.size]
    omega

/-- The value of an operator, of one width. -/
theorem effect_op (o : Op) (type : ℕ) (child : Tree) (address : Bool) :
    effect (nodeCode (.sys o) type address child) =
      if (width type).isSome && o ≠ .bitwise then -1 else 0 := by
  simp only [nodeCode]
  cases width type with
  | none => rfl
  | some w => cases o <;> rfl

/-- A node takes its operands and leaves one value, but for the drift. -/
theorem effect_nodeCode {kind : Kind} {child : Tree} (type : ℕ) (isAddr isAddr' : Bool)
    (harity : kind.Arity child.siblings) (hsize : child.size ≤ nodeMax) :
    effect (nodeCode kind type isAddr (typeCheck isAddr' child)) =
      1 + nodeDrift kind type child - child.siblings := by
  cases kind with
  | id sym =>
    have hnone : child.siblings = 0 := harity
    rw [hnone]
    cases sym with
    | var type addr => exact (effect_loadId ..).trans (Int.sub_zero _).symm
    | sysvar type self var => exact (effect_loadId ..).trans (Int.sub_zero _).symm
    | syscall self func => rfl
  | sys o =>
    rw [effect_op]
    cases o with
    | bitwise =>
      have hone : child.siblings = 1 := harity
      simp [nodeDrift, hone]
    | _ =>
      have htwo : child.siblings = 2 := harity
      simp only [nodeDrift, htwo]
      cases width type <;> rfl
  | func =>
    have hsome : 1 ≤ child.siblings := harity
    have hne : child ≠ .nil := by
      rintro rfl
      exact absurd hsome (by decide)
    have hle : child.siblings ≤ 16 := (siblings_le_size child).trans hsize
    have hn : (UInt8.ofNat (child.siblings - 1)).toNat = child.siblings - 1 := by
      rw [UInt8.toNat_ofNat']
      omega
    simp only [nodeCode, typeCheck_nil, if_neg hne, typeCheck_siblings, effect_cons, effect_nil,
      Instr.effect, Instr.gives, Instr.takes, hn, nodeDrift]
    omega
  | assign =>
    have htwo : child.siblings = 2 := harity
    have hstore : effect (nodeCode .assign type isAddr (typeCheck isAddr' child)) =
        if stores child.typeOf child then -1 else 0 := effect_assignCode isAddr' child
    rw [hstore, htwo]
    simp only [nodeDrift]
    split <;> rfl
  | preinc =>
    have hone : child.siblings = 1 := harity
    rw [hone]
    exact effect_stepBefore .add (.inl rfl) type isAddr' child
  | predec =>
    have hone : child.siblings = 1 := harity
    rw [hone]
    exact effect_stepBefore .sub (.inr rfl) type isAddr' child
  | inc =>
    have hone : child.siblings = 1 := harity
    rw [hone]
    exact effect_stepAfter .add (.inl rfl) type isAddr' child
  | dec =>
    have hone : child.siblings = 1 := harity
    rw [hone]
    exact effect_stepAfter .sub (.inr rfl) type isAddr' child
  | getvalue =>
    have hone : child.siblings = 1 := harity
    simp only [nodeCode, nodeDrift, hone]
    cases isAddr <;> cases width type <;> rfl
  | getaddr =>
    have hone : child.siblings = 1 := harity
    rw [hone]
    rfl
  | _ =>
    have hnone : child.siblings = 0 := harity
    rw [hnone]
    rfl

theorem effect_compile : ∀ {t : Tree}, t.Shaped → t.size ≤ nodeMax → ∀ isAddr : Bool,
    effect (compile (typeCheck isAddr t)) = t.siblings + t.drift := by
  intro t
  induction t with
  | nil => exact fun _ _ _ => rfl
  | node kind dataType address child sibling ihchild ihsibling =>
    rintro ⟨harity, rfl, hchild, hsibling⟩ hsize isAddr
    simp only [Tree.size] at hsize
    have htype : (Tree.node kind dataType false child sibling).typeOf =
        (Tree.node kind dataType false child .nil).typeOf := rfl
    rw [typeCheck_node, compile, effect_append, effect_append, ihchild hchild (by omega),
      ihsibling hsibling (by omega), effect_nodeCode _ _ _ harity (by omega), Tree.siblings,
      Tree.drift, htype]
    push_cast
    omega

/-! ### What a tree takes -/

theorem fed_one {k : ℤ} {i : Instr} : Fed k [i] ↔ (i.takes : ℤ) ≤ k := by simp [Fed]

theorem fed_loadId {k : ℤ} (hk : 0 ≤ k) (type : FinshType) (address : Bool) (addr : UInt32) :
    Fed k (loadId type address addr) := by
  cases type <;> cases address <;> simp [loadId, FinshType.dataType, width, Fed, Instr.takes, hk]

theorem fed_store {k : ℤ} (hk : 0 ≤ k) (type : ℕ) :
    Fed k (store type) ↔ (if (width type).isSome then 2 else 0 : ℕ) ≤ k := by
  rw [store]
  cases width type with
  | none => simpa [Fed] using hk
  | some w =>
    simp only [Fed, Instr.takes, Instr.effect, Instr.gives, Option.isSome_some, if_true, and_true]
    push_cast
    constructor
    · exact And.left
    · intro h
      exact ⟨h, by omega⟩

theorem fed_assignCode {k : ℤ} (hk : 0 ≤ k) (isAddr : Bool) (child : Tree) :
    Fed k (assignCode (typeCheck isAddr child)) ↔
      (if stores child.typeOf child then 2 else 0 : ℕ) ≤ k := by
  cases child with
  | nil => simpa [typeCheck, assignCode, stores, Fed] using hk
  | node kind dataType address child sibling =>
    rw [typeCheck_node]
    cases kind with
    | id sym => exact fed_store hk _
    | getvalue => exact fed_store hk _
    | _ => simpa [assignCode, stores, Fed] using hk

theorem fed_stepBefore {k : ℤ} (hk : 0 ≤ k) (o : Op) (ho : o = .add ∨ o = .sub) (type : ℕ)
    (isAddr : Bool) (child : Tree) : Fed k (stepBefore o type (typeCheck isAddr child)) ↔
      (if (width type).isSome && child.isId then 1 else 0 : ℕ) ≤ k := by
  cases child with
  | nil => simpa [typeCheck, stepBefore, Tree.isId, Fed] using hk
  | node kind dataType address child sibling =>
    rw [typeCheck_node]
    cases kind with
    | id sym =>
      simp only [stepBefore, Tree.isId]
      cases width type with
      | none => simpa [Fed] using hk
      | some w =>
        obtain rfl | rfl := ho <;> cases w <;>
          simp [Fed, Instr.takes, Instr.effect, Instr.gives, ldOne] <;> omega
    | _ => simpa [stepBefore, Tree.isId, Fed] using hk

theorem fed_stepAfter {k : ℤ} (hk : 0 ≤ k) (o : Op) (ho : o = .add ∨ o = .sub) (type : ℕ)
    (isAddr : Bool) (child : Tree) : Fed k (stepAfter o type (typeCheck isAddr child)) := by
  cases child with
  | nil => trivial
  | node kind dataType address child sibling =>
    rw [typeCheck_node]
    cases kind with
    | id sym =>
      simp only [stepAfter]
      cases width type with
      | none => trivial
      | some w =>
        obtain rfl | rfl := ho <;> cases w <;>
          simp [Fed, Instr.takes, Instr.effect, Instr.gives, ldOne] <;> omega
    | _ => trivial

theorem fed_nodeCode {kind : Kind} {child : Tree} {k : ℤ} (hk : 0 ≤ k) (type : ℕ)
    (isAddr isAddr' : Bool) (harity : kind.Arity child.siblings) (hsize : child.size ≤ nodeMax) :
    Fed k (nodeCode kind type isAddr (typeCheck isAddr' child)) ↔
      (nodeTakes kind isAddr type child : ℤ) ≤ k := by
  cases kind with
  | id sym =>
    have hfed : Fed k (nodeCode (.id sym) type isAddr (typeCheck isAddr' child)) := by
      cases sym with
      | var type addr => exact fed_loadId hk ..
      | sysvar type self var => exact fed_loadId hk ..
      | syscall self func => exact fed_one.2 hk
    exact iff_of_true hfed hk
  | sys o =>
    cases o with
    | bitwise =>
      simp only [nodeCode, nodeTakes]
      cases width type with
      | none => exact iff_of_true trivial hk
      | some w => exact fed_one
    | _ =>
      simp only [nodeCode, nodeTakes]
      cases width type with
      | none => exact iff_of_true trivial hk
      | some w => exact fed_one
  | func =>
    have hsome : 1 ≤ child.siblings := harity
    have hne : child ≠ .nil := by
      rintro rfl
      exact absurd hsome (by decide)
    have hle : child.siblings ≤ 16 := (siblings_le_size child).trans hsize
    have hn : (UInt8.ofNat (child.siblings - 1)).toNat + 1 = child.siblings := by
      rw [UInt8.toNat_ofNat']
      omega
    simp only [nodeCode, typeCheck_nil, if_neg hne, typeCheck_siblings, fed_one, Instr.takes, hn,
      nodeTakes]
  | assign => exact fed_assignCode hk isAddr' child
  | preinc => exact fed_stepBefore hk .add (.inl rfl) type isAddr' child
  | predec => exact fed_stepBefore hk .sub (.inr rfl) type isAddr' child
  | inc => exact iff_of_true (fed_stepAfter hk .add (.inl rfl) type isAddr' child) hk
  | dec => exact iff_of_true (fed_stepAfter hk .sub (.inr rfl) type isAddr' child) hk
  | getvalue =>
    simp only [nodeCode, nodeTakes]
    cases isAddr with
    | true => exact iff_of_true trivial hk
    | false =>
      cases width type with
      | none => exact iff_of_true trivial hk
      | some w => exact fed_one
  | getaddr => exact iff_of_true trivial hk
  | _ => exact iff_of_true (fed_one.2 hk) hk

/-- The code of a tree is fed if its nodes find what they take. -/
theorem fed_compile : ∀ {t : Tree}, t.Shaped → t.size ≤ nodeMax → ∀ (isAddr : Bool) {k : ℤ},
    0 ≤ k → (Fed k (compile (typeCheck isAddr t)) ↔ t.Enough isAddr k) := by
  intro t
  induction t with
  | nil => exact fun _ _ _ _ _ => Iff.rfl
  | node kind dataType address child sibling ihchild ihsibling =>
    rintro ⟨harity, rfl, hchild, hsibling⟩ hsize isAddr k hk
    simp only [Tree.size] at hsize
    have htype : (Tree.node kind dataType false child sibling).typeOf =
        (Tree.node kind dataType false child .nil).typeOf := rfl
    have hone := effect_compile hchild (by omega) (kind.childAddress isAddr)
    have hnode := effect_nodeCode (Tree.node kind dataType false child .nil).typeOf
      (if kind.isSyscall then false else false || isAddr) (kind.childAddress isAddr) harity
      (by omega)
    rw [typeCheck_node, compile, fed_append, fed_append, effect_append, Tree.Enough, and_assoc, htype,
      ihchild hchild (by omega) _ hk]
    refine and_congr_right fun henough => ?_
    -- The child has left what the node is run on.
    have hleft : 0 ≤ k + effect (compile (typeCheck (kind.childAddress isAddr) child)) :=
      ((ihchild hchild (by omega) _ hk).2 henough).nonneg hk
    have htakes := fed_nodeCode hleft (Tree.node kind dataType false child .nil).typeOf
      (if kind.isSyscall then false else false || isAddr) (kind.childAddress isAddr) harity
      (by omega)
    have haddr : nodeTakes kind (if kind.isSyscall then false else false || isAddr)
        (Tree.node kind dataType false child .nil).typeOf child =
        nodeTakes kind isAddr (Tree.node kind dataType false child .nil).typeOf child := by
      cases kind with
      | id sym => cases sym <;> rfl
      | _ => rfl
    rw [htakes, haddr, hone]
    refine and_congr_right fun hnodeTakes => ?_
    -- What stands behind the node is one value, but for the drift.
    have hnext : k + (effect (compile (typeCheck (kind.childAddress isAddr) child)) +
        effect (nodeCode kind (Tree.node kind dataType false child .nil).typeOf
          (if kind.isSyscall then false else false || isAddr)
          (typeCheck (kind.childAddress isAddr) child))) =
        k + 1 + (child.drift +
          nodeDrift kind (Tree.node kind dataType false child .nil).typeOf child) := by
      rw [hone, hnode]
      omega
    rw [← hone, hnext]
    refine ihsibling hsibling (by omega) false ?_
    rw [← hnext, ← Int.add_assoc]
    exact (htakes.2 (by rw [haddr, hone]; exact hnodeTakes)).nonneg hleft

/-! ### The end of the stack -/

/-- On `k` values, a code stays in the stack. -/
def Below : ℤ → List Instr → Prop
  | _, [] => True
  | k, i :: code => k + i.effect ≤ stackMax ∧ Below (k + i.effect) code

theorem below_append {k : ℤ} {code more : List Instr} :
    Below k (code ++ more) ↔ Below k code ∧ Below (k + effect code) more := by
  induction code generalizing k with
  | nil => simp [Below]
  | cons i code ih => simp only [List.cons_append, Below, ih, effect_cons, and_assoc, Int.add_assoc]

theorem effect_le_one (i : Instr) : i.effect ≤ 1 := by
  have hgives : i.gives ≤ 1 := by cases i <;> simp [Instr.gives]
  rw [Instr.effect]
  omega

theorem below_of_length {code : List Instr} {k : ℤ} (h : k + code.length ≤ stackMax) :
    Below k code := by
  induction code generalizing k with
  | nil => trivial
  | cons i code ih =>
    have hi := effect_le_one i
    rw [List.length_cons] at h
    push_cast at h
    exact ⟨by omega, ih (by omega)⟩

theorem nodeCode_length (kind : Kind) (type : ℕ) (isAddr : Bool) (child : Tree) :
    (nodeCode kind type isAddr child).length ≤ 6 := by
  have hload : ∀ type address addr, (loadId type address addr).length ≤ 6 := by
    intro type address addr
    cases type <;> cases address <;> simp [loadId, FinshType.dataType, width]
  have hstore : ∀ type, (store type).length ≤ 6 := by
    intro type
    rw [store]
    cases width type <;> simp
  have hbefore : ∀ o, (stepBefore o type child).length ≤ 6 := by
    intro o
    unfold stepBefore
    split
    · cases width type <;> simp
    · simp
  have hafter : ∀ o, (stepAfter o type child).length ≤ 6 := by
    intro o
    unfold stepAfter
    split
    · cases width type <;> simp
    · simp
  cases kind with
  | id sym =>
    cases sym with
    | var type addr => exact hload ..
    | sysvar type self var => exact hload ..
    | syscall self func => simp [nodeCode]
  | sys o =>
    simp only [nodeCode]
    cases width type <;> simp
  | func =>
    simp only [nodeCode]
    split <;> simp
  | assign =>
    simp only [nodeCode, assignCode]
    split
    · exact hstore _
    · exact hstore _
    · simp
  | preinc => exact hbefore _
  | predec => exact hbefore _
  | inc => exact hafter _
  | dec => exact hafter _
  | getvalue =>
    simp only [nodeCode]
    cases isAddr <;> cases width type <;> simp
  | _ => simp [nodeCode]

theorem nodeDrift_le {kind : Kind} {child : Tree} (type : ℕ) (h : kind.Arity child.siblings) :
    nodeDrift kind type child ≤ child.siblings := by
  cases kind with
  | id sym =>
    simp only [nodeDrift]
    split <;> omega
  | sys o =>
    cases o with
    | bitwise => exact Int.natCast_nonneg _
    | _ =>
      have htwo : child.siblings = 2 := h
      simp only [nodeDrift, htwo]
      split <;> decide
  | assign =>
    have htwo : child.siblings = 2 := h
    simp only [nodeDrift, htwo]
    split <;> decide
  | _ => exact Int.natCast_nonneg _

/-- A tree leaves no more values than it has nodes. -/
theorem effect_compile_le : ∀ {t : Tree}, t.Shaped → t.siblings + t.drift ≤ t.size := by
  intro t
  induction t with
  | nil => exact fun _ => le_refl _
  | node kind dataType address child sibling ihchild ihsibling =>
    rintro ⟨harity, -, hchild, hsibling⟩
    have hdrift := nodeDrift_le (Tree.node kind dataType false child .nil).typeOf harity
    have hc := ihchild hchild
    have hs := ihsibling hsibling
    simp only [Tree.siblings, Tree.drift, Tree.size]
    push_cast
    omega

theorem below_compile : ∀ {t : Tree}, t.Shaped → t.size ≤ nodeMax → ∀ (isAddr : Bool) {k : ℤ},
    k + t.size + 6 ≤ stackMax → Below k (compile (typeCheck isAddr t)) := by
  intro t
  induction t with
  | nil => exact fun _ _ _ _ _ => trivial
  | node kind dataType address child sibling ihchild ihsibling =>
    rintro ⟨harity, rfl, hchild, hsibling⟩ hsize isAddr k hk
    simp only [Tree.size] at hsize hk
    push_cast at hk
    have hdrift := nodeDrift_le (Tree.node kind dataType false child sibling).typeOf harity
    have hleft := effect_compile_le hchild
    have hc := effect_compile hchild (by omega) (kind.childAddress isAddr)
    have hnode := effect_nodeCode (Tree.node kind dataType false child sibling).typeOf
      (if kind.isSyscall then false else false || isAddr) (kind.childAddress isAddr) harity
      (by omega)
    have hlen := nodeCode_length kind (Tree.node kind dataType false child sibling).typeOf
      (if kind.isSyscall then false else false || isAddr)
      (typeCheck (kind.childAddress isAddr) child)
    rw [typeCheck_node, compile, below_append, below_append, effect_append, hnode, hc]
    refine ⟨⟨ihchild hchild (by omega) _ (by omega), ?_⟩, ?_⟩
    · exact below_of_length (by omega)
    · exact ihsibling hsibling (by omega) _ (by omega)

/-! ### Lines -/

/-- The expression statements of a line. -/
def Tree.statements : Tree → List Tree
  | nil => []
  | node kind dataType address child sibling =>
    node kind dataType address child nil :: sibling.statements

/-- The code of a statement. -/
def statementCode (statement : Tree) : List Instr := compile (typeCheck false statement)

/-- The discipline of the stack, when the code of a line is executed on an empty one: no instruction
    takes more than there is, nothing is pushed behind the end, and every statement leaves one value. -/
structure Disciplined (root : Tree) : Prop where
  pops : ∀ done i rest, done ++ i :: rest = finshCompilerRun root → ∀ call stack m,
    (i.takes : ℤ) ≤ (exec call (.start stack m) done).sp
  pushes : ∀ done rest, done ++ rest = finshCompilerRun root → ∀ call stack m,
    (exec call (.start stack m) done).sp ≤ stackMax
  one : ∀ statement ∈ root.statements, ∀ call v,
    (exec call v (statementCode statement)).sp = v.sp + 1

theorem fed_iff {k : ℤ} {code : List Instr} : Fed k code ↔
    ∀ done i rest, done ++ i :: rest = code → (i.takes : ℤ) ≤ k + effect done := by
  constructor
  · rintro h done i rest rfl
    exact (fed_append.1 h).2.1
  · induction code generalizing k with
    | nil => exact fun _ => trivial
    | cons i code ih =>
      intro h
      refine ⟨by simpa using h [] i code rfl, ih fun done j rest hcode => ?_⟩
      have hj := h (i :: done) j rest (congrArg (i :: ·) hcode)
      rwa [effect_cons, ← Int.add_assoc] at hj

theorem Below.le {k : ℤ} {code : List Instr} (h : Below k code) (hk : k ≤ stackMax) :
    k + effect code ≤ stackMax := by
  induction code generalizing k with
  | nil => simpa using hk
  | cons i code ih =>
    rw [effect_cons, ← Int.add_assoc]
    exact ih h.2 h.1

theorem Tree.statements_spec {t : Tree} (h : t.Shaped) : ∀ s ∈ t.statements,
    s.Shaped ∧ s.size ≤ t.size ∧ s.siblings = 1 := by
  induction t with
  | nil => simp [Tree.statements]
  | node kind dataType address child sibling _ ih =>
    intro s hs
    obtain rfl | hs := List.mem_cons.1 hs
    · exact ⟨⟨h.1, h.2.1, h.2.2.1, trivial⟩, by simp only [Tree.size]; omega, rfl⟩
    · obtain ⟨hshaped, hsize, hone⟩ := ih h.2.2.2 s hs
      exact ⟨hshaped, by simp only [Tree.size]; omega, hone⟩

/-- The code of a statement leaves one value, but for the drift. -/
theorem effect_statementCode {root s : Tree} (h : root.Shaped) (hsize : root.size ≤ nodeMax)
    (hs : s ∈ root.statements) : effect (statementCode s) = 1 + s.drift := by
  obtain ⟨hshaped, hle, hone⟩ := Tree.statements_spec h s hs
  rw [statementCode, effect_compile hshaped (hle.trans hsize), hone]
  rfl

theorem below_finshCompilerRun {t : Tree} (h : t.Shaped) (hsize : t.size ≤ nodeMax) {k : ℤ}
    (hk : k + t.size + 6 ≤ stackMax) : Below k (finshCompilerRun t) := by
  induction t generalizing k with
  | nil => trivial
  | node kind dataType address child sibling _ ih =>
    have hone : Tree.Shaped (.node kind dataType address child .nil) :=
      ⟨h.1, h.2.1, h.2.2.1, trivial⟩
    have hle := effect_compile_le hone
    simp only [Tree.size] at hsize hk
    push_cast at hk
    have hfirst : (Tree.node kind dataType address child .nil).size = 1 + child.size := rfl
    have heffect := effect_compile hone (by omega) false
    rw [finshCompilerRun_node, below_append]
    refine ⟨below_compile hone (by omega) false (by rw [hfirst]; push_cast; omega), ?_⟩
    rw [heffect]
    split
    · trivial
    · rw [hfirst] at hle
      push_cast at hle
      have hpop : Instr.pop.effect = -1 := rfl
      refine ⟨?_, ih h.2.2.2 (by omega) ?_⟩
      · rw [hpop]
        omega
      · rw [hpop]
        omega

/-- Where every statement leaves one value, each of them begins on an empty stack. -/
theorem fed_finshCompilerRun {t : Tree} (h : t.Shaped) (hsize : t.size ≤ nodeMax)
    (hone : ∀ s ∈ t.statements, s.drift = 0) :
    Fed 0 (finshCompilerRun t) ↔ ∀ s ∈ t.statements, s.Enough false 0 := by
  induction t with
  | nil => simp [Tree.statements, finshCompilerRun, typeCheck, compileStatements, Fed]
  | node kind dataType address child sibling _ ih =>
    simp only [Tree.size] at hsize
    have hshaped : Tree.Shaped (.node kind dataType address child .nil) :=
      ⟨h.1, h.2.1, h.2.2.1, trivial⟩
    have hfirst : (Tree.node kind dataType address child .nil).size = 1 + child.size := rfl
    have hdrift := hone (.node kind dataType address child .nil) (List.mem_cons_self ..)
    have heffect := effect_compile hshaped (by omega) false
    rw [hdrift] at heffect
    have hrest := ih h.2.2.2 (by omega) fun s hs => hone s (List.mem_cons_of_mem _ hs)
    rw [finshCompilerRun_node, fed_append, fed_compile hshaped (by omega) false (le_refl 0), heffect,
      Tree.statements, List.forall_mem_cons, ← hrest]
    refine and_congr_right fun _ => ?_
    cases sibling with
    | nil => exact Iff.rfl
    | node kind₂ dataType₂ address₂ child₂ sibling₂ =>
      have hne : Tree.node kind₂ dataType₂ address₂ child₂ sibling₂ ≠ .nil := by simp
      rw [if_neg hne]
      refine and_iff_right ?_
      change ((1 : ℕ) : ℤ) ≤ 0 + (((1 : ℕ) : ℤ) + 0)
      decide

theorem Disciplined.fed {root : Tree} (h : Disciplined root) : Fed 0 (finshCompilerRun root) := by
  refine fed_iff.2 fun done i rest hcode => ?_
  have htakes := h.pops done i rest hcode (fun _ _ m => (0, m)) (fun _ => 0) fun _ => 0
  rwa [exec_sp] at htakes

theorem disciplined_iff {root : Tree} (h : root.Shaped) (hsize : root.size ≤ nodeMax) :
    Disciplined root ↔ ∀ s ∈ root.statements, s.drift = 0 ∧ s.Enough false 0 := by
  have hsp : ∀ done call stack m, (exec call (.start stack m) done).sp = 0 + effect done :=
    fun done call stack m => exec_sp call done _
  constructor
  · intro hd
    have hone : ∀ s ∈ root.statements, s.drift = 0 := by
      intro s hs
      have hleaves := hd.one s hs (fun _ _ m => (0, m)) (.start (fun _ => 0) fun _ => 0)
      rw [exec_sp, effect_statementCode h hsize hs] at hleaves
      omega
    exact fun s hs => ⟨hone s hs, (fed_finshCompilerRun h hsize hone).1 hd.fed s hs⟩
  · intro hd
    have hone : ∀ s ∈ root.statements, s.drift = 0 := fun s hs => (hd s hs).1
    have hfed := (fed_finshCompilerRun h hsize hone).2 fun s hs => (hd s hs).2
    have hbelow : Below 0 (finshCompilerRun root) := by
      refine below_finshCompilerRun h hsize ?_
      simp only [nodeMax] at hsize
      simp only [stackMax]
      omega
    refine ⟨?_, ?_, ?_⟩
    · intro done i rest hcode call stack m
      rw [hsp]
      exact fed_iff.1 hfed done i rest hcode
    · intro done rest hcode call stack m
      rw [← hcode] at hbelow
      rw [hsp]
      exact (below_append.1 hbelow).1.le (by decide)
    · intro s hs call v
      rw [exec_sp, effect_statementCode h hsize hs, hone s hs, Int.add_zero]

/-- Every identifier loads a value, and every operator and assignment emits its code. -/
def Tree.Steady : Tree → Prop
  | nil => True
  | node kind dataType _ child sibling =>
    nodeDrift kind (node kind dataType false child nil).typeOf child = 0 ∧
      child.Steady ∧ sibling.Steady

/-- The lines that one expects: nothing is left too much or too little, and nothing is missing. -/
theorem Tree.Steady.enough {t : Tree} (h : t.Steady) (hshaped : t.Shaped) :
    t.drift = 0 ∧ ∀ (isAddr : Bool) {k : ℤ}, 0 ≤ k → t.Enough isAddr k := by
  induction t with
  | nil => exact ⟨rfl, fun _ _ _ => trivial⟩
  | node kind dataType address child sibling ihchild ihsibling =>
    obtain ⟨hnode, hchild, hsibling⟩ := h
    obtain ⟨hc, hchild⟩ := ihchild hchild hshaped.2.2.1
    obtain ⟨hs, hsibling⟩ := ihsibling hsibling hshaped.2.2.2
    refine ⟨by rw [Tree.drift, hnode, hc, hs]; rfl, ?_⟩
    intro isAddr k hk
    have htakes : nodeTakes kind isAddr (Tree.node kind dataType false child .nil).typeOf child ≤
        child.siblings := by
      have harity := hshaped.1
      cases kind with
      | sys o =>
        cases o with
        | bitwise =>
          have hone : child.siblings = 1 := harity
          simp only [nodeTakes, hone]
          split <;> decide
        | _ =>
          have htwo : child.siblings = 2 := harity
          simp only [nodeTakes, htwo]
          split <;> decide
      | assign =>
        have htwo : child.siblings = 2 := harity
        simp only [nodeTakes, htwo]
        split <;> decide
      | preinc | predec | getvalue =>
        have hone : child.siblings = 1 := harity
        simp only [nodeTakes, hone]
        split <;> decide
      | func => exact le_refl _
      | _ => exact Nat.zero_le _
    refine ⟨hchild _ hk, ?_, ?_⟩
    · rw [hc]
      omega
    · rw [hc, hnode]
      exact hsibling false (by omega)

/-- Every line that is accepted is an error of the compiler, or disciplined. -/
def StackSafe (env : Env) (vars : Vars) (tokens : List Token) : Prop :=
  ∀ root, finshParserRun env vars tokens = some root →
    compileError (typeCheck false root) ∨ Disciplined root

/-- The stack is used as it should if every statement has as many identifiers that load nothing as
    operators and assignments that emit nothing, and no node comes to lack its operands before. -/
theorem stackSafe_iff (env : Env) (vars : Vars) (tokens : List Token) :
    StackSafe env vars tokens ↔ ∀ root, finshParserRun env vars tokens = some root →
      compileError (typeCheck false root) ∨
        ∀ s ∈ root.statements, s.drift = 0 ∧ s.Enough false 0 := by
  constructor
  · intro h root hroot
    obtain ⟨hshaped, hsize⟩ := finshParserRun_shaped hroot
    exact (h root hroot).imp_right (disciplined_iff hshaped hsize).1
  · intro h root hroot
    obtain ⟨hshaped, hsize⟩ := finshParserRun_shaped hroot
    exact (h root hroot).imp_right (disciplined_iff hshaped hsize).2

/-- `v = 1;` with a `void *`: the store finds one value, and takes what is before the stack for an
    address. -/
theorem not_stackSafe : ¬∀ env vars tokens, StackSafe env vars tokens := by
  intro h
  let env : Env := ⟨fun _ => none, fun _ => none, 0x20000000, fun _ => 0⟩
  obtain ⟨root, hroot, herror, hcode⟩ : ∃ root,
      finshParserRun env [some ([118], .voidp)] [.identifier [118], .assign, .valueInt 1,
        .semicolon] = some root ∧ compileError (typeCheck false root) = false ∧
      finshCompilerRun root = [.ldDword 1, .st .dword, .ldValueStack .dword] := by
    refine ⟨_, rfl, ?_, ?_⟩
    · decide +kernel
    · decide +kernel
  obtain herror' | hd := h env _ _ root hroot
  · rw [herror] at herror'
    cases herror'
  · have htakes := hd.pops [.ldDword 1] (.st .dword) [.ldValueStack .dword] hcode.symm
      (fun _ _ m => (0, m)) (fun _ => 0) fun _ => 0
    exact absurd htakes (by decide)

end EasyCore.Finsh
