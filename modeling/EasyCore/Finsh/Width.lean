import EasyCore.Finsh.Stack

/-! The accesses to the memory. In C an access to an object of the type `T` has `sizeof(T)` bytes; here
    the type check gives a dereference the type of data of the pointer, and `++` and `--` take every
    identifier for a variable. -/

namespace EasyCore.Finsh

/-! ### What is accessed -/

def Access.bytes : Access → ℕ
  | read w _ | write w _ => w.bytes

def Access.addr : Access → UInt32
  | read _ addr | write _ addr => addr

def Access.isWrite : Access → Bool
  | read .. => false
  | write .. => true

/-- What an instruction accesses; a function that is called is not looked into. -/
def Instr.touches (v : Vm) : Instr → List Access
  | ldValue w addr => [.read w addr]
  | st w => [.write w (v.slot 2)]
  | ldValueStack w => [.read w (v.slot 1)]
  | _ => []

/-- What a code accesses. -/
def touched (call : Calls) : Vm → List Instr → List Access
  | _, [] => []
  | v, i :: code => i.touches v ++ touched call (i.run call v) code

/-- A store leaves what is not among its bytes. -/
theorem store_of_ge (w : Width) (m : Mem) (a v x : UInt32) (h : w.bytes ≤ (x - a).toNat) :
    w.store m a v x = m x := by
  have hne : ∀ i : UInt32, i.toNat < w.bytes → x ≠ a + i := by
    rintro i hi rfl
    rw [UInt32.add_comm a i, UInt32.add_sub_cancel] at h
    omega
  have hzero : 0 < w.bytes → x ≠ a := by
    rintro h0 rfl
    rw [UInt32.sub_self] at h
    exact absurd h (Nat.not_le.2 h0)
  cases w with
  | byte => exact if_neg (hzero (by decide))
  | word =>
    have h1 := hne 1 (by decide)
    simp only [Width.store, Mem.set, if_neg h1, if_neg (hzero (by decide))]
  | dword =>
    have h1 := hne 1 (by decide)
    have h2 := hne 2 (by decide)
    have h3 := hne 3 (by decide)
    simp only [Width.store, Mem.set, if_neg h1, if_neg h2, if_neg h3, if_neg (hzero (by decide))]

def Instr.isCall : Instr → Bool
  | syscall _ => true
  | _ => false

/-- The memory changes among the bytes that are written. -/
theorem exec_mem_of_touched (call : Calls) {code : List Instr} (hcode : ∀ i ∈ code, i.isCall = false)
    {v : Vm} {x : UInt32}
    (h : ∀ a ∈ touched call v code, a.isWrite → a.bytes ≤ (x - a.addr).toNat) :
    (exec call v code).mem x = v.mem x := by
  induction code generalizing v with
  | nil => rfl
  | cons i code ih =>
    have hrun : (i.run call v).mem x = v.mem x := by
      have hi := hcode i (List.mem_cons_self ..)
      cases i with
      | op o w => cases o <;> rfl
      | st w =>
        have hst := h (.write w (v.slot 2)) (List.mem_append_left _ (List.mem_singleton_self _)) rfl
        exact store_of_ge w v.mem (v.slot 2) (v.slot 1) x hst
      | syscall n => cases hi
      | _ => rfl
    have hrest := ih (fun i hi => hcode i (List.mem_cons_of_mem _ hi))
      fun a ha => h a (List.mem_append_right _ ha)
    exact hrest.trans hrun

/-! ### Objects -/

/-- `sizeof` -/
def FinshType.size : FinshType → Option ℕ
  | void => none
  | char | uchar => some 1
  | short | ushort => some 2
  | voidp | charp | shortp | int | uint | intp | long | ulong | longp => some 4

/-- The size of what a pointer points to. -/
def FinshType.pointeeSize : FinshType → Option ℕ
  | charp => some 1
  | shortp => some 2
  | intp | longp => some 4
  | _ => none

/-- The size of what a cast to a pointer points to. -/
def castPointeeSize (code : ℕ) : Option ℕ :=
  if code = FinshType.charp.code then some 1
  else if code = FinshType.shortp.code then some 2
  else if code = FinshType.intp.code ∨ code = FinshType.longp.code then some 4
  else none

def Sym.size : Sym → Option ℕ
  | .var type _ | .sysvar type .. => type.size
  | .syscall .. => none

/-- Where the value of a variable is. -/
def Sym.location : Sym → Option UInt32
  | .var _ addr => some addr
  | .sysvar _ _ addr => some addr
  | .syscall .. => none

/-- The size of what an expression points to, as its type in C says. -/
def Tree.pointeeSize : Tree → Option ℕ
  | nil => none
  | node kind dataType _ child _ =>
    if dataType ≠ 0 then castPointeeSize dataType
    else
      match kind with
      | .id (.var type _) | .id (.sysvar type ..) => type.pointeeSize
      | .valueString _ => some 1
      | .assign | .preinc | .predec | .inc | .dec => child.pointeeSize
      | .getaddr =>
        match child with
        | node (.id sym) .. => sym.size
        | node .getvalue _ _ pointer _ => pointer.pointeeSize
        | _ => none
      | _ => none

/-- The size of the object that an identifier or a dereference stands for. -/
def Tree.objSize : Tree → Option ℕ
  | node (.id sym) .. => sym.size
  | node .getvalue _ _ child _ => child.pointeeSize
  | _ => none

/-- Where the object is: a pointer is evaluated on `v`. -/
def Tree.location (call : Calls) (v : Vm) : Tree → Option UInt32
  | node (.id sym) .. => sym.location
  | node .getvalue _ _ child _ =>
    some ((exec call v (compile (typeCheck false child))).slot 1)
  | _ => none

/-- The object that the code of a node accesses, and whether it is changed. -/
def Tree.accessed (isAddr : Bool) : Tree → Option (Tree × Bool)
  | node (.id sym) dataType address child sibling =>
    if isAddr then none else some (node (.id sym) dataType address child sibling, false)
  | node .getvalue dataType address child sibling =>
    if isAddr then none else some (node .getvalue dataType address child sibling, false)
  | node .assign _ _ child _ | node .preinc _ _ child _ | node .predec _ _ child _
  | node .inc _ _ child _ | node .dec _ _ child _ => some (child, true)
  | _ => none

/-- The code of a node without its child. -/
def Tree.ownCode (isAddr : Bool) : Tree → List Instr
  | nil => []
  | node kind dataType address child sibling =>
    nodeCode kind (node kind dataType address child sibling).typeOf
      (if kind.isSyscall then address else address || isAddr)
      (typeCheck (kind.childAddress isAddr) child)

/-- The code of the child of a node. -/
def Tree.childCode (isAddr : Bool) : Tree → List Instr
  | nil => []
  | node kind _ _ child _ => compile (typeCheck (kind.childAddress isAddr) child)

theorem compile_typeCheck (isAddr : Bool) (kind : Kind) (dataType : ℕ) (address : Bool)
    (child sibling : Tree) :
    compile (typeCheck isAddr (.node kind dataType address child sibling)) =
      (Tree.node kind dataType address child sibling).childCode isAddr ++
        (Tree.node kind dataType address child sibling).ownCode isAddr ++
        compile (typeCheck false sibling) := by
  rw [typeCheck_node]
  rfl

/-- A code accesses `n` bytes at `loc`, every time, and no others; it writes them, or only reads. -/
structure Touches (call : Calls) (v : Vm) (code : List Instr) (n : ℕ) (loc : UInt32)
    (writes : Bool) : Prop where
  exact : ∀ a ∈ touched call v code, a.bytes = n ∧ a.addr = loc
  some : ∃ a ∈ touched call v code, a.isWrite = writes
  only : ∀ a ∈ touched call v code, a.isWrite → writes
  others : ∀ x, n ≤ (x - loc).toNat → (exec call v code).mem x = v.mem x

/-- The code of a node, run behind that of its child, accesses the object of the node as it should. -/
def Tree.NodeExact (call : Calls) (isAddr : Bool) (v : Vm) (t : Tree) : Prop :=
  ∀ object writes n loc, t.accessed isAddr = some (object, writes) → object.objSize = some n →
    object.location call v = some loc →
    Touches call (exec call v (t.childCode isAddr)) (t.ownCode isAddr) n loc writes

/-- So do all nodes of a tree, run one after the other. -/
def Tree.Exact (call : Calls) : Bool → Vm → Tree → Prop
  | _, _, nil => True
  | isAddr, v, node kind dataType address child sibling =>
    child.Exact call (kind.childAddress isAddr) v ∧
    (node kind dataType address child sibling).NodeExact call isAddr v ∧
    sibling.Exact call false (exec call v
      ((node kind dataType address child sibling).childCode isAddr ++
        (node kind dataType address child sibling).ownCode isAddr))

/-! ### When the widths are right -/

/-- The bytes of a type of data. -/
def typeBytes (type : ℕ) : Option ℕ := (width type).map Width.bytes

/-- An identifier whose value is where a variable has it: 20 bytes behind its name. -/
def Tree.isVar : Tree → Prop
  | node (.id sym) .. => sym.location = some sym.valueAddr
  | _ => False

/-- What a node must be for its widths to be right. -/
def Tree.NodeWide (isAddr : Bool) : Tree → Prop
  | node (.id sym) .. => isAddr = false → sym.size ≠ none → sym.isVoid = false
  | node .getvalue dataType address child sibling => isAddr = false → ∀ n,
    child.pointeeSize = some n →
      typeBytes (node .getvalue dataType address child sibling).typeOf = some n
  | node .assign _ _ child _ => ∀ n, child.objSize = some n → typeBytes (child.typeOf % 16) = some n
  | node .preinc _ _ child _ | node .predec _ _ child _ =>
    ∀ n, child.objSize = some n → child.isVar ∧ n = 4
  | node .inc _ _ child _ | node .dec _ _ child _ => ∀ n, child.objSize = some n → child.isVar
  | _ => True

/-- All nodes of a tree have the right widths. -/
def Tree.Wide : Bool → Tree → Prop
  | _, nil => True
  | isAddr, node kind dataType address child sibling =>
    child.Wide (kind.childAddress isAddr) ∧
    (node kind dataType address child sibling).NodeWide isAddr ∧ sibling.Wide false

/-! ### They must be -/

/-- The type of data of an identifier has the size of its type. -/
theorem typeBytes_size {type : FinshType} {n : ℕ} (h : type.size = some n) :
    typeBytes type.dataType = some n := by
  cases type <;> cases h <;> rfl

/-- A code without calls touches what it accesses. -/
theorem touches_of {call : Calls} {v : Vm} {code : List Instr} {acc : List Access} {n : ℕ}
    {loc : UInt32} {writes : Bool} (hcode : ∀ i ∈ code, i.isCall = false)
    (htouched : touched call v code = acc) (hexact : ∀ a ∈ acc, a.bytes = n ∧ a.addr = loc)
    (hsome : ∃ a ∈ acc, a.isWrite = writes) (honly : ∀ a ∈ acc, a.isWrite → writes) :
    Touches call v code n loc writes := by
  subst htouched
  refine ⟨hexact, hsome, honly, fun x hx => exec_mem_of_touched call hcode fun a ha _ => ?_⟩
  obtain ⟨hbytes, haddr⟩ := hexact a ha
  rwa [hbytes, haddr]

theorem touches_load {call : Calls} {v : Vm} {w : Width} {addr loc : UInt32} {n : ℕ} :
    Touches call v [.ldValue w addr] n loc false ↔ w.bytes = n ∧ addr = loc := by
  constructor
  · intro h
    exact h.exact (.read w addr) (List.mem_singleton_self _)
  · rintro ⟨rfl, rfl⟩
    exact touches_of (by simp [Instr.isCall]) rfl (by simp [Instr.touches, touched, Access.bytes,
      Access.addr]) ⟨_, List.mem_singleton_self _, rfl⟩ (by simp [touched, Instr.touches, Access.isWrite])

theorem touches_loadStack {call : Calls} {v : Vm} {w : Width} {loc : UInt32} {n : ℕ} :
    Touches call v [.ldValueStack w] n loc false ↔ w.bytes = n ∧ v.slot 1 = loc := by
  constructor
  · intro h
    exact h.exact (.read w (v.slot 1)) (List.mem_singleton_self _)
  · rintro ⟨rfl, rfl⟩
    exact touches_of (by simp [Instr.isCall]) rfl (by simp [Instr.touches, touched, Access.bytes,
      Access.addr]) ⟨_, List.mem_singleton_self _, rfl⟩ (by simp [touched, Instr.touches, Access.isWrite])

theorem not_touches_nil {call : Calls} {v : Vm} {n : ℕ} {loc : UInt32} {writes : Bool} :
    ¬Touches call v [] n loc writes := by
  intro h
  obtain ⟨a, ha, -⟩ := h.some
  cases ha

/-- An assignment stores, and loads the value again. -/
theorem touches_store {call : Calls} {v : Vm} {w : Width} {loc : UInt32} {n : ℕ} :
    Touches call v [.st w, .ldValueStack w] n loc true ↔ w.bytes = n ∧ v.slot 2 = loc := by
  have hsame : ((Instr.st w).run call v).slot 1 = v.slot 2 := by
    rw [Instr.run, Vm.drop_slot, Vm.log_slot, Vm.setMem_slot]
    rfl
  have htouched : touched call v [.st w, .ldValueStack w] =
      [.write w (v.slot 2), .read w (v.slot 2)] := by
    rw [touched, touched, touched, Instr.touches, Instr.touches, hsame]
    rfl
  constructor
  · intro h
    refine h.exact (.write w (v.slot 2)) ?_
    rw [htouched]
    exact List.mem_cons_self ..
  · rintro ⟨rfl, rfl⟩
    exact touches_of (by simp [Instr.isCall]) htouched (by simp [Access.bytes, Access.addr])
      ⟨_, List.mem_cons_self .., rfl⟩ fun _ _ _ => rfl

/-- `++` and `--` in front of an identifier: in the end four bytes are read. -/
theorem touches_stepBefore {call : Calls} {v : Vm} {o : Op} (ho : o = .add ∨ o = .sub) {w : Width}
    {addr loc : UInt32} {n : ℕ} :
    Touches call v [.ldValue w addr, ldOne w, .op o w, .st w, .ldValueStack .dword] n loc true ↔
      w.bytes = n ∧ n = 4 ∧ addr = loc ∧ v.slot 1 = loc := by
  have htouched : touched call v [.ldValue w addr, ldOne w, .op o w, .st w, .ldValueStack .dword] =
      [.read w addr, .write w (v.slot 1), .read .dword (v.slot 1)] := by
    obtain rfl | rfl := ho <;> cases w <;>
      simp [touched, Instr.touches, Instr.run, ldOne]
  constructor
  · intro h
    have hread := h.exact (.read w addr) (by rw [htouched]; simp)
    have hlast := h.exact (.read .dword (v.slot 1)) (by rw [htouched]; simp)
    exact ⟨hread.1, hlast.1.symm, hread.2, hlast.2⟩
  · rintro ⟨rfl, hfour, rfl, hslot⟩
    have hcode : ∀ i ∈ [.ldValue w addr, ldOne w, .op o w, .st w, .ldValueStack .dword],
        i.isCall = false := by
      cases w <;> simp [Instr.isCall, ldOne]
    have hexact : ∀ a ∈ [Access.read w addr, .write w (v.slot 1), .read .dword (v.slot 1)],
        a.bytes = w.bytes ∧ a.addr = addr := by
      have hdword : w = .dword := by
        cases w <;> first | rfl | cases hfour
      simp [hslot, Access.bytes, Access.addr, hdword]
    exact touches_of hcode htouched hexact ⟨.write w (v.slot 1), by simp, rfl⟩ fun _ _ _ => rfl

/-- `++` and `--` behind an identifier. -/
theorem touches_stepAfter {call : Calls} {v : Vm} {o : Op} (ho : o = .add ∨ o = .sub) {w : Width}
    {addr loc : UInt32} {n : ℕ} :
    Touches call v [.ldDword addr, .ldValue w addr, ldOne w, .op o w, .st w, .pop] n loc true ↔
      w.bytes = n ∧ addr = loc := by
  have htouched : touched call v
      [.ldDword addr, .ldValue w addr, ldOne w, .op o w, .st w, .pop] =
      [.read w addr, .write w addr] := by
    obtain rfl | rfl := ho <;> cases w <;>
      simp [touched, Instr.touches, Instr.run, ldOne]
  constructor
  · intro h
    exact h.exact (.read w addr) (by rw [htouched]; simp)
  · rintro ⟨rfl, rfl⟩
    have hcode : ∀ i ∈ [.ldDword addr, .ldValue w addr, ldOne w, .op o w, .st w, .pop],
        i.isCall = false := by
      cases w <;> simp [Instr.isCall, ldOne]
    exact touches_of hcode htouched (by simp [Access.bytes, Access.addr])
      ⟨.write w addr, by simp, rfl⟩ fun _ _ _ => rfl

/-! ### One node -/

/-- What `width` gives has the bytes of the type of data. -/
theorem typeBytes_eq {type n : ℕ} : typeBytes type = some n ↔ ∃ w, width type = some w ∧ w.bytes = n :=
  Option.map_eq_some_iff

theorem touches_store_iff {call : Calls} {v : Vm} {type n : ℕ} {loc : UInt32} :
    Touches call v (store type) n loc true ↔ typeBytes type = some n ∧ v.slot 2 = loc := by
  rw [store, typeBytes]
  cases width type with
  | none => simp [not_touches_nil]
  | some w => simp [touches_store]

theorem dataType_lt (type : FinshType) : type.dataType < 4 := by cases type <;> decide

/-- The symbol of an identifier has no child, so that its type is its own. -/
theorem typeBytes_id {sym : Sym} {dataType : ℕ} {address : Bool} {child sibling : Tree} {n : ℕ}
    (h : Tree.Shaped (.node (.id sym) dataType address child sibling)) (hsize : sym.size = some n) :
    typeBytes (Tree.node (.id sym) dataType address child sibling).typeOf = some n ∧
      (Tree.node (.id sym) dataType address child sibling).typeOf < 4 := by
  have hchild : child = .nil := by
    cases child with
    | nil => rfl
    | node => exact absurd h.1 (by simp [Kind.Arity, Tree.siblings])
  subst hchild
  cases sym with
  | var type addr => exact ⟨typeBytes_size hsize, dataType_lt type⟩
  | sysvar type self var => exact ⟨typeBytes_size hsize, dataType_lt type⟩
  | syscall self func => cases hsize

/-- What stands for an object is an identifier or a dereference. -/
theorem objSize_cases {t : Tree} {n : ℕ} (h : t.objSize = some n) :
    (∃ sym dataType address child sibling, t = .node (.id sym) dataType address child sibling ∧
      sym.size = some n) ∨
    ∃ dataType address child sibling, t = .node .getvalue dataType address child sibling ∧
      child.pointeeSize = some n := by
  cases t with
  | nil => cases h
  | node kind dataType address child sibling =>
    cases kind with
    | id sym => exact .inl ⟨sym, dataType, address, child, sibling, rfl, h⟩
    | getvalue => exact .inr ⟨dataType, address, child, sibling, rfl, h⟩
    | _ => cases h

/-- An object is somewhere. -/
theorem location_of_size {sym : Sym} {n : ℕ} (h : sym.size = some n) :
    ∃ loc, sym.location = some loc := by
  cases sym with
  | var type addr => exact ⟨addr, rfl⟩
  | sysvar type self var => exact ⟨var, rfl⟩
  | syscall self func => cases h

/-- The code of an assignment to an object. -/
theorem touches_assign {call : Calls} {v v₁ : Vm} {isAddr : Bool} {child : Tree} {n : ℕ}
    {loc : UInt32} (hshaped : child.Shaped) (hn : child.objSize = some n)
    (hloc : child.location call v = some loc) :
    Touches call v₁ (assignCode (typeCheck isAddr child)) n loc true ↔
      typeBytes (child.typeOf % 16) = some n ∧ v₁.slot 2 = loc := by
  obtain ⟨sym, dataType, address, c, sibling, rfl, hsize⟩ | ⟨dataType, address, c, sibling, rfl, -⟩ :=
    objSize_cases hn
  · obtain ⟨-, hlt⟩ := typeBytes_id hshaped hsize
    rw [typeCheck_node, Nat.mod_eq_of_lt (by omega)]
    exact touches_store_iff
  · rw [typeCheck_node]
    exact touches_store_iff

/-- The code of `++` and `--` in front of an object. -/
theorem touches_before {call : Calls} {v v₁ : Vm} {o : Op} (ho : o = .add ∨ o = .sub)
    {isAddr : Bool} {child : Tree} {n : ℕ} {loc : UInt32} (hshaped : child.Shaped)
    (hn : child.objSize = some n) (hloc : child.location call v = some loc) :
    Touches call v₁ (stepBefore o child.typeOf (typeCheck isAddr child)) n loc true ↔
      (child.isVar ∧ n = 4) ∧ v₁.slot 1 = loc := by
  obtain ⟨sym, dataType, address, c, sibling, rfl, hsize⟩ | ⟨dataType, address, c, sibling, rfl, -⟩ :=
    objSize_cases hn
  · obtain ⟨htype, -⟩ := typeBytes_id hshaped hsize
    obtain ⟨w, hw, hbytes⟩ := typeBytes_eq.1 htype
    have hsame : sym.location = some loc := hloc
    simp only [typeCheck_node, stepBefore, hw, touches_stepBefore ho, Tree.isVar, hsame, hbytes,
      Option.some.injEq, true_and]
    tauto
  · simp [typeCheck_node, stepBefore, Tree.isVar, not_touches_nil]

/-- The code of `++` and `--` behind an object. -/
theorem touches_after {call : Calls} {v v₁ : Vm} {o : Op} (ho : o = .add ∨ o = .sub)
    {isAddr : Bool} {child : Tree} {n : ℕ} {loc : UInt32} (hshaped : child.Shaped)
    (hn : child.objSize = some n) (hloc : child.location call v = some loc) :
    Touches call v₁ (stepAfter o child.typeOf (typeCheck isAddr child)) n loc true ↔
      child.isVar := by
  obtain ⟨sym, dataType, address, c, sibling, rfl, hsize⟩ | ⟨dataType, address, c, sibling, rfl, -⟩ :=
    objSize_cases hn
  · obtain ⟨htype, -⟩ := typeBytes_id hshaped hsize
    obtain ⟨w, hw, hbytes⟩ := typeBytes_eq.1 htype
    have hsame : sym.location = some loc := hloc
    simp only [typeCheck_node, stepAfter, hw, touches_stepAfter ho, Tree.isVar, hsame, hbytes,
      Option.some.injEq, true_and]
    exact eq_comm
  · simp [typeCheck_node, stepAfter, Tree.isVar, not_touches_nil]

theorem exists_location (call : Calls) (v : Vm) {t : Tree} {n : ℕ} (h : t.objSize = some n) :
    ∃ loc, t.location call v = some loc := by
  obtain ⟨sym, dataType, address, c, sibling, rfl, hsize⟩ | ⟨dataType, address, c, sibling, rfl, -⟩ :=
    objSize_cases h
  · exact location_of_size hsize
  · exact ⟨_, rfl⟩

/-- The type of data of a node with an object below is that of the object. -/
theorem typeOf_of_objSize {kind : Kind} {dataType : ℕ} {address : Bool} {child sibling : Tree} {n : ℕ}
    (h : child.objSize = some n) :
    (Tree.node kind dataType address child sibling).typeOf = child.typeOf := by
  refine if_neg ?_
  rintro rfl
  cases h

/-- Nothing is emitted for a void identifier. -/
theorem nodeCode_void {sym : Sym} (h : sym.isVoid) (type : ℕ) (address : Bool) (child : Tree) :
    nodeCode (.id sym) type address child = [] := by
  cases sym with
  | var type addr => cases type <;> first | rfl | cases h
  | sysvar type self var => cases type <;> first | rfl | cases h
  | syscall self func => cases h

/-- What is emitted for another: a load of its value, or its address. -/
theorem nodeCode_id {sym : Sym} {n : ℕ} {loc : UInt32} (hsize : sym.size = some n)
    (hvoid : sym.isVoid = false) (hloc : sym.location = some loc) (type : ℕ) (child : Tree) :
    (∃ w : Width, w.bytes = n ∧ nodeCode (.id sym) type false child = [.ldValue w loc]) ∧
      nodeCode (.id sym) type true child = [.ldDword loc] := by
  have hload : ∀ (type : FinshType) (addr : UInt32), type.size = some n →
      (type = .void || type = .voidp) = false →
      (∃ w : Width, w.bytes = n ∧ loadId type false addr = [.ldValue w addr]) ∧
        loadId type true addr = [.ldDword addr] := by
    intro type addr hn hnot
    cases type <;> cases hn <;> first | exact ⟨⟨_, rfl, rfl⟩, rfl⟩ | cases hnot
  cases sym with
  | var type addr =>
    cases hloc
    exact hload type loc hsize hvoid
  | sysvar type self var =>
    cases hloc
    exact hload type loc hsize hvoid
  | syscall self func => cases hsize

/-- A node that accesses its object as it should has the right widths. -/
theorem nodeWide_of_exact {call : Calls} {isAddr : Bool} {v : Vm} {t : Tree} (hshaped : t.Shaped)
    (h : t.NodeExact call isAddr v) : t.NodeWide isAddr := by
  cases t with
  | nil => trivial
  | node kind dataType address child sibling =>
    obtain rfl : address = false := hshaped.2.1
    cases kind with
    | id sym =>
      rintro rfl hsize
      obtain ⟨n, hn⟩ := Option.ne_none_iff_exists'.1 hsize
      obtain ⟨loc, hloc⟩ := location_of_size hn
      have htouches := h _ _ n loc rfl hn hloc
      rw [← Bool.not_eq_true]
      intro hvoid
      rw [Tree.ownCode, nodeCode_void hvoid] at htouches
      exact not_touches_nil htouches
    | getvalue =>
      rintro rfl n hn
      have htouches := h _ _ n _ rfl hn rfl
      simp only [Tree.ownCode, nodeCode, Kind.isSyscall, Bool.false_or] at htouches
      rw [typeBytes]
      cases hwidth : width (Tree.node .getvalue dataType false child sibling).typeOf with
      | none =>
        rw [hwidth] at htouches
        exact absurd htouches not_touches_nil
      | some w =>
        rw [hwidth] at htouches
        exact congrArg some (touches_loadStack.1 htouches).1
    | assign =>
      intro n hn
      obtain ⟨loc, hloc⟩ := exists_location call v hn
      exact ((touches_assign hshaped.2.2.1 hn hloc).1 (h _ _ n loc rfl hn hloc)).1
    | preinc =>
      intro n hn
      obtain ⟨loc, hloc⟩ := exists_location call v hn
      have htouches := h _ _ n loc rfl hn hloc
      rw [Tree.ownCode, typeOf_of_objSize hn] at htouches
      exact ((touches_before (.inl rfl) hshaped.2.2.1 hn hloc).1 htouches).1
    | predec =>
      intro n hn
      obtain ⟨loc, hloc⟩ := exists_location call v hn
      have htouches := h _ _ n loc rfl hn hloc
      rw [Tree.ownCode, typeOf_of_objSize hn] at htouches
      exact ((touches_before (.inr rfl) hshaped.2.2.1 hn hloc).1 htouches).1
    | inc =>
      intro n hn
      obtain ⟨loc, hloc⟩ := exists_location call v hn
      have htouches := h _ _ n loc rfl hn hloc
      rw [Tree.ownCode, typeOf_of_objSize hn] at htouches
      exact (touches_after (.inl rfl) hshaped.2.2.1 hn hloc).1 htouches
    | dec =>
      intro n hn
      obtain ⟨loc, hloc⟩ := exists_location call v hn
      have htouches := h _ _ n loc rfl hn hloc
      rw [Tree.ownCode, typeOf_of_objSize hn] at htouches
      exact (touches_after (.inr rfl) hshaped.2.2.1 hn hloc).1 htouches
    | _ => trivial

theorem wide_of_exact {call : Calls} : ∀ {t : Tree}, t.Shaped → ∀ (isAddr : Bool) {v : Vm},
    t.Exact call isAddr v → t.Wide isAddr := by
  intro t
  induction t with
  | nil => exact fun _ _ _ _ => trivial
  | node kind dataType address child sibling ihchild ihsibling =>
    intro hshaped isAddr v ⟨hchild, hnode, hsibling⟩
    exact ⟨ihchild hshaped.2.2.1 _ hchild, nodeWide_of_exact hshaped hnode,
      ihsibling hshaped.2.2.2 _ hsibling⟩

/-! ### They need not be more -/

/-- The slots below what an instruction takes stay. -/
theorem run_stack (call : Calls) (v : Vm) (i : Instr) {j : ℤ} (h : j < v.sp - i.takes) :
    (i.run call v).stack j = v.stack j := by
  have hj : j ≠ v.sp := by omega
  cases i with
  | noop | pop => rfl
  | ldByte c | ldWord s | ldDword l | ldValue w addr => exact if_neg hj
  | op o w =>
    cases o <;> (simp only [Instr.takes] at h; push_cast at h; exact if_neg (by omega))
  | st w => rfl
  | ldValueStack w =>
    simp only [Instr.takes] at h
    push_cast at h
    exact if_neg (by simp only [Vm.log]; omega)
  | syscall n =>
    simp only [Instr.takes] at h
    push_cast at h
    exact if_neg (by simp only [Vm.drop]; push_cast; omega)

/-- The slots below what a code is fed with stay. -/
theorem exec_stack (call : Calls) {code : List Instr} {k : ℤ} (hcode : Fed k code) {v : Vm} {j : ℤ}
    (h : j < v.sp - k) : (exec call v code).stack j = v.stack j := by
  induction code generalizing k v with
  | nil => rfl
  | cons i code ih =>
    have htakes := hcode.1
    have hrest := ih hcode.2 (v := i.run call v) (by rw [run_sp]; omega)
    exact hrest.trans (run_stack call v i (by omega))

/-- A tree that is steady leaves its value on what was there. -/
theorem slot_behind (call : Calls) {t : Tree} (hshaped : t.Shaped) (hsize : t.size ≤ nodeMax)
    (hsteady : t.Steady) (hone : t.siblings = 1) (v : Vm) :
    (exec call v (compile (typeCheck false t))).slot 2 = v.slot 1 := by
  obtain ⟨hdrift, henough⟩ := hsteady.enough hshaped
  have hsp := exec_sp call (compile (typeCheck false t)) v
  rw [effect_compile hshaped hsize, hdrift, hone] at hsp
  have hindex : v.sp + (((1 : ℕ) : ℤ) + 0) - 2 = v.sp - 1 := by omega
  rw [Vm.slot, hsp, hindex]
  exact exec_stack call ((fed_compile hshaped hsize false (le_refl 0)).2 (henough false (le_refl 0)))
    (by omega)

/-- The address of an object is put on the stack. -/
theorem slot_location (call : Calls) (v : Vm) {t : Tree} {n : ℕ} {loc : UInt32} (hshaped : t.Shaped)
    (hsteady : t.Steady) (hn : t.objSize = some n) (hloc : t.location call v = some loc) :
    (exec call v (t.childCode true ++ t.ownCode true)).slot 1 = loc := by
  obtain ⟨sym, dataType, address, c, sibling, rfl, hsize⟩ | ⟨dataType, address, c, sibling, rfl, -⟩ :=
    objSize_cases hn
  · have hvoid : sym.isVoid = false := by
      have hdrift := hsteady.1
      rw [nodeDrift] at hdrift
      cases h : sym.isVoid with
      | true => simp [h] at hdrift
      | false => rfl
    obtain ⟨-, hcode⟩ := nodeCode_id hsize hvoid (show sym.location = some loc from hloc)
      (Tree.node (.id sym) dataType address c sibling).typeOf (typeCheck true c)
    have hsyscall : (Kind.id sym).isSyscall = false := by
      cases sym with
      | syscall => cases hsize
      | _ => rfl
    have hown : Tree.ownCode true (.node (.id sym) dataType address c sibling) = [.ldDword loc] := by
      rw [Tree.ownCode, hsyscall, if_neg (by decide), Bool.or_true]
      exact hcode
    rw [exec_append, hown]
    exact (Vm.push_slot _ loc 1).trans (if_pos rfl)
  · have hown : Tree.ownCode true (.node .getvalue dataType address c sibling) = [] := by
      simp [Tree.ownCode, nodeCode, Kind.isSyscall]
    rw [hown, List.append_nil]
    exact Option.some.inj hloc

/-- The address of an object that stands alone. -/
theorem slot_alone (call : Calls) (v : Vm) {t : Tree} {n : ℕ} {loc : UInt32} (hshaped : t.Shaped)
    (hsteady : t.Steady) (hone : t.siblings = 1) (hn : t.objSize = some n)
    (hloc : t.location call v = some loc) :
    (exec call v (compile (typeCheck true t))).slot 1 = loc := by
  cases t with
  | nil => cases hn
  | node kind dataType address child sibling =>
    have hnil : sibling = .nil := by
      cases sibling with
      | nil => rfl
      | node =>
        simp only [Tree.siblings] at hone
        omega
    rw [compile_typeCheck, hnil, typeCheck, compile, List.append_nil, ← hnil]
    exact slot_location call v hshaped hsteady hn hloc

/-- The address of an object that stands before a value. -/
theorem slot_target (call : Calls) (v : Vm) {t : Tree} {n : ℕ} {loc : UInt32} (hshaped : t.Shaped)
    (hmax : t.size ≤ nodeMax) (hsteady : t.Steady) (htwo : t.siblings = 2) (hn : t.objSize = some n)
    (hloc : t.location call v = some loc) :
    (exec call v (compile (typeCheck true t))).slot 2 = loc := by
  cases t with
  | nil => cases hn
  | node kind dataType address child sibling =>
    simp only [Tree.siblings] at htwo
    simp only [Tree.size] at hmax
    rw [compile_typeCheck, exec_append,
      slot_behind call hshaped.2.2.2 (by omega) hsteady.2.2 (by omega)]
    exact slot_location call v hshaped hsteady hn hloc

/-- A node with the right widths accesses its object as it should. -/
theorem exact_of_nodeWide (call : Calls) {isAddr : Bool} (v : Vm) {t : Tree} (hshaped : t.Shaped)
    (hmax : t.size ≤ nodeMax) (hsteady : t.Steady) (h : t.NodeWide isAddr) :
    t.NodeExact call isAddr v := by
  intro object writes n loc hobject hn hloc
  cases t with
  | nil => cases hobject
  | node kind dataType address child sibling =>
    obtain rfl : address = false := hshaped.2.1
    have hchild : child.Shaped := hshaped.2.2.1
    have hle : child.size ≤ nodeMax := by
      simp only [Tree.size] at hmax
      omega
    cases kind with
    | id sym =>
      cases isAddr with
      | true => cases hobject
      | false =>
        cases hobject
        have hsize : sym.size = some n := hn
        obtain ⟨⟨w, hw, hcode⟩, -⟩ := nodeCode_id hsize (h rfl (by rw [hsize]; simp)) hloc
          (Tree.node (.id sym) dataType false child sibling).typeOf (typeCheck false child)
        have hsyscall : (Kind.id sym).isSyscall = false := by
          cases sym with
          | syscall => cases hsize
          | _ => rfl
        have hown : Tree.ownCode false (.node (.id sym) dataType false child sibling) =
            [.ldValue w loc] := by
          rw [Tree.ownCode, hsyscall]
          exact hcode
        rw [hown]
        exact touches_load.2 ⟨hw, rfl⟩
    | getvalue =>
      cases isAddr with
      | true => cases hobject
      | false =>
        cases hobject
        obtain ⟨w, hwidth, hw⟩ := typeBytes_eq.1 (h rfl n hn)
        have hown : Tree.ownCode false (.node .getvalue dataType false child sibling) =
            [.ldValueStack w] := by
          simp only [Tree.ownCode, nodeCode, Kind.isSyscall, Bool.false_or, hwidth]
          rfl
        rw [hown]
        exact touches_loadStack.2 ⟨hw, Option.some.inj hloc⟩
    | assign =>
      cases hobject
      have hslot := slot_target call v hchild hle hsteady.2.1 hshaped.1 hn hloc
      exact (touches_assign hchild hn hloc).2 ⟨h n hn, hslot⟩
    | preinc =>
      cases hobject
      have hslot := slot_alone call v hchild hsteady.2.1 hshaped.1 hn hloc
      rw [Tree.ownCode, typeOf_of_objSize hn]
      exact (touches_before (.inl rfl) hchild hn hloc).2 ⟨h n hn, hslot⟩
    | predec =>
      cases hobject
      have hslot := slot_alone call v hchild hsteady.2.1 hshaped.1 hn hloc
      rw [Tree.ownCode, typeOf_of_objSize hn]
      exact (touches_before (.inr rfl) hchild hn hloc).2 ⟨h n hn, hslot⟩
    | inc =>
      cases hobject
      rw [Tree.ownCode, typeOf_of_objSize hn]
      exact (touches_after (.inl rfl) hchild hn hloc).2 (h n hn)
    | dec =>
      cases hobject
      rw [Tree.ownCode, typeOf_of_objSize hn]
      exact (touches_after (.inr rfl) hchild hn hloc).2 (h n hn)
    | _ => cases hobject

theorem exact_of_wide (call : Calls) : ∀ {t : Tree}, t.Shaped → t.size ≤ nodeMax → t.Steady →
    ∀ {isAddr : Bool}, t.Wide isAddr → ∀ v : Vm, t.Exact call isAddr v := by
  intro t
  induction t with
  | nil => exact fun _ _ _ _ _ _ => trivial
  | node kind dataType address child sibling ihchild ihsibling =>
    intro hshaped hmax hsteady isAddr hwide v
    have hsize := hmax
    simp only [Tree.size] at hsize
    exact ⟨ihchild hshaped.2.2.1 (by omega) hsteady.2.1 hwide.1 v,
      exact_of_nodeWide call v hshaped hmax hsteady hwide.2.1,
      ihsibling hshaped.2.2.2 (by omega) hsteady.2.2 hwide.2.2 _⟩

/-! ### Lines -/

/-- Every assignment, `++`, `--` and load of a line accesses its object as it should, whatever the
    functions that are called do, and whatever is on the stack and in the memory. -/
def LineExact (env : Env) (vars : Vars) (tokens : List Token) : Prop :=
  ∀ root, finshParserRun env vars tokens = some root → compileError (typeCheck false root) ∨
    ∀ s ∈ root.statements, ∀ call v, s.Exact call false v

/-- A line has the widths of C if every value that it uses is there, and every dereference, `++` and
    `--` is of the width that the type check gives it. The widths are needed in every line. -/
theorem lineExact_of_wide (env : Env) (vars : Vars) (tokens : List Token) :
    ((∀ root, finshParserRun env vars tokens = some root → compileError (typeCheck false root) ∨
        ∀ s ∈ root.statements, s.Steady ∧ s.Wide false) → LineExact env vars tokens) ∧
      (LineExact env vars tokens → ∀ root, finshParserRun env vars tokens = some root →
        compileError (typeCheck false root) ∨ ∀ s ∈ root.statements, s.Wide false) := by
  constructor
  · intro h root hroot
    obtain ⟨hshaped, hsize⟩ := finshParserRun_shaped hroot
    refine (h root hroot).imp_right fun hwide s hs call v => ?_
    obtain ⟨hs₁, hs₂, -⟩ := Tree.statements_spec hshaped s hs
    exact exact_of_wide call hs₁ (hs₂.trans hsize) (hwide s hs).1 (hwide s hs).2 v
  · intro h root hroot
    obtain ⟨hshaped, -⟩ := finshParserRun_shaped hroot
    refine (h root hroot).imp_right fun hexact s hs => ?_
    exact wide_of_exact (Tree.statements_spec hshaped s hs).1 false
      (hexact s hs (fun _ _ m => (0, m)) (.start (fun _ => 0) fun _ => 0))

/-- `*p = 1;` with a `char *`: four bytes are written. -/
theorem not_lineExact : ¬∀ env vars tokens, LineExact env vars tokens := by
  intro h
  let env : Env := ⟨fun _ => none, fun _ => none, 0x20000000, fun _ => 0⟩
  obtain ⟨root, hroot, herror, hassign⟩ : ∃ root,
      finshParserRun env [some ([112], .charp)] [.mul, .identifier [112], .assign, .valueInt 1,
        .semicolon] = some root ∧ compileError (typeCheck false root) = false ∧
      root = .node .assign 0 false (.node .getvalue 0 false
        (.node (.id (.var .charp 0x20000014)) 0 false .nil .nil)
        (.node (.valueInt 1) 0 false .nil .nil)) .nil := by
    refine ⟨_, rfl, ?_, ?_⟩
    · decide +kernel
    · decide +kernel
  obtain herror' | hexact := h env _ _ root hroot
  · rw [herror] at herror'
    cases herror'
  · subst hassign
    have hnode := (hexact _ (List.mem_cons_self ..) (fun _ _ m => (0, m))
      (.start (fun _ => 0) fun _ => 0)).2.1
    have htouches := hnode _ true 1 _ rfl rfl rfl
    obtain ⟨hbytes, -⟩ := touches_store.1 htouches
    cases hbytes

end EasyCore.Finsh
