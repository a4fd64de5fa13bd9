import EasyCore.Finsh.Expr
import EasyCore.Finsh.Vm

/-! The value that the code of an expression leaves. An operator works in the width of what stands
    leftmost below it, where C works in 32 bits, and a load in a small width leaves the rest of the
    slot as it was: what can be relied on is a number of low bytes. -/

namespace EasyCore.Finsh
open LowBits

/-! ### Slots -/

/-- The smaller width. -/
def Width.min (a b : Width) : Width := if a.bits ≤ b.bits then a else b

theorem Width.min_le (a b : Width) : (a.min b).bits ≤ a.bits ∧ (a.min b).bits ≤ b.bits := by
  rw [Width.min]
  split <;> omega

/-- A slot gets the low bytes of a value. -/
theorem same_set (w : Width) (old new : UInt32) : Same w.bits (w.set old new) new := by
  have hor : ∀ (n : ℕ) (high low : UInt32), Same n high 0 → Same n (old &&& high ||| new &&& low)
      (new &&& low) := by
    intro n high low hhigh
    have hzero : Same n (old &&& high) 0 := by
      have hand := (Same.refl n old).and hhigh
      rwa [UInt32.and_zero] at hand
    have hboth := hzero.or (.refl n (new &&& low))
    rwa [UInt32.zero_or] at hboth
  cases w with
  | byte => exact (hor 8 _ _ (by unfold Same; decide)).trans (same_and_mask new (by decide) (by decide))
  | word =>
    exact (hor 16 _ _ (by unfold Same; decide)).trans (same_and_mask new (by decide) (by decide))
  | dword => exact .refl _ _

theorem same_get (w : Width) (slot : UInt32) : Same w.bits (w.get slot) slot := by
  cases w with
  | byte => exact same_and_mask slot (by decide) (by decide)
  | word => exact same_signed16 slot
  | dword => exact .refl _ _

theorem get_of_same {w : Width} {a b : UInt32} (h : Same w.bits a b) : w.get a = w.get b := by
  cases w with
  | byte => exact h.and_mask (by decide)
  | word => exact h.signed16
  | dword => exact same_iff.1 h

/-- A number of bits to shift by fits in every width. -/
theorem get_of_lt (w : Width) {b : UInt32} (h : b < 32) : w.get b = b := by
  have hnat : b.toNat < 32 := UInt32.lt_iff_toNat_lt.1 h
  have hb : b = UInt32.ofNat b.toNat := UInt32.ofNat_toNat.symm
  generalize b.toNat = n at hnat hb
  subst hb
  cases w <;> interval_cases n <;> rfl

/-- The types whose values an operator sees as they are. -/
def FinshType.isExact : FinshType → Bool
  | char | uchar | short | int | long => true
  | _ => false

theorem get_of_exact {type : FinshType} (h : type.isExact) {slot v : UInt32}
    (hsame : Same type.width.bits slot v) (hv : type.convert v = v) : type.width.get slot = v := by
  have hget : type.width.get slot = type.convert slot := by
    cases type <;> first | rfl | cases h
  rw [hget, convert_of_same hsame, hv]

/-! ### What can be relied on -/

/-- The width in which an operator works that has this expression on its left. -/
def Expr.opWidth : Expr → Width
  | char _ => .byte
  | int _ | long _ => .dword
  | var x | assign x _ | preinc x | predec x | inc x | dec x => x.type.width
  | neg _ => .dword
  | bitwise e => e.opWidth
  | bin _ e₁ _ => e₁.opWidth

/-- Whether an operator in a width sees the value of an expression, if it can rely on so many bytes. -/
def Expr.seen (w : Width) : Expr → Bool
  | int i => w.get i = i
  | long l => w.get l = l
  | e => e.type.isExact && e.type.width = w

/-- The low bytes of a result, from those of the operands: a division and a shift to the right need the
    values. -/
def Op.right (o : Op) (w r₁ r₂ : Width) (seen₁ seen₂ : Bool) : Option Width :=
  match o with
  | .div | .mod =>
    if seen₁ ∧ seen₂ ∧ w.bits ≤ r₁.bits ∧ w.bits ≤ r₂.bits then some w else none
  | .shl => if w.bits ≤ r₂.bits then some (w.min r₁) else none
  | .shr => if seen₁ ∧ w.bits ≤ r₁.bits ∧ w.bits ≤ r₂.bits then some w else none
  | .bitwise => none
  | _ => some (w.min (r₁.min r₂))

/-- The low bytes of the value of an expression that its code gets right; `none` is an expression that
    may go wrong altogether. An assignment needs as many bytes as the variable has, and `++` and `--`
    find their variable where a declared one is. -/
def Expr.right : Expr → Option Width
  | char _ => some .byte
  | int _ | long _ => some .dword
  | var x => some x.type.width
  | neg e => e.right
  | bitwise e => e.right.map e.opWidth.min
  | bin o e₁ e₂ =>
    e₁.right.bind fun r₁ => e₂.right.bind fun r₂ =>
      o.right e₁.opWidth r₁ r₂ (e₁.seen e₁.opWidth) (e₂.seen e₁.opWidth)
  | assign x e => e.right.bind fun r =>
    if x.type.width.bits ≤ r.bits then some x.type.width else none
  | preinc x | predec x | inc x | dec x =>
    if x.sym.valueAddr = x.addr then some x.type.width else none

/-- The expressions whose code leaves the whole value. -/
def Expr.Sound (e : Expr) : Prop := ∃ r, e.right = some r ∧ e.type.width.bits ≤ r.bits

/-! ### Operators -/

/-- An operator in a width gets the low bytes right. -/
theorem same_operator {o : Op} {w r₁ r₂ r : Width} {seen₁ seen₂ isUnsigned : Bool}
    (h : o.right w r₁ r₂ seen₁ seen₂ = some r) {s₁ s₂ a b v : UInt32} (ha : Same r₁.bits s₁ a)
    (hb : Same r₂.bits s₂ b) (h₁ : seen₁ → w.bits ≤ r₁.bits → w.get s₁ = a)
    (h₂ : seen₂ → w.bits ≤ r₂.bits → w.get s₂ = b)
    (hu : seen₁ → o = .shr ∨ seen₂ → isUnsigned = false)
    (hv : o.eval isUnsigned a b = some v) : Same r.bits (o.long (w.get s₁) (w.get s₂)) v := by
  -- The operators that only look at low bits.
  have hlow : ∀ {x : Width}, x.bits ≤ w.bits → x.bits ≤ r₁.bits → Same x.bits (w.get s₁) a :=
    fun hw hr => ((same_get w s₁).mono hw).trans (ha.mono hr)
  have hmin : (w.min (r₁.min r₂)).bits ≤ w.bits ∧ (w.min (r₁.min r₂)).bits ≤ r₁.bits ∧
      (w.min (r₁.min r₂)).bits ≤ r₂.bits :=
    ⟨(w.min_le _).1, (w.min_le _).2.trans (r₁.min_le _).1, (w.min_le _).2.trans (r₁.min_le _).2⟩
  have hleft := hlow hmin.1 hmin.2.1
  have hright : Same (w.min (r₁.min r₂)).bits (w.get s₂) b :=
    ((same_get w s₂).mono hmin.1).trans (hb.mono hmin.2.2)
  -- The number of a shift is small.
  have hcount : w.bits ≤ r₂.bits → b < 32 → w.get s₂ = b := by
    intro hle hlt
    rw [get_of_same (hb.mono hle), get_of_lt w hlt]
  cases o with
  | add =>
    cases h
    cases hv
    exact hleft.add (Width.bits_le _) hright
  | sub =>
    cases h
    cases hv
    exact hleft.sub (Width.bits_le _) hright
  | mul =>
    cases h
    cases hv
    exact hleft.mul (Width.bits_le _) hright
  | and =>
    cases h
    cases hv
    exact hleft.and hright
  | or =>
    cases h
    cases hv
    exact hleft.or hright
  | xor =>
    cases h
    cases hv
    exact hleft.xor hright
  | bitwise => cases h
  | div =>
    simp only [Op.right] at h
    split at h
    · next hseen =>
      obtain ⟨hs₁, hs₂, hr₁, hr₂⟩ := hseen
      cases h
      rw [h₁ hs₁ hr₁, h₂ hs₂ hr₂]
      simp only [Op.eval, hu hs₁ (.inr hs₂)] at hv
      split at hv
      · cases hv
      · cases hv
        exact .refl _ _
    · cases h
  | mod =>
    simp only [Op.right] at h
    split at h
    · next hseen =>
      obtain ⟨hs₁, hs₂, hr₁, hr₂⟩ := hseen
      cases h
      rw [h₁ hs₁ hr₁, h₂ hs₂ hr₂]
      simp only [Op.eval, hu hs₁ (.inr hs₂)] at hv
      split at hv
      · cases hv
      · cases hv
        exact .refl _ _
    · cases h
  | shl =>
    simp only [Op.right] at h
    simp only [Op.eval] at hv
    split at h
    · next hle =>
      cases h
      split at hv
      · next hlt =>
        cases hv
        rw [hcount hle hlt, Op.long, if_pos hlt]
        exact (hlow (w.min_le _).1 (w.min_le _).2).shl (Width.bits_le _)
      · cases hv
    · cases h
  | shr =>
    simp only [Op.right] at h
    simp only [Op.eval] at hv
    split at h
    · next hseen =>
      obtain ⟨hs₁, hr₁, hr₂⟩ := hseen
      cases h
      split at hv
      · next hlt =>
        rw [hu hs₁ (.inl rfl)] at hv
        cases hv
        rw [hcount hr₂ hlt, h₁ hs₁ hr₁, Op.long, if_pos hlt]
        exact .refl _ _
      · cases hv
    · cases h

/-! ### The memory -/

/-- A store looks at the low bytes. -/
theorem store_of_same {w : Width} {v v' : UInt32} (h : Same w.bits v v') (m : Mem) (a : UInt32) :
    w.store m a v = w.store m a v' := by
  have hbyte : ∀ {x y : UInt32}, Same 8 x y → x.toUInt8 = y.toUInt8 := by
    intro x y hxy
    apply UInt8.toBitVec_inj.1
    rw [UInt32.toBitVec_toUInt8, UInt32.toBitVec_toUInt8]
    exact hxy
  cases w with
  | byte => simp only [Width.store, hbyte h]
  | word =>
    have hhigh : (v >>> 8).toUInt8 = (v' >>> 8).toUInt8 := by
      apply UInt8.toBitVec_inj.1
      simp only [UInt32.toBitVec_toUInt8, UInt32.toBitVec_shiftRight]
      ext i hi
      have hbit := congrArg (BitVec.getLsbD · (8 + i)) h
      have hlt : 8 + i < Width.word.bits := by
        change 8 + i < 16
        omega
      simpa [BitVec.getLsbD_setWidth, hlt] using hbit
    simp only [Width.store, hbyte (h.mono (show 8 ≤ Width.word.bits by decide)), hhigh]
  | dword => rw [same_iff.1 h]

/-- The high bytes of a number do not count among the low ones. -/
theorem same_join (n : ℕ) (a b c d : UInt32) (hn : n ≤ 16) :
    Same n (a ||| b ||| c <<< 16 ||| d <<< 24) (a ||| b) := by
  have hd : Same n (a ||| b ||| c <<< 16 ||| d <<< 24) (a ||| b ||| c <<< 16) :=
    Same.or_shl (hn.trans (by decide)) (by decide)
  exact hd.trans (Same.or_shl hn (by decide))

/-- Four bytes that are loaded begin with those of a smaller width. -/
theorem same_load_dword (w : Width) (m : Mem) (a : UInt32) :
    Same w.bits (Width.dword.load m a) (w.load m a) := by
  cases w with
  | byte =>
    exact (same_join 8 _ _ _ _ (by decide)).trans (Same.or_shl (by decide) (by decide))
  | word => exact same_join 16 _ _ _ _ (by decide)
  | dword => exact .refl _ _

/-- What has been stored is loaded. -/
theorem same_load_store (w : Width) (m : Mem) (a v : UInt32) :
    Same w.bits (w.load (w.store m a v) a) v := by
  have hne : ∀ i j : UInt32, i ≠ j → a + i ≠ a + j := fun i j h heq =>
    h ((UInt32.add_right_inj a).1 heq)
  have h0 : ∀ j : UInt32, j ≠ 0 → a ≠ a + j := fun j h heq =>
    hne 0 j h.symm ((UInt32.add_zero a).trans heq)
  cases w with
  | byte =>
    simp only [Width.load, Width.store, Mem.set, if_true]
    rw [Same, UInt8.toBitVec_toUInt32, UInt32.toBitVec_toUInt8]
    exact (BitVec.setWidth_setWidth_of_le _ (by decide)).trans (BitVec.setWidth_eq _)
  | word =>
    simp only [Width.load, Width.store, Mem.set, if_true, if_neg (h0 1 (by decide))]
    have hlow := same_join 16 v.toUInt8.toUInt32 ((v >>> 8).toUInt8.toUInt32 <<< 8)
      (v >>> 16).toUInt8.toUInt32 (v >>> 24).toUInt8.toUInt32 (by decide)
    rw [join32] at hlow
    exact hlow.symm
  | dword =>
    simp only [Width.load, Width.store, Mem.set, if_true, if_neg (h0 1 (by decide)),
      if_neg (h0 2 (by decide)), if_neg (h0 3 (by decide)), if_neg (hne 1 2 (by decide)),
      if_neg (hne 1 3 (by decide)), if_neg (hne 2 3 (by decide))]
    exact same_iff.2 (join32 v)

/-! ### Trees -/

theorem typeOf_setSibling (t s : Tree) : (t.setSibling s).typeOf = t.typeOf := by
  cases t <;> rfl

theorem typeOf_over (kind : Kind) {child : Tree} (h : child ≠ .nil) :
    (Tree.over kind child).typeOf = child.typeOf := if_neg h

theorem tree_ne_nil (e : Expr) : e.tree ≠ .nil := by
  cases e <;> simp [Expr.tree, Tree.over, Tree.leaf]

theorem setSibling_ne_nil {t : Tree} (h : t ≠ .nil) (s : Tree) : t.setSibling s ≠ .nil := by
  cases t with
  | nil => exact absurd rfl h
  | node => simp [Tree.setSibling]

/-- The type of data of a variable stands for the width of its type. -/
theorem width_var (x : Variable) :
    width (Tree.leaf (.id x.sym)).typeOf = some x.type.width := by
  obtain ⟨type, entry, addr, arith⟩ := x
  cases entry <;> cases type <;> first | rfl | cases arith

/-- The type of data of an expression stands for the width in which an operator would work. -/
theorem width_tree (e : Expr) : width e.tree.typeOf = some e.opWidth := by
  induction e with
  | char c => rfl
  | int i => rfl
  | long l => rfl
  | var x => exact width_var x
  | neg e ih => rfl
  | bitwise e ih =>
    rw [Expr.tree, typeOf_over _ (tree_ne_nil e)]
    exact ih
  | bin o e₁ e₂ ih₁ _ =>
    rw [Expr.tree, typeOf_over _ (setSibling_ne_nil (tree_ne_nil e₁) _), typeOf_setSibling]
    exact ih₁
  | assign x e => exact width_var x
  | preinc x => exact width_var x
  | predec x => exact width_var x
  | inc x => exact width_var x
  | dec x => exact width_var x

/-- The code of a tree, and of what is set behind it. -/
theorem compile_setSibling (isAddr : Bool) (e : Expr) (s : Tree) :
    compile (typeCheck isAddr (e.tree.setSibling s)) =
      compile (typeCheck isAddr e.tree) ++ compile (typeCheck false s) := by
  have hnode : ∀ (kind : Kind) (child : Tree),
      compile (typeCheck isAddr ((Tree.over kind child).setSibling s)) =
        compile (typeCheck isAddr (Tree.over kind child)) ++ compile (typeCheck false s) := by
    intro kind child
    simp only [Tree.over, Tree.setSibling, typeCheck_node, compile, typeCheck, List.append_nil]
    rfl
  cases e <;> exact hnode ..

/-- The code of a node over a child. -/
theorem compile_over (isAddr : Bool) (kind : Kind) {child : Tree} (h : child ≠ .nil) :
    compile (typeCheck isAddr (Tree.over kind child)) =
      compile (typeCheck (kind.childAddress isAddr) child) ++
        nodeCode kind child.typeOf (if kind.isSyscall then false else isAddr)
          (typeCheck (kind.childAddress isAddr) child) := by
  rw [Tree.over, typeCheck_node, compile, typeCheck, compile, List.append_nil]
  rw [show (Tree.node kind 0 false child .nil).typeOf = child.typeOf from if_neg h]
  rfl

/-! ### Runs -/

/-- From `v` to `s` a value has been put on the stack, of which the low bytes can be relied on, and the
    memory has become `m`. -/
structure Leaves (v s : Vm) (w : Width) (value : UInt32) (m : Mem) : Prop where
  sp : s.sp = v.sp + 1
  mem : s.mem = m
  below : ∀ n : ℤ, 1 ≤ n → s.slot (n + 1) = v.slot n
  value : Same w.bits (s.slot 1) value

theorem leaves_push (v : Vm) {slot value : UInt32} {w : Width} (h : Same w.bits slot value) :
    Leaves v (v.push slot) w value v.mem := by
  refine ⟨rfl, rfl, fun n hn => ?_, ?_⟩
  · rw [Vm.push_slot, if_neg (by omega), Int.add_sub_cancel]
  · rwa [Vm.push_slot, if_pos rfl]

/-- The low bytes of a variable that has been loaded. -/
theorem same_load (x : Variable) (m : Mem) (old : UInt32) :
    Same x.type.width.bits (x.type.width.set old (x.type.width.load m x.addr)) (x.get m) :=
  (same_set _ _ _).trans (same_convert x.type _).symm

theorem op_run {o : Op} (ho : o ≠ .bitwise) (call : Calls) (w : Width) (v : Vm) :
    (Instr.op o w).run call v =
      (v.setSlot 2 (w.set (v.slot 2) (o.long (w.get (v.slot 2)) (w.get (v.slot 1))))).drop 1 := by
  cases o <;> first | rfl | exact absurd rfl ho

/-- An operator on two values. -/
theorem leaves_op (call : Calls) {o : Op} (ho : o ≠ .bitwise) {v s₁ s₂ : Vm} {w w₁ w₂ r : Width}
    {a b value : UInt32} {m₁ m₂ : Mem} (h₁ : Leaves v s₁ w₁ a m₁) (h₂ : Leaves s₁ s₂ w₂ b m₂)
    (hvalue : Same r.bits (o.long (w.get (s₂.slot 2)) (w.get (s₂.slot 1))) value)
    (hr : r.bits ≤ w.bits) : Leaves v ((Instr.op o w).run call s₂) r value m₂ := by
  rw [op_run ho]
  refine ⟨?_, h₂.mem, fun n hn => ?_, ?_⟩
  · rw [Vm.drop_sp, Vm.setSlot_sp, h₂.sp, h₁.sp]
    push_cast
    omega
  · have hslot : s₂.slot (n + 1 + 1) = v.slot n :=
      (h₂.below (n + 1) (by omega)).trans (h₁.below n hn)
    rw [Vm.drop_slot, Vm.setSlot_slot, if_neg (by push_cast; omega)]
    exact hslot
  · rw [Vm.drop_slot, Vm.setSlot_slot]
    exact ((same_set w _ _).mono hr).trans hvalue

/-- The complement of a value. -/
theorem leaves_bitwise (call : Calls) {v s : Vm} {r : Width} {a : UInt32} {m : Mem}
    (h : Leaves v s r a m) (w : Width) :
    Leaves v ((Instr.op .bitwise w).run call s) (w.min r) (~~~a) m := by
  obtain ⟨hw, hr⟩ := w.min_le r
  refine ⟨h.sp, h.mem, fun n hn => ?_, ?_⟩
  · rw [Instr.run, Vm.setSlot_slot, if_neg (by omega)]
    exact h.below n hn
  · rw [Instr.run, Vm.setSlot_slot, if_pos rfl]
    have hget : Same (w.min r).bits (w.get (s.slot 1)) a :=
      ((same_get w _).mono hw).trans (h.value.mono hr)
    exact ((same_set w _ _).mono hw).trans (hget.not (Width.bits_le _))

/-- A value is subtracted from zero. -/
theorem leaves_neg (call : Calls) {v s : Vm} {r : Width} {a : UInt32} {m : Mem}
    (h : Leaves (v.push 0) s r a m) :
    Leaves v ((Instr.op .sub .dword).run call s) r (-a) m := by
  have hzero : Leaves v (v.push 0) .dword 0 v.mem := leaves_push v (.refl _ _)
  have hslot : s.slot 2 = 0 := by
    have hbelow := h.below 1 (le_refl 1)
    rwa [Vm.push_slot, if_pos rfl] at hbelow
  have hsub := (Same.refl r.bits 0).sub r.bits_le h.value
  rw [UInt32.zero_sub a, ← hslot] at hsub
  exact leaves_op call (by decide) hzero h hsub r.bits_le

/-- A value goes to a variable whose address stands below it, and is loaded again. -/
theorem leaves_assign (call : Calls) (x : Variable) {v s : Vm} {r : Width} {a : UInt32} {m : Mem}
    (h : Leaves (v.push x.addr) s r a m) (hr : x.type.width.bits ≤ r.bits) :
    Leaves v (exec call s [.st x.type.width, .ldValueStack x.type.width]) x.type.width
      (x.type.convert a) (x.put m a) := by
  have hslot : s.slot 2 = x.addr := by
    have hbelow := h.below 1 (le_refl 1)
    rwa [Vm.push_slot, if_pos rfl] at hbelow
  have hstore : x.type.width.store s.mem x.addr (s.slot 1) = x.put m a := by
    rw [h.mem]
    exact store_of_same (h.value.mono hr) m x.addr
  have hexec : exec call s [.st x.type.width, .ldValueStack x.type.width] =
      ((((s.setMem (x.put m a)).log (.write x.type.width x.addr)).drop 1).log
        (.read x.type.width x.addr)).setSlot 1
        (x.type.width.set x.addr (x.type.width.load (x.put m a) x.addr)) := by
    simp [exec, Instr.run, hslot, hstore]
  rw [hexec]
  refine ⟨?_, rfl, fun n hn => ?_, ?_⟩
  · simp only [Vm.setSlot_sp, Vm.log_sp, Vm.drop_sp, Vm.setMem_sp, h.sp, Vm.push_sp]
    push_cast
    omega
  · have hbelow := h.below (n + 1) (by omega)
    rw [Vm.push_slot, if_neg (by omega), Int.add_sub_cancel] at hbelow
    simp only [Vm.setSlot_slot, Vm.log_slot, Vm.drop_slot, Vm.setMem_slot, if_neg (show n + 1 ≠ 1 by omega)]
    exact hbelow
  · rw [Vm.setSlot_slot, if_pos rfl]
    exact ((same_set _ _ _).trans (same_load_store _ m x.addr a)).trans (same_convert x.type a).symm

/-- A one is loaded. -/
theorem ldOne_run (call : Calls) (w : Width) (v : Vm) :
    ∃ one, (ldOne w).run call v = v.push one ∧ Same w.bits one 1 := by
  cases w with
  | byte => exact ⟨_, rfl, same_set .byte _ 1⟩
  | word => exact ⟨_, rfl, same_set .word _ 1⟩
  | dword => exact ⟨_, rfl, .refl _ _⟩

/-- The code between the address of a variable and the new value. -/
def stepCode (o : Op) (w : Width) (addr : UInt32) : List Instr :=
  [.ldValue w addr, ldOne w, .op o w, .st w]

/-- The variable whose address is on the stack is changed by one. -/
theorem exec_stepCode (call : Calls) (x : Variable) {o : Op} (ho : o = .add ∨ o = .sub) {v : Vm}
    (haddr : v.slot 1 = x.addr) :
    (exec call v (stepCode o x.type.width x.addr)).sp = v.sp ∧
      (∀ n : ℤ, 1 ≤ n → (exec call v (stepCode o x.type.width x.addr)).slot n = v.slot n) ∧
      (exec call v (stepCode o x.type.width x.addr)).mem = x.put v.mem (o.long (x.get v.mem) 1) := by
  have hop : o ≠ .bitwise := by obtain rfl | rfl := ho <;> decide
  let w := x.type.width
  let old := w.set (v.slot 0) (w.load v.mem x.addr)
  let v₁ := (v.log (.read w x.addr)).push old
  obtain ⟨one, hone, hsame⟩ := ldOne_run call w v₁
  let new := w.set old (o.long (w.get old) (w.get one))
  -- What is stored has the low bytes of the sum.
  have hnew : Same w.bits new (o.long (x.get v.mem) 1) := by
    have hold : Same w.bits (w.get old) (x.get v.mem) := (same_get w old).trans (same_load x v.mem _)
    have hget : Same w.bits (w.get one) 1 := (same_get w one).trans hsame
    refine (same_set w _ _).trans ?_
    obtain rfl | rfl := ho
    · exact hold.add w.bits_le hget
    · exact hold.sub w.bits_le hget
  have hexec : exec call v (stepCode o w x.addr) =
      ((((((v₁.push one).setSlot 2 new).drop 1).setMem (w.store v.mem x.addr new)).log
        (.write w x.addr)).drop 1) := by
    have hfirst : (Instr.ldValue w x.addr).run call v = v₁ := rfl
    have hthird : (Instr.op o w).run call (v₁.push one) =
        (((v₁.push one).setSlot 2 new).drop 1) := by
      rw [op_run hop]
      simp [v₁, new]
    simp only [stepCode, exec, List.foldl_cons, List.foldl_nil]
    rw [hfirst, hone, hthird]
    simp [Instr.run, v₁, haddr]
  rw [hexec]
  refine ⟨?_, ?_, ?_⟩
  · simp [v₁]
  · intro n hn
    have h1 : n + 1 + 1 ≠ 1 := by omega
    have h2 : n + 1 + 1 ≠ 2 := by omega
    have h3 : n + 1 + 1 - 1 ≠ 1 := by omega
    have hindex : n + 1 + 1 - 1 - 1 = n := by omega
    simp only [v₁, Vm.drop_slot, Vm.log_slot, Vm.setMem_slot, Vm.setSlot_slot, Vm.push_slot,
      Nat.cast_one, if_neg h1, if_neg h2, if_neg h3, hindex]
  · exact store_of_same hnew v.mem x.addr

theorem compile_var (isAddr : Bool) (x : Variable) :
    compile (typeCheck isAddr (Expr.var x).tree) =
      [if isAddr then .ldDword x.addr else .ldValue x.type.width x.addr] := by
  obtain ⟨type, entry, addr, arith⟩ := x
  cases entry <;> cases isAddr <;> cases type <;> first | rfl | cases arith

/-- What an operator has on its left is a value. -/
theorem nodeCode_op {o : Op} {type : ℕ} {w : Width} (h : width type = some w) (address : Bool)
    (child : Tree) : nodeCode (.sys o) type address child = [.op o w] := by
  rw [nodeCode, h]

/-- The code of an assignment. -/
theorem compile_assign (x : Variable) (e : Expr) :
    compile (typeCheck false (Expr.assign x e).tree) =
      [.ldDword x.addr] ++ compile (typeCheck false e.tree) ++
        [.st x.type.width, .ldValueStack x.type.width] := by
  have hcode : ∀ s : Tree, nodeCode .assign
      ((Tree.leaf (.id x.sym)).setSibling s).typeOf false
      (typeCheck true ((Tree.leaf (.id x.sym)).setSibling s)) =
      [.st x.type.width, .ldValueStack x.type.width] := by
    intro s
    have hstore : nodeCode .assign ((Tree.leaf (.id x.sym)).setSibling s).typeOf false
        (typeCheck true ((Tree.leaf (.id x.sym)).setSibling s)) =
        store (Tree.leaf (.id x.sym)).typeOf := by
      rw [Tree.leaf, Tree.setSibling, typeCheck_node]
      rfl
    rw [hstore, store, width_var]
  have hne : (Tree.leaf (.id x.sym)).setSibling e.tree ≠ .nil := by simp [Tree.leaf, Tree.setSibling]
  rw [Expr.tree, compile_over _ _ hne]
  refine congrArg₂ (· ++ ·) ?_ (hcode e.tree)
  exact (compile_setSibling true (.var x) e.tree).trans (congrArg (· ++ _) (compile_var true x))

theorem of_step {x : Variable} {r : Width}
    (h : (if x.sym.valueAddr = x.addr then some x.type.width else none) = some r) :
    x.sym.valueAddr = x.addr ∧ x.type.width = r := by
  split at h
  · next hvar => exact ⟨hvar, Option.some.inj h⟩
  · cases h

/-- The code of `++` and `--` in front of a variable. -/
theorem compile_stepBefore (o : Op) (kind : Kind) {x : Variable} (haddress : kind.childAddress false = true)
    (hkind : nodeCode kind = fun type _ child => stepBefore o type child)
    (hvar : x.sym.valueAddr = x.addr) :
    compile (typeCheck false (Tree.over kind (.leaf (.id x.sym)))) =
      [.ldDword x.addr] ++ (stepCode o x.type.width x.addr ++ [.ldValueStack .dword]) := by
  have hne : Tree.leaf (.id x.sym) ≠ .nil := by simp [Tree.leaf]
  rw [compile_over _ _ hne, haddress, hkind]
  refine congrArg₂ (· ++ ·) (compile_var true x) ?_
  have hwidth := width_var x
  rw [Tree.leaf] at hwidth
  rw [Tree.leaf, typeCheck_node]
  simp only [stepBefore, hwidth, hvar]
  rfl

/-- The code of `++` and `--` behind a variable. -/
theorem compile_stepAfter (o : Op) (kind : Kind) {x : Variable} (haddress : kind.childAddress false = false)
    (hkind : nodeCode kind = fun type _ child => stepAfter o type child)
    (hvar : x.sym.valueAddr = x.addr) :
    compile (typeCheck false (Tree.over kind (.leaf (.id x.sym)))) =
      [.ldValue x.type.width x.addr] ++
        ([.ldDword x.addr] ++ (stepCode o x.type.width x.addr ++ [.pop])) := by
  have hne : Tree.leaf (.id x.sym) ≠ .nil := by simp [Tree.leaf]
  rw [compile_over _ _ hne, haddress, hkind]
  refine congrArg₂ (· ++ ·) (compile_var false x) ?_
  have hwidth := width_var x
  rw [Tree.leaf] at hwidth
  rw [Tree.leaf, typeCheck_node]
  simp only [stepAfter, hwidth, hvar]
  rfl

/-- The value of `++` and `--` in front of a variable is the new one. -/
theorem leaves_stepBefore (call : Calls) (x : Variable) {o : Op} (ho : o = .add ∨ o = .sub) (v : Vm) :
    Leaves v (exec call v ([.ldDword x.addr] ++
        (stepCode o x.type.width x.addr ++ [.ldValueStack .dword]))) x.type.width
      (x.type.convert (o.long (x.get v.mem) 1)) (x.put v.mem (o.long (x.get v.mem) 1)) := by
  have haddr : (exec call v [.ldDword x.addr]).slot 1 = x.addr := (Vm.push_slot ..).trans (if_pos rfl)
  obtain ⟨hsp, hslots, hmem⟩ := exec_stepCode call x ho haddr
  rw [exec_append, exec_append]
  generalize exec call (exec call v [.ldDword x.addr]) (stepCode o x.type.width x.addr) = s at *
  have hslot : s.slot 1 = x.addr := (hslots 1 (le_refl 1)).trans haddr
  have hnew : s.mem = x.put v.mem (o.long (x.get v.mem) 1) := hmem
  have hexec : exec call s [.ldValueStack .dword] =
      (s.log (.read .dword x.addr)).setSlot 1 (Width.dword.load s.mem x.addr) := by
    simp [exec, Instr.run, hslot, Width.set]
  rw [hexec]
  refine ⟨hsp, hnew, fun n hn => ?_, ?_⟩
  · rw [Vm.setSlot_slot, if_neg (by omega), Vm.log_slot, hslots (n + 1) (by omega)]
    exact (Vm.push_slot ..).trans ((if_neg (by omega)).trans (by rw [Int.add_sub_cancel]))
  · rw [Vm.setSlot_slot, if_pos rfl, hnew]
    exact ((same_load_dword _ _ _).trans (same_load_store _ _ _ _)).trans (same_convert _ _).symm

/-- The value of `++` and `--` behind a variable is the old one. -/
theorem leaves_stepAfter (call : Calls) (x : Variable) {o : Op} (ho : o = .add ∨ o = .sub) (v : Vm) :
    Leaves v (exec call v ([.ldValue x.type.width x.addr] ++
        ([.ldDword x.addr] ++ (stepCode o x.type.width x.addr ++ [.pop])))) x.type.width
      (x.get v.mem) (x.put v.mem (o.long (x.get v.mem) 1)) := by
  have hold := leaves_push (v.log (.read x.type.width x.addr)) (same_load x v.mem (v.slot 0))
  rw [exec_append, exec_append, exec_append]
  have hfirst : exec call v [.ldValue x.type.width x.addr] = (v.log (.read x.type.width x.addr)).push
      (x.type.width.set (v.slot 0) (x.type.width.load v.mem x.addr)) := rfl
  rw [hfirst]
  generalize (v.log (.read x.type.width x.addr)).push
    (x.type.width.set (v.slot 0) (x.type.width.load v.mem x.addr)) = v₁ at *
  have haddr : (exec call v₁ [.ldDword x.addr]).slot 1 = x.addr :=
    (Vm.push_slot ..).trans (if_pos rfl)
  obtain ⟨hsp, hslots, hmem⟩ := exec_stepCode call x ho haddr
  have hbelow : ∀ n : ℤ, 1 ≤ n → (exec call v₁ [.ldDword x.addr]).slot (n + 1) = v₁.slot n :=
    (leaves_push v₁ (.refl 32 x.addr) : Leaves v₁ _ .dword _ _).below
  generalize exec call (exec call v₁ [.ldDword x.addr]) (stepCode o x.type.width x.addr) = s at *
  have hlast : exec call s [.pop] = s.drop 1 := rfl
  rw [hlast]
  have hsp₁ : s.sp = v.sp + 1 + 1 := hsp.trans (congrArg (· + 1) hold.sp)
  have hmem₁ : s.mem = x.put v.mem (o.long (x.get v.mem) 1) := by
    have hsame : (exec call v₁ [.ldDword x.addr]).mem = v.mem := hold.mem
    rw [hmem, hsame]
  refine ⟨?_, hmem₁, fun n hn => ?_, ?_⟩
  · rw [Vm.drop_sp, hsp₁]
    push_cast
    omega
  · rw [Vm.drop_slot, Nat.cast_one, hslots _ (by omega), hbelow _ (by omega)]
    exact hold.below n hn
  · rw [Vm.drop_slot, Nat.cast_one, hslots _ (by omega), hbelow 1 (le_refl 1)]
    exact hold.value

/-- The code of a binary operator. -/
theorem compile_bin (o : Op) (e₁ e₂ : Expr) :
    compile (typeCheck false (Expr.bin o e₁ e₂).tree) =
      compile (typeCheck false e₁.tree) ++ compile (typeCheck false e₂.tree) ++
        [.op o e₁.opWidth] := by
  have htype := width_tree (.bin o e₁ e₂)
  rw [Expr.tree, typeOf_over _ (setSibling_ne_nil (tree_ne_nil e₁) _)] at htype
  rw [Expr.tree, compile_over _ _ (setSibling_ne_nil (tree_ne_nil e₁) _), nodeCode_op htype]
  exact congrArg (· ++ _) (compile_setSibling false e₁ e₂.tree)

theorem right_le {o : Op} {w r₁ r₂ r : Width} {seen₁ seen₂ : Bool}
    (h : o.right w r₁ r₂ seen₁ seen₂ = some r) : r.bits ≤ w.bits := by
  cases o with
  | div | mod | shr =>
    simp only [Op.right] at h
    split at h
    · cases h
      exact le_refl _
    · cases h
  | shl =>
    simp only [Op.right] at h
    split at h
    · cases h
      exact (w.min_le _).1
    · cases h
  | bitwise => cases h
  | _ =>
    cases h
    exact (w.min_le _).1

/-- What an operator sees is the value. -/
theorem get_of_seen {e : Expr} {w r : Width} {slot a : UInt32} {m m' : Mem} (h : e.seen w)
    (hle : w.bits ≤ r.bits) (hsame : Same r.bits slot a) (heval : e.eval m = some (a, m')) :
    w.get slot = a := by
  have htype : e.type.isExact → e.type.width = w → w.get slot = a := by
    rintro hexact rfl
    exact get_of_exact hexact (hsame.mono hle) (eval_convert heval)
  have hconst : w.get a = a → w.get slot = a := fun ha => (get_of_same (hsame.mono hle)).trans ha
  cases e with
  | int i =>
    cases heval
    exact hconst (of_decide_eq_true h)
  | long l =>
    cases heval
    exact hconst (of_decide_eq_true h)
  | _ =>
    simp only [Expr.seen, Bool.and_eq_true, decide_eq_true_eq] at h
    exact htype h.1 h.2

/-- Where an operator sees its operands, the sign does not get lost. -/
theorem isUnsigned_of_seen {o : Op} {e₁ e₂ : Expr} {w : Width} (h₁ : e₁.seen w)
    (h₂ : o = .shr ∨ e₂.seen w) : (Expr.bin o e₁ e₂).type.isUnsigned = false := by
  have hpromote : ∀ {e : Expr}, e.seen w → e.type.promote = .int ∨ e.type.promote = .long := by
    intro e h
    have hexact : e.type.isExact := by
      cases e with
      | int i => rfl
      | long l => rfl
      | _ =>
        simp only [Expr.seen, Bool.and_eq_true] at h
        exact h.1
    cases htype : e.type <;> rw [htype] at hexact <;> first | exact .inl rfl | exact .inr rfl | cases hexact
  have hshift : e₁.type.promote.isUnsigned = false := by
    obtain h | h := hpromote h₁ <;> rw [h] <;> rfl
  obtain rfl | h₂ := h₂
  · exact hshift
  · have hcommon : (e₁.type.promote.common e₂.type.promote).isUnsigned = false := by
      obtain h | h := hpromote h₁ <;> obtain h' | h' := hpromote h₂ <;> rw [h, h'] <;> rfl
    cases o with
    | shl | shr => exact hshift
    | _ => exact hcommon

/-- The code of an expression, where it can be relied on. -/
theorem exec_expr (call : Calls) (e : Expr) : ∀ {r : Width}, e.right = some r →
    ∀ {m m' : Mem} {value : UInt32}, e.eval m = some (value, m') → ∀ {v : Vm}, v.mem = m →
    Leaves v (exec call v (compile (typeCheck false e.tree))) r value m' := by
  induction e with
  | char c =>
    intro r hr m m' value heval v hv
    cases hr
    cases heval
    exact hv ▸ leaves_push v (same_set .byte _ _)
  | int i =>
    intro r hr m m' value heval v hv
    cases hr
    cases heval
    exact hv ▸ leaves_push v (.refl _ _)
  | long l =>
    intro r hr m m' value heval v hv
    cases hr
    cases heval
    exact hv ▸ leaves_push v (.refl _ _)
  | var x =>
    intro r hr m m' value heval v hv
    cases hr
    cases heval
    have hpush := leaves_push (v.log (.read x.type.width x.addr)) (same_load x v.mem (v.slot 0))
    rw [compile_var, ← hv]
    exact ⟨hpush.sp, hpush.mem, hpush.below, hpush.value⟩
  | neg e ih =>
    intro r hr m m' value heval v hv
    obtain ⟨⟨a, m₁⟩, he, heval⟩ := Option.map_eq_some_iff.1 heval
    cases heval
    have hcode : compile (typeCheck false (Expr.neg e).tree) =
        [.ldDword 0] ++ compile (typeCheck false e.tree) ++ [.op .sub .dword] :=
      compile_bin .sub (.long 0) e
    rw [hcode, exec_append, exec_append]
    exact leaves_neg call (ih hr he hv)
  | bitwise e ih =>
    intro r hr m m' value heval v hv
    obtain ⟨r₁, hr₁, hr⟩ := Option.map_eq_some_iff.1 hr
    obtain ⟨⟨a, m₁⟩, he, heval⟩ := Option.map_eq_some_iff.1 heval
    cases hr
    cases heval
    have he := ih hr₁ he hv
    have htype := width_tree (.bitwise e)
    rw [Expr.tree, typeOf_over _ (tree_ne_nil e)] at htype
    rw [Expr.tree, compile_over _ _ (tree_ne_nil e), nodeCode_op htype, exec_append]
    exact leaves_bitwise call he e.opWidth
  | bin o e₁ e₂ ih₁ ih₂ =>
    intro r hr m m' value heval v hv
    obtain ⟨r₁, hr₁, hr⟩ := Option.bind_eq_some_iff.1 hr
    obtain ⟨r₂, hr₂, hr⟩ := Option.bind_eq_some_iff.1 hr
    obtain ⟨⟨a, m₁⟩, he₁, heval⟩ := Option.bind_eq_some_iff.1 heval
    obtain ⟨⟨b, m₂⟩, he₂, heval⟩ := Option.bind_eq_some_iff.1 heval
    obtain ⟨c, hc, heval⟩ := Option.map_eq_some_iff.1 heval
    cases heval
    have h₁ := ih₁ hr₁ he₁ hv
    have h₂ := ih₂ hr₂ he₂ h₁.mem
    have ho : o ≠ .bitwise := by
      rintro rfl
      cases hr
    rw [compile_bin, exec_append, exec_append]
    refine leaves_op call ho h₁ h₂ ?_ (right_le hr)
    have hleft : Same r₁.bits ((exec call (exec call v (compile (typeCheck false e₁.tree)))
        (compile (typeCheck false e₂.tree))).slot 2) a := by
      have hslot := h₂.below 1 (le_refl 1)
      rw [show (1 : ℤ) + 1 = 2 from rfl] at hslot
      rw [hslot]
      exact h₁.value
    exact same_operator hr hleft h₂.value (fun h hle => get_of_seen h hle hleft he₁)
      (fun h hle => get_of_seen h hle h₂.value he₂) isUnsigned_of_seen hc
  | assign x e ih =>
    intro r hr m m' value heval v hv
    obtain ⟨r₁, hr₁, hr⟩ := Option.bind_eq_some_iff.1 hr
    obtain ⟨⟨a, m₁⟩, he, heval⟩ := Option.map_eq_some_iff.1 heval
    cases heval
    split at hr
    · next hle =>
      cases hr
      rw [compile_assign, exec_append, exec_append]
      exact leaves_assign call x (ih hr₁ he hv) hle
    · cases hr
  | preinc x =>
    intro r hr m m' value heval v hv
    cases heval
    obtain ⟨hvar, rfl⟩ := of_step hr
    rw [Expr.tree, compile_stepBefore .add .preinc rfl rfl hvar, ← hv]
    exact leaves_stepBefore call x (.inl rfl) v
  | predec x =>
    intro r hr m m' value heval v hv
    cases heval
    obtain ⟨hvar, rfl⟩ := of_step hr
    rw [Expr.tree, compile_stepBefore .sub .predec rfl rfl hvar, ← hv]
    exact leaves_stepBefore call x (.inr rfl) v
  | inc x =>
    intro r hr m m' value heval v hv
    cases heval
    obtain ⟨hvar, rfl⟩ := of_step hr
    rw [Expr.tree, compile_stepAfter .add .inc rfl rfl hvar, ← hv]
    exact leaves_stepAfter call x (.inl rfl) v
  | dec x =>
    intro r hr m m' value heval v hv
    cases heval
    obtain ⟨hvar, rfl⟩ := of_step hr
    rw [Expr.tree, compile_stepAfter .sub .dec rfl rfl hvar, ← hv]
    exact leaves_stepAfter call x (.inr rfl) v

/-! ### Expressions -/

/-- The trees of these expressions are those of the parser. -/
theorem tree_shaped (e : Expr) : ∀ {r : Width}, e.right = some r →
    e.tree.Shaped ∧ e.tree.siblings = 1 := by
  have hover : ∀ {kind : Kind} {child : Tree}, kind.Arity child.siblings → child.Shaped →
      (Tree.over kind child).Shaped ∧ (Tree.over kind child).siblings = 1 :=
    fun harity hchild => ⟨⟨harity, rfl, hchild, trivial⟩, rfl⟩
  have hleaf : ∀ {kind : Kind}, kind.Arity 0 → (Tree.leaf kind).Shaped :=
    fun hkind => ⟨hkind, rfl, trivial, trivial⟩
  induction e with
  | char c => exact fun _ => hover rfl trivial
  | int i => exact fun _ => hover rfl trivial
  | long l => exact fun _ => hover rfl trivial
  | var x => exact fun _ => hover rfl trivial
  | neg e ih =>
    intro r hr
    obtain ⟨hshaped, hone⟩ := ih hr
    refine hover ?_ (setSibling_shaped (hleaf rfl) hshaped)
    change 1 + e.tree.siblings = 2
    rw [hone]
  | bitwise e ih =>
    intro r hr
    obtain ⟨r₁, hr₁, -⟩ := Option.map_eq_some_iff.1 hr
    obtain ⟨hshaped, hone⟩ := ih hr₁
    exact hover hone hshaped
  | bin o e₁ e₂ ih₁ ih₂ =>
    intro r hr
    obtain ⟨r₁, hr₁, hr⟩ := Option.bind_eq_some_iff.1 hr
    obtain ⟨r₂, hr₂, hr⟩ := Option.bind_eq_some_iff.1 hr
    obtain ⟨hshaped₁, -⟩ := ih₁ hr₁
    obtain ⟨hshaped₂, hone⟩ := ih₂ hr₂
    refine hover ?_ (setSibling_shaped hshaped₁ hshaped₂)
    rw [setSibling_siblings (tree_ne_nil e₁), hone]
    cases o with
    | bitwise => cases hr
    | _ => rfl
  | assign x e ih =>
    intro r hr
    obtain ⟨r₁, hr₁, -⟩ := Option.bind_eq_some_iff.1 hr
    obtain ⟨hshaped, hone⟩ := ih hr₁
    refine hover ?_ (setSibling_shaped (hleaf rfl) hshaped)
    change 1 + e.tree.siblings = 2
    rw [hone]
  | preinc x => exact fun _ => hover rfl (hleaf rfl)
  | predec x => exact fun _ => hover rfl (hleaf rfl)
  | inc x => exact fun _ => hover rfl (hleaf rfl)
  | dec x => exact fun _ => hover rfl (hleaf rfl)

/-- The machine leaves the value of C, in the type of the expression, and the memory of C; the first
    slot has been cleared. -/
def Correct (e : Expr) : Prop :=
  ∀ (call : Calls) (stack : ℤ → UInt32) (m m' : Mem) (value : UInt32), stack 0 = 0 →
    e.eval m = some (value, m') →
    ∃ s, vmRun call (textOf (finshCompilerRun e.tree)) textMax (.start stack m) = some s ∧
      s.sp = 1 ∧ s.mem = m' ∧ e.type.convert (s.stack 0) = value

/-- The value is right if enough low bytes of every operand are, and the code has at most 128 bytes. -/
theorem correct_of_sound (e : Expr) (h : e.Sound) (hfits : lineBytes e.tree ≤ textMax) :
    Correct e := by
  obtain ⟨r, hr, hle⟩ := h
  intro call stack m m' value _ heval
  have hcode : finshCompilerRun e.tree = compile (typeCheck false e.tree) := by
    cases e <;> (simp only [Expr.tree, Tree.over, Tree.leaf, finshCompilerRun_node, if_true,
      List.append_nil])
  have hleaves := exec_expr call e hr heval (v := .start stack m) rfl
  rw [← hcode] at hleaves
  have hsize : (codeBytes (finshCompilerRun e.tree)).length ≤ textMax := by
    rwa [codeBytes_finshCompilerRun (tree_shaped e hr).1]
  refine ⟨_, vmRun_textOf call (.start stack m) hsize rfl, hleaves.sp, hleaves.mem, ?_⟩
  have hslot : (exec call (.start stack m) (finshCompilerRun e.tree)).slot 1 =
      (exec call (.start stack m) (finshCompilerRun e.tree)).stack 0 := by
    rw [Vm.slot, hleaves.sp]
    rfl
  rw [← hslot, convert_of_same (hleaves.value.mono hle), eval_convert heval]

/-- A `char` that is declared first. -/
def charVar : Variable := ⟨.char, none, 0x20000014, rfl⟩

/-- A memory in which it is one. -/
def oneMem : Mem := fun a => if a = 0x20000014 then 1 else 0

/-- `c + 1000` with a `char` that is one: the sum is made of bytes, and leaves 233. -/
theorem not_correct : ¬∀ e, Correct e := by
  intro h
  let e : Expr := .bin .add (.var charVar) (.int 1000)
  have heval : e.eval oneMem = some (1001, oneMem) := rfl
  obtain ⟨s, hrun, -, -, hvalue⟩ :=
    h e (fun _ _ m => (0, m)) (fun _ => 0) oneMem oneMem 1001 rfl heval
  rw [vmRun_textOf _ (.start (fun _ => 0) oneMem) (by decide +kernel) rfl] at hrun
  have hstack : s.stack 0 = 233 := by
    rw [← Option.some.inj hrun]
    decide +kernel
  rw [hstack] at hvalue
  exact absurd hvalue (by decide)

/-- `l = l + 5` with a `long`. -/
theorem correct_of_sound_sum : ∃ e : Expr, e.Sound ∧ lineBytes e.tree ≤ textMax ∧ Correct e := by
  let x : Variable := ⟨.long, none, 0x20000014, rfl⟩
  let e : Expr := .assign x (.bin .add (.var x) (.int 5))
  have hsound : e.Sound := ⟨.dword, rfl, by decide⟩
  have hfits : lineBytes e.tree ≤ textMax := by decide +kernel
  exact ⟨e, hsound, hfits, correct_of_sound e hsound hfits⟩

end EasyCore.Finsh
