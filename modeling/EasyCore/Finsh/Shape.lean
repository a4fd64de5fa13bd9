import EasyCore.Finsh.Parser

/-! The trees that the parser builds: every node has the children of its kind, and a line has at most
    16 nodes. -/

namespace EasyCore.Finsh

/-- The numbers of children of a kind. -/
def Kind.Arity : Kind → ℕ → Prop
  | .sys .bitwise, n => n = 1
  | .sys _, n => n = 2
  | .func, n => 1 ≤ n
  | .assign, n => n = 2
  | .preinc, n | .predec, n | .inc, n | .dec, n | .getvalue, n | .getaddr, n => n = 1
  | _, n => n = 0

/-- Every node has the children of its kind, and no address has been marked. -/
def Tree.Shaped : Tree → Prop
  | nil => True
  | node kind _ address child sibling =>
    kind.Arity child.siblings ∧ address = false ∧ child.Shaped ∧ sibling.Shaped

@[simp] theorem setSibling_siblings {t : Tree} (h : t ≠ .nil) (s : Tree) :
    (t.setSibling s).siblings = 1 + s.siblings := by
  cases t with
  | nil => exact absurd rfl h
  | node => rfl

theorem setSibling_size (t s : Tree) : (t.setSibling s).size ≤ t.size + s.size := by
  cases t with
  | nil => exact Nat.zero_le _
  | node => simp only [Tree.setSibling, Tree.size]; omega

theorem setSibling_shaped {t s : Tree} (ht : t.Shaped) (hs : s.Shaped) :
    (t.setSibling s).Shaped := by
  cases t with
  | nil => exact ht
  | node => exact ⟨ht.1, ht.2.1, ht.2.2.1, hs⟩

theorem setDataType_spec (t : Tree) (type : ℕ) : ((t.setDataType type).Shaped ↔ t.Shaped) ∧
    (t.setDataType type).siblings = t.siblings ∧ (t.setDataType type).size = t.size := by
  cases t with
  | nil => exact ⟨Iff.rfl, rfl, rfl⟩
  | node => exact ⟨Iff.rfl, rfl, rfl⟩

/-- What a procedure of the parser builds: shaped trees, for which it has taken nodes. -/
structure Built (p : Parser) (t : Tree) (p' : Parser) : Prop where
  shaped : t.Shaped
  size : p.nodes + t.size ≤ p'.nodes
  max : p.nodes ≤ nodeMax → p'.nodes ≤ nodeMax

/-- A procedure that builds one tree. -/
def Builds (proc : Proc Tree) : Prop :=
  ∀ ⦃p p' : Parser⦄ ⦃t : Tree⦄, proc p = some (t, p') → Built p t p' ∧ t.siblings = 1

theorem ne_nil_of_siblings {t : Tree} (h : t.siblings = 1) : t ≠ .nil := by
  rintro rfl
  cases h

/-- Trees that are built one after the other. -/
theorem Built.trans {p p₁ p₂ : Parser} {t₁ t₂ : Tree} (h₁ : Built p t₁ p₁) (h₂ : Built p₁ t₂ p₂) :
    p.nodes + (t₁.size + t₂.size) ≤ p₂.nodes ∧ (p.nodes ≤ nodeMax → p₂.nodes ≤ nodeMax) := by
  have := h₁.size
  have := h₂.size
  exact ⟨by omega, fun h => h₂.max (h₁.max h)⟩

theorem newNode_builds (kind : Kind) (h : kind.Arity 0) : Builds (newNode kind) := by
  intro p p' t hnew
  rw [newNode] at hnew
  split at hnew
  · next hmax =>
    cases hnew
    exact ⟨⟨⟨h, rfl, trivial, trivial⟩, le_refl _, fun _ => hmax⟩, rfl⟩
  · cases hnew

theorem newId_builds (env : Env) (name : List UInt8) : Builds (newId env name) := by
  intro p p' t hnew
  obtain ⟨sym, -, hnew⟩ := Option.bind_eq_some_iff.1 hnew
  exact newNode_builds (.id sym) rfl hnew

/-- A node over children that have been built. -/
theorem makeSysNode_builds {kind : Kind} {p p₁ p' : Parser} {a b t : Tree}
    (harity : kind.Arity (1 + b.siblings)) (ha : a.Shaped) (hb : b.Shaped)
    (hsize : p.nodes + (a.size + b.size) ≤ p₁.nodes)
    (h : makeSysNode kind a b p₁ = some (t, p')) : Built p t p' ∧ t.siblings = 1 := by
  rw [makeSysNode] at h
  split at h
  · next hroom =>
    cases h
    have hlen := setSibling_size a b
    refine ⟨⟨⟨?_, rfl, setSibling_shaped ha hb, trivial⟩, ?_, fun _ => hroom.1⟩, rfl⟩
    · rw [setSibling_siblings hroom.2]
      exact harity
    · simp only [Tree.size]
      omega
  · cases h

theorem Built.skip {p p' : Parser} {t : Tree} (h : Built p.skip t p') : Built p t p' :=
  ⟨h.shaped, h.size, h.max⟩

/-- A node over one child. -/
theorem Built.unary (kind : Kind) {p p₁ p' : Parser} {a t : Tree} (harity : kind.Arity 1)
    (ha : Built p a p₁) (h : makeSysNode kind a .nil p₁ = some (t, p')) :
    Built p t p' ∧ t.siblings = 1 :=
  makeSysNode_builds (b := .nil) harity ha.shaped trivial ha.size h

/-- A node over a child and what stands behind it. -/
theorem Built.join {kind : Kind} {p p₁ p₂ p' : Parser} {a b t : Tree}
    (harity : kind.Arity (1 + b.siblings)) (ha : Built p a p₁) (hb : Built p₁ b p₂)
    (h : makeSysNode kind a b p₂ = some (t, p')) : Built p t p' ∧ t.siblings = 1 :=
  makeSysNode_builds harity ha.shaped hb.shaped (ha.trans hb).1 h

@[simp] theorem skip_nodes (p : Parser) : p.skip.nodes = p.nodes := rfl

theorem matchToken_nodes {token : Token} {p p' : Parser} {u : Unit}
    (h : matchToken token p = some (u, p')) : p'.nodes = p.nodes := by
  rw [matchToken] at h
  split at h
  · cases h
    rfl
  · cases h

theorem procType_nodes {p p' : Parser} {type : FinshType} (h : procType p = some (type, p')) :
    p'.nodes = p.nodes := by
  simp only [procType, Option.map_eq_some_iff] at h
  obtain ⟨⟨basic, p₁⟩, hbasic, h⟩ := h
  have hp₁ : p₁.nodes = p.nodes := by
    split at hbasic
    · obtain ⟨_, -, h⟩ := Option.map_eq_some_iff.1 hbasic
      cases h
      rfl
    · obtain ⟨_, -, h⟩ := Option.map_eq_some_iff.1 hbasic
      cases h
      rfl
  dsimp only at h
  split at h <;> cases h <;> exact hp₁

/-- What a procedure builds does not depend on how its nodes are counted before. -/
theorem Built.of_nodes {p p₁ p' : Parser} {t : Tree} (hp : p₁.nodes = p.nodes)
    (h : Built p₁ t p') : Built p t p' :=
  ⟨h.shaped, hp ▸ h.size, hp ▸ h.max⟩

theorem Built.to_nodes {p p₁ p' : Parser} {t : Tree} (hp : p'.nodes = p₁.nodes)
    (h : Built p t p₁) : Built p t p' :=
  ⟨h.shaped, hp ▸ h.size, hp ▸ h.max⟩

/-! ### Expressions -/

theorem binaryLoop_builds {ops : Token → Option Op} {operand : Proc Tree}
    (hops : ∀ token op, ops token = some op → (Kind.sys op).Arity 2) (hoperand : Builds operand)
    {p : Parser} : ∀ (n : ℕ) {left t : Tree} {p₁ p' : Parser},
    Built p left p₁ ∧ left.siblings = 1 → binaryLoop ops operand n left p₁ = some (t, p') →
    Built p t p' ∧ t.siblings = 1 := by
  intro n
  induction n with
  | zero =>
    intro left t p₁ p' _ h
    cases h
  | succ n ih =>
    intro left t p₁ p' hleft h
    rw [binaryLoop] at h
    split at h
    · next op hop =>
      obtain ⟨token, -, hop⟩ := Option.bind_eq_some_iff.1 hop
      obtain ⟨⟨right, p₂⟩, hright, h⟩ := Option.bind_eq_some_iff.1 h
      obtain ⟨⟨node, p₃⟩, hnode, h⟩ := Option.bind_eq_some_iff.1 h
      obtain ⟨hbuilt, hone⟩ := hoperand hright
      refine ih (hleft.1.join ?_ hbuilt.skip hnode) h
      rw [hone]
      exact hops token op hop
    · cases h
      exact hleft

theorem procBinary_builds (ops : Token → Option Op) {operand : Proc Tree}
    (hops : ∀ token op, ops token = some op → (Kind.sys op).Arity 2) (hoperand : Builds operand)
    (n : ℕ) : Builds (procBinary ops operand n) := by
  intro p p' t h
  obtain ⟨⟨left, p₁⟩, hleft, h⟩ := Option.bind_eq_some_iff.1 h
  exact binaryLoop_builds hops hoperand n (hoperand hleft) h

theorem procInclusiveOrExpr_builds {cast : Proc Tree} (hcast : Builds cast) (n : ℕ) :
    Builds (procInclusiveOrExpr cast n) := by
  have hmul := procBinary_builds mulOps (fun token op h => by
    cases token <;> cases h
    all_goals rfl) hcast n
  have hadd := procBinary_builds addOps (fun token op h => by
    cases token <;> cases h
    all_goals rfl) hmul n
  have hshift := procBinary_builds shiftOps (fun token op h => by
    cases token <;> cases h
    all_goals rfl) hadd n
  have hand := procBinary_builds andOps (fun token op h => by
    cases token <;> cases h
    all_goals rfl) hshift n
  have hxor := procBinary_builds xorOps (fun token op h => by
    cases token <;> cases h
    all_goals rfl) hand n
  exact procBinary_builds orOps (fun token op h => by
    cases token <;> cases h
    all_goals rfl) hxor n

/-- Trees that are to be linked. -/
structure Linked (p : Parser) (trees : List Tree) (p' : Parser) : Prop where
  shaped : ∀ t ∈ trees, t.Shaped
  size : p.nodes + (trees.map Tree.size).sum ≤ p'.nodes
  max : p.nodes ≤ nodeMax → p'.nodes ≤ nodeMax

theorem Linked.nil (p : Parser) : Linked p [] p := ⟨by simp, by simp, id⟩

theorem Linked.snoc {p p₁ p' : Parser} {trees : List Tree} {t : Tree} (h : Linked p trees p₁)
    (ht : Built p₁ t p') : Linked p (trees ++ [t]) p' := by
  refine ⟨?_, ?_, fun hp => ht.max (h.max hp)⟩
  · intro x hx
    obtain hx | hx := List.mem_append.1 hx
    · exact h.shaped x hx
    · exact List.mem_singleton.1 hx ▸ ht.shaped
  · have := h.size
    have := ht.size
    rw [List.map_append, List.sum_append, List.map_singleton, List.sum_singleton]
    omega

theorem link_spec {trees : List Tree} {last : Tree} (h : ∀ t ∈ trees, t.Shaped)
    (hlast : last.Shaped) : (link trees last).Shaped ∧
    (link trees last).size ≤ (trees.map Tree.size).sum + last.size := by
  induction trees with
  | nil => exact ⟨hlast, by simp [link]⟩
  | cons t trees ih =>
    obtain ⟨hshaped, hsize⟩ := ih fun x hx => h x (List.mem_cons_of_mem _ hx)
    have hlink : link (t :: trees) last = t.setSibling (link trees last) := rfl
    have hset := setSibling_size t (link trees last)
    rw [hlink, List.map_cons, List.sum_cons]
    exact ⟨setSibling_shaped (h t (List.mem_cons_self ..)) hshaped, by omega⟩

/-- Linked trees are built. -/
theorem Linked.built {p p₁ p' : Parser} {trees : List Tree} {last : Tree} (h : Linked p trees p₁)
    (hlast : Built p₁ last p') : Built p (link trees last) p' := by
  obtain ⟨hshaped, hsize⟩ := link_spec h.shaped hlast.shaped
  have := h.size
  have := hlast.size
  exact ⟨hshaped, by omega, fun hp => hlast.max (h.max hp)⟩

theorem Built.nil (p : Parser) : Built p .nil p := ⟨trivial, le_refl _, id⟩

theorem paramLoop_linked {assign : Proc Tree} (hassign : Builds assign) {p : Parser} :
    ∀ (n : ℕ) {params trees : List Tree} {p₁ p' : Parser}, Linked p params p₁ →
    paramLoop assign n params p₁ = some (trees, p') → Linked p trees p' := by
  intro n
  induction n with
  | zero =>
    intro params trees p₁ p' _ h
    cases h
  | succ n ih =>
    intro params trees p₁ p' hparams h
    rw [paramLoop] at h
    split at h
    · obtain ⟨⟨param, p₂⟩, hparam, h⟩ := Option.bind_eq_some_iff.1 h
      exact ih (hparams.snoc (hassign hparam).1.skip) h
    · cases h
      exact hparams

theorem procParamList_built {assign : Proc Tree} (hassign : Builds assign) {n : ℕ} {p p' : Parser}
    {params : Tree} (h : procParamList assign n p = some (params, p')) : Built p params p' := by
  obtain ⟨⟨param, p₁⟩, hparam, h⟩ := Option.bind_eq_some_iff.1 h
  obtain ⟨⟨trees, p₂⟩, htrees, h⟩ := Option.bind_eq_some_iff.1 h
  cases h
  have hfirst := (Linked.nil p).snoc (hassign hparam).1
  exact (paramLoop_linked hassign n hfirst htrees).built (.nil _)

theorem procPrimaryExpr_builds (env : Env) {assign : Proc Tree} (hassign : Builds assign) :
    Builds (procPrimaryExpr env assign) := by
  intro p p' t h
  have hskip : ∀ kind : Kind, kind.Arity 0 → newNode kind p.skip = some (t, p') →
      Built p t p' ∧ t.siblings = 1 := by
    intro kind hkind hnew
    obtain ⟨hbuilt, hone⟩ := newNode_builds kind hkind hnew
    exact ⟨hbuilt.skip, hone⟩
  unfold procPrimaryExpr at h
  generalize p.head = head at h
  cases head with
  | none => cases h
  | some token =>
    cases token with
    | identifier name =>
      obtain ⟨hbuilt, hone⟩ := newId_builds env name h
      exact ⟨hbuilt.skip, hone⟩
    | leftParen =>
      obtain ⟨⟨expr, p₁⟩, hexpr, h⟩ := Option.bind_eq_some_iff.1 h
      obtain ⟨⟨u, p₂⟩, hmatch, h⟩ := Option.bind_eq_some_iff.1 h
      cases h
      obtain ⟨hbuilt, hone⟩ := hassign hexpr
      exact ⟨hbuilt.skip.to_nodes (matchToken_nodes hmatch), hone⟩
    | valueInt i => exact hskip (.valueInt i) rfl h
    | valueLong l => exact hskip (.valueLong l) rfl h
    | valueChar c => exact hskip (.valueChar c) rfl h
    | valueString s => exact hskip (.valueString _) rfl h
    | valueNull => exact hskip .valueNull rfl h
    | _ => cases h

theorem callParams_built {assign : Proc Tree} (hassign : Builds assign) {n : ℕ} {p p' : Parser}
    {params : Tree} (h : callParams assign n p = some (params, p')) : Built p params p' := by
  rw [callParams] at h
  split at h
  · cases h
    exact (Built.nil p).to_nodes (skip_nodes p)
  · obtain ⟨⟨list, p₁⟩, hlist, h⟩ := Option.bind_eq_some_iff.1 h
    obtain ⟨⟨u, p₂⟩, hmatch, h⟩ := Option.bind_eq_some_iff.1 h
    cases h
    exact (procParamList_built hassign hlist).to_nodes (matchToken_nodes hmatch)

theorem postfixLoop_builds {assign : Proc Tree} (hassign : Builds assign) {p : Parser} :
    ∀ (n : ℕ) {left t : Tree} {p₁ p' : Parser}, Built p left p₁ ∧ left.siblings = 1 →
    postfixLoop assign n left p₁ = some (t, p') → Built p t p' ∧ t.siblings = 1 := by
  intro n
  induction n with
  | zero =>
    intro left t p₁ p' _ h
    cases h
  | succ n ih =>
    intro left t p₁ p' hleft h
    rw [postfixLoop] at h
    have hskip : Built p left p₁.skip := hleft.1.to_nodes (skip_nodes p₁)
    split at h
    · obtain ⟨⟨node, p₂⟩, hnode, h⟩ := Option.bind_eq_some_iff.1 h
      exact ih (hskip.unary .inc rfl hnode) h
    · obtain ⟨⟨node, p₂⟩, hnode, h⟩ := Option.bind_eq_some_iff.1 h
      exact ih (hskip.unary .dec rfl hnode) h
    · obtain ⟨⟨params, p₂⟩, hparams, h⟩ := Option.bind_eq_some_iff.1 h
      obtain ⟨⟨node, p₃⟩, hnode, h⟩ := Option.bind_eq_some_iff.1 h
      have hbuilt := (callParams_built hassign hparams).skip
      exact ih (hleft.1.join (Nat.le_add_right 1 _) hbuilt hnode) h
    · cases h
      exact hleft

theorem procUnaryExpr_builds (env : Env) {cast assign : Proc Tree} (hcast : Builds cast)
    (hassign : Builds assign) (n : ℕ) : Builds (procUnaryExpr env cast assign n) := by
  intro p p' t h
  rw [procUnaryExpr] at h
  have hprefix : ∀ kind : Kind, kind.Arity 1 → prefixNode cast kind p.skip = some (t, p') →
      Built p t p' ∧ t.siblings = 1 := by
    intro kind hkind h
    obtain ⟨⟨operand, p₁⟩, hoperand, h⟩ := Option.bind_eq_some_iff.1 h
    exact (hcast hoperand).1.skip.unary kind hkind h
  split at h
  · obtain ⟨hbuilt, hone⟩ := hcast h
    exact ⟨hbuilt.skip, hone⟩
  · exact hprefix .preinc rfl h
  · obtain ⟨⟨operand, p₁⟩, hoperand, h⟩ := Option.bind_eq_some_iff.1 h
    obtain ⟨⟨zero, p₂⟩, hzero, h⟩ := Option.bind_eq_some_iff.1 h
    obtain ⟨hbuilt, hone⟩ := hcast hoperand
    obtain ⟨hlong, -⟩ := newNode_builds (.valueLong 0) rfl hzero
    have hsize := (hbuilt.skip.trans hlong).1
    refine makeSysNode_builds ?_ hlong.shaped hbuilt.shaped (by omega) h
    rw [hone]
    rfl
  · exact hprefix .predec rfl h
  · exact hprefix (.sys .bitwise) rfl h
  · exact hprefix .getvalue rfl h
  · exact hprefix .getaddr rfl h
  · obtain ⟨⟨left, p₁⟩, hleft, h⟩ := Option.bind_eq_some_iff.1 h
    exact postfixLoop_builds hassign n (procPrimaryExpr_builds env hassign hleft) h

/-- Expressions and casts, by the depth that is left. -/
theorem procExpr_builds (env : Env) (n : ℕ) :
    Builds (procAssignExpr env n) ∧ Builds (procCastExpr env n) := by
  induction n with
  | zero =>
    constructor
    · intro p p' t h
      cases h
    · intro p p' t h
      cases h
  | succ n ih =>
    obtain ⟨hassign, hcast⟩ := ih
    constructor
    · intro p p' t h
      rw [procAssignExpr] at h
      obtain ⟨⟨left, p₁⟩, hleft, h⟩ := Option.bind_eq_some_iff.1 h
      have hbuilt := procInclusiveOrExpr_builds hcast n hleft
      dsimp only at h
      split at h
      · obtain ⟨⟨right, p₂⟩, hright, h⟩ := Option.bind_eq_some_iff.1 h
        obtain ⟨hr, hone⟩ := hassign hright
        refine hbuilt.1.join ?_ hr.skip h
        rw [hone]
        rfl
      · cases h
        exact hbuilt
    · intro p p' t h
      rw [procCastExpr] at h
      split at h
      · obtain ⟨⟨type, p₁⟩, htype, h⟩ := Option.bind_eq_some_iff.1 h
        obtain ⟨⟨u, p₂⟩, hmatch, h⟩ := Option.bind_eq_some_iff.1 h
        obtain ⟨⟨operand, p₃⟩, hoperand, h⟩ := Option.bind_eq_some_iff.1 h
        cases h
        obtain ⟨hbuilt, hone⟩ := hcast hoperand
        obtain ⟨hshaped, hsiblings, hsize⟩ := setDataType_spec operand type.code
        have hnodes : p₂.nodes = p.nodes :=
          (matchToken_nodes hmatch).trans ((procType_nodes htype).trans (skip_nodes p))
        have hb := hbuilt.of_nodes hnodes
        exact ⟨⟨hshaped.2 hb.shaped, hsize.symm ▸ hb.size, hb.max⟩, hsiblings.trans hone⟩
      · exact procUnaryExpr_builds env hcast hassign n h

/-! ### Statements -/

theorem initialise_builds (env : Env) (n : ℕ) (name : List UInt8) :
    Builds (initialise env n name) := by
  intro p p' t h
  obtain ⟨⟨right, p₁⟩, hright, h⟩ := Option.bind_eq_some_iff.1 h
  obtain ⟨⟨left, p₂⟩, hleft, h⟩ := Option.bind_eq_some_iff.1 h
  obtain ⟨hr, hone⟩ := (procExpr_builds env n).1 hright
  obtain ⟨hl, -⟩ := newId_builds env name hleft
  have hsize := (hr.trans hl).1
  refine makeSysNode_builds ?_ hl.shaped hr.shaped (by omega) h
  rw [hone]
  rfl

theorem declare_nodes {type : FinshType} {p p' : Parser} {name : List UInt8}
    (h : declare type p = some (name, p')) : p'.nodes = p.nodes := by
  obtain ⟨⟨found, p₁⟩, hfound, h⟩ := Option.bind_eq_some_iff.1 h
  obtain ⟨vars, -, h⟩ := Option.bind_eq_some_iff.1 h
  cases h
  rw [procIdentifier] at hfound
  split at hfound
  · cases hfound
    rfl
  · cases hfound

theorem Linked.to_nodes {p p₁ p' : Parser} {trees : List Tree} (hp : p'.nodes = p₁.nodes)
    (h : Linked p trees p₁) : Linked p trees p' :=
  ⟨h.shaped, hp ▸ h.size, hp ▸ h.max⟩

theorem declLoop_linked (env : Env) (type : FinshType) {p : Parser} :
    ∀ (n : ℕ) {assigns trees : List Tree} {p₁ p' : Parser}, Linked p assigns p₁ →
    declLoop env type n assigns p₁ = some (trees, p') → Linked p trees p' := by
  intro n
  induction n with
  | zero =>
    intro assigns trees p₁ p' _ h
    cases h
  | succ n ih =>
    intro assigns trees p₁ p' hassigns h
    rw [declLoop] at h
    split at h
    · obtain ⟨⟨name, p₂⟩, hname, h⟩ := Option.bind_eq_some_iff.1 h
      have hp₂ : Linked p assigns p₂ :=
        hassigns.to_nodes ((declare_nodes hname).trans (skip_nodes p₁))
      dsimp only at h
      split at h
      · obtain ⟨⟨assign, p₃⟩, hassign, h⟩ := Option.bind_eq_some_iff.1 h
        exact ih (hp₂.snoc (initialise_builds env n name hassign).1.skip) h
      · exact ih hp₂ h
    · obtain ⟨⟨u, p₂⟩, hmatch, h⟩ := Option.bind_eq_some_iff.1 h
      cases h
      exact hassigns.to_nodes (matchToken_nodes hmatch)

theorem procStatement_built (env : Env) (n : ℕ) {p p' : Parser} {t : Tree}
    (h : procStatement env n p = some (t, p')) : Built p t p' := by
  rw [procStatement] at h
  split at h
  · obtain ⟨⟨type, p₁⟩, htype, h⟩ := Option.bind_eq_some_iff.1 h
    obtain ⟨⟨name, p₂⟩, hname, h⟩ := Option.bind_eq_some_iff.1 h
    have hp₂ : Linked p [] p₂ :=
      (Linked.nil p).to_nodes ((declare_nodes hname).trans (procType_nodes htype))
    dsimp only at h
    split at h
    · obtain ⟨⟨assign, p₃⟩, hassign, h⟩ := Option.bind_eq_some_iff.1 h
      obtain ⟨⟨assigns, p₄⟩, hloop, h⟩ := Option.bind_eq_some_iff.1 h
      cases h
      have hfirst := hp₂.snoc (initialise_builds env n name hassign).1.skip
      exact (declLoop_linked env type n hfirst hloop).built (.nil _)
    · obtain ⟨⟨assigns, p₄⟩, hloop, h⟩ := Option.bind_eq_some_iff.1 h
      cases h
      exact (declLoop_linked env type n hp₂ hloop).built (.nil _)
  · rw [procExprStatement] at h
    split at h
    · cases h
      exact ⟨trivial, le_refl _, id⟩
    · obtain ⟨⟨expr, p₁⟩, hexpr, h⟩ := Option.bind_eq_some_iff.1 h
      obtain ⟨⟨u, p₂⟩, hmatch, h⟩ := Option.bind_eq_some_iff.1 h
      cases h
      exact ((procExpr_builds env n).1 hexpr).1.to_nodes
        (matchToken_nodes hmatch)

theorem statementLoop_built (env : Env) {p : Parser} : ∀ (n : ℕ) {nodes : List Tree}
    {node t : Tree} {p₁ p₂ p' : Parser}, Linked p nodes p₁ → Built p₁ node p₂ →
    statementLoop env n nodes node p₂ = some (t, p') → Built p t p' := by
  intro n
  induction n with
  | zero =>
    intro nodes node t p₁ p₂ p' _ _ h
    cases h
  | succ n ih =>
    intro nodes node t p₁ p₂ p' hnodes hnode h
    rw [statementLoop] at h
    split at h
    · cases h
      exact hnodes.built hnode
    · cases h
      exact hnodes.built hnode
    · next token _ _ =>
      obtain ⟨⟨next, p₃⟩, hnext, h⟩ := Option.bind_eq_some_iff.1 h
      have hbuilt := procStatement_built env n hnext
      dsimp only at h
      split at h
      · -- An empty statement: the node has no sibling any more.
        have hset := setSibling_size node .nil
        have hsize : p₁.nodes + (node.setSibling .nil).size ≤ p₃.nodes := by
          have := hnode.size
          have := hbuilt.size
          simp only [Tree.size] at hset
          omega
        have hlast : Built p₁ (node.setSibling .nil) p₃ :=
          ⟨setSibling_shaped hnode.shaped trivial, hsize, fun hp => hbuilt.max (hnode.max hp)⟩
        refine ih hnodes ?_ h
        cases token.isDecl with
        | true => exact hlast
        | false => exact hlast.to_nodes (skip_nodes p₃)
      · exact ih (hnodes.snoc hnode) hbuilt h

/-- What the parser accepts: shaped trees, with at most 16 nodes. -/
theorem finshParserRun_shaped {env : Env} {vars : Vars} {tokens : List Token} {root : Tree}
    (h : finshParserRun env vars tokens = some root) : root.Shaped ∧ root.size ≤ nodeMax := by
  have hof : ∀ {p' : Parser} {t : Tree}, Built ⟨tokens, 0, vars⟩ t p' →
      t.Shaped ∧ t.size ≤ nodeMax := by
    intro p' t ht
    have hsize := ht.size
    have hmax := ht.max (Nat.zero_le _)
    exact ⟨ht.shaped, by simp only at hsize; omega⟩
  rw [finshParserRun] at h
  dsimp only at h
  split at h
  · cases h
    exact hof (.nil _)
  · cases h
    exact hof (.nil _)
  · obtain ⟨⟨first, p₁⟩, hfirst, h⟩ := Option.bind_eq_some_iff.1 h
    have hbuilt := procStatement_built env _ hfirst
    dsimp only at h
    split at h
    · cases h
      exact hof (.nil _)
    · obtain ⟨⟨t, p₂⟩, hloop, h⟩ := Option.bind_eq_some_iff.1 h
      cases h
      exact hof (statementLoop_built env _ (.nil _) hbuilt hloop)

end EasyCore.Finsh
