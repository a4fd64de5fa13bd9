import EasyCore.Lib.Chain
import EasyCore.Lib.Runs

/-! The lists of named objects (`components/pthreads/semaphore.c`, `mqueue.c`). The two files have the same
    functions on a list each; they differ in the bytes that their find function compares with a name, which
    are the parameter `label` here. -/

namespace EasyCore.Pthreads.Registry
open Function Chain Runs

/-- An address; `RT_NULL` is `none`. -/
abbrev Addr := UInt32

abbrev CString := { s : List UInt8 // 0 ∉ s }

/-- `RT_NAME_MAX` -/
def rtNameMax : ℕ := 8

/-- `strncmp`; what follows a list is its NUL. -/
def strncmp : ℕ → List UInt8 → List UInt8 → ℤ
  | 0, _, _ => 0
  | n + 1, s, t =>
    if s.headD 0 ≠ t.headD 0 then ((s.headD 0).toNat : ℤ) - (t.headD 0).toNat
    else if s.headD 0 = 0 then 0
    else strncmp n s.tail t.tail

/-- `rt_strncpy` to the `name` of a kernel object. -/
def rtStrncpy (name : List UInt8) : List UInt8 :=
  name.take rtNameMax ++ List.replicate (rtNameMax - name.length) 0

/-- `struct posix_sem` and `struct mqdes`: `object` is the semaphore or the message queue of the kernel. -/
structure Desc where
  refcount : UInt16
  unlinked : Bool
  object : Addr

/-- A list of descriptors, the names of the kernel objects, and the memory in use. -/
structure Reg where
  list : Option Addr
  next : Addr → Option Addr
  desc : Addr → Desc
  objectName : Addr → List UInt8
  live : List Addr

/-- What an allocation answers: nothing, or memory that is not in use. -/
abbrev Alloc := (live : List Addr) → Option { a : Addr // a ∉ live }

/-- What a call returns, and which kernel objects it creates and deletes. -/
structure Res where
  handle : Option Addr
  created : Option Addr
  deleted : Option Addr
  reg : Reg

/-- The descriptors on the list: there are not more than memory in use. -/
def Reg.nodes (r : Reg) : List Addr := follow r.next r.live.length r.list

def Reg.setDesc (r : Reg) (a : Addr) (d : Desc) : Reg := { r with desc := update r.desc a d }

def Reg.setRefcount (r : Reg) (a : Addr) (n : UInt16) : Reg :=
  r.setDesc a { r.desc a with refcount := n }

def Reg.setUnlinked (r : Reg) (a : Addr) : Reg := r.setDesc a { r.desc a with unlinked := true }

section Calls
variable (label : Reg → Addr → List UInt8)

/-- The loop of `posix_sem_find` and `posix_mq_find`. -/
def findLoop (name : CString) (r : Reg) : ℕ → Option Addr → Option Addr
  | 0, _ => none
  | _, none => none
  | fuel + 1, some iter =>
    if strncmp rtNameMax (label r iter) name.1 = 0 then some iter
    else findLoop name r fuel (r.next iter)

/-- `posix_sem_find` and `posix_mq_find`; there are no more turns than descriptors. -/
def posixFind (name : CString) (r : Reg) : Option Addr :=
  findLoop label name r (r.live.length + 1) r.list

/-- `posix_sem_insert` and `posix_mq_insert` -/
def posixInsert (a : Addr) (r : Reg) : Reg := { r with next := update r.next a r.list, list := some a }

/-- The kernel object is deleted, and the descriptor freed. -/
def Reg.free (r : Reg) (a : Addr) : Option Addr × Reg :=
  (some (r.desc a).object, { r with live := (r.live.erase (r.desc a).object).erase a })

/-- The loop of `posix_sem_delete` and `posix_mq_delete`. -/
def deleteLoop (a : Addr) (r : Reg) : ℕ → Addr → Option Addr × Reg
  | 0, _ => (none, r)
  | fuel + 1, iter =>
    match r.next iter with
    | none => (none, r)
    | some j =>
      if j = a then Reg.free { r with next := update r.next iter (r.next a) } a
      else deleteLoop a r fuel j

/-- `posix_sem_delete` and `posix_mq_delete`: the kernel object that is deleted. -/
def posixDelete (a : Addr) (r : Reg) : Option Addr × Reg :=
  if r.list = some a then Reg.free { r with list := r.next a } a
  else match r.list with
    | none => (none, r)
    | some iter => deleteLoop a r (r.live.length + 1) iter

/-- `sem_open` and `mq_open` -/
def posixOpen (name : CString) (creat excl : Bool) (malloc create : Alloc) (r : Reg) : Res :=
  if creat then
    if excl ∧ posixFind label name r ≠ none then ⟨none, none, none, r⟩
    else match malloc r.live with
      | none => ⟨none, none, none, r⟩
      | some a =>
        match create (a.1 :: r.live) with
        | none => ⟨none, none, none, { r with live := (a.1 :: r.live).erase a.1 }⟩
        | some o =>
          ⟨some a.1, some o.1, none, posixInsert a.1 { r with
            live := o.1 :: a.1 :: r.live
            objectName := update r.objectName o.1 (rtStrncpy name.1)
            desc := update r.desc a.1 ⟨1, false, o.1⟩ }⟩
  else match posixFind label name r with
    | none => ⟨none, none, none, r⟩
    | some a => ⟨some a, none, none, r.setRefcount a ((r.desc a).refcount + 1)⟩

/-- A descriptor that nobody has open is deleted if it has been unlinked. -/
def deleteUnused (a : Addr) (r : Reg) : Res :=
  if (r.desc a).refcount = 0 ∧ (r.desc a).unlinked = true then
    ⟨none, none, (posixDelete a r).1, (posixDelete a r).2⟩
  else ⟨none, none, none, r⟩

/-- `sem_close` and `mq_close` -/
def posixClose (a : Addr) (r : Reg) : Res :=
  deleteUnused a (r.setRefcount a ((r.desc a).refcount - 1))

/-- `sem_unlink` and `mq_unlink` -/
def posixUnlink (name : CString) (r : Reg) : Res :=
  match posixFind label name r with
  | none => ⟨none, none, none, r⟩
  | some a => deleteUnused a (r.setUnlinked a)

end Calls

/-! ### Runs -/

/-- A list; for each descriptor the name it was created with, how many opens have not been closed, and
    whether its name has been unlinked since. -/
structure Run where
  reg : Reg
  name : Addr → CString
  opens : Addr → ℕ
  gone : Addr → Bool

/-- A call; its allocations, if it creates an object. -/
inductive Op
  | open (name : CString) (creat excl : Bool) (malloc create : Alloc)
  | close (a : Addr)
  | unlink (name : CString)

namespace Run
variable (label : Reg → Addr → List UInt8)

/-- An open has returned. -/
def opened (r : Run) (name : CString) (res : Res) : Run :=
  match res.handle, res.created with
  | none, _ => { r with reg := res.reg }
  | some a, none => { r with reg := res.reg, opens := update r.opens a (r.opens a + 1) }
  | some a, some _ =>
    { reg := res.reg
      name := update r.name a name
      opens := update r.opens a 1
      gone := update r.gone a false }

/-- One call. What is closed has been opened. -/
def exec (r : Run) : Op → Res × Run
  | .open name creat excl malloc create =>
    (posixOpen label name creat excl malloc create r.reg,
      r.opened name (posixOpen label name creat excl malloc create r.reg))
  | .close a =>
    if r.opens a = 0 then (⟨none, none, none, r.reg⟩, r)
    else (posixClose a r.reg,
      { r with reg := (posixClose a r.reg).reg, opens := update r.opens a (r.opens a - 1) })
  | .unlink name =>
    (posixUnlink label name r.reg,
      { r with
        reg := (posixUnlink label name r.reg).reg
        gone := fun a => r.gone a || decide (r.name a = name) })

def step (r : Run) (op : Op) : Run := (r.exec label op).2

/-- What an open returns. -/
def answer (r : Run) (op : Op) : Option Addr := (r.exec label op).1.handle

/-- A descriptor on the list. -/
def Listed (r : Run) (a : Addr) : Prop := a ∈ r.reg.nodes

/-- The object of a name, until it is unlinked. -/
def Current (r : Run) (name : CString) (a : Addr) : Prop :=
  r.Listed a ∧ r.name a = name ∧ r.gone a = false

instance (r : Run) (name : CString) (a : Addr) : Decidable (r.Current name a) :=
  inferInstanceAs (Decidable (a ∈ _ ∧ _ ∧ _))

/-- A name that has no object. -/
def Unused (r : Run) (name : CString) : Prop := ∀ a ∈ r.reg.nodes, ¬ r.Current name a

instance (r : Run) (name : CString) : Decidable (r.Unused name) := List.decidableBAll _ _

theorem unused_iff {r : Run} {name : CString} : r.Unused name ↔ ∀ a, ¬ r.Current name a :=
  ⟨fun h a ha => h a ha.1 ha, fun h a _ => h a⟩

end Run

/-- The list is `l`, and the memory in use is that of its descriptors and their objects. -/
structure Rep (r : Reg) (l : List Addr) : Prop where
  chained : Chained r.next r.list l
  live : r.live.Perm (l ++ l.map fun a => (r.desc a).object)
  nodup : r.live.Nodup

/-- The objects are as the calls have left them: each is counted and marked, is on the list until it is
    unlinked and closed, and is the only one of its name. -/
structure Holds (r : Run) (l : List Addr) : Prop where
  rep : Rep r.reg l
  refcount : ∀ a ∈ l, (r.reg.desc a).refcount.toNat = r.opens a
  unlinked : ∀ a ∈ l, (r.reg.desc a).unlinked = r.gone a
  kept : ∀ a ∈ l, r.gone a = true → r.opens a ≠ 0
  listed : ∀ a, r.opens a ≠ 0 → a ∈ l
  unique : ∀ a ∈ l, ∀ b ∈ l, r.gone a = false → r.gone b = false → r.name a = r.name b → a = b

def Good (r : Run) : Prop := ∃ l, Holds r l

/-- What an open returns is the object of the name; and with one that exists it returns it, unless a new
    one was to be created. -/
def Opens (label : Reg → Addr → List UInt8) (r : Run) : Op → Prop
  | .open name creat excl malloc create =>
    (∀ a, r.answer label (.open name creat excl malloc create) = some a →
      (r.step label (.open name creat excl malloc create)).Current name a) ∧
    (∀ a, r.Current name a → ¬ (creat = true ∧ excl = true) →
      r.answer label (.open name creat excl malloc create) = some a)
  | _ => True

/-- What should hold of a call: and what it frees has been unlinked, and closed for the last time. -/
structure Behaves (label : Reg → Addr → List UInt8) (r : Run) (op : Op) : Prop where
  good : Good (r.step label op)
  opens : Opens label r op
  freed : ∀ a, r.Listed a → ¬ (r.step label op).Listed a →
    (r.step label op).gone a = true ∧ (r.step label op).opens a = 0

/-- An object is not created for want of memory. -/
def AllocFails (malloc create : Alloc) (live : List Addr) : Prop :=
  (malloc live).elim True fun a => create (a.1 :: live) = none

instance (malloc create : Alloc) (live : List Addr) : Decidable (AllocFails malloc create live) :=
  match h : malloc live with
  | none => isTrue (by rw [AllocFails, h]; trivial)
  | some a => decidable_of_iff (create (a.1 :: live) = none) (by rw [AllocFails, h]; rfl)

/-- What an open finds is the object of the name, and can be counted. -/
def Run.CanOpen (r : Run) (name : CString) : Option Addr → Prop
  | none => r.Unused name
  | some a => r.Current name a ∧ r.opens a < 65535

instance (r : Run) (name : CString) : ∀ found, Decidable (r.CanOpen name found)
  | none => inferInstanceAs (Decidable (r.Unused name))
  | some _ => inferInstanceAs (Decidable (_ ∧ _))

/-- What an unlink finds is the object of the name, or there is none and it finds an unlinked one. -/
def Run.CanUnlink (r : Run) (name : CString) : Option Addr → Prop
  | none => r.Unused name
  | some a => (r.name a = name ∨ r.gone a = true) ∧ ∀ b ∈ r.reg.nodes, r.Current name b → b = a

instance (r : Run) (name : CString) : ∀ found, Decidable (r.CanUnlink name found)
  | none => inferInstanceAs (Decidable (r.Unused name))
  | some a =>
    haveI : Decidable (∀ b ∈ r.reg.nodes, r.Current name b → b = a) := List.decidableBAll _ _
    inferInstanceAs (Decidable ((_ ∨ _) ∧ _))

/-- An object is created only if its name has none, unless the find function finds something or memory runs
    out; and otherwise the find function finds the object of the name if there is one. -/
def Sound (label : Reg → Addr → List UInt8) (r : Run) : Op → Prop
  | .open name true excl malloc create => r.Unused name ∨
    excl = true ∧ (posixFind label name r.reg ≠ none ∨ AllocFails malloc create r.reg.live)
  | .open name false _ _ _ => r.CanOpen name (posixFind label name r.reg)
  | .close _ => True
  | .unlink name => r.CanUnlink name (posixFind label name r.reg)

instance (label : Reg → Addr → List UInt8) (r : Run) : ∀ op, Decidable (Sound label r op)
  | .open _ true _ _ _ => inferInstanceAs (Decidable (_ ∨ _ ∧ (_ ∨ _)))
  | .open name false _ _ _ => inferInstanceAs (Decidable (r.CanOpen name _))
  | .close _ => inferInstanceAs (Decidable True)
  | .unlink name => inferInstanceAs (Decidable (r.CanUnlink name _))

/-! ### The list -/

section List
variable {label : Reg → Addr → List UInt8} {r : Reg} {l : List Addr} {a : Addr} {name : CString}

namespace Rep

theorem nodup_list (h : Rep r l) : l.Nodup := (List.nodup_append.1 (h.live.nodup_iff.1 h.nodup)).1

theorem mem_live (h : Rep r l) (ha : a ∈ l) : a ∈ r.live :=
  h.live.mem_iff.2 (List.mem_append_left _ ha)

theorem length_le (h : Rep r l) : l.length ≤ r.live.length := by
  rw [h.live.length_eq, List.length_append]
  exact Nat.le_add_right _ _

theorem nodes_eq (h : Rep r l) : r.nodes = l := h.chained.follow_eq h.length_le

/-- The other fields of a descriptor. -/
theorem setDesc (h : Rep r l) {d : Desc} (hd : d.object = (r.desc a).object) : Rep (r.setDesc a d) l := by
  refine ⟨h.chained, ?_, h.nodup⟩
  have hobject : (fun x => ((r.setDesc a d).desc x).object) = fun x => (r.desc x).object := by
    funext x
    obtain rfl | hx := eq_or_ne x a
    · simp only [Reg.setDesc, update_self, hd]
    · simp only [Reg.setDesc, update_of_ne hx]
  rw [hobject]
  exact h.live

/-- A new descriptor is put in front. -/
theorem insert (h : Rep r l) {o : Addr} (ha : a ∉ r.live) (ho : o ∉ a :: r.live) (name : List UInt8) :
    Rep (posixInsert a { r with
      live := o :: a :: r.live
      objectName := update r.objectName o name
      desc := update r.desc a ⟨1, false, o⟩ }) (a :: l) := by
  have hal : a ∉ l := fun hm => ha (h.mem_live hm)
  refine ⟨h.chained.push hal, ?_, List.nodup_cons.2 ⟨ho, List.nodup_cons.2 ⟨ha, h.nodup⟩⟩⟩
  have hmap : l.map (fun x => (update r.desc a ⟨1, false, o⟩ x).object)
      = l.map fun x => (r.desc x).object := by
    refine List.map_congr_left fun x hx => ?_
    rw [update_of_ne fun e : x = a => hal (e ▸ hx)]
  simp only [posixInsert, List.map_cons, update_self, hmap, List.cons_append]
  refine ((h.live.cons a).cons o).trans ((List.Perm.swap a o _).trans ?_)
  exact (List.perm_middle.symm).cons a

/-- A descriptor and its object are freed. -/
theorem free (h : Rep r l) (ha : a ∈ l) {next : Addr → Option Addr} {list : Option Addr}
    (hc : Chained next list (l.erase a)) :
    Rep (Reg.free { r with next := next, list := list } a).2 (l.erase a) := by
  refine ⟨hc, ?_, (h.nodup.erase _).erase _⟩
  have hperm : r.live.Perm ((r.desc a).object :: a ::
      (l.erase a ++ (l.erase a).map fun x => (r.desc x).object)) := by
    have hl := List.perm_cons_erase ha
    refine h.live.trans ((hl.append (hl.map _)).trans ?_)
    simp only [List.map_cons, List.cons_append]
    exact (List.perm_middle.cons a).trans (List.Perm.swap _ _ _)
  have herase := (hperm.erase (r.desc a).object).erase a
  rwa [List.erase_cons_head, List.erase_cons_head] at herase

end Rep

theorem findLoop_eq {p : Option Addr} {fuel : ℕ} (h : Chained r.next p l) (hfuel : l.length ≤ fuel) :
    findLoop label name r fuel p
      = l.find? fun a => decide (strncmp rtNameMax (label r a) name.1 = 0) := by
  induction l generalizing p fuel with
  | nil =>
    obtain rfl : p = none := h
    cases fuel <;> rfl
  | cons iter l ih =>
    obtain ⟨rfl, h⟩ := h
    obtain _ | fuel := fuel
    · exact absurd hfuel (Nat.not_succ_le_zero _)
    · rw [findLoop]
      split
      next heq => rw [List.find?_cons_of_pos (by simpa using heq)]
      next hne =>
        rw [List.find?_cons_of_neg (by simpa using hne)]
        exact ih h (Nat.le_of_succ_le_succ hfuel)

/-- The find function goes through the list. -/
theorem Rep.find_eq (h : Rep r l) : posixFind label name r
    = l.find? fun a => decide (strncmp rtNameMax (label r a) name.1 = 0) :=
  findLoop_eq h.chained (h.length_le.trans (Nat.le_succ _))

theorem Rep.find_mem (h : Rep r l) (hf : posixFind label name r = some a) : a ∈ l :=
  List.mem_of_find?_eq_some (h.find_eq.symm.trans hf)

/-- The delete function finds the descriptor behind `iter`. -/
theorem deleteLoop_eq (a : Addr) (r : Reg) : ∀ (rest before : List Addr) (iter : Addr) (fuel : ℕ),
    Chained r.next r.list (before ++ iter :: rest) → (before ++ iter :: rest).Nodup → a ∈ rest →
    rest.length ≤ fuel → ∃ next, deleteLoop a r fuel iter = Reg.free { r with next := next } a ∧
      Chained next r.list ((before ++ iter :: rest).erase a)
  | [], _, _, _, _, _, ha, _ => absurd ha List.not_mem_nil
  | _ :: _, _, _, 0, _, _, _, hfuel => absurd hfuel (Nat.not_succ_le_zero _)
  | j :: rest, before, iter, fuel + 1, hc, hn, ha, hfuel => by
    have hnext : r.next iter = some j := hc.next_eq
    rw [deleteLoop, hnext]
    dsimp only
    split
    next heq =>
      subst heq
      refine ⟨_, rfl, ?_⟩
      have hbefore : j ∉ before ∧ iter ≠ j := by
        rw [List.nodup_append, List.nodup_cons] at hn
        refine ⟨fun hm => hn.2.2 j hm j (by simp) rfl, fun e => hn.2.1.1 (e ▸ List.mem_cons_self)⟩
      rw [List.erase_append_right _ hbefore.1, List.erase_cons_tail (by simpa using hbefore.2),
        List.erase_cons_head]
      refine hc.skip (update_self ..) fun x hx => update_of_ne ?_ _ _
      rintro rfl
      rw [List.nodup_append, List.nodup_cons, List.nodup_cons] at hn
      obtain hm | hm := List.mem_append.1 hx
      · exact hn.2.2 x hm x List.mem_cons_self rfl
      · exact hn.2.1.1 (List.mem_cons_of_mem _ hm)
    next hne =>
      have hsplit : before ++ iter :: j :: rest = (before ++ [iter]) ++ j :: rest := by simp
      rw [hsplit] at hc hn ⊢
      exact deleteLoop_eq a r rest (before ++ [iter]) j fuel hc hn
        ((List.mem_cons.1 ha).resolve_left (Ne.symm hne)) (Nat.le_of_succ_le_succ hfuel)

/-- The delete function takes a descriptor out, wherever it is on the list. -/
theorem Rep.delete (h : Rep r l) (ha : a ∈ l) :
    Rep (posixDelete a r).2 (l.erase a) ∧ (posixDelete a r).2.desc = r.desc := by
  unfold posixDelete
  split
  next hhead =>
    have hc := h.chained
    rw [hhead] at hc
    obtain ⟨l', rfl, hl'⟩ := hc.eq_cons
    have herase : (a :: l').erase a = l' := List.erase_cons_head ..
    exact ⟨h.free ha (herase.symm ▸ hl'), rfl⟩
  next hhead =>
    have hc := h.chained
    cases hlist : r.list with
    | none =>
      rw [hlist] at hc
      exact absurd (hc.eq_nil ▸ ha) List.not_mem_nil
    | some iter =>
      rw [hlist] at hc
      obtain ⟨rest, rfl, -⟩ := hc.eq_cons
      have hne : a ≠ iter := fun e => hhead (hlist.trans (congrArg some e.symm))
      have hfuel : rest.length ≤ r.live.length + 1 :=
        (Nat.le_succ _).trans (h.length_le.trans (Nat.le_succ _))
      obtain ⟨next, hloop, hc'⟩ := deleteLoop_eq a r rest [] iter (r.live.length + 1) h.chained
        h.nodup_list ((List.mem_cons.1 ha).resolve_left hne) hfuel
      dsimp only
      rw [hloop]
      exact ⟨h.free ha hc', rfl⟩

end List

/-! ### Each call -/

section Steps
variable {label : Reg → Addr → List UInt8} {r : Run} {op : Op} {l : List Addr} {a b : Addr}
  {name : CString}

theorem Holds.listed_iff (h : Holds r l) : r.Listed a ↔ a ∈ l := by
  rw [Run.Listed, h.rep.nodes_eq]

theorem Holds.current_iff (h : Holds r l) :
    r.Current name a ↔ a ∈ l ∧ r.name a = name ∧ r.gone a = false :=
  and_congr_left' h.listed_iff

theorem Holds.eq_of_current (h : Holds r l) (ha : r.Current name a) (hb : r.Current name b) : a = b :=
  h.unique a (h.listed_iff.1 ha.1) b (h.listed_iff.1 hb.1) ha.2.2 hb.2.2 (ha.2.1.trans hb.2.1.symm)

/-- An object is opened once more. -/
theorem Holds.again (h : Holds r l) (ha : a ∈ l) : Holds { r with
      reg := r.reg.setRefcount a ((r.reg.desc a).refcount + 1)
      opens := update r.opens a (r.opens a + 1) } l ↔ r.opens a < 65535 := by
  have hcount := h.refcount a ha
  have hlt := (r.reg.desc a).refcount.toNat_lt
  constructor
  · intro h'
    have hnew := h'.refcount a ha
    simp only [Reg.setRefcount, Reg.setDesc, update_self, UInt16.toNat_add, hcount] at hnew
    have hmod := Nat.mod_lt (r.opens a + UInt16.toNat 1) (by decide : 0 < 2 ^ 16)
    omega
  · intro hroom
    refine ⟨h.rep.setDesc rfl, fun x hx => ?_, fun x hx => ?_, fun x hx hg => ?_, fun x hx => ?_,
      h.unique⟩
    · obtain rfl | hxa := eq_or_ne x a
      · simp only [Reg.setRefcount, Reg.setDesc, update_self, UInt16.toNat_add, hcount]
        exact Nat.mod_eq_of_lt (by simpa using Nat.succ_lt_succ hroom)
      · simp only [Reg.setRefcount, Reg.setDesc, update_of_ne hxa]
        exact h.refcount x hx
    · obtain rfl | hxa := eq_or_ne x a
      · simp only [Reg.setRefcount, Reg.setDesc, update_self]
        exact h.unlinked x hx
      · simp only [Reg.setRefcount, Reg.setDesc, update_of_ne hxa]
        exact h.unlinked x hx
    · obtain rfl | hxa := eq_or_ne x a
      · simp only [update_self]
        exact Nat.succ_ne_zero _
      · simp only [update_of_ne hxa]
        exact h.kept x hx hg
    · obtain rfl | hxa := eq_or_ne x a
      · exact ha
      · simp only [update_of_ne hxa] at hx
        exact h.listed x hx

/-- An object is created: its name has none. -/
theorem Holds.create (h : Holds r l) {o : Addr} (ha : a ∉ r.reg.live) (ho : o ∉ a :: r.reg.live)
    (name : CString) : Holds
      { reg := posixInsert a { r.reg with
          live := o :: a :: r.reg.live
          objectName := update r.reg.objectName o (rtStrncpy name.1)
          desc := update r.reg.desc a ⟨1, false, o⟩ }
        name := update r.name a name
        opens := update r.opens a 1
        gone := update r.gone a false } (a :: l) ↔ ∀ b, ¬ r.Current name b := by
  have hal : a ∉ l := fun hm => ha (h.rep.mem_live hm)
  have hne : ∀ x ∈ l, x ≠ a := fun x hx e => hal (e ▸ hx)
  constructor
  · intro h' b hb
    obtain ⟨hbl, hname, hgone⟩ := h.current_iff.1 hb
    have hba := hne b hbl
    refine hba (h'.unique b (List.mem_cons_of_mem a hbl) a List.mem_cons_self ?_ ?_ ?_)
    · simp only [update_of_ne hba, hgone]
    · simp only [update_self]
    · simp only [update_of_ne hba, update_self, hname]
  · intro hnone
    refine ⟨h.rep.insert ha ho (rtStrncpy name.1), fun x hx => ?_, fun x hx => ?_, fun x hx hg => ?_,
      fun x hx => ?_, fun x hx y hy hgx hgy hxy => ?_⟩
    · obtain rfl | hx := List.mem_cons.1 hx
      · simp only [posixInsert, update_self]
        rfl
      · simp only [posixInsert, update_of_ne (hne x hx)]
        exact h.refcount x hx
    · obtain rfl | hx := List.mem_cons.1 hx
      · simp only [posixInsert, update_self]
      · simp only [posixInsert, update_of_ne (hne x hx)]
        exact h.unlinked x hx
    · obtain rfl | hx := List.mem_cons.1 hx
      · simp only [update_self, ne_eq, one_ne_zero, not_false_eq_true]
      · simp only [update_of_ne (hne x hx)] at hg ⊢
        exact h.kept x hx hg
    · obtain rfl | hxa := eq_or_ne x a
      · exact List.mem_cons_self
      · simp only [update_of_ne hxa] at hx
        exact List.mem_cons_of_mem a (h.listed x hx)
    · obtain rfl | hxl := List.mem_cons.1 hx
      · obtain rfl | hyl := List.mem_cons.1 hy
        · rfl
        · simp only [update_self, update_of_ne (hne y hyl)] at hgy hxy
          exact absurd (h.current_iff.2 ⟨hyl, hxy.symm, hgy⟩) (hnone y)
      · obtain rfl | hyl := List.mem_cons.1 hy
        · simp only [update_self, update_of_ne (hne x hxl)] at hgx hxy
          exact absurd (h.current_iff.2 ⟨hxl, hxy, hgx⟩) (hnone x)
        · simp only [update_of_ne (hne x hxl), update_of_ne (hne y hyl)] at hgx hgy hxy
          exact h.unique x hxl y hyl hgx hgy hxy

/-- An object is left on the list, or taken out because nobody has it open and it has been unlinked. -/
def Kept (r : Run) (l : List Addr) (a : Addr) : Prop :=
  Holds r l ∧ (r.opens a ≠ 0 ∨ r.gone a = false) ∨
    Holds r (l.erase a) ∧ r.opens a = 0 ∧ r.gone a = true

theorem kept_deleteUnused {r' : Run} (hr : r' = { r with reg := (deleteUnused a r.reg).reg })
    (hrep : Rep r.reg l) (ha : a ∈ l)
    (hcount : ∀ x ∈ l, (r.reg.desc x).refcount.toNat = r.opens x)
    (hmark : ∀ x ∈ l, (r.reg.desc x).unlinked = r.gone x)
    (hkept : ∀ x ∈ l, x ≠ a → r.gone x = true → r.opens x ≠ 0)
    (hlisted : ∀ x, r.opens x ≠ 0 → x ∈ l)
    (hunique : ∀ x ∈ l, ∀ y ∈ l, r.gone x = false → r.gone y = false → r.name x = r.name y → x = y) :
    Kept r' l a := by
  have hzero : (r.reg.desc a).refcount = 0 ↔ r.opens a = 0 := by
    rw [← hcount a ha, ← UInt16.toNat_inj]
    rfl
  subst hr
  unfold deleteUnused
  split_ifs with hdel
  all_goals rw [hzero, hmark a ha] at hdel
  · right
    obtain ⟨hrep', hdesc⟩ := hrep.delete ha
    have hmem : ∀ x ∈ l.erase a, x ∈ l ∧ x ≠ a := fun x hx =>
      (hrep.nodup_list.mem_erase_iff.1 hx).symm
    refine ⟨⟨hrep', fun x hx => ?_, fun x hx => ?_, fun x hx => hkept x (hmem x hx).1 (hmem x hx).2,
      fun x hx => ?_, fun x hx y hy => hunique x (hmem x hx).1 y (hmem y hy).1⟩, hdel⟩
    · dsimp only
      rw [hdesc]
      exact hcount x (hmem x hx).1
    · dsimp only
      rw [hdesc]
      exact hmark x (hmem x hx).1
    · refine hrep.nodup_list.mem_erase_iff.2 ⟨?_, hlisted x hx⟩
      rintro rfl
      exact hx hdel.1
  · left
    have hside : r.opens a ≠ 0 ∨ r.gone a = false := by
      rwa [not_and_or, Bool.not_eq_true] at hdel
    refine ⟨⟨hrep, hcount, hmark, fun x hx hg => ?_, hlisted, hunique⟩, hside⟩
    obtain rfl | hxa := eq_or_ne x a
    · exact hside.resolve_right fun hf => absurd (hf.symm.trans hg) Bool.false_ne_true
    · exact hkept x hx hxa hg

/-- What is off the list then is the object that has been taken out. -/
theorem Kept.good {r' : Run} (h' : Kept r' l a) (h : Holds r l) :
    Good r' ∧ ∀ b, r.Listed b → ¬ r'.Listed b → r'.gone b = true ∧ r'.opens b = 0 := by
  obtain ⟨h', -⟩ | ⟨h', hzero, hgone⟩ := h'
  · refine ⟨⟨l, h'⟩, fun b hb hout => absurd (h'.listed_iff.2 (h.listed_iff.1 hb)) hout⟩
  · refine ⟨⟨_, h'⟩, fun b hb hout => ?_⟩
    rw [h'.listed_iff, h.rep.nodup_list.mem_erase_iff, not_and_or, not_ne_iff] at hout
    obtain rfl := hout.resolve_right (not_not.2 (h.listed_iff.1 hb))
    exact ⟨hgone, hzero⟩

/-- A close takes one off the count, and frees what has been unlinked. -/
theorem Holds.close (h : Holds r l) (hopen : r.opens a ≠ 0) : Behaves label r (.close a) := by
  have ha := h.listed a hopen
  have hstep : r.step label (.close a) = { r with
      reg := (posixClose a r.reg).reg
      opens := update r.opens a (r.opens a - 1) } := by
    rw [Run.step, Run.exec, if_neg hopen]
  have hkept : Kept (r.step label (.close a)) l a := by
    refine kept_deleteUnused (r := { r with
      reg := r.reg.setRefcount a ((r.reg.desc a).refcount - 1)
      opens := update r.opens a (r.opens a - 1) }) hstep (h.rep.setDesc rfl) ha
      (fun x hx => ?_) (fun x hx => ?_) (fun x hx hxa hg => ?_) (fun x hx => ?_) h.unique
    · obtain rfl | hxa := eq_or_ne x a
      · simp only [Reg.setRefcount, Reg.setDesc, update_self]
        have hlt := (r.reg.desc x).refcount.toNat_lt
        have heq := h.refcount x hx
        have hone : UInt16.toNat 1 = 1 := rfl
        rw [UInt16.toNat_sub, heq]
        omega
      · simp only [Reg.setRefcount, Reg.setDesc, update_of_ne hxa]
        exact h.refcount x hx
    · obtain rfl | hxa := eq_or_ne x a
      · simp only [Reg.setRefcount, Reg.setDesc, update_self]
        exact h.unlinked x hx
      · simp only [Reg.setRefcount, Reg.setDesc, update_of_ne hxa]
        exact h.unlinked x hx
    · simp only [update_of_ne hxa]
      exact h.kept x hx hg
    · obtain rfl | hxa := eq_or_ne x a
      · exact ha
      · simp only [update_of_ne hxa] at hx
        exact h.listed x hx
  obtain ⟨hgood, hfreed⟩ := hkept.good h
  exact ⟨hgood, trivial, hfreed⟩

/-- An unlink marks the object that is found. -/
theorem Holds.unlink (h : Holds r l) (hf : posixFind label name r.reg = some a)
    (hmine : r.name a = name ∨ r.gone a = true) (honly : ∀ b, r.Current name b → b = a) :
    Behaves label r (.unlink name) := by
  have ha := h.rep.find_mem hf
  have hreg : posixUnlink label name r.reg = deleteUnused a (r.reg.setUnlinked a) := by
    rw [posixUnlink, hf]
  have hstep : r.step label (.unlink name) = { r with
      reg := (deleteUnused a (r.reg.setUnlinked a)).reg
      gone := fun x => r.gone x || decide (r.name x = name) } := by
    rw [Run.step, Run.exec, hreg]
  have hsame : ∀ x ∈ l, x ≠ a → (r.gone x || decide (r.name x = name)) = r.gone x := by
    intro x hx hxa
    by_cases hname : r.name x = name
    · have hgone : r.gone x = true := by
        by_contra hg
        exact hxa (honly x (h.current_iff.2 ⟨hx, hname, by simpa using hg⟩))
      rw [hgone, Bool.true_or]
    · rw [decide_eq_false hname, Bool.or_false]
  have hgone : (r.gone a || decide (r.name a = name)) = true := by
    simpa [or_comm] using hmine
  have hkept : Kept (r.step label (.unlink name)) l a := by
    refine kept_deleteUnused (r := { r with
      reg := r.reg.setUnlinked a
      gone := fun x => r.gone x || decide (r.name x = name) }) hstep (h.rep.setDesc rfl) ha
      (fun x hx => ?_) (fun x hx => ?_) (fun x hx hxa hg => ?_) h.listed
      (fun x hx y hy hgx hgy hxy => ?_)
    · obtain rfl | hxa := eq_or_ne x a
      · simp only [Reg.setUnlinked, Reg.setDesc, update_self]
        exact h.refcount x hx
      · simp only [Reg.setUnlinked, Reg.setDesc, update_of_ne hxa]
        exact h.refcount x hx
    · obtain rfl | hxa := eq_or_ne x a
      · simp only [Reg.setUnlinked, Reg.setDesc, update_self]
        exact hgone.symm
      · simp only [Reg.setUnlinked, Reg.setDesc, update_of_ne hxa]
        rw [hsame x hx hxa]
        exact h.unlinked x hx
    · dsimp only at hg
      rw [hsame x hx hxa] at hg
      exact h.kept x hx hg
    · simp only [Bool.or_eq_false_iff] at hgx hgy
      exact h.unique x hx y hy hgx.1 hgy.1 hxy
  obtain ⟨hgood, hfreed⟩ := hkept.good h
  exact ⟨hgood, trivial, hfreed⟩

theorem Rep.deleteUnused {s : Reg} (h : Rep s l) (ha : a ∈ l) :
    (deleteUnused a s).reg.desc = s.desc ∧
      (Rep (deleteUnused a s).reg l ∨ Rep (deleteUnused a s).reg (l.erase a)) := by
  unfold Registry.deleteUnused
  split_ifs
  · exact ⟨(h.delete ha).2, Or.inr (h.delete ha).1⟩
  · exact ⟨rfl, Or.inl h⟩

/-- An unlink that marks another object, or leaves one of the name, is wrong. -/
theorem Holds.unlink_conv (h : Holds r l) (hf : posixFind label name r.reg = some a)
    (hb : Behaves label r (.unlink name)) :
    (r.name a = name ∨ r.gone a = true) ∧ ∀ b, r.Current name b → b = a := by
  have ha := h.rep.find_mem hf
  have hreg : posixUnlink label name r.reg = deleteUnused a (r.reg.setUnlinked a) := by
    rw [posixUnlink, hf]
  have hstep : r.step label (.unlink name) = { r with
      reg := (deleteUnused a (r.reg.setUnlinked a)).reg
      gone := fun x => r.gone x || decide (r.name x = name) } := by
    rw [Run.step, Run.exec, hreg]
  obtain ⟨l', h'⟩ := hb.good
  have hfreed := hb.freed
  rw [hstep] at h' hfreed
  have hset : Rep (r.reg.setUnlinked a) l := h.rep.setDesc rfl
  obtain ⟨hdesc, hlist⟩ := hset.deleteUnused ha
  have hgone : ∀ x ∈ l', (update r.reg.desc a { r.reg.desc a with unlinked := true } x).unlinked
      = (r.gone x || decide (r.name x = name)) := by
    intro x hx
    have hmark := h'.unlinked x hx
    dsimp only at hmark
    rw [hdesc] at hmark
    exact hmark
  constructor
  · have htrue : (r.gone a || decide (r.name a = name)) = true := by
      by_cases ha' : a ∈ l'
      · have hmark := hgone a ha'
        rw [update_self] at hmark
        exact hmark.symm
      · exact (hfreed a (h.listed_iff.2 ha) fun hl => ha' (h'.listed_iff.1 hl)).1
    simpa [or_comm] using htrue
  · intro b hb
    obtain ⟨hbl, hname, hfalse⟩ := h.current_iff.1 hb
    by_contra hba
    have hb' : b ∈ l' := by
      obtain hrep | hrep := hlist
      · rwa [h'.rep.chained.unique hrep.chained]
      · rw [h'.rep.chained.unique hrep.chained]
        exact h.rep.nodup_list.mem_erase_iff.2 ⟨hba, hbl⟩
    have hmark := hgone b hb'
    rw [update_of_ne hba, h.unlinked b hbl, hfalse, Bool.false_or, decide_eq_true hname] at hmark
    exact absurd hmark Bool.false_ne_true

/-- Nothing is found: all is right if the name has no object. -/
theorem Holds.unlink_none (h : Holds r l) (hf : posixFind label name r.reg = none) :
    Behaves label r (.unlink name) ↔ r.Unused name := by
  rw [Run.unused_iff]
  have hreg : posixUnlink label name r.reg = ⟨none, none, none, r.reg⟩ := by
    rw [posixUnlink, hf]
  have hstep : r.step label (.unlink name) =
      { r with gone := fun x => r.gone x || decide (r.name x = name) } := by
    rw [Run.step, Run.exec, hreg]
  constructor
  · intro hb a ha
    obtain ⟨hal, hname, hfalse⟩ := h.current_iff.1 ha
    obtain ⟨l', h'⟩ := hb.good
    rw [hstep] at h'
    have hmark := h'.unlinked a (by rwa [h'.rep.chained.unique h.rep.chained])
    dsimp only at hmark
    rw [h.unlinked a hal, hfalse, Bool.false_or, decide_eq_true hname] at hmark
    exact absurd hmark Bool.false_ne_true
  · intro hnone
    have hsame : ∀ x ∈ l, (r.gone x || decide (r.name x = name)) = r.gone x := by
      intro x hx
      by_cases hname : r.name x = name
      · have hgone : r.gone x = true := by
          by_contra hg
          exact hnone x (h.current_iff.2 ⟨hx, hname, by simpa using hg⟩)
        rw [hgone, Bool.true_or]
      · rw [decide_eq_false hname, Bool.or_false]
    have h' : Holds (r.step label (.unlink name)) l := by
      rw [hstep]
      refine ⟨h.rep, h.refcount, fun x hx => ?_, fun x hx hg => ?_, h.listed,
        fun x hx y hy hgx hgy hxy => ?_⟩
      · dsimp only
        rw [hsame x hx]
        exact h.unlinked x hx
      · dsimp only at hg
        rw [hsame x hx] at hg
        exact h.kept x hx hg
      · simp only [Bool.or_eq_false_iff] at hgx hgy
        exact h.unique x hx y hy hgx.1 hgy.1 hxy
    exact ⟨⟨l, h'⟩, trivial, fun b hb hout => absurd (h'.listed_iff.2 (h.listed_iff.1 hb)) hout⟩

/-- A call that changes nothing. -/
theorem Holds.behaves_same (h : Holds r l) (hstep : r.step label op = r) (hopens : Opens label r op) :
    Behaves label r op :=
  ⟨⟨l, hstep.symm ▸ h⟩, hopens, fun _ ha hout => absurd (hstep.symm ▸ ha) hout⟩

/-- An open of what there is. -/
theorem Holds.open_found (h : Holds r l) {excl : Bool} {malloc create : Alloc}
    (hf : posixFind label name r.reg = some a) :
    Behaves label r (.open name false excl malloc create) ↔ r.Current name a ∧ r.opens a < 65535 := by
  have ha := h.rep.find_mem hf
  have hreg : posixOpen label name false excl malloc create r.reg
      = ⟨some a, none, none, r.reg.setRefcount a ((r.reg.desc a).refcount + 1)⟩ := by
    rw [posixOpen, hf]
    rfl
  have hanswer : r.answer label (.open name false excl malloc create) = some a := by
    rw [Run.answer, Run.exec, hreg]
  have hstep : r.step label (.open name false excl malloc create) = { r with
      reg := r.reg.setRefcount a ((r.reg.desc a).refcount + 1)
      opens := update r.opens a (r.opens a + 1) } := by
    rw [Run.step, Run.exec, hreg]
    rfl
  constructor
  · intro hb
    have hcur := hb.opens.1 a hanswer
    obtain ⟨l', h'⟩ := hb.good
    rw [hstep] at hcur h'
    have hl : l' = l := h'.rep.chained.unique h.rep.chained
    exact ⟨hcur, (h.again ha).1 (hl ▸ h')⟩
  · rintro ⟨hcur, hroom⟩
    have h' : Holds (r.step label (.open name false excl malloc create)) l := by
      rw [hstep]
      exact (h.again ha).2 hroom
    refine ⟨⟨l, h'⟩, ⟨fun b hb => ?_, fun b hb _ => ?_⟩, fun b hb hout =>
      absurd (h'.listed_iff.2 (h.listed_iff.1 hb)) hout⟩
    · obtain rfl := Option.some.inj (hanswer.symm.trans hb)
      rw [hstep]
      exact hcur
    · rw [hanswer, h.eq_of_current hcur hb]

/-- An open that finds nothing. -/
theorem Holds.open_none (h : Holds r l) {excl : Bool} {malloc create : Alloc}
    (hf : posixFind label name r.reg = none) :
    Behaves label r (.open name false excl malloc create) ↔ r.Unused name := by
  rw [Run.unused_iff]
  have hreg : posixOpen label name false excl malloc create r.reg = ⟨none, none, none, r.reg⟩ := by
    rw [posixOpen, hf]
    rfl
  have hanswer : r.answer label (.open name false excl malloc create) = none := by
    rw [Run.answer, Run.exec, hreg]
  have hstep : r.step label (.open name false excl malloc create) = r := by
    rw [Run.step, Run.exec, hreg]
    rfl
  constructor
  · intro hb a ha
    have hsome := hb.opens.2 a ha fun hc => absurd hc.1 Bool.false_ne_true
    exact absurd (hanswer.symm.trans hsome) (Option.some_ne_none a).symm
  · intro hnone
    exact h.behaves_same hstep ⟨fun b hb => absurd (hanswer.symm.trans hb) (Option.some_ne_none b).symm,
      fun b hb => absurd hb (hnone b)⟩

/-- An open with `O_CREAT` either changes nothing and returns nothing, or creates an object. -/
theorem open_creat_cases (label : Reg → Addr → List UInt8) (r : Run) (name : CString) (excl : Bool)
    (malloc create : Alloc) :
    (r.answer label (.open name true excl malloc create) = none ∧
        r.step label (.open name true excl malloc create) = r ∧
        (excl = true ∧ posixFind label name r.reg ≠ none ∨ AllocFails malloc create r.reg.live)) ∨
    ∃ a o, a ∉ r.reg.live ∧ o ∉ a :: r.reg.live ∧
      ¬ (excl = true ∧ (posixFind label name r.reg ≠ none ∨ AllocFails malloc create r.reg.live)) ∧
      r.answer label (.open name true excl malloc create) = some a ∧
      r.step label (.open name true excl malloc create) =
      { reg := posixInsert a { r.reg with
          live := o :: a :: r.reg.live
          objectName := update r.reg.objectName o (rtStrncpy name.1)
          desc := update r.reg.desc a ⟨1, false, o⟩ }
        name := update r.name a name
        opens := update r.opens a 1
        gone := update r.gone a false } := by
  rw [Run.answer, Run.step, Run.exec]
  by_cases hfound : excl = true ∧ posixFind label name r.reg ≠ none
  · have hreg : posixOpen label name true excl malloc create r.reg = ⟨none, none, none, r.reg⟩ := by
      rw [posixOpen, if_pos rfl, if_pos hfound]
    rw [hreg]
    exact Or.inl ⟨rfl, rfl, Or.inl hfound⟩
  · cases hm : malloc r.reg.live with
    | none =>
      have hreg : posixOpen label name true excl malloc create r.reg = ⟨none, none, none, r.reg⟩ := by
        rw [posixOpen, if_pos rfl, if_neg hfound, hm]
      rw [hreg]
      refine Or.inl ⟨rfl, rfl, Or.inr ?_⟩
      rw [AllocFails, hm]
      trivial
    | some a =>
      cases hc : create (a.1 :: r.reg.live) with
      | none =>
        have hreg : posixOpen label name true excl malloc create r.reg = ⟨none, none, none, r.reg⟩ := by
          rw [posixOpen, if_pos rfl, if_neg hfound, hm]
          dsimp only
          rw [hc, List.erase_cons_head]
        rw [hreg]
        refine Or.inl ⟨rfl, rfl, Or.inr ?_⟩
        rw [AllocFails, hm]
        exact hc
      | some o =>
        have hreg : posixOpen label name true excl malloc create r.reg
            = ⟨some a.1, some o.1, none, posixInsert a.1 { r.reg with
              live := o.1 :: a.1 :: r.reg.live
              objectName := update r.reg.objectName o.1 (rtStrncpy name.1)
              desc := update r.reg.desc a.1 ⟨1, false, o.1⟩ }⟩ := by
          rw [posixOpen, if_pos rfl, if_neg hfound, hm]
          dsimp only
          rw [hc]
        rw [hreg]
        refine Or.inr ⟨a.1, o.1, a.2, o.2, ?_, rfl, rfl⟩
        rintro ⟨hexcl, hfind | hfails⟩
        · exact hfound ⟨hexcl, hfind⟩
        · rw [AllocFails, hm] at hfails
          exact absurd (hfails.symm.trans hc) (Option.some_ne_none o).symm

/-- An open with `O_CREAT`. -/
theorem Holds.open_creat (h : Holds r l) {excl : Bool} {malloc create : Alloc} :
    Behaves label r (.open name true excl malloc create) ↔ r.Unused name ∨
      excl = true ∧ (posixFind label name r.reg ≠ none ∨ AllocFails malloc create r.reg.live) := by
  rw [Run.unused_iff]
  obtain ⟨hanswer, hstep, hwhy⟩ | ⟨a, o, ha, ho, hnot, hanswer, hstep⟩ :=
    open_creat_cases label r name excl malloc create
  · constructor
    · intro hb
      rw [or_iff_not_imp_left]
      intro hcur
      push Not at hcur
      obtain ⟨b, hcur⟩ := hcur
      have hexcl : excl = true := by
        by_contra hexcl
        have hsome := hb.opens.2 b hcur fun hc => hexcl hc.2
        exact absurd (hanswer.symm.trans hsome) (Option.some_ne_none b).symm
      exact ⟨hexcl, hwhy.imp And.right id⟩
    · intro hs
      refine h.behaves_same hstep ⟨fun b hb => ?_, fun b hb hexcl => ?_⟩
      · exact absurd (hanswer.symm.trans hb) (Option.some_ne_none b).symm
      · obtain hnone | ⟨he, -⟩ := hs
        · exact absurd hb (hnone b)
        · exact absurd ⟨rfl, he⟩ hexcl
  · rw [or_iff_left hnot]
    have hcreate := h.create ha ho name
    constructor
    · intro hb
      obtain ⟨l', h'⟩ := hb.good
      rw [hstep] at h'
      have hl : l' = a :: l := by
        refine h'.rep.chained.unique ?_
        exact h.rep.chained.push fun hm => ha (h.rep.mem_live hm)
      exact hcreate.1 (hl ▸ h')
    · intro hnone
      have h' : Holds (r.step label (.open name true excl malloc create)) (a :: l) := by
        rw [hstep]
        exact hcreate.2 hnone
      refine ⟨⟨_, h'⟩, ⟨fun b hb => ?_, fun b hb => absurd hb (hnone b)⟩, fun b hb hout => ?_⟩
      · obtain rfl := Option.some.inj (hanswer.symm.trans hb)
        refine ⟨h'.listed_iff.2 List.mem_cons_self, ?_, ?_⟩
        · rw [hstep]
          exact update_self ..
        · rw [hstep]
          exact update_self ..
      · exact absurd (h'.listed_iff.2 (List.mem_cons_of_mem a (h.listed_iff.1 hb))) hout

theorem behaves_iff (h : Good r) : Behaves label r op ↔ Sound label r op := by
  obtain ⟨l, h⟩ := h
  cases op with
  | «open» name creat excl malloc create =>
    cases creat with
    | true => exact h.open_creat
    | false =>
      cases hf : posixFind label name r.reg with
      | none =>
        rw [h.open_none hf, Sound, hf, Run.CanOpen]
      | some a =>
        rw [h.open_found hf, Sound, hf, Run.CanOpen]
  | close a =>
    refine iff_of_true ?_ trivial
    by_cases hopen : r.opens a = 0
    · refine h.behaves_same ?_ trivial
      rw [Run.step, Run.exec, if_pos hopen]
    · exact h.close hopen
  | unlink name =>
    cases hf : posixFind label name r.reg with
    | none => rw [h.unlink_none hf, Sound, hf, Run.CanUnlink]
    | some a =>
      rw [Sound, hf, Run.CanUnlink]
      refine ⟨fun hb => ⟨(h.unlink_conv hf hb).1, fun b _ => (h.unlink_conv hf hb).2 b⟩, fun hs => ?_⟩
      exact h.unlink hf hs.1 fun b hcur => hs.2 b hcur.1 hcur

/-- No object: `posix_sem_list` and `posix_mq_list` are `RT_NULL`. -/
structure Run.Init (r : Run) : Prop where
  list : r.reg.list = none
  live : r.reg.live = []
  opens : ∀ a, r.opens a = 0

theorem init_good (h : r.Init) : Good r := by
  refine ⟨[], ⟨h.list, ?_, ?_⟩, fun a ha => absurd ha List.not_mem_nil,
    fun a ha => absurd ha List.not_mem_nil, fun a ha => absurd ha List.not_mem_nil,
    fun a ha => absurd (h.opens a) ha, fun a ha => absurd ha List.not_mem_nil⟩
  · rw [h.live]
    exact List.Perm.refl _
  · rw [h.live]
    exact List.nodup_nil

end Steps

end EasyCore.Pthreads.Registry
