import EasyCore.Dfs.Ramfs
import EasyCore.Lib.Runs

/-! The names in a file system in memory: which paths are found after any opens, unlinks and
    renames. -/

namespace EasyCore.Dfs.Ramfs
open Function Kernel EasyCore.Links Runs

inductive NameAct
  | open (path : CString) (flags : OpenFlags) (alloc : Alloc)
  | unlink (path : CString)
  | rename (oldpath newpath : CString)

/-- A call, and whether it succeeds. -/
def nameExec (s : DfsRamfs) : NameAct → DfsRamfs × Bool
  | .open path flags alloc =>
    ((dfsRamfsOpen s path flags alloc).1, (dfsRamfsOpen s path flags alloc).2.isOk)
  | .unlink path => ((dfsRamfsUnlink s path).1, (dfsRamfsUnlink s path).2.isOk)
  | .rename oldpath newpath =>
    ((dfsRamfsRename s oldpath newpath).1, (dfsRamfsRename s oldpath newpath).2.isOk)

/-- The names there are after a call: a file that is opened has been created, if it was not there. -/
def namesAfter (names : Set (List UInt8)) (a : NameAct) (succeeds : Bool) : Set (List UInt8) :=
  if succeeds then
    match a with
    | .open path _ _ => { n | n ∈ names ∨ n = subpath path ∧ n ≠ [] }
    | .unlink path => { n | n ∈ names ∧ n ≠ subpath path }
    | .rename oldpath newpath => { n | n ∈ names ∧ n ≠ subpath oldpath ∨ n = subpath newpath }
  else names

/-- The file system and the names. -/
abbrev Named := DfsRamfs × Set (List UInt8)

def nameStep (p : Named) (a : NameAct) : Named :=
  ((nameExec p.1 a).1, namesAfter p.2 a (nameExec p.1 a).2)

def nameStart : Named := (dfsRamfsCreate, ∅)

/-- The root directory and the names are there. -/
def There (p : Named) (path : CString) : Prop := subpath path = [] ∨ subpath path ∈ p.2

/-- The entries are linked, the root directory's with them; the root directory and the names are
    found, and no other path; every name is there once, with its terminator. -/
structure Namespace (p : Named) : Prop where
  linked : Entries p.1
  rootKept : root ∉ p.1.freed
  found : ∀ path, (dfsRamfsLookup p.1 path).isSome ↔ There p path
  distinct : ∀ a ∈ p.1.live, ∀ b ∈ p.1.live, p.1.nameOf a = p.1.nameOf b → a = b
  terminated : ∀ a ∈ p.1.live, 0 ∈ (p.1.dirent (.item a)).name

/-- A new name fits its array, the root directory is not removed, and a file is renamed to a name
    without a separator in front. -/
def NameOk (p : Named) : NameAct → Prop
  | .open path flags alloc =>
    flags.directory = false → ¬ There p path →
      (flags.creat ∨ flags.wronly) → (alloc p.1.live).isSome → (subpath path).length < ramfsNameMax
  | .unlink path => subpath path ≠ []
  | .rename oldpath newpath =>
    ¬ There p newpath → There p oldpath →
      subpath oldpath ≠ [] ∧ subpath newpath = newpath.1 ∧ newpath.1.length < ramfsNameMax

/-- What carries over: the names are those of the entries. -/
structure NameInv (p : Named) : Prop where
  linked : Entries p.1
  rootKept : root ∉ p.1.freed
  names : ∀ n, n ∈ p.2 ↔ ∃ a ∈ p.1.live, p.1.nameOf a = n
  distinct : ∀ a ∈ p.1.live, ∀ b ∈ p.1.live, p.1.nameOf a = p.1.nameOf b → a = b
  terminated : ∀ a ∈ p.1.live, 0 ∈ (p.1.dirent (.item a)).name

variable {p : Named} {s : DfsRamfs} {names : Set (List UInt8)} {path : CString}

theorem NameInv.found (inv : NameInv p) (path : CString) :
    (dfsRamfsLookup p.1 path).isSome ↔ There p path := by
  rw [lookup_isSome inv.linked, There, inv.names]

theorem NameInv.missing (inv : NameInv p) : dfsRamfsLookup p.1 path = none ↔ ¬ There p path := by
  rw [← inv.found, Bool.not_eq_true, Option.isSome_eq_false_iff, Option.isNone_iff_eq_none]

theorem NameInv.namespace (inv : NameInv p) : Namespace p where
  linked := inv.linked
  rootKept := inv.rootKept
  found := inv.found
  distinct := inv.distinct
  terminated := inv.terminated

theorem nameStart_inv : NameInv nameStart where
  linked := create_entries
  rootKept := List.not_mem_nil
  names n := by simp [nameStart, dfsRamfsCreate]
  distinct _ h := nomatch h
  terminated _ h := nomatch h

/-! ### Names in their arrays -/

theorem cstring_strncpy {src : List UInt8} (hnoNul : 0 ∉ src) (h : src.length < ramfsNameMax) :
    cstring (strncpy src) = src := by
  have hall : ∀ b ∈ src, decide (b ≠ 0) = true := fun b hb =>
    decide_eq_true fun h0 => hnoNul (h0 ▸ hb)
  obtain ⟨n, hn⟩ := Nat.exists_eq_add_of_lt h
  rw [cstring, strncpy, List.take_of_length_le h.le, List.takeWhile_append_of_pos hall,
    show ramfsNameMax - src.length = n + 1 by omega]
  simp [List.replicate_succ]

theorem zero_mem_strncpy {src : List UInt8} (hnoNul : 0 ∉ src) :
    0 ∈ strncpy src ↔ src.length < ramfsNameMax := by
  rw [strncpy, List.mem_append, List.mem_replicate]
  constructor
  · rintro (h | ⟨h, -⟩)
    · exact absurd (List.mem_of_mem_take h) hnoNul
    · omega
  · exact fun h => Or.inr ⟨by omega, rfl⟩

theorem subpath_noNul (path : CString) : 0 ∉ subpath path := fun h =>
  path.2 ((List.dropWhile_suffix _).subset h)

/-! ### Opening -/

/-- Nothing but sizes and contents differs. -/
structure SameNames (s s' : DfsRamfs) : Prop where
  list : s'.list = s.list
  live : s'.live = s.live
  freed : s'.freed = s.freed
  name : ∀ e, (s'.dirent e).name = (s.dirent e).name

theorem SameNames.refl (s : DfsRamfs) : SameNames s s := ⟨rfl, rfl, rfl, fun _ => rfl⟩

theorem truncate_same (s : DfsRamfs) (e : Entry) (flags : OpenFlags) :
    SameNames s (truncate s e flags) := by
  unfold truncate
  split
  · refine ⟨rfl, rfl, rfl, fun e' => ?_⟩
    by_cases h : e' = e
    · subst h
      simp [DfsRamfs.setDirent]
    · simp [DfsRamfs.setDirent, h]
  · exact SameNames.refl s

theorem NameInv.same {s' : DfsRamfs} (inv : NameInv (s, names)) (h : SameNames s s') :
    NameInv (s', names) := by
  have hname (a : ℕ) : s'.nameOf a = s.nameOf a := congrArg cstring (h.name _)
  have hlinked : Entries s' := by
    unfold Entries
    rw [h.list, h.live]
    exact inv.linked
  refine ⟨hlinked, ?_, fun n => ?_, fun a ha b hb hab => ?_, fun a ha => ?_⟩
  · show root ∉ s'.freed
    rw [h.freed]
    exact inv.rootKept
  · simp only [h.live, hname]
    exact inv.names n
  · rw [hname, hname] at hab
    exact inv.distinct a (h.live ▸ ha) b (h.live ▸ hb) hab
  · rw [h.name]
    exact inv.terminated a (h.live ▸ ha)

/-- How `dfs_ramfs_open` ends. -/
theorem dfsRamfsOpen_cases (h : Entries s) (path : CString) (flags : OpenFlags) (alloc : Alloc) :
    (SameNames s (dfsRamfsOpen s path flags alloc).1
        ∧ ((dfsRamfsOpen s path flags alloc).2.isOk = true →
          subpath path = [] ∨ ∃ a ∈ s.live, s.nameOf a = subpath path)
        ∧ (flags.directory = false → dfsRamfsLookup s path = none →
          (flags.creat ∨ flags.wronly) → alloc s.live = none))
      ∨ ∃ a, a ∉ s.live ∧ dfsRamfsLookup s path = none
        ∧ flags.directory = false ∧ (flags.creat ∨ flags.wronly) ∧ (alloc s.live).isSome
        ∧ SameNames (createEntry s path a) (dfsRamfsOpen s path flags alloc).1
        ∧ (dfsRamfsOpen s path flags alloc).2.isOk = true := by
  have hfound {e : Entry} (he : dfsRamfsLookup s path = some e) :
      subpath path = [] ∨ ∃ a ∈ s.live, s.nameOf a = subpath path :=
    (lookup_isSome h path).1 (by simp [he])
  unfold dfsRamfsOpen
  cases hdir : flags.directory with
  | true =>
    left
    rw [if_pos rfl]
    split
    · exact ⟨SameNames.refl s, (nomatch ·), (nomatch ·)⟩
    · split
      · exact ⟨SameNames.refl s, (nomatch ·), (nomatch ·)⟩
      · rename_i e he
        exact ⟨SameNames.refl s, fun _ => hfound he, (nomatch ·)⟩
  | false =>
    rw [if_neg Bool.false_ne_true]
    cases he : dfsRamfsLookup s path with
    | some e =>
      left
      by_cases hroot : e = root
      · simp only [if_pos hroot]
        exact ⟨SameNames.refl s, (nomatch ·), fun _ => (nomatch ·)⟩
      · simp only [if_neg hroot]
        exact ⟨truncate_same s e flags, fun _ => hfound he, fun _ => (nomatch ·)⟩
    | none =>
      by_cases hcreat : flags.creat ∨ flags.wronly
      · simp only [if_pos hcreat]
        cases ha : alloc s.live with
        | none => exact Or.inl ⟨SameNames.refl s, (nomatch ·), fun _ _ _ => rfl⟩
        | some a =>
          exact Or.inr ⟨a.1, a.2, trivial, trivial, hcreat, rfl, truncate_same _ _ flags, rfl⟩
      · simp only [if_neg hcreat]
        exact Or.inl ⟨SameNames.refl s, (nomatch ·), fun _ _ h => absurd h hcreat⟩

theorem createEntry_nameOf_ne {a b : ℕ} (h : b ≠ a) :
    (createEntry s path a).nameOf b = s.nameOf b := by
  simp [createEntry, DfsRamfs.nameOf, DfsRamfs.setDirent, h]

theorem createEntry_name (s : DfsRamfs) (path : CString) (a : ℕ) :
    ((createEntry s path a).dirent (.item a)).name = strncpy (subpath path) := by
  simp [createEntry, DfsRamfs.setDirent]

theorem createEntry_nameOf (a : ℕ) (h : (subpath path).length < ramfsNameMax) :
    (createEntry s path a).nameOf a = subpath path := by
  rw [DfsRamfs.nameOf, createEntry_name, cstring_strncpy (subpath_noNul path) h]

/-- A new name. -/
theorem NameInv.create (inv : NameInv (s, names)) {a : ℕ} (ha : a ∉ s.live)
    (hnone : dfsRamfsLookup s path = none) (hshort : (subpath path).length < ramfsNameMax) :
    NameInv (createEntry s path a, { n | n ∈ names ∨ n = subpath path ∧ n ≠ [] }) := by
  obtain ⟨hroot, hnew⟩ := lookup_none inv.linked hnone
  have hne {b : ℕ} (hb : b ∈ s.live) : b ≠ a := fun h => ha (h ▸ hb)
  have hold {b : ℕ} (hb : b ∈ s.live) : (createEntry s path a).nameOf b = s.nameOf b :=
    createEntry_nameOf_ne (hne hb)
  have hself : (createEntry s path a).nameOf a = subpath path := createEntry_nameOf a hshort
  refine ⟨createEntry_entries inv.linked ha, inv.rootKept, fun n => ?_, ?_, ?_⟩
  · have hnames := inv.names n
    constructor
    · rintro (hn | ⟨hn, -⟩)
      · obtain ⟨b, hb, hname⟩ := hnames.1 hn
        exact ⟨b, List.mem_cons_of_mem _ hb, (hold hb).trans hname⟩
      · exact ⟨a, List.mem_cons_self, hself.trans hn.symm⟩
    · rintro ⟨b, hb, hname⟩
      obtain heq | hb := List.mem_cons.1 hb
      · have hn : n = subpath path := hname.symm.trans (heq ▸ hself)
        exact Or.inr ⟨hn, hn ▸ hroot⟩
      · exact Or.inl (hnames.2 ⟨b, hb, (hold hb).symm.trans hname⟩)
  · intro b hb c hc hbc
    obtain hba | hb := List.mem_cons.1 hb
    · obtain hca | hc := List.mem_cons.1 hc
      · exact hba.trans hca.symm
      · rw [hba, hself, hold hc] at hbc
        exact absurd hbc.symm (hnew c hc)
    · obtain hca | hc := List.mem_cons.1 hc
      · rw [hca, hself, hold hb] at hbc
        exact absurd hbc (hnew b hb)
      · rw [hold hb, hold hc] at hbc
        exact inv.distinct b hb c hc hbc
  · intro b hb
    obtain hba | hb := List.mem_cons.1 hb
    · rw [hba, createEntry_name]
      exact (zero_mem_strncpy (subpath_noNul path)).2 hshort
    · have hname : ((createEntry s path a).dirent (.item b)).name = (s.dirent (.item b)).name := by
        simp [createEntry, DfsRamfs.setDirent, hne hb]
      rw [hname]
      exact inv.terminated b hb

theorem open_iff (inv : NameInv p) (path : CString) (flags : OpenFlags) (alloc : Alloc) :
    (Namespace (nameStep p (.open path flags alloc)) ↔ NameOk p (.open path flags alloc))
      ∧ (NameOk p (.open path flags alloc) → NameInv (nameStep p (.open path flags alloc))) := by
  obtain ⟨s, names⟩ := p
  obtain ⟨hsame, hfound, hno⟩ | ⟨a, ha, hnone, hdir, hcreat, halloc, hsame, hok⟩ :=
    dfsRamfsOpen_cases inv.linked path flags alloc
  · have hnames : namesAfter names (.open path flags alloc)
        (dfsRamfsOpen s path flags alloc).2.isOk = names := by
      unfold namesAfter
      split
      · rename_i hok
        refine Set.ext fun n => or_iff_left_of_imp ?_
        rintro ⟨rfl, hne⟩
        obtain hroot | hmem := hfound hok
        · exact absurd hroot hne
        · exact (inv.names _).2 hmem
      · rfl
    have inv' : NameInv (nameStep (s, names) (.open path flags alloc)) := by
      have := inv.same hsame
      rwa [← hnames] at this
    refine ⟨iff_of_true inv'.namespace fun hdir hnone hcreat hsome => ?_, fun _ => inv'⟩
    rw [hno hdir (inv.missing.2 hnone) hcreat] at hsome
    cases hsome
  · have hnames : namesAfter names (.open path flags alloc)
        (dfsRamfsOpen s path flags alloc).2.isOk
          = { n | n ∈ names ∨ n = subpath path ∧ n ≠ [] } := if_pos hok
    have inv' (hshort : (subpath path).length < ramfsNameMax) :
        NameInv (nameStep (s, names) (.open path flags alloc)) := by
      have := (inv.create ha hnone hshort).same hsame
      rwa [← hnames] at this
    refine ⟨⟨fun h _ _ _ _ => ?_, fun h => ?_⟩, fun h => inv' (h hdir (inv.missing.1 hnone) hcreat halloc)⟩
    · have hmem : a ∈ (nameStep (s, names) (.open path flags alloc)).1.live := by
        have hlive := hsame.live
        exact hlive ▸ List.mem_cons_self
      have hterminated := h.terminated a hmem
      have hname : ((nameStep (s, names) (.open path flags alloc)).1.dirent (.item a)).name
          = strncpy (subpath path) := (hsame.name _).trans (createEntry_name s path a)
      rw [hname] at hterminated
      exact (zero_mem_strncpy (subpath_noNul path)).1 hterminated
    · exact (inv' (h hdir (inv.missing.1 hnone) hcreat halloc)).namespace

/-! ### Removing -/

/-- The entry at `a` is removed. -/
def removeEntry (s : DfsRamfs) (a : ℕ) : DfsRamfs :=
  { s with
    list := rtListRemove s.list (.item a)
    live := s.live.filter fun b => (.item b : Entry) ≠ .item a
    freed := .item a :: s.freed }

theorem mem_removeEntry {a b : ℕ} : b ∈ (removeEntry s a).live ↔ b ∈ s.live ∧ b ≠ a := by
  simp [removeEntry]

theorem removeEntry_entries (h : Entries s) {a : ℕ} (ha : a ∈ s.live) :
    Entries (removeEntry s a) := by
  have hremove := linked_remove (t := a) h ha
  have hlist (k : Unit) : without (fun _ => s.live) a k = (removeEntry s a).live := by
    rw [without, (h.nodup (h := k) trivial).erase_eq_filter]
    exact List.filter_congr fun b _ => by simp [bne, BEq.beq]
  have hlinked : Linked (removeEntry s a).list (fun _ => True) (· ∈ s.live)
      (fun _ => (removeEntry s a).live) := hremove.congr fun k _ => (hlist k).symm
  refine ⟨hlinked.ring, hlinked.uniq, fun _ hb => hb, fun hb hno => ?_⟩
  exact absurd hb (hno () trivial)

theorem NameInv.remove (inv : NameInv (s, names)) {a : ℕ} (ha : a ∈ s.live)
    (hname : s.nameOf a = subpath path) :
    NameInv (removeEntry s a, { n | n ∈ names ∧ n ≠ subpath path }) := by
  refine ⟨removeEntry_entries inv.linked ha, ?_, fun n => ?_, fun b hb c hc => ?_, fun b hb => ?_⟩
  · exact List.not_mem_cons_of_ne_of_not_mem (nomatch ·) inv.rootKept
  · have hnames := inv.names n
    constructor
    · rintro ⟨hn, hne⟩
      obtain ⟨b, hb, hbn⟩ := hnames.1 hn
      refine ⟨b, mem_removeEntry.2 ⟨hb, ?_⟩, hbn⟩
      rintro rfl
      exact hne (hbn.symm.trans hname)
    · rintro ⟨b, hb, hbn⟩
      obtain ⟨hb, hne⟩ := mem_removeEntry.1 hb
      refine ⟨hnames.2 ⟨b, hb, hbn⟩, fun hn => hne (inv.distinct b hb a ha ?_)⟩
      have hbn : s.nameOf b = n := hbn
      exact hbn.trans (hn.trans hname.symm)
  · exact inv.distinct b (mem_removeEntry.1 hb).1 c (mem_removeEntry.1 hc).1
  · exact inv.terminated b (mem_removeEntry.1 hb).1

theorem unlink_iff (inv : NameInv p) (path : CString) :
    (Namespace (nameStep p (.unlink path)) ↔ NameOk p (.unlink path))
      ∧ (NameOk p (.unlink path) → NameInv (nameStep p (.unlink path))) := by
  obtain ⟨s, names⟩ := p
  cases hlookup : dfsRamfsLookup s path with
  | none =>
    have heq : nameStep (s, names) (.unlink path) = (s, names) := by
      simp only [nameStep, nameExec, dfsRamfsUnlink, hlookup]
      rfl
    rw [heq]
    exact ⟨iff_of_true inv.namespace (lookup_none inv.linked hlookup).1, fun _ => inv⟩
  | some e =>
    obtain ⟨hroot, rfl⟩ | ⟨hroot, a, ha, rfl, hname⟩ := lookup_some inv.linked hlookup
    · refine ⟨iff_of_false (fun h => h.rootKept ?_) (fun h => h hroot), fun h => absurd hroot h⟩
      simp only [nameStep, nameExec, dfsRamfsUnlink, hlookup]
      exact List.mem_cons_self
    · have heq : nameStep (s, names) (.unlink path)
          = (removeEntry s a, { n | n ∈ names ∧ n ≠ subpath path }) := by
        simp only [nameStep, nameExec, dfsRamfsUnlink, hlookup]
        rfl
      have inv' := inv.remove ha hname
      rw [heq]
      exact ⟨iff_of_true inv'.namespace hroot, fun _ => inv'⟩

/-! ### Renaming -/

theorem subpath_head (path : CString) : (subpath path).head? ≠ some 0x2f := fun h => by
  have hhead := List.head?_dropWhile_not (· = (0x2f : UInt8)) path.1
  rw [show path.1.dropWhile (· = 0x2f) = subpath path from rfl, h] at hhead
  simp at hhead

/-- The entry `e` has another name. -/
def renameEntry (s : DfsRamfs) (e : Entry) (newpath : CString) : DfsRamfs :=
  s.setDirent e { s.dirent e with name := strncpy newpath.1 }

theorem renameEntry_name (s : DfsRamfs) (a : ℕ) (newpath : CString) :
    ((renameEntry s (.item a) newpath).dirent (.item a)).name = strncpy newpath.1 := by
  simp [renameEntry, DfsRamfs.setDirent]

theorem renameEntry_name_ne {a b : ℕ} (h : b ≠ a) (newpath : CString) :
    ((renameEntry s (.item a) newpath).dirent (.item b)).name = (s.dirent (.item b)).name := by
  simp [renameEntry, DfsRamfs.setDirent, h]

theorem renameEntry_root_name (s : DfsRamfs) (a : ℕ) (newpath : CString) :
    ((renameEntry s root newpath).dirent (.item a)).name = (s.dirent (.item a)).name := by
  simp [renameEntry, DfsRamfs.setDirent, root]

theorem NameInv.rename (inv : NameInv (s, names)) {oldpath newpath : CString} {a : ℕ}
    (ha : a ∈ s.live) (hname : s.nameOf a = subpath oldpath)
    (hnone : dfsRamfsLookup s newpath = none) (hnew : subpath newpath = newpath.1)
    (hshort : newpath.1.length < ramfsNameMax) :
    NameInv (renameEntry s (.item a) newpath,
      { n | n ∈ names ∧ n ≠ subpath oldpath ∨ n = subpath newpath }) := by
  have hfresh := (lookup_none inv.linked hnone).2
  have hself : (renameEntry s (.item a) newpath).nameOf a = subpath newpath := by
    rw [DfsRamfs.nameOf, renameEntry_name, cstring_strncpy newpath.2 hshort, hnew]
  have hold {b : ℕ} (hb : b ≠ a) : (renameEntry s (.item a) newpath).nameOf b = s.nameOf b :=
    congrArg cstring (renameEntry_name_ne hb newpath)
  refine ⟨inv.linked, inv.rootKept, fun n => ?_, fun b hb c hc hbc => ?_, fun b hb => ?_⟩
  · have hnames := inv.names n
    constructor
    · rintro (⟨hn, hne⟩ | hn)
      · obtain ⟨b, hb, hbn⟩ := hnames.1 hn
        have hba : b ≠ a := by
          rintro rfl
          exact hne (hbn.symm.trans hname)
        exact ⟨b, hb, (hold hba).trans hbn⟩
      · exact ⟨a, ha, hself.trans hn.symm⟩
    · rintro ⟨b, hb, hbn⟩
      by_cases hba : b = a
      · rw [hba] at hbn
        exact Or.inr (hbn.symm.trans hself)
      · have hbn' : s.nameOf b = n := (hold hba).symm.trans hbn
        refine Or.inl ⟨hnames.2 ⟨b, hb, hbn'⟩, fun hn => hba ?_⟩
        exact inv.distinct b hb a ha (hbn'.trans (hn.trans hname.symm))
  · by_cases hba : b = a
    · by_cases hca : c = a
      · exact hba.trans hca.symm
      · rw [hba, hself, hold hca] at hbc
        exact absurd hbc.symm (hfresh c hc)
    · by_cases hca : c = a
      · rw [hca, hself, hold hba] at hbc
        exact absurd hbc (hfresh b hb)
      · rw [hold hba, hold hca] at hbc
        exact inv.distinct b hb c hc hbc
  · by_cases hba : b = a
    · rw [hba]
      show 0 ∈ ((renameEntry s (.item a) newpath).dirent (.item a)).name
      rw [renameEntry_name]
      exact (zero_mem_strncpy newpath.2).2 hshort
    · show 0 ∈ ((renameEntry s (.item a) newpath).dirent (.item b)).name
      rw [renameEntry_name_ne hba]
      exact inv.terminated b hb

/-- A name with a separator in front is the name of no path. -/
theorem cstring_strncpy_ne {src : List UInt8} (hsep : src.head? = some 0x2f) (path : CString) :
    cstring (strncpy src) ≠ subpath path := by
  obtain ⟨rest, rfl⟩ := List.head?_eq_some_iff.1 hsep
  intro h
  refine subpath_head path ?_
  rw [← h]
  simp [cstring, strncpy, ramfsNameMax]

theorem subpath_eq_or (path : CString) : subpath path = path.1 ∨ path.1.head? = some 0x2f := by
  obtain ⟨_ | ⟨c, rest⟩, hnoNul⟩ := path
  · exact Or.inl rfl
  · by_cases hc : c = 0x2f
    · exact Or.inr (congrArg some hc)
    · exact Or.inl (by simp [subpath, hc])

theorem rename_iff (inv : NameInv p) (oldpath newpath : CString) :
    (Namespace (nameStep p (.rename oldpath newpath)) ↔ NameOk p (.rename oldpath newpath))
      ∧ (NameOk p (.rename oldpath newpath) → NameInv (nameStep p (.rename oldpath newpath))) := by
  obtain ⟨s, names⟩ := p
  cases hnew : dfsRamfsLookup s newpath with
  | some e =>
    have heq : nameStep (s, names) (.rename oldpath newpath) = (s, names) := by
      simp only [nameStep, nameExec, dfsRamfsRename, hnew]
      rfl
    rw [heq]
    have hthere : There (s, names) newpath := (inv.found newpath).1 (by simp [hnew])
    exact ⟨iff_of_true inv.namespace fun hnone => absurd hthere hnone, fun _ => inv⟩
  | none =>
    cases hold : dfsRamfsLookup s oldpath with
    | none =>
      have heq : nameStep (s, names) (.rename oldpath newpath) = (s, names) := by
        simp only [nameStep, nameExec, dfsRamfsRename, hnew, hold]
        rfl
      rw [heq]
      have hgone : ¬ There (s, names) oldpath := inv.missing.1 hold
      exact ⟨iff_of_true inv.namespace fun _ hthere => absurd hthere hgone, fun _ => inv⟩
    | some e =>
      have heq : nameStep (s, names) (.rename oldpath newpath) = (renameEntry s e newpath,
          { n | n ∈ names ∧ n ≠ subpath oldpath ∨ n = subpath newpath }) := by
        simp only [nameStep, nameExec, dfsRamfsRename, hnew, hold]
        rfl
      have hfresh := (lookup_none inv.linked hnew).2
      have hlinked : Entries (renameEntry s e newpath) := inv.linked
      have hfree : ¬ There (s, names) newpath := inv.missing.1 hnew
      have hthere : There (s, names) oldpath := (inv.found oldpath).1 (by simp [hold])
      -- the new name is found, so an entry has it
      have htarget (h : Namespace (renameEntry s e newpath,
          { n | n ∈ names ∧ n ≠ subpath oldpath ∨ n = subpath newpath })) :
          ∃ b ∈ s.live, (renameEntry s e newpath).nameOf b = subpath newpath := by
        have hfound := (h.found newpath).2 (Or.inr (Or.inr rfl))
        obtain hroot | hmem := (lookup_isSome hlinked newpath).1 hfound
        · exact absurd hroot (lookup_none inv.linked hnew).1
        · exact hmem
      rw [heq]
      obtain ⟨hroot, rfl⟩ | ⟨hroot, a, ha, rfl, hname⟩ := lookup_some inv.linked hold
      · have hok : ¬ NameOk (s, names) (.rename oldpath newpath) := fun h =>
          (h hfree hthere).1 hroot
        refine ⟨iff_of_false (fun h => ?_) hok, fun h => absurd h hok⟩
        obtain ⟨b, hb, hbn⟩ := htarget h
        have hbn' : s.nameOf b = subpath newpath :=
          (congrArg cstring (renameEntry_root_name s b newpath)).symm.trans hbn
        exact hfresh b hb hbn'
      · have inv' (h : NameOk (s, names) (.rename oldpath newpath)) :
            NameInv (renameEntry s (.item a) newpath,
              { n | n ∈ names ∧ n ≠ subpath oldpath ∨ n = subpath newpath }) := by
          obtain ⟨-, hplain, hshort⟩ := h hfree hthere
          exact inv.rename ha hname hnew hplain hshort
        refine ⟨⟨fun h _ _ => ⟨hroot, ?_, ?_⟩, fun h => (inv' h).namespace⟩, inv'⟩
        · obtain hplain | hsep := subpath_eq_or newpath
          · exact hplain
          · obtain ⟨b, hb, hbn⟩ := htarget h
            by_cases hba : b = a
            · rw [hba, DfsRamfs.nameOf, renameEntry_name] at hbn
              exact absurd hbn (cstring_strncpy_ne hsep newpath)
            · have hbn' : s.nameOf b = subpath newpath :=
                (congrArg cstring (renameEntry_name_ne hba newpath)).symm.trans hbn
              exact absurd hbn' (hfresh b hb)
        · have hterminated : 0 ∈ ((renameEntry s (.item a) newpath).dirent (.item a)).name :=
            h.terminated a ha
          rw [renameEntry_name] at hterminated
          exact (zero_mem_strncpy newpath.2).1 hterminated

/-! ### Runs -/

theorem nameStep_iff (inv : NameInv p) (a : NameAct) :
    (Namespace (nameStep p a) ↔ NameOk p a) ∧ (NameOk p a → NameInv (nameStep p a)) := by
  cases a with
  | «open» path flags alloc => exact open_iff inv path flags alloc
  | unlink path => exact unlink_iff inv path
  | rename oldpath newpath => exact rename_iff inv oldpath newpath

/-- CORRECT: the names are kept after each call of a run if and only if each call is one of those
    that the functions handle. -/
theorem namespace_of_run (acts : List NameAct) :
    Along nameStep (fun p a => Namespace (nameStep p a)) nameStart acts
      ↔ Along nameStep NameOk nameStart acts :=
  Along.iff (fun _ a inv => (nameStep_iff inv a).1) (fun _ a inv => (nameStep_iff inv a).2) acts
    nameStart_inv

/-- The file `/a` is created, and renamed to `/b`: neither is there then. -/
theorem not_namespace_of_rename : ¬ Along nameStep (fun p a => Namespace (nameStep p a)) nameStart
    [.open ⟨[0x2f, 0x61], by decide⟩ ⟨false, true, true, false, false⟩ oneEntry,
      .rename ⟨[0x2f, 0x61], by decide⟩ ⟨[0x2f, 0x62], by decide⟩] := by
  rintro ⟨-, h, -⟩
  have hfound := (h.found ⟨[0x2f, 0x62], by decide⟩).2 (Or.inr (Or.inr rfl))
  exact absurd hfound (by decide +kernel)

end EasyCore.Dfs.Ramfs
