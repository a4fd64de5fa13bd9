import EasyCore.Dfs.Descriptor
import EasyCore.Dfs.MountPath

/-! Whether a file is open (`fd_is_open` of `dfs.c`, `dfs_file_open` and `dfs_file_unlink` of `dfs_file.c`).
    A descriptor has the path that its file system is given; `fd_is_open` cuts the path of the mount off.

        file system     file        descriptor     `fd_is_open`
        /               /sd/a       /sd/a          /sd/a
        /sd             /sd/a       /a             /a
        /sd             /sd         /              (empty)
        /sd, full path  /sd/a       /sd/a          /a

    It looks at the first `DFS_FD_MAX` descriptors, and with `DFS_USING_STDIO` the last three are behind
    them. -/

namespace EasyCore.Dfs.OpenFiles
open Function Runs Paths Mount

/-- What `dfs_file_open` leaves in a descriptor. The path by which the file has been opened, normalised, is
    not kept by the code. An entry of the mount table stands for the pointer to it. -/
structure OpenFile where
  fs : DfsFilesystem
  path : Path
  opened : Path

/-- The descriptors and the calls, the mount table, and the files of the descriptors that have one. -/
structure Files where
  base : State
  table : List DfsFilesystem
  file : ℕ → OpenFile

inductive FileAct
  /-- A call begins or goes on; if it opens a file, it is the one of this path. -/
  | call (a : Act) (workingDirectory : Option Path) (path : Path)
  /-- File systems are mounted or unmounted. -/
  | mounts (table : List DfsFilesystem)

variable (cfg : Config) (isFullpath hasUnlink : FsOps → Bool)

/-- `fs->ops->flags & DFS_FS_FLAG_FULLPATH` -/
def fullpathFlag (fs : DfsFilesystem) : Bool := fs.ops.any isFullpath

/-- The path that the file system is given. -/
def fsPath (fs : DfsFilesystem) (fullpath : Path) : Path :=
  if fullpathFlag isFullpath fs then fullpath else (dfsSubdir (fs.path.getD []) fullpath).getD ['/']

/-- The file system of a path, and the path normalised. -/
def target (workingDirectory : Option Path) (table : List DfsFilesystem) (path : Path) :
    Option (DfsFilesystem × Path) :=
  (dfsNormalizePath workingDirectory true path).bind fun fullpath =>
    (dfsFilesystemLookup ⟨[], table⟩ fullpath).map fun fs => (fs, fullpath)

/-- The descriptor for which the `i`th call is going to open a file. -/
def opening (s : State) (i : ℕ) : Option ℕ :=
  (s.calls[i]?).bind fun c => match c.pc with
    | .fileOpen _ => some c.fd
    | _ => none

/-- A call goes on; `dfs_file_open` looks for the file system first. -/
def goOn (s : Files) (i : ℕ) (answer : Answer) (workingDirectory : Option Path) (path : Path) : Files :=
  match opening s.base i with
  | none => { s with base := Dfs.step cfg s.base (.go i answer) }
  | some fd =>
    match target workingDirectory s.table path with
    | none => { s with base := Dfs.step cfg s.base (.go i .notFound) }
    | some (fs, fullpath) =>
      { s with
        base := Dfs.step cfg s.base (.go i answer)
        file := if answer = .ok then update s.file fd ⟨fs, fsPath isFullpath fs fullpath, fullpath⟩
          else s.file }

def step (s : Files) : FileAct → Files
  | .mounts table => { s with table }
  | .call (.go i answer) workingDirectory path => goOn cfg isFullpath s i answer workingDirectory path
  | .call a _ _ => { s with base := Dfs.step cfg s.base a }

/-- `dfs_init` -/
def init (table : List DfsFilesystem) : Files := ⟨Dfs.start, table, fun _ => ⟨.zero, [], []⟩⟩

/-- The path that `fd_is_open` compares with. -/
def mountpath (fs : DfsFilesystem) (fullpath : Path) : Path :=
  if fs.path = some ['/'] then fullpath else fullpath.drop (fs.path.getD []).length

/-- `fd_is_open`; not open is -1. -/
def fdIsOpen (workingDirectory : Option Path) (s : Files) (pathname : Path) : Bool :=
  match target workingDirectory s.table pathname with
  | none => false
  | some (fs, fullpath) =>
    (List.range cfg.max).any fun index => (s.base.fdTable index).fs ∧ (s.file index).fs = fs ∧
      (s.file index).path = mountpath fs fullpath

/-- `dfs_file_unlink`: the file system whose `unlink` is called, and the path that it is given. -/
def dfsFileUnlink (workingDirectory : Option Path) (s : Files) (path : Path) :
    Option (DfsFilesystem × Path) :=
  match target workingDirectory s.table path with
  | none => none
  | some (fs, fullpath) =>
    if fdIsOpen cfg workingDirectory s fullpath then none
    else if fs.ops.any hasUnlink then some (fs, fsPath isFullpath fs fullpath)
    else none

/-! ### Open files -/

/-- A descriptor with a file. -/
def Live (s : Files) (fd : ℕ) : Prop := (s.base.fdTable fd).fs = true

/-- The descriptor has the file of this path. -/
def Refers (s : Files) (fs : DfsFilesystem) (fullpath : Path) (fd : ℕ) : Prop :=
  Live s fd ∧ (s.file fd).fs = fs ∧ (s.file fd).opened = fullpath

/-- A file is reported as open exactly if a descriptor has it, and is not unlinked then. -/
structure Protected (s : Files) : Prop where
  isOpen : ∀ workingDirectory path, fdIsOpen cfg workingDirectory s path = true ↔
    ∃ fs fullpath, target workingDirectory s.table path = some (fs, fullpath) ∧
      ∃ fd, Refers s fs fullpath fd
  unlink : ∀ workingDirectory path fs fullpath, target workingDirectory s.table path = some (fs, fullpath) →
    (dfsFileUnlink cfg isFullpath hasUnlink workingDirectory s path).isSome → ∀ fd, ¬ Refers s fs fullpath fd

/-- The path that a descriptor has is the one that `fd_is_open` compares with: the file system is mounted on
    the root, or takes short paths, and the file is not its own root. -/
def Sound (f : OpenFile) : Prop :=
  f.fs.path = some ['/'] ∨ (fullpathFlag isFullpath f.fs = false ∧ f.fs.path ≠ some f.opened)

/-- Every open file is sound, and one of the first `DFS_FD_MAX` descriptors has it. -/
def Scanned (s : Files) : Prop :=
  ∀ fd, Live s fd → Sound isFullpath (s.file fd) ∧
    ∃ index < cfg.max, Refers s (s.file fd).fs (s.file fd).opened index

/-- Every open file is still found by its path: no file system has been mounted over it. -/
def Visible (s : Files) : Prop :=
  ∀ fd, Live s fd → dfsFilesystemLookup ⟨[], s.table⟩ (s.file fd).opened = some (s.file fd).fs

/-- The paths of the table are normalised, and different. -/
structure Good (table : List DfsFilesystem) : Prop where
  distinct : Distinct table
  canonical : ∀ iter ∈ table, ∀ p, iter.path = some p → Canonical '/' '.' p

/-- File systems with open files stay mounted. -/
def Keeps (s : Files) : FileAct → Prop
  | .mounts table => Good table ∧ ∀ fd, Live s fd → (s.file fd).fs ∈ table
  | .call .. => True

/-- What a descriptor has of its file. -/
structure Proper (table : List DfsFilesystem) (f : OpenFile) : Prop where
  mem : f.fs ∈ table
  mount : ∃ m, f.fs.path = some m ∧ Below '/' m f.opened
  opened : Canonical '/' '.' f.opened
  path : f.path = fsPath isFullpath f.fs f.opened

structure Inv (s : Files) : Prop where
  good : Good s.table
  proper : ∀ fd, Live s fd → Proper isFullpath s.table (s.file fd)

section Steps
variable {cfg} {isFullpath hasUnlink} {s : Files} {b : State} {table : List DfsFilesystem}

theorem fs_setFd (x fd : ℕ) (d : DfsFd) :
    ((b.setFd fd d).fdTable x).fs = if x = fd then d.fs else (b.fdTable x).fs := by
  by_cases h : x = fd <;> simp [State.setFd, h]

theorem fs_fdGet (x fd : ℕ) : ((fdGet b fd).fdTable x).fs = (b.fdTable x).fs := by
  rw [fdGet, fs_setFd]
  split_ifs with h
  · rw [h]
  · rfl

theorem fs_zero {x fd : ℕ} (h : ((b.setFd fd .zero).fdTable x).fs = true) : (b.fdTable x).fs = true := by
  rw [fs_setFd] at h
  split_ifs at h
  · cases h
  · exact h

theorem fs_fdPut {x fd : ℕ} (h : ((fdPut b fd).fdTable x).fs = true) : (b.fdTable x).fs = true := by
  unfold fdPut at h
  split_ifs at h
  · exact fs_zero h
  · rw [fs_setFd] at h
    split_ifs at h with heq
    · rw [heq]
      exact h
    · exact h

/-- A file comes to a descriptor only when one is opened for it. -/
theorem fs_goOn {i x : ℕ} {c : Call} {answer : Answer}
    (h : ((Dfs.goOn cfg b i c answer).fdTable x).fs = true) :
    (b.fdTable x).fs = true ∨ ∃ o, c.pc = .fileOpen o ∧ answer = .ok ∧ x = c.fd := by
  unfold Dfs.goOn at h
  split at h
  · split_ifs at h
    · exact .inl ((fs_fdGet x c.fd).symm.trans h)
    · exact .inl h
  · rename_i o hpc
    split at h
    · by_cases hx : x = c.fd
      · exact .inr ⟨o, hpc, rfl, hx⟩
      · left
        have hset := fs_setFd (b := b) x c.fd { b.fdTable c.fd with fs := true }
        rw [if_neg hx] at hset
        exact hset.symm.trans h
    · exact .inl h
    · exact .inl (fs_zero h)
  · exact .inl h
  · split_ifs at h
    · exact .inl (fs_zero h)
    · exact .inl (fs_zero h)
    · exact .inl h
    · exact .inl h
  · exact .inl h
  · exact .inl (fs_fdPut h)
  · exact .inl (fs_fdPut h)
  · exact .inl (fs_fdPut h)

theorem fs_step {x : ℕ} {a : Act} (h : ((Dfs.step cfg b a).fdTable x).fs = true) :
    (b.fdTable x).fs = true ∨ ∃ i, a = .go i .ok ∧ opening b i = some x := by
  cases a with
  | opens o =>
    unfold Dfs.step at h
    simp only at h
    split at h
    · rename_i fd hnew
      have hset := fs_setFd (b := b) x fd { b.fdTable fd with magic := dfsFdMagic, refCount := 1 }
      left
      split_ifs at hset with heq
      · rw [heq]
        exact hset.symm.trans (heq ▸ h)
      · exact hset.symm.trans h
    · exact .inl h
  | close fd =>
    unfold Dfs.step at h
    simp only at h
    split_ifs at h
    · exact .inl ((fs_fdGet x fd).symm.trans h)
    · exact .inl h
  | closedir fd =>
    unfold Dfs.step at h
    simp only at h
    split_ifs at h
    · exact .inl ((fs_fdGet x fd).symm.trans h)
    · exact .inl h
    · exact .inl h
  | use fd =>
    unfold Dfs.step at h
    simp only at h
    split_ifs at h
    · exact .inl ((fs_fdGet x fd).symm.trans h)
    · exact .inl h
  | badSeek fd =>
    unfold Dfs.step at h
    simp only at h
    split_ifs at h
    · exact .inl ((fs_fdGet x fd).symm.trans h)
    · exact .inl h
  | go i answer =>
    unfold Dfs.step at h
    simp only at h
    split at h
    · rename_i c hc
      rcases fs_goOn h with h | ⟨o, hpc, rfl, rfl⟩
      · exact .inl h
      · exact .inr ⟨i, rfl, by simp only [opening, hc, Option.bind_some, hpc]⟩
    · exact .inl h

variable {workingDirectory : Option Path} {path fullpath m : Path} {fs : DfsFilesystem} {f : OpenFile}

/-- What is looked up from the root is canonical. -/
theorem target_spec (hgood : Good table) (h : target workingDirectory table path = some (fs, fullpath)) :
    fs ∈ table ∧ (∃ m, fs.path = some m ∧ Below '/' m fullpath) ∧ Canonical '/' '.' fullpath ∧
      dfsFilesystemLookup ⟨[], table⟩ fullpath = some fs := by
  obtain ⟨full, hfull, hmap⟩ := Option.bind_eq_some_iff.1 h
  obtain ⟨fs', hlookup, heq⟩ := Option.map_eq_some_iff.1 hmap
  obtain ⟨rfl, rfl⟩ := Prod.mk.injEq .. ▸ heq
  have hfold : dfsFilesystemLookup ⟨[], table⟩ full = (table.foldl (look full) (none, 0)).1 := rfl
  rcases foldl_look full table with ⟨hacc, -⟩ | ⟨fs, m, hacc, hfound⟩
  · rw [hfold, hacc] at hlookup
    cases hlookup
  · have hfs : fs = fs' := by
      rw [hfold, hacc] at hlookup
      exact Option.some.inj hlookup
    rw [hfs] at hfound
    have hm := hgood.canonical fs' hfound.mem m hfound.live.1
    have hhead : full.head? = some '/' := by
      obtain ⟨t, ht⟩ := List.isPrefixOf_iff_prefix.1 hfound.passes.1
      obtain ⟨st, -, rfl⟩ := hm
      rw [← ht, List.head?_append, head_render]
      rfl
    have hcanonical := dfsNormalizePath_canonical hfull hhead
    exact ⟨hfound.mem, ⟨m, hfound.live.1, (passes_iff hm hcanonical).1 hfound.passes⟩, hcanonical, hlookup⟩

/-- A canonical path leads to the file system that a lookup finds. -/
theorem target_self (workingDirectory : Option Path) (h : Canonical '/' '.' fullpath)
    (hlookup : dfsFilesystemLookup ⟨[], table⟩ fullpath = some fs) :
    target workingDirectory table fullpath = some (fs, fullpath) := by
  rw [target, dfsNormalizePath_self workingDirectory h, Option.bind_some, hlookup, Option.map_some]

/-- A step that opens no file. -/
theorem Inv.call (h : Inv isFullpath s) {a : Act} (ha : ∀ i fd, a = .go i .ok → opening s.base i ≠ some fd) :
    Inv isFullpath { s with base := Dfs.step cfg s.base a } := by
  refine ⟨h.good, fun x hx => ?_⟩
  rcases fs_step hx with hx | ⟨i, hgo, hi⟩
  · exact h.proper x hx
  · exact absurd hi (ha i x hgo)

theorem Inv.goOn (h : Inv isFullpath s) (i : ℕ) (answer : Answer) (workingDirectory : Option Path)
    (path : Path) : Inv isFullpath (goOn cfg isFullpath s i answer workingDirectory path) := by
  unfold OpenFiles.goOn
  split
  · rename_i hopening
    refine h.call fun j fd hgo => ?_
    cases hgo
    rw [hopening]
    exact (Option.some_ne_none fd).symm
  · rename_i fd hopening
    split
    · refine h.call fun j fd hgo => ?_
      cases hgo
    · rename_i fs fullpath htarget
      by_cases hok : answer = .ok
      · obtain ⟨hmem, hmount, hcanonical, -⟩ := target_spec h.good htarget
        refine ⟨h.good, fun x hx => ?_⟩
        simp only [if_pos hok]
        by_cases hfd : x = fd
        · rw [hfd, update_self]
          exact ⟨hmem, hmount, hcanonical, rfl⟩
        · rw [update_of_ne hfd]
          rcases fs_step hx with hx | ⟨j, hgo, hj⟩
          · exact h.proper x hx
          · cases hgo
            rw [hopening] at hj
            exact absurd (Option.some.inj hj).symm hfd
      · simp only [if_neg hok]
        refine h.call fun j fd hgo => ?_
        cases hgo
        exact absurd rfl hok

theorem Inv.step (h : Inv isFullpath s) (a : FileAct) (ha : Keeps s a) :
    Inv isFullpath (step cfg isFullpath s a) := by
  cases a with
  | mounts table =>
    refine ⟨ha.1, fun fd hfd => ?_⟩
    obtain ⟨-, hmount, hopened, hpath⟩ := h.proper fd hfd
    exact ⟨ha.2 fd hfd, hmount, hopened, hpath⟩
  | call a workingDirectory path =>
    cases a with
    | go i answer => exact h.goOn i answer workingDirectory path
    | opens o => exact h.call fun i fd hgo => nomatch hgo
    | close fd => exact h.call fun i fd hgo => nomatch hgo
    | closedir fd => exact h.call fun i fd hgo => nomatch hgo
    | use fd => exact h.call fun i fd hgo => nomatch hgo
    | badSeek fd => exact h.call fun i fd hgo => nomatch hgo

theorem init_inv (hgood : Good table) : Inv isFullpath (init table) :=
  ⟨hgood, fun fd hfd => absurd hfd (by simp [Live, init, Dfs.start, DfsFd.zero])⟩

/-! ### Paths of descriptors -/

/-- The path that the file system is given: cut off behind the mount, or in full. -/
theorem fsPath_eq (hm : Canonical '/' '.' m) (hmount : fs.path = some m) (hfull : Canonical '/' '.' fullpath)
    (hbelow : Below '/' m fullpath) : fsPath isFullpath fs fullpath =
      if fullpathFlag isFullpath fs = true ∨ m = ['/'] then fullpath
      else if fullpath = m then ['/'] else fullpath.drop m.length := by
  obtain ⟨hsame, hother⟩ := dfsSubdir_spec hm hfull hbelow
  unfold fsPath
  by_cases hflag : fullpathFlag isFullpath fs = true
  · rw [if_pos hflag, if_pos (.inl hflag)]
  · rw [if_neg hflag, hmount, Option.getD_some]
    by_cases hroot : m = ['/']
    · rw [if_pos (.inr hroot)]
      by_cases heq : fullpath = m
      · rw [hsame heq, heq, hroot]
        rfl
      · obtain ⟨t, hsub, hpath⟩ := hother heq
        rw [if_pos hroot] at hpath
        rw [hsub, hpath]
        rfl
    · rw [if_neg (not_or.2 ⟨hflag, hroot⟩)]
      by_cases heq : fullpath = m
      · rw [hsame heq, if_pos heq]
        rfl
      · obtain ⟨t, hsub, hpath⟩ := hother heq
        rw [if_neg hroot] at hpath
        rw [hsub, if_neg heq, hpath, List.drop_left]
        rfl

theorem mountpath_eq (hmount : fs.path = some m) :
    mountpath fs fullpath = if m = ['/'] then fullpath else fullpath.drop m.length := by
  rw [mountpath, hmount, Option.getD_some]
  by_cases hroot : m = ['/']
  · rw [if_pos hroot, if_pos (by rw [hroot])]
  · rw [if_neg hroot, if_neg fun h => hroot (Option.some.inj h)]

/-- What is below a path goes on with what is cut off. -/
theorem append_drop (hm : Canonical '/' '.' m) (hfull : Canonical '/' '.' fullpath)
    (hbelow : Below '/' m fullpath) : m ++ fullpath.drop m.length = fullpath := by
  rcases (below_iff hm hfull).1 hbelow with rfl | rfl | ⟨t, rfl⟩
  · obtain ⟨st, -, rfl⟩ := hfull
    obtain ⟨t, ht⟩ := List.head?_eq_some_iff.1 (head_render st : (render '/' st).head? = some '/')
    rw [ht]
    rfl
  · rw [List.drop_length, List.append_nil]
  · rw [List.drop_left]

/-- Of a sound file, the path is the one that is compared with exactly if it is the file. -/
theorem Sound.path_iff (hgood : Good table) (hf : Proper isFullpath table f) (hsound : Sound isFullpath f)
    (hmount : f.fs.path = some m) (hfull : Canonical '/' '.' fullpath) (hbelow : Below '/' m fullpath) :
    f.path = mountpath f.fs fullpath ↔ f.opened = fullpath := by
  obtain ⟨hmem, ⟨m', hmount', hbelow'⟩, hopened, hpath⟩ := hf
  obtain rfl : m' = m := Option.some.inj (hmount'.symm.trans hmount)
  have hm := hgood.canonical f.fs hmem m' hmount
  rw [hpath, fsPath_eq hm hmount hopened hbelow', mountpath_eq hmount]
  by_cases hroot : m' = ['/']
  · rw [if_pos (.inr hroot), if_pos hroot]
  · rcases hsound with hsound | ⟨hflag, hne⟩
    · exact absurd (Option.some.inj (hmount.symm.trans hsound)) hroot
    · have hne' : f.opened ≠ m' := fun heq => hne (by rw [hmount, heq])
      rw [if_neg (by rw [hflag]; simp [hroot]), if_neg hne', if_neg hroot]
      constructor
      · intro hdrop
        rw [← append_drop hm hopened hbelow', hdrop, append_drop hm hfull hbelow]
      · intro heq
        rw [heq]

theorem fdIsOpen_iff : fdIsOpen cfg workingDirectory s path = true ↔
    ∃ fs fullpath, target workingDirectory s.table path = some (fs, fullpath) ∧
      ∃ index < cfg.max, Live s index ∧ (s.file index).fs = fs ∧
        (s.file index).path = mountpath fs fullpath := by
  unfold fdIsOpen
  cases htarget : target workingDirectory s.table path with
  | none => simp
  | some t =>
    obtain ⟨fs, fullpath⟩ := t
    simp only [List.any_eq_true, List.mem_range, decide_eq_true_eq, Option.some.injEq, Prod.mk.injEq]
    constructor
    · rintro ⟨index, hlt, hopen⟩
      exact ⟨fs, fullpath, ⟨rfl, rfl⟩, index, hlt, hopen⟩
    · rintro ⟨_, _, ⟨rfl, rfl⟩, index, hlt, hopen⟩
      exact ⟨index, hlt, hopen⟩

/-- If every open file is scanned, it is protected. -/
theorem Scanned.protected (h : Inv isFullpath s) (hscan : Scanned cfg isFullpath s) :
    Protected cfg isFullpath hasUnlink s := by
  have hopen : ∀ workingDirectory path, fdIsOpen cfg workingDirectory s path = true ↔
      ∃ fs fullpath, target workingDirectory s.table path = some (fs, fullpath) ∧
        ∃ fd, Refers s fs fullpath fd := by
    intro workingDirectory path
    rw [fdIsOpen_iff]
    refine exists_congr fun fs => exists_congr fun fullpath => and_congr_right fun htarget => ?_
    obtain ⟨-, ⟨m, hmount, hbelow⟩, hfull, -⟩ := target_spec h.good htarget
    constructor
    · rintro ⟨index, -, hlive, rfl, hpath⟩
      have hiff := (hscan index hlive).1.path_iff h.good (h.proper index hlive) hmount hfull hbelow
      exact ⟨index, hlive, rfl, hiff.1 hpath⟩
    · rintro ⟨fd, hlive, rfl, rfl⟩
      obtain ⟨index, hlt, hlive', hfs, hopened⟩ := (hscan fd hlive).2
      rw [← hfs] at hmount
      have hiff := (hscan index hlive').1.path_iff h.good (h.proper index hlive') hmount hfull hbelow
      exact ⟨index, hlt, hlive', hfs, hfs ▸ hiff.2 hopened⟩
  refine ⟨hopen, fun workingDirectory path fs fullpath htarget hunlink fd hfd => ?_⟩
  obtain ⟨-, -, hfull, hlookup⟩ := target_spec h.good htarget
  have hbusy : fdIsOpen cfg workingDirectory s fullpath = true :=
    (hopen workingDirectory fullpath).2 ⟨fs, fullpath, target_self workingDirectory hfull hlookup, fd, hfd⟩
  rw [dfsFileUnlink, htarget] at hunlink
  simp [hbusy] at hunlink

/-- The descriptor by which the file of another one is found. -/
theorem Protected.scanned_of (h : Inv isFullpath s) (hvisible : Visible s)
    (hprotected : Protected cfg isFullpath hasUnlink s) {fd : ℕ} (hfd : Live s fd) :
    ∃ index < cfg.max, Live s index ∧ (s.file index).fs = (s.file fd).fs ∧
      (s.file index).path = mountpath (s.file fd).fs (s.file fd).opened := by
  have htarget := target_self none (h.proper fd hfd).opened (hvisible fd hfd)
  have hopen := (hprotected.isOpen none (s.file fd).opened).2 ⟨_, _, htarget, fd, hfd, rfl, rfl⟩
  obtain ⟨fs, fullpath, htarget', hindex⟩ := fdIsOpen_iff.1 hopen
  rw [htarget] at htarget'
  cases htarget'
  exact hindex

/-- No open file is on a file system that takes full paths, unless that is mounted on the root: of these
    files, the path of the shortest would be that of a shorter one. -/
theorem Protected.short (h : Inv isFullpath s) (hvisible : Visible s)
    (hprotected : Protected cfg isFullpath hasUnlink s) : ∀ (n : ℕ) {fd : ℕ}, Live s fd →
    (s.file fd).opened.length = n → (s.file fd).fs.path ≠ some ['/'] →
    fullpathFlag isFullpath (s.file fd).fs = false := by
  intro n
  induction n using Nat.strong_induction_on with
  | _ n ih =>
    intro fd hfd hlen hroot
    by_contra hflag
    rw [Bool.not_eq_false] at hflag
    obtain ⟨hmem, ⟨m, hmount, hbelow⟩, hopened, -⟩ := h.proper fd hfd
    obtain ⟨index, -, hlive, hfs, hpath⟩ := hprotected.scanned_of h hvisible hfd
    obtain ⟨-, ⟨m', hmount', hbelow'⟩, hopened', hpath'⟩ := h.proper index hlive
    rw [hfs] at hmount' hpath'
    obtain rfl : m' = m := Option.some.inj (hmount'.symm.trans hmount)
    have hm := h.good.canonical _ hmem m' hmount
    have hne : m' ≠ ['/'] := fun heq => hroot (by rw [hmount, heq])
    rw [fsPath_eq hm hmount hopened' hbelow', if_pos (.inl hflag)] at hpath'
    rw [hpath', mountpath_eq hmount, if_neg hne] at hpath
    have hpos := hm.pos
    have hsplit := congrArg List.length (append_drop hm hopened hbelow)
    rw [List.length_append, ← hpath] at hsplit
    have hshort := ih (s.file index).opened.length (by omega) hlive rfl (by rw [hfs]; exact hroot)
    rw [hfs, hflag] at hshort
    cases hshort

/-- If open files are protected, and are found by their paths, they are all scanned. -/
theorem Protected.scanned (h : Inv isFullpath s) (hvisible : Visible s)
    (hprotected : Protected cfg isFullpath hasUnlink s) : Scanned cfg isFullpath s := by
  intro fd hfd
  obtain ⟨hmem, ⟨m, hmount, hbelow⟩, hopened, -⟩ := h.proper fd hfd
  obtain ⟨index, hlt, hlive, hfs, hpath⟩ := hprotected.scanned_of h hvisible hfd
  have hproper := h.proper index hlive
  have hm := h.good.canonical _ hmem m hmount
  by_cases hroot : m = ['/']
  · have hsound : Sound isFullpath (s.file index) := .inl (by rw [hfs, hmount, hroot])
    refine ⟨.inl (by rw [hmount, hroot]), index, hlt, hlive, hfs, ?_⟩
    rw [← hfs] at hmount
    exact (hsound.path_iff h.good hproper hmount hopened hbelow).1 (hfs ▸ hpath)
  · have hroot' : (s.file fd).fs.path ≠ some ['/'] := fun heq =>
      hroot (Option.some.inj (hmount.symm.trans heq))
    have hflag := hprotected.short h hvisible _ hfd rfl hroot'
    obtain ⟨-, ⟨m', hmount', hbelow'⟩, hopened', hpath'⟩ := hproper
    rw [hfs] at hmount' hpath'
    obtain rfl : m' = m := Option.some.inj (hmount'.symm.trans hmount)
    rw [fsPath_eq hm hmount hopened' hbelow', if_neg (by rw [hflag]; simp [hroot])] at hpath'
    rw [hpath', mountpath_eq hmount, if_neg hroot] at hpath
    -- What is cut off behind the mount is no slash: the path would end with it.
    have hcut : (s.file fd).opened.drop m'.length ≠ ['/'] := by
      intro hdrop
      have hsplit := append_drop hm hopened hbelow
      rw [hdrop] at hsplit
      have hlen := congrArg List.length hsplit
      rw [List.length_append, List.length_singleton] at hlen
      have hpos := hm.pos
      refine hopened.getLast_ne (fun heq => ?_) (by rw [← hsplit, List.getLast?_concat])
      rw [heq, List.length_singleton] at hlen
      omega
    have hne : (s.file index).opened ≠ m' := fun heq => hcut (by rw [← hpath, if_pos heq])
    rw [if_neg hne] at hpath
    have hsame : (s.file index).opened = (s.file fd).opened := by
      rw [← append_drop hm hopened' hbelow', hpath, append_drop hm hopened hbelow]
    refine ⟨.inr ⟨hflag, fun heq => hne ?_⟩, index, hlt, hlive, hfs, hsame⟩
    rw [hsame, Option.some.inj (heq.symm.trans hmount)]

end Steps

/-- CORRECT: in every run in which file systems with open files stay mounted, the open files are protected
    where each is sound and one of the first `DFS_FD_MAX` descriptors has it; and only there, as long as
    they are found by their paths. -/
theorem open_files_protected_iff (table : List DfsFilesystem) (hgood : Good table) (as : List FileAct)
    (has : Along (step cfg isFullpath) Keeps (init table) as) :
    (Scanned cfg isFullpath (as.foldl (step cfg isFullpath) (init table)) →
      Protected cfg isFullpath hasUnlink (as.foldl (step cfg isFullpath) (init table))) ∧
    (Visible (as.foldl (step cfg isFullpath) (init table)) →
      Protected cfg isFullpath hasUnlink (as.foldl (step cfg isFullpath) (init table)) →
      Scanned cfg isFullpath (as.foldl (step cfg isFullpath) (init table))) := by
  have hinv : Inv isFullpath (as.foldl (step cfg isFullpath) (init table)) :=
    Along.invariant (I := Inv isFullpath) (fun s a hs ha => hs.step a ha) as (init_inv hgood) has
  exact ⟨fun h => h.protected hinv, fun hvisible h => h.scanned hinv hvisible⟩

/-- A file system on the root, and `open("/a")` up to its return. -/
def rootTable : List DfsFilesystem := [⟨none, some ['/'], some elmOps⟩]
def opensA : List FileAct :=
  [.call (.opens .open) none [], .call (.go 0 .ok) none [], .call (.go 0 .ok) none ['/', 'a'],
    .call (.go 0 .ok) none []]

theorem good_rootTable : Good rootTable := by
  refine ⟨fun i j p hi hj => ?_, fun iter hiter p hp => ?_⟩
  · match i, j with
    | 0, 0 => rfl
    | i + 1, _ => cases hi
    | _, j + 1 => cases hj
  · obtain rfl := List.mem_singleton.1 hiter
    cases hp
    exact ⟨[], fun n hn => absurd hn List.not_mem_nil, rfl⟩

/-- No step of it mounts anything. -/
theorem along_opensA (cfg : Config) (isFullpath : FsOps → Bool) :
    Along (step cfg isFullpath) Keeps (init rootTable) opensA :=
  ⟨trivial, trivial, trivial, trivial, trivial⟩

/-- Without `DFS_USING_STDIO`, the file is the one of descriptor 0. -/
theorem open_files_protected_iff_a : Protected ⟨0, 2⟩ (fun _ => false) (fun _ => true)
    (opensA.foldl (step ⟨0, 2⟩ fun _ => false) (init rootTable)) := by
  refine (open_files_protected_iff ⟨0, 2⟩ (fun _ => false) (fun _ => true) rootTable good_rootTable opensA
    (along_opensA _ _)).1 ?_
  intro fd hfd
  cases fd with
  | zero => exact ⟨.inl rfl, 0, by decide, rfl, rfl, rfl⟩
  | succ fd =>
    have hzero : ((opensA.foldl (step ⟨0, 2⟩ fun _ => false) (init rootTable)).base.fdTable
        (fd + 1)).fs = false := rfl
    exact absurd (hzero.symm.trans hfd) (by decide)

/-- INCORRECT: with `DFS_USING_STDIO`, the file of descriptor 3 is not found, and is unlinked. -/
theorem open_file_unlinked : ¬ ∀ (cfg : Config) (isFullpath hasUnlink : FsOps → Bool)
    (table : List DfsFilesystem) (as : List FileAct), Good table →
    Along (step cfg isFullpath) Keeps (init table) as →
    Protected cfg isFullpath hasUnlink (as.foldl (step cfg isFullpath) (init table)) := by
  intro hall
  have h := hall ⟨3, 2⟩ (fun _ => false) (fun _ => true) rootTable opensA good_rootTable (along_opensA _ _)
  have hrefers : Refers (opensA.foldl (step ⟨3, 2⟩ fun _ => false) (init rootTable))
      ⟨none, some ['/'], some elmOps⟩ ['/', 'a'] 3 := ⟨rfl, rfl, rfl⟩
  refine h.unlink none ['/', 'a'] ⟨none, some ['/'], some elmOps⟩ ['/', 'a'] ?_ ?_ 3 hrefers
  · decide
  · decide

end EasyCore.Dfs.OpenFiles
