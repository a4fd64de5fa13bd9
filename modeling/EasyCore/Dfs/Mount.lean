import EasyCore.Lib.Runs

/-! The mount table (`dfs/src/dfs_fs.c`, and `dfs_normalize_path` of `dfs.c`). A type of file system is
    registered under its name; a mounted file system has an entry with its path, in the form that
    `dfs_normalize_path` gives it.

        dfs_mount   device ▶ type ▶ normalised path ▶ path exists ▶ entry ▶ device opens ▶ mount
        dfs_unmount normalised path ▶ entry ▶ unmount ▶ entry cleared -/

namespace EasyCore.Dfs.Mount
open Runs

abbrev Path := List Char

/-! ### Paths -/

/-- `up_one`, with what has been written so far from its end: `none` is a path above the root. -/
def upOne : Path → Option Path
  | [] => none
  | _ :: dst => some (dst.dropWhile (· ≠ '/'))

def skipSlashes (src : Path) : Path := src.dropWhile (· = '/')

/-- The loop of `dfs_normalize_path`. Each turn reads a part of the source. -/
def normalizeLoop : ℕ → Path → Path → Option Path
  | 0, _, _ => none
  | _ + 1, dst, ['.'] => some dst
  | fuel + 1, dst, '.' :: '/' :: src => normalizeLoop fuel dst (skipSlashes src)
  | fuel + 1, dst, ['.', '.'] => (upOne dst).bind fun dst => normalizeLoop fuel dst []
  | fuel + 1, dst, '.' :: '.' :: '/' :: src =>
    (upOne dst).bind fun dst => normalizeLoop fuel dst (skipSlashes src)
  | fuel + 1, dst, src =>
    let name := src.takeWhile (· ≠ '/')
    match src.dropWhile (· ≠ '/') with
    | [] => some (name.reverse ++ dst)
    | _ :: src => normalizeLoop fuel ('/' :: name.reverse ++ dst) (skipSlashes src)

theorem length_skipSlashes_le (src : Path) : (skipSlashes src).length ≤ src.length :=
  List.length_dropWhile_le _ _

theorem length_rest_lt {p : Char → Bool} {src rest : Path} {c : Char}
    (h : src.dropWhile p = c :: rest) : rest.length < src.length := by
  have hlen := List.length_dropWhile_le p src
  rw [h, List.length_cons] at hlen
  exact hlen

/-- The `/` at the end is removed, unless it is the first character. -/
def stripSlash : Path → Path
  | '/' :: c :: dst => c :: dst
  | dst => dst

/-- `dfs_normalize_path` without a directory. There is a working directory with `DFS_USING_WORKDIR`;
    `memory` says whether the heap has some for the copy. -/
def dfsNormalizePath (workingDirectory : Option Path) (memory : Bool) (filename : Path) :
    Option Path :=
  let full :=
    if filename.head? = some '/' then some filename
    else workingDirectory.map fun directory => directory ++ '/' :: filename
  if memory then
    full.bind fun path =>
      (normalizeLoop (path.length + 1) [] path).map fun dst => (stripSlash dst).reverse
  else none

/-! ### Tables -/

/-- `struct dfs_filesystem_operation`: the name of the type, and which operations it has. -/
structure FsOps where
  name : List Char
  hasMount : Bool
  hasUnmount : Bool
  hasOpen : Bool
  deriving DecidableEq

/-- `struct dfs_filesystem` -/
structure DfsFilesystem where
  devId : Option ℕ
  path : Option Path
  ops : Option FsOps
  deriving DecidableEq

/-- What `rt_memset` leaves. -/
def DfsFilesystem.zero : DfsFilesystem := ⟨none, none, none⟩

/-- `filesystem_operation_table` and `filesystem_table` -/
structure State where
  types : List (Option FsOps)
  table : List DfsFilesystem
  deriving DecidableEq

/-- `dfs_init` -/
def start (maxTypes maxFilesystems : ℕ) : State :=
  ⟨List.replicate maxTypes none, List.replicate maxFilesystems .zero⟩

inductive Errno
  | enodev
  | enosys
  | enotdir
  | einval
  | enospc
  /-- The call fails and leaves the number alone. -/
  | unset

/-- How a call ends: `fault` is the use of a null pointer. -/
inductive Result
  | ok
  | err (errno : Errno)
  | fault

/-- The result, and the type whose operation `mount` is called. -/
structure Out where
  result : Result
  used : Option FsOps

/-- The device that `dfs_mount` is given by its name. -/
inductive Device
  | null
  | missing
  | found (id : ℕ)

/-- A call of `dfs_mount`, and what the heap, the device and the file systems answer to it. -/
structure MountArgs where
  device : Device
  path : Path
  filesystemtype : List Char
  memory : Bool
  pathOpens : Bool
  deviceOpens : Bool
  mounts : Bool

inductive Act
  | register (ops : FsOps)
  | mount (args : MountArgs)
  | unmount (specialfile : Path) (memory unmounts : Bool)

/-! ### Functions -/

/-- Whether a type of this name is registered. -/
def State.registered (s : State) (name : List Char) : Bool :=
  s.types.any fun iter => iter.any (·.name = name)

/-- `dfs_register` -/
def dfsRegister (s : State) (ops : FsOps) : State × Out :=
  if s.registered ops.name then (s, ⟨.err .unset, none⟩)
  else
    match s.types.findIdx? (·.isNone) with
    | some i => ({ s with types := s.types.set i (some ops) }, ⟨.ok, none⟩)
    | none => (s, ⟨.ok, none⟩)

/-- `dfs_filesystem_lookup`: the entry with the longest path that the path begins with. -/
def dfsFilesystemLookup (s : State) (path : Path) : Option DfsFilesystem :=
  (s.table.foldl (fun (fs, prefixlen) iter =>
    match iter.path, iter.ops with
    | some fspath, some _ =>
      if fspath.length < prefixlen ∨ ¬fspath.isPrefixOf path then (fs, prefixlen)
      else if 1 < fspath.length ∧ fspath.length < path.length ∧ path[fspath.length]? ≠ some '/' then
        (fs, prefixlen)
      else (some iter, fspath.length)
    | _, _ => (fs, prefixlen)) (none, 0)).1

/-- How the search for a type ends. -/
inductive Search
  | found (ops : FsOps)
  | missing
  | fault

/-- The search of `dfs_mount`, which reads the name of each entry before it. -/
def findType (name : List Char) : List (Option FsOps) → Search
  | [] => .missing
  | none :: _ => .fault
  | some ops :: rest => if ops.name = name then .found ops else findType name rest

variable (workingDirectory : Option Path)

/-- `dfs_file_open` of a directory, as far as it decides whether there is one. -/
def dirExists (s : State) (path : Path) (memory opens : Bool) : Bool :=
  match dfsNormalizePath workingDirectory memory path with
  | none => false
  | some fullpath =>
    match dfsFilesystemLookup s fullpath with
    | none => false
    | some fs => fs.ops.any (·.hasOpen) && opens

/-- Whether an entry is mounted at the path, as it is spelled. -/
def State.mounted (s : State) (path : Path) : Bool :=
  s.table.any fun iter => iter.ops.isSome ∧ iter.path = some path

/-- The end of `dfs_mount`: the entry `i` is set; where the device or the file system fails, it is
    cleared. -/
def mountAt (s : State) (args : MountArgs) (ops : FsOps) (devId : Option ℕ) (fullpath : Path)
    (i : ℕ) : State × Out :=
  let set := { s with table := s.table.set i ⟨devId, some fullpath, some ops⟩ }
  let cleared := { set with table := set.table.set i .zero }
  if devId.isSome ∧ ¬args.deviceOpens then (cleared, ⟨.err .unset, none⟩)
  else if args.mounts then (set, ⟨.ok, some ops⟩)
  else (cleared, ⟨.err .unset, some ops⟩)

/-- `dfs_mount` from the path on. -/
def mountType (s : State) (args : MountArgs) (ops : FsOps) (devId : Option ℕ) : State × Out :=
  if ¬ops.hasMount then (s, ⟨.err .enosys, none⟩)
  else
    match dfsNormalizePath workingDirectory args.memory args.path with
    | none => (s, ⟨.err .enotdir, none⟩)
    | some fullpath =>
      if fullpath ≠ ['/'] ∧ fullpath ≠ ['/', 'd', 'e', 'v'] ∧
          ¬dirExists workingDirectory s fullpath args.memory args.pathOpens then
        (s, ⟨.err .enotdir, none⟩)
      -- The path is compared as it has been given.
      else if s.mounted args.path then (s, ⟨.err .einval, none⟩)
      else
        match s.table.findIdx? (·.ops.isNone) with
        | none => (s, ⟨.err .enospc, none⟩)
        | some i => mountAt s args ops devId fullpath i

/-- `rt_device_find` -/
def Device.id : Device → Option (Option ℕ)
  | .null => some none
  | .missing => none
  | .found id => some (some id)

/-- `dfs_mount` -/
def dfsMount (s : State) (args : MountArgs) : State × Out :=
  match args.device.id with
  | none => (s, ⟨.err .enodev, none⟩)
  | some devId =>
    match findType args.filesystemtype s.types with
    | .fault => (s, ⟨.fault, none⟩)
    | .missing => (s, ⟨.err .enodev, none⟩)
    | .found ops => mountType workingDirectory s args ops devId

/-- `dfs_unmount` -/
def dfsUnmount (s : State) (specialfile : Path) (memory unmounts : Bool) : State × Out :=
  match dfsNormalizePath workingDirectory memory specialfile with
  | none => (s, ⟨.err .enotdir, none⟩)
  | some fullpath =>
    match s.table.findIdx? (·.path = some fullpath) with
    | none => (s, ⟨.err .unset, none⟩)
    | some i =>
      match (s.table[i]?).bind (·.ops) with
      | none => (s, ⟨.fault, none⟩)
      | some ops =>
        if ops.hasUnmount ∧ unmounts then ({ s with table := s.table.set i .zero }, ⟨.ok, none⟩)
        else (s, ⟨.err .unset, none⟩)

def exec (s : State) : Act → State × Out
  | .register ops => dfsRegister s ops
  | .mount args => dfsMount workingDirectory s args
  | .unmount specialfile memory unmounts =>
    dfsUnmount workingDirectory s specialfile memory unmounts

def step (s : State) (a : Act) : State := (exec workingDirectory s a).1

/-! ### What the calls owe their callers -/

/-- The path of an entry. -/
def pathAt (table : List DfsFilesystem) (i : ℕ) : Option Path := (table[i]?).bind DfsFilesystem.path

/-- No two entries have the same path. -/
def Distinct (table : List DfsFilesystem) : Prop :=
  ∀ i j p, pathAt table i = some p → pathAt table j = some p → i = j

/-- A call and its result, from a state to the next. -/
structure Kept (s : State) (a : Act) (s' : State) (out : Out) : Prop where
  distinct : Distinct s'.table
  registers : ∀ ops, a = .register ops → (out.result = .ok ↔
    ∃ i : ℕ, s.types[i]? = some none ∧ s'.types = s.types.set i (some ops))
  unregistered : ∀ args, a = .mount args → s.registered args.filesystemtype = false →
    (∃ errno, out.result = .err errno) ∧ out.used = none
  unchanged : ∀ errno, out.result = .err errno → s' = s

/-- Nothing keeps the type `ops` from being mounted at `fullpath`. -/
structure Mountable (s : State) (args : MountArgs) (ops : FsOps) (fullpath : Path) : Prop where
  device : ∃ devId, args.device.id = some devId ∧ (devId = none ∨ args.deviceOpens = true)
  registered : some ops ∈ s.types
  name : ops.name = args.filesystemtype
  hasMount : ops.hasMount = true
  path : dfsNormalizePath workingDirectory args.memory args.path = some fullpath
  dir : fullpath = ['/'] ∨ fullpath = ['/', 'd', 'e', 'v'] ∨
    dirExists workingDirectory s fullpath args.memory args.pathOpens = true
  spelling : s.mounted args.path = false
  entry : ∃ iter ∈ s.table, iter.ops = none
  mounts : args.mounts = true

/-- A new type finds room, a type that is not registered is not looked for in a table with room, and
    a path that is mounted under another spelling is not mounted again. -/
def OpOk (s : State) : Act → Prop
  | .register ops => s.registered ops.name = false → none ∈ s.types
  | .mount args =>
    (args.device.id ≠ none → s.registered args.filesystemtype = false → none ∉ s.types)
      ∧ ∀ ops fullpath, Mountable workingDirectory s args ops fullpath →
        s.mounted fullpath = false
  | .unmount .. => True

/-- The types fill their table from its beginning, under different names; an entry in use has a path,
    and any other one is clear. -/
structure Inv (s : State) : Prop where
  filled : ∃ (ops : List FsOps) (n : ℕ), s.types = ops.map some ++ List.replicate n none
  names : ∀ ops ops', some ops ∈ s.types → some ops' ∈ s.types → ops.name = ops'.name → ops = ops'
  entries : ∀ iter ∈ s.table, iter.ops = none ∧ iter = .zero ∨ iter.ops ≠ none ∧ iter.path ≠ none
  distinct : Distinct s.table

variable {workingDirectory} {s : State}

/-! ### Types -/

theorem registered_iff {name : List Char} :
    s.registered name = true ↔ ∃ ops : FsOps, some ops ∈ s.types ∧ ops.name = name := by
  simp only [State.registered, List.any_eq_true]
  constructor
  · rintro ⟨_ | ops, hmem, hname⟩
    · cases hname
    · exact ⟨ops, hmem, by simpa using hname⟩
  · rintro ⟨ops, hmem, hname⟩
    exact ⟨some ops, hmem, by simpa using hname⟩

theorem registered_eq_false {name : List Char} :
    s.registered name = false ↔ ∀ ops : FsOps, some ops ∈ s.types → ops.name ≠ name := by
  rw [← Bool.not_eq_true, registered_iff]
  push Not
  rfl

theorem findType_append {name : List Char} (ops : List FsOps) (rest : List (Option FsOps))
    (h : ∀ o ∈ ops, o.name ≠ name) : findType name (ops.map some ++ rest) = findType name rest := by
  induction ops with
  | nil => rfl
  | cons o ops ih =>
    rw [List.forall_mem_cons] at h
    simp only [List.map_cons, List.cons_append, findType, if_neg h.1]
    exact ih h.2

theorem findType_found {name : List Char} {types : List (Option FsOps)} {ops : FsOps}
    (h : findType name types = .found ops) : some ops ∈ types ∧ ops.name = name := by
  induction types with
  | nil => cases h
  | cons o types ih =>
    cases o with
    | none => cases h
    | some o =>
      simp only [findType] at h
      split at h
      · rename_i hname
        cases h
        exact ⟨List.mem_cons_self, hname⟩
      · obtain ⟨hmem, hname⟩ := ih h
        exact ⟨List.mem_cons_of_mem _ hmem, hname⟩

theorem exists_findType {name : List Char} {ops : List FsOps} (rest : List (Option FsOps))
    {o : FsOps} (hmem : o ∈ ops) (hname : o.name = name) :
    ∃ o', findType name (ops.map some ++ rest) = .found o' := by
  induction ops with
  | nil => cases hmem
  | cons o' ops ih =>
    simp only [List.map_cons, List.cons_append, findType]
    split
    · exact ⟨o', rfl⟩
    · rename_i hne
      obtain rfl | hmem := List.mem_cons.1 hmem
      · exact absurd hname hne
      · exact ih hmem

/-- The search, in a table that is filled from its beginning. -/
theorem Inv.findType_eq (inv : Inv s) (name : List Char) :
    (∃ ops, findType name s.types = .found ops ∧ some ops ∈ s.types ∧ ops.name = name)
      ∨ s.registered name = false
        ∧ findType name s.types = if none ∈ s.types then .fault else .missing := by
  obtain ⟨ops, n, htypes⟩ := inv.filled
  cases hreg : s.registered name with
  | true =>
    left
    obtain ⟨o, hmem, hname⟩ := registered_iff.1 hreg
    have hmem : o ∈ ops := by
      rw [htypes] at hmem
      simpa using hmem
    obtain ⟨o', hfound⟩ := exists_findType (List.replicate n none) hmem hname
    rw [← htypes] at hfound
    exact ⟨o', hfound, findType_found hfound⟩
  | false =>
    right
    refine ⟨rfl, ?_⟩
    have hnames : ∀ o ∈ ops, o.name ≠ name := fun o ho =>
      registered_eq_false.1 hreg o (by simp [htypes, ho])
    rw [htypes, findType_append ops _ hnames]
    cases n with
    | zero => simp [findType]
    | succ n => simp [List.replicate_succ, findType]

/-! ### Entries -/

theorem mounted_iff {path : Path} :
    s.mounted path = true ↔ ∃ iter ∈ s.table, iter.ops ≠ none ∧ iter.path = some path := by
  simp [State.mounted, Option.isSome_iff_ne_none]

/-- In use are the entries with a path. -/
theorem Inv.mounted_iff_pathAt (inv : Inv s) {path : Path} :
    s.mounted path = true ↔ ∃ i, pathAt s.table i = some path := by
  rw [mounted_iff]
  constructor
  · rintro ⟨iter, hmem, -, hpath⟩
    obtain ⟨i, hi⟩ := List.mem_iff_getElem?.1 hmem
    exact ⟨i, by rw [pathAt, hi]; exact hpath⟩
  · rintro ⟨i, hi⟩
    obtain ⟨iter, hiter, hpath⟩ := Option.bind_eq_some_iff.1 hi
    refine ⟨iter, List.mem_of_getElem? hiter, ?_, hpath⟩
    obtain ⟨-, hzero⟩ | ⟨hops, -⟩ := inv.entries iter (List.mem_of_getElem? hiter)
    · rw [hzero] at hpath
      cases hpath
    · exact hops

theorem pathAt_set {table : List DfsFilesystem} {i : ℕ} (hi : i < table.length)
    (entry : DfsFilesystem) (j : ℕ) :
    pathAt (table.set i entry) j = if j = i then entry.path else pathAt table j := by
  unfold pathAt
  by_cases h : j = i
  · subst h
    simp [hi]
  · rw [List.getElem?_set_ne (Ne.symm h), if_neg h]

theorem distinct_set_zero {table : List DfsFilesystem} (h : Distinct table) {i : ℕ}
    (hi : i < table.length) : Distinct (table.set i .zero) := by
  intro j k p hj hk
  rw [pathAt_set hi] at hj hk
  split at hj
  · cases hj
  · split at hk
    · cases hk
    · exact h j k p hj hk

/-- A new path keeps the paths apart. -/
theorem Inv.distinct_set_iff (inv : Inv s) {i : ℕ} (hi : s.table[i]? = some .zero)
    (devId : Option ℕ) (ops : Option FsOps) (path : Path) :
    Distinct (s.table.set i ⟨devId, some path, ops⟩) ↔ s.mounted path = false := by
  have hlen : i < s.table.length := (List.getElem?_eq_some_iff.1 hi).1
  have hzero : pathAt s.table i = none := by simp [pathAt, hi, DfsFilesystem.zero]
  rw [← Bool.not_eq_true, inv.mounted_iff_pathAt, not_exists]
  constructor
  · intro h j hj
    have hne : j ≠ i := by
      rintro rfl
      rw [hzero] at hj
      cases hj
    refine hne (h j i path ?_ ?_)
    · rwa [pathAt_set hlen, if_neg hne]
    · rw [pathAt_set hlen, if_pos rfl]
  · intro h j k p hj hk
    rw [pathAt_set hlen] at hj hk
    split at hj
    · split at hk
      · omega
      · cases hj
        exact absurd hk (h k)
    · split at hk
      · cases hk
        exact absurd hj (h j)
      · exact inv.distinct j k p hj hk

theorem Inv.entry_free (inv : Inv s) {i : ℕ} (h : s.table.findIdx? (·.ops.isNone) = some i) :
    s.table[i]? = some .zero := by
  obtain ⟨hi, hfree, -⟩ := List.findIdx?_eq_some_iff_getElem.1 h
  obtain ⟨-, hzero⟩ | ⟨hops, -⟩ := inv.entries _ (List.getElem_mem hi)
  · rw [List.getElem?_eq_getElem hi, hzero]
  · exact absurd (Option.isNone_iff_eq_none.1 hfree) hops

/-! ### A mount -/

variable {args : MountArgs} {ops : FsOps} {devId : Option ℕ} {fullpath : Path} {i : ℕ}

/-- An entry that has been set and cleared is as before. -/
theorem mountAt_eq (hi : s.table[i]? = some .zero) : mountAt s args ops devId fullpath i
    = if devId.isSome ∧ ¬args.deviceOpens then (s, ⟨.err .unset, none⟩)
      else if args.mounts then
        ({ s with table := s.table.set i ⟨devId, some fullpath, some ops⟩ }, ⟨.ok, some ops⟩)
      else (s, ⟨.err .unset, some ops⟩) := by
  have hcleared : (s.table.set i ⟨devId, some fullpath, some ops⟩).set i .zero = s.table := by
    obtain ⟨hlen, hzero⟩ := List.getElem?_eq_some_iff.1 hi
    rw [List.set_set, ← hzero, List.set_getElem_self]
  simp only [mountAt, hcleared]

/-- A mount of a type that has been found fails, or nothing keeps it from being mounted. -/
theorem mountType_cases (workingDirectory : Option Path) (inv : Inv s) (hdev : args.device.id = some devId)
    (hreg : some ops ∈ s.types) (hname : ops.name = args.filesystemtype) :
    (∃ errno used, mountType workingDirectory s args ops devId = (s, ⟨.err errno, used⟩)
        ∧ ∀ ops fullpath, ¬Mountable workingDirectory s args ops fullpath)
      ∨ ∃ fullpath i, Mountable workingDirectory s args ops fullpath ∧ s.table[i]? = some .zero
        ∧ mountType workingDirectory s args ops devId
          = ({ s with table := s.table.set i ⟨devId, some fullpath, some ops⟩ }, ⟨.ok, some ops⟩)
      := by
  unfold mountType
  by_cases hmount : ops.hasMount = true
  swap
  · rw [if_pos hmount]
    refine Or.inl ⟨_, _, rfl, fun ops' _ h => hmount ?_⟩
    rw [inv.names ops ops' hreg h.registered (hname.trans h.name.symm)]
    exact h.hasMount
  rw [if_neg (not_not.2 hmount)]
  cases hpath : dfsNormalizePath workingDirectory args.memory args.path with
  | none =>
    refine Or.inl ⟨_, _, rfl, fun _ _ h => ?_⟩
    rw [h.path] at hpath
    cases hpath
  | some fullpath =>
    have hsame {ops' fullpath'} (h : Mountable workingDirectory s args ops' fullpath') :
        fullpath' = fullpath := Option.some.inj (h.path.symm.trans hpath)
    by_cases hdir : fullpath ≠ ['/'] ∧ fullpath ≠ ['/', 'd', 'e', 'v'] ∧
        ¬dirExists workingDirectory s fullpath args.memory args.pathOpens
    · simp only [if_pos hdir]
      refine Or.inl ⟨_, _, rfl, fun _ _ h => ?_⟩
      obtain rfl := hsame h
      obtain hroot | hdev | hexists := h.dir
      · exact hdir.1 hroot
      · exact hdir.2.1 hdev
      · exact hdir.2.2 hexists
    by_cases hspelling : s.mounted args.path = true
    · simp only [if_neg hdir, if_pos hspelling]
      refine Or.inl ⟨_, _, rfl, fun _ _ h => ?_⟩
      rw [h.spelling] at hspelling
      cases hspelling
    simp only [if_neg hdir, if_neg hspelling]
    cases hfree : s.table.findIdx? (·.ops.isNone) with
    | none =>
      refine Or.inl ⟨_, _, rfl, fun _ _ h => ?_⟩
      obtain ⟨iter, hmem, hops⟩ := h.entry
      have := List.findIdx?_eq_none_iff.1 hfree iter hmem
      simp [hops] at this
    | some i =>
      have hzero := inv.entry_free hfree
      simp only [mountAt_eq hzero]
      by_cases hopens : devId.isSome ∧ ¬args.deviceOpens
      · rw [if_pos hopens]
        refine Or.inl ⟨_, _, rfl, fun _ _ h => ?_⟩
        obtain ⟨devId', hdev', hnull | hopens'⟩ := h.device
        · have hdev := hdev.symm.trans hdev'
          simp [Option.some.inj hdev, hnull] at hopens
        · exact hopens.2 hopens'
      by_cases hmounts : args.mounts = true
      swap
      · rw [if_neg hopens, if_neg hmounts]
        exact Or.inl ⟨_, _, rfl, fun _ _ h => hmounts h.mounts⟩
      rw [if_neg hopens, if_pos hmounts]
      refine Or.inr ⟨fullpath, i, ?_, hzero, rfl⟩
      refine ⟨⟨devId, hdev, ?_⟩, hreg, hname, hmount, hpath, ?_, ?_, ?_, hmounts⟩
      · cases devId with
        | none => exact Or.inl rfl
        | some id => exact Or.inr (by simpa using hopens)
      · by_contra hno
        push Not at hno
        exact hdir hno
      · simpa using hspelling
      · exact ⟨.zero, List.mem_of_getElem? hzero, rfl⟩

theorem Mountable.isRegistered (h : Mountable workingDirectory s args ops fullpath) :
    s.registered args.filesystemtype = true :=
  registered_iff.2 ⟨ops, h.registered, h.name⟩

/-- A call that fails changes nothing, and has found a type if it uses one. -/
structure Fails (s : State) (args : MountArgs) (r : State × Out) : Prop where
  result : ∃ errno, r.2.result = .err errno
  state : r.1 = s
  used : s.registered args.filesystemtype = false → r.2.used = none

theorem dfsMount_cases (workingDirectory : Option Path) (inv : Inv s) (args : MountArgs) :
    (Fails s args (dfsMount workingDirectory s args)
        ∧ (∀ ops fullpath, ¬Mountable workingDirectory s args ops fullpath)
        ∧ (args.device.id ≠ none → s.registered args.filesystemtype = false → none ∉ s.types))
      ∨ (dfsMount workingDirectory s args = (s, ⟨.fault, none⟩) ∧ args.device.id ≠ none
        ∧ s.registered args.filesystemtype = false ∧ none ∈ s.types)
      ∨ ∃ ops devId fullpath i, Mountable workingDirectory s args ops fullpath
        ∧ s.table[i]? = some .zero ∧ dfsMount workingDirectory s args
          = ({ s with table := s.table.set i ⟨devId, some fullpath, some ops⟩ },
              ⟨.ok, some ops⟩) := by
  unfold dfsMount
  cases hdev : args.device.id with
  | none =>
    refine Or.inl ⟨⟨⟨_, rfl⟩, rfl, fun _ => rfl⟩, fun _ _ h => ?_, fun h => absurd rfl h⟩
    obtain ⟨devId, hdev', -⟩ := h.device
    rw [hdev] at hdev'
    cases hdev'
  | some devId =>
    obtain ⟨ops, hfind, hreg, hname⟩ | ⟨hunreg, hfind⟩ := inv.findType_eq args.filesystemtype
    · have hregistered := registered_iff.2 ⟨ops, hreg, hname⟩
      simp only [hfind]
      obtain ⟨errno, used, heq, hno⟩ | ⟨fullpath, i, hgo, hzero, heq⟩ :=
        mountType_cases workingDirectory inv hdev hreg hname
      · rw [heq]
        refine Or.inl ⟨⟨⟨_, rfl⟩, rfl, fun h => ?_⟩, hno, fun _ h => ?_⟩
        · rw [hregistered] at h
          cases h
        · rw [hregistered] at h
          cases h
      · exact Or.inr (Or.inr ⟨ops, devId, fullpath, i, hgo, hzero, heq⟩)
    · simp only [hfind]
      by_cases hroom : none ∈ s.types
      · rw [if_pos hroom]
        exact Or.inr (Or.inl ⟨rfl, Option.some_ne_none devId, hunreg, hroom⟩)
      · rw [if_neg hroom]
        refine Or.inl ⟨⟨⟨_, rfl⟩, rfl, fun _ => rfl⟩, fun _ _ h => ?_, fun _ _ => hroom⟩
        rw [h.isRegistered] at hunreg
        cases hunreg

theorem kept_mount_iff (inv : Inv s) (args : MountArgs) :
    Kept s (.mount args) (dfsMount workingDirectory s args).1 (dfsMount workingDirectory s args).2
      ↔ OpOk workingDirectory s (.mount args) := by
  obtain ⟨⟨hresult, hstate, hused⟩, hno, hroom⟩ | ⟨heq, hdev, hunreg, hroom⟩
      | ⟨ops, devId, fullpath, i, hgo, hzero, heq⟩ := dfsMount_cases workingDirectory inv args
  · refine iff_of_true ⟨?_, fun _ h => (nomatch h), ?_, fun _ _ => hstate⟩
      ⟨hroom, fun ops fullpath h => absurd h (hno ops fullpath)⟩
    · rw [hstate]
      exact inv.distinct
    · intro args' hargs hunreg
      cases hargs
      exact ⟨hresult, hused hunreg⟩
  · refine iff_of_false (fun h => ?_) (fun h => h.1 hdev hunreg hroom)
    obtain ⟨⟨errno, herr⟩, -⟩ := h.unregistered args rfl hunreg
    rw [heq] at herr
    cases herr
  · have hpath : ∀ {ops' fullpath'}, Mountable workingDirectory s args ops' fullpath' →
        fullpath' = fullpath := fun h => Option.some.inj (h.path.symm.trans hgo.path)
    rw [heq]
    constructor
    · intro h
      refine ⟨fun _ hunreg => ?_, fun ops' fullpath' h' => ?_⟩
      · rw [hgo.isRegistered] at hunreg
        cases hunreg
      · rw [hpath h']
        exact (inv.distinct_set_iff hzero devId (some ops) fullpath).1 h.distinct
    · intro h
      refine ⟨?_, fun _ h' => (nomatch h'), fun args' hargs hunreg => ?_, fun _ h' => (nomatch h')⟩
      · exact (inv.distinct_set_iff hzero devId (some ops) fullpath).2 (h.2 ops fullpath hgo)
      · cases hargs
        rw [hgo.isRegistered] at hunreg
        cases hunreg

theorem Inv.mount (inv : Inv s) (hok : OpOk workingDirectory s (.mount args)) :
    Inv (dfsMount workingDirectory s args).1 := by
  obtain ⟨⟨-, hstate, -⟩, -⟩ | ⟨heq, -⟩ | ⟨ops, devId, fullpath, i, hgo, hzero, heq⟩ :=
    dfsMount_cases workingDirectory inv args
  · rwa [hstate]
  · rwa [heq]
  · rw [heq]
    refine ⟨inv.filled, inv.names, fun iter hmem => ?_, ?_⟩
    · obtain hmem | rfl := List.mem_or_eq_of_mem_set hmem
      · exact inv.entries iter hmem
      · exact Or.inr ⟨Option.some_ne_none _, Option.some_ne_none _⟩
    · exact (inv.distinct_set_iff hzero devId (some ops) fullpath).2 (hok.2 ops fullpath hgo)

/-! ### Registration -/

/-- A type that is not registered goes to the first empty entry, if there is one. -/
theorem Inv.dfsRegister_cases (inv : Inv s) (ops : FsOps) :
    (s.registered ops.name = true ∧ dfsRegister s ops = (s, ⟨.err .unset, none⟩))
      ∨ (s.registered ops.name = false ∧ none ∉ s.types ∧ dfsRegister s ops = (s, ⟨.ok, none⟩))
      ∨ ∃ (l : List FsOps) (n : ℕ), s.registered ops.name = false
        ∧ s.types = l.map some ++ none :: List.replicate n none
        ∧ dfsRegister s ops = ({ s with types := s.types.set l.length (some ops) }, ⟨.ok, none⟩) := by
  unfold dfsRegister
  cases hreg : s.registered ops.name with
  | true => exact Or.inl ⟨rfl, rfl⟩
  | false =>
    right
    obtain ⟨l, n, htypes⟩ := inv.filled
    cases n with
    | zero =>
      left
      have hfull : s.types = l.map some := by simpa using htypes
      have hroom : s.types.findIdx? (·.isNone) = none := by
        rw [hfull, List.findIdx?_eq_none_iff]
        simp
      refine ⟨rfl, by simp [hfull], by simp [hroom]⟩
    | succ n =>
      right
      have htypes : s.types = l.map some ++ none :: List.replicate n none := htypes
      have hroom : s.types.findIdx? (·.isNone) = some l.length := by
        have hfull : (l.map some).findIdx? (·.isNone) = none := by
          rw [List.findIdx?_eq_none_iff]
          simp
        rw [htypes, List.findIdx?_append, hfull]
        simp [List.findIdx?_cons]
      exact ⟨l, n, rfl, htypes, by simp [hroom]⟩

theorem set_append_none {l : List FsOps} {rest : List (Option FsOps)} (ops : FsOps) :
    (l.map some ++ none :: rest).set l.length (some ops) = (l ++ [ops]).map some ++ rest := by
  simp

theorem kept_register_iff (inv : Inv s) (ops : FsOps) :
    Kept s (.register ops) (dfsRegister s ops).1 (dfsRegister s ops).2
      ↔ OpOk workingDirectory s (.register ops) := by
  have hchanged {i : ℕ} (hi : s.types[i]? = some none) : s.types ≠ s.types.set i (some ops) := by
    intro h
    have hlen : i < s.types.length := (List.getElem?_eq_some_iff.1 hi).1
    have hnew : s.types[i]? = some (some ops) := by
      rw [h]
      simp [hlen]
    rw [hi] at hnew
    cases hnew
  obtain ⟨hreg, heq⟩ | ⟨hreg, hroom, heq⟩ | ⟨l, n, hreg, htypes, heq⟩ := inv.dfsRegister_cases ops
  · refine iff_of_true ?_ (fun h => ?_)
    · rw [heq]
      refine ⟨inv.distinct, fun ops' h => ?_, fun _ h => (nomatch h), fun _ _ => rfl⟩
      cases h
      refine iff_of_false (fun h => nomatch h) ?_
      rintro ⟨i, hi, hset⟩
      exact hchanged hi hset
    · rw [hreg] at h
      cases h
  · refine iff_of_false (fun h => ?_) (fun h => hroom (h hreg))
    rw [heq] at h
    obtain ⟨i, hi, hset⟩ := (h.registers ops rfl).1 rfl
    exact hchanged hi hset
  · refine iff_of_true ?_ (fun _ => by simp [htypes])
    rw [heq]
    refine ⟨inv.distinct, fun ops' h => ?_, fun _ h => (nomatch h), fun _ h => (nomatch h)⟩
    cases h
    exact iff_of_true rfl ⟨l.length, by simp [htypes], rfl⟩

theorem Inv.register (inv : Inv s) (ops : FsOps) : Inv (dfsRegister s ops).1 := by
  obtain ⟨hreg, heq⟩ | ⟨hreg, hroom, heq⟩ | ⟨l, n, hreg, htypes, heq⟩ := inv.dfsRegister_cases ops
  · rwa [heq]
  · rwa [heq]
  · rw [heq]
    have hset : s.types.set l.length (some ops)
        = (l ++ [ops]).map some ++ List.replicate n none := by rw [htypes, set_append_none]
    have hmem {o : FsOps} (ho : some o ∈ s.types.set l.length (some ops)) :
        some o ∈ s.types ∨ o = ops := by
      rw [hset] at ho
      rw [htypes]
      simpa [or_comm] using ho
    have hnew {o : FsOps} (ho : some o ∈ s.types) : o.name ≠ ops.name :=
      registered_eq_false.1 hreg o ho
    refine ⟨⟨l ++ [ops], n, hset⟩, fun o o' ho ho' hname => ?_, inv.entries, inv.distinct⟩
    obtain hold | rfl := hmem ho
    · obtain hold' | rfl := hmem ho'
      · exact inv.names o o' hold hold' hname
      · exact absurd hname (hnew hold)
    · obtain hold' | rfl := hmem ho'
      · exact absurd hname.symm (hnew hold')
      · rfl

/-! ### Unmounting -/

theorem dfsUnmount_cases (workingDirectory : Option Path) (inv : Inv s) (specialfile : Path) (memory unmounts : Bool) :
    (∃ errno, dfsUnmount workingDirectory s specialfile memory unmounts
        = (s, ⟨.err errno, none⟩))
      ∨ ∃ i, i < s.table.length ∧ dfsUnmount workingDirectory s specialfile memory unmounts
        = ({ s with table := s.table.set i .zero }, ⟨.ok, none⟩) := by
  unfold dfsUnmount
  cases dfsNormalizePath workingDirectory memory specialfile with
  | none => exact Or.inl ⟨_, rfl⟩
  | some fullpath =>
    cases hfind : s.table.findIdx? (·.path = some fullpath) with
    | none =>
      simp only [hfind]
      exact Or.inl ⟨_, rfl⟩
    | some i =>
      obtain ⟨hi, hpath, -⟩ := List.findIdx?_eq_some_iff_getElem.1 hfind
      obtain ⟨-, hzero⟩ | ⟨hops, -⟩ := inv.entries _ (List.getElem_mem hi)
      · simp [hzero, DfsFilesystem.zero] at hpath
      · obtain ⟨ops, hops⟩ := Option.ne_none_iff_exists'.1 hops
        simp only [hfind, List.getElem?_eq_getElem hi, Option.bind_some, hops]
        split
        · exact Or.inr ⟨i, hi, rfl⟩
        · exact Or.inl ⟨_, rfl⟩

theorem kept_unmount (inv : Inv s) (specialfile : Path) (memory unmounts : Bool) :
    Kept s (.unmount specialfile memory unmounts)
      (dfsUnmount workingDirectory s specialfile memory unmounts).1
      (dfsUnmount workingDirectory s specialfile memory unmounts).2 := by
  obtain ⟨errno, heq⟩ | ⟨i, hi, heq⟩ :=
    dfsUnmount_cases workingDirectory inv specialfile memory unmounts
  · rw [heq]
    exact ⟨inv.distinct, fun _ h => (nomatch h), fun _ h => (nomatch h), fun _ _ => rfl⟩
  · rw [heq]
    exact ⟨distinct_set_zero inv.distinct hi, fun _ h => (nomatch h), fun _ h => (nomatch h),
      fun _ h => (nomatch h)⟩

theorem Inv.unmount (inv : Inv s) (specialfile : Path) (memory unmounts : Bool) :
    Inv (dfsUnmount workingDirectory s specialfile memory unmounts).1 := by
  obtain ⟨errno, heq⟩ | ⟨i, hi, heq⟩ :=
    dfsUnmount_cases workingDirectory inv specialfile memory unmounts
  · rwa [heq]
  · rw [heq]
    refine ⟨inv.filled, inv.names, fun iter hmem => ?_, distinct_set_zero inv.distinct hi⟩
    obtain hmem | rfl := List.mem_or_eq_of_mem_set hmem
    · exact inv.entries iter hmem
    · exact Or.inl ⟨rfl, rfl⟩

/-! ### Runs -/

theorem inv_start (maxTypes maxFilesystems : ℕ) : Inv (start maxTypes maxFilesystems) where
  filled := ⟨[], maxTypes, rfl⟩
  names _ _ h _ _ := by simp [start] at h
  entries iter hmem := Or.inl (by simp [(List.mem_replicate.1 hmem).2, DfsFilesystem.zero])
  distinct i j p h _ := by
    obtain ⟨iter, hiter, hpath⟩ := Option.bind_eq_some_iff.1 h
    have hzero := (List.mem_replicate.1 (List.mem_of_getElem? hiter)).2
    rw [hzero] at hpath
    cases hpath

theorem kept_iff (inv : Inv s) (a : Act) :
    Kept s a (exec workingDirectory s a).1 (exec workingDirectory s a).2
      ↔ OpOk workingDirectory s a := by
  cases a with
  | register ops => exact kept_register_iff inv ops
  | mount args => exact kept_mount_iff inv args
  | unmount specialfile memory unmounts =>
    exact iff_of_true (kept_unmount inv specialfile memory unmounts) trivial

theorem Inv.step (inv : Inv s) {a : Act} (hok : OpOk workingDirectory s a) :
    Inv (step workingDirectory s a) := by
  cases a with
  | register ops => exact inv.register ops
  | mount args => exact inv.mount hok
  | unmount specialfile memory unmounts => exact inv.unmount specialfile memory unmounts

variable (workingDirectory)

/-- Whatever calls are made, with whatever paths: every one keeps to the above as long as no type is
    registered that finds no room, none is mounted that is not registered while there is room, and
    no path is mounted a second time under another spelling. -/
theorem kept_of_run (maxTypes maxFilesystems : ℕ) (as : List Act) :
    Along (Mount.step workingDirectory)
        (fun s a => Kept s a (exec workingDirectory s a).1 (exec workingDirectory s a).2)
        (start maxTypes maxFilesystems) as
      ↔ Along (Mount.step workingDirectory) (OpOk workingDirectory)
        (start maxTypes maxFilesystems) as :=
  Along.iff (I := Inv) (fun _ a inv => kept_iff inv a) (fun _ _ inv hok => inv.step hok) as
    (inv_start maxTypes maxFilesystems)

/-- A path is mounted twice: the second time with one more `/`. -/
theorem not_kept_of_alias : ¬Along (Mount.step none)
    (fun s a => Kept s a (exec none s a).1 (exec none s a).2) (start 4 4)
    [.register ⟨['e', 'l', 'm'], true, true, true⟩,
      .mount ⟨.null, ['/'], ['e', 'l', 'm'], true, true, true, true⟩,
      .mount ⟨.null, ['/', '/'], ['e', 'l', 'm'], true, true, true, true⟩] := by
  rintro ⟨-, -, h, -⟩
  have hsame := h.distinct 0 1 ['/'] (by decide +kernel) (by decide +kernel)
  cases hsame

end EasyCore.Dfs.Mount
