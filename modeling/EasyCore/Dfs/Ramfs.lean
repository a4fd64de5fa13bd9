import EasyCore.Kernel.RtList

/-! The file system in memory (`dfs/filesystems/ramfs/dfs_ramfs.c`). Its entries are on one ring, with
    the entry of the root directory as its header; a file has its contents in one block of the heap. -/

namespace EasyCore.Dfs.Ramfs
open Function Kernel EasyCore.Links

/-- `RAMFS_NAME_MAX` -/
def ramfsNameMax : ℕ := 32

/-- A string, without its terminator. -/
abbrev CString := { s : List UInt8 // 0 ∉ s }

/-- `struct ramfs_dirent` without its link: the array of the name, the block and its size. -/
structure Dirent where
  name : List UInt8
  data : Option (List UInt8)
  size : ℕ

/-- Where an entry is: the root directory's in the object, the others on the heap. -/
abbrev Entry := Node Unit ℕ

def root : Entry := .head ()

/-- `struct dfs_ramfs`, the entries allocated on its heap, and those that have been freed. -/
structure DfsRamfs where
  list : RtList Entry
  dirent : Entry → Dirent
  live : List ℕ
  freed : List Entry

/-- What `dfs_ramfs_open` sets in a descriptor. -/
structure RamFd where
  data : Entry
  size : ℕ
  pos : ℕ
  inside : pos ≤ size

/-- The flags that it reads: `DFS_O_DIRECTORY`, `DFS_O_CREAT`, `DFS_O_WRONLY`, `DFS_O_TRUNC` and
    `DFS_O_APPEND`. -/
structure OpenFlags where
  directory : Bool
  creat : Bool
  wronly : Bool
  trunc : Bool
  append : Bool

inductive Errno
  | enoent
  | enospc
  | enomem
  | eexist
  | eio

/-- `strncpy` to an array of `RAMFS_NAME_MAX` bytes. -/
def strncpy (src : List UInt8) : List UInt8 :=
  src.take ramfsNameMax ++ List.replicate (ramfsNameMax - src.length) 0

/-- An array read as a string. -/
def cstring (name : List UInt8) : List UInt8 := name.takeWhile (· ≠ 0)

/-- The path without the separators in front. -/
def subpath (path : CString) : List UInt8 := path.1.dropWhile (· = 0x2f)

def DfsRamfs.setDirent (s : DfsRamfs) (e : Entry) (d : Dirent) : DfsRamfs :=
  { s with dirent := update s.dirent e d }

/-- The name of an entry on the heap. -/
def DfsRamfs.nameOf (s : DfsRamfs) (a : ℕ) : List UInt8 := cstring (s.dirent (.item a)).name

/-! ### Functions -/

/-- The loop of `dfs_ramfs_lookup`; there are no more turns than entries. -/
def lookupLoop (s : DfsRamfs) (name : List UInt8) : ℕ → Entry → Option Entry
  | 0, _ => none
  | fuel + 1, e =>
    if e = root then none
    else if cstring (s.dirent e).name = name then some e
    else lookupLoop s name fuel (s.list.next e)

/-- `dfs_ramfs_lookup` -/
def dfsRamfsLookup (s : DfsRamfs) (path : CString) : Option Entry :=
  if subpath path = [] then some root
  else lookupLoop s (subpath path) (s.live.length + 1) (s.list.next root)

/-- What the heap answers to `rt_memheap_alloc`: nothing, or a block that is not in use. -/
abbrev Alloc := (live : List ℕ) → Option { a : ℕ // a ∉ live }

/-- A heap with room for one entry. -/
def oneEntry : Alloc := fun live => if h : 1 ∈ live then none else some ⟨1, h⟩

/-- A new entry, in front of the others. -/
def createEntry (s : DfsRamfs) (path : CString) (a : ℕ) : DfsRamfs :=
  { s.setDirent (.item a) ⟨strncpy (subpath path), none, 0⟩ with
    list := rtListInsertAfter (rtListInit s.list (.item a)) root (.item a)
    live := a :: s.live }

/-- `DFS_O_TRUNC`: the size is 0, and the block is freed. -/
def truncate (s : DfsRamfs) (e : Entry) (flags : OpenFlags) : DfsRamfs :=
  if flags.trunc then s.setDirent e { s.dirent e with data := none, size := 0 } else s

/-- The descriptor of an entry. -/
def opened (s : DfsRamfs) (e : Entry) (flags : OpenFlags) : RamFd where
  data := e
  size := (s.dirent e).size
  pos := if flags.append then (s.dirent e).size else 0
  inside := by split <;> simp

/-- `dfs_ramfs_open` -/
def dfsRamfsOpen (s : DfsRamfs) (path : CString) (flags : OpenFlags) (alloc : Alloc) :
    DfsRamfs × Except Errno RamFd :=
  if flags.directory then
    if flags.creat then (s, .error .enospc)
    else
      match dfsRamfsLookup s path with
      | none => (s, .error .enoent)
      | some e => (s, .ok (opened s e flags))
  else
    match dfsRamfsLookup s path with
    | some e =>
      if e = root then (s, .error .enoent)
      else (truncate s e flags, .ok (opened (truncate s e flags) e flags))
    | none =>
      if flags.creat ∨ flags.wronly then
        match alloc s.live with
        | none => (s, .error .enomem)
        | some a =>
          let s := truncate (createEntry s path a) (.item a) flags
          (s, .ok (opened s (.item a) flags))
      else (s, .error .enoent)

/-- `dfs_ramfs_unlink` -/
def dfsRamfsUnlink (s : DfsRamfs) (path : CString) : DfsRamfs × Except Errno Unit :=
  match dfsRamfsLookup s path with
  | none => (s, .error .enoent)
  | some e =>
    ({ s with
        list := rtListRemove s.list e
        live := s.live.filter fun a => .item a ≠ e
        freed := e :: s.freed }, .ok ())

/-- `dfs_ramfs_rename` -/
def dfsRamfsRename (s : DfsRamfs) (oldpath newpath : CString) : DfsRamfs × Except Errno Unit :=
  match dfsRamfsLookup s newpath with
  | some _ => (s, .error .eexist)
  | none =>
    match dfsRamfsLookup s oldpath with
    | none => (s, .error .enoent)
    | some e => (s.setDirent e { s.dirent e with name := strncpy newpath.1 }, .ok ())

/-- `dfs_ramfs_create` -/
def dfsRamfsCreate : DfsRamfs where
  list := ⟨id, id⟩
  dirent _ := ⟨strncpy [0x2e], none, 0⟩
  live := []
  freed := []

/-! ### The ring -/

/-- The ring of the entries. -/
abbrev Entries (s : DfsRamfs) : Prop :=
  Linked s.list (fun _ => True) (· ∈ s.live) (fun _ => s.live)

variable {s : DfsRamfs} {path : CString} {a : ℕ} {e : Entry} {d : Dirent}

@[simp] theorem setDirent_list : (s.setDirent e d).list = s.list := rfl

@[simp] theorem setDirent_live : (s.setDirent e d).live = s.live := rfl

@[simp] theorem setDirent_freed : (s.setDirent e d).freed = s.freed := rfl

theorem create_entries : Entries dfsRamfsCreate where
  ring _ _ := Ring.singleton rfl rfl
  uniq _ _ h _ := nomatch h
  known _ h := nomatch h
  alone _ _ := ⟨rfl, rfl⟩

theorem createEntry_entries (h : Entries s) (ha : a ∉ s.live) : Entries (createEntry s path a) := by
  have hinit : Linked (rtListInit s.list (.item a)) (fun _ => True) (· ∈ a :: s.live)
      (fun _ => s.live) :=
    linked_init h (fun _ _ => ha) (fun _ hu => List.mem_cons_of_mem _ hu)
      (fun _ hu => List.mem_cons.1 hu)
  have hput := linked_insertAfter_head hinit (h := ()) trivial List.mem_cons_self (fun _ _ => ha)
  refine Queues.congr hput fun _ _ => ?_
  simp [push, createEntry]

/-- The loop finds the first entry of the name, from where it is. -/
theorem lookupLoop_eq (h : Entries s) (name : List UInt8) : ∀ (fuel : ℕ) {pre post : List ℕ},
    s.live = pre ++ post → post.length < fuel →
    lookupLoop s name fuel (after () post) = (post.find? (s.nameOf · = name)).map .item
  | fuel + 1, pre, [], _, _ => by simp [lookupLoop, root]
  | fuel + 1, pre, a :: post, hlive, hfuel => by
    have hnext : s.list.next (.item a) = after () post := h.item_next (h := ()) trivial hlive
    have ih := lookupLoop_eq h name fuel
      (show s.live = (pre ++ [a]) ++ post by simpa using hlive)
      (Nat.lt_of_succ_lt_succ hfuel)
    simp only [after_cons, lookupLoop, root, reduceCtorEq, if_false, hnext, ih, List.find?_cons]
    by_cases hname : s.nameOf a = name
    · simp [DfsRamfs.nameOf] at hname ⊢
      simp [hname]
    · simp [DfsRamfs.nameOf] at hname ⊢
      simp [hname]

theorem dfsRamfsLookup_eq (h : Entries s) (path : CString) : dfsRamfsLookup s path
    = if subpath path = [] then some root
      else (s.live.find? (s.nameOf · = subpath path)).map .item := by
  unfold dfsRamfsLookup
  split
  · rfl
  · have hnext : s.list.next root = after () s.live := h.head_next (h := ()) trivial
    rw [hnext]
    exact lookupLoop_eq h _ _ (List.nil_append _).symm (Nat.lt_succ_self _)

theorem lookup_isSome (h : Entries s) (path : CString) : (dfsRamfsLookup s path).isSome
    ↔ subpath path = [] ∨ ∃ a ∈ s.live, s.nameOf a = subpath path := by
  rw [dfsRamfsLookup_eq h]
  split
  · rename_i hroot
    simp [hroot]
  · rename_i hroot
    simp [hroot, List.find?_isSome]

theorem lookup_none (h : Entries s) (hnone : dfsRamfsLookup s path = none) :
    subpath path ≠ [] ∧ ∀ a ∈ s.live, s.nameOf a ≠ subpath path := by
  have := mt (lookup_isSome h path).2 (by simp [hnone])
  push Not at this
  exact this

theorem lookup_some {e : Entry} (h : Entries s) (hsome : dfsRamfsLookup s path = some e) :
    subpath path = [] ∧ e = root
      ∨ subpath path ≠ [] ∧ ∃ a ∈ s.live, e = .item a ∧ s.nameOf a = subpath path := by
  rw [dfsRamfsLookup_eq h] at hsome
  split at hsome
  · rename_i hroot
    cases hsome
    exact Or.inl ⟨hroot, rfl⟩
  · rename_i hroot
    obtain ⟨a, hfind, rfl⟩ := Option.map_eq_some_iff.1 hsome
    exact Or.inr ⟨hroot, a, List.mem_of_find?_eq_some hfind, rfl,
      by simpa using List.find?_some hfind⟩

end EasyCore.Dfs.Ramfs
