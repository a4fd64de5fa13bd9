import EasyCore.Dfs.Ramfs
import EasyCore.Lib.Runs
import EasyCore.Lib.Written

/-! What is in the files of a file system in memory: any number of descriptors read, write and seek.
    A file and a buffer lie in one address space, so their lengths are added without a wrap. -/

namespace EasyCore.Dfs.Ramfs
open Function EasyCore.Links Runs Written

/-- What the heap answers to `rt_memheap_realloc`: nothing, or what is in the bytes that are new. -/
abbrev Realloc := Option (ℕ → UInt8)

/-- The descriptors that are open; `outside` says that a write has left the block of its file. -/
structure Session where
  fs : DfsRamfs
  fds : ℕ → Option RamFd
  outside : Bool

inductive FileAct
  | open (fd : ℕ) (path : CString) (creat wronly trunc append : Bool) (alloc : Alloc)
  | read (fd count : ℕ)
  | write (fd : ℕ) (buf : List UInt8) (heap : Realloc)
  | lseek (fd offset : ℕ)
  | close (fd : ℕ)

/-- What a call answers: nothing when it fails, or the bytes that it reads. -/
abbrev Answer := Option (List (Option UInt8))

/-! ### Functions -/

/-- The block of an entry. -/
def DfsRamfs.block (s : DfsRamfs) (e : Entry) : List UInt8 := (s.dirent e).data.getD []

/-- `rt_memheap_realloc`, when there is room. -/
def rtMemheapRealloc (block : List UInt8) (size : ℕ) (fill : ℕ → UInt8) : List UInt8 :=
  block.take size ++ (List.range (size - block.length)).map fill

/-- `memcpy` into a block; what falls outside of it is not kept here. -/
def memcpy (block : List UInt8) (pos : ℕ) (buf : List UInt8) : List UInt8 :=
  (block.take pos ++ buf ++ block.drop (pos + buf.length)).take block.length

/-- `dfs_ramfs_read` -/
def dfsRamfsRead (s : DfsRamfs) (file : RamFd) (count : ℕ) : RamFd × List (Option UInt8) :=
  if h : count < file.size - file.pos then
    (⟨file.data, file.size, file.pos + count, by omega⟩, readAt (s.block file.data) file.pos count)
  else
    (⟨file.data, file.size, file.pos + (file.size - file.pos), by have := file.inside; omega⟩,
      readAt (s.block file.data) file.pos (file.size - file.pos))

/-- The store of `dfs_ramfs_write`, and whether it leaves the block. -/
def storeBytes (s : DfsRamfs) (e : Entry) (pos : ℕ) (buf : List UInt8) : DfsRamfs × Bool :=
  if 0 < buf.length then
    (s.setDirent e { s.dirent e with data := (s.dirent e).data.map (memcpy · pos buf) },
      decide ((s.block e).length < pos + buf.length))
  else (s, false)

/-- `dfs_ramfs_write` -/
def dfsRamfsWrite (s : DfsRamfs) (fd : RamFd) (buf : List UInt8) (heap : Realloc) :
    Option (RamFd × DfsRamfs × Bool) :=
  if h : fd.size < buf.length + fd.pos then
    heap.map fun fill =>
      let s := s.setDirent fd.data
        { s.dirent fd.data with
          data := some (rtMemheapRealloc (s.block fd.data) (fd.pos + buf.length) fill)
          size := fd.pos + buf.length }
      (⟨fd.data, fd.pos + buf.length, fd.pos + buf.length, le_rfl⟩, storeBytes s fd.data fd.pos buf)
  else
    some (⟨fd.data, fd.size, fd.pos + buf.length, by omega⟩, storeBytes s fd.data fd.pos buf)

/-- `dfs_ramfs_lseek` -/
def dfsRamfsLseek (file : RamFd) (offset : ℕ) : Option RamFd :=
  if h : offset ≤ file.size then some ⟨file.data, file.size, offset, h⟩ else none

def fileExec (s : Session) : FileAct → Session × Answer
  | .open fd path creat wronly trunc append alloc =>
    let r := dfsRamfsOpen s.fs path ⟨false, creat, wronly, trunc, append⟩ alloc
    match r.2 with
    | .ok d => ({ s with fs := r.1, fds := update s.fds fd (some d) }, some [])
    | .error _ => ({ s with fs := r.1 }, none)
  | .read fd count =>
    match s.fds fd with
    | none => (s, none)
    | some d =>
      let r := dfsRamfsRead s.fs d count
      ({ s with fds := update s.fds fd (some r.1) }, some r.2)
  | .write fd buf heap =>
    match s.fds fd with
    | none => (s, none)
    | some d =>
      match dfsRamfsWrite s.fs d buf heap with
      | none => (s, none)
      | some r =>
        (⟨r.2.1, update s.fds fd (some r.1), s.outside || r.2.2⟩, some [])
  | .lseek fd offset =>
    match s.fds fd with
    | none => (s, none)
    | some d =>
      match dfsRamfsLseek d offset with
      | none => (s, none)
      | some d' => ({ s with fds := update s.fds fd (some d') }, some [])
  | .close fd => ({ s with fds := update s.fds fd none }, some [])

/-! ### Files as sequences -/

/-- A sequence of bytes for each file, and a cursor into one for each descriptor. -/
structure Files where
  content : Entry → List (Option UInt8)
  cursor : ℕ → Option (Entry × ℕ)

namespace Files

def «open» (f : Files) (fd : ℕ) (e : Entry) (trunc append : Bool) : Files :=
  let content := if trunc then update f.content e [] else f.content
  ⟨content, update f.cursor fd (some (e, if append then (content e).length else 0))⟩

def read (f : Files) (fd : ℕ) (e : Entry) (pos count : ℕ) : Files × List (Option UInt8) :=
  let bytes := ((f.content e).drop pos).take count
  ({ f with cursor := update f.cursor fd (some (e, pos + bytes.length)) }, bytes)

def write (f : Files) (fd : ℕ) (e : Entry) (pos : ℕ) (buf : List UInt8) : Files where
  content := if buf = [] then f.content else update f.content e (overwrite (f.content e) pos buf)
  cursor := update f.cursor fd (some (e, pos + buf.length))

end Files

/-- The call on the sequences. Which entry a path names, and whether there is room to write, the file
    system says. -/
def filesExec (s : Session) (f : Files) : FileAct → Files × Answer
  | .open fd path creat wronly trunc append alloc =>
    match (dfsRamfsOpen s.fs path ⟨false, creat, wronly, trunc, append⟩ alloc).2 with
    | .ok d => (f.open fd d.data trunc append, some [])
    | .error _ => (f, none)
  | .read fd count =>
    match f.cursor fd with
    | none => (f, none)
    | some (e, pos) => ((f.read fd e pos count).1, some (f.read fd e pos count).2)
  | .write fd buf heap =>
    match f.cursor fd with
    | none => (f, none)
    | some (e, pos) =>
      if (fileExec s (.write fd buf heap)).2.isSome then (f.write fd e pos buf, some [])
      else (f, none)
  | .lseek fd offset =>
    match f.cursor fd with
    | none => (f, none)
    | some (e, _) =>
      if offset ≤ (f.content e).length then
        ({ f with cursor := update f.cursor fd (some (e, offset)) }, some [])
      else (f, none)
  | .close fd => ({ f with cursor := update f.cursor fd none }, some [])

/-! ### Runs -/

abbrev Both := Session × Files

def bothStep (p : Both) (a : FileAct) : Both := ((fileExec p.1 a).1, (filesExec p.1 p.2 a).1)

def bothStart : Both := (⟨dfsRamfsCreate, fun _ => none, false⟩, ⟨fun _ => [], fun _ => none⟩)

/-- The blocks hold the sequences, the descriptors are the cursors, and no write has left its block. -/
structure Agree (p : Both) : Prop where
  inside : p.1.outside = false
  size : ∀ e, (p.1.fs.dirent e).size = (p.2.content e).length
  holds : ∀ e, Holds (p.1.fs.block e) (p.2.content e)
  cursors : ∀ fd, (p.1.fds fd).map (fun d => (d.data, d.pos)) = p.2.cursor fd

/-- A call answers as it would on the sequences, and changes the files as it would. -/
def Behaves (p : Both) (a : FileAct) : Prop :=
  Option.Rel Reads (fileExec p.1 a).2 (filesExec p.1 p.2 a).2 ∧ Agree (bothStep p a)

/-- The size that the descriptor has of its file does for the call. -/
def SizeOk (p : Both) : FileAct → Prop
  | .read fd count => ∀ d, p.1.fds fd = some d →
      min count (d.size - d.pos) = min count ((p.1.fs.dirent d.data).size - d.pos)
  | .write fd buf heap => ∀ d, p.1.fds fd = some d → buf ≠ [] →
      if d.size < d.pos + buf.length then
        heap.isSome → (p.1.fs.dirent d.data).size ≤ d.pos + buf.length
      else d.pos + buf.length ≤ (p.1.fs.dirent d.data).size
  | .lseek fd offset => ∀ d, p.1.fds fd = some d →
      (offset ≤ d.size ↔ offset ≤ (p.1.fs.dirent d.data).size)
  | _ => True

/-- What carries over: besides, what is not an entry has no content, and a descriptor has an entry. -/
structure DataInv (p : Both) : Prop extends Agree p where
  linked : Entries p.1.fs
  fresh : ∀ a ∉ p.1.fs.live, p.2.content (.item a) = []
  known : ∀ fd d, p.1.fds fd = some d → ∀ a, d.data = .item a → a ∈ p.1.fs.live

variable {s : Session} {f : Files} {p : Both} {fd : ℕ} {d : RamFd} {buf : List UInt8}
  {heap : Realloc}

theorem bothStart_inv : DataInv bothStart where
  inside := rfl
  size _ := rfl
  holds _ := holds_nil
  cursors _ := rfl
  linked := create_entries
  fresh _ _ := rfl
  known _ _ h := nomatch h

theorem Agree.cursor_none (h : Agree (s, f)) (hfd : s.fds fd = none) : f.cursor fd = none := by
  have := h.cursors fd
  rw [show (s, f).1.fds fd = none from hfd] at this
  exact this.symm

theorem Agree.cursor_some (h : Agree (s, f)) (hfd : s.fds fd = some d) :
    f.cursor fd = some (d.data, d.pos) := by
  have := h.cursors fd
  rw [show (s, f).1.fds fd = some d from hfd] at this
  exact this.symm

/-! ### Descriptors that move -/

/-- The descriptor `fd` is set on both sides. -/
theorem Agree.setFd (h : Agree (s, f)) (fd : ℕ) (d : Option RamFd) :
    Agree ({ s with fds := update s.fds fd d },
      { f with cursor := update f.cursor fd (d.map fun d => (d.data, d.pos)) }) := by
  refine ⟨h.inside, h.size, h.holds, fun k => ?_⟩
  by_cases hk : k = fd
  · subst hk
    simp
  · simp only [update_of_ne hk]
    exact h.cursors k

theorem DataInv.setFd (inv : DataInv (s, f)) (fd : ℕ) {d : Option RamFd}
    (hd : ∀ d' ∈ d, ∀ a, d'.data = .item a → a ∈ s.fs.live) :
    DataInv ({ s with fds := update s.fds fd d },
      { f with cursor := update f.cursor fd (d.map fun d => (d.data, d.pos)) }) := by
  refine ⟨inv.toAgree.setFd fd d, inv.linked, inv.fresh, fun k d' hk => ?_⟩
  by_cases hkfd : k = fd
  · subst hkfd
    exact hd d' (by simpa using hk)
  · exact inv.known k d' (by simpa [update_of_ne hkfd] using hk)

theorem DataInv.move (inv : DataInv (s, f)) (hfd : s.fds fd = some d) (d' : RamFd)
    (hdata : d'.data = d.data) :
    DataInv ({ s with fds := update s.fds fd (some d') },
      { f with cursor := update f.cursor fd (some (d'.data, d'.pos)) }) := by
  refine inv.setFd fd (d := some d') fun d'' hd'' a ha => ?_
  cases hd''
  exact inv.known fd d hfd a (hdata ▸ ha)

/-- A call on a descriptor that is not open. -/
theorem behaves_same (inv : DataInv p) {a : FileAct} (hcode : fileExec p.1 a = (p.1, none))
    (hfiles : filesExec p.1 p.2 a = (p.2, none)) : Behaves p a ∧ DataInv (bothStep p a) := by
  have hstep : bothStep p a = p := by rw [bothStep, hcode, hfiles]
  rw [Behaves, hstep, hcode, hfiles]
  exact ⟨⟨Option.Rel.none, inv.toAgree⟩, inv⟩

/-! ### Reading -/

theorem dfsRamfsRead_eq (s : DfsRamfs) (d : RamFd) (count : ℕ) :
    (dfsRamfsRead s d count).1.data = d.data
      ∧ (dfsRamfsRead s d count).1.pos = d.pos + min count (d.size - d.pos)
      ∧ (dfsRamfsRead s d count).2 = readAt (s.block d.data) d.pos (min count (d.size - d.pos)) := by
  unfold dfsRamfsRead
  split
  · rename_i h
    simp [Nat.min_eq_left h.le]
  · rename_i h
    simp [Nat.min_eq_right (Nat.le_of_not_lt h)]

theorem read_iff (inv : DataInv p) (fd count : ℕ) :
    (Behaves p (.read fd count) ↔ SizeOk p (.read fd count))
      ∧ (SizeOk p (.read fd count) → DataInv (bothStep p (.read fd count))) := by
  obtain ⟨s, f⟩ := p
  cases hfd : s.fds fd with
  | none =>
    have hcode : fileExec s (.read fd count) = (s, none) := by simp only [fileExec, hfd]
    have hfiles : filesExec s f (.read fd count) = (f, none) := by
      simp only [filesExec, inv.cursor_none hfd]
    obtain ⟨hsame, inv'⟩ := behaves_same inv hcode hfiles
    exact ⟨iff_of_true hsame fun d hd => absurd (hfd.symm.trans hd) (by simp), fun _ => inv'⟩
  | some d =>
    obtain ⟨hdata, hpos, hbytes⟩ := dfsRamfsRead_eq s.fs d count
    have hsize : (s.fs.dirent d.data).size = (f.content d.data).length := inv.size d.data
    have hblock : (s.fs.block d.data).length = (f.content d.data).length :=
      (inv.holds d.data).length_eq
    have hcode : fileExec s (.read fd count)
        = ({ s with fds := update s.fds fd (some (dfsRamfsRead s.fs d count).1) },
          some (dfsRamfsRead s.fs d count).2) := by simp only [fileExec, hfd]
    have hfiles : filesExec s f (.read fd count)
        = ((f.read fd d.data d.pos count).1, some (f.read fd d.data d.pos count).2) := by
      simp only [filesExec, inv.cursor_some hfd]
    have hlength : (f.read fd d.data d.pos count).2.length
        = min count ((s.fs.dirent d.data).size - d.pos) := by
      rw [hsize]
      simp [Files.read]
    have inv' (hok : min count (d.size - d.pos)
        = min count ((s.fs.dirent d.data).size - d.pos)) :
        DataInv (bothStep (s, f) (.read fd count)) := by
      have hmove := inv.move hfd (dfsRamfsRead s.fs d count).1 hdata
      rw [hdata, hpos, hok, ← hlength] at hmove
      rwa [bothStep, hcode, hfiles]
    have hok : SizeOk (s, f) (.read fd count) ↔ min count (d.size - d.pos)
        = min count ((s.fs.dirent d.data).size - d.pos) := by
      refine ⟨fun h => h d hfd, fun h d' hd' => ?_⟩
      obtain rfl : d = d' := Option.some.inj (hfd.symm.trans hd')
      exact h
    rw [hok]
    refine ⟨⟨fun h => ?_, fun h => ⟨?_, (inv' h).toAgree⟩⟩, inv'⟩
    · have hreads := h.1
      rw [hcode, hfiles, Option.rel_some_some] at hreads
      have := hreads.length_eq
      rwa [hbytes, hlength, readAt_length] at this
    · rw [hcode, hfiles, Option.rel_some_some, hbytes, h, hsize, ← hblock]
      exact (inv.holds d.data).reads d.pos count

/-! ### Seeking -/

theorem lseek_iff (inv : DataInv p) (fd offset : ℕ) :
    (Behaves p (.lseek fd offset) ↔ SizeOk p (.lseek fd offset))
      ∧ (SizeOk p (.lseek fd offset) → DataInv (bothStep p (.lseek fd offset))) := by
  obtain ⟨s, f⟩ := p
  cases hfd : s.fds fd with
  | none =>
    have hcode : fileExec s (.lseek fd offset) = (s, none) := by simp only [fileExec, hfd]
    have hfiles : filesExec s f (.lseek fd offset) = (f, none) := by
      simp only [filesExec, inv.cursor_none hfd]
    obtain ⟨hsame, inv'⟩ := behaves_same inv hcode hfiles
    exact ⟨iff_of_true hsame fun d hd => absurd (hfd.symm.trans hd) (by simp), fun _ => inv'⟩
  | some d =>
    have hsize : (s.fs.dirent d.data).size = (f.content d.data).length := inv.size d.data
    have hok : SizeOk (s, f) (.lseek fd offset)
        ↔ (offset ≤ d.size ↔ offset ≤ (f.content d.data).length) := by
      rw [← hsize]
      refine ⟨fun h => h d hfd, fun h d' hd' => ?_⟩
      obtain rfl : d = d' := Option.some.inj (hfd.symm.trans hd')
      exact h
    rw [hok]
    by_cases hcode : offset ≤ d.size
    · have hexec : fileExec s (.lseek fd offset)
          = ({ s with fds := update s.fds fd (some ⟨d.data, d.size, offset, hcode⟩) }, some []) := by
        simp only [fileExec, hfd, dfsRamfsLseek, hcode, dif_pos]
      by_cases hfile : offset ≤ (f.content d.data).length
      · have hfiles : filesExec s f (.lseek fd offset)
            = ({ f with cursor := update f.cursor fd (some (d.data, offset)) }, some []) := by
          simp only [filesExec, inv.cursor_some hfd, hfile, if_pos]
        have inv' : DataInv (bothStep (s, f) (.lseek fd offset)) := by
          rw [bothStep, hexec, hfiles]
          exact inv.move hfd ⟨d.data, d.size, offset, hcode⟩ rfl
        refine ⟨iff_of_true ⟨?_, inv'.toAgree⟩ (iff_of_true hcode hfile), fun _ => inv'⟩
        rw [hexec, hfiles]
        exact Option.Rel.some List.Forall₂.nil
      · have hfiles : filesExec s f (.lseek fd offset) = (f, none) := by
          simp only [filesExec, inv.cursor_some hfd, hfile, if_false]
        have hno : ¬ (offset ≤ d.size ↔ offset ≤ (f.content d.data).length) := fun h =>
          hfile (h.1 hcode)
        refine ⟨iff_of_false (fun h => ?_) hno, fun h => absurd h hno⟩
        have hanswer := h.1
        rw [hexec, hfiles] at hanswer
        cases hanswer
    · have hexec : fileExec s (.lseek fd offset) = (s, none) := by
        simp only [fileExec, hfd, dfsRamfsLseek, hcode, dif_neg, not_false_eq_true]
      by_cases hfile : offset ≤ (f.content d.data).length
      · have hfiles : filesExec s f (.lseek fd offset)
            = ({ f with cursor := update f.cursor fd (some (d.data, offset)) }, some []) := by
          simp only [filesExec, inv.cursor_some hfd, hfile, if_pos]
        have hno : ¬ (offset ≤ d.size ↔ offset ≤ (f.content d.data).length) := fun h =>
          hcode (h.2 hfile)
        refine ⟨iff_of_false (fun h => ?_) hno, fun h => absurd h hno⟩
        have hanswer := h.1
        rw [hexec, hfiles] at hanswer
        cases hanswer
      · have hfiles : filesExec s f (.lseek fd offset) = (f, none) := by
          simp only [filesExec, inv.cursor_some hfd, hfile, if_false]
        obtain ⟨hsame, inv'⟩ := behaves_same inv hexec hfiles
        exact ⟨iff_of_true hsame (iff_of_false hcode hfile), fun _ => inv'⟩

/-! ### Writing -/

/-- A block that has grown, with the bytes written at its end. -/
theorem memcpy_realloc (block : List UInt8) (pos : ℕ) (buf : List UInt8) (fill : ℕ → UInt8) :
    memcpy (rtMemheapRealloc block (pos + buf.length) fill) pos buf
      = block.take pos ++ (List.range (pos - block.length)).map fill ++ buf := by
  have hlength : (rtMemheapRealloc block (pos + buf.length) fill).length = pos + buf.length := by
    simp [rtMemheapRealloc]
    omega
  have htake : (rtMemheapRealloc block (pos + buf.length) fill).take pos
      = block.take pos ++ (List.range (pos - block.length)).map fill := by
    rw [rtMemheapRealloc, List.take_append, List.take_take, ← List.map_take, List.take_range,
      List.length_take]
    congr 3 <;> omega
  have hall : (block.take pos ++ (List.range (pos - block.length)).map fill ++ buf).length
      = pos + buf.length := by
    simp
    omega
  rw [memcpy, hlength, htake, List.drop_eq_nil_of_le hlength.le, List.append_nil,
    List.take_of_length_le hall.le]

/-- A write that is inside its block. -/
theorem memcpy_inside {block : List UInt8} {pos : ℕ} (h : pos + buf.length ≤ block.length) :
    memcpy block pos buf = block.take pos ++ buf ++ block.drop (pos + buf.length) := by
  rw [memcpy, List.take_of_length_le]
  simp
  omega

theorem block_setDirent (s : DfsRamfs) (e : Entry) (dirent : Dirent) :
    (s.setDirent e dirent).block e = dirent.data.getD [] := by
  simp [DfsRamfs.block, DfsRamfs.setDirent]

theorem block_setDirent_ne (s : DfsRamfs) {e e' : Entry} (h : e' ≠ e) (dirent : Dirent) :
    (s.setDirent e dirent).block e' = s.block e' := by
  simp [DfsRamfs.block, DfsRamfs.setDirent, h]

/-- The entry of a file after a write that makes it grow. -/
def grown (s : DfsRamfs) (d : RamFd) (buf : List UInt8) (fill : ℕ → UInt8) : Dirent :=
  { s.dirent d.data with
    data := some ((s.block d.data).take d.pos
      ++ (List.range (d.pos - (s.block d.data).length)).map fill ++ buf)
    size := d.pos + buf.length }

theorem dfsRamfsWrite_grow (s : DfsRamfs) (heap : Realloc) (h : d.size < d.pos + buf.length) :
    dfsRamfsWrite s d buf heap = heap.map fun fill =>
      (⟨d.data, d.pos + buf.length, d.pos + buf.length, le_rfl⟩,
        s.setDirent d.data (grown s d buf fill), false) := by
  have hbuf : 0 < buf.length := by
    have := d.inside
    omega
  have hlength (fill : ℕ → UInt8) :
      (rtMemheapRealloc (s.block d.data) (d.pos + buf.length) fill).length = d.pos + buf.length := by
    simp [rtMemheapRealloc]
    omega
  unfold dfsRamfsWrite
  rw [dif_pos (show d.size < buf.length + d.pos by omega)]
  refine congrArg (heap.map ·) (funext fun fill => ?_)
  simp only [storeBytes, if_pos hbuf, block_setDirent, Option.getD_some, hlength, lt_irrefl,
    decide_false]
  simp [DfsRamfs.setDirent, grown, memcpy_realloc]

theorem dfsRamfsWrite_inside (s : DfsRamfs) (heap : Realloc) (h : d.pos + buf.length ≤ d.size) :
    dfsRamfsWrite s d buf heap = some (⟨d.data, d.size, d.pos + buf.length, h⟩,
      storeBytes s d.data d.pos buf) := by
  unfold dfsRamfsWrite
  rw [dif_neg (show ¬ d.size < buf.length + d.pos by omega)]

/-- A write leaves the descriptor behind the bytes, and its file as the sequence. -/
theorem DataInv.store (inv : DataInv (s, f)) (hfd : s.fds fd = some d) (hbuf : buf ≠ [])
    (d' : RamFd) (hdata : d'.data = d.data) (hpos : d'.pos = d.pos + buf.length)
    {dirent : Dirent} (hsize : dirent.size = (overwrite (f.content d.data) d.pos buf).length)
    (hholds : Holds (dirent.data.getD []) (overwrite (f.content d.data) d.pos buf)) :
    DataInv (⟨s.fs.setDirent d.data dirent, update s.fds fd (some d'), s.outside⟩,
      f.write fd d.data d.pos buf) := by
  have hmove := inv.move hfd d' hdata
  have hcontent : (f.write fd d.data d.pos buf).content
      = update f.content d.data (overwrite (f.content d.data) d.pos buf) := if_neg hbuf
  refine ⟨⟨inv.inside, fun e => ?_, fun e => ?_, fun k => ?_⟩, inv.linked, fun a ha => ?_,
    hmove.known⟩
  · rw [hcontent]
    by_cases he : e = d.data
    · subst he
      simpa [DfsRamfs.setDirent] using hsize
    · simpa [DfsRamfs.setDirent, he] using inv.size e
  · rw [hcontent]
    by_cases he : e = d.data
    · subst he
      simpa [block_setDirent] using hholds
    · simpa [block_setDirent_ne _ he, he] using inv.holds e
  · have := hmove.cursors k
    rw [hdata, hpos] at this
    exact this
  · rw [hcontent]
    by_cases he : .item a = d.data
    · exact absurd (inv.known fd d hfd a he.symm) ha
    · rw [update_of_ne he]
      exact inv.fresh a ha

/-- A write that does not fail is made in the files as it is. -/
theorem filesExec_write (inv : DataInv (s, f)) (hfd : s.fds fd = some d) {heap : Realloc}
    (hsome : (dfsRamfsWrite s.fs d buf heap).isSome) :
    filesExec s f (.write fd buf heap) = (f.write fd d.data d.pos buf, some []) := by
  obtain ⟨r, hr⟩ := Option.isSome_iff_exists.1 hsome
  simp only [filesExec, inv.cursor_some hfd, fileExec, hfd, hr, Option.isSome_some, if_pos]

/-- A write beyond what the descriptor takes for the size, with enough memory: it makes the end of the
    write the size. -/
theorem write_grow_iff (inv : DataInv (s, f)) (hfd : s.fds fd = some d)
    (hgrow : d.size < d.pos + buf.length) (fill : ℕ → UInt8) :
    (Behaves (s, f) (.write fd buf (some fill)) ↔ (f.content d.data).length ≤ d.pos + buf.length)
      ∧ ((f.content d.data).length ≤ d.pos + buf.length →
        DataInv (bothStep (s, f) (.write fd buf (some fill)))) := by
  have hholds : Holds (s.fs.block d.data) (f.content d.data) := inv.holds d.data
  have hblock := hholds.length_eq
  have hoverwrite := overwrite_length (f.content d.data) d.pos buf
  have hbuf : buf ≠ [] := by
    rintro rfl
    have := d.inside
    simp at hgrow
    omega
  have hwrite := dfsRamfsWrite_grow s.fs (some fill) hgrow
  have hsome : (dfsRamfsWrite s.fs d buf (some fill)).isSome := by simp [hwrite]
  have hfiles := filesExec_write inv hfd hsome
  have hstep : bothStep (s, f) (.write fd buf (some fill))
      = (⟨s.fs.setDirent d.data (grown s.fs d buf fill),
          update s.fds fd (some ⟨d.data, d.pos + buf.length, d.pos + buf.length, le_rfl⟩),
          s.outside || false⟩, f.write fd d.data d.pos buf) := by
    rw [bothStep, hfiles]
    simp only [fileExec, hfd, hwrite, Option.map_some]
  have hanswer : Option.Rel Reads (fileExec s (.write fd buf (some fill))).2
      (filesExec s f (.write fd buf (some fill))).2 := by
    rw [hfiles]
    simp only [fileExec, hfd, hwrite, Option.map_some]
    exact Option.Rel.some List.Forall₂.nil
  have inv' (hlong : (f.content d.data).length ≤ d.pos + buf.length) :
      DataInv (bothStep (s, f) (.write fd buf (some fill))) := by
    rw [hstep, Bool.or_false]
    refine inv.store hfd hbuf ⟨_, _, _, le_rfl⟩ rfl rfl ?_ ?_
    · rw [hoverwrite, max_eq_right hlong]
      rfl
    · exact hholds.overwrite_end (by omega) (by simp)
  refine ⟨⟨fun h => ?_, fun h => ⟨hanswer, (inv' h).toAgree⟩⟩, inv'⟩
  have hafter := h.2.size d.data
  rw [hstep] at hafter
  simp only [Files.write, if_neg hbuf, DfsRamfs.setDirent, update_self, hoverwrite, grown] at hafter
  omega

/-- A write within what the descriptor takes for the size: the bytes are put into the block. -/
theorem write_inside_iff (inv : DataInv (s, f)) (hfd : s.fds fd = some d)
    (hfits : d.pos + buf.length ≤ d.size) (heap : Realloc) :
    (Behaves (s, f) (.write fd buf heap) ↔
      (buf ≠ [] → d.pos + buf.length ≤ (f.content d.data).length))
      ∧ ((buf ≠ [] → d.pos + buf.length ≤ (f.content d.data).length) →
        DataInv (bothStep (s, f) (.write fd buf heap))) := by
  have hholds : Holds (s.fs.block d.data) (f.content d.data) := inv.holds d.data
  have hblock := hholds.length_eq
  have hwrite := dfsRamfsWrite_inside s.fs heap hfits
  have hsome : (dfsRamfsWrite s.fs d buf heap).isSome := by simp [hwrite]
  have hfiles := filesExec_write inv hfd hsome
  have hanswer : Option.Rel Reads (fileExec s (.write fd buf heap)).2
      (filesExec s f (.write fd buf heap)).2 := by
    rw [hfiles]
    simp only [fileExec, hfd, hwrite]
    exact Option.Rel.some List.Forall₂.nil
  have hstep : bothStep (s, f) (.write fd buf heap)
      = (⟨(storeBytes s.fs d.data d.pos buf).1,
          update s.fds fd (some ⟨d.data, d.size, d.pos + buf.length, hfits⟩),
          s.outside || (storeBytes s.fs d.data d.pos buf).2⟩,
        f.write fd d.data d.pos buf) := by
    rw [bothStep, hfiles]
    simp only [fileExec, hfd, hwrite]
  by_cases hbuf : buf = []
  · subst hbuf
    have inv' : DataInv (bothStep (s, f) (.write fd [] heap)) := by
      rw [hstep]
      have hmove := inv.move hfd ⟨d.data, d.size, d.pos + 0, hfits⟩ rfl
      simpa [storeBytes, Files.write] using hmove
    exact ⟨iff_of_true ⟨hanswer, inv'.toAgree⟩ (absurd rfl), fun _ => inv'⟩
  · have hstore : storeBytes s.fs d.data d.pos buf
        = (s.fs.setDirent d.data { s.fs.dirent d.data with
            data := (s.fs.dirent d.data).data.map (memcpy · d.pos buf) },
          decide ((s.fs.block d.data).length < d.pos + buf.length)) :=
      if_pos (List.length_pos_of_ne_nil hbuf)
    rw [hstore, hblock] at hstep
    have inv' (hin : d.pos + buf.length ≤ (f.content d.data).length) :
        DataInv (bothStep (s, f) (.write fd buf heap)) := by
      rw [hstep, decide_eq_false (Nat.not_lt_of_le hin), Bool.or_false]
      refine inv.store hfd hbuf ⟨_, _, _, hfits⟩ rfl rfl ?_ ?_
      · rw [overwrite_length, max_eq_left hin]
        exact inv.size d.data
      · have hin' : d.pos + buf.length ≤ (s.fs.block d.data).length := hblock ▸ hin
        have hgetD : ((s.fs.dirent d.data).data.map (memcpy · d.pos buf)).getD []
            = memcpy (s.fs.block d.data) d.pos buf := by
          unfold DfsRamfs.block at hin' ⊢
          cases hnull : (s.fs.dirent d.data).data with
          | none =>
            rw [hnull] at hin'
            simp at hin'
            exact absurd hin'.2 hbuf
          | some block => rfl
        simp only [hgetD, memcpy_inside hin']
        exact hholds.overwrite_inside hin'
    simp only [hbuf, ne_eq, not_false_eq_true, true_imp_iff]
    refine ⟨⟨fun h => ?_, fun h => ⟨hanswer, (inv' h).toAgree⟩⟩, inv'⟩
    have hinside := h.2.inside
    rw [hstep] at hinside
    exact Nat.le_of_not_lt (of_decide_eq_false (Bool.or_eq_false_iff.1 hinside).2)

theorem write_iff (inv : DataInv p) (fd : ℕ) (buf : List UInt8) (heap : Realloc) :
    (Behaves p (.write fd buf heap) ↔ SizeOk p (.write fd buf heap))
      ∧ (SizeOk p (.write fd buf heap) → DataInv (bothStep p (.write fd buf heap))) := by
  obtain ⟨s, f⟩ := p
  cases hfd : s.fds fd with
  | none =>
    have hcode : fileExec s (.write fd buf heap) = (s, none) := by simp only [fileExec, hfd]
    have hfiles : filesExec s f (.write fd buf heap) = (f, none) := by
      simp only [filesExec, inv.cursor_none hfd]
    obtain ⟨hsame, inv'⟩ := behaves_same inv hcode hfiles
    exact ⟨iff_of_true hsame fun d hd => absurd (hfd.symm.trans hd) (by simp), fun _ => inv'⟩
  | some d =>
    have hsize : (s.fs.dirent d.data).size = (f.content d.data).length := inv.size d.data
    have hok : SizeOk (s, f) (.write fd buf heap) ↔ (buf ≠ [] →
        if d.size < d.pos + buf.length then
          heap.isSome → (f.content d.data).length ≤ d.pos + buf.length
        else d.pos + buf.length ≤ (f.content d.data).length) := by
      rw [← hsize]
      refine ⟨fun h => h d hfd, fun h d' hd' => ?_⟩
      obtain rfl : d = d' := Option.some.inj (hfd.symm.trans hd')
      exact h
    rw [hok]
    by_cases hgrow : d.size < d.pos + buf.length
    · have hbuf : buf ≠ [] := by
        rintro rfl
        have := d.inside
        simp at hgrow
        omega
      simp only [hgrow, if_pos, hbuf, ne_eq, not_false_eq_true, true_imp_iff]
      cases heap with
      | none =>
        have hwrite := dfsRamfsWrite_grow s.fs none hgrow
        have hcode : fileExec s (.write fd buf none) = (s, none) := by
          simp only [fileExec, hfd, hwrite, Option.map_none]
        have hfiles : filesExec s f (.write fd buf none) = (f, none) := by
          simp only [filesExec, inv.cursor_some hfd, hcode, Option.isSome_none,
            Bool.false_eq_true, if_false]
        obtain ⟨hsame, inv'⟩ := behaves_same inv hcode hfiles
        exact ⟨iff_of_true hsame (nomatch ·), fun _ => inv'⟩
      | some fill =>
        simp only [Option.isSome_some, true_imp_iff]
        exact write_grow_iff inv hfd hgrow fill
    · simp only [hgrow, if_false]
      exact write_inside_iff inv hfd (Nat.le_of_not_lt hgrow) heap

/-! ### Opening -/

/-- How `dfs_ramfs_open` ends for a file: the entry is the one of the path, or a new one. -/
theorem dfsRamfsOpen_file (s : DfsRamfs) (h : Entries s) (path : CString) (flags : OpenFlags)
    (hdir : flags.directory = false) (alloc : Alloc) :
    (∃ err, dfsRamfsOpen s path flags alloc = (s, .error err))
      ∨ (∃ a ∈ s.live, dfsRamfsOpen s path flags alloc
        = (truncate s (.item a) flags, .ok (opened (truncate s (.item a) flags) (.item a) flags)))
      ∨ ∃ a ∉ s.live, dfsRamfsOpen s path flags alloc
        = (truncate (createEntry s path a) (.item a) flags,
          .ok (opened (truncate (createEntry s path a) (.item a) flags) (.item a) flags)) := by
  unfold dfsRamfsOpen
  rw [hdir, if_neg Bool.false_ne_true]
  cases he : dfsRamfsLookup s path with
  | some e =>
    obtain ⟨-, hroot⟩ | ⟨-, a, ha, rfl, -⟩ := lookup_some h he
    · exact Or.inl ⟨.enoent, if_pos hroot⟩
    · exact Or.inr (Or.inl ⟨a, ha, if_neg (nomatch ·)⟩)
  | none =>
    by_cases hcreat : flags.creat ∨ flags.wronly
    · simp only [if_pos hcreat]
      cases alloc s.live with
      | none => exact Or.inl ⟨.enomem, rfl⟩
      | some a => exact Or.inr (Or.inr ⟨a.1, a.2, rfl⟩)
    · simp only [if_neg hcreat]
      exact Or.inl ⟨.enoent, rfl⟩

/-- A new entry has no content. -/
theorem DataInv.create (inv : DataInv (s, f)) (path : CString) {a : ℕ} (ha : a ∉ s.fs.live) :
    DataInv ({ s with fs := createEntry s.fs path a }, f) := by
  have hempty : f.content (.item a) = [] := inv.fresh a ha
  refine ⟨⟨inv.inside, fun e => ?_, fun e => ?_, inv.cursors⟩, createEntry_entries inv.linked ha,
    fun b hb => inv.fresh b fun h => hb (List.mem_cons_of_mem _ h),
    fun k d hk b hb => List.mem_cons_of_mem _ (inv.known k d hk b hb)⟩
  · by_cases he : e = .item a
    · subst he
      simp [createEntry, DfsRamfs.setDirent, hempty]
    · simpa [createEntry, DfsRamfs.setDirent, he] using inv.size e
  · by_cases he : e = .item a
    · subst he
      simpa [createEntry, DfsRamfs.block, DfsRamfs.setDirent, hempty] using holds_nil
    · simpa [createEntry, DfsRamfs.block, DfsRamfs.setDirent, he] using inv.holds e

/-- The file of an entry is opened, and truncated if the flags say so. -/
theorem DataInv.opened (inv : DataInv (s, f)) (fd : ℕ) {a : ℕ} (ha : a ∈ s.fs.live)
    (flags : OpenFlags) :
    DataInv (⟨truncate s.fs (.item a) flags,
        update s.fds fd (some (opened (truncate s.fs (.item a) flags) (.item a) flags)), s.outside⟩,
      f.open fd (.item a) flags.trunc flags.append) := by
  have htrunc : DataInv ({ s with fs := truncate s.fs (.item a) flags },
      { f with content := if flags.trunc then update f.content (.item a) [] else f.content }) := by
    unfold truncate
    split
    · refine ⟨⟨inv.inside, fun e => ?_, fun e => ?_, inv.cursors⟩, inv.linked, fun b hb => ?_,
        inv.known⟩
      · by_cases he : e = .item a
        · subst he
          simp [DfsRamfs.setDirent]
        · simpa [DfsRamfs.setDirent, he] using inv.size e
      · by_cases he : e = .item a
        · subst he
          simpa [block_setDirent] using holds_nil
        · simpa [block_setDirent_ne _ he, he] using inv.holds e
      · have hne : b ≠ a := fun h => hb (h ▸ ha)
        have := inv.fresh b hb
        simpa [hne] using this
    · exact inv
  have hlive : (truncate s.fs (.item a) flags).live = s.fs.live := by
    unfold truncate
    split
    · rfl
    · rfl
  have hset := htrunc.setFd fd (d := some (Ramfs.opened (truncate s.fs (.item a) flags) (.item a)
    flags)) fun d hd b hb => by
      cases hd
      obtain rfl := Node.item.inj hb
      exact hlive ▸ ha
  have hsize := htrunc.size (.item a)
  have hpos : (Ramfs.opened (truncate s.fs (.item a) flags) (.item a) flags).pos
      = if flags.append then
          ((if flags.trunc then update f.content (.item a) [] else f.content) (.item a)).length
        else 0 := by
    rw [← hsize]
    rfl
  rw [Option.map_some, hpos] at hset
  exact hset

/-- An open that ends with the entry at `a` of the file system `fs`. -/
theorem open_entry {fs : DfsRamfs} (inv : DataInv ({ s with fs := fs }, f)) (fd : ℕ)
    {path : CString} {creat wronly trunc append : Bool} {alloc : Alloc} {a : ℕ} (ha : a ∈ fs.live)
    (hopen : dfsRamfsOpen s.fs path ⟨false, creat, wronly, trunc, append⟩ alloc
      = (truncate fs (.item a) ⟨false, creat, wronly, trunc, append⟩,
        .ok (opened (truncate fs (.item a) ⟨false, creat, wronly, trunc, append⟩) (.item a)
          ⟨false, creat, wronly, trunc, append⟩))) :
    Behaves (s, f) (.open fd path creat wronly trunc append alloc)
      ∧ DataInv (bothStep (s, f) (.open fd path creat wronly trunc append alloc)) := by
  have inv' : DataInv (bothStep (s, f) (.open fd path creat wronly trunc append alloc)) := by
    have := inv.opened fd ha ⟨false, creat, wronly, trunc, append⟩
    simp only [bothStep, fileExec, filesExec, hopen]
    exact this
  refine ⟨⟨?_, inv'.toAgree⟩, inv'⟩
  simp only [fileExec, filesExec, hopen]
  exact Option.Rel.some List.Forall₂.nil

theorem open_behaves (inv : DataInv p) (fd : ℕ) (path : CString) (creat wronly trunc append : Bool)
    (alloc : Alloc) : Behaves p (.open fd path creat wronly trunc append alloc)
      ∧ DataInv (bothStep p (.open fd path creat wronly trunc append alloc)) := by
  obtain ⟨s, f⟩ := p
  obtain ⟨err, hopen⟩ | ⟨a, ha, hopen⟩ | ⟨a, ha, hopen⟩ := dfsRamfsOpen_file s.fs inv.linked path
    ⟨false, creat, wronly, trunc, append⟩ rfl alloc
  · refine behaves_same inv ?_ ?_
    · simp only [fileExec, hopen]
    · simp only [filesExec, hopen]
  · exact open_entry inv fd ha hopen
  · exact open_entry (inv.create path ha) fd List.mem_cons_self hopen

/-! ### Runs -/

theorem close_behaves (inv : DataInv p) (fd : ℕ) :
    Behaves p (.close fd) ∧ DataInv (bothStep p (.close fd)) := by
  have inv' : DataInv (bothStep p (.close fd)) := inv.setFd fd (d := none) fun _ h => nomatch h
  exact ⟨⟨Option.Rel.some List.Forall₂.nil, inv'.toAgree⟩, inv'⟩

theorem bothStep_iff (inv : DataInv p) (a : FileAct) :
    (Behaves p a ↔ SizeOk p a) ∧ (SizeOk p a → DataInv (bothStep p a)) := by
  cases a with
  | «open» fd path creat wronly trunc append alloc =>
    obtain ⟨h, inv'⟩ := open_behaves inv fd path creat wronly trunc append alloc
    exact ⟨iff_of_true h trivial, fun _ => inv'⟩
  | read fd count => exact read_iff inv fd count
  | write fd buf heap => exact write_iff inv fd buf heap
  | lseek fd offset => exact lseek_iff inv fd offset
  | close fd =>
    obtain ⟨h, inv'⟩ := close_behaves inv fd
    exact ⟨iff_of_true h trivial, fun _ => inv'⟩

/-- CORRECT: the files are sequences of bytes, and the descriptors cursors into them, in the runs in
    which the size that a descriptor has of its file does for each call on it, and in no others. -/
theorem behaves_of_run (acts : List FileAct) :
    Along bothStep Behaves bothStart acts ↔ Along bothStep SizeOk bothStart acts :=
  Along.iff (fun _ a inv => (bothStep_iff inv a).1) (fun _ a inv => (bothStep_iff inv a).2) acts
    bothStart_inv

/-- Two descriptors are open on a new file: a byte written through the second one cuts off what has
    been written through the first. -/
theorem not_behaves_of_stale : ¬ Along bothStep Behaves bothStart
    [.open 0 ⟨[0x61], by decide⟩ true true false false oneEntry,
      .open 1 ⟨[0x61], by decide⟩ true true false false oneEntry,
      .write 0 [1, 2] (some fun _ => 0), .write 1 [3] (some fun _ => 0)] := by
  rintro ⟨-, -, -, h, -⟩
  exact absurd (h.2.size (.item 1)) (by decide +kernel)

end EasyCore.Dfs.Ramfs
