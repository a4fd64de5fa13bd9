import EasyCore.Lib.Runs

/-! File descriptors (`dfs/src/dfs.c`, `dfs_posix.c`, `dfs_file.c`). Calls of several threads run at the
    same time; the table is changed under a lock by `fd_new`, `fd_get` and `fd_put`, and without it
    when `dfs_file_open` and `dfs_file_close` clear a descriptor.

        open      new ▶ get ▶ file_open ▶ put ▶ returned        (not opened: put, put)
        mkdir     new ▶ get ▶ file_open ▶ file_close ▶ put       (not opened: put)
        opendir   new ▶ get ▶ file_open ▶ malloc ▶ put ▶ returned
        close     get ▶ file_close ▶ put, put                    (not closed: put)
        closedir  get ▶ file_close ▶ put, put -/

namespace EasyCore.Dfs
open Function Runs

/-- `DFS_FD_MAGIC` -/
def dfsFdMagic : UInt16 := 0xfdfd

/-- `struct dfs_fd`, as far as its life goes: `fs` says that the pointer to the file system is set. -/
structure DfsFd where
  magic : UInt16
  refCount : ℤ
  fs : Bool

/-- What `rt_memset` leaves. -/
def DfsFd.zero : DfsFd := ⟨0, 0, false⟩

/-- The calls that open a file. -/
inductive Opener
  | open
  | mkdir
  | opendir

/-- The calls that close one; `opendir` does when it has no memory for the directory. -/
inductive Closer
  | close
  | closedir
  | mkdir
  | opendir

/-- What a call does next: `put n` is the number of references that it is still going to put. -/
inductive Pc
  | get (o : Opener)
  | fileOpen (o : Opener)
  | malloc
  | fileClose (c : Closer)
  | put (n : ℕ)
  | returnFd

/-- A running call, and the references to its descriptor that it holds. -/
structure Call where
  fd : ℕ
  pc : Pc
  refs : ℕ

/-- The table, the calls, and the descriptors that have been returned and not been closed. -/
structure State where
  fdTable : ℕ → DfsFd
  calls : List Call
  opened : List ℕ

/-- The first descriptor and the number of them: 0 or, with `DFS_USING_STDIO`, 3 and
    `DFS_FD_MAX`. -/
structure Config where
  first : ℕ
  max : ℕ

/-- What the file system or the heap answers: `notFound` stands for a path that cannot be normalised
    or has no file system, `fails` for an error of the file system, or an operation it lacks. -/
inductive Answer
  | ok
  | notFound
  | fails
  deriving DecidableEq

/-- A thread makes a call, or the `i`th of the running calls goes on. `use` stands for `read`, `write`,
    `fstat`, `readdir` and their like, `badSeek` for `lseek` with a bad `whence` or a negative
    offset. -/
inductive Act
  | opens (o : Opener)
  | close (fd : ℕ)
  | closedir (fd : ℕ)
  | use (fd : ℕ)
  | badSeek (fd : ℕ)
  | go (i : ℕ) (answer : Answer)

def State.setFd (s : State) (fd : ℕ) (d : DfsFd) : State :=
  { s with fdTable := update s.fdTable fd d }

variable (cfg : Config)

/-- `fd_new`: the descriptor that it finds. -/
def fdNew (s : State) : Option ℕ :=
  (List.range' cfg.first cfg.max).find? fun idx => ¬0 < (s.fdTable idx).refCount

/-- Whether `fd_get` finds the descriptor. -/
def valid (s : State) (fd : ℕ) : Bool :=
  cfg.first ≤ fd ∧ fd < cfg.max + cfg.first ∧ (s.fdTable fd).magic = dfsFdMagic

/-- `fd_get` -/
def fdGet (s : State) (fd : ℕ) : State :=
  s.setFd fd { s.fdTable fd with refCount := (s.fdTable fd).refCount + 1 }

/-- `fd_put` -/
def fdPut (s : State) (fd : ℕ) : State :=
  if (s.fdTable fd).refCount - 1 = 0 then s.setFd fd .zero
  else s.setFd fd { s.fdTable fd with refCount := (s.fdTable fd).refCount - 1 }

/-- The call goes on elsewhere. -/
def State.setCall (s : State) (i : ℕ) (c : Call) : State := { s with calls := s.calls.set i c }

/-- The call is over. -/
def State.leave (s : State) (i : ℕ) : State := { s with calls := s.calls.eraseIdx i }

/-- A call that has found its descriptor. -/
def State.enter (s : State) (fd refs : ℕ) (pc : Pc) : State :=
  { s with calls := ⟨fd, pc, refs⟩ :: s.calls }

/-- Where an opener goes on: to the references that it puts when the file is not opened. -/
def Opener.failed : Opener → Pc
  | .open => .put 2
  | .mkdir => .put 1
  | .opendir => .put 2

def Opener.done : Opener → Pc
  | .open => .returnFd
  | .mkdir => .fileClose .mkdir
  | .opendir => .malloc

/-- The references that are put when the file has been closed, and when it has not. -/
def Closer.puts : Closer → Bool → ℕ
  | .close, true => 2
  | .close, false => 1
  | .closedir, _ => 2
  | .mkdir, _ => 1
  | .opendir, _ => 2

/-- The call `c`, the `i`th, goes on. A successful `close` takes the reference of its caller. A null
    pointer to the descriptor or to the file system leads nowhere. -/
def goOn (s : State) (i : ℕ) (c : Call) (answer : Answer) : State :=
  match c.pc with
  | .get o =>
    if valid cfg s c.fd then
      (fdGet s c.fd).setCall i { c with pc := .fileOpen o, refs := c.refs + 1 }
    else s
  | .fileOpen o =>
    match answer with
    | .ok => (s.setFd c.fd { s.fdTable c.fd with fs := true }).setCall i { c with pc := o.done }
    | .notFound => s.setCall i { c with pc := o.failed }
    | .fails => (s.setFd c.fd .zero).setCall i { c with pc := o.failed }
  | .malloc =>
    s.setCall i { c with pc := if answer = .ok then .returnFd else .fileClose .opendir }
  | .fileClose closer =>
    if (s.fdTable c.fd).fs then
      if answer = .ok then
        let taken := if closer matches .close ∧ c.fd ∈ s.opened then 1 else 0
        { (s.setFd c.fd .zero).setCall i
            { c with pc := .put (closer.puts true), refs := c.refs + taken } with
          opened := if taken = 1 then s.opened.erase c.fd else s.opened }
      else s.setCall i { c with pc := .put (closer.puts false) }
    else s
  | .put 0 => s.leave i
  | .put 1 => (fdPut s c.fd).leave i
  | .put (n + 2) => (fdPut s c.fd).setCall i { c with pc := .put (n + 1), refs := c.refs - 1 }
  | .returnFd => { (fdPut s c.fd).leave i with opened := c.fd :: s.opened }

def step (s : State) : Act → State
  | .opens o =>
    match fdNew cfg s with
    | some fd => (s.setFd fd { s.fdTable fd with magic := dfsFdMagic, refCount := 1 }).enter fd 1
        (.get o)
    | none => s
  | .close fd => if valid cfg s fd then (fdGet s fd).enter fd 1 (.fileClose .close) else s
  | .closedir fd =>
    -- The directory that is closed has been opened; it is its caller's no more.
    if fd ∈ s.opened then
      if valid cfg s fd then
        { (fdGet s fd).enter fd 2 (.fileClose .closedir) with opened := s.opened.erase fd }
      else s
    else s
  | .use fd => if valid cfg s fd then (fdGet s fd).enter fd 1 (.put 1) else s
  | .badSeek fd => if valid cfg s fd then fdGet s fd else s
  | .go i answer =>
    match s.calls[i]? with
    | some c => goOn cfg s i c answer
    | none => s

/-- `dfs_init` -/
def start : State := ⟨fun _ => .zero, [], []⟩

/-! ### References -/

/-- The references that a call holds to a descriptor. -/
def Call.refsTo (fd : ℕ) (c : Call) : ℕ := if c.fd = fd then c.refs else 0

/-- The references to a descriptor: of the calls, and of whom it has been returned to. -/
def held (s : State) (fd : ℕ) : ℕ := (s.calls.map (Call.refsTo fd)).sum + s.opened.count fd

/-- Without calls, the descriptors in use are those that have been returned and not been closed; the
    count of each is the number of references to it; and one that `fd_new` would hand out has
    none. -/
structure Lifecycle (s : State) : Prop where
  used : s.calls = [] → ∀ fd, 0 < (s.fdTable fd).refCount ↔ fd ∈ s.opened
  counted : ∀ fd, (s.fdTable fd).refCount = held s fd
  fresh : ∀ fd, fdNew cfg s = some fd → fd ∉ s.opened ∧ ∀ c ∈ s.calls, c.refsTo fd = 0

/-- A step that clears no descriptor, and no call that ends with a reference. -/
def OpOk (s : State) : Act → Prop
  | .badSeek fd => valid cfg s fd = false
  | .go i answer => ∀ c, s.calls[i]? = some c →
    match c.pc with
    | .fileOpen _ => answer ≠ .fails
    | .fileClose _ => (s.fdTable c.fd).fs = true → answer ≠ .ok
    | .put 1 => c.refs = 1
    | _ => True
  | _ => True

variable {cfg} {s : State}

/-- What a descriptor counts beyond the references to it. -/
def balance (s : State) (fd : ℕ) : ℤ := (s.fdTable fd).refCount - held s fd

def State.Counted (s : State) : Prop := ∀ fd, balance s fd = 0

theorem counted_iff : s.Counted ↔ ∀ fd, (s.fdTable fd).refCount = held s fd :=
  forall_congr' fun _ => sub_eq_zero

/-- A descriptor that counts no reference has none, and one that counts some has some. -/
theorem lifecycle_iff : Lifecycle cfg s ↔ s.Counted := by
  rw [counted_iff]
  refine ⟨Lifecycle.counted, fun hcount => ⟨?_, hcount, ?_⟩⟩
  · intro hcalls fd
    rw [hcount, held, hcalls]
    simp [List.count_pos_iff]
  · intro fd hnew
    have hfree := List.find?_some hnew
    have hcount := hcount fd
    simp only [decide_eq_true_eq, not_lt] at hfree
    have hheld : held s fd = 0 := by omega
    obtain ⟨hcalls, hopened⟩ := Nat.add_eq_zero_iff.1 hheld
    refine ⟨List.count_eq_zero.1 hopened, fun c hc => ?_⟩
    exact List.sum_eq_zero_iff.1 hcalls _ (List.mem_map_of_mem hc)

/-! ### What a step does to the references -/

theorem sum_set {l : List ℕ} {i n : ℕ} (h : l[i]? = some n) (m : ℕ) :
    (l.set i m).sum + n = l.sum + m := by
  induction l generalizing i with
  | nil => cases h
  | cons x l ih =>
    cases i with
    | zero =>
      cases h
      simp only [List.set_cons_zero, List.sum_cons]
      omega
    | succ i =>
      have := ih (i := i) h
      simp only [List.set_cons_succ, List.sum_cons]
      omega

theorem sum_eraseIdx {l : List ℕ} {i n : ℕ} (h : l[i]? = some n) :
    (l.eraseIdx i).sum + n = l.sum := by
  induction l generalizing i with
  | nil => cases h
  | cons x l ih =>
    cases i with
    | zero =>
      cases h
      simp only [List.eraseIdx_cons_zero, List.sum_cons]
      omega
    | succ i =>
      have := ih (i := i) h
      simp only [List.eraseIdx_cons_succ, List.sum_cons]
      omega

@[simp] theorem held_setFd (fd x : ℕ) (d : DfsFd) : held (s.setFd fd d) x = held s x := rfl

theorem held_enter (fd refs x : ℕ) (pc : Pc) :
    held (s.enter fd refs pc) x = held s x + if fd = x then refs else 0 := by
  simp only [held, State.enter, List.map_cons, List.sum_cons, Call.refsTo]
  omega

theorem held_setCall {i : ℕ} {c : Call} (h : s.calls[i]? = some c) (c' : Call) (x : ℕ) :
    held (s.setCall i c') x + c.refsTo x = held s x + c'.refsTo x := by
  have hi : (s.calls.map (Call.refsTo x))[i]? = some (c.refsTo x) := by
    rw [List.getElem?_map, h]
    rfl
  have := sum_set hi (c'.refsTo x)
  simp only [held, State.setCall, List.map_set]
  omega

theorem held_leave {i : ℕ} {c : Call} (h : s.calls[i]? = some c) (x : ℕ) :
    held (s.leave i) x + c.refsTo x = held s x := by
  have hi : (s.calls.map (Call.refsTo x))[i]? = some (c.refsTo x) := by
    rw [List.getElem?_map, h]
    rfl
  have := sum_eraseIdx hi
  simp only [held, State.leave, ← List.eraseIdx_map]
  omega

/-- The references that a call holds where it is. -/
def Pc.Holds : Pc → ℕ → Prop
  | .get _, refs => refs = 1
  | .fileOpen _, refs | .malloc, refs | .returnFd, refs => refs = 2
  | .fileClose .close, refs => refs = 1
  | .fileClose _, refs => refs = 2
  | .put n, refs => n ≠ 0 ∧ n ≤ refs

theorem refs_le_held {c : Call} (h : c ∈ s.calls) : c.refs ≤ held s c.fd := by
  have hle := List.single_le_sum (fun _ _ => Nat.zero_le _) _
    (List.mem_map_of_mem (f := Call.refsTo c.fd) h)
  rw [Call.refsTo, if_pos rfl] at hle
  exact hle.trans (Nat.le_add_right _ _)

/-! ### The counts -/

@[simp] theorem refCount_setFd (fd x : ℕ) (d : DfsFd) :
    ((s.setFd fd d).fdTable x).refCount
      = if x = fd then d.refCount else (s.fdTable x).refCount := by
  by_cases h : x = fd <;> simp [State.setFd, h]

@[simp] theorem refCount_fdGet (fd x : ℕ) :
    ((fdGet s fd).fdTable x).refCount
      = (s.fdTable x).refCount + if x = fd then 1 else 0 := by
  by_cases h : x = fd <;> simp [fdGet, h]

@[simp] theorem refCount_fdPut (fd x : ℕ) :
    ((fdPut s fd).fdTable x).refCount
      = (s.fdTable x).refCount - if x = fd then 1 else 0 := by
  unfold fdPut
  by_cases hlast : (s.fdTable fd).refCount - 1 = 0
  · by_cases h : x = fd
    · subst h
      simp [hlast, DfsFd.zero]
    · simp [hlast, h]
  · by_cases h : x = fd <;> simp [hlast, h]

@[simp] theorem fdPut_calls (fd : ℕ) : (fdPut s fd).calls = s.calls := by
  unfold fdPut
  split <;> rfl

@[simp] theorem fdPut_opened (fd : ℕ) : (fdPut s fd).opened = s.opened := by
  unfold fdPut
  split <;> rfl

@[simp] theorem held_fdGet (fd x : ℕ) : held (fdGet s fd) x = held s x := rfl

@[simp] theorem held_fdPut (fd x : ℕ) : held (fdPut s fd) x = held s x := by
  simp [held]

theorem balance_setFd (fd x : ℕ) (d : DfsFd) : balance (s.setFd fd d) x
    = balance s x + if x = fd then d.refCount - (s.fdTable fd).refCount else 0 := by
  by_cases h : x = fd
  · subst h
    simp [balance]
  · simp [balance, h]

theorem balance_fdGet (fd x : ℕ) :
    balance (fdGet s fd) x = balance s x + if x = fd then 1 else 0 := by
  simp only [balance, refCount_fdGet, held_fdGet]
  omega

theorem balance_fdPut (fd x : ℕ) :
    balance (fdPut s fd) x = balance s x - if x = fd then 1 else 0 := by
  simp only [balance, refCount_fdPut, held_fdPut]
  omega

variable {i : ℕ} {c : Call}

theorem balance_setCall (h : s.calls[i]? = some c) (pc : Pc) (refs x : ℕ) :
    balance (s.setCall i ⟨c.fd, pc, refs⟩) x
      = balance s x - if x = c.fd then (refs : ℤ) - c.refs else 0 := by
  have hheld := held_setCall h ⟨c.fd, pc, refs⟩ x
  have htable : (s.setCall i ⟨c.fd, pc, refs⟩).fdTable = s.fdTable := rfl
  by_cases hx : x = c.fd
  · subst hx
    simp only [Call.refsTo, if_true] at hheld
    simp only [balance, htable, if_true]
    omega
  · simp only [Call.refsTo, if_neg (Ne.symm hx)] at hheld
    simp only [balance, htable, if_neg hx]
    omega

theorem balance_leave (h : s.calls[i]? = some c) (x : ℕ) :
    balance (s.leave i) x = balance s x + if x = c.fd then (c.refs : ℤ) else 0 := by
  have hheld := held_leave h x
  have htable : (s.leave i).fdTable = s.fdTable := rfl
  by_cases hx : x = c.fd
  · subst hx
    simp only [Call.refsTo, if_true] at hheld
    simp only [balance, htable, if_true]
    omega
  · simp only [Call.refsTo, if_neg (Ne.symm hx)] at hheld
    simp only [balance, htable, if_neg hx]
    omega

theorem balance_enter (fd refs x : ℕ) (pc : Pc) :
    balance (s.enter fd refs pc) x = balance s x - if x = fd then (refs : ℤ) else 0 := by
  have hheld := held_enter (s := s) fd refs x pc
  have htable : (s.enter fd refs pc).fdTable = s.fdTable := rfl
  by_cases hx : x = fd
  · subst hx
    simp only [if_true] at hheld
    simp only [balance, htable, if_true]
    omega
  · simp only [if_neg (Ne.symm hx)] at hheld
    simp only [balance, htable, if_neg hx]
    omega

/-- The descriptor is returned. -/
theorem balance_return (fd x : ℕ) :
    balance { s with opened := fd :: s.opened } x = balance s x - if x = fd then 1 else 0 := by
  by_cases hx : x = fd
  · subst hx
    simp [balance, held]
    omega
  · simp [balance, held, List.count_cons_of_ne (Ne.symm hx), hx]

/-- The descriptor is taken back. -/
theorem balance_take {fd : ℕ} (h : fd ∈ s.opened) (x : ℕ) :
    balance { s with opened := s.opened.erase fd } x
      = balance s x + if x = fd then 1 else 0 := by
  have hpos : 0 < s.opened.count fd := List.count_pos_iff.2 h
  by_cases hx : x = fd
  · subst hx
    simp only [balance, held, List.count_erase_self, if_true]
    omega
  · simp [balance, held, List.count_erase_of_ne hx, hx]

/-- Other descriptors stay counted. -/
theorem counted_iff_at {s' : State} (fd : ℕ) (hs : s.Counted)
    (hrest : ∀ x, x ≠ fd → balance s' x = balance s x) : s'.Counted ↔ balance s' fd = 0 := by
  refine ⟨fun h => h fd, fun h x => ?_⟩
  by_cases hx : x = fd
  · rwa [hx]
  · rw [hrest x hx]
    exact hs x

/-- A descriptor is cleared under a call. -/
theorem not_counted_of_cleared {s : State} {c : Call} (hc : c ∈ s.calls) (hpos : 0 < c.refs)
    (hclear : (s.fdTable c.fd).refCount = 0) : ¬s.Counted := by
  intro hs
  have hcount := counted_iff.1 hs c.fd
  have hle := refs_le_held hc
  omega

theorem counted_goOn (hs : s.Counted) (hholds : c.pc.Holds c.refs) (hc : s.calls[i]? = some c)
    (answer : Answer) : (goOn cfg s i c answer).Counted ↔
      match c.pc with
      | .fileOpen _ => answer ≠ .fails
      | .fileClose _ => (s.fdTable c.fd).fs = true → answer ≠ .ok
      | .put 1 => c.refs = 1
      | _ => True := by
  have hput : (fdPut s c.fd).calls[i]? = some c := by rwa [fdPut_calls]
  cases hpc : c.pc with
  | get o =>
    simp only [goOn, hpc, iff_true]
    split
    · intro x
      rw [balance_setCall (s := fdGet s c.fd) hc, balance_fdGet, hs x]
      split
      · push_cast
        omega
      · rfl
    · exact hs
  | fileOpen o =>
    rw [hpc] at hholds
    cases answer with
    | ok =>
      simp only [goOn, hpc, ne_eq, reduceCtorEq, not_false_eq_true, iff_true]
      intro x
      rw [balance_setCall (s := s.setFd _ _) hc, balance_setFd, hs x]
      split <;> simp
    | notFound =>
      simp only [goOn, hpc, ne_eq, reduceCtorEq, not_false_eq_true, iff_true]
      intro x
      rw [balance_setCall hc, hs x]
      split <;> omega
    | fails =>
      simp only [goOn, hpc, ne_eq, not_true_eq_false, iff_false]
      have hi : i < s.calls.length := (List.getElem?_eq_some_iff.1 hc).1
      have hrefs : c.refs = 2 := hholds
      exact not_counted_of_cleared (List.mem_set hi ⟨c.fd, o.failed, c.refs⟩)
        (hrefs ▸ Nat.two_pos) (by simp [State.setCall, State.setFd, DfsFd.zero])
  | malloc =>
    simp only [goOn, hpc, iff_true]
    intro x
    rw [balance_setCall hc, hs x]
    split <;> omega
  | fileClose closer =>
    rw [hpc] at hholds
    simp only [goOn, hpc]
    cases hfs : (s.fdTable c.fd).fs with
    | false =>
      simp only [Bool.false_eq_true, if_false, false_imp_iff, iff_true]
      exact hs
    | true =>
      by_cases hanswer : answer = .ok
      · simp only [hanswer, if_true, ne_eq, not_true_eq_false, imp_false, iff_false]
        have hi : i < s.calls.length := (List.getElem?_eq_some_iff.1 hc).1
        have hpos : 0 < c.refs := by cases closer <;> simp only [Pc.Holds] at hholds <;> omega
        exact not_counted_of_cleared (List.mem_set hi _) (Nat.lt_add_right _ hpos)
          (by simp [State.setCall, State.setFd, DfsFd.zero])
      · simp only [hanswer, if_true, if_false, ne_eq, not_false_eq_true, imp_true_iff, iff_true]
        intro x
        rw [balance_setCall hc, hs x]
        split <;> omega
  | put n =>
    rw [hpc] at hholds
    match n with
    | 0 => exact absurd rfl hholds.1
    | 1 =>
      simp only [goOn, hpc]
      rw [counted_iff_at c.fd hs]
      · rw [balance_leave hput, balance_fdPut, hs, if_pos rfl, if_pos rfl]
        omega
      · intro x hx
        rw [balance_leave hput, balance_fdPut, if_neg hx, if_neg hx]
        omega
    | n + 2 =>
      simp only [goOn, hpc, iff_true]
      intro x
      have hrefs : 1 ≤ c.refs := (Nat.le_add_left 1 (n + 1)).trans hholds.2
      rw [balance_setCall hput, balance_fdPut, hs x]
      split
      · push_cast [hrefs]
        omega
      · rfl
  | returnFd =>
    rw [hpc] at hholds
    simp only [goOn, hpc, iff_true]
    intro x
    have hopened : s.opened = ((fdPut s c.fd).leave i).opened := (fdPut_opened c.fd).symm
    have hrefs : c.refs = 2 := hholds
    rw [hopened, balance_return, balance_leave hput, balance_fdPut, hs x, hrefs]
    split <;> omega

/-! ### Runs -/

/-- The references are counted, and each call holds those that it is going to put. -/
structure Inv (s : State) : Prop where
  counted : s.Counted
  holds : ∀ c ∈ s.calls, c.pc.Holds c.refs

theorem inv_start : Inv start where
  counted _ := rfl
  holds _ hc := nomatch hc

theorem Opener.failed_holds (o : Opener) : o.failed.Holds 2 := by
  cases o <;> simp [Opener.failed, Pc.Holds]

theorem Opener.done_holds (o : Opener) : o.done.Holds 2 := by
  cases o <;> rfl

theorem Closer.puts_holds {closer : Closer} {refs : ℕ} (h : (Pc.fileClose closer).Holds refs) :
    (Pc.put (closer.puts false)).Holds refs := by
  cases closer <;> simp only [Pc.Holds, Closer.puts] at h ⊢ <;> omega

theorem holds_set {c' : Call} (hs : ∀ c ∈ s.calls, c.pc.Holds c.refs) (h : c'.pc.Holds c'.refs) :
    ∀ c ∈ s.calls.set i c', c.pc.Holds c.refs := by
  intro c hc
  rcases List.mem_or_eq_of_mem_set hc with hold | rfl
  · exact hs c hold
  · exact h

theorem holds_eraseIdx (hs : ∀ c ∈ s.calls, c.pc.Holds c.refs) :
    ∀ c ∈ s.calls.eraseIdx i, c.pc.Holds c.refs :=
  fun c hc => hs c (List.mem_of_mem_eraseIdx hc)

theorem holds_goOn (hs : ∀ c ∈ s.calls, c.pc.Holds c.refs) (hc : s.calls[i]? = some c)
    {answer : Answer} (hok : OpOk cfg s (.go i answer)) :
    ∀ c' ∈ (goOn cfg s i c answer).calls, c'.pc.Holds c'.refs := by
  have hholds := hs c (List.mem_of_getElem? hc)
  have hok := hok c hc
  cases hpc : c.pc with
  | get o =>
    rw [hpc] at hholds
    have hrefs : c.refs = 1 := hholds
    simp only [goOn, hpc]
    split
    · exact holds_set hs (congrArg (· + 1) hrefs)
    · exact hs
  | fileOpen o =>
    rw [hpc] at hholds
    have hrefs : c.refs = 2 := hholds
    cases answer with
    | ok =>
      simp only [goOn, hpc]
      exact holds_set hs (hrefs ▸ o.done_holds)
    | notFound =>
      simp only [goOn, hpc]
      exact holds_set hs (hrefs ▸ o.failed_holds)
    | fails =>
      simp only [hpc] at hok
      exact absurd rfl hok
  | malloc =>
    rw [hpc] at hholds
    simp only [goOn, hpc]
    refine holds_set hs ?_
    split <;> exact hholds
  | fileClose closer =>
    rw [hpc] at hholds
    simp only [hpc] at hok
    simp only [goOn, hpc]
    by_cases hfs : (s.fdTable c.fd).fs = true
    · rw [if_pos hfs, if_neg (hok hfs)]
      exact holds_set hs (Closer.puts_holds hholds)
    · rw [if_neg hfs]
      exact hs
  | put n =>
    rw [hpc] at hholds
    match n with
    | 0 => exact absurd rfl hholds.1
    | 1 =>
      simp only [goOn, hpc, State.leave, fdPut_calls]
      exact holds_eraseIdx hs
    | n + 2 =>
      simp only [goOn, hpc, State.setCall, fdPut_calls]
      exact holds_set hs ⟨Nat.succ_ne_zero n, Nat.le_sub_one_of_lt hholds.2⟩
  | returnFd =>
    simp only [goOn, hpc, State.leave, fdPut_calls]
    exact holds_eraseIdx hs

theorem Inv.enter (inv : Inv s) {s' : State} {fd refs : ℕ} {pc : Pc}
    (hbalance : ∀ x, balance s' x = balance s x + if x = fd then (refs : ℤ) else 0)
    (hcalls : s'.calls = s.calls) (h : pc.Holds refs) : Inv (s'.enter fd refs pc) where
  counted x := by
    rw [balance_enter, hbalance, inv.counted x]
    split <;> omega
  holds c hc := by
    rcases List.mem_cons.1 hc with rfl | hold
    · exact h
    · exact inv.holds c (hcalls ▸ hold)

theorem Inv.opens (inv : Inv s) (o : Opener) : Inv (step cfg s (.opens o)) := by
  simp only [step]
  cases hnew : fdNew cfg s with
  | none => exact inv
  | some fd =>
    have hfree := List.find?_some hnew
    simp only [decide_eq_true_eq, not_lt] at hfree
    -- A slot that counts nothing is held by no one.
    have hzero : (s.fdTable fd).refCount = 0 := by
      have := counted_iff.1 inv.counted fd
      omega
    refine inv.enter (fun x => ?_) rfl rfl
    rw [balance_setFd, hzero]
    rfl

theorem Inv.step (inv : Inv s) {a : Act} (hok : OpOk cfg s a) : Inv (step cfg s a) := by
  cases a with
  | opens o => exact inv.opens o
  | close fd =>
    simp only [Dfs.step]
    split
    · exact inv.enter (balance_fdGet fd) rfl rfl
    · exact inv
  | closedir fd =>
    simp only [Dfs.step]
    split
    · rename_i hopened
      split
      · have htake := balance_take (s := fdGet s fd) hopened
        have hbalance (x : ℕ) : balance { fdGet s fd with opened := s.opened.erase fd } x
            = balance s x + if x = fd then ((2 : ℕ) : ℤ) else 0 := by
          rw [show s.opened = (fdGet s fd).opened from rfl, htake, balance_fdGet]
          split <;> omega
        exact inv.enter hbalance rfl rfl
      · exact inv
    · exact inv
  | use fd =>
    simp only [Dfs.step]
    split
    · exact inv.enter (balance_fdGet fd) rfl ⟨one_ne_zero, le_rfl⟩
    · exact inv
  | badSeek fd =>
    have hinvalid : valid cfg s fd = false := hok
    simpa [Dfs.step, hinvalid] using inv
  | go i answer =>
    simp only [Dfs.step]
    split
    · rename_i c hc
      have hholds := inv.holds c (List.mem_of_getElem? hc)
      exact ⟨(counted_goOn inv.counted hholds hc answer).2 (hok c hc), holds_goOn inv.holds hc hok⟩
    · exact inv

/-- Each of the other steps loses or makes up a reference. -/
theorem Inv.opOk (inv : Inv s) {a : Act} (h : (Dfs.step cfg s a).Counted) : OpOk cfg s a := by
  cases a with
  | opens | close | closedir | use => trivial
  | badSeek fd =>
    by_contra hvalid
    have hvalid : valid cfg s fd = true := by simpa [OpOk] using hvalid
    have hfd := h fd
    simp only [Dfs.step, hvalid, if_true] at hfd
    rw [balance_fdGet, inv.counted fd] at hfd
    simp at hfd
  | go i answer =>
    intro c hc
    simp only [Dfs.step, hc] at h
    exact (counted_goOn inv.counted (inv.holds c (List.mem_of_getElem? hc)) hc answer).1 h

variable (cfg)

/-- Whatever calls run, and in whatever order: each state has its references counted, and the
    descriptors in use are those returned, as long as the steps are such that clear none. -/
theorem lifecycle_of_run (as : List Act) :
    Along (step cfg) (fun s a => Lifecycle cfg (step cfg s a)) start as
      ↔ Along (step cfg) (OpOk cfg) start as := by
  refine Along.iff (I := Inv) (fun s a inv => ?_) (fun s a inv hok => inv.step hok) as inv_start
  rw [lifecycle_iff]
  exact ⟨inv.opOk, fun hok => (inv.step hok).counted⟩

/-- A file is opened while another is being closed, and gets its descriptor: the references that
    `close` puts are then those of the new file, which is open without a descriptor in use. -/
theorem not_lifecycle_of_close : ¬Lifecycle ⟨0, 16⟩ (List.foldl (step ⟨0, 16⟩) start
    [.opens .open, .go 0 .ok, .go 0 .ok, .go 0 .ok, .close 0, .go 0 .ok, .opens .open, .go 0 .ok,
      .go 0 .ok, .go 1 .ok, .go 1 .ok, .go 0 .ok]) := by
  intro h
  have hopened := (h.used (by decide +kernel) 0).2 (by decide +kernel)
  revert hopened
  decide +kernel

end EasyCore.Dfs
