import EasyCore.Kernel.Word
import EasyCore.Kernel.Waiting
import EasyCore.Lib.Chain
import EasyCore.Lib.Runs

/-! Memory pools (`src/mempool.c`).

    A block starts with a header: the pointer to the next free block while it is free, and to its
    pool while it is handed out. A blocking `rt_mp_alloc` is two steps, like `rt_sem_take`, but a
    caller that is woken takes whatever is on the free list then. -/

namespace EasyCore.MemPool
open Function EasyCore.Links EasyCore.Kernel EasyCore.Ipc EasyCore.Runs EasyCore.Chain

/-- The header of a block. -/
inductive Header (κ : Type*)
  | next (p : Option ℕ)
  | pool (k : κ)
  deriving DecidableEq

/-- `struct rt_mempool` and its blocks, which are numbered. The counts are 32 bits wide. -/
structure RtMempool (κ : Type*) where
  size : ℕ
  blockSize : ℕ
  blockTotalCount : ℕ
  blockFreeCount : ℕ
  suspendThreadCount : ℕ
  blockList : Option ℕ
  header : ℕ → Header κ

/-- The threads and the pools. -/
structure State (κ τ : Type*) where
  tasks : Tasks κ τ
  mp : κ → RtMempool κ

variable {κ τ : Type*}

/-- The number of blocks that fit. -/
def blockTotal (size blockSize : ℕ) : ℕ :=
  rtAlignDown size / ((rtAlign blockSize + 4) % 2 ^ 32)

/-- `rt_mp_init`, on memory with the headers `junk`. Without a single block the last store of the
    function goes in front of the memory. -/
def rtMpInit (junk : ℕ → Header κ) (size blockSize : ℕ) : RtMempool κ :=
  let total := blockTotal size blockSize
  let header := (List.range total).foldl
    (fun h offset => update h offset (.next (some (offset + 1)))) junk
  { size := rtAlignDown size
    blockSize := rtAlign blockSize
    blockTotalCount := total
    blockFreeCount := total
    suspendThreadCount := 0
    blockList := some 0
    header := if total = 0 then header else update header (total - 1) (.next none) }

/-- A pointer that must not be used is: that of the empty free list, or of an empty suspend list. -/
inductive Crash
  | emptyFreeList
  | noWaiter
  deriving DecidableEq

/-- How far a call got. -/
inductive Outcome
  | block (block : ℕ)
  | null
  | waits
  | freed
  | crash (c : Crash)
  deriving DecidableEq

section Calls
variable [DecidableEq κ] [DecidableEq τ]

def State.setMp (s : State κ τ) (k : κ) (mp : RtMempool κ) : State κ τ :=
  { s with mp := update s.mp k mp }

/-- Take the first block off the free list. -/
def mpTake (k : κ) (s : State κ τ) : Outcome × State κ τ :=
  let mp := s.mp k
  match mp.blockList with
  | none => (.crash .emptyFreeList, s)
  | some block => match mp.header block with
    | .pool _ => (.crash .emptyFreeList, s)
    | .next p => (.block block, s.setMp k { mp with
      blockFreeCount := sub32 mp.blockFreeCount 1
      blockList := p
      header := update mp.header block (.pool k) })

/-- `rt_mp_alloc` up to its `rt_schedule`. The caller is a thread or, without one, an interrupt
    handler, which must not wait. -/
def rtMpAlloc (c : Option τ) (k : κ) (time : ℤ) (s : State κ τ) : Option (Outcome × State κ τ) :=
  let mp := s.mp k
  if mp.blockFreeCount ≠ 0 then some (mpTake k s)
  else if time = 0 then some (.null, s)
  else c.map fun thread => (.waits,
    { s.setMp k { mp with suspendThreadCount := (mp.suspendThreadCount + 1) % 2 ^ 32 } with
      tasks := (s.tasks.suspendFront thread k).startTimer thread time })

/-- `rt_mp_alloc` from its `rt_schedule` on. -/
def mpGoOn (thread : τ) (k : κ) (s : State κ τ) : Outcome × State κ τ :=
  if s.tasks.error thread ≠ rtEok then (.null, s) else mpTake k s

/-- `rt_mp_free` puts the block on the free list of the pool that its header points to. -/
def mpLink (block : ℕ) (mp : RtMempool κ) : RtMempool κ :=
  { mp with
    blockFreeCount := (mp.blockFreeCount + 1) % 2 ^ 32
    header := update mp.header block (.next mp.blockList)
    blockList := some block }

/-- `rt_mp_free` of a block whose header points to the pool `k`. -/
def rtMpFree (k : κ) (block : ℕ) (s : State κ τ) : Option (Outcome × State κ τ) :=
  if (s.mp k).header block = .pool k then
    let mp := mpLink block (s.mp k)
    if mp.suspendThreadCount > 0 then match s.tasks.suspended k with
      | [] => some (.crash .noWaiter, s.setMp k mp)
      | thread :: _ => some (.freed,
        { s.setMp k { mp with suspendThreadCount := sub32 mp.suspendThreadCount 1 } with
          tasks := (s.tasks.setError thread rtEok).resume thread })
    else some (.freed, s.setMp k mp)
  else none

end Calls

/-! ### Runs -/

/-- What happens: calls by a thread or an interrupt handler, a thread going on after the
    `rt_schedule` of its `rt_mp_alloc`, and the timer of a thread. -/
inductive Op (κ τ : Type*)
  | alloc (c : Option τ) (k : κ) (time : ℤ)
  | goOn (t : τ)
  | free (c : Option τ) (k : κ) (block : ℕ)
  | expire (t : τ)

/-- The state, the pool on which the call of a thread waits, the blocks handed out and to whom, and
    whether the system has crashed. -/
structure Run (κ τ : Type*) where
  os : State κ τ
  pc : τ → Option κ
  held : κ → List (ℕ × Option τ)
  crashed : Option Crash

section Exec
variable [DecidableEq κ] [DecidableEq τ]

/-- The place of a caller. -/
def setPc (pc : τ → Option κ) (c : Option τ) (k : Option κ) : τ → Option κ :=
  c.elim pc fun t => update pc t k

/-- After a part of the call of `c`. -/
def Run.after (r : Run κ τ) (c : Option τ) (k : κ) : Outcome × State κ τ → Run κ τ
  | (.block block, os) => { r with
      os := os
      pc := setPc r.pc c none
      held := update r.held k ((block, c) :: r.held k) }
  | (.waits, os) => { r with os := os, pc := setPc r.pc c (some k) }
  | (.crash x, os) => { r with os := os, crashed := some x }
  | (_, os) => { r with os := os, pc := setPc r.pc c none }

/-- One step of a run. A block may be freed by any caller, once. -/
def Run.exec (r : Run κ τ) (op : Op κ τ) : Option (Option Outcome × Run κ τ) :=
  if r.crashed ≠ none then none
  else match op with
    | .alloc c k time =>
      if r.os.tasks.Free r.pc c then
        (rtMpAlloc c k time r.os).map fun o => (some o.1, r.after c k o)
      else none
    | .goOn t => (r.pc t).bind fun k =>
      if r.os.tasks.stat t = .ready then
        let o := mpGoOn t k r.os
        some (some o.1, r.after (some t) k o)
      else none
    | .free c k block =>
      if r.os.tasks.Free r.pc c ∧ block ∈ (r.held k).map Prod.fst then
        (rtMpFree k block r.os).map fun o => (some o.1,
          { r.after c k o with
            held := update r.held k ((r.held k).eraseP fun x => x.1 = block) })
      else none
    | .expire t => (r.os.tasks.expire t).map fun tasks =>
        (none, { r with os := { r.os with tasks := tasks } })

/-- The pools just initialised, with memory of the sizes `size`, nobody waiting. -/
def Run.Init (size blockSize : κ → RtSize) (r : Run κ τ) : Prop :=
  (∀ k, r.os.tasks.suspended k = []) ∧
    (∀ k, ∃ junk, r.os.mp k = rtMpInit junk (size k) (blockSize k)) ∧
    (∀ t, r.pc t = none) ∧ (∀ k, r.held k = []) ∧ r.crashed = none

/-- The runs of any number of threads on any number of pools. -/
def system (size blockSize : κ → RtSize) : System (Run κ τ) (Op κ τ) where
  init := Run.Init size blockSize
  step r op r' := ∃ e, r.exec op = some (e, r')

end Exec

/-! ### The blocks of one pool -/

/-- The pointer in a header. -/
def Header.ptr : Header κ → Option ℕ
  | .next p => p
  | .pool _ => none

/-- The blocks of a pool: `F` is the free list, `H` are the blocks handed out. -/
structure Layout (mp : RtMempool κ) (k : κ) (F H : List ℕ) : Prop where
  free : Chained (fun i => (mp.header i).ptr) mp.blockList F
  next : ∀ i ∈ F, mp.header i = .next (mp.header i).ptr
  pool : ∀ i ∈ H, mp.header i = .pool k
  count : mp.blockFreeCount = F.length
  perm : (F ++ H).Perm (List.range mp.blockTotalCount)

namespace Layout
variable {mp : RtMempool κ} {k : κ} {F H : List ℕ} {i : ℕ}

theorem nodup (l : Layout mp k F H) : (F ++ H).Nodup := l.perm.nodup_iff.2 List.nodup_range

theorem not_mem (l : Layout mp k F H) (hi : i ∈ H) : i ∉ F := fun hF =>
  (List.nodup_append.1 l.nodup).2.2 i hF i hi rfl

theorem length_eq (l : Layout mp k F H) : F.length + H.length = mp.blockTotalCount := by
  simpa using l.perm.length_eq

/-- The first free block is handed out. -/
theorem take (l : Layout mp k (i :: F) H) {n : ℕ} (hn : n = F.length) :
    Layout { mp with
      blockFreeCount := n
      blockList := (mp.header i).ptr
      header := update mp.header i (.pool k) } k F (i :: H) := by
  obtain ⟨hiF, -⟩ := List.nodup_cons.1 (List.nodup_append.1 l.nodup).1
  have hne : ∀ j ∈ F, j ≠ i := fun j hj e => hiF (e ▸ hj)
  refine ⟨l.free.2.congr fun j hj => ?_, fun j hj => ?_, fun j hj => ?_, hn, ?_⟩
  · simp [update_of_ne (hne j hj)]
  · simp only [update_of_ne (hne j hj)]
    exact l.next j (List.mem_cons_of_mem i hj)
  · rcases List.mem_cons.1 hj with rfl | hj
    · simp
    · have hji : j ≠ i := fun e => l.not_mem hj (e ▸ List.mem_cons_self)
      simp only [update_of_ne hji]
      exact l.pool j hj
  · exact List.perm_middle.trans l.perm

/-- A block handed out is freed. -/
theorem give {H' : List ℕ} (l : Layout mp k F H) (hH : H.Perm (i :: H'))
    (hlt : mp.blockTotalCount < 2 ^ 32) : Layout (mpLink i mp) k (i :: F) H' := by
  have hi : i ∈ H := hH.mem_iff.2 List.mem_cons_self
  have hiF := l.not_mem hi
  have hne : ∀ j ∈ F, j ≠ i := fun j hj e => hiF (e ▸ hj)
  have hlen := l.length_eq
  have hHlen := hH.length_eq
  rw [List.length_cons] at hHlen
  have hnd : (i :: H').Nodup := hH.nodup_iff.1 (List.nodup_append.1 l.nodup).2.1
  refine ⟨⟨rfl, ?_⟩, fun j hj => ?_, fun j hj => ?_, ?_, ?_⟩
  · simp only [mpLink, update_self]
    exact l.free.congr fun j hj => by simp [update_of_ne (hne j hj)]
  · rcases List.mem_cons.1 hj with rfl | hj
    · simp [mpLink, Header.ptr]
    · simp only [mpLink, update_of_ne (hne j hj)]
      exact l.next j hj
  · have hji : j ≠ i := fun e => (List.nodup_cons.1 hnd).1 (e ▸ hj)
    simp only [mpLink, update_of_ne hji]
    exact l.pool j (hH.mem_iff.2 (List.mem_cons_of_mem i hj))
  · simp only [mpLink, l.count, List.length_cons]
    omega
  · exact (List.perm_middle.symm.trans (hH.symm.append_left F)).trans l.perm

/-- The waiters do not matter. -/
theorem setWaiters (l : Layout mp k F H) (n : ℕ) :
    Layout { mp with suspendThreadCount := n } k F H :=
  ⟨l.free, l.next, l.pool, l.count, l.perm⟩

end Layout

/-- The loop of `rt_mp_init`. -/
theorem initLoop (junk f : ℕ → Header κ) (n i : ℕ) :
    (List.range n).foldl (fun h offset => update h offset (f offset)) junk i =
      if i < n then f i else junk i := by
  induction n with
  | zero => simp
  | succ n ih =>
    rw [List.range_succ, List.foldl_append, List.foldl_cons, List.foldl_nil]
    by_cases hi : i = n
    · subst hi
      simp
    · rw [update_of_ne hi, ih]
      exact if_congr (by omega) rfl rfl

/-- Pointers from each node to the next. -/
theorem chained_range' {next : ℕ → Option ℕ} : ∀ (n a : ℕ),
    (∀ i, a ≤ i → i < a + n → next i = some (i + 1)) → next (a + n) = none →
    Chained next (some a) (List.range' a (n + 1))
  | 0, a, _, hl => ⟨rfl, hl⟩
  | n + 1, a, hn, hl => by
    refine ⟨rfl, ?_⟩
    rw [hn a (le_refl a) (by omega)]
    exact chained_range' n (a + 1) (fun i hi h => hn i (by omega) (by omega))
      (by rw [← hl]; congr 1; omega)

/-- A pool with a block at least is initialised with all blocks free. -/
theorem rtMpInit_layout {junk : ℕ → Header κ} {size blockSize : ℕ} (k : κ)
    (hpos : 0 < blockTotal size blockSize) :
    ∃ F, Layout (rtMpInit junk size blockSize) k F [] := by
  unfold rtMpInit
  obtain ⟨n, hn⟩ := Nat.exists_eq_add_of_lt hpos
  rw [Nat.zero_add] at hn
  dsimp only
  rw [hn, if_neg (Nat.succ_ne_zero n), Nat.add_sub_cancel]
  generalize hh : update ((List.range (n + 1)).foldl
    (fun h offset => update h offset (.next (some (offset + 1)))) junk) n (.next none) = header
  have hlast : header n = .next none := by rw [← hh, update_self]
  have hheader : ∀ i < n, header i = .next (some (i + 1)) := by
    intro i hi
    rw [← hh, update_of_ne (by omega), initLoop, if_pos (by omega)]
  refine ⟨List.range (n + 1), ⟨?_, fun i hi => ?_, by simp, ?_, ?_⟩⟩
  · rw [List.range_eq_range']
    refine chained_range' n 0 (fun i _ hi => ?_) ?_
    · simp [hheader i (by omega), Header.ptr]
    · simp [hlast, Header.ptr]
  · rcases Nat.lt_succ_iff_lt_or_eq.1 (List.mem_range.1 hi) with hi | rfl
    · simp [hheader i hi, Header.ptr]
    · simp [hlast, Header.ptr]
  · rw [List.length_range]
  · rw [List.append_nil]

/-! ### All pools -/

section Steps
variable [DecidableEq κ] [DecidableEq τ]

/-- The blocks handed out. -/
def Run.blocks (r : Run κ τ) (k : κ) : List ℕ := (r.held k).map Prod.fst

/-- What a pool promises: the counter counts the free list, each block is on it or handed out, and
    once, a block handed out knows its pool, and no pointer is used that is none. -/
structure Safe (r : Run κ τ) (F : κ → List ℕ) : Prop where
  layout : ∀ k, Layout (r.os.mp k) k (F k) (r.blocks k)
  crashed : r.crashed = none

/-- A caller that has been woken finds a block, and no waiter has been lost when a block is
    freed. -/
def Run.opOk (r : Run κ τ) : Op κ τ → Prop
  | .alloc _ _ _ | .expire _ => True
  | .goOn t => ∀ k ∈ r.pc t, r.os.tasks.error t = rtEok → 0 < (r.os.mp k).blockFreeCount
  | .free _ k _ => 0 < (r.os.mp k).suspendThreadCount → r.os.tasks.suspended k ≠ []

instance (r : Run κ τ) (op : Op κ τ) : Decidable (r.opOk op) := by
  cases op <;> unfold Run.opOk <;> infer_instance

variable {r r' : Run κ τ} {c : Option τ} {t : τ} {k : κ} {time : ℤ} {block : ℕ} {o : Outcome}
  {s : State κ τ} {F : κ → List ℕ} {size blockSize : κ → RtSize}

/-- The counters do not run over. -/
structure Inv (r : Run κ τ) (F : κ → List ℕ) : Prop extends Safe r F where
  small : ∀ k, (r.os.mp k).blockTotalCount < 2 ^ 32

omit [DecidableEq κ] [DecidableEq τ] in
theorem init_inv (hpos : ∀ k, 0 < blockTotal (size k) (blockSize k)) (h : r.Init size blockSize) :
    ∃ F, Inv r F := by
  obtain ⟨-, hm, -, hh, hc⟩ := h
  have hl : ∀ k, ∃ F, Layout (r.os.mp k) k F (r.blocks k) := by
    intro k
    obtain ⟨junk, hk⟩ := hm k
    rw [hk, Run.blocks, hh]
    exact rtMpInit_layout k (hpos k)
  choose F hF using hl
  refine ⟨F, ⟨hF, hc⟩, fun k => ?_⟩
  obtain ⟨junk, hk⟩ := hm k
  rw [hk]
  have : blockTotal (size k) (blockSize k) ≤ rtAlignDown (size k) := Nat.div_le_self _ _
  have := (size k).isLt
  change blockTotal (size k) (blockSize k) < 2 ^ 32
  unfold rtAlignDown at *
  omega

omit [DecidableEq τ] in
/-- A step at one pool. -/
theorem Inv.setMp {mp : RtMempool κ} {F' : List ℕ} (v : Inv r F)
    (hm : r'.os.mp = update r.os.mp k mp) (hc : r'.crashed = none)
    (hb : ∀ k', k' ≠ k → r'.blocks k' = r.blocks k') (hl : Layout mp k F' (r'.blocks k))
    (ht : mp.blockTotalCount = (r.os.mp k).blockTotalCount) : Inv r' (update F k F') := by
  refine ⟨⟨fun k' => ?_, hc⟩, fun k' => ?_⟩ <;> rw [hm]
  · by_cases hk : k' = k
    · subst hk
      simpa using hl
    · rw [update_of_ne hk, update_of_ne hk, hb k' hk]
      exact v.layout k'
  · by_cases hk : k' = k
    · subst hk
      rw [update_self, ht]
      exact v.small k'
    · rw [update_of_ne hk]
      exact v.small k'

omit [DecidableEq τ] in
/-- The first block of the free list is taken. -/
theorem mpTake_eq {i : ℕ} {F' H : List ℕ} (l : Layout (s.mp k) k (i :: F') H) :
    mpTake k s = (.block i, s.setMp k { s.mp k with
      blockFreeCount := sub32 (s.mp k).blockFreeCount 1
      blockList := ((s.mp k).header i).ptr
      header := update (s.mp k).header i (.pool k) }) := by
  unfold mpTake
  dsimp only
  rw [l.free.1]
  dsimp only
  rw [l.next i List.mem_cons_self]
  rfl

/-- A call takes a block. -/
theorem Inv.take (v : Inv r F) (hn : 0 < (r.os.mp k).blockFreeCount) :
    ∃ F', Inv (r.after c k (mpTake k r.os)) F' := by
  have l := v.layout k
  have hlt := v.small k
  have hlen := l.length_eq
  rw [l.count] at hn
  obtain ⟨i, F', hF⟩ := List.exists_cons_of_length_pos hn
  rw [hF] at l hlen
  have hcount : sub32 (r.os.mp k).blockFreeCount 1 = F'.length := by
    have := l.count
    rw [List.length_cons] at this hlen
    rw [this, sub32]
    omega
  rw [mpTake_eq l]
  refine ⟨update F k F', v.setMp rfl v.crashed (fun k' hk => ?_) ?_ rfl⟩
  · simp [Run.after, Run.blocks, hk]
  · simpa [Run.after, Run.blocks] using l.take hcount

omit [DecidableEq τ] in
/-- A call goes to sleep, or a waiter is woken. -/
theorem Inv.setWaiters (v : Inv r F) {n : ℕ}
    (hm : r'.os.mp = update r.os.mp k { r.os.mp k with suspendThreadCount := n })
    (hh : r'.held = r.held) (hc : r'.crashed = none) : Inv r' F := by
  have hb : ∀ k', r'.blocks k' = r.blocks k' := fun k' => by rw [Run.blocks, hh, Run.blocks]
  have := v.setMp hm hc (fun k' _ => hb k') ((hb k).symm ▸ (v.layout k).setWaiters n) rfl
  rwa [update_eq_self] at this

omit [DecidableEq τ] in
/-- The block that is freed is taken from the blocks handed out. -/
theorem perm_eraseP : ∀ {l : List (ℕ × Option τ)}, block ∈ l.map Prod.fst →
    (l.map Prod.fst).Perm (block :: (l.eraseP fun x => x.1 = block).map Prod.fst)
  | [], h => absurd h (by simp)
  | x :: l, h => by
    by_cases hx : x.1 = block
    · simp [hx]
    · rw [List.eraseP_cons_of_neg (by simpa using hx), List.map_cons, List.map_cons]
      have hm : block ∈ l.map Prod.fst := (List.mem_cons.1 h).resolve_left (Ne.symm hx)
      exact ((perm_eraseP hm).cons x.1).trans (.swap block x.1 _)

omit [DecidableEq τ] in
/-- A block is freed, and perhaps a waiter woken. -/
theorem Inv.give (v : Inv r F) (hb : block ∈ r.blocks k) {n : ℕ} (hc : r'.crashed = none)
    (hm : r'.os.mp = update r.os.mp k { mpLink block (r.os.mp k) with suspendThreadCount := n })
    (hh : r'.held = update r.held k ((r.held k).eraseP fun x => x.1 = block)) :
    Inv r' (update F k (block :: F k)) := by
  refine v.setMp hm hc (fun k' hk => ?_) ?_ rfl
  · rw [Run.blocks, hh, update_of_ne hk, Run.blocks]
  · rw [Run.blocks, hh, update_self]
    exact ((v.layout k).give (perm_eraseP hb) (v.small k)).setWaiters n

/-- One step keeps the invariant. -/
theorem Inv.step (v : Inv r F) {op : Op κ τ} {e : Option Outcome} (hok : r.opOk op)
    (h : r.exec op = some (e, r')) : ∃ F', Inv r' F' := by
  unfold Run.exec at h
  rw [if_neg (not_not.2 v.crashed)] at h
  cases op with
  | alloc c k time =>
    obtain ⟨-, h⟩ := Option.ite_none_right_eq_some.1 h
    obtain ⟨o, ho, h⟩ := Option.map_eq_some_iff.1 h
    obtain ⟨-, rfl⟩ := Prod.mk.inj h
    unfold rtMpAlloc at ho
    dsimp only at ho
    split at ho
    next hn =>
      obtain rfl := Option.some.inj ho
      exact v.take (Nat.pos_of_ne_zero hn)
    next hn =>
      split at ho
      · obtain rfl := Option.some.inj ho
        exact ⟨F, ⟨v.layout, v.crashed⟩, v.small⟩
      · obtain ⟨t, -, rfl⟩ := Option.map_eq_some_iff.1 ho
        exact ⟨F, v.setWaiters rfl rfl v.crashed⟩
  | goOn t =>
    obtain ⟨k, hk, h⟩ := Option.bind_eq_some_iff.1 h
    obtain ⟨-, h⟩ := Option.ite_none_right_eq_some.1 h
    obtain ⟨-, rfl⟩ := Prod.mk.inj (Option.some.inj h)
    unfold mpGoOn
    split
    · exact ⟨F, ⟨v.layout, v.crashed⟩, v.small⟩
    next he => exact v.take (hok k hk (not_not.1 he))
  | free c k block =>
    obtain ⟨⟨-, hb⟩, h⟩ := Option.ite_none_right_eq_some.1 h
    obtain ⟨o, ho, h⟩ := Option.map_eq_some_iff.1 h
    obtain ⟨-, rfl⟩ := Prod.mk.inj h
    unfold rtMpFree at ho
    obtain ⟨-, ho⟩ := Option.ite_none_right_eq_some.1 ho
    dsimp only at ho
    split at ho
    next hw =>
      obtain ⟨t, l, hl⟩ := List.exists_cons_of_ne_nil (hok hw)
      rw [hl] at ho
      obtain rfl := Option.some.inj ho
      exact ⟨_, v.give hb v.crashed rfl rfl⟩
    next hw =>
      obtain rfl := Option.some.inj ho
      exact ⟨_, v.give hb v.crashed rfl rfl⟩
  | expire t =>
    obtain ⟨tasks, -, h⟩ := Option.map_eq_some_iff.1 h
    obtain ⟨-, rfl⟩ := Prod.mk.inj h
    exact ⟨F, ⟨v.layout, v.crashed⟩, v.small⟩

/-! ### Every run -/

theorem exec_step {op : Op κ τ} (h : (r.exec op).map Prod.snd = some r') :
    True ∧ (system size blockSize).step r op r' := by
  obtain ⟨⟨e, r₁⟩, hr, rfl⟩ := Option.map_eq_some_iff.1 h
  exact ⟨trivial, e, hr⟩

/-- A step that is taken only if it meets the condition. -/
def Run.execIfOk (r : Run κ τ) (op : Op κ τ) : Option (Run κ τ) :=
  if r.opOk op then (r.exec op).map Prod.snd else none

theorem execIfOk_step {op : Op κ τ} (h : r.execIfOk op = some r') :
    r.opOk op ∧ (system size blockSize).step r op r' := by
  obtain ⟨hok, h⟩ := Option.ite_none_right_eq_some.1 h
  exact ⟨hok, (exec_step h).2⟩

/-- One pool of the size `n` for blocks of four bytes, and threads that are ready. -/
def board (n : ℕ) : Run Unit ℕ where
  os := { tasks := ⟨fun t => ⟨.ready, t, t, 0, 0, 0, 0, false, false, true⟩, fun _ => []⟩
          mp _ := rtMpInit (fun _ => .next none) n 4 }
  pc _ := none
  held _ := []
  crashed := none

theorem board_init (n : RtSize) : (board n).Init (fun _ => n) fun _ => 4 :=
  ⟨fun _ => rfl, fun _ => ⟨_, rfl⟩, fun _ => rfl, fun _ => rfl, rfl⟩

/-- CORRECT: in every run in which no waiter that was woken is overtaken and no waiter is lost. -/
theorem safe_of_opOk (hpos : ∀ k, 0 < blockTotal (size k) (blockSize k))
    (h : Reach (system size blockSize) Run.opOk r) : ∃ F, Safe r F := by
  obtain ⟨F, v⟩ : ∃ F, Inv r F := by
    refine Reach.invariant (I := fun r => ∃ F, Inv r F) (fun _ hi => init_inv hpos hi) ?_ h
    rintro r op r' ⟨F, v⟩ hok ⟨e, hs⟩
    exact v.step hok hs
  exact ⟨F, v.toSafe⟩

end Steps

/-- Of two blocks one is freed for the thread that waits for it, the other by a handler. -/
theorem safe_of_opOk_board :
    ∃ r, replay Run.execIfOk (board 16) [.alloc (some 3) () 0, .alloc none () 0,
        .alloc (some 4) () 5, .alloc (some 5) () 0, .free (some 3) () 0, .goOn 4,
        .free none () 1] = some r ∧ ∃ F, Safe r F := by
  obtain ⟨r, hr⟩ := Option.isSome_iff_exists.1 (show (replay Run.execIfOk (board 16)
    [.alloc (some 3) () 0, .alloc none () 0, .alloc (some 4) () 5, .alloc (some 5) () 0,
      .free (some 3) () 0, .goOn 4, .free none () 1]).isSome = true by decide +kernel)
  exact ⟨r, hr, safe_of_opOk (fun _ => by decide) (Reach.of_replay (fun _ _ _ h => execIfOk_step h)
    _ (Reach.init (board_init 16)) hr)⟩

/-- A handler takes the block for which a waiter has been woken. -/
theorem overtaken_crashes : ¬∀ r, Reachable (system (fun _ : Unit => 8) fun _ => 4)
    (r : Run Unit ℕ) → ∃ F, Safe r F := by
  intro hall
  have hrun : (replay (fun r op => (Run.exec r op).map Prod.snd) (board 8)
      [.alloc (some 3) () 0, .alloc (some 4) () (-1), .free (some 3) () 0, .alloc none () 0,
        .goOn 4]).map Run.crashed = some (some .emptyFreeList) := by decide +kernel
  obtain ⟨r, hr, hc⟩ := Option.map_eq_some_iff.1 hrun
  obtain ⟨F, v⟩ := hall r (Reach.of_replay (fun _ _ _ h => exec_step h) _
    (Reach.init (board_init 8)) hr)
  exact absurd (v.crashed.symm.trans hc) (by simp)

end EasyCore.MemPool
