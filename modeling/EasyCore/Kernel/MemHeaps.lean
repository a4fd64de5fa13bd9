import EasyCore.Kernel.MemHeapServe

/-! The memory of the system as several memory heaps (`src/memheap.c`, `RT_USING_MEMHEAP_AS_HEAP`).

    `rt_malloc` asks the system heap and then the others in the order of the object list.
    `rt_realloc` asks the heap of the block; if that has no room it takes a block of any heap, copies,
    and returns it. The block it was given is not freed:

        heap 0   ├ item │ p: in use ├ ...        p stays in use, and nobody knows of it
        heap 1   ├ item │ q: in use ├ ...        q is returned -/

namespace EasyCore.MemHeap
open Function Kernel Links Runs

/-- The heaps, the one called `_heap`, and the object list of the class `RT_Object_Class_MemHeap`. -/
structure Heaps (ι : Type*) where
  heap : ι → Memheap
  systemHeap : ι
  objectList : List ι

namespace Heaps
variable {ι : Type*} [DecidableEq ι]

def setHeap (s : Heaps ι) (j : ι) (h : Memheap) : Heaps ι := { s with heap := update s.heap j h }

/-- The address lies in the pool of the heap. -/
def inPool (s : Heaps ι) (j : ι) (x : ℕ) : Prop :=
  (s.heap j).startAddr ≤ x ∧ x < (s.heap j).startAddr + (s.heap j).poolSize

instance (s : Heaps ι) (j : ι) (x : ℕ) : Decidable (s.inPool j x) := by unfold inPool; infer_instance

/-- `pool_ptr` of the item at `x`: whatever builds an item stores the heap in whose pool it lies. -/
def poolPtr (s : Heaps ι) (x : ℕ) : ι :=
  (s.objectList.find? fun j => s.inPool j x).getD s.systemHeap

/-- The loop of `rt_malloc` over the object list. -/
def mallocOther (size : ℕ) (s : Heaps ι) : List ι → Option (Heaps ι × Option ℕ)
  | [] => some (s, none)
  | j :: l =>
    if j = s.systemHeap then mallocOther size s l
    else match rtMemheapAlloc (s.heap j) size with
      | none => none
      | some (h, some ptr) => some (s.setHeap j h, some ptr)
      | some (h, none) => mallocOther size (s.setHeap j h) l

/-- `rt_malloc(size)`. -/
def rtMalloc (s : Heaps ι) (size : ℕ) : Option (Heaps ι × Option ℕ) :=
  match rtMemheapAlloc (s.heap s.systemHeap) size with
  | none => none
  | some (h, some ptr) => some (s.setHeap s.systemHeap h, some ptr)
  | some (h, none) => mallocOther size (s.setHeap s.systemHeap h) s.objectList

/-- `rt_free(rmem)`. -/
def rtFree (s : Heaps ι) (rmem : Option ℕ) : Heaps ι :=
  match rmem with
  | none => s
  | some p =>
    let j := s.poolPtr (sub32 p memheapSize)
    s.setHeap j (rtMemheapFree (s.heap j) (some p))

/-- `rt_memcpy(dst, src, count)` between two pools. -/
def memcpy (s : Heaps ι) (dst src count : ℕ) : Heaps ι :=
  let i := s.poolPtr (sub32 src memheapSize)
  let j := s.poolPtr (sub32 dst memheapSize)
  s.setHeap j ((s.heap j).setData fun a =>
    if dst ≤ a ∧ a < dst + count then (s.heap i).data (src + (a - dst)) else (s.heap j).data a)

/-- `rt_realloc(rmem, newsize)`. -/
def rtRealloc (s : Heaps ι) (rmem : Option ℕ) (newsize : ℕ) : Option (Heaps ι × Option ℕ) :=
  match rmem with
  | none => s.rtMalloc newsize
  | some p =>
    let headerPtr := sub32 p memheapSize
    let j := s.poolPtr headerPtr
    match rtMemheapRealloc (s.heap j) (some p) newsize with
    | none => none
    | some (h, some newPtr) => some (s.setHeap j h, some newPtr)
    | some (h, none) =>
      let s := s.setHeap j h
      if newsize ≠ 0 then
        match s.rtMalloc newsize with
        | none => none
        | some (s, none) => some (s, none)
        | some (s, some newPtr) =>
          let oldsize := (s.heap j).memitemSize headerPtr
          some (s.memcpy newPtr p (if newsize > oldsize then oldsize else newsize), some newPtr)
      else some (s, none)

/-- `rt_memset(ptr, 0, count)` on a block. -/
def clear (s : Heaps ι) (ptr count : ℕ) : Heaps ι :=
  let j := s.poolPtr (sub32 ptr memheapSize)
  s.setHeap j ((s.heap j).setData (rtMemset (s.heap j).data ptr 0 count))

/-- `rt_calloc(count, size)`. -/
def rtCalloc (s : Heaps ι) (count size : ℕ) : Option (Heaps ι × Option ℕ) :=
  let totalSize := (count * size) % 2 ^ 32
  match s.rtMalloc totalSize with
  | none => none
  | some (s, none) => some (s, none)
  | some (s, some ptr) => some (s.clear ptr totalSize, some ptr)

/-- The addresses of the blocks in use. -/
def live (s : Heaps ι) : Set ℕ := { p | ∃ j, Allocated (s.heap j) p }

/-- The heap of a block. -/
def owner (s : Heaps ι) (p : ℕ) : Memheap := s.heap (s.poolPtr (p - 24))

/-- `p` is a block in use with room for `n` bytes, and its first `m` bytes are those of `d`. -/
def Has (s : Heaps ι) (p n m : ℕ) (d : ℕ → UInt8) : Prop :=
  ∃ j, Allocated (s.heap j) p ∧ p + n ≤ (s.heap j).next (p - 24) ∧ ∀ k < m, (s.heap j).data (p + k) = d k

/-- What `rt_realloc(p, n)` owes its caller when it has returned `r`: a block with the old bytes up to
    the smaller size, and the old block given back unless it is that block; or `RT_NULL` and the old
    block as it was. The number of blocks in use has not grown. -/
def Kept (s s' : Heaps ι) (p n : ℕ) (r : Option ℕ) : Prop :=
  let oldsize := size (s.owner p) (p - 24)
  let bytes := fun k => (s.owner p).data (p + k)
  (∀ q ∈ r, s'.Has q n (min n oldsize) bytes ∧ (p ∈ s'.live → p = q)) ∧
    (r = none → s'.Has p oldsize oldsize bytes) ∧ s'.live.ncard ≤ s.live.ncard

/-- `rt_realloc(p, n)` returns and has kept its promise. -/
def Reallocates (s : Heaps ι) (p n : ℕ) : Prop :=
  ∃ s' r, s.rtRealloc (some p) n = some (s', r) ∧ s.Kept s' p n r

/-- The heap of the block has room and the size is not one of those for which a sum wraps; or no heap
    has room. -/
def ReallocOk (s : Heaps ι) (p n : ℕ) : Prop :=
  (Answers (s.owner p) (p - 24) n → n + 16 ≤ 2 ^ 32) ∧
    (¬Answers (s.owner p) (p - 24) n → ∀ j, ¬CanServe (s.heap j) (request n))

end Heaps

/-- The pools the heaps are made of: apart from each other, each large enough for a block and the
    tailer. All of them are in the object list. -/
structure Pools (ι : Type*) where
  pool : ι → Pool
  systemHeap : ι
  objectList : List ι
  large : ∀ j, 48 ≤ rtAlignDown (pool j).size
  listed : ∀ j, j ∈ objectList
  apart : ∀ i j, i ≠ j → (pool i).startAddr + rtAlignDown (pool i).size ≤ (pool j).startAddr ∨
    (pool j).startAddr + rtAlignDown (pool j).size ≤ (pool i).startAddr

/-- The heaps `rt_system_heap_init` and `rt_memheap_init` make of the pools. -/
def Pools.heaps {ι : Type*} (ps : Pools ι) : Heaps ι :=
  ⟨fun j => (ps.pool j).heap, ps.systemHeap, ps.objectList⟩

/-- A call to the heaps. -/
inductive SysCall (ι : Type*)
  | malloc (size : RtSize)
  | calloc (count size : RtSize)
  | realloc (rmem : Option ℕ) (newsize : RtSize)
  | free (rmem : Option ℕ)
  | memheapAlloc (heap : ι) (size : RtSize)
  | memheapRealloc (heap : ι) (ptr : Option ℕ) (newsize : RtSize)

namespace SysCall
variable {ι : Type*} [DecidableEq ι]

/-- The call on the heaps. -/
def exec (s : Heaps ι) : SysCall ι → Option (Heaps ι × Option ℕ)
  | malloc size => s.rtMalloc size
  | calloc count size => s.rtCalloc count size
  | realloc rmem newsize => s.rtRealloc rmem newsize
  | free rmem => some (s.rtFree rmem, none)
  | memheapAlloc j size => (rtMemheapAlloc (s.heap j) size).map fun r => (s.setHeap j r.1, r.2)
  | memheapRealloc j ptr newsize =>
    (rtMemheapRealloc (s.heap j) ptr newsize).map fun r => (s.setHeap j r.1, r.2)

/-- The call passes `RT_NULL` or a block in use, and a block with its heap. -/
def Legal (s : Heaps ι) : SysCall ι → Prop
  | realloc rmem _ => ∀ p ∈ rmem, p ∈ s.live
  | free rmem => ∀ p ∈ rmem, p ∈ s.live
  | memheapRealloc j ptr _ => ∀ p ∈ ptr, Allocated (s.heap j) p
  | _ => True

/-- The call does not grow a block to a size at which `newsize + RT_MEMHEAP_MINIALLOC` wraps. -/
def Ok (s : Heaps ι) : SysCall ι → Prop
  | realloc (some p) newsize => callOk (s.owner p) (.realloc (some p) newsize)
  | memheapRealloc j (some p) newsize => callOk (s.heap j) (.realloc (some p) newsize)
  | _ => True

end SysCall

/-- Heaps on the pools, and clients that pass blocks in use. -/
def heapsSystem {ι : Type*} [DecidableEq ι] (ps : Pools ι) : System (Heaps ι) (SysCall ι) where
  init s := s = ps.heaps
  step s c s' := c.Legal s ∧ ∃ r, c.exec s = some (s', r)

/-! ### The heaps keep their invariants -/

namespace Heaps
variable {ι : Type*} [DecidableEq ι] {s s' : Heaps ι} {j k : ι} {h h' : Memheap} {bs fs : List ℕ}
  {e m n p x y : ℕ} {r : Option ℕ}

/-- Every heap satisfies its invariant, and the pools are apart. -/
structure Sound (s : Heaps ι) : Prop where
  inv : ∀ j, ∃ bs fs e, Inv (s.heap j) bs fs e
  listed : ∀ j, j ∈ s.objectList
  apart : ∀ i j, i ≠ j →
    (s.heap i).startAddr + (s.heap i).poolSize ≤ (s.heap j).startAddr ∨
      (s.heap j).startAddr + (s.heap j).poolSize ≤ (s.heap i).startAddr

@[simp] theorem setHeap_heap (s : Heaps ι) (j : ι) (h : Memheap) :
    (s.setHeap j h).heap = update s.heap j h := rfl

@[simp] theorem setHeap_objectList (s : Heaps ι) (j : ι) (h : Memheap) :
    (s.setHeap j h).objectList = s.objectList := rfl

theorem setHeap_self (s : Heaps ι) (j : ι) : s.setHeap j (s.heap j) = s := by
  unfold setHeap
  rw [update_eq_self]

theorem Sound.setHeap (w : s.Sound) (i : Inv h bs fs e) (a : SameArea (s.heap j) h) :
    (s.setHeap j h).Sound := by
  have harea : ∀ k, (update s.heap j h k).startAddr = (s.heap k).startAddr ∧
      (update s.heap j h k).poolSize = (s.heap k).poolSize := fun k => by
    rcases eq_or_ne k j with rfl | hk
    · rw [update_self]
      exact ⟨a.startAddr, a.poolSize⟩
    · rw [update_of_ne hk]
      exact ⟨rfl, rfl⟩
  refine ⟨fun k => ?_, w.listed, fun k l hkl => ?_⟩
  · rw [setHeap_heap]
    rcases eq_or_ne k j with rfl | hk
    · rw [update_self]
      exact ⟨bs, fs, e, i⟩
    · rw [update_of_ne hk]
      exact w.inv k
  · rw [setHeap_heap, (harea k).1, (harea k).2, (harea l).1, (harea l).2]
    exact w.apart k l hkl

theorem Sound.pool_unique (w : s.Sound) (hk : s.inPool k x) (hj : s.inPool j x) : k = j := by
  obtain ⟨hk₁, hk₂⟩ := hk
  obtain ⟨hj₁, hj₂⟩ := hj
  by_contra hne
  rcases w.apart k j hne with h | h
  · omega
  · omega

theorem Sound.poolPtr_eq (w : s.Sound) (hx : s.inPool j x) : s.poolPtr x = j := by
  have hsome : (s.objectList.find? fun j => s.inPool j x).isSome := by
    rw [List.find?_isSome]
    exact ⟨j, w.listed j, decide_eq_true hx⟩
  obtain ⟨i, hi⟩ := Option.isSome_iff_exists.1 hsome
  unfold poolPtr
  rw [hi, Option.getD_some]
  have hpool := List.find?_some hi
  exact w.pool_unique (of_decide_eq_true hpool) hx

omit [DecidableEq ι] in
theorem inPool_of_mem (i : Inv (s.heap j) bs fs e) (hx : x ∈ bs) : s.inPool j x := by
  have hlt := i.blocks.lt_tail hx
  have hte := i.blocks.tailEnd
  exact ⟨i.blocks.start_le hx, by omega⟩

omit [DecidableEq ι] in
theorem Sound.inPool_of_allocated (w : s.Sound) (ha : Allocated (s.heap j) (x + 24)) :
    s.inPool j x := by
  obtain ⟨bs, fs, e, i⟩ := w.inv j
  obtain ⟨z, hz, heq⟩ := i.allocated_iff.1 ha
  obtain rfl : x = z := by omega
  exact inPool_of_mem i hz.1

/-- A block in use, its heap and its header. -/
theorem Sound.of_live (w : s.Sound) (hp : p ∈ s.live) : ∃ j bs fs e x, Inv (s.heap j) bs fs e ∧
    InUse (s.heap j) bs x ∧ p = x + 24 ∧ s.poolPtr x = j ∧ sub32 p memheapSize = x := by
  obtain ⟨j, hj⟩ := hp
  obtain ⟨bs, fs, e, i⟩ := w.inv j
  obtain ⟨x, hx, rfl⟩ := i.allocated_iff.1 hj
  exact ⟨j, bs, fs, e, x, i, hx, rfl, w.poolPtr_eq (inPool_of_mem i hx.1), (i.live hx).1⟩

/-- Only the bytes of a heap change. -/
theorem Sound.setData (w : s.Sound) (j : ι) (d : ℕ → UInt8) :
    (s.setHeap j ((s.heap j).setData d)).Sound := by
  obtain ⟨bs, fs, e, i⟩ := w.inv j
  exact w.setHeap (i.setData d) ⟨rfl, rfl, rfl⟩

/-! ### `rt_malloc` -/

/-- Heap `j` has given out the item at `y` for a request of `n` bytes. -/
def Took (s : Heaps ι) (j : ι) (h' : Memheap) (y n : ℕ) : Prop := ∃ bs fs e bs' fs',
  Inv (s.heap j) bs fs e ∧ Taken (s.heap j) h' bs bs' fs' e y (request n)

theorem Took.sound (t : s.Took j h' y n) (w : s.Sound) : (s.setHeap j h').Sound := by
  obtain ⟨_, _, _, _, _, _, ht⟩ := t
  exact w.setHeap ht.inv ht.area

omit [DecidableEq ι] in
theorem Sound.took (w : s.Sound) (hs : CanServe (s.heap j) (request n)) :
    ∃ y h', rtMemheapAlloc (s.heap j) n = some (h', some (y + 24)) ∧ s.Took j h' y n := by
  obtain ⟨bs, fs, e, i⟩ := w.inv j
  obtain ⟨y, h', bs', fs', heq, ht⟩ := rtMemheapAlloc_served i hs
  exact ⟨y, h', heq, bs, fs, e, bs', fs', i, ht⟩

omit [DecidableEq ι] in
theorem Sound.refused (w : s.Sound) (hs : ¬CanServe (s.heap j) (request n)) :
    rtMemheapAlloc (s.heap j) n = some (s.heap j, none) := by
  obtain ⟨bs, fs, e, i⟩ := w.inv j
  exact rtMemheapAlloc_refused i hs

/-- The request went to a heap with room, or there is none and nothing has changed. -/
def Granted (s : Heaps ι) (n : ℕ) (r : Option (Heaps ι × Option ℕ)) : Prop :=
  ∃ j y h', CanServe (s.heap j) (request n) ∧ s.Took j h' y n ∧
    r = some (s.setHeap j h', some (y + 24))

theorem mallocOther_spec (w : s.Sound) (n : ℕ) : ∀ l : List ι,
    s.Granted n (mallocOther n s l) ∨ mallocOther n s l = some (s, none) ∧
      ∀ j ∈ l, j ≠ s.systemHeap → ¬CanServe (s.heap j) (request n)
  | [] => Or.inr ⟨rfl, fun _ hj => absurd hj List.not_mem_nil⟩
  | j :: l => by
    unfold mallocOther
    rcases eq_or_ne j s.systemHeap with hj | hj
    · rw [if_pos hj]
      rcases mallocOther_spec w n l with hg | ⟨hnone, hl⟩
      · exact Or.inl hg
      · refine Or.inr ⟨hnone, fun k hk hks => ?_⟩
        rcases List.mem_cons.1 hk with rfl | hk
        · exact absurd hj hks
        · exact hl k hk hks
    · rw [if_neg hj]
      by_cases hs : CanServe (s.heap j) (request n)
      · obtain ⟨y, h', heq, ht⟩ := w.took hs
        rw [heq]
        exact Or.inl ⟨j, y, h', hs, ht, rfl⟩
      · rw [w.refused hs]
        dsimp only
        rw [setHeap_self]
        rcases mallocOther_spec w n l with hg | ⟨hnone, hl⟩
        · exact Or.inl hg
        · refine Or.inr ⟨hnone, fun k hk hks => ?_⟩
          rcases List.mem_cons.1 hk with rfl | hk
          · exact hs
          · exact hl k hk hks

theorem rtMalloc_spec (w : s.Sound) (n : ℕ) : s.Granted n (s.rtMalloc n) ∨
    s.rtMalloc n = some (s, none) ∧ ∀ j, ¬CanServe (s.heap j) (request n) := by
  unfold rtMalloc
  by_cases hs : CanServe (s.heap s.systemHeap) (request n)
  · obtain ⟨y, h', heq, ht⟩ := w.took hs
    rw [heq]
    exact Or.inl ⟨s.systemHeap, y, h', hs, ht, rfl⟩
  · rw [w.refused hs]
    dsimp only
    rw [setHeap_self]
    rcases mallocOther_spec w n s.objectList with hg | ⟨hnone, hl⟩
    · exact Or.inl hg
    · refine Or.inr ⟨hnone, fun k => ?_⟩
      rcases eq_or_ne k s.systemHeap with rfl | hk
      · exact hs
      · exact hl k (w.listed k) hk

theorem rtMalloc_sound (w : s.Sound) (he : s.rtMalloc n = some (s', r)) : s'.Sound := by
  rcases rtMalloc_spec w n with ⟨j, y, h', -, ht, heq⟩ | ⟨heq, -⟩
  · rw [heq] at he
    obtain ⟨rfl, -⟩ := Prod.mk.inj (Option.some.inj he)
    exact ht.sound w
  · rw [heq] at he
    obtain ⟨rfl, -⟩ := Prod.mk.inj (Option.some.inj he)
    exact w

/-! ### One call -/

/-- Whatever `rt_memheap_realloc` answers, the heap keeps its invariant. -/
theorem Sound.realloced (w : s.Sound) (i : Inv (s.heap j) bs fs e)
    (hr : Realloced (s.heap j) bs e x n (some (h', r))) : (s.setHeap j h').Sound := by
  rcases hr with ⟨_, bs', fs', -, hf⟩ | _ | _ | ⟨-, _, bs', fs', k, hs⟩ |
    ⟨-, y, h₁, h₂, _, bs₁, fs₁, bs', fs', k, ht, d, hd, hf⟩
  · exact w.setHeap hf.inv hf.area
  · exact w.setHeap i (SameArea.refl _)
  · exact w.setHeap i (SameArea.refl _)
  · exact w.setHeap hs.inv hs.area
  · have hsame : SameArea h₁ h₂ := hd ▸ ⟨rfl, rfl, rfl⟩
    exact w.setHeap hf.inv ((ht.area.trans hsame).trans hf.area)

theorem Sound.alloc (w : s.Sound) (he : rtMemheapAlloc (s.heap j) n = some (h', r)) :
    (s.setHeap j h').Sound := by
  obtain ⟨bs, fs, e, i⟩ := w.inv j
  rcases rtMemheapAlloc_spec i n with ⟨y, h₁, bs', fs', heq, ht⟩ | heq
  · rw [heq] at he
    obtain ⟨rfl, -⟩ := Prod.mk.inj (Option.some.inj he)
    exact w.setHeap ht.inv ht.area
  · rw [heq] at he
    obtain ⟨rfl, -⟩ := Prod.mk.inj (Option.some.inj he)
    exact w.setHeap i (SameArea.refl _)

theorem Sound.realloc (w : s.Sound) {ptr : Option ℕ} {newsize : RtSize}
    (hleg : ∀ p ∈ ptr, Allocated (s.heap j) p)
    (hok : ∀ p ∈ ptr, callOk (s.heap j) (.realloc (some p) newsize))
    (he : rtMemheapRealloc (s.heap j) ptr newsize = some (h', r)) : (s.setHeap j h').Sound := by
  obtain ⟨bs, fs, e, i⟩ := w.inv j
  cases ptr with
  | none =>
    unfold rtMemheapRealloc at he
    split at he
    · obtain ⟨rfl, -⟩ := Prod.mk.inj (Option.some.inj he)
      exact w.setHeap i (SameArea.refl _)
    · exact w.alloc he
  | some p =>
    obtain ⟨x, hx, rfl⟩ := i.allocated_iff.1 (hleg p rfl)
    have hspec := rtMemheapRealloc_spec i hx newsize (by simpa [callOk] using hok _ rfl)
    rw [he] at hspec
    exact w.realloced i hspec

omit [DecidableEq ι] in
/-- The owner of a block is the heap its item lies in. -/
theorem owner_eq (hptr : s.poolPtr x = j) : s.owner (x + 24) = s.heap j := by
  unfold owner
  rw [Nat.add_sub_cancel, hptr]

theorem rtRealloc_sound (w : s.Sound) {rmem : Option ℕ} {newsize : RtSize}
    (hleg : ∀ p ∈ rmem, p ∈ s.live)
    (hok : ∀ p ∈ rmem, callOk (s.owner p) (.realloc (some p) newsize))
    (he : s.rtRealloc rmem newsize = some (s', r)) : s'.Sound := by
  cases rmem with
  | none => exact rtMalloc_sound w he
  | some p =>
    obtain ⟨j, bs, fs, e, x, i, hx, rfl, hptr, hsub⟩ := w.of_live (hleg p rfl)
    have hok' := hok _ rfl
    rw [owner_eq hptr] at hok'
    unfold rtRealloc at he
    simp only [hsub, hptr] at he
    have hw : ∀ {h' r'}, rtMemheapRealloc (s.heap j) (some (x + 24)) newsize = some (h', r') →
        (s.setHeap j h').Sound := fun hr => by
      refine w.realloc (fun p hp => ?_) (fun p hp => ?_) hr
      · obtain rfl := Option.some.inj hp
        exact i.allocated_iff.2 ⟨x, hx, rfl⟩
      · obtain rfl := Option.some.inj hp
        exact hok'
    split at he
    next => cases he
    next h₁ q hr =>
      obtain ⟨rfl, -⟩ := Prod.mk.inj (Option.some.inj he)
      exact hw hr
    next h₁ hr =>
      split at he
      · split at he
        next => cases he
        next s₁ hm =>
          obtain ⟨rfl, -⟩ := Prod.mk.inj (Option.some.inj he)
          exact rtMalloc_sound (hw hr) hm
        next s₁ q hm =>
          obtain ⟨rfl, -⟩ := Prod.mk.inj (Option.some.inj he)
          exact (rtMalloc_sound (hw hr) hm).setData _ _
      · obtain ⟨rfl, -⟩ := Prod.mk.inj (Option.some.inj he)
        exact hw hr

/-- One lemma for the calls: a call that meets the condition keeps every heap's invariant. -/
theorem call_sound (w : s.Sound) {c : SysCall ι} (hleg : c.Legal s) (hok : c.Ok s)
    (he : c.exec s = some (s', r)) : s'.Sound := by
  cases c with
  | malloc size => exact rtMalloc_sound w he
  | calloc count size =>
    have he : s.rtCalloc count size = some (s', r) := he
    unfold rtCalloc at he
    dsimp only at he
    split at he
    next => cases he
    next s₁ hm =>
      obtain ⟨rfl, -⟩ := Prod.mk.inj (Option.some.inj he)
      exact rtMalloc_sound w hm
    next s₁ q hm =>
      obtain ⟨rfl, -⟩ := Prod.mk.inj (Option.some.inj he)
      exact (rtMalloc_sound w hm).setData _ _
  | realloc rmem newsize =>
    refine rtRealloc_sound w hleg (fun p hp => ?_) he
    obtain rfl := Option.mem_def.1 hp
    exact hok
  | free rmem =>
    obtain ⟨rfl, -⟩ := Prod.mk.inj (Option.some.inj he)
    cases rmem with
    | none => exact w
    | some p =>
      obtain ⟨j, bs, fs, e, x, i, hx, rfl, hptr, hsub⟩ := w.of_live (hleg p rfl)
      obtain ⟨bs', fs', hf⟩ := rtMemheapFree_spec i hx
      unfold rtFree
      simp only [hsub, hptr]
      exact w.setHeap hf.inv hf.area
  | memheapAlloc j size =>
    obtain ⟨⟨h₁, r₁⟩, ha, heq⟩ := Option.map_eq_some_iff.1 he
    obtain ⟨rfl, -⟩ := Prod.mk.inj heq
    exact w.alloc ha
  | memheapRealloc j ptr newsize =>
    obtain ⟨⟨h₁, r₁⟩, ha, heq⟩ := Option.map_eq_some_iff.1 he
    obtain ⟨rfl, -⟩ := Prod.mk.inj heq
    refine w.realloc hleg (fun p hp => ?_) ha
    obtain rfl := Option.mem_def.1 hp
    exact hok

omit [DecidableEq ι] in
/-- The heaps on fresh pools. -/
theorem sound_init (ps : Pools ι) : ps.heaps.Sound := by
  have harea : ∀ j, (ps.heaps.heap j).startAddr = (ps.pool j).startAddr ∧
      (ps.heaps.heap j).poolSize = rtAlignDown (ps.pool j).size := fun j => ⟨rfl, rfl⟩
  refine ⟨fun j => ?_, ps.listed, fun i j hij => ?_⟩
  · exact ⟨_, _, _, ((ps.pool j).inv (ps.large j)).1⟩
  · rw [(harea i).1, (harea i).2, (harea j).1, (harea j).2]
    exact ps.apart i j hij

theorem sound_of_ok {ps : Pools ι} (hs : Reach (heapsSystem ps) (fun s c => c.Ok s) s) :
    s.Sound := by
  refine hs.invariant ?_ ?_
  · rintro s rfl
    exact sound_init ps
  · rintro s c s' w hok ⟨hleg, r, he⟩
    exact call_sound w hleg hok he

/-! ### `rt_realloc` -/

omit [DecidableEq ι] in
theorem Sound.live_finite (w : s.Sound) : s.live.Finite := by
  have hsub : s.live ⊆ ⋃ j ∈ {j | j ∈ s.objectList}, {p | Allocated (s.heap j) p} := fun p hp => by
    obtain ⟨j, hj⟩ := hp
    exact Set.mem_biUnion (w.listed j) hj
  refine Set.Finite.subset (Set.Finite.biUnion s.objectList.finite_toSet fun j _ => ?_) hsub
  obtain ⟨bs, fs, e, i⟩ := w.inv j
  refine Set.Finite.subset ((bs.map (· + 24)).finite_toSet) fun p hp => ?_
  obtain ⟨x, hx, rfl⟩ := i.allocated_iff.1 hp
  have hmem : x + 24 ∈ bs.map (· + 24) := List.mem_map_of_mem hx.1
  exact hmem

/-- A block of a heap ends below the end of memory. -/
theorem next_lt (i : Inv h bs fs e) (ha : Allocated h p) : h.next (p - 24) < 2 ^ 32 := by
  obtain ⟨x, hx, rfl⟩ := i.allocated_iff.1 ha
  obtain ⟨-, hle⟩ := i.blocks.next_ge hx.1
  have hte := i.blocks.tailEnd
  have hbd := i.blocks.bound
  rw [Nat.add_sub_cancel]
  omega

section One
variable (w : s.Sound) (i : Inv (s.heap j) bs fs e) (hx : InUse (s.heap j) bs x)
include w i hx

/-- What the client sees of the block. -/
theorem Sound.reads : s.poolPtr x = j ∧ sub32 (x + 24) memheapSize = x ∧
    s.owner (x + 24) = s.heap j ∧ x + 24 ∈ s.live := by
  have hptr := w.poolPtr_eq (inPool_of_mem i hx.1)
  exact ⟨hptr, (i.live hx).1, owner_eq hptr, j, i.allocated_iff.2 ⟨x, hx, rfl⟩⟩

/-- Its heap has given a block in its place. -/
theorem kept_of_served {bs' fs' : List ℕ} {q : ℕ} (hn : n + 16 ≤ 2 ^ 32)
    (v : Served (s.heap j) h' bs bs' fs' e x q (request n)) :
    s.Kept (s.setHeap j h') (x + 24) n (some (q + 24)) := by
  obtain ⟨-, -, howner, hlive⟩ := w.reads i hx
  have hreq : n ≤ request n := le_request (by omega)
  have hq : InUse h' bs' q := (v.inUse q).2 (Or.inl rfl)
  have hheap : (s.setHeap j h').heap j = h' := update_self ..
  -- a block in use after the call was in use, or is the one returned
  have hafter : ∀ p ∈ (s.setHeap j h').live, p = q + 24 ∨ p ∈ s.live ∧ p ≠ x + 24 := by
    rintro p ⟨k, hk⟩
    rcases eq_or_ne k j with rfl | hkj
    · rw [hheap] at hk
      obtain ⟨z, hz, rfl⟩ := v.inv.allocated_iff.1 hk
      rcases (v.inUse z).1 hz with rfl | ⟨hz, hzx⟩
      · exact Or.inl rfl
      · exact Or.inr ⟨⟨k, i.allocated_iff.2 ⟨z, hz, rfl⟩⟩, by omega⟩
    · rw [setHeap_heap, update_of_ne hkj] at hk
      refine Or.inr ⟨⟨k, hk⟩, ?_⟩
      rintro rfl
      exact hkj (w.pool_unique (w.inPool_of_allocated hk) (inPool_of_mem i hx.1))
  unfold Kept
  rw [howner, Nat.add_sub_cancel]
  refine ⟨fun q' hq' => ?_, fun hnone => ?_, ?_⟩
  · obtain rfl := Option.some.inj hq'
    refine ⟨⟨j, ?_, ?_, fun k hk => ?_⟩, fun hp => ?_⟩
    · rw [hheap]
      exact v.inv.allocated_iff.2 ⟨q, hq, rfl⟩
    · rw [hheap, Nat.add_sub_cancel]
      have hroom := v.room
      omega
    · rw [hheap]
      exact v.bytes k (by omega)
    · rcases hafter _ hp with heq | ⟨-, hne⟩
      · exact heq
      · exact absurd rfl hne
  · cases hnone
  · have hfin := w.live_finite
    have hsub : (s.setHeap j h').live ⊆ insert (q + 24) (s.live \ {x + 24}) := fun p hp => by
      rcases hafter p hp with rfl | ⟨hp, hne⟩
      · exact Set.mem_insert _ _
      · exact Set.mem_insert_of_mem _ ⟨hp, hne⟩
    calc (s.setHeap j h').live.ncard
        ≤ (insert (q + 24) (s.live \ {x + 24})).ncard := Set.ncard_le_ncard hsub (hfin.sdiff.insert _)
      _ ≤ (s.live \ {x + 24}).ncard + 1 := Set.ncard_insert_le _ _
      _ = s.live.ncard := Set.ncard_sdiff_singleton_add_one hlive hfin

/-- `RT_NULL`, and nothing has changed. -/
theorem kept_of_null (n : ℕ) : s.Kept s (x + 24) n none := by
  obtain ⟨-, -, howner, -⟩ := w.reads i hx
  obtain ⟨hge, -⟩ := i.blocks.next_ge hx.1
  unfold Kept
  rw [howner, Nat.add_sub_cancel]
  refine ⟨fun q hq => absurd hq (Option.not_mem_none _), fun _ => ⟨j, ?_, ?_, fun k _ => ?_⟩, le_rfl⟩
  · exact i.allocated_iff.2 ⟨x, hx, rfl⟩
  · rw [Nat.add_sub_cancel]
    unfold size
    omega
  · exact Eq.refl _

/-- A block whose bytes would end behind the memory is not had. -/
theorem not_has {q n' m' : ℕ} {d : ℕ → UInt8} (hlt : h'.next (q - 24) < 2 ^ 32)
    (hbig : 2 ^ 32 ≤ q + n') : ¬(s.setHeap j h').Has q n' m' d := by
  rintro ⟨l, ha, hroom, -⟩
  rw [setHeap_heap] at ha hroom
  rcases eq_or_ne l j with rfl | hl
  · rw [update_self] at hroom
    omega
  · rw [update_of_ne hl] at ha hroom
    obtain ⟨bs₁, fs₁, e₁, i₁⟩ := w.inv l
    have hnext := next_lt i₁ ha
    omega

/-- The heap of the block answers. -/
theorem reallocates_of_answers (hn : n ≠ 0) (ha : Answers (s.heap j) x n) :
    s.Reallocates (x + 24) n ↔ n + 16 ≤ 2 ^ 32 := by
  obtain ⟨hptr, hsub, howner, hlive⟩ := w.reads i hx
  obtain ⟨h', q, heq, hcase⟩ := rtMemheapRealloc_answers i hx hn ha
  have hrun : s.rtRealloc (some (x + 24)) n = some (s.setHeap j h', some (q + 24)) := by
    unfold rtRealloc
    simp only [hsub, hptr, heq]
  have hreq : n + 16 ≤ 2 ^ 32 → request n + 12 < 2 ^ 32 := by
    unfold request rtAlign memheapMinialloc
    omega
  constructor
  · rintro ⟨s', r, hr, hkept, -, -⟩
    rw [hrun] at hr
    obtain ⟨rfl, rfl⟩ := Prod.mk.inj (Option.some.inj hr)
    obtain ⟨hhas, -⟩ := hkept _ rfl
    by_contra hbig
    refine not_has w i hx ?_ (by omega) hhas
    rw [Nat.add_sub_cancel]
    rcases hcase with ⟨-, bs', fs', v⟩ | ⟨-, rfl, hnext⟩
    · have hq := v.inv.allocated_iff.2 ⟨q, (v.inUse q).2 (Or.inl rfl), rfl⟩
      have hnext := next_lt v.inv hq
      rwa [Nat.add_sub_cancel] at hnext
    · rw [hnext]
      exact Nat.mod_lt _ (by decide)
  · intro hle
    rcases hcase with ⟨-, bs', fs', v⟩ | ⟨hwrap, -, -⟩
    · exact ⟨_, _, hrun, kept_of_served w i hx hle v⟩
    · exact absurd (hreq hle) (not_lt.2 hwrap)

/-- The heap of the block has no room. A block of another heap leaves the old one in use. -/
theorem reallocates_of_refuses (hn : n ≠ 0) (ha : ¬Answers (s.heap j) x n) :
    s.Reallocates (x + 24) n ↔ ∀ k, ¬CanServe (s.heap k) (request n) := by
  obtain ⟨hptr, hsub, howner, hlive⟩ := w.reads i hx
  have heq := rtMemheapRealloc_refuses i hx hn ha
  rcases rtMalloc_spec w n with ⟨k, y, h', hserve, ht, hm⟩ | ⟨hm, hall⟩
  · obtain ⟨oldsize, hold⟩ : ∃ v, v = ((s.setHeap k h').heap j).memitemSize x := ⟨_, rfl⟩
    have hrun : s.rtRealloc (some (x + 24)) n = some ((s.setHeap k h').memcpy (y + 24) (x + 24)
        (if n > oldsize then oldsize else n), some (y + 24)) := by
      unfold rtRealloc
      simp only [hsub, hptr, heq, setHeap_self, if_pos hn, hm, hold]
    refine iff_of_false ?_ fun hall => hall k hserve
    rintro ⟨s', r, hr, hkept, -, -⟩
    rw [hrun] at hr
    obtain ⟨rfl, rfl⟩ := Prod.mk.inj (Option.some.inj hr)
    obtain ⟨-, hgone⟩ := hkept _ rfl
    have hkj : j ≠ k := by
      rintro rfl
      exact ha (Or.inr (Or.inr hserve))
    obtain ⟨bs₁, fs₁, e₁, bs₂, fs₂, i₁, ht⟩ := ht
    have hy := inPool_of_mem i₁ ht.fresh.1
    -- the copy is made in the other pool
    have hptr' : (s.setHeap k h').poolPtr (sub32 (y + 24) memheapSize) = k := by
      have hq : InUse h' bs₂ y := (ht.inUse y).2 (Or.inr rfl)
      rw [memheapSize_eq, (ht.inv.live hq).1]
      have i₂ : Inv ((s.setHeap k h').heap k) bs₂ fs₂ e₁ := by
        rw [setHeap_heap, update_self]
        exact ht.inv
      exact (w.setHeap ht.inv ht.area).poolPtr_eq (inPool_of_mem i₂ hq.1)
    have hin : x + 24 ∈ ((s.setHeap k h').memcpy (y + 24) (x + 24)
        (if n > oldsize then oldsize else n)).live := by
      refine ⟨j, ?_⟩
      unfold memcpy
      dsimp only
      rw [hptr', setHeap_heap, update_of_ne hkj, setHeap_heap, update_of_ne hkj]
      exact i.allocated_iff.2 ⟨x, hx, rfl⟩
    have hxy : x = y := by
      have := hgone hin
      omega
    exact hkj (w.pool_unique (inPool_of_mem i hx.1) (hxy ▸ hy))
  · refine iff_of_true ⟨s, none, ?_, kept_of_null w i hx n⟩ hall
    unfold rtRealloc
    simp only [hsub, hptr, heq, setHeap_self, if_pos hn, hm]

end One

/-- CORRECT: on every set of pools, in every run whose growing calls do not wrap, `rt_realloc` of a
    block in use to `n > 0` bytes returns, and has kept its promise, exactly if the heap of the block
    has room and `n` is not one of the largest sizes, or no heap has room. -/
theorem realloc_kept_iff {ps : Pools ι} (hs : Reach (heapsSystem ps) (fun s c => c.Ok s) s)
    (hp : p ∈ s.live) (newsize : RtSize) (hn : 0 < (newsize : ℕ)) :
    s.Reallocates p newsize ↔ s.ReallocOk p newsize := by
  have w := sound_of_ok hs
  obtain ⟨j, bs, fs, e, x, i, hx, rfl, hptr, -⟩ := w.of_live hp
  unfold ReallocOk
  rw [owner_eq hptr, Nat.add_sub_cancel]
  by_cases ha : Answers (s.heap j) x newsize
  · rw [reallocates_of_answers w i hx hn.ne' ha]
    exact ⟨fun hle => ⟨fun _ => hle, fun hna => absurd ha hna⟩, fun h => h.1 ha⟩
  · rw [reallocates_of_refuses w i hx hn.ne' ha]
    exact ⟨fun hall => ⟨fun ha' => absurd ha' ha, fun _ => hall⟩, fun h => h.2 ha⟩

omit [DecidableEq ι] in
/-- The block at the start of a pool, in use. -/
theorem mem_live_start {a v : ℕ} (ha : (s.heap j).startAddr = a) (hv : (s.heap j).poolSize = v)
    (hav : a + 24 ≠ a + v) (hu : (s.heap j).isUsed a) : a + 24 ∈ s.live :=
  ⟨j, a, ⟨0, ha⟩, by rwa [ha, hv], hu, rfl⟩

end Heaps

/-- A second pool of the board, of four KiB. -/
def sramPool : Pool where
  junk := boardPool.junk
  freeHeader := 0x20000140
  startAddr := 0x20002000
  size := ⟨4096, by omega⟩
  inMemory := by decide
  apart := by decide

/-- The two pools; the first is the system heap. -/
def boardPools : Pools Bool where
  pool j := if j then sramPool else boardPool
  systemHeap := false
  objectList := [true, false]
  large := by decide
  listed := by decide
  apart := by decide

/-- A block of 900 bytes in the system heap. -/
def boardBlock : Option (Heaps Bool × Option ℕ) := boardPools.heaps.rtMalloc 900

theorem boardBlock_reach {s : Heaps Bool} {r : Option ℕ} (h : boardBlock = some (s, r)) :
    Reach (heapsSystem boardPools) (fun s c => c.Ok s) s := by
  have hstep : (heapsSystem boardPools).step boardPools.heaps (.malloc ⟨900, by decide⟩) s :=
    ⟨trivial, r, h⟩
  have hok : SysCall.Ok boardPools.heaps (.malloc ⟨900, by decide⟩) := trivial
  exact .step (.init rfl) hok hstep

/-- The block is cut to 40 bytes. -/
theorem realloc_kept_iff_board : ∃ s r, boardBlock = some (s, r) ∧ s.Reallocates 0x20000218 40 := by
  have hrun : boardBlock.map (fun r => ((r.1.heap false).startAddr, (r.1.heap false).poolSize,
      decide ((r.1.heap false).isUsed 0x20000200), (r.1.owner 0x20000218).memitemSize 0x20000200)) =
      some (0x20000200, 1024, true, 900) := by decide +kernel
  obtain ⟨⟨s, r⟩, hs, he⟩ := Option.map_eq_some_iff.1 hrun
  obtain ⟨h1, h2, h3, h4⟩ : (s.heap false).startAddr = 0x20000200 ∧ (s.heap false).poolSize = 1024 ∧
      decide ((s.heap false).isUsed 0x20000200) = true ∧
      (s.owner 0x20000218).memitemSize 0x20000200 = 900 := by simpa only [Prod.mk.injEq] using he
  have hlive : 0x20000218 ∈ s.live :=
    Heaps.mem_live_start h1 h2 (by decide) (of_decide_eq_true h3)
  have hanswers : Answers (s.owner 0x20000218) (0x20000218 - 24) 40 := by
    refine Or.inl ?_
    have hreq : request 40 = 40 := by decide
    rw [hreq]
    exact (by decide : 40 ≤ 900).trans_eq h4.symm
  exact ⟨s, r, hs, (Heaps.realloc_kept_iff (boardBlock_reach hs) hlive ⟨40, by decide⟩ (by decide)).2
    ⟨fun _ => by decide, fun hna => absurd hanswers hna⟩⟩

/-- INCORRECT when only another heap has room: the block of 900 bytes, asked to grow to 950, is left in
    use, and a block of the second pool is returned. -/
theorem realloc_leaks : ¬∀ ps : Pools Bool, ∀ s, Reachable (heapsSystem ps) s → ∀ p ∈ s.live,
    ∀ n : RtSize, 0 < (n : ℕ) → s.Reallocates p n := by
  intro hall
  have hrun : (boardBlock.bind fun r => (r.1.rtRealloc (some 0x20000218) 950).map fun r' =>
      (((r.1.heap false).startAddr, (r.1.heap false).poolSize,
          decide ((r.1.heap false).isUsed 0x20000200)),
        ((r'.1.heap false).startAddr, (r'.1.heap false).poolSize,
          decide ((r'.1.heap false).isUsed 0x20000200)), r'.2)) =
      some ((0x20000200, 1024, true), (0x20000200, 1024, true), some 0x20002018) := by decide +kernel
  obtain ⟨⟨s, r⟩, hs, hr⟩ := Option.bind_eq_some_iff.1 hrun
  obtain ⟨⟨s', r'⟩, hs', he⟩ := Option.map_eq_some_iff.1 hr
  simp only [Prod.mk.injEq] at he
  obtain ⟨⟨h1, h2, h3⟩, ⟨h1', h2', h3'⟩, rfl⟩ := he
  have hlive : 0x20000218 ∈ s.live :=
    Heaps.mem_live_start h1 h2 (by decide) (of_decide_eq_true h3)
  have hreach := (boardBlock_reach hs).mono fun _ _ _ => trivial
  obtain ⟨s'', r'', heq, hkept, -⟩ := hall boardPools s hreach _ hlive ⟨950, by decide⟩ (by decide)
  rw [hs'] at heq
  obtain ⟨rfl, rfl⟩ := Prod.mk.inj (Option.some.inj heq)
  obtain ⟨-, hgone⟩ := hkept _ rfl
  have hlive' : 0x20000218 ∈ s'.live :=
    Heaps.mem_live_start h1' h2' (by decide) (of_decide_eq_true h3')
  exact absurd (hgone hlive') (by decide)

end EasyCore.MemHeap
