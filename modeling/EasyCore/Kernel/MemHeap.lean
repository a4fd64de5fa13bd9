import EasyCore.Kernel.Word

/-! The memory heap of the kernel (`src/memheap.c`, `RT_USING_MEMHEAP`).

    A pool is a ring of blocks in address order, each a 24-byte header `struct rt_memheap_item`
    followed by its bytes, closed by a tailer block of no bytes that is always in use. The free
    blocks are on a second ring, whose header `free_header` lies in the heap object itself. Headers
    are modelled by their addresses and their fields by maps over addresses; one heap is modelled,
    so `pool_ptr` always names it. The loop over the free ring carries fuel.

        start_addr
        ├ item │ bytes ├ item │ bytes ├ ... ├ item │ bytes ├ tailer ┤ -/

namespace EasyCore.MemHeap
open Function Kernel

/-- `RT_MEMHEAP_MAGIC`. -/
def memheapMagic : ℕ := 0x1ea01ea0

/-- `RT_MEMHEAP_MASK`. -/
def memheapMask : ℕ := 0xfffffffe

/-- `RT_MEMHEAP_USED`. -/
def memheapUsed : ℕ := 0x01

/-- `RT_MEMHEAP_MINIALLOC`. -/
def memheapMinialloc : ℕ := 12

/-- `RT_MEMHEAP_SIZE`: six 32-bit fields. -/
def memheapSize : ℕ := rtAlign 24

/-- `struct rt_memheap` and the items of its pool: `magic` to `prevFree` are the fields of the
    `struct rt_memheap_item` at an address. -/
structure Memheap where
  startAddr : ℕ
  poolSize : ℕ
  availableSize : ℕ
  maxUsedSize : ℕ
  blockList : ℕ
  freeList : ℕ
  magic : ℕ → ℕ
  next : ℕ → ℕ
  prev : ℕ → ℕ
  nextFree : ℕ → ℕ
  prevFree : ℕ → ℕ
  data : ℕ → UInt8

namespace Memheap

def setMagic (h : Memheap) (a v : ℕ) : Memheap := { h with magic := update h.magic a v }
def setNext (h : Memheap) (a v : ℕ) : Memheap := { h with next := update h.next a v }
def setPrev (h : Memheap) (a v : ℕ) : Memheap := { h with prev := update h.prev a v }
def setNextFree (h : Memheap) (a v : ℕ) : Memheap := { h with nextFree := update h.nextFree a v }
def setPrevFree (h : Memheap) (a v : ℕ) : Memheap := { h with prevFree := update h.prevFree a v }
def setAvailable (h : Memheap) (v : ℕ) : Memheap := { h with availableSize := v }
def setData (h : Memheap) (d : ℕ → UInt8) : Memheap := { h with data := d }

/-- `RT_MEMHEAP_IS_USED`. -/
def isUsed (h : Memheap) (a : ℕ) : Prop := h.magic a &&& memheapUsed ≠ 0

instance (h : Memheap) (a : ℕ) : Decidable (h.isUsed a) := by unfold isUsed; infer_instance

/-- `MEMITEM_SIZE`. -/
def memitemSize (h : Memheap) (a : ℕ) : ℕ := sub32 (sub32 (h.next a) a) memheapSize

/-- More rounds than the search of the free ring takes. -/
def fuel (h : Memheap) : ℕ := h.poolSize + 3

end Memheap

/-- Take `n` bytes off the count of available ones, and record the largest use so far. -/
def takeAvailable (h : Memheap) (n : ℕ) : Memheap :=
  let h := h.setAvailable (sub32 h.availableSize n)
  if sub32 h.poolSize h.availableSize > h.maxUsedSize then
    { h with maxUsedSize := sub32 h.poolSize h.availableSize }
  else h

/-- Give `n` bytes back to the count of available ones. -/
def giveAvailable (h : Memheap) (n : ℕ) : Memheap :=
  h.setAvailable ((h.availableSize + n) % 2 ^ 32)

/-- Take the item at `a` out of the free ring. -/
def unlinkFree (h : Memheap) (a : ℕ) : Memheap :=
  let h := h.setPrevFree (h.nextFree a) (h.prevFree a)
  h.setNextFree (h.prevFree a) (h.nextFree a)

/-- Put the item at `a` at the front of the free ring. -/
def insertFree (h : Memheap) (a : ℕ) : Memheap :=
  let h := h.setNextFree a (h.nextFree h.freeList)
  let h := h.setPrevFree a h.freeList
  let h := h.setPrevFree (h.nextFree h.freeList) a
  h.setNextFree h.freeList a

/-- Build a free item at `n` and put it into the block ring behind the one at `a`. -/
def insertItem (h : Memheap) (a n : ℕ) : Memheap :=
  let h := h.setMagic n memheapMagic
  let h := h.setPrev n a
  let h := h.setNext n (h.next a)
  let h := h.setPrev (h.next a) n
  h.setNext a n

/-- `rt_memheap_init(memheap, name, start_addr, size)` over memory that holds anything;
    `freeHeader` is the address of `memheap->free_header`. -/
def rtMemheapInit (junk : Memheap) (freeHeader startAddr size : ℕ) : Memheap :=
  let poolSize := rtAlignDown size
  let available := sub32 poolSize (2 * memheapSize)
  let h : Memheap := { junk with
    startAddr := startAddr
    poolSize := poolSize
    availableSize := available
    maxUsedSize := sub32 poolSize available
    freeList := freeHeader
    blockList := startAddr }
  -- the free list header
  let h := (h.setMagic freeHeader memheapMagic).setNext freeHeader 0
  let h := (h.setPrev freeHeader 0).setNextFree freeHeader freeHeader
  let h := h.setPrevFree freeHeader freeHeader
  -- the first big memory block
  let item := startAddr
  let h := (h.setMagic item memheapMagic).setPrevFree item item
  let h := h.setNextFree item item
  let h := h.setNext item ((item + available + memheapSize) % 2 ^ 32)
  let h := h.setPrev item (h.next item)
  let h := insertFree h item
  -- the tailer
  let item := h.next item
  let h := h.setMagic item (memheapMagic ||| memheapUsed)
  let h := (h.setNext item startAddr).setPrev item startAddr
  (h.setPrevFree item 0).setNextFree item 0

/-- The search of the free ring in `rt_memheap_alloc`: the item the loop ends at and the size it saw
    last. -/
def findFree (h : Memheap) (size : ℕ) : ℕ → ℕ → ℕ → Option (ℕ × ℕ)
  | 0, _, _ => none
  | fuel + 1, headerPtr, freeSize =>
    if headerPtr ≠ h.freeList ∧ freeSize < size then
      let freeSize := h.memitemSize headerPtr
      if freeSize < size then findFree h size fuel (h.nextFree headerPtr) freeSize
      else findFree h size fuel headerPtr freeSize
    else some (headerPtr, freeSize)

/-- Give the free item at `headerPtr`, of `freeSize` bytes, out for `size` bytes: split when the
    rest can be an item of its own. -/
def takeItem (h : Memheap) (size headerPtr freeSize : ℕ) : Memheap :=
  let h :=
    if freeSize ≥ (size + memheapSize + memheapMinialloc) % 2 ^ 32 then
      let newPtr := (headerPtr + size + memheapSize) % 2 ^ 32
      let h := insertItem h headerPtr newPtr
      let h := unlinkFree h headerPtr
      let h := (h.setNextFree headerPtr 0).setPrevFree headerPtr 0
      let h := insertFree h newPtr
      takeAvailable h ((size + memheapSize) % 2 ^ 32)
    else
      let h := takeAvailable h freeSize
      let h := unlinkFree h headerPtr
      (h.setNextFree headerPtr 0).setPrevFree headerPtr 0
  h.setMagic headerPtr (h.magic headerPtr ||| memheapUsed)

/-- `rt_memheap_alloc(heap, size)`: the new heap and the address returned (`none` for
    `RT_NULL`). -/
def rtMemheapAlloc (h : Memheap) (size : ℕ) : Option (Memheap × Option ℕ) :=
  let size := max (rtAlign size) memheapMinialloc
  if size < h.availableSize then
    match findFree h size h.fuel (h.nextFree h.freeList) 0 with
    | none => none
    | some (headerPtr, freeSize) =>
      if freeSize ≥ size then
        some (takeItem h size headerPtr freeSize, some ((headerPtr + memheapSize) % 2 ^ 32))
      else some (h, none)
  else some (h, none)

/-- The item at `a` swallows the item behind it. -/
def joinNext (h : Memheap) (a : ℕ) : Memheap :=
  let b := h.next a
  let h := h.setPrev (h.next b) a
  h.setNext a (h.next b)

/-- The first merge of `rt_memheap_free`: a free item in front swallows the one at `headerPtr`. The
    heap, the item that is left and `insert_header`. -/
def mergeLeft (h : Memheap) (headerPtr : ℕ) : Memheap × ℕ × Bool :=
  if ¬h.isUsed (h.prev headerPtr) then
    let h := giveAvailable h memheapSize
    let h := h.setNext (h.prev headerPtr) (h.next headerPtr)
    let h := h.setPrev (h.next headerPtr) (h.prev headerPtr)
    (h, h.prev headerPtr, false)
  else (h, headerPtr, true)

/-- The second merge of `rt_memheap_free`: the item at `headerPtr` swallows a free one behind it. -/
def mergeRight (h : Memheap) (headerPtr : ℕ) : Memheap :=
  if ¬h.isUsed (h.next headerPtr) then
    let newPtr := h.next headerPtr
    unlinkFree (joinNext (giveAvailable h memheapSize) headerPtr) newPtr
  else h

/-- `rt_memheap_free(ptr)`. -/
def rtMemheapFree (h : Memheap) (ptr : Option ℕ) : Memheap :=
  match ptr with
  | none => h
  | some p =>
    let headerPtr := sub32 p memheapSize
    let h := h.setMagic headerPtr (h.magic headerPtr &&& memheapMask)
    let h := giveAvailable h (h.memitemSize headerPtr)
    let r := mergeLeft h headerPtr
    let h := mergeRight r.1 r.2.1
    if r.2.2 then insertFree h r.2.1 else h

/-- The branch of `rt_memheap_realloc` that grows the block into the free item at `nextPtr`. -/
def growInto (h : Memheap) (headerPtr nextPtr ptr oldsize newsize : ℕ) : Memheap :=
  let h := takeAvailable h (sub32 newsize oldsize)
  let h := unlinkFree h nextPtr
  let h := h.setPrev (h.next nextPtr) (h.prev nextPtr)
  let h := h.setNext (h.prev nextPtr) (h.next nextPtr)
  let nextPtr := (ptr + newsize) % 2 ^ 32
  insertFree (insertItem h headerPtr nextPtr) nextPtr

/-- The merge when a block is cut: the new item at `newPtr` swallows a free one behind it, whose
    bytes are counted again with the new item's. -/
def cutMerge (h : Memheap) (newPtr : ℕ) : Memheap :=
  if ¬h.isUsed (h.next newPtr) then
    let freePtr := h.next newPtr
    let h := h.setAvailable (sub32 h.availableSize (h.memitemSize freePtr))
    unlinkFree (joinNext h newPtr) freePtr
  else h

/-- The branch of `rt_memheap_realloc` that cuts the block after `newsize` bytes. -/
def shrinkTo (h : Memheap) (headerPtr newsize : ℕ) : Memheap :=
  let newPtr := (headerPtr + newsize + memheapSize) % 2 ^ 32
  let h := insertItem h headerPtr newPtr
  let h := cutMerge h newPtr
  let h := insertFree h newPtr
  giveAvailable h (h.memitemSize newPtr)

/-- `rt_memheap_realloc(heap, ptr, newsize)`. -/
def rtMemheapRealloc (h : Memheap) (ptr : Option ℕ) (newsize : ℕ) :
    Option (Memheap × Option ℕ) :=
  if newsize = 0 then some (rtMemheapFree h ptr, none)
  else
    let newsize := max (rtAlign newsize) memheapMinialloc
    match ptr with
    | none => rtMemheapAlloc h newsize
    | some p =>
      let headerPtr := sub32 p memheapSize
      let oldsize := h.memitemSize headerPtr
      if newsize > oldsize then
        let nextPtr := h.next headerPtr
        if ¬h.isUsed nextPtr ∧ (h.memitemSize nextPtr + oldsize) % 2 ^ 32 >
            (newsize + memheapMinialloc) % 2 ^ 32 then
          some (growInto h headerPtr nextPtr p oldsize newsize, some p)
        else match rtMemheapAlloc h newsize with
          | none => none
          | some (h, none) => some (h, none)
          | some (h, some q) =>
            let h := h.setData (rtMemcpy h.data q p (min oldsize newsize))
            some (rtMemheapFree h (some p), some q)
      else if (newsize + memheapSize + memheapMinialloc) % 2 ^ 32 ≥ oldsize then some (h, some p)
      else some (shrinkTo h headerPtr newsize, some p)

end EasyCore.MemHeap
