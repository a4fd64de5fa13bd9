import EasyCore.Kernel.Word

/-! The small-memory allocator of the kernel (`src/mem.c`, `RT_USING_SMALL_MEM`).

    The heap is a row of items, each a 12-byte header `struct heap_mem` followed by its bytes. The
    headers hold offsets from `heap_ptr`, so a header is modelled by the offset it lies at; the
    bytes of the blocks are a map of their own, addressed absolutely. A loop that walks the headers
    carries fuel, and a call that runs out of it (`none`) is a call that never returns.

        heap_ptr                                              heap_end
        ├ heap_mem │ bytes ├ heap_mem │ bytes ├ ... ├ heap_mem │ bytes ├ heap_mem ┤ -/

namespace EasyCore.SmallMem
open Function Kernel

/-- `HEAP_MAGIC`. -/
def heapMagic : ℕ := 0x1ea0

/-- `MIN_SIZE`. -/
def minSize : ℕ := 12

/-- `MIN_SIZE_ALIGNED`. -/
def minSizeAligned : ℕ := rtAlign minSize

/-- `SIZEOF_STRUCT_MEM`: two 16-bit and two 32-bit fields. -/
def sizeofStructMem : ℕ := rtAlign 12

/-- `struct heap_mem`. -/
structure HeapMem where
  magic : ℕ
  used : ℕ
  next : ℕ
  prev : ℕ
  deriving DecidableEq

/-- The file's static variables, the headers by offset and the bytes by address. `lfree` and
    `heapEnd` are the offsets of the headers the pointers point at. -/
structure Heap where
  heapPtr : ℕ
  heapEnd : ℕ
  lfree : ℕ
  memSizeAligned : ℕ
  usedMem : ℕ
  maxMem : ℕ
  hdr : ℕ → HeapMem
  data : ℕ → UInt8

namespace Heap

/-- Store into the header at offset `o`. -/
def modify (h : Heap) (o : ℕ) (f : HeapMem → HeapMem) : Heap :=
  { h with hdr := update h.hdr o (f (h.hdr o)) }

def setMagic (h : Heap) (o v : ℕ) : Heap := h.modify o fun m => { m with magic := v }
def setUsed (h : Heap) (o v : ℕ) : Heap := h.modify o fun m => { m with used := v }
def setNext (h : Heap) (o v : ℕ) : Heap := h.modify o fun m => { m with next := v }
def setPrev (h : Heap) (o v : ℕ) : Heap := h.modify o fun m => { m with prev := v }

def magic (h : Heap) (o : ℕ) : ℕ := (h.hdr o).magic
def used (h : Heap) (o : ℕ) : ℕ := (h.hdr o).used
def next (h : Heap) (o : ℕ) : ℕ := (h.hdr o).next
def prev (h : Heap) (o : ℕ) : ℕ := (h.hdr o).prev

section Fields
variable (h : Heap) (o v : ℕ)

@[simp] theorem setMagic_fields : (h.setMagic o v).next = h.next ∧ (h.setMagic o v).prev = h.prev ∧
    (h.setMagic o v).used = h.used ∧ (h.setMagic o v).heapPtr = h.heapPtr ∧
    (h.setMagic o v).heapEnd = h.heapEnd ∧ (h.setMagic o v).lfree = h.lfree ∧
    (h.setMagic o v).memSizeAligned = h.memSizeAligned ∧ (h.setMagic o v).data = h.data := by
  refine ⟨funext fun x => ?_, funext fun x => ?_, funext fun x => ?_, rfl, rfl, rfl, rfl, rfl⟩ <;>
    by_cases hx : x = o <;> simp [setMagic, modify, next, prev, used, hx]

@[simp] theorem setUsed_fields : (h.setUsed o v).next = h.next ∧ (h.setUsed o v).prev = h.prev ∧
    (h.setUsed o v).used = update h.used o v ∧ (h.setUsed o v).heapPtr = h.heapPtr ∧
    (h.setUsed o v).heapEnd = h.heapEnd ∧ (h.setUsed o v).lfree = h.lfree ∧
    (h.setUsed o v).memSizeAligned = h.memSizeAligned ∧ (h.setUsed o v).data = h.data := by
  refine ⟨funext fun x => ?_, funext fun x => ?_, funext fun x => ?_, rfl, rfl, rfl, rfl, rfl⟩ <;>
    by_cases hx : x = o <;> simp [setUsed, modify, next, prev, used, hx]

@[simp] theorem setNext_fields : (h.setNext o v).next = update h.next o v ∧
    (h.setNext o v).prev = h.prev ∧ (h.setNext o v).used = h.used ∧
    (h.setNext o v).heapPtr = h.heapPtr ∧ (h.setNext o v).heapEnd = h.heapEnd ∧
    (h.setNext o v).lfree = h.lfree ∧ (h.setNext o v).memSizeAligned = h.memSizeAligned ∧
    (h.setNext o v).data = h.data := by
  refine ⟨funext fun x => ?_, funext fun x => ?_, funext fun x => ?_, rfl, rfl, rfl, rfl, rfl⟩ <;>
    by_cases hx : x = o <;> simp [setNext, modify, next, prev, used, hx]

@[simp] theorem setPrev_fields : (h.setPrev o v).next = h.next ∧
    (h.setPrev o v).prev = update h.prev o v ∧ (h.setPrev o v).used = h.used ∧
    (h.setPrev o v).heapPtr = h.heapPtr ∧ (h.setPrev o v).heapEnd = h.heapEnd ∧
    (h.setPrev o v).lfree = h.lfree ∧ (h.setPrev o v).memSizeAligned = h.memSizeAligned ∧
    (h.setPrev o v).data = h.data := by
  refine ⟨funext fun x => ?_, funext fun x => ?_, funext fun x => ?_, rfl, rfl, rfl, rfl, rfl⟩ <;>
    by_cases hx : x = o <;> simp [setPrev, modify, next, prev, used, hx]

/-- A store into one header leaves the others alone. -/
@[simp] theorem set_hdr {z : ℕ} (hz : z ≠ o) : (h.setMagic o v).hdr z = h.hdr z ∧
    (h.setUsed o v).hdr z = h.hdr z ∧ (h.setNext o v).hdr z = h.hdr z ∧
    (h.setPrev o v).hdr z = h.hdr z := by
  simp [setMagic, setUsed, setNext, setPrev, modify, hz]

end Fields

/-- More rounds than there can be headers between `heap_ptr` and `heap_end`. -/
def fuel (h : Heap) : ℕ := h.heapEnd + 2

/-- The statistics of `RT_MEM_STATS` after `size` bytes were taken. -/
def addUsed (h : Heap) (size : ℕ) : Heap :=
  let u := (h.usedMem + size) % 2 ^ 32
  { h with usedMem := u, maxMem := max h.maxMem u }

/-- The statistics of `RT_MEM_STATS` after `size` bytes were given back. -/
def subUsed (h : Heap) (size : ℕ) : Heap := { h with usedMem := sub32 h.usedMem size }

@[simp] theorem addUsed_fields (h : Heap) (n : ℕ) : (h.addUsed n).next = h.next ∧
    (h.addUsed n).prev = h.prev ∧ (h.addUsed n).used = h.used ∧
    (h.addUsed n).heapPtr = h.heapPtr ∧ (h.addUsed n).heapEnd = h.heapEnd ∧
    (h.addUsed n).lfree = h.lfree ∧ (h.addUsed n).memSizeAligned = h.memSizeAligned ∧
    (h.addUsed n).data = h.data := by
  unfold addUsed next prev used; exact ⟨rfl, rfl, rfl, rfl, rfl, rfl, rfl, rfl⟩

@[simp] theorem subUsed_fields (h : Heap) (n : ℕ) : (h.subUsed n).next = h.next ∧
    (h.subUsed n).prev = h.prev ∧ (h.subUsed n).used = h.used ∧
    (h.subUsed n).heapPtr = h.heapPtr ∧ (h.subUsed n).heapEnd = h.heapEnd ∧
    (h.subUsed n).lfree = h.lfree ∧ (h.subUsed n).memSizeAligned = h.memSizeAligned ∧
    (h.subUsed n).data = h.data := by
  unfold subUsed next prev used; exact ⟨rfl, rfl, rfl, rfl, rfl, rfl, rfl, rfl⟩

@[simp] theorem used_hdr (h : Heap) (n : ℕ) :
    (h.addUsed n).hdr = h.hdr ∧ (h.subUsed n).hdr = h.hdr := by
  unfold addUsed subUsed; exact ⟨rfl, rfl⟩

/-- `lfree = heap_ptr[l]`. -/
def setLfree (h : Heap) (l : ℕ) : Heap := { h with lfree := l }

/-- The bytes after stores into blocks. -/
def setData (h : Heap) (d : ℕ → UInt8) : Heap := { h with data := d }

@[simp] theorem setLfree_fields (h : Heap) (l : ℕ) : (h.setLfree l).next = h.next ∧
    (h.setLfree l).prev = h.prev ∧ (h.setLfree l).used = h.used ∧
    (h.setLfree l).heapPtr = h.heapPtr ∧ (h.setLfree l).heapEnd = h.heapEnd ∧
    (h.setLfree l).lfree = l ∧ (h.setLfree l).memSizeAligned = h.memSizeAligned ∧
    (h.setLfree l).data = h.data := ⟨rfl, rfl, rfl, rfl, rfl, rfl, rfl, rfl⟩

@[simp] theorem setData_fields (h : Heap) (d : ℕ → UInt8) : (h.setData d).next = h.next ∧
    (h.setData d).prev = h.prev ∧ (h.setData d).used = h.used ∧
    (h.setData d).heapPtr = h.heapPtr ∧ (h.setData d).heapEnd = h.heapEnd ∧
    (h.setData d).lfree = h.lfree ∧ (h.setData d).memSizeAligned = h.memSizeAligned ∧
    (h.setData d).data = d := ⟨rfl, rfl, rfl, rfl, rfl, rfl, rfl, rfl⟩

@[simp] theorem setLfree_hdr (h : Heap) (l : ℕ) : (h.setLfree l).hdr = h.hdr := rfl

@[simp] theorem setData_hdr (h : Heap) (d : ℕ → UInt8) : (h.setData d).hdr = h.hdr := rfl

end Heap

@[simp] theorem sizeofStructMem_eq : sizeofStructMem = 12 := by decide
@[simp] theorem minSize_eq : minSize = 12 := rfl
@[simp] theorem minSizeAligned_eq : minSizeAligned = 12 := by decide

/-- `mem->next = nmem->next; heap_ptr[nmem->next].prev = mem`: the item at `mem` swallows the item
    behind it. -/
def joinNext (h : Heap) (mem nmem : ℕ) : Heap :=
  (h.setNext mem (h.next nmem)).setPrev (h.next nmem) mem

@[simp] theorem joinNext_fields (h : Heap) (mem nmem : ℕ) :
    (joinNext h mem nmem).next = update h.next mem (h.next nmem) ∧
    (joinNext h mem nmem).prev = update h.prev (h.next nmem) mem ∧
    (joinNext h mem nmem).used = h.used ∧ (joinNext h mem nmem).heapPtr = h.heapPtr ∧
    (joinNext h mem nmem).heapEnd = h.heapEnd ∧ (joinNext h mem nmem).lfree = h.lfree ∧
    (joinNext h mem nmem).memSizeAligned = h.memSizeAligned ∧
    (joinNext h mem nmem).data = h.data := by
  simp [joinNext]

def plugHolesForward (h : Heap) (mem : ℕ) : Heap :=
  let nmem := h.next mem
  if mem ≠ nmem ∧ h.used nmem = 0 ∧ nmem ≠ h.heapEnd then
    joinNext (if h.lfree = nmem then h.setLfree mem else h) mem nmem
  else h

def plugHolesBackward (h : Heap) (mem : ℕ) : Heap :=
  let pmem := h.prev mem
  if pmem ≠ mem ∧ h.used pmem = 0 then
    joinNext (if h.lfree = mem then h.setLfree pmem else h) pmem mem
  else h

/-- `plug_holes(mem)`: join the free item with its free neighbours. -/
def plugHoles (h : Heap) (mem : ℕ) : Heap := plugHolesBackward (plugHolesForward h mem) mem

/-- `rt_system_heap_init(begin_addr, end_addr)` over memory that holds anything; `none` when the
    range is refused. -/
def rtSystemHeapInit (hdr : ℕ → HeapMem) (data : ℕ → UInt8) (beginAddr endAddr : RtSize) :
    Option Heap :=
  let beginAlign := rtAlign beginAddr
  let endAlign := rtAlignDown endAddr
  if endAlign > 2 * sizeofStructMem ∧ endAlign - 2 * sizeofStructMem ≥ beginAlign then
    let memSizeAligned := endAlign - beginAlign - 2 * sizeofStructMem
    let heapEnd := memSizeAligned + sizeofStructMem
    let h : Heap := ⟨beginAlign, heapEnd, 0, memSizeAligned, 0, 0, hdr, data⟩
    let h := ((((h.setMagic 0 heapMagic).setNext 0 heapEnd).setPrev 0 0).setUsed 0 0)
    some ((((h.setMagic heapEnd heapMagic).setUsed heapEnd 1).setNext heapEnd heapEnd).setPrev
      heapEnd heapEnd)
  else none

/-- Cut the item at `ptr` after `size` bytes: a new item follows at `ptr2`, in front of the old
    successor. -/
def cutItem (h : Heap) (ptr ptr2 : ℕ) : Heap :=
  let h := ((h.setUsed ptr2 0).setNext ptr2 (h.next ptr)).setPrev ptr2 ptr
  let h := h.setNext ptr ptr2
  if h.next ptr2 ≠ h.memSizeAligned + sizeofStructMem then h.setPrev (h.next ptr2) ptr2 else h

@[simp] theorem cutItem_fields (h : Heap) (ptr ptr2 : ℕ) :
    (cutItem h ptr ptr2).used = update h.used ptr2 0 ∧
    (cutItem h ptr ptr2).heapPtr = h.heapPtr ∧ (cutItem h ptr ptr2).heapEnd = h.heapEnd ∧
    (cutItem h ptr ptr2).lfree = h.lfree ∧
    (cutItem h ptr ptr2).memSizeAligned = h.memSizeAligned ∧
    (cutItem h ptr ptr2).data = h.data := by
  unfold cutItem; dsimp only; split <;> simp

/-- `while (lfree->used && lfree != heap_end) lfree = lfree->next`. -/
def nextFree (h : Heap) : ℕ → ℕ → Option ℕ
  | 0, _ => none
  | fuel + 1, lfree =>
    if h.used lfree ≠ 0 ∧ lfree ≠ h.heapEnd then nextFree h fuel (h.next lfree) else some lfree

/-- The body of the search loop of `rt_malloc` once the item at `ptr` fits: split it when the rest
    can hold a block of its own, mark it, and move `lfree` on if it was the lowest. -/
def takeItem (h : Heap) (size ptr : ℕ) : Option (Heap × Option ℕ) :=
  let h :=
    if sub32 (h.next ptr) (ptr + sizeofStructMem) ≥ size + sizeofStructMem + minSizeAligned then
      ((cutItem h ptr (ptr + sizeofStructMem + size)).setUsed ptr 1).addUsed
        (size + sizeofStructMem)
    else (h.setUsed ptr 1).addUsed (sub32 (h.next ptr) ptr)
  let h := h.setMagic ptr heapMagic
  let r := some (h.heapPtr + ptr + sizeofStructMem)
  if ptr = h.lfree then (nextFree h h.fuel h.lfree).map fun l => (h.setLfree l, r)
  else some (h, r)

/-- `for (ptr = lfree; ptr < mem_size_aligned - size; ptr = heap_ptr[ptr].next)`. -/
def rtMallocLoop (h : Heap) (size : ℕ) : ℕ → ℕ → Option (Heap × Option ℕ)
  | 0, _ => none
  | fuel + 1, ptr =>
    if ptr < sub32 h.memSizeAligned size then
      if h.used ptr = 0 ∧ sub32 (h.next ptr) (ptr + sizeofStructMem) ≥ size then
        takeItem h size ptr
      else rtMallocLoop h size fuel (h.next ptr)
    else some (h, none)

/-- `rt_malloc(size)`: the new heap and the address returned (`none` for `RT_NULL`). -/
def rtMalloc (h : Heap) (size : ℕ) : Option (Heap × Option ℕ) :=
  if size = 0 then some (h, none)
  else
    let size := rtAlign size
    if size > h.memSizeAligned then some (h, none)
    else rtMallocLoop h (max size minSizeAligned) h.fuel h.lfree

/-- `rt_free(rmem)`. -/
def rtFree (h : Heap) (rmem : Option ℕ) : Heap :=
  match rmem with
  | none => h
  | some p =>
    if p < h.heapPtr ∨ p ≥ h.heapPtr + h.heapEnd then h
    else
      let mem := sub32 (sub32 p sizeofStructMem) h.heapPtr
      let h := (h.setUsed mem 0).setMagic mem 0
      let h := if mem < h.lfree then h.setLfree mem else h
      plugHoles (h.subUsed (sub32 (h.next mem) mem)) mem

/-- `rt_realloc(rmem, newsize)`. -/
def rtRealloc (h : Heap) (rmem : Option ℕ) (newsize : ℕ) : Option (Heap × Option ℕ) :=
  let newsize := rtAlign newsize
  if newsize > h.memSizeAligned then some (h, none)
  else match rmem with
  | none => rtMalloc h newsize
  | some p =>
    if p < h.heapPtr ∨ p ≥ h.heapPtr + h.heapEnd then some (h, some p)
    else
      let ptr := sub32 (sub32 p sizeofStructMem) h.heapPtr
      let size := sub32 (sub32 (h.next ptr) ptr) sizeofStructMem
      if size = newsize then some (h, some p)
      else if newsize + sizeofStructMem + minSize < size then
        let ptr2 := ptr + sizeofStructMem + newsize
        let h := cutItem (((h.subUsed (size - newsize)).setMagic ptr2 heapMagic)) ptr ptr2
        some (plugHoles h ptr2, some p)
      else match rtMalloc h newsize with
        | none => none
        | some (h, none) => some (h, none)
        | some (h, some nmem) =>
          let h := h.setData (rtMemcpy h.data nmem p (min size newsize))
          some (rtFree h (some p), some nmem)

/-- `rt_calloc(count, size)`: the product is a `rt_size_t`. -/
def rtCalloc (h : Heap) (count size : ℕ) : Option (Heap × Option ℕ) :=
  let total := count * size % 2 ^ 32
  match rtMalloc h total with
  | some (h, some p) => some (h.setData (rtMemset h.data p 0 total), some p)
  | r => r

end EasyCore.SmallMem
