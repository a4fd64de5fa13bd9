import EasyCore.Kernel.Word

/-! The slab allocator of the kernel (`src/slab.c`, `RT_USING_SLAB`). An address is the offset from
    `heap_start`, which is the beginning of a page. The lists that run through the zones, through the
    chunks and through the free pages are lists of their addresses; the statistics are left out.

        ├ memusage │ free pages ... │ zone: slab_zone │ chunk │ chunk │ ... │ large block │ ... ┤ -/

namespace EasyCore.Slab
open Function Kernel

/-- `RT_MM_PAGE_SIZE` -/
def rtMmPageSize : ℕ := 4096

/-- `ZALLOC_SLAB_MAGIC` -/
def zallocSlabMagic : ℤ := 0x51ab51ab

/-- `ZALLOC_ZONE_LIMIT` -/
def zallocZoneLimit : ℕ := 16 * 1024

/-- `ZALLOC_MIN_ZONE_SIZE` -/
def zallocMinZoneSize : ℕ := 32 * 1024

/-- `ZALLOC_MAX_ZONE_SIZE` -/
def zallocMaxZoneSize : ℕ := 128 * 1024

/-- `ZONE_RELEASE_THRESH` -/
def zoneReleaseThresh : ℤ := 2

/-- `MIN_CHUNK_SIZE` -/
def minChunkSize : ℕ := 8

/-- `sizeof(slab_zone)`: nine words. -/
def sizeofSlabZone : ℕ := 36

/-- `slab_zone` without `z_next`, which is in the lists of the zones. -/
structure SlabZone where
  magic : ℤ
  nfree : ℤ
  nmax : ℕ
  baseptr : ℕ
  uindex : ℕ
  chunksize : ℕ
  zoneindex : ℕ
  freechunk : List ℕ

inductive PageType
  | free | small | large
  deriving DecidableEq

/-- `struct memusage` -/
structure MemUsage where
  type : PageType
  size : ℕ

/-- The file's static variables. `zoneFreeCnt` is `zone_free_cnt`; the zones are known by their address,
    the entries of `memusage` by the page, and a run of free pages by its first page and their number. -/
structure SlabHeap where
  zoneSize : ℕ
  zoneLimit : ℕ
  zonePageCnt : ℕ
  zone : ℕ → SlabZone
  zoneArray : ℕ → List ℕ
  zoneFree : List ℕ
  zoneFreeCnt : ℤ
  memusage : ℕ → MemUsage
  pageList : List (ℕ × ℕ)
  heapSem : ℤ

/-- `rt_sem_take(&heap_sem, RT_WAITING_FOREVER)` -/
def take (s : SlabHeap) : SlabHeap := { s with heapSem := s.heapSem - 1 }

/-- `rt_sem_release(&heap_sem)` -/
def release (s : SlabHeap) : SlabHeap := { s with heapSem := s.heapSem + 1 }

def SlabHeap.setZone (s : SlabHeap) (z : ℕ) (v : SlabZone) : SlabHeap := { s with zone := update s.zone z v }

/-! ### Pages -/

/-- The loop of `rt_page_alloc`: the first run of free pages that is long enough is cut, or taken. -/
def pageAlloc (npages : ℕ) : List (ℕ × ℕ) → Option ℕ × List (ℕ × ℕ)
  | [] => (none, [])
  | (b, page) :: rest =>
    if npages < page then (some b, (b + npages, page - npages) :: rest)
    else if page = npages then (some b, rest)
    else ((pageAlloc npages rest).1, (b, page) :: (pageAlloc npages rest).2)

/-- A run that has grown, joined to the next one if it is close. -/
def joinRun (b page : ℕ) : List (ℕ × ℕ) → List (ℕ × ℕ)
  | [] => [(b, page)]
  | (c, n) :: rest => if b + page = c then (b, page + n) :: rest else (b, page) :: (c, n) :: rest

/-- The loop of `rt_page_free`. -/
def pageFree (n npages : ℕ) : List (ℕ × ℕ) → List (ℕ × ℕ)
  | [] => [(n, npages)]
  | (b, page) :: rest =>
    if b + page = n then joinRun b (page + npages) rest
    else if b = n + npages then (n, page + npages) :: rest
    else if n + npages < b then (n, npages) :: (b, page) :: rest
    else (b, page) :: pageFree n npages rest

/-- `rt_page_alloc` -/
def rtPageAlloc (s : SlabHeap) (npages : ℕ) : SlabHeap × Option ℕ :=
  if npages = 0 then (s, none)
  else
    let s := take s
    let r := pageAlloc npages s.pageList
    (release { s with pageList := r.2 }, r.1.map (· * rtMmPageSize))

/-- `rt_page_free` -/
def rtPageFree (s : SlabHeap) (addr npages : ℕ) : SlabHeap :=
  let s := take s
  release { s with pageList := pageFree (addr / rtMmPageSize) npages s.pageList }

/-- The loop of `rt_system_heap_init` for the size of a zone. -/
def zoneSizeLoop (limsize : ℕ) : ℕ → ℕ → ℕ
  | 0, size => size
  | fuel + 1, size =>
    if size < zallocMaxZoneSize ∧ size * 2 < limsize / 1024 then zoneSizeLoop limsize fuel (size * 2)
    else size

/-- `rt_system_heap_init`, for a heap of `npages` pages; what is in `memusage` then is not known. -/
def rtSystemHeapInit (npages : ℕ) (memusage : ℕ → MemUsage) : SlabHeap :=
  let limsize := npages * rtMmPageSize
  let zoneSize := zoneSizeLoop limsize 2 zallocMinZoneSize
  let s : SlabHeap :=
    { zoneSize := zoneSize
      zoneLimit := min (zoneSize / 4) zallocZoneLimit
      zonePageCnt := zoneSize / rtMmPageSize
      zone := fun _ => ⟨0, 0, 0, 0, 0, 0, 0, []⟩
      zoneArray := fun _ => []
      zoneFree := []
      zoneFreeCnt := 0
      memusage := memusage
      pageList := []
      heapSem := 1 }
  let s := rtPageFree s 0 npages
  (rtPageAlloc s ((npages * 4 + 4095) / rtMmPageSize)).1

/-! ### Zones -/

/-- `n` rounded up to a multiple of `m`. -/
def roundUp (n m : ℕ) : ℕ := (n + (m - 1)) / m * m

/-- `zoneindex`: the index, and what it makes of the size. -/
def zoneindex (n : ℕ) : ℕ × ℕ :=
  if n < 128 then (roundUp n 8 / 8 - 1, roundUp n 8)
  else if n < 256 then (roundUp n 16 / 16 + 7, roundUp n 16)
  else if n < 8192 then
    if n < 512 then (roundUp n 32 / 32 + 15, roundUp n 32)
    else if n < 1024 then (roundUp n 64 / 64 + 23, roundUp n 64)
    else if n < 2048 then (roundUp n 128 / 128 + 31, roundUp n 128)
    else if n < 4096 then (roundUp n 256 / 256 + 39, roundUp n 256)
    else (roundUp n 512 / 512 + 47, roundUp n 512)
  else if n < 16384 then (roundUp n 1024 / 1024 + 55, roundUp n 1024)
  else (0, n)

/-- `btokup` of an address, which it has rounded down to a page. -/
def btokup (addr : ℕ) : ℕ := addr / rtMmPageSize

/-- The zone that `memusage` gives for an address. -/
def zoneOf (s : SlabHeap) (ptr : ℕ) : ℕ :=
  ptr / rtMmPageSize * rtMmPageSize - (s.memusage (btokup ptr)).size * rtMmPageSize

/-- The entries of `memusage` for the pages of a zone. -/
def setUsage (s : SlabHeap) (z : ℕ) (f : ℕ → MemUsage) : SlabHeap :=
  { s with memusage := fun i =>
      if btokup z ≤ i ∧ i < btokup z + s.zonePageCnt then f (i - btokup z) else s.memusage i }

/-- A chunk from the first zone on its list. -/
def fromZone (s : SlabHeap) (zi z : ℕ) (rest : List ℕ) (size : ℕ) : SlabHeap × Option ℕ :=
  let v : SlabZone := { s.zone z with nfree := (s.zone z).nfree - 1 }
  let s := if v.nfree = 0 then { s with zoneArray := update s.zoneArray zi rest } else s
  if v.uindex + 1 ≠ v.nmax then
    (s.setZone z { v with uindex := v.uindex + 1 }, some (v.baseptr + (v.uindex + 1) * size))
  else
    -- an empty list would be a null pointer here
    match v.freechunk with
    | [] => (s.setZone z v, none)
    | chunk :: next => (s.setZone z { v with freechunk := next }, some chunk)

/-- Where the chunks of a zone begin. -/
def chunkOffset (size : ℕ) : ℕ :=
  if (size ||| (size - 1)) + 1 = size <<< 1 then roundUp sizeofSlabZone size
  else roundUp sizeofSlabZone minChunkSize

/-- A new zone is set up, and its first chunk taken. -/
def newZone (s : SlabHeap) (zi z size : ℕ) : SlabHeap × Option ℕ :=
  let off := chunkOffset size
  let nmax := (s.zoneSize - off) / size
  let s := s.setZone z
    { magic := zallocSlabMagic, zoneindex := zi, nmax := nmax, nfree := nmax - 1, baseptr := z + off
      uindex := 0, chunksize := size, freechunk := [] }
  ({ s with zoneArray := update s.zoneArray zi (z :: s.zoneArray zi) }, some (z + off))

/-! ### Calls -/

/-- `rt_malloc` for a size of at least `zone_limit`. -/
def mallocLarge (s : SlabHeap) (size : ℕ) : SlabHeap × Option ℕ :=
  let size := (size + 4095) % 2 ^ 32 / rtMmPageSize * rtMmPageSize
  let r := rtPageAlloc s (size / rtMmPageSize)
  match r.2 with
  | none => (r.1, none)
  | some chunk =>
    let s := { r.1 with
      memusage := update r.1.memusage (btokup chunk) ⟨.large, size / rtMmPageSize⟩ }
    (release (take s), some chunk)

/-- `rt_malloc` -/
def rtMalloc (s : SlabHeap) (size : ℕ) : SlabHeap × Option ℕ :=
  if size = 0 then (s, none)
  else if s.zoneLimit ≤ size then mallocLarge s size
  else
    let s := take s
    let zi := (zoneindex size).1
    let size := (zoneindex size).2
    match s.zoneArray zi with
    | z :: rest =>
      let r := fromZone s zi z rest size
      (release r.1, r.2)
    | [] =>
      match s.zoneFree with
      | z :: next =>
        let r := newZone { s with zoneFree := next, zoneFreeCnt := s.zoneFreeCnt - 1 } zi z size
        (release r.1, r.2)
      | [] =>
        let r := rtPageAlloc (release s) (s.zoneSize / rtMmPageSize)
        match r.2 with
        -- `goto fail`, where the semaphore is released again
        | none => (release r.1, none)
        | some z =>
          let s := setUsage (take r.1) z fun off => ⟨.small, off⟩
          let r := newZone s zi z size
          (release r.1, r.2)

/-- A zone that has become free while there are others goes to the list of free zones, and from there,
    when there are too many, back to the pages. -/
def retire (s : SlabHeap) (zi z : ℕ) : SlabHeap :=
  let s := { s with zoneArray := update s.zoneArray zi ((s.zoneArray zi).erase z) }
  let s := s.setZone z { s.zone z with magic := -1 }
  let zoneFree := s.zoneFree
  let s := { s with zoneFree := z :: zoneFree, zoneFreeCnt := s.zoneFreeCnt + 1 }
  if zoneReleaseThresh < s.zoneFreeCnt then
    let s := { s with zoneFree := zoneFree, zoneFreeCnt := s.zoneFreeCnt - 1 }
    let s := setUsage s z fun _ => ⟨.free, 0⟩
    rtPageFree (release s) z (s.zoneSize / rtMmPageSize)
  else release s

/-- `rt_free` of a chunk. `z->z_next` is null when the zone is the last one on its list. -/
def freeChunk (s : SlabHeap) (ptr : ℕ) : SlabHeap :=
  let s := take s
  let z := zoneOf s ptr
  let v : SlabZone := { s.zone z with freechunk := ptr :: (s.zone z).freechunk }
  let s := if v.nfree = 0 then
      { s with zoneArray := update s.zoneArray v.zoneindex (z :: s.zoneArray v.zoneindex) }
    else s
  let v : SlabZone := { v with nfree := v.nfree + 1 }
  let s := s.setZone z v
  if v.nfree = v.nmax ∧ s.zoneArray v.zoneindex ≠ [z] then retire s v.zoneindex z else release s

/-- `rt_free` of a block of pages. -/
def freeLarge (s : SlabHeap) (ptr : ℕ) : SlabHeap :=
  let s := take s
  let kup := s.memusage (btokup ptr)
  let s := { s with memusage := update s.memusage (btokup ptr) { kup with size := 0 } }
  rtPageFree (release s) ptr kup.size

/-- `rt_free` -/
def rtFree (s : SlabHeap) : Option ℕ → SlabHeap
  | none => s
  | some ptr =>
    if (s.memusage (btokup ptr)).type = .large then freeLarge s ptr else freeChunk s ptr

/-- `rt_realloc` -/
def rtRealloc (s : SlabHeap) (ptr : Option ℕ) (size : ℕ) : SlabHeap × Option ℕ :=
  match ptr with
  | none => rtMalloc s size
  | some p =>
    if size = 0 then (rtFree s p, none)
    else
      match (s.memusage (btokup p)).type with
      | .large =>
        let r := rtMalloc s size
        match r.2 with
        | none => (r.1, none)
        | some nptr => (rtFree r.1 p, some nptr)
      | .small =>
        if (s.zone (zoneOf s p)).chunksize = (zoneindex size).2 then (s, some p)
        else
          let r := rtMalloc s (zoneindex size).2
          match r.2 with
          | none => (r.1, none)
          | some nptr => (rtFree r.1 p, some nptr)
      | .free => (s, none)

end EasyCore.Slab
