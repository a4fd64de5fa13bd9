import EasyCore.Kernel.SlabCalls
import EasyCore.Lib.Runs

/-! The slab allocator over any sequence of calls. -/

namespace EasyCore.Slab
open Function Kernel Ranges

inductive SlabAct
  | malloc (size : RtSize)
  | realloc (ptr : Option ℕ) (size : RtSize)
  | free (ptr : Option ℕ)

/-- The allocator, and the live blocks: the address of each, and the size that was asked for. -/
abbrev SlabRun := SlabHeap × List (ℕ × ℕ)

/-- The pointer is null or a live block. -/
def Known (live : List (ℕ × ℕ)) (ptr : Option ℕ) : Prop := ∀ p ∈ ptr, ∃ n, (p, n) ∈ live

def dropBlock (live : List (ℕ × ℕ)) (ptr : ℕ) : List (ℕ × ℕ) := live.eraseP fun b => b.1 = ptr

def addBlock (live : List (ℕ × ℕ)) (size : ℕ) : Option ℕ → List (ℕ × ℕ)
  | none => live
  | some ptr => (ptr, size) :: live

def slabStep (p : SlabRun) : SlabAct → SlabRun
  | .malloc size =>
    let r := rtMalloc p.1 size
    (r.1, addBlock p.2 size r.2)
  | .realloc none size =>
    let r := rtRealloc p.1 none size
    (r.1, addBlock p.2 size r.2)
  | .realloc (some ptr) size =>
    let r := rtRealloc p.1 (some ptr) size
    if size.1 = 0 then (r.1, dropBlock p.2 ptr)
    else
      match r.2 with
      | none => (r.1, p.2)
      | some nptr => (r.1, (nptr, size.1) :: dropBlock p.2 ptr)
  | .free none => (rtFree p.1 none, p.2)
  | .free (some ptr) => (rtFree p.1 (some ptr), dropBlock p.2 ptr)

/-- The heap of `npages` pages after `rt_system_heap_init`. -/
def slabStart (npages : ℕ) (memusage : ℕ → MemUsage) : SlabRun :=
  (rtSystemHeapInit npages memusage, [])

/-! ### What holds between the calls -/

/-- The bytes that a block has. -/
def capacity (s : SlabHeap) (ptr : ℕ) : ℕ :=
  match (s.memusage (btokup ptr)).type with
  | .large => (s.memusage (btokup ptr)).size * rtMmPageSize
  | .small => (s.zone (zoneOf s ptr)).chunksize
  | .free => 0

/-- A chunk is on the free list, or has never been used. -/
def SlabZone.HasFree (v : SlabZone) : Prop := v.freechunk ≠ [] ∨ v.uindex + 1 < v.nmax

/-- `zones` are the zones, except those that have become free and are kept for the next ones. -/
structure SlabOk (npages : ℕ) (p : SlabRun) (zones : List ℕ) : Prop where
  /-- The semaphore has been released as often as it was taken. -/
  sem : p.1.heapSem = 1
  count : ∀ z ∈ zones ++ p.1.zoneFree, (p.1.zone z).uindex < (p.1.zone z).nmax
    ∧ (p.1.zone z).nfree = (p.1.zone z).freechunk.length
      + ((p.1.zone z).nmax - 1 - (p.1.zone z).uindex)
  listed : ∀ z zi, z ∈ p.1.zoneArray zi ↔
    z ∈ zones ∧ (p.1.zone z).zoneindex = zi ∧ (p.1.zone z).HasFree
  inside : ∀ b ∈ p.2, (p.1.memusage (btokup b.1)).type = .small →
    zoneOf p.1 b.1 ∈ zones ∧ zoneOf p.1 b.1 + sizeofSlabZone ≤ b.1
      ∧ b.1 + capacity p.1 b.1 ≤ zoneOf p.1 b.1 + p.1.zoneSize
  enough : ∀ b ∈ p.2, b.2 ≤ capacity p.1 b.1
  apart : p.2.Pairwise fun b c => b.1 + capacity p.1 b.1 ≤ c.1 ∨ c.1 + capacity p.1 c.1 ≤ b.1
  /-- Each page is free, or in `memusage`, in one zone, or in one large block. -/
  pages : Tiles npages (p.1.pageList ++ usageRange npages :: ((zones ++ p.1.zoneFree).map p.1.range
    ++ (p.2.filter fun b => (p.1.memusage (btokup b.1)).type = .large).map
      fun b => (btokup b.1, (p.1.memusage (btokup b.1)).size)))

/-- The call is on live blocks. -/
def OnLive (p : SlabRun) : SlabAct → Prop
  | .malloc _ => True
  | .realloc ptr _ => Known p.2 ptr
  | .free ptr => Known p.2 ptr

/-- If the call needs a new zone, there is room for it. -/
def HasRoom (p : SlabRun) : SlabAct → Prop
  | .malloc size => ¬NoRoom p.1 size
  | .realloc none size => ¬NoRoom p.1 size
  | .realloc (some ptr) size =>
    match (p.1.memusage (btokup ptr)).type with
    | .large => ¬NoRoom p.1 size
    | .small => capacity p.1 ptr ≠ (zoneindex size).2 → ¬NoRoom p.1 (zoneindex size).2
    | .free => True
  | .free _ => True

def RunInv (npages : ℕ) (p : SlabRun) : Prop :=
  p.1.heapSem = 1 ∧ ∃ L, Inv npages p.1 L [] ∧ p.2.Perm L.blocks

/-! ### The invariant holds, and says enough -/

variable {N n z : ℕ} {s : SlabHeap} {L : Layout} {live : List (ℕ × ℕ)} {b : ℕ × ℕ}

namespace Inv

theorem capacity_small (h : Inv N s L []) (hz : z ∈ L.zones) (hb : b ∈ L.small z) :
    zoneOf s b.1 = z ∧ (s.memusage (btokup b.1)).type = .small
      ∧ capacity s b.1 = (s.zone z).chunksize := by
  have hin := (h.zone z hz).inside (List.mem_map_of_mem hb)
  have hmin := (h.zone z hz).sizeClass.min
  simp only [minChunkSize] at hmin
  obtain ⟨hzone, htype⟩ := h.zoneOf_eq (h.marked z (List.mem_append_left _ hz)) (p := b.1)
    (by omega) (by omega)
  exact ⟨hzone, htype, by simp only [capacity, htype, hzone]⟩

theorem capacity_large (h : Inv N s L []) {c : LargeBlock} (hc : c ∈ L.large) :
    btokup c.block.1 = c.page ∧ s.memusage (btokup c.block.1) = ⟨.large, c.pages⟩
      ∧ capacity s c.block.1 = c.pages * rtMmPageSize := by
  have hpage : btokup c.block.1 = c.page := Nat.mul_div_cancel _ (by decide)
  have husage := (h.large c hc).1
  exact ⟨hpage, by rw [hpage, husage], by simp only [capacity, hpage, husage]⟩

/-- The pages of the zones and of the large blocks. -/
theorem ranges_apart (h : Inv N s L []) :
    L.zones.Pairwise (fun y z => Apart (s.range y) (s.range z))
      ∧ L.large.Pairwise (fun c d => Apart c.range d.range)
      ∧ ∀ z ∈ L.zones, ∀ c ∈ L.large, Apart (s.range z) c.range := by
  have hall : (s.pageList ++ owned N s L).Pairwise Apart := h.tiles.apart
  have howned := (List.pairwise_cons.1 (List.pairwise_append.1 hall).2.1).2
  obtain ⟨hzones, hlarge, hcross⟩ := List.pairwise_append.1 howned
  have hzones := (List.pairwise_append.1 (List.pairwise_map.1 hzones)).1
  refine ⟨hzones, List.pairwise_map.1 hlarge, fun z hz c hc => ?_⟩
  exact hcross _ (List.mem_map_of_mem (List.mem_append_left _ hz)) _ (List.mem_map_of_mem hc)

/-- A block lies in the pages of its zone, or is a large one. -/
theorem within (h : Inv N s L []) (hz : z ∈ L.zones) (hb : b ∈ L.small z) :
    (s.range z).1 * rtMmPageSize ≤ b.1
      ∧ b.1 + capacity s b.1 ≤ ((s.range z).1 + (s.range z).2) * rtMmPageSize := by
  have hin := (h.zone z hz).inside (List.mem_map_of_mem hb)
  have hmarked := (h.marked z (List.mem_append_left _ hz)).1
  have hsize := h.config.pages
  rw [(h.capacity_small hz hb).2.2]
  simp only [SlabHeap.range, btokup, rtMmPageSize] at *
  omega

theorem blocks_apart (h : Inv N s L []) : L.blocks.Pairwise fun b c =>
    b.1 + capacity s b.1 ≤ c.1 ∨ c.1 + capacity s c.1 ≤ b.1 := by
  obtain ⟨hzones, hlarge, hcross⟩ := h.ranges_apart
  refine List.pairwise_append.2 ⟨List.pairwise_flatMap.2 ⟨fun z hz => ?_, ?_⟩, ?_, ?_⟩
  · have hchunks := List.pairwise_map.1 (h.zone z hz).apart
    refine hchunks.imp_of_mem fun {b c} hb hc hbc => ?_
    rwa [(h.capacity_small hz hb).2.2, (h.capacity_small hz hc).2.2]
  · refine hzones.imp_of_mem fun {y z} hy hz hyz b hb c hc => ?_
    have h1 := h.within hy hb
    have h2 := h.within hz hc
    simp only [Apart, rtMmPageSize] at *
    omega
  · refine List.pairwise_map.2 (hlarge.imp_of_mem fun {c d} hc hd hcd => ?_)
    rw [(h.capacity_large hc).2.2, (h.capacity_large hd).2.2]
    simp only [Apart, LargeBlock.range, LargeBlock.block, rtMmPageSize] at *
    omega
  · intro b hb d hd
    obtain ⟨z, hz, hb⟩ := List.mem_flatMap.1 hb
    obtain ⟨c, hc, rfl⟩ := List.mem_map.1 hd
    have h1 := h.within hz hb
    have h2 := hcross z hz c hc
    rw [(h.capacity_large hc).2.2]
    simp only [Apart, LargeBlock.range, LargeBlock.block, rtMmPageSize] at *
    omega

theorem slabOk (h : Inv N s L []) (hsem : s.heapSem = 1) (hlive : live.Perm L.blocks) :
    SlabOk N (s, live) L.zones where
  sem := hsem
  count z hz := by
    obtain hz | hz := List.mem_append.1 hz
    · exact ⟨(h.zone z hz).uindex_lt, (h.zone z hz).nfree⟩
    · exact ⟨(h.cached z hz).uindex_lt, (h.cached z hz).nfree⟩
  listed z zi := by
    rw [h.listed]
    refine and_congr_right fun hz => and_congr_right fun _ => ?_
    have hnfree := (h.zone z hz).nfree
    have hlt := (h.zone z hz).uindex_lt
    unfold SlabZone.HasFree
    rw [← List.length_pos_iff_ne_nil]
    dsimp only
    omega
  inside b hb htype := by
    obtain ⟨z, hz, hb⟩ | ⟨c, hc, rfl⟩ := mem_blocks.1 (hlive.mem_iff.1 hb)
    · obtain ⟨hzone, -, hcap⟩ := h.capacity_small hz hb
      have hin := (h.zone z hz).inside (List.mem_map_of_mem hb)
      rw [hzone, hcap]
      exact ⟨hz, hin⟩
    · rw [(h.capacity_large hc).2.1] at htype
      cases htype
  enough b hb := by
    obtain ⟨z, hz, hb⟩ | ⟨c, hc, rfl⟩ := mem_blocks.1 (hlive.mem_iff.1 hb)
    · rw [(h.capacity_small hz hb).2.2]
      exact h.fits z hz b hb
    · rw [(h.capacity_large hc).2.2]
      exact (h.large c hc).2
  apart := (hlive.pairwise_iff fun {b c} h => Or.symm h).2 h.blocks_apart
  pages := by
    refine h.tiles.perm (show List.Perm (s.pageList ++ owned N s L) _ from
      List.Perm.append_left _ (List.Perm.cons _ (List.Perm.append_left _ ?_)))
    have hsmall : (L.zones.flatMap L.small).filter
        (fun b => (s.memusage (btokup b.1)).type = .large) = [] := by
      refine List.filter_eq_nil_iff.2 fun b hb => ?_
      obtain ⟨z, hz, hb⟩ := List.mem_flatMap.1 hb
      rw [(h.capacity_small hz hb).2.1]
      decide
    have hlarge : (L.large.map LargeBlock.block).filter
        (fun b => (s.memusage (btokup b.1)).type = .large) = L.large.map LargeBlock.block := by
      refine List.filter_eq_self.2 fun b hb => ?_
      obtain ⟨c, hc, rfl⟩ := List.mem_map.1 hb
      rw [(h.capacity_large hc).2.1]
      rfl
    have hperm := (hlive.filter fun b => (s.memusage (btokup b.1)).type = .large).map
      fun b => (btokup b.1, (s.memusage (btokup b.1)).size)
    rw [Layout.blocks, List.filter_append, hsmall, hlarge, List.nil_append, List.map_map] at hperm
    refine (List.Perm.of_eq (List.map_congr_left fun c hc => ?_)).trans hperm.symm
    obtain ⟨hpage, husage, -⟩ := h.capacity_large hc
    rw [hpage] at husage
    simp only [comp_apply, hpage, husage, LargeBlock.range]

end Inv

/-! ### Runs -/

variable {p : SlabRun} {size ptr : ℕ}

theorem RunInv.slabOk (h : RunInv N p) : ∃ zones, SlabOk N p zones := by
  obtain ⟨hsem, L, hinv, hlive⟩ := h
  exact ⟨L.zones, hinv.slabOk hsem hlive⟩

theorem RunInv.served (h : RunInv N p) {L : Layout} (hlive : p.2.Perm L.blocks)
    {r : SlabHeap × Option ℕ} (hr : Served N p.1 L n r) (hinv : Inv N p.1 L []) :
    RunInv N (r.1, addBlock p.2 n r.2) := by
  obtain rfl | ⟨q, L', hq, hsem, hinv', hblocks⟩ := hr
  · exact ⟨h.1, L, hinv, hlive⟩
  · refine ⟨hsem.trans h.1, L', hinv', ?_⟩
    rw [hq]
    exact (hlive.cons (q, n)).trans hblocks.symm

/-- A live block is taken from the list of blocks. -/
theorem dropBlock_perm (hknown : ∃ n, (ptr, n) ∈ live) :
    ∃ n, live.Perm ((ptr, n) :: dropBlock live ptr) := by
  obtain ⟨n, hn⟩ := hknown
  obtain ⟨b, xs, ys, -, hb, hlive, herase⟩ := List.exists_of_eraseP hn (p := fun b => b.1 = ptr)
    (by simp)
  obtain rfl : b.1 = ptr := by simpa using hb
  refine ⟨b.2, ?_⟩
  rw [dropBlock, herase, hlive]
  exact List.perm_middle

theorem RunInv.free (h : RunInv N p) (hknown : ∃ n, (ptr, n) ∈ p.2) :
    RunInv N (rtFree p.1 ptr, dropBlock p.2 ptr) := by
  obtain ⟨hsem, L, hinv, hlive⟩ := h
  obtain ⟨n, hdrop⟩ := dropBlock_perm hknown
  have hmem : (ptr, n) ∈ L.blocks := hlive.mem_iff.1 (hdrop.mem_iff.2 List.mem_cons_self)
  obtain ⟨L', hsem', hinv', hblocks⟩ := hinv.rtFree hmem
  refine ⟨hsem'.trans hsem, L', hinv', ?_⟩
  exact (hdrop.symm.trans (hlive.trans hblocks)).cons_inv

/-- A block is allocated in place of another. -/
theorem RunInv.replace {r : SlabHeap × Option ℕ} {q m : ℕ}
    (hr : RunInv N (r.1, addBlock p.2 m r.2)) (hq : r.2 = some q) (hknown : ∃ n, (ptr, n) ∈ p.2) :
    RunInv N (rtFree r.1 ptr, (q, m) :: dropBlock p.2 ptr) := by
  obtain ⟨n, hdrop⟩ := dropBlock_perm hknown
  rw [hq] at hr
  obtain ⟨hsem, L, hinv, hlive⟩ := hr
  have hlive : ((q, m) :: p.2).Perm L.blocks := hlive
  have hmem : (ptr, n) ∈ L.blocks :=
    hlive.mem_iff.1 (List.mem_cons_of_mem _ (hdrop.mem_iff.2 List.mem_cons_self))
  obtain ⟨L', hsem', hinv', hblocks⟩ := hinv.rtFree hmem
  refine ⟨hsem'.trans hsem, L', hinv', ?_⟩
  have hswap := (hdrop.cons (q, m)).trans (List.Perm.swap _ _ _)
  exact (hswap.symm.trans (hlive.trans hblocks)).cons_inv

theorem RunInv.malloc (h : RunInv N p) (hroom : ¬NoRoom p.1 size) (hsize : size < 2 ^ 32)
    (hn : n ≤ size) : RunInv N ((rtMalloc p.1 size).1, addBlock p.2 n (rtMalloc p.1 size).2) := by
  obtain ⟨hsem, L, hinv, hlive⟩ := id h
  exact h.served hlive (hinv.rtMalloc hroom hsize hn) hinv

theorem RunInv.noRoom (h : RunInv N p) (hno : NoRoom p.1 size) :
    (rtMalloc p.1 size).2 = none ∧ (rtMalloc p.1 size).1.heapSem = 2 := by
  obtain ⟨hsem, L, hinv, -⟩ := h
  rw [hinv.rtMalloc_fail hno]
  exact ⟨rfl, by simp only [release, hsem]; rfl⟩

/-- The block that `rt_realloc` moves: `n` bytes are asked of `rt_malloc` for `m` bytes. -/
theorem RunInv.moved (h : RunInv N p) (hknown : ∃ n, (ptr, n) ∈ p.2) {m : ℕ}
    (hroom : ¬NoRoom p.1 n) (hn : n < 2 ^ 32) (hm : m ≤ n) :
    RunInv N (match (rtMalloc p.1 n).2 with
      | none => ((rtMalloc p.1 n).1, p.2)
      | some nptr => (rtFree (rtMalloc p.1 n).1 ptr, (nptr, m) :: dropBlock p.2 ptr)) := by
  have hmalloc := h.malloc hroom hn hm
  cases hq : (rtMalloc p.1 n).2 with
  | none =>
    rw [hq] at hmalloc
    exact hmalloc
  | some q => exact RunInv.replace hmalloc hq hknown

/-- A chunk is kept when its class is the right one for the new size. -/
theorem RunInv.keep (h : RunInv N p) (hknown : ∃ n, (ptr, n) ∈ p.2)
    (htype : (p.1.memusage (btokup ptr)).type = .small) (hsize : size ≤ capacity p.1 ptr) :
    RunInv N (p.1, (ptr, size) :: dropBlock p.2 ptr) := by
  obtain ⟨hsem, L, hinv, hlive⟩ := h
  obtain ⟨n, hdrop⟩ := dropBlock_perm hknown
  obtain ⟨z, hz, hb⟩ | ⟨c, hc, hblock⟩ :=
    Inv.mem_blocks.1 (hlive.mem_iff.1 (hdrop.mem_iff.2 List.mem_cons_self))
  · have hsmall := List.perm_cons_erase hb
    have hnodup := (List.nodup_append'.1 hinv.zones_nodup).1
    have hcap := (hinv.capacity_small hz hb).2.2
    refine ⟨hsem, _, hinv.resize hz hsmall (hsize.trans_eq hcap), ?_⟩
    have hupdate := flatMap_update_perm hnodup hz ((ptr, size) :: (L.small z).erase (ptr, n))
      (f := L.small)
    have hflat := (flatMap_perm (f := L.small) hz).trans (hsmall.append_right _)
    have hblocks := hlive.trans (hflat.append_right _)
    have hrest := (hdrop.symm.trans hblocks).cons_inv
    exact (hrest.cons (ptr, size)).trans (hupdate.append_right _).symm
  · have husage := (hinv.capacity_large hc).2.1
    rw [hblock] at husage
    rw [husage] at htype
    cases htype

theorem RunInv.type (h : RunInv N p) (hknown : ∃ n, (ptr, n) ∈ p.2) :
    (p.1.memusage (btokup ptr)).type = .small ∧ capacity p.1 ptr = (p.1.zone (zoneOf p.1 ptr)).chunksize
      ∨ (p.1.memusage (btokup ptr)).type = .large := by
  obtain ⟨-, L, hinv, hlive⟩ := h
  obtain ⟨n, hn⟩ := hknown
  obtain ⟨z, hz, hb⟩ | ⟨c, hc, hblock⟩ := Inv.mem_blocks.1 (hlive.mem_iff.1 hn)
  · obtain ⟨hzone, htype, hcap⟩ := hinv.capacity_small hz hb
    exact Or.inl ⟨htype, by rw [hzone]; exact hcap⟩
  · have husage := (hinv.capacity_large hc).2.1
    rw [hblock] at husage
    exact Or.inr (by rw [husage])

theorem slabStep_realloc (hsize : size < 2 ^ 32) : slabStep p (.realloc (some ptr) ⟨size, hsize⟩)
    = if size = 0 then (rtFree p.1 ptr, dropBlock p.2 ptr)
      else
        match (p.1.memusage (btokup ptr)).type with
        | .large =>
          match (rtMalloc p.1 size).2 with
          | none => ((rtMalloc p.1 size).1, p.2)
          | some nptr => (rtFree (rtMalloc p.1 size).1 ptr, (nptr, size) :: dropBlock p.2 ptr)
        | .small =>
          if (p.1.zone (zoneOf p.1 ptr)).chunksize = (zoneindex size).2 then
            (p.1, (ptr, size) :: dropBlock p.2 ptr)
          else
            match (rtMalloc p.1 (zoneindex size).2).2 with
            | none => ((rtMalloc p.1 (zoneindex size).2).1, p.2)
            | some nptr => (rtFree (rtMalloc p.1 (zoneindex size).2).1 ptr,
                (nptr, size) :: dropBlock p.2 ptr)
        | .free => (p.1, p.2) := by
  by_cases hzero : size = 0
  · simp only [slabStep, rtRealloc, if_pos hzero]
  simp only [slabStep, rtRealloc, if_neg hzero]
  cases (p.1.memusage (btokup ptr)).type with
  | free => rfl
  | large =>
    dsimp only
    cases (rtMalloc p.1 size).2 with
    | none => rfl
    | some q => rfl
  | small =>
    dsimp only
    by_cases hsame : (p.1.zone (zoneOf p.1 ptr)).chunksize = (zoneindex size).2
    · simp only [if_pos hsame]
    · simp only [if_neg hsame]
      cases (rtMalloc p.1 (zoneindex size).2).2 with
      | none => rfl
      | some q => rfl

theorem RunInv.realloc (h : RunInv N p) (hknown : ∃ n, (ptr, n) ∈ p.2) (hsize : size < 2 ^ 32)
    (hroom : HasRoom p (.realloc (some ptr) ⟨size, hsize⟩)) :
    RunInv N (slabStep p (.realloc (some ptr) ⟨size, hsize⟩)) := by
  rw [slabStep_realloc]
  by_cases hzero : size = 0
  · rw [if_pos hzero]
    exact h.free hknown
  rw [if_neg hzero]
  simp only [HasRoom] at hroom
  obtain ⟨htype, hcap⟩ | htype := h.type hknown
  · rw [htype] at hroom ⊢
    dsimp only at hroom ⊢
    rw [← hcap]
    by_cases hsame : capacity p.1 ptr = (zoneindex size).2
    · rw [if_pos hsame]
      exact h.keep hknown htype (hsame ▸ le_zoneindex size)
    · rw [if_neg hsame]
      exact h.moved hknown (hroom hsame) (zoneindex_lt hsize) (le_zoneindex size)
  · rw [htype] at hroom ⊢
    exact h.moved hknown hroom hsize le_rfl

theorem RunInv.realloc_noRoom (h : RunInv N p) (hknown : ∃ n, (ptr, n) ∈ p.2) (hsize : size < 2 ^ 32)
    (hno : ¬HasRoom p (.realloc (some ptr) ⟨size, hsize⟩)) :
    (slabStep p (.realloc (some ptr) ⟨size, hsize⟩)).1.heapSem = 2 := by
  simp only [HasRoom] at hno
  rw [slabStep_realloc]
  obtain ⟨htype, hcap⟩ | htype := h.type hknown
  · rw [htype] at hno ⊢
    dsimp only at hno ⊢
    obtain ⟨hne, hno⟩ := Classical.not_imp.1 hno
    have hno := not_not.1 hno
    have hzero : size ≠ 0 := fun hzero => absurd hno.1 (by rw [hzero]; decide)
    rw [if_neg hzero, ← hcap, if_neg hne, (h.noRoom hno).1]
    exact (h.noRoom hno).2
  · rw [htype] at hno ⊢
    have hno := not_not.1 hno
    rw [if_neg hno.1.ne']
    dsimp only
    rw [(h.noRoom hno).1]
    exact (h.noRoom hno).2

theorem slabStep_inv {a : SlabAct} (h : RunInv N p) (hlive : OnLive p a) (hroom : HasRoom p a) :
    RunInv N (slabStep p a) := by
  cases a with
  | malloc size => exact h.malloc hroom size.2 le_rfl
  | realloc ptr size =>
    cases ptr with
    | none => exact h.malloc hroom size.2 le_rfl
    | some ptr => exact h.realloc (hlive ptr rfl) size.2 hroom
  | free ptr =>
    cases ptr with
    | none => exact h
    | some ptr => exact h.free (hlive ptr rfl)

theorem slabStep_noRoom {a : SlabAct} (h : RunInv N p) (hlive : OnLive p a) (hno : ¬HasRoom p a) :
    (slabStep p a).1.heapSem = 2 := by
  cases a with
  | malloc size => exact (h.noRoom (not_not.1 hno)).2
  | realloc ptr size =>
    cases ptr with
    | none => exact (h.noRoom (not_not.1 hno)).2
    | some ptr => exact h.realloc_noRoom (hlive ptr rfl) size.2 hno
  | free ptr =>
    cases ptr with
    | none => exact absurd trivial hno
    | some ptr => exact absurd trivial hno

theorem zoneSizeLoop_config (limsize : ℕ) :
    Config (zoneSizeLoop limsize 2 zallocMinZoneSize)
      (min (zoneSizeLoop limsize 2 zallocMinZoneSize / 4) zallocZoneLimit)
      (zoneSizeLoop limsize 2 zallocMinZoneSize / rtMmPageSize) := by
  have hsize : zoneSizeLoop limsize 2 zallocMinZoneSize = zallocMinZoneSize
      ∨ zoneSizeLoop limsize 2 zallocMinZoneSize = 2 * zallocMinZoneSize
      ∨ zoneSizeLoop limsize 2 zallocMinZoneSize = 4 * zallocMinZoneSize := by
    simp only [zoneSizeLoop]
    split_ifs
    · exact Or.inr (Or.inr rfl)
    · exact Or.inr (Or.inl rfl)
    · exact Or.inl rfl
  obtain hsize | hsize | hsize := hsize
  · rw [hsize]
    exact ⟨by decide, by decide, by decide, by decide⟩
  · rw [hsize]
    exact ⟨by decide, by decide, by decide, by decide⟩
  · rw [hsize]
    exact ⟨by decide, by decide, by decide, by decide⟩

/-- The pages of `memusage` come out of the one run of free pages. -/
theorem pageAlloc_usage {npages : ℕ} (hpos : 0 < npages) :
    Tiles npages ((pageAlloc (usageRange npages).2 [(0, npages)]).2 ++ [usageRange npages]) := by
  have hk : 0 < (usageRange npages).2 ∧ (usageRange npages).2 ≤ npages := by
    simp only [usageRange, rtMmPageSize]
    omega
  have hwhole := Tiles.whole hpos
  simp only [pageAlloc]
  split_ifs with hlt heq
  · have hcut : Tiles npages
        [(0, (usageRange npages).2 + (npages - (usageRange npages).2))] := by
      rwa [Nat.add_sub_of_le hlt.le]
    exact (hcut.split hk.1 (Nat.sub_pos_of_lt hlt)).perm (List.Perm.swap _ _ _)
  · have hall : usageRange npages = (0, npages) := Prod.ext rfl heq.symm
    rw [hall]
    exact hwhole
  · omega

theorem slabStart_inv {npages : ℕ} (hpos : 0 < npages) (memusage : ℕ → MemUsage) :
    RunInv npages (slabStart npages memusage) := by
  have hk : (npages * 4 + 4095) / rtMmPageSize ≠ 0 := by
    simp only [rtMmPageSize]
    omega
  have hstart : rtSystemHeapInit npages memusage
      = { zoneSize := zoneSizeLoop (npages * rtMmPageSize) 2 zallocMinZoneSize
          zoneLimit := min (zoneSizeLoop (npages * rtMmPageSize) 2 zallocMinZoneSize / 4) zallocZoneLimit
          zonePageCnt := zoneSizeLoop (npages * rtMmPageSize) 2 zallocMinZoneSize / rtMmPageSize
          zone := fun _ => ⟨0, 0, 0, 0, 0, 0, 0, []⟩
          zoneArray := fun _ => []
          zoneFree := []
          zoneFreeCnt := 0
          memusage := memusage
          pageList := (pageAlloc (usageRange npages).2 [(0, npages)]).2
          heapSem := 1 } := by
    simp only [rtSystemHeapInit, rtPageAlloc, if_neg hk]
    rfl
  unfold RunInv slabStart
  rw [hstart]
  refine ⟨rfl, ⟨[], fun _ => [], []⟩, ?_, List.Perm.nil⟩
  have hnil : ∀ {α : Type} {a : α} {P : Prop}, a ∈ ([] : List α) → P := fun h =>
    absurd h List.not_mem_nil
  exact ⟨zoneSizeLoop_config _, pageAlloc_usage hpos, fun _ => hnil, fun _ => hnil, fun _ => hnil,
    fun _ => hnil, fun _ => hnil, fun _ _ => ⟨hnil, fun hz => hnil hz.1⟩, fun _ => List.nodup_nil, rfl⟩

end EasyCore.Slab
