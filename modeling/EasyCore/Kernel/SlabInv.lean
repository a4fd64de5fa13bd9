import EasyCore.Kernel.SlabZone
import EasyCore.Lib.Ranges

/-! The invariant of the slab allocator. The free pages, the pages of the zones, of the large blocks and
    of `memusage` itself tile the heap; the pages that a call has in hand are `rs`. Each part of a call
    keeps the invariant, and says which pages it takes or leaves. -/

namespace EasyCore.Slab
open Function Kernel Ranges

variable {N k b n z : ℕ} {s : SlabHeap} {l rs : List (ℕ × ℕ)}

theorem perm_middle_symm {α : Type*} (xs : List α) (x : α) (ys : List α) :
    (x :: (xs ++ ys)).Perm (xs ++ x :: ys) := List.perm_middle.symm

/-! ### Free pages -/

/-- The pages come out of a run of free pages, or no run is long enough. -/
theorem pageAlloc_tiles (hk : 0 < k) : ∀ {l rs : List (ℕ × ℕ)}, Tiles N (l ++ rs) →
    (∃ b, (pageAlloc k l).1 = some b ∧ Tiles N ((b, k) :: ((pageAlloc k l).2 ++ rs)))
      ∨ (pageAlloc k l = (none, l) ∧ ∀ r ∈ l, r.2 < k)
  | [], _, _ => Or.inr ⟨rfl, fun _ hr => nomatch hr⟩
  | (b, page) :: rest, rs, h => by
    unfold pageAlloc
    split_ifs with hlt heq
    · refine Or.inl ⟨b, rfl, ?_⟩
      rw [← Nat.add_sub_of_le hlt.le] at h
      exact Tiles.split h hk (Nat.sub_pos_of_lt hlt)
    · exact Or.inl ⟨b, rfl, heq ▸ h⟩
    · obtain ⟨c, hc, htiles⟩ | ⟨hnone, hall⟩ :=
        pageAlloc_tiles hk (h.perm (perm_middle_symm rest (b, page) rs))
      · exact Or.inl ⟨c, hc, htiles.perm (List.perm_middle.cons _)⟩
      · refine Or.inr ⟨by rw [hnone], fun r hr => ?_⟩
        obtain rfl | hr := List.mem_cons.1 hr
        · dsimp only
          omega
        · exact hall r hr

theorem joinRun_tiles (h : Tiles N ((b, k) :: (l ++ rs))) : Tiles N (joinRun b k l ++ rs) := by
  unfold joinRun
  split
  · exact h
  · split_ifs with heq
    · subst heq
      exact h.join
    · exact h

theorem pageFree_tiles : ∀ {l rs : List (ℕ × ℕ)}, Tiles N ((b, k) :: (l ++ rs)) →
    Tiles N (pageFree b k l ++ rs)
  | [], _, h => h
  | (c, page) :: rest, rs, h => by
    unfold pageFree
    split_ifs with hbehind hbefore hlt
    · subst hbehind
      exact joinRun_tiles (h.perm (List.Perm.swap _ _ _)).join
    · subst hbefore
      rw [Nat.add_comm page k]
      exact h.join
    · exact h
    · have h' : Tiles N ((b, k) :: (rest ++ (c, page) :: rs)) :=
        h.perm ((perm_middle_symm rest (c, page) rs).cons _)
      exact (pageFree_tiles h').perm List.perm_middle

/-! ### The invariant -/

/-- The sizes that `rt_system_heap_init` chooses. -/
structure Config (zoneSize zoneLimit zonePageCnt : ℕ) : Prop where
  min : zallocMinZoneSize ≤ zoneSize
  pages : zoneSize = zonePageCnt * rtMmPageSize
  limit : zoneLimit = 8192 ∨ zoneLimit = 16384
  quarter : 4 * zoneLimit ≤ zoneSize

/-- A large block: its pages, and the size that was asked for. -/
structure LargeBlock where
  page : ℕ
  pages : ℕ
  size : ℕ

def LargeBlock.range (b : LargeBlock) : ℕ × ℕ := (b.page, b.pages)

/-- The address of the block, and the size that was asked for. -/
def LargeBlock.block (b : LargeBlock) : ℕ × ℕ := (b.page * rtMmPageSize, b.size)

/-- The zones, except those on the list of free zones, the live chunks of each, and the large blocks.
    A chunk is its address with the size that was asked for. -/
structure Layout where
  zones : List ℕ
  small : ℕ → List (ℕ × ℕ)
  large : List LargeBlock

def Layout.blocks (L : Layout) : List (ℕ × ℕ) :=
  L.zones.flatMap L.small ++ L.large.map LargeBlock.block

/-- The pages of a zone. -/
def SlabHeap.range (s : SlabHeap) (z : ℕ) : ℕ × ℕ := (btokup z, s.zonePageCnt)

/-- The pages of `memusage`. -/
def usageRange (npages : ℕ) : ℕ × ℕ := (0, (npages * 4 + 4095) / rtMmPageSize)

/-- The pages that are not free. -/
def owned (N : ℕ) (s : SlabHeap) (L : Layout) : List (ℕ × ℕ) :=
  usageRange N :: ((L.zones ++ s.zoneFree).map s.range ++ L.large.map LargeBlock.range)

/-- The zone begins at a page, and `memusage` leads from each of its pages to its beginning. -/
def Marked (s : SlabHeap) (z : ℕ) : Prop :=
  z % rtMmPageSize = 0 ∧ ∀ i < s.zonePageCnt, s.memusage (btokup z + i) = ⟨.small, i⟩

structure Inv (N : ℕ) (s : SlabHeap) (L : Layout) (rs : List (ℕ × ℕ)) : Prop where
  config : Config s.zoneSize s.zoneLimit s.zonePageCnt
  tiles : Tiles N (rs ++ (s.pageList ++ owned N s L))
  marked : ∀ z ∈ L.zones ++ s.zoneFree, Marked s z
  large : ∀ b ∈ L.large, s.memusage b.page = ⟨.large, b.pages⟩ ∧ b.size ≤ b.pages * rtMmPageSize
  zone : ∀ z ∈ L.zones,
    ZoneOk s.zoneSize s.zoneLimit z (s.zone z) ((L.small z).map Prod.fst)
  fits : ∀ z ∈ L.zones, ∀ b ∈ L.small z, b.2 ≤ (s.zone z).chunksize
  /-- A zone that has become free differs from one with no live chunk in its magic number only. -/
  cached : ∀ z ∈ s.zoneFree,
    ZoneOk s.zoneSize s.zoneLimit z { s.zone z with magic := zallocSlabMagic } []
  listed : ∀ zi z, z ∈ s.zoneArray zi ↔
    z ∈ L.zones ∧ (s.zone z).zoneindex = zi ∧ 0 < (s.zone z).nfree
  nodup : ∀ zi, (s.zoneArray zi).Nodup
  freeCnt : s.zoneFreeCnt = s.zoneFree.length

namespace Inv
variable {L : Layout}

theorem take (h : Inv N s L rs) : Inv N (take s) L rs := { h with }

theorem release (h : Inv N s L rs) : Inv N (release s) L rs := { h with }

theorem zones_nodup (h : Inv N s L rs) : (L.zones ++ s.zoneFree).Nodup := by
  have hn := h.tiles.nodup
  unfold owned at hn
  rw [List.nodup_append'] at hn
  have hn := (List.nodup_append'.1 hn.2.1).2.1
  exact ((List.nodup_append'.1 (List.nodup_cons.1 hn).2).1).of_map s.range

/-! ### Pages in hand -/

theorem rtPageAlloc (h : Inv N s L []) (hk : 0 < k) :
    (Slab.rtPageAlloc s k = (s, none) ∧ ∀ r ∈ s.pageList, r.2 < k)
      ∨ ∃ b l, Slab.rtPageAlloc s k = ({ s with pageList := l }, some (b * rtMmPageSize))
        ∧ Inv N { s with pageList := l } L [(b, k)] := by
  have hrun : Slab.rtPageAlloc s k = ({ s with pageList := (pageAlloc k s.pageList).2 },
      (pageAlloc k s.pageList).1.map (· * rtMmPageSize)) := by
    simp [Slab.rtPageAlloc, Slab.take, Slab.release, hk.ne']
  obtain ⟨b, hb, htiles⟩ | ⟨hnone, hall⟩ :=
    pageAlloc_tiles hk (show Tiles N (s.pageList ++ owned N s L) from h.tiles)
  · refine Or.inr ⟨b, (pageAlloc k s.pageList).2, ?_, { h with tiles := htiles }⟩
    rw [hrun, hb]
    rfl
  · refine Or.inl ⟨?_, hall⟩
    rw [hrun, hnone]
    rfl

theorem rtPageFree (h : Inv N s L [(b, k)]) :
    ∃ l, Slab.rtPageFree s (b * rtMmPageSize) k = { s with pageList := l }
      ∧ Inv N { s with pageList := l } L [] := by
  refine ⟨pageFree b k s.pageList, ?_, { h with tiles := pageFree_tiles h.tiles }⟩
  simp [Slab.rtPageFree, Slab.take, Slab.release, rtMmPageSize]

/-- What `memusage` says of the pages in hand can be changed. -/
theorem setMemusage (h : Inv N s L [(b, k)]) {m : ℕ → MemUsage}
    (hm : ∀ i, ¬(b ≤ i ∧ i < b + k) → m i = s.memusage i) :
    Inv N { s with memusage := m } L [(b, k)] := by
  have hfree : ∀ i, ∀ r ∈ owned N s L, r.1 ≤ i ∧ i < r.1 + r.2 → m i = s.memusage i := by
    intro i r hr hi
    refine hm i fun hb => ?_
    exact h.tiles.not_mem (List.mem_append_right s.pageList hr) hb.1 hb.2 hi
  refine { h with marked := fun z hz => ⟨(h.marked z hz).1, fun i hi => ?_⟩, large := fun b hb => ?_ }
  · have hr : s.range z ∈ owned N s L :=
      List.mem_cons_of_mem _ (List.mem_append_left _ (List.mem_map_of_mem hz))
    have heq := hfree (btokup z + i) _ hr ⟨Nat.le_add_right _ _, Nat.add_lt_add_left hi _⟩
    exact heq.trans ((h.marked z hz).2 i hi)
  · have hr : b.range ∈ owned N s L :=
      List.mem_cons_of_mem _ (List.mem_append_right _ (List.mem_map_of_mem hb))
    have hpos := (h.tiles.inside _ (List.mem_append_right _ (List.mem_append_right _ hr))).1
    have heq := hfree b.page _ hr ⟨le_rfl, Nat.lt_add_of_pos_right hpos⟩
    exact ⟨heq.trans (h.large b hb).1, (h.large b hb).2⟩

theorem setUsage (h : Inv N s L [s.range z]) (f : ℕ → MemUsage) :
    Inv N (Slab.setUsage s z f) L [s.range z] :=
  h.setMemusage fun _ hi => if_neg hi

theorem addLarge (h : Inv N s L [(b, k)]) (hb : s.memusage b = ⟨.large, k⟩)
    (hn : n ≤ k * rtMmPageSize) :
    Inv N s { L with large := ⟨b, k, n⟩ :: L.large } [] := by
  refine { h with tiles := h.tiles.perm ?_, large := fun c hc => ?_ }
  · show List.Perm ((b, k) :: (s.pageList ++ owned N s L)) _
    unfold owned
    simp only [List.map_cons, List.nil_append]
    refine List.perm_middle.symm.trans (List.Perm.append_left _ ?_)
    exact (List.Perm.swap _ _ _).trans (List.perm_middle.symm.cons _)
  · obtain rfl | hc := List.mem_cons.1 hc
    · exact ⟨hb, hn⟩
    · exact h.large c hc

theorem dropLarge (h : Inv N s L []) {c : LargeBlock} {bs : List LargeBlock}
    (hc : L.large.Perm (c :: bs)) : Inv N s { L with large := bs } [c.range] := by
  refine { h with tiles := h.tiles.perm ?_, large := fun d hd => ?_ }
  · show List.Perm (s.pageList ++ owned N s L) (c.range :: (s.pageList ++ owned N s _))
    refine List.Perm.trans (List.Perm.append_left _ ?_) List.perm_middle
    unfold owned
    refine List.Perm.trans (List.Perm.cons _ ?_) (List.Perm.swap _ _ _)
    exact ((hc.map LargeBlock.range).append_left _).trans List.perm_middle
  · exact h.large d (hc.mem_iff.2 (List.mem_cons_of_mem _ hd))

/-! ### Zones in hand -/

/-- The first zone of those that have become free. -/
theorem popFree (h : Inv N s L []) {next : List ℕ} (hfree : s.zoneFree = z :: next) :
    Inv N { s with zoneFree := next, zoneFreeCnt := s.zoneFreeCnt - 1 } L [s.range z] := by
  refine { h with tiles := h.tiles.perm ?_, marked := fun y hy => ?_, cached := fun y hy => ?_,
                  freeCnt := ?_ }
  · show List.Perm (s.pageList ++ owned N s L) (s.range z :: (s.pageList ++ owned N _ L))
    refine List.Perm.trans (List.Perm.append_left _ ?_) List.perm_middle
    unfold owned
    rw [hfree]
    refine List.Perm.trans (List.Perm.cons _ ?_) (List.Perm.swap _ _ _)
    exact ((perm_middle_symm L.zones z next).symm.map s.range).append_right _
  · exact h.marked y (by rw [hfree]; exact List.mem_append.2 ((List.mem_append.1 hy).imp_right
      (List.mem_cons_of_mem _)))
  · exact h.cached y (by rw [hfree]; exact List.mem_cons_of_mem _ hy)
  · have := h.freeCnt
    rw [hfree, List.length_cons] at this
    push_cast at this
    dsimp only
    omega

/-- A zone joins those that have become free. -/
theorem pushFree (h : Inv N s L [s.range z]) (hz : Marked s z)
    (hok : ZoneOk s.zoneSize s.zoneLimit z { s.zone z with magic := zallocSlabMagic } []) :
    Inv N { s with zoneFree := z :: s.zoneFree, zoneFreeCnt := s.zoneFreeCnt + 1 } L [] := by
  refine { h with tiles := h.tiles.perm ?_, marked := fun y hy => ?_, cached := fun y hy => ?_,
                  freeCnt := ?_ }
  · show List.Perm (s.range z :: (s.pageList ++ owned N s L)) (s.pageList ++ owned N _ L)
    refine List.perm_middle.symm.trans (List.Perm.append_left _ ?_)
    unfold owned
    refine (List.Perm.swap _ _ _).trans (List.Perm.cons _ ?_)
    exact ((perm_middle_symm L.zones z s.zoneFree).map s.range).append_right _
  · obtain hy | hy := List.mem_append.1 hy
    · exact h.marked y (List.mem_append_left _ hy)
    · obtain rfl | hy := List.mem_cons.1 hy
      · exact hz
      · exact h.marked y (List.mem_append_right _ hy)
  · obtain rfl | hy := List.mem_cons.1 hy
    · exact hok
    · exact h.cached y hy
  · have := h.freeCnt
    rw [List.length_cons]
    push_cast
    omega

end Inv

end EasyCore.Slab
