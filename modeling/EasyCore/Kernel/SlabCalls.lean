import EasyCore.Kernel.SlabOps

/-! The calls of the slab allocator: which block each adds to the live ones, or takes from them. A call
    that needs a new zone, for which there is no room, gives the semaphore back once too often. -/

namespace EasyCore.Slab
open Function Kernel Ranges

/-- The call needs a new zone, and no run of free pages is long enough for one. -/
def NoRoom (s : SlabHeap) (size : ℕ) : Prop :=
  0 < size ∧ size < s.zoneLimit ∧ s.zoneArray (zoneindex size).1 = [] ∧ s.zoneFree = []
    ∧ ∀ r ∈ s.pageList, r.2 < s.zonePageCnt

/-- What a call for `n` bytes gives: one more block, or null with nothing changed. -/
def Served (N : ℕ) (s : SlabHeap) (L : Layout) (n : ℕ) (r : SlabHeap × Option ℕ) : Prop :=
  r = (s, none) ∨ ∃ p L', r.2 = some p ∧ r.1.heapSem = s.heapSem ∧ Inv N r.1 L' []
    ∧ L'.blocks.Perm ((p, n) :: L.blocks)

theorem release_take (s : SlabHeap) : release (take s) = s := by
  unfold release take
  rw [sub_add_cancel]

section Lists
variable {α : Type*} {f : ℕ → List α} {l : List ℕ} {z : ℕ}

theorem flatMap_perm (hz : z ∈ l) : (l.flatMap f).Perm (f z ++ (l.erase z).flatMap f) :=
  (List.perm_cons_erase hz).flatMap_right f

theorem flatMap_update (hz : z ∉ l) (bs : List α) : l.flatMap (update f z bs) = l.flatMap f :=
  List.flatMap_congr fun _ hy => update_of_ne (ne_of_mem_of_not_mem hy hz) _ _

theorem flatMap_update_perm (hl : l.Nodup) (hz : z ∈ l) (bs : List α) :
    (l.flatMap (update f z bs)).Perm (bs ++ (l.erase z).flatMap f) := by
  have h := flatMap_perm (f := update f z bs) hz
  rwa [update_self, flatMap_update hl.not_mem_erase] at h

end Lists

namespace Inv
variable {N n p z zi size : ℕ} {s : SlabHeap} {L : Layout}

/-! ### Allocation -/

theorem mallocLarge (h : Inv N s L []) (hsize : size < 2 ^ 32) (hn : n ≤ size) :
    Served N s L n (Slab.mallocLarge s size) := by
  set k := (size + 4095) % 2 ^ 32 / rtMmPageSize with hk
  have hdiv : k * rtMmPageSize / rtMmPageSize = k := Nat.mul_div_cancel _ (by decide)
  unfold Slab.mallocLarge
  simp only [← hk, hdiv]
  obtain hzero | hpos := Nat.eq_zero_or_pos k
  · left
    simp [hzero, Slab.rtPageAlloc]
  have hle : n ≤ k * rtMmPageSize := by
    simp only [rtMmPageSize] at hk ⊢
    omega
  obtain ⟨hnone, -⟩ | ⟨b, l, hsome, hinv⟩ := h.rtPageAlloc hpos
  · left
    rw [hnone]
  · right
    have hb : btokup (b * rtMmPageSize) = b := Nat.mul_div_cancel _ (by decide)
    have hset := hinv.setMemusage (m := update s.memusage b ⟨.large, k⟩) fun i hi =>
      update_of_ne (fun heq => hi ⟨heq.ge, heq ▸ Nat.lt_add_of_pos_right hpos⟩) _ _
    have hadd := hset.addLarge (update_self _ _ _) hle
    refine ⟨b * rtMmPageSize, { L with large := ⟨b, k, n⟩ :: L.large }, ?_, ?_, ?_,
      List.perm_middle⟩
    · rw [hsome]
    · rw [hsome]
      exact sub_add_cancel _ _
    · rw [hsome]
      simp only [hb]
      exact hadd.take.release

/-- A new zone is set up in the pages in hand. -/
theorem served_newZone (h : Inv N s L [s.range z]) (hz : Marked s z)
    (hclass : SizeClass s.zoneLimit zi size) (hn : n ≤ size) :
    ∃ p L', (Slab.newZone s zi z size).2 = some p
      ∧ (Slab.newZone s zi z size).1.heapSem = s.heapSem
      ∧ Inv N (Slab.newZone s zi z size).1 L' [] ∧ L'.blocks.Perm ((p, n) :: L.blocks) := by
  obtain ⟨hnotin, p, hp, hsem, hinv⟩ := h.newZone hz hclass hn
  refine ⟨p, _, hp, hsem, hinv, ?_⟩
  have hflat : (z :: L.zones).flatMap (update L.small z [(p, n)])
      = (p, n) :: L.zones.flatMap L.small := by
    rw [List.flatMap_cons, update_self, flatMap_update hnotin]
    rfl
  unfold Layout.blocks
  rw [hflat]
  exact List.Perm.refl _

theorem rtMalloc_array (hpos : 0 < size) (hlt : size < s.zoneLimit) {rest : List ℕ}
    (harray : s.zoneArray (zoneindex size).1 = z :: rest) :
    Slab.rtMalloc s size
      = (Slab.release (Slab.fromZone (Slab.take s) (zoneindex size).1 z rest (zoneindex size).2).1,
        (Slab.fromZone (Slab.take s) (zoneindex size).1 z rest (zoneindex size).2).2) := by
  have harray' : (Slab.take s).zoneArray (zoneindex size).1 = z :: rest := harray
  simp only [Slab.rtMalloc, if_neg hpos.ne', if_neg (Nat.not_le.2 hlt), harray']

theorem rtMalloc_free (hpos : 0 < size) (hlt : size < s.zoneLimit) {next : List ℕ}
    (harray : s.zoneArray (zoneindex size).1 = []) (hfree : s.zoneFree = z :: next) :
    Slab.rtMalloc s size
      = (Slab.release (Slab.newZone
          { Slab.take s with zoneFree := next, zoneFreeCnt := s.zoneFreeCnt - 1 }
          (zoneindex size).1 z (zoneindex size).2).1,
        (Slab.newZone { Slab.take s with zoneFree := next, zoneFreeCnt := s.zoneFreeCnt - 1 }
          (zoneindex size).1 z (zoneindex size).2).2) := by
  have harray' : (Slab.take s).zoneArray (zoneindex size).1 = [] := harray
  have hfree' : (Slab.take s).zoneFree = z :: next := hfree
  simp only [Slab.rtMalloc, if_neg hpos.ne', if_neg (Nat.not_le.2 hlt), harray', hfree']
  rfl

theorem rtMalloc_pages (hpos : 0 < size) (hlt : size < s.zoneLimit)
    (harray : s.zoneArray (zoneindex size).1 = []) (hfree : s.zoneFree = []) :
    Slab.rtMalloc s size
      = match (Slab.rtPageAlloc s (s.zoneSize / rtMmPageSize)).2 with
        | none => (Slab.release (Slab.rtPageAlloc s (s.zoneSize / rtMmPageSize)).1, none)
        | some z =>
          let r := Slab.newZone (Slab.setUsage
            (Slab.take (Slab.rtPageAlloc s (s.zoneSize / rtMmPageSize)).1) z fun off => ⟨.small, off⟩)
            (zoneindex size).1 z (zoneindex size).2
          (Slab.release r.1, r.2) := by
  have harray' : (Slab.take s).zoneArray (zoneindex size).1 = [] := harray
  have hfree' : (Slab.take s).zoneFree = [] := hfree
  simp only [Slab.rtMalloc, if_neg hpos.ne', if_neg (Nat.not_le.2 hlt), harray', hfree',
    release_take]
  rfl

theorem zonePages (h : Inv N s L []) :
    s.zoneSize / rtMmPageSize = s.zonePageCnt ∧ 0 < s.zonePageCnt := by
  have hcnt : s.zoneSize / rtMmPageSize = s.zonePageCnt := by
    rw [h.config.pages, Nat.mul_div_cancel _ (by decide)]
  exact ⟨hcnt, hcnt ▸ Nat.div_pos (le_trans (by decide) h.config.min) (by decide)⟩

theorem rtMalloc (h : Inv N s L []) (hroom : ¬NoRoom s size) (hsize : size < 2 ^ 32)
    (hn : n ≤ size) : Served N s L n (Slab.rtMalloc s size) := by
  obtain hzero | hpos := Nat.eq_zero_or_pos size
  · left
    rw [Slab.rtMalloc, if_pos hzero]
  obtain hlimit | hlt := le_or_gt s.zoneLimit size
  · rw [Slab.rtMalloc, if_neg hpos.ne', if_pos hlimit]
    exact h.mallocLarge hsize hn
  have hclass := zoneindex_class hpos hlt h.config.limit
  have hn' : n ≤ (zoneindex size).2 := hn.trans (le_zoneindex size)
  right
  cases harray : s.zoneArray (zoneindex size).1 with
  | cons z rest =>
    rw [rtMalloc_array hpos hlt harray]
    obtain ⟨hz, p, hp, hsem, hinv⟩ := h.take.fromZone harray hclass.eq hn'
    refine ⟨p, _, hp, ?_, hinv.release, ?_⟩
    · exact (congrArg (· + 1) hsem).trans (sub_add_cancel _ _)
    · have hnodup := (List.nodup_append'.1 h.zones_nodup).1
      have hsmall := flatMap_update_perm hnodup hz ((p, n) :: L.small z) (f := L.small)
      exact (hsmall.append_right _).trans
        (((flatMap_perm hz).append_right (L.large.map LargeBlock.block)).symm.cons (p, n))
  | nil =>
    cases hfree : s.zoneFree with
    | cons z next =>
      rw [rtMalloc_free hpos hlt harray hfree]
      have hmarked := h.marked z (List.mem_append_right _ (hfree ▸ List.mem_cons_self))
      obtain ⟨p, L', hp, hsem, hinv, hblocks⟩ :=
        (h.take.popFree hfree).served_newZone hmarked hclass hn'
      refine ⟨p, L', hp, ?_, hinv.release, hblocks⟩
      exact (congrArg (· + 1) hsem).trans (sub_add_cancel _ _)
    | nil =>
      obtain ⟨hcnt, hcnt'⟩ := h.zonePages
      rw [rtMalloc_pages hpos hlt harray hfree, hcnt]
      obtain ⟨-, hall⟩ | ⟨b, l, hsome, hinv⟩ := h.rtPageAlloc hcnt'
      · exact absurd ⟨hpos, hlt, harray, hfree, hall⟩ hroom
      rw [hsome]
      have hb : btokup (b * rtMmPageSize) = b := Nat.mul_div_cancel _ (by decide)
      rw [← hb] at hinv
      have hset := Inv.setUsage (z := b * rtMmPageSize) hinv.take fun off => ⟨.small, off⟩
      have hmarked : Marked (Slab.setUsage (Slab.take { s with pageList := l }) (b * rtMmPageSize)
          fun off => ⟨.small, off⟩) (b * rtMmPageSize) := by
        refine ⟨Nat.mul_mod_left _ _, fun i hi => ?_⟩
        exact (if_pos ⟨Nat.le_add_right _ _, Nat.add_lt_add_left hi _⟩).trans
          (by rw [Nat.add_sub_cancel_left])
      obtain ⟨p, L', hp, hsem, hinv', hblocks⟩ := hset.served_newZone hmarked hclass hn'
      refine ⟨p, L', hp, ?_, hinv'.release, hblocks⟩
      exact (congrArg (· + 1) hsem).trans (sub_add_cancel _ _)

/-- No run of free pages is long enough. -/
theorem pageAlloc_none {k : ℕ} : ∀ {l : List (ℕ × ℕ)}, (∀ r ∈ l, r.2 < k) → pageAlloc k l = (none, l)
  | [], _ => rfl
  | (b, page) :: rest, hall => by
    have hlt : page < k := hall (b, page) List.mem_cons_self
    have hrest := pageAlloc_none fun r hr => hall r (List.mem_cons_of_mem _ hr)
    rw [pageAlloc, if_neg hlt.not_gt, if_neg hlt.ne, hrest]

/-- The semaphore is given back twice. -/
theorem rtMalloc_fail (h : Inv N s L []) (hno : NoRoom s size) :
    Slab.rtMalloc s size = (Slab.release s, none) := by
  obtain ⟨hpos, hlt, harray, hfree, hall⟩ := hno
  obtain ⟨hcnt, hcnt'⟩ := h.zonePages
  have hnone : Slab.rtPageAlloc s s.zonePageCnt = (s, none) := by
    simp only [Slab.rtPageAlloc, if_neg hcnt'.ne', Slab.take, pageAlloc_none hall, Slab.release,
      sub_add_cancel, Option.map_none]
  rw [rtMalloc_pages hpos hlt harray hfree, hcnt, hnone]

/-! ### Release -/

theorem zoneOf_eq (h : Inv N s L []) (hz : Marked s z) (hp : z ≤ p) (hp' : p < z + s.zoneSize) :
    zoneOf s p = z ∧ (s.memusage (btokup p)).type = .small := by
  obtain ⟨halign, husage⟩ := hz
  have hsize := h.config.pages
  obtain ⟨i, hi⟩ : ∃ i, btokup p = btokup z + i := by
    refine Nat.exists_eq_add_of_le (Nat.div_le_div_right hp)
  have hlt : i < s.zonePageCnt := by
    simp only [btokup, rtMmPageSize] at *
    omega
  rw [zoneOf, hi, husage i hlt]
  refine ⟨?_, rfl⟩
  simp only [btokup, rtMmPageSize] at *
  omega

/-- A chunk of a zone goes back to it. -/
theorem freeChunk (h : Inv N s L []) (hz : z ∈ L.zones) {b : ℕ × ℕ} (hb : b ∈ L.small z) :
    ∃ L', (Slab.freeChunk s b.1).heapSem = s.heapSem ∧ Inv N (Slab.freeChunk s b.1) L' []
      ∧ L.blocks.Perm (b :: L'.blocks) := by
  have hsmall := List.perm_cons_erase hb
  have hin := (h.zone z hz).inside (List.mem_map_of_mem hb)
  have hmin := (h.zone z hz).sizeClass.min
  have hmarked := h.marked z (List.mem_append_left _ hz)
  obtain ⟨hzone, -⟩ := h.zoneOf_eq hmarked (p := b.1) (by omega) (by
    simp only [minChunkSize] at hmin
    omega)
  set v : SlabZone := { s.zone z with
    freechunk := b.1 :: (s.zone z).freechunk, nfree := (s.zone z).nfree + 1 } with hv
  set s' : SlabHeap := { Slab.take s with
    zoneArray := if (s.zone z).nfree = 0 then
        update s.zoneArray v.zoneindex (z :: s.zoneArray v.zoneindex) else s.zoneArray
    zone := update s.zone z v } with hs'
  have hgive : Inv N s' { L with small := update L.small z ((L.small z).erase b) } [] :=
    h.take.giveChunk hz hsmall hv
  have hrun : Slab.freeChunk s b.1 = if v.nfree = v.nmax ∧ s'.zoneArray v.zoneindex ≠ [z] then
      Slab.retire s' v.zoneindex z else Slab.release s' := by
    have hzone' : zoneOf (Slab.take s) b.1 = z := hzone
    have hif : (if (s.zone z).nfree = 0 then
          { Slab.take s with zoneArray := update s.zoneArray v.zoneindex (z :: s.zoneArray v.zoneindex) }
        else Slab.take s)
        = { Slab.take s with
            zoneArray := (if (s.zone z).nfree = 0 then
              update s.zoneArray v.zoneindex (z :: s.zoneArray v.zoneindex) else s.zoneArray) } := by
      split_ifs
      · rfl
      · rfl
    unfold Slab.freeChunk
    simp only [hzone']
    exact (congrArg (fun t : SlabHeap => if v.nfree = v.nmax ∧ t.zoneArray v.zoneindex ≠ [z] then
      Slab.retire (t.setZone z v) v.zoneindex z else Slab.release (t.setZone z v)) hif).trans rfl
  have hnodup := (List.nodup_append'.1 h.zones_nodup).1
  have hblocks : L.blocks.Perm
      (b :: Layout.blocks { L with small := update L.small z ((L.small z).erase b) }) := by
    have hupdate := flatMap_update_perm hnodup hz ((L.small z).erase b) (f := L.small)
    have hflat := (flatMap_perm (f := L.small) hz).trans (hsmall.append_right _)
    refine (hflat.append_right _).trans (List.Perm.cons _ ?_)
    exact (hupdate.append_right _).symm
  rw [hrun]
  split_ifs with hretire
  · have hzone : s'.zone z = v := update_self _ _ _
    have hnil : update L.small z ((L.small z).erase b) z = [] := by
      have heq : (s'.zone z).nfree = (s'.zone z).nmax
          - ((update L.small z ((L.small z).erase b) z).map Prod.fst).length :=
        (hgive.zone z hz).nfree_eq
      rw [hzone, hretire.1, List.length_map] at heq
      exact List.length_eq_zero_iff.1 (by omega)
    have hdone := hgive.retire hz hnil
    rw [hzone] at hdone
    refine ⟨_, hdone.1.trans (sub_add_cancel _ _), hdone.2, hblocks.trans (List.Perm.cons _ ?_)⟩
    refine List.Perm.append_right _ ((flatMap_perm hz).trans ?_)
    dsimp only
    rw [hnil, List.nil_append]
  · exact ⟨_, sub_add_cancel _ _, hgive.release, hblocks⟩

/-- The pages of a large block become free. -/
theorem freeLarge (h : Inv N s L []) {c : LargeBlock} (hc : c ∈ L.large) :
    ∃ L', (Slab.freeLarge s c.block.1).heapSem = s.heapSem
      ∧ Inv N (Slab.freeLarge s c.block.1) L' [] ∧ L.blocks.Perm (c.block :: L'.blocks) := by
  obtain ⟨cs, ds, hcs⟩ := List.append_of_mem hc
  have hperm : L.large.Perm (c :: (cs ++ ds)) := hcs ▸ List.perm_middle
  have hdrop := h.dropLarge hperm
  have hb : btokup c.block.1 = c.page := Nat.mul_div_cancel _ (by decide)
  have hkup := (h.large c hc).1
  have hpos : 0 < c.pages := (hdrop.tiles.inside c.range List.mem_cons_self).1
  have hset := hdrop.setMemusage (m := update s.memusage c.page ⟨.large, 0⟩) fun i hi =>
    update_of_ne (fun heq => hi ⟨heq.ge, heq ▸ Nat.lt_add_of_pos_right hpos⟩) _ _
  obtain ⟨l, hl, hinv⟩ := hset.take.release.rtPageFree
  refine ⟨{ L with large := cs ++ ds }, ?_⟩
  have hrun : Slab.freeLarge s c.block.1
      = Slab.rtPageFree (Slab.release (Slab.take { s with
          memusage := update s.memusage c.page ⟨.large, 0⟩ })) (c.page * rtMmPageSize) c.pages := by
    unfold Slab.freeLarge
    simp only [hb, Slab.take, hkup]
    rfl
  rw [hrun, hl]
  refine ⟨sub_add_cancel _ _, hinv, ?_⟩
  exact ((hperm.map LargeBlock.block).append_left _).trans List.perm_middle

theorem mem_blocks {b : ℕ × ℕ} : b ∈ L.blocks ↔
    (∃ z ∈ L.zones, b ∈ L.small z) ∨ ∃ c ∈ L.large, c.block = b := by
  simp [Layout.blocks]

theorem rtFree (h : Inv N s L []) {b : ℕ × ℕ} (hb : b ∈ L.blocks) :
    ∃ L', (Slab.rtFree s b.1).heapSem = s.heapSem ∧ Inv N (Slab.rtFree s b.1) L' []
      ∧ L.blocks.Perm (b :: L'.blocks) := by
  obtain ⟨z, hz, hb⟩ | ⟨c, hc, rfl⟩ := mem_blocks.1 hb
  · have hin := (h.zone z hz).inside (List.mem_map_of_mem hb)
    have hmin := (h.zone z hz).sizeClass.min
    simp only [minChunkSize] at hmin
    obtain ⟨-, htype⟩ := h.zoneOf_eq (h.marked z (List.mem_append_left _ hz)) (p := b.1)
      (by omega) (by omega)
    have hrun : Slab.rtFree s b.1 = Slab.freeChunk s b.1 := if_neg (by rw [htype]; decide)
    rw [hrun]
    exact h.freeChunk hz hb
  · have hpage : btokup c.block.1 = c.page := Nat.mul_div_cancel _ (by decide)
    have hrun : Slab.rtFree s c.block.1 = Slab.freeLarge s c.block.1 :=
      if_pos (by rw [hpage, (h.large c hc).1])
    rw [hrun]
    exact h.freeLarge hc

end Inv

end EasyCore.Slab
