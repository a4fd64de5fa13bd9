import EasyCore.Kernel.SlabInv

/-! What the calls of the slab allocator do: which block they add to the live ones, or take from them,
    and that they keep the invariant. -/

namespace EasyCore.Slab
open Function Kernel Ranges

variable {N k n z zi size : ℕ} {s : SlabHeap} {L : Layout} {rs : List (ℕ × ℕ)}

/-! ### The lists of the classes -/

theorem mem_update {f : ℕ → List ℕ} {l : List ℕ} {i y : ℕ} :
    y ∈ update f zi l i ↔ if i = zi then y ∈ l else y ∈ f i := by
  rw [update_apply]
  split_ifs
  · rfl
  · rfl

theorem nodup_update {f : ℕ → List ℕ} {l : List ℕ} (hf : ∀ i, (f i).Nodup) (hl : l.Nodup) (i : ℕ) :
    (update f zi l i).Nodup := by
  rw [update_apply]
  split_ifs
  · exact hl
  · exact hf i

namespace Inv

/-! ### Zones -/

/-- One zone changes, and whether it is on its list. -/
theorem setZone (h : Inv N s L rs) (hz : z ∈ L.zones) {v : SlabZone} {bs : List (ℕ × ℕ)}
    {array : ℕ → List ℕ} (hok : ZoneOk s.zoneSize s.zoneLimit z v (bs.map Prod.fst))
    (hfits : ∀ b ∈ bs, b.2 ≤ v.chunksize) (hnodup : ∀ i, (array i).Nodup)
    (hself : ∀ i, z ∈ array i ↔ v.zoneindex = i ∧ 0 < v.nfree)
    (hother : ∀ i y, y ≠ z → (y ∈ array i ↔ y ∈ s.zoneArray i)) :
    Inv N { s with zoneArray := array, zone := update s.zone z v }
      { L with small := update L.small z bs } rs := by
  have hne : ∀ y ∈ s.zoneFree, y ≠ z := fun y hy heq =>
    (List.nodup_append'.1 h.zones_nodup).2.2 (heq ▸ hz) hy
  refine { h with zone := fun y hy => ?_, fits := fun y hy => ?_, cached := fun y hy => ?_,
                  listed := fun i y => ?_, nodup := hnodup }
  · by_cases heq : y = z
    · subst heq
      simpa only [update_self] using hok
    · simpa only [update_of_ne heq] using h.zone y hy
  · by_cases heq : y = z
    · subst heq
      simpa only [update_self] using hfits
    · simpa only [update_of_ne heq] using h.fits y hy
  · simpa only [update_of_ne (hne y hy)] using h.cached y hy
  · by_cases heq : y = z
    · subst heq
      simpa only [update_self, hz, true_and] using hself i
    · simpa only [update_of_ne heq] using (hother i y heq).trans (h.listed i y)

/-- Another size is asked for in a chunk. -/
theorem resize (h : Inv N s L rs) (hz : z ∈ L.zones) {p m : ℕ} {bs : List (ℕ × ℕ)}
    (hsmall : (L.small z).Perm ((p, m) :: bs)) (hn : n ≤ (s.zone z).chunksize) :
    Inv N s { L with small := update L.small z ((p, n) :: bs) } rs := by
  have hok : ZoneOk s.zoneSize s.zoneLimit z (s.zone z) (((p, n) :: bs).map Prod.fst) :=
    (h.zone z hz).perm (hsmall.map Prod.fst)
  have hset := h.setZone hz hok (fun b hb => ?_) h.nodup (fun i => ?_) fun i y _ => Iff.rfl
  · rwa [update_eq_self] at hset
  · obtain rfl | hb := List.mem_cons.1 hb
    · exact hn
    · exact h.fits z hz b (hsmall.mem_iff.2 (List.mem_cons_of_mem _ hb))
  · rw [h.listed]
    exact and_iff_right hz

theorem mem_list (h : Inv N s L rs) (hz : z ∈ L.zones) {i : ℕ} :
    z ∈ s.zoneArray i ↔ (s.zone z).zoneindex = i ∧ 0 < (s.zone z).nfree := by
  rw [h.listed]
  exact and_iff_right hz

/-- A chunk comes out of the first zone on its list. -/
theorem fromZone (h : Inv N s L rs) {rest : List ℕ} (hlist : s.zoneArray zi = z :: rest)
    (hsize : size = classSize zi) (hn : n ≤ size) :
    z ∈ L.zones ∧ ∃ p, (Slab.fromZone s zi z rest size).2 = some p
      ∧ (Slab.fromZone s zi z rest size).1.heapSem = s.heapSem
      ∧ Inv N (Slab.fromZone s zi z rest size).1
        { L with small := update L.small z ((p, n) :: L.small z) } rs := by
  obtain ⟨hz, hzi, hpos⟩ := (h.listed zi z).1 (hlist ▸ List.mem_cons_self)
  have hok := h.zone z hz
  have hchunk : (s.zone z).chunksize = size := hok.sizeClass.eq.trans (hzi ▸ hsize.symm)
  obtain ⟨hnotin, hrest⟩ := List.nodup_cons.1 (hlist ▸ h.nodup zi)
  set array := if (s.zone z).nfree - 1 = 0 then update s.zoneArray zi rest else s.zoneArray
    with harray
  have hs : (if (s.zone z).nfree - 1 = 0 then { s with zoneArray := update s.zoneArray zi rest }
      else s) = { s with zoneArray := array } := by
    rw [harray]
    split_ifs
    · rfl
    · rfl
  have hnodup : ∀ i, (array i).Nodup := by
    intro i
    rw [harray]
    split_ifs
    · exact nodup_update h.nodup hrest i
    · exact h.nodup i
  have hself : ∀ i, z ∈ array i ↔ (s.zone z).zoneindex = i ∧ 0 < (s.zone z).nfree - 1 := by
    intro i
    rw [harray]
    split_ifs with hlast
    · rw [mem_update, hlast]
      refine iff_of_false (fun hm => ?_) fun hm => lt_irrefl _ hm.2
      split_ifs at hm with hi
      · exact hnotin hm
      · exact hi (((h.mem_list hz).1 hm).1.symm.trans hzi)
    · rw [h.mem_list hz]
      refine and_congr_right fun _ => ⟨fun _ => by omega, fun _ => hpos⟩
  have hother : ∀ i y, y ≠ z → (y ∈ array i ↔ y ∈ s.zoneArray i) := by
    intro i y hy
    rw [harray]
    split_ifs
    · rw [mem_update]
      split_ifs with hi
      · rw [hi, hlist, List.mem_cons, or_iff_right hy]
      · rfl
    · rfl
  have hfits : ∀ p, ∀ b ∈ (p, n) :: L.small z, b.2 ≤ (s.zone z).chunksize := by
    intro p b hb
    obtain rfl | hb := List.mem_cons.1 hb
    · exact hchunk ▸ hn
    · exact h.fits z hz b hb
  refine ⟨hz, ?_⟩
  by_cases hfresh : (s.zone z).uindex + 1 ≠ (s.zone z).nmax
  · have hrun : Slab.fromZone s zi z rest size
        = ({ s with zoneArray := array }.setZone z { s.zone z with
            nfree := (s.zone z).nfree - 1, uindex := (s.zone z).uindex + 1 },
          some ((s.zone z).baseptr + ((s.zone z).uindex + 1) * size)) := by
      unfold Slab.fromZone
      simp only [hs, if_pos hfresh]
    refine ⟨(s.zone z).baseptr + ((s.zone z).uindex + 1) * size, by rw [hrun], by rw [hrun]; rfl, ?_⟩
    rw [hrun]
    exact h.setZone hz (hchunk ▸ hok.fresh hfresh) (hfits _) hnodup hself hother
  · have hnfree := hok.nfree
    obtain ⟨p, next, hfree⟩ : ∃ p next, (s.zone z).freechunk = p :: next := by
      refine List.exists_cons_of_ne_nil fun hnil => ?_
      rw [hnil, List.length_nil] at hnfree
      push_cast at hnfree
      omega
    have hrun : Slab.fromZone s zi z rest size
        = ({ s with zoneArray := array }.setZone z { s.zone z with
            nfree := (s.zone z).nfree - 1, freechunk := next }, some p) := by
      unfold Slab.fromZone
      simp only [hs, if_neg hfresh, hfree]
    refine ⟨p, by rw [hrun], by rw [hrun]; rfl, ?_⟩
    rw [hrun]
    exact h.setZone hz (hok.reuse hfree) (hfits _) hnodup hself hother

/-- A zone is set up in the pages in hand, and its first chunk is live. -/
theorem newZone (h : Inv N s L [s.range z]) (hz : Marked s z)
    (hclass : SizeClass s.zoneLimit zi size) (hn : n ≤ size) :
    z ∉ L.zones ∧ ∃ p, (Slab.newZone s zi z size).2 = some p
      ∧ (Slab.newZone s zi z size).1.heapSem = s.heapSem
      ∧ Inv N (Slab.newZone s zi z size).1
        { L with zones := z :: L.zones, small := update L.small z [(p, n)] } [] := by
  have hnotin : z ∉ L.zones ++ s.zoneFree := by
    intro hm
    have hn : (s.range z :: (s.pageList ++ owned N s L)).Nodup := h.tiles.nodup
    refine (List.nodup_cons.1 hn).1 (List.mem_append_right _ ?_)
    exact List.mem_cons_of_mem _ (List.mem_append_left _ (List.mem_map_of_mem hm))
  obtain ⟨hzones, hcached⟩ := not_or.1 (mt List.mem_append.2 hnotin)
  have hok := ZoneOk.new (z := z) hclass
    ((Nat.mul_le_mul_left 4 hclass.le).trans h.config.quarter) h.config.min
  refine ⟨hzones, z + chunkOffset size, rfl, rfl, ?_⟩
  refine { h with tiles := h.tiles.perm ?_, marked := fun y hy => ?_, zone := fun y hy => ?_,
                  fits := fun y hy => ?_, cached := fun y hy => ?_, listed := fun i y => ?_,
                  nodup := fun i => ?_ }
  · show List.Perm (s.range z :: (s.pageList ++ owned N s L)) (s.pageList ++ owned N s _)
    refine List.perm_middle.symm.trans (List.Perm.append_left _ ?_)
    exact List.Perm.swap _ _ _
  · obtain rfl | hy := List.mem_cons.1 hy
    · exact hz
    · exact h.marked y hy
  · obtain rfl | hy := List.mem_cons.1 hy
    · simpa only [Slab.newZone, SlabHeap.setZone, update_self, List.map_cons, List.map_nil] using hok
    · have hne : y ≠ z := fun heq => hzones (heq ▸ hy)
      simpa only [Slab.newZone, SlabHeap.setZone, update_of_ne hne] using h.zone y hy
  · obtain rfl | hy := List.mem_cons.1 hy
    · simpa only [Slab.newZone, SlabHeap.setZone, update_self, List.forall_mem_singleton] using hn
    · have hne : y ≠ z := fun heq => hzones (heq ▸ hy)
      simpa only [Slab.newZone, SlabHeap.setZone, update_of_ne hne] using h.fits y hy
  · have hne : y ≠ z := fun heq => hcached (heq ▸ hy)
    simpa only [Slab.newZone, SlabHeap.setZone, update_of_ne hne] using h.cached y hy
  · have hlist : y ∈ (Slab.newZone s zi z size).1.zoneArray i ↔ (i = zi ∧ y = z) ∨ y ∈ s.zoneArray i := by
      dsimp only [Slab.newZone, SlabHeap.setZone]
      rw [mem_update]
      split_ifs with hi
      · simp [hi]
      · simp [hi]
    rw [hlist]
    by_cases heq : y = z
    · subst heq
      have hnot : y ∉ s.zoneArray i := fun hm => hzones ((h.listed i y).1 hm).1
      have hpos := hok.two_le
      dsimp only [Slab.newZone, SlabHeap.setZone] at hpos ⊢
      simp only [update_self, List.mem_cons, true_or, true_and, hnot, or_false, and_true, eq_comm]
      exact (and_iff_left (by omega)).symm
    · dsimp only [Slab.newZone, SlabHeap.setZone]
      simp only [update_of_ne heq, List.mem_cons, heq, and_false, false_or]
      exact h.listed i y
  · refine nodup_update h.nodup (List.nodup_cons.2 ⟨fun hm => ?_, h.nodup zi⟩) i
    exact hzones ((h.listed zi z).1 hm).1

/-- A live chunk goes to the free list of its zone, and the zone to its list if it was not there. -/
theorem giveChunk (h : Inv N s L rs) (hz : z ∈ L.zones) {p : ℕ} {bs : List (ℕ × ℕ)}
    (hsmall : (L.small z).Perm ((p, n) :: bs)) {v : SlabZone}
    (hv : v = { s.zone z with
      freechunk := p :: (s.zone z).freechunk, nfree := (s.zone z).nfree + 1 }) :
    Inv N
      { s with
        zoneArray := if (s.zone z).nfree = 0 then
            update s.zoneArray v.zoneindex (z :: s.zoneArray v.zoneindex) else s.zoneArray
        zone := update s.zone z v }
      { L with small := update L.small z bs } rs := by
  have hok := (h.zone z hz).perm (hsmall.map Prod.fst)
  have hnonneg : 0 ≤ (s.zone z).nfree := by
    have := hok.nfree
    have := hok.uindex_lt
    omega
  subst hv
  refine h.setZone hz hok.give (fun b hb => ?_) (fun i => ?_) (fun i => ?_) fun i y hy => ?_
  · exact h.fits z hz b (hsmall.mem_iff.2 (List.mem_cons_of_mem _ hb))
  · split_ifs with hzero
    · refine nodup_update h.nodup (List.nodup_cons.2 ⟨fun hm => ?_, h.nodup _⟩) i
      exact ((h.mem_list hz).1 hm).2.ne' hzero
    · exact h.nodup i
  · split_ifs with hzero
    · rw [mem_update]
      dsimp only
      split_ifs with hi
      · exact iff_of_true List.mem_cons_self ⟨hi.symm, by omega⟩
      · exact iff_of_false (fun hm => hi ((h.mem_list hz).1 hm).1.symm) fun hm => hi hm.1.symm
    · rw [h.mem_list hz]
      exact and_congr_right fun _ => iff_of_true (by omega) (by dsimp only; omega)
  · split_ifs
    · rw [mem_update]
      split_ifs with hi
      · rw [hi, List.mem_cons, or_iff_right hy]
      · rfl
    · rfl

/-- A zone without live chunks is taken from its list. -/
theorem dropZone (h : Inv N s L []) (hz : z ∈ L.zones) (v : SlabZone) :
    Inv N { s with zoneArray := update s.zoneArray (s.zone z).zoneindex
                    ((s.zoneArray (s.zone z).zoneindex).erase z)
                   zone := update s.zone z v }
      { L with zones := L.zones.erase z } [s.range z] := by
  have hnodup := (List.nodup_append'.1 h.zones_nodup).1
  have hne : ∀ y ∈ L.zones.erase z, y ≠ z := fun y hy => (hnodup.mem_erase_iff.1 hy).1
  have hcached : ∀ y ∈ s.zoneFree, y ≠ z := fun y hy heq =>
    (List.nodup_append'.1 h.zones_nodup).2.2 (heq ▸ hz) hy
  refine { h with tiles := h.tiles.perm ?_, marked := fun y hy => ?_, zone := fun y hy => ?_,
                  fits := fun y hy => ?_, cached := fun y hy => ?_, listed := fun i y => ?_,
                  nodup := fun i => ?_ }
  · show List.Perm (s.pageList ++ owned N s L) (s.range z :: (s.pageList ++ owned N s _))
    refine List.Perm.trans (List.Perm.append_left _ ?_) List.perm_middle
    unfold owned
    refine List.Perm.trans (List.Perm.cons _ ?_) (List.Perm.swap _ _ _)
    exact (((List.perm_cons_erase hz).append_right s.zoneFree).map s.range).append_right _
  · obtain hy | hy := List.mem_append.1 hy
    · exact h.marked y (List.mem_append_left _ (List.mem_of_mem_erase hy))
    · exact h.marked y (List.mem_append_right _ hy)
  · simpa only [update_of_ne (hne y hy)] using h.zone y (List.mem_of_mem_erase hy)
  · simpa only [update_of_ne (hne y hy)] using h.fits y (List.mem_of_mem_erase hy)
  · simpa only [update_of_ne (hcached y hy)] using h.cached y hy
  · have hlist : y ∈ update s.zoneArray (s.zone z).zoneindex
        ((s.zoneArray (s.zone z).zoneindex).erase z) i ↔ y ≠ z ∧ y ∈ s.zoneArray i := by
      rw [mem_update]
      split_ifs with hi
      · rw [hi, (h.nodup _).mem_erase_iff]
      · refine (and_iff_right_of_imp fun hm heq => hi ?_).symm
        exact (((h.mem_list hz).1 (heq ▸ hm)).1).symm
    rw [hlist, h.listed, hnodup.mem_erase_iff, and_assoc]
    refine and_congr_right fun heq => ?_
    simp only [update_of_ne heq]
  · exact nodup_update h.nodup ((h.nodup _).erase z) i

theorem retire (h : Inv N s L []) (hz : z ∈ L.zones) (hempty : L.small z = []) :
    (Slab.retire s (s.zone z).zoneindex z).heapSem = s.heapSem + 1
      ∧ Inv N (Slab.retire s (s.zone z).zoneindex z) { L with zones := L.zones.erase z } [] := by
  have hmarked := h.marked z (List.mem_append_left _ hz)
  have hok : ZoneOk s.zoneSize s.zoneLimit z (s.zone z) [] := by
    have := h.zone z hz
    rwa [hempty] at this
  have hdrop := h.dropZone hz { s.zone z with magic := -1 }
  have hcnt : s.zoneSize / rtMmPageSize = s.zonePageCnt := by
    rw [h.config.pages, Nat.mul_div_cancel _ (by decide)]
  have haddr : btokup z * rtMmPageSize = z := Nat.div_mul_cancel (Nat.dvd_of_mod_eq_zero hmarked.1)
  set s' : SlabHeap := { s with
    zoneArray := update s.zoneArray (s.zone z).zoneindex ((s.zoneArray (s.zone z).zoneindex).erase z)
    zone := update s.zone z { s.zone z with magic := -1 } } with hs'
  have hrun : Slab.retire s (s.zone z).zoneindex z
      = if zoneReleaseThresh < s.zoneFreeCnt + 1 then
          Slab.rtPageFree (Slab.release (Slab.setUsage s' z fun _ => ⟨.free, 0⟩)) z
            (s.zoneSize / rtMmPageSize)
        else Slab.release
          { s' with zoneFree := z :: s.zoneFree, zoneFreeCnt := s.zoneFreeCnt + 1 } := by
    simp only [Slab.retire, SlabHeap.setZone, add_sub_cancel_right]
    rfl
  rw [hrun, hcnt]
  split_ifs
  · obtain ⟨l, hl, hinv⟩ := (hdrop.setUsage (z := z) fun _ => ⟨.free, 0⟩).release.rtPageFree
    rw [haddr] at hl
    have hl : Slab.rtPageFree (Slab.release (Slab.setUsage s' z fun _ => ⟨.free, 0⟩)) z s.zonePageCnt
      = _ := hl
    rw [hl]
    exact ⟨rfl, hinv⟩
  · have hcached : ZoneOk s.zoneSize s.zoneLimit z { s'.zone z with magic := zallocSlabMagic } [] := by
      simpa only [hs', update_self] using { hok with magic := rfl }
    exact ⟨rfl, (hdrop.pushFree (z := z) hmarked hcached).release⟩

end Inv

end EasyCore.Slab
