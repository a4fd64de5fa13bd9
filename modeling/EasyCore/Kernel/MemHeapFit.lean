import EasyCore.Kernel.MemHeapRun

/-! When `rt_memheap_alloc` returns `RT_NULL` (`src/memheap.c`). It asks for `size < available_size`
    before it looks at the free blocks, and the last free block of a heap has all of its available
    bytes:

        ├ item │ used ├ item │ 96 bytes ├ tailer ┤     available_size = 96: no block of 96 bytes -/

namespace EasyCore.MemHeap
open Function Kernel Links Runs Live

/-- `rt_memheap_alloc` returns `RT_NULL` only if no free block holds the request. -/
def Complete (h : Memheap) (bs : List ℕ) (n : ℕ) : Prop :=
  ∀ h', rtMemheapAlloc h n = some (h', none) → ∀ z ∈ bs, ¬h.isUsed z → h.memitemSize z < request n

/-- The request takes all available bytes, and they are in one block. -/
def ExactFit (h : Memheap) (bs : List ℕ) (n : ℕ) : Prop :=
  h.availableSize = request n ∧ ∃ z ∈ bs, ¬h.isUsed z ∧ h.memitemSize z = request n

variable {h h' : Memheap} {bs fs : List ℕ} {e m n x : ℕ}

/-- If the search ends without a block, it has seen them all. -/
theorem findFree_all (i : Inv h bs fs e) :
    ∀ (l c : List ℕ) (fuel start sz : ℕ) {hp sz' : ℕ}, fs = c ++ l →
      (l ++ [h.freeList]).head? = some start → sz < m →
      findFree h m fuel start sz = some (hp, sz') → sz' < m → ∀ z ∈ l, size h z < m
  | [], _, _, _, _, _, _, _, _, _, _, _, z, hz => absurd hz List.not_mem_nil
  | _ :: _, _, 0, _, _, _, _, _, _, _, hfind, _, _, _ => by
    rw [findFree] at hfind
    cases hfind
  | y :: l, c, fuel + 1, start, sz, _, _, hfs, hst, hsz, hfind, hlt', z, hz => by
    obtain rfl : start = y := by simpa [eq_comm] using hst
    have hmem : start ∈ fs := by
      rw [hfs]
      simp
    have hne : start ≠ h.freeList := fun e => i.header_notMem (e ▸ hmem)
    have hsize := i.blocks.memitemSize_eq ((i.mem_free start).1 hmem).1
    rw [findFree, if_pos ⟨hne, hsz⟩, hsize] at hfind
    dsimp only at hfind
    by_cases hlt : size h start < m
    · rw [if_pos hlt] at hfind
      have hr : Ring h.nextFree h.prevFree h.freeList ((h.freeList :: c) ++ start :: l) := by
        have hring := i.ring
        unfold FreeRing at hring
        rwa [hfs] at hring
      obtain ⟨s, t, hs⟩ := Ring.exists_next l h.freeList
      have hhd : (l ++ [h.freeList]).head? = some (h.nextFree start) := by
        rw [hr.next_eq hs, hs]
        rfl
      obtain rfl | hz := List.mem_cons.1 hz
      · exact hlt
      · exact findFree_all i l (c ++ [start]) fuel _ _ (by simp [hfs]) hhd hlt hfind hlt' z hz
    · rw [if_neg hlt] at hfind
      cases fuel with
      | zero =>
        rw [findFree] at hfind
        cases hfind
      | succ fuel =>
        rw [findFree, if_neg fun hc => hlt hc.2] at hfind
        obtain ⟨-, rfl⟩ := Prod.mk.inj (Option.some.inj hfind)
        exact absurd hlt' hlt

/-- `RT_NULL` is returned with too few available bytes, or with no block that is large enough. -/
theorem alloc_null (i : Inv h bs fs e) (hnull : rtMemheapAlloc h n = some (h', none)) :
    h.availableSize ≤ request n ∨ ∀ z ∈ fs, size h z < request n := by
  unfold rtMemheapAlloc at hnull
  by_cases hlt : request n < h.availableSize
  · refine Or.inr ?_
    rw [request] at hlt
    rw [if_pos hlt] at hnull
    have hr : Ring h.nextFree h.prevFree h.freeList ([] ++ h.freeList :: fs) := i.ring
    obtain ⟨s, t, hs⟩ := Ring.exists_next fs h.freeList
    have hhd : (fs ++ [h.freeList]).head? = some (h.nextFree h.freeList) := by
      rw [hr.next_eq hs, hs]
      rfl
    have hpos : 0 < request n := lt_max_of_lt_right (by decide)
    split at hnull
    next => cases hnull
    next hp sz hfind =>
      by_cases hle : sz ≥ max (rtAlign n) memheapMinialloc
      · rw [if_pos hle] at hnull
        cases hnull
      · exact findFree_all i fs [] h.fuel _ 0 rfl hhd hpos hfind (not_le.1 hle)
  · exact Or.inl (not_lt.1 hlt)

theorem size_le_available (i : Inv h bs fs e) (hx : x ∈ fs) : size h x ≤ h.availableSize := by
  rw [i.avail]
  exact List.single_le_sum (fun _ _ => Nat.zero_le _) _ (List.mem_map_of_mem hx)

theorem complete_iff_not_exactFit (i : Inv h bs fs e) : Complete h bs n ↔ ¬ ExactFit h bs n := by
  constructor
  · rintro hall ⟨havail, z, hz, hfree, hsize⟩
    have hnull : rtMemheapAlloc h n = some (h, none) :=
      if_neg (havail.le.trans_eq rfl |> not_lt.2)
    exact (hall h hnull z hz hfree).ne hsize
  · intro hnot h' hnull z hz hfree
    have hmem : z ∈ fs := (i.mem_free z).2 ⟨hz, hfree⟩
    rw [i.blocks.memitemSize_eq hz]
    obtain hfew | hsmall := alloc_null i hnull
    · by_contra hle
      have hsize := size_le_available i hmem
      have heq : size h z = request n := by omega
      refine hnot ⟨by omega, z, hz, hfree, ?_⟩
      rw [i.blocks.memitemSize_eq hz, heq]
    · exact hsmall z hmem

/-- CORRECT: on every pool that can hold two headers, in every run whose growing calls do not wrap,
    `rt_memheap_alloc` returns, and `RT_NULL` only if no free block holds the request, exactly if the
    request is not for all available bytes in one block. -/
theorem alloc_complete_iff {s : Client} (p : Pool) (hp : 48 ≤ rtAlignDown p.size)
    (hs : Reach (system p) (fun s c => callOk s.heap c) s) : ∃ bs e, Blocks s.heap bs e
      ∧ ∀ n : RtSize, (rtMemheapAlloc s.heap n).isSome
        ∧ (Complete s.heap bs n ↔ ¬ ExactFit s.heap bs n) := by
  obtain ⟨bs, fs, w⟩ := Owned.of_callOk p hp hs
  refine ⟨bs, _, w.inv.blocks, fun n => ⟨?_, complete_iff_not_exactFit w.inv⟩⟩
  obtain ⟨x, h', bs', fs', heq, -⟩ | heq := rtMemheapAlloc_spec w.inv n
  · rw [heq]
    rfl
  · rw [heq]
    rfl

/-- Blocks that have grown and been given back, and a request that 848 available bytes do not meet. -/
theorem alloc_complete_iff_run : ∃ s, replay Client.callIfOk boardHeap growRun = some s
    ∧ ∃ bs e, Blocks s.heap bs e ∧ Complete s.heap bs 900 := by
  have hrun : (replay Client.callIfOk boardHeap growRun).map
      (fun s => decide (s.heap.availableSize = request 900)) = some false := by decide +kernel
  obtain ⟨s, hs, hne⟩ := Option.map_eq_some_iff.1 hrun
  obtain ⟨bs, e, hblocks, hall⟩ := alloc_complete_iff boardPool (by decide)
    (Reach.of_replay (fun _ _ _ => Client.callIfOk_step) _ (Reach.init rfl) hs)
  exact ⟨s, hs, bs, e, hblocks, (hall ⟨900, by decide⟩).2.2
    fun hfit => (decide_eq_false_iff_not.1 hne) hfit.1⟩

/-- INCORRECT for a request that takes all that is left: a fresh heap has one free block of 976 bytes,
    and `rt_memheap_alloc` of 976 bytes returns `RT_NULL`. -/
theorem exact_fit_refused : ¬∀ p : Pool, ∀ s, Reachable (system p) s →
    ∀ bs e, Blocks s.heap bs e → ∀ n : RtSize, Complete s.heap bs n := by
  intro hall
  obtain ⟨i, hfree⟩ := boardPool.inv (by decide)
  have hnull : rtMemheapAlloc boardHeap.heap 976 = some (boardHeap.heap, none) := by
    have hnot : ¬ max (rtAlign 976) memheapMinialloc < boardHeap.heap.availableSize := by decide
    rw [rtMemheapAlloc, if_neg hnot]
  have hlt := hall boardPool boardHeap (Reach.init rfl) _ _ i.blocks ⟨976, by decide⟩ _ hnull _
    List.mem_cons_self hfree
  exact absurd hlt (by decide)

end EasyCore.MemHeap
