import EasyCore.Kernel.SmallMemRun

/-! What the search of `rt_malloc` misses. It begins at `lfree` and gives up at
    `mem_size_aligned - size`; an item that ends the heap and fits exactly begins right there, and a
    free item may lie in front of `lfree` when `rt_realloc` has cut it off a block. -/

namespace EasyCore.SmallMem
open Function Links Kernel Runs Live

/-- The item at `x` is free and has room for the aligned, minimum-rounded request. -/
def LargeEnough (h : Heap) (n x : ℕ) : Prop :=
  IsItem h x ∧ h.used x = 0 ∧ x + 12 + blockSize n ≤ h.next x

/-- `rt_malloc(n)` returns `RT_NULL` only if no item is large enough. -/
def Complete (h : Heap) (n : ℕ) : Prop :=
  ∀ h', rtMalloc h n = some (h', none) → ∀ x, ¬LargeEnough h n x

/-- Where some item is large enough, one of them lies at or behind `lfree` and leaves something of
    the heap behind the block, and the request is not empty. -/
def SearchMeets (h : Heap) (n : ℕ) : Prop :=
  (∃ x, LargeEnough h n x) →
    n ≠ 0 ∧ ∃ x, LargeEnough h n x ∧ h.lfree ≤ x ∧ x + 12 + blockSize n < h.heapEnd

variable {h : Heap} {os : List ℕ} {s : Client}

/-- An item that is large enough lies in the heap, with its block. -/
theorem Wf.largeEnough_le (w : Wf h os) {n x : ℕ} (hx : LargeEnough h n x) :
    x + 12 + blockSize n ≤ h.heapEnd := by
  obtain ⟨hitem, hfree, hroom⟩ := hx
  exact hroom.trans (w.tiled.next_ge (w.mem_of_free hitem hfree)).2.1

/-- A request can be served iff the search meets an item that is large enough. -/
theorem Wf.canAlloc_iff (w : Wf h os) (n : ℕ) : CanAlloc h n ↔
    n ≠ 0 ∧ ∃ x, LargeEnough h n x ∧ h.lfree ≤ x ∧ x + 12 + blockSize n < h.heapEnd := by
  have hend := w.tiled.endEq
  constructor
  · rintro ⟨hn, -, x, hitem, hlfree, hfree, hroom, hbound⟩
    exact ⟨hn, x, ⟨hitem, hfree, hroom⟩, hlfree, by omega⟩
  · rintro ⟨hn, x, ⟨hitem, hfree, hroom⟩, hlfree, hbound⟩
    have halign : rtAlign n ≤ blockSize n := le_max_left ..
    exact ⟨hn, by omega, x, hitem, hlfree, hfree, hroom, by omega⟩

/-- In every reachable heap and for every size, `rt_malloc` is complete iff its search meets an item
    that is large enough, should there be one. -/
theorem complete_iff (hs : Reachable system s) (n : RtSize) :
    Complete s.heap n ↔ SearchMeets s.heap n := by
  obtain ⟨os, w⟩ := reachable_owned hs
  have hmeets : SearchMeets s.heap n ↔ ((∃ x, LargeEnough s.heap n x) → CanAlloc s.heap n) := by
    rw [SearchMeets, w.wf.canAlloc_iff]
  rw [hmeets]
  rcases rtMalloc_spec w.wf (n : ℕ) with ⟨x, h', os', hcan, heq, -⟩ | ⟨hcan, -, hnull⟩
  · refine iff_of_true (fun h'' hnone => ?_) fun _ => hcan
    rw [heq] at hnone
    cases hnone
  · constructor
    · rintro hcomplete ⟨x, hx⟩
      have hle := w.wf.largeEnough_le hx
      have hmin : 12 ≤ blockSize n := le_max_right ..
      have hend := w.wf.tiled.endEq
      exact absurd hx (hcomplete _ (hnull (by omega)) x)
    · intro himp h' _ x hx
      exact hcan (himp ⟨x, hx⟩)

/-- On the fresh heap 100 bytes are found. -/
theorem complete_iff_board : ∃ s, boardHeap = some s ∧
    (Complete s.heap (100 : RtSize) ↔ SearchMeets s.heap (100 : RtSize)) := by
  obtain ⟨s, hs⟩ := Option.isSome_iff_exists.1 (show boardHeap.isSome = true by decide +kernel)
  exact ⟨s, hs, complete_iff (.init (boardHeap_init hs)) 100⟩

/-- On the fresh heap all of its 976 bytes are asked for, and not found. -/
theorem not_complete_board : ¬∀ s, Reachable system s → ∀ n : RtSize, Complete s.heap n := by
  intro hall
  have hrun : (boardHeap.bind fun s => (rtMalloc s.heap 976).map fun r =>
      (r.2, s.heap.used 0, s.heap.next 0)) = some (none, 0, 988) := by
    decide +kernel
  obtain ⟨s, hs, hmalloc⟩ := Option.bind_eq_some_iff.1 hrun
  obtain ⟨⟨h', r⟩, heq, hfields⟩ := Option.map_eq_some_iff.1 hmalloc
  obtain ⟨rfl, hused, hnext⟩ : r = none ∧ s.heap.used 0 = 0 ∧ s.heap.next 0 = 988 := by
    simpa only [Prod.mk.injEq] using hfields
  refine hall s (.init (boardHeap_init hs)) 976 h' heq 0 ⟨⟨0, rfl⟩, hused, ?_⟩
  rw [hnext]
  decide

end EasyCore.SmallMem
