import EasyCore.Finsh.HeapBlocks
import EasyCore.Lib.Runs

/-! The heap of finsh over any sequence of allocations, releases and collections. -/

namespace EasyCore.Finsh.Heap
open Kernel Chain Rows Runs

inductive HeapAct
  | allocate (size : RtSize) (held : List ℕ)
  | free (ptr : ℕ)
  | gc (held : List ℕ)

def heapStep (s : FinshHeap) : HeapAct → FinshHeap
  | .allocate size held => (finshHeapAllocate held s size).1
  | .free ptr => finshHeapFree s ptr
  | .gc held => finshHeapGc held s

/-- The blocks fill the heap, and no two neighbours are free; each is on one of the two lists, which
    end, are disjoint and in the order of the addresses. -/
def HeapOk (s : FinshHeap) : Prop :=
  ∃ bs, Blocks s bs ∧ (addrs (unused bs)).Pairwise (· < ·) ∧ (addrs (used bs)).Pairwise (· < ·)
    ∧ (addrs (unused bs)).Disjoint (addrs (used bs))

/-- The size does not wrap with its header, and what is released is allocated. -/
def HeapActOk (s : FinshHeap) : HeapAct → Prop
  | .allocate size _ => heapAlignSize size + headerSize < 2 ^ 32
  | .free ptr => ∃ header, OnList s.next s.allocateList header ∧ ptr = header + headerSize
  | .gc _ => True

variable {s : FinshHeap} {bs : List Block}

theorem Blocks.heapOk (h : Blocks s bs) : HeapOk s := by
  have hsorted : (addrs bs).Pairwise (· < ·) := List.pairwise_map.2 (h.tiles.sorted headerSize_pos)
  exact ⟨bs, h, hsorted.sublist ((unused_sublist bs).map _),
    hsorted.sublist ((used_sublist bs).map _), fun _ hx => disjoint_addrs h.tiles hx⟩

theorem heapStep_blocks {a : HeapAct} (h : ∃ bs, Blocks s bs ∧ LastFree bs) (ha : HeapActOk s a) :
    ∃ bs, Blocks (heapStep s a) bs ∧ LastFree bs := by
  obtain ⟨bs, hbs, hlast⟩ := h
  cases a with
  | allocate size held =>
    obtain ⟨-, us, vs, zs, b, hzs, hzlast, -⟩ | ⟨-, ⟨-, us, vs, zs, b, hzs, hzlast, -⟩ |
      ⟨-, -, zs, hzs, hzlast, -⟩⟩ := finshHeapAllocate_spec held hbs hlast ha
    · exact ⟨zs, hzs, hzlast⟩
    · exact ⟨zs, hzs, hzlast⟩
    · exact ⟨zs, hzs, hzlast⟩
  | free ptr =>
    obtain ⟨header, hheader, rfl⟩ := ha
    obtain ⟨b, hb, rfl⟩ := List.mem_map.1 (hbs.allocated.onList_iff.1 hheader)
    obtain ⟨us, vs, hused⟩ := List.append_of_mem hb
    obtain ⟨zs, hzs, hzlast, -⟩ := finshHeapFree_spec hbs hlast hused
    exact ⟨zs, hzs, hzlast⟩
  | gc held =>
    obtain ⟨zs, hzs, hzlast, -⟩ := finshHeapGc_spec held hbs hlast
    exact ⟨zs, hzs, hzlast⟩

theorem finshHeapInit_lastFree : ∃ bs, Blocks finshHeapInit bs ∧ LastFree bs :=
  ⟨_, finshHeapInit_blocks, _, rfl, rfl⟩

/-- CORRECT: the lists tile the heap after each call of a run in which no size wraps and only blocks
    that are allocated are released. -/
theorem heapOk_of_run (acts : List HeapAct) (h : Runs.Along heapStep HeapActOk finshHeapInit acts) :
    Runs.Along heapStep (fun s a => HeapOk (heapStep s a)) finshHeapInit acts :=
  Runs.Along.imp (I := fun s => ∃ bs, Blocks s bs ∧ LastFree bs)
    (fun _ _ hs ha => (heapStep_blocks hs ha).elim fun _ hbs => hbs.1.heapOk)
    (fun _ _ hs ha => heapStep_blocks hs ha) acts finshHeapInit_lastFree h

/-- Two blocks are allocated; the first one is given back by a collection, then the other. -/
theorem heapOk_of_run_two : Runs.Along heapStep (fun s a => HeapOk (heapStep s a)) finshHeapInit
    [.allocate 5 [], .allocate 20 [], .gc [24], .free 24] :=
  heapOk_of_run _ ⟨by unfold HeapActOk; decide, by unfold HeapActOk; decide, trivial,
    ⟨16, ⟨[16], ⟨by decide +kernel, chained_nil.2 (by decide +kernel)⟩, List.mem_singleton_self 16⟩,
      rfl⟩, trivial⟩

/-- A size that is rounded to eight bytes below the word: the block that is split stays on the free
    list, and is on the other one as well. -/
theorem not_heapOk_of_wrap : ¬ Runs.Along heapStep (fun s a => HeapOk (heapStep s a)) finshHeapInit
    [.allocate 4294967288 []] := by
  rintro ⟨⟨bs, h, -, -, hdisjoint⟩, -⟩
  have hfree : (addrs (unused bs)).head? = some 0 := h.free.head.symm.trans (by decide +kernel)
  have hused : (addrs (used bs)).head? = some 0 := h.allocated.head.symm.trans (by decide +kernel)
  exact hdisjoint (List.mem_of_mem_head? hfree) (List.mem_of_mem_head? hused)

end EasyCore.Finsh.Heap
