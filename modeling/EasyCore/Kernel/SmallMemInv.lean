import EasyCore.Kernel.SmallMem
import EasyCore.Lib.Links

/-! The representation invariant of the small-memory heap.

    `Tiled h os` says that the offsets `os`, met by following `next` from `heap_ptr`, tile the heap
    up to `heap_end`, with `prev` pointing back at the predecessor. The two edits of the code, an
    item cut in two (`cutItem`) and an item swallowing its successor (`joinNext`), each keep it;
    `NoAdj` (no two free neighbours) and the place of `lfree` are carried over them in turn. -/

namespace EasyCore.SmallMem
open Function Links

/-- The item at `x` ends, header included, before `y`. -/
def Gap (x y : ℕ) : Prop := x + 12 ≤ y

instance : IsTrans ℕ Gap := ⟨fun _ _ _ h h' => by unfold Gap at *; omega⟩

/-- The headers at `os`, closed by `heap_end`, tile the heap. -/
structure Tiled (h : Heap) (os : List ℕ) : Prop where
  first : os.head? = some 0
  fwd : Fwd h.next (os ++ [h.heapEnd])
  bwd : Bwd h.prev os
  prevFirst : h.prev 0 = 0
  gap : (os ++ [h.heapEnd]).IsChain Gap
  align : ∀ o ∈ os ++ [h.heapEnd], o % 4 = 0
  endUsed : h.used h.heapEnd ≠ 0
  endNext : h.next h.heapEnd = h.heapEnd
  endEq : h.heapEnd = h.memSizeAligned + 12
  base : h.heapPtr % 4 = 0
  bound : h.heapPtr + h.heapEnd + 12 < 2 ^ 32

/-- The headers met by following `next` from `heap_ptr`. -/
def IsItem (h : Heap) (x : ℕ) : Prop := ∃ k, h.next^[k] 0 = x

/-- No two neighbouring items are both free. -/
def NoAdj (h : Heap) (os : List ℕ) : Prop := os.IsChain fun x y => ¬(h.used x = 0 ∧ h.used y = 0)

/-- `lfree` points at a free item or at `heap_end`. -/
def LfreeOk (h : Heap) (os : List ℕ) : Prop :=
  h.lfree = h.heapEnd ∨ h.lfree ∈ os ∧ h.used h.lfree = 0

/-- The item at `z` is in use. -/
def InUse (h : Heap) (os : List ℕ) (z : ℕ) : Prop := z ∈ os ∧ h.used z ≠ 0

/-- What holds of every reachable heap. The bytes of a block in use, even of an empty one, start
    below `heap_end`: `rt_free` and `rt_realloc` refuse every other address. -/
structure Wf (h : Heap) (os : List ℕ) : Prop where
  tiled : Tiled h os
  noAdj : NoAdj h os
  lfreeOk : LfreeOk h os
  inside : ∀ z, InUse h os z → z + 12 < h.heapEnd

/-- No free item lies below `lfree`. -/
def Lowest (h : Heap) (os : List ℕ) : Prop := ∀ o ∈ os, h.used o = 0 → h.lfree ≤ o

namespace Tiled
variable {h : Heap} {os a b : List ℕ} {x y : ℕ}

/-! ### Order -/

theorem pairwise (t : Tiled h os) : (os ++ [h.heapEnd]).Pairwise Gap :=
  List.isChain_iff_pairwise.1 t.gap

theorem lt_end (t : Tiled h os) (hx : x ∈ os) : x + 12 ≤ h.heapEnd :=
  (List.pairwise_append.1 t.pairwise).2.2 x hx _ (List.mem_singleton_self _)

/-- The elements before `x` lie below it and those after it, `heap_end` included, above. -/
theorem order (t : Tiled h (a ++ x :: b)) :
    (∀ z ∈ a, z + 12 ≤ x) ∧ ∀ z ∈ b ++ [h.heapEnd], x + 12 ≤ z := by
  have hp := t.pairwise
  rw [List.append_assoc, List.cons_append] at hp
  obtain ⟨-, hb, hab⟩ := List.pairwise_append.1 hp
  exact ⟨fun z hz => hab z hz x (by simp), (List.pairwise_cons.1 hb).1⟩

/-- Two items are the same or one ends before the other begins. -/
theorem apart (t : Tiled h os) (hx : x ∈ os) (hy : y ∈ os) (hne : x ≠ y) :
    h.next x ≤ y ∨ h.next y ≤ x := by
  obtain ⟨a, b, rfl⟩ := List.append_of_mem hx
  have hf := t.fwd
  rcases List.mem_append.1 hy with hy | hy
  · -- `y` comes first, so its successor is at or before `x`
    obtain ⟨a₁, a₂, rfl⟩ := List.append_of_mem hy
    right
    cases ha : a₂ with
    | nil => subst ha; simp only [List.append_assoc, List.cons_append, List.nil_append] at hf
             exact le_of_eq hf.next_eq
    | cons s a₃ =>
      subst ha
      have hs := t.order.1 s (by simp)
      simp only [List.append_assoc, List.cons_append] at hf
      rw [hf.next_eq]; omega
  · have hy : y ∈ b := (List.mem_cons.1 hy).resolve_left (Ne.symm hne)
    obtain ⟨b₁, b₂, rfl⟩ := List.append_of_mem hy
    left
    have t' : Tiled h ((a ++ x :: b₁) ++ y :: b₂) := by
      simpa only [List.append_assoc, List.cons_append] using t
    cases hb : b₁ with
    | nil => subst hb; simp only [List.append_assoc, List.cons_append, List.nil_append] at hf
             exact le_of_eq hf.next_eq
    | cons s b₃ =>
      subst hb
      have hs := t'.order.1 s (by simp)
      simp only [List.append_assoc, List.cons_append] at hf
      rw [hf.next_eq]; omega

/-- The successor of an item: the head of what follows, or `heap_end`. -/
theorem next_head (t : Tiled h (a ++ x :: b)) :
    ∃ s t, b ++ [h.heapEnd] = s :: t ∧ h.next x = s ∧ x + 12 ≤ s := by
  have hf := t.fwd
  have ho := t.order.2
  rw [List.append_assoc, List.cons_append] at hf
  cases hb : b ++ [h.heapEnd] with
  | nil => simp at hb
  | cons s l =>
    rw [hb] at hf ho
    exact ⟨s, l, rfl, hf.next_eq, ho s (by simp)⟩

theorem next_ge (t : Tiled h os) (hx : x ∈ os) : x + 12 ≤ h.next x ∧ h.next x ≤ h.heapEnd ∧
    h.next x % 4 = 0 := by
  obtain ⟨a, b, rfl⟩ := List.append_of_mem hx
  obtain ⟨s, l, hb, hn, hs⟩ := t.next_head
  have hmem : s ∈ b ++ [h.heapEnd] := by rw [hb]; simp
  refine ⟨hn ▸ hs, ?_, ?_⟩
  · rcases List.mem_append.1 hmem with hm | hm
    · have := t.lt_end (x := s) (by simp [hm]); omega
    · rw [hn, List.mem_singleton.1 hm]
  · rw [hn]; refine t.align s ?_
    rcases List.mem_append.1 hmem with hm | hm
    · simp [hm]
    · exact List.mem_append_right _ hm

theorem zero_mem (t : Tiled h os) : 0 ∈ os := by
  obtain ⟨l, hl⟩ := List.head?_eq_some_iff.1 t.first; simp [hl]

/-- The predecessor of an item: the last of what comes before, or the item itself when first. -/
theorem prev_last (t : Tiled h (a ++ x :: b)) :
    (a = [] ∧ h.prev x = x) ∨ ∃ c p, a = c ++ [p] ∧ h.prev x = p := by
  rcases List.eq_nil_or_concat a with rfl | ⟨c, p, rfl⟩
  · left
    have h0 : x = 0 := by simpa using t.first
    exact ⟨rfl, by rw [h0, t.prevFirst]⟩
  · right
    refine ⟨c, p, by simp, ?_⟩
    have hb := t.bwd
    simp only [List.concat_eq_append, List.append_assoc, List.cons_append, List.nil_append] at hb
    exact hb.prev_eq

/-- `next` leads from item to item, and at last to `heap_end`. -/
theorem next_mem (t : Tiled h os) (hx : x ∈ os ++ [h.heapEnd]) : h.next x ∈ os ++ [h.heapEnd] := by
  rcases List.mem_append.1 hx with hm | hm
  · obtain ⟨a, b, rfl⟩ := List.append_of_mem hm
    obtain ⟨s, l, hb, hn, -⟩ := t.next_head
    rw [hn, List.append_assoc, List.cons_append, hb]; simp
  · rw [List.mem_singleton.1 hm, t.endNext]; simp

/-- The list of a tiling names exactly the headers met from `heap_ptr`. -/
theorem isItem_iff (t : Tiled h os) : IsItem h x ↔ x ∈ os ++ [h.heapEnd] := by
  constructor
  · rintro ⟨k, rfl⟩
    induction k with
    | zero => exact List.mem_append_left _ t.zero_mem
    | succ k ih => rw [Function.iterate_succ_apply']; exact t.next_mem ih
  · intro hx
    have key : ∀ (l : List ℕ) (y : ℕ), Fwd h.next (y :: l) → IsItem h y →
        ∀ z ∈ y :: l, IsItem h z := by
      intro l
      induction l with
      | nil => intro y _ hy z hz; rwa [List.mem_singleton.1 hz]
      | cons w l ih =>
        intro y hf hy z hz
        obtain ⟨hyw, hl⟩ := List.isChain_cons_cons.1 hf
        rcases List.mem_cons.1 hz with rfl | hz
        · exact hy
        · obtain ⟨k, hk⟩ := hy
          exact ih w hl ⟨k + 1, by rw [Function.iterate_succ_apply', hk, hyw]⟩ z hz
    obtain ⟨l, rfl⟩ := List.head?_eq_some_iff.1 t.first
    exact key _ 0 t.fwd ⟨0, rfl⟩ x hx

/-- There are fewer items than rounds of fuel. -/
theorem length_le (t : Tiled h os) : os.length + 1 ≤ h.fuel := by
  have key : ∀ (l : List ℕ) (x e : ℕ), (x :: l ++ [e]).IsChain Gap → x + l.length + 1 ≤ e := by
    intro l
    induction l with
    | nil =>
      intro x e hc
      have := (List.isChain_cons_cons.1 hc).1
      simp only [Gap] at this
      simp; omega
    | cons y l ih =>
      intro x e hc
      obtain ⟨hxy, hl⟩ := List.isChain_cons_cons.1 hc
      have := ih y e hl
      simp only [Gap] at hxy
      simp only [List.length_cons]; omega
  obtain ⟨l, rfl⟩ := List.head?_eq_some_iff.1 t.first
  have := key l 0 _ t.gap
  simp only [Heap.fuel, List.length_cons]; omega

/-! ### The two edits -/

/-- An item cut in two. -/
theorem cut {n : ℕ} (t : Tiled h (a ++ x :: b)) (hn : x + 12 ≤ n) (hn' : n + 12 ≤ h.next x)
    (h4 : n % 4 = 0) : Tiled (cutItem h x n) (a ++ x :: n :: b) := by
  obtain ⟨s, l, hb, hs, -⟩ := t.next_head
  obtain ⟨hlo, hhi⟩ := t.order
  have hxn : x ≠ n := by omega
  have hsm : s ∈ b ++ [h.heapEnd] := by rw [hb]; simp
  -- everything listed lies at or below `x`, or at or above the old successor
  have hge : ∀ z ∈ s :: l, s ≤ z := by
    have hp := t.pairwise
    rw [List.append_assoc, List.cons_append, hb] at hp
    have hp := (List.pairwise_cons.1 (List.pairwise_append.1 hp).2.1).2
    intro z hz
    rcases List.mem_cons.1 hz with rfl | hz
    · exact le_rfl
    · have := (List.pairwise_cons.1 hp).1 z hz; unfold Gap at this; omega
  have hend : h.heapEnd ∈ s :: l := by rw [← hb]; simp
  have hne : ∀ z ∈ s :: l, z ≠ x ∧ z ≠ n := fun z hz => by have := hge z hz; omega
  have hnx : (cutItem h x n).next = update (update h.next n s) x n := by
    unfold cutItem; dsimp only; split <;> simp [hs, hxn.symm]
  have hpv : (cutItem h x n).prev =
      if s = h.heapEnd then update h.prev n x else update (update h.prev n x) s n := by
    have hsn : s ≠ n := (hne s (by simp)).2
    unfold cutItem; simp only [Heap.setPrev_fields, Heap.setNext_fields, Heap.setUsed_fields, hs,
      update_self, update_of_ne hxn.symm, ← t.endEq, sizeofStructMem_eq, ne_eq]
    by_cases hse : s = h.heapEnd <;> simp [hse]
  have hE : (cutItem h x n).heapEnd = h.heapEnd := by simp
  have hf := t.fwd
  have hg := t.gap
  have hlist : ∀ c, a ++ c :: b ++ [h.heapEnd] = a ++ c :: s :: l := fun c => by
    rw [List.append_assoc, List.cons_append, hb]
  have hlist' : a ++ x :: n :: b ++ [h.heapEnd] = a ++ x :: n :: s :: l := by
    rw [List.append_assoc, List.cons_append, List.cons_append, hb]
  rw [hlist x] at hf hg
  have hs0 : (0 : ℕ) ≠ n := by omega
  refine ⟨?_, ?_, ?_, ?_, ?_, ?_, ?_, ?_, ?_, ?_, ?_⟩
  · have := t.first; rwa [List.head?_append] at this ⊢
  · rw [hE, hlist', hnx]
    refine hf.put (by simp) (by simp [hxn.symm]) fun z hz => ?_
    have hz' : z ≠ x ∧ z ≠ n := by
      rcases List.mem_append.1 hz with hz | hz
      · have := hlo z hz; omega
      · exact hne z (List.dropLast_subset _ hz)
    simp [hz'.1, hz'.2]
  · rw [hpv]
    have hbw := t.bwd
    -- the elements whose `prev` is kept
    have hlow : ∀ z ∈ (a ++ [x]).tail, z ≤ x := fun z hz => by
      rcases List.mem_append.1 (List.mem_of_mem_tail hz) with hz | hz
      · have := hlo z hz; omega
      · exact le_of_eq (List.mem_singleton.1 hz)
    rcases b with _ | ⟨s', b'⟩
    · have hse : s = h.heapEnd := by simp at hb; exact hb.1.symm
      rw [if_pos hse]
      refine hbw.put_last (by simp) fun z hz => ?_
      have := hlow z hz
      simp [show z ≠ n by omega]
    · obtain rfl : s = s' := by simp at hb; exact hb.1.symm
      have hse : s ≠ h.heapEnd := by have := t.lt_end (x := s) (by simp); omega
      have hsn : s ≠ n := by omega
      rw [if_neg hse]
      refine hbw.put (by simp [hsn.symm]) (by simp) fun z hz => ?_
      have hz' : z ≠ s ∧ z ≠ n := by
        rcases List.mem_append.1 hz with hz | hz
        · have := hlow z hz; omega
        · have hp := (List.pairwise_append.1 t.pairwise).1
          have hp := (List.pairwise_cons.1 (List.pairwise_append.1 hp).2.1).2
          have := (List.pairwise_cons.1 hp).1 z hz; unfold Gap at this; omega
      simp [hz'.1, hz'.2]
  · rw [hpv]
    have hs0 : (0 : ℕ) ≠ s := by omega
    split <;> simp [hs0, t.prevFirst, show (0:ℕ) ≠ n by omega]
  · rw [hE, hlist']
    rw [List.isChain_append_cons_cons] at hg
    exact List.isChain_append_cons_cons.2 ⟨hg.1, hn, List.isChain_cons_cons.2 ⟨by
      rw [hs] at hn'; exact hn', hg.2.2⟩⟩
  · intro o ho
    rw [hE, hlist'] at ho
    by_cases hon : o = n
    · rw [hon]; exact h4
    · refine t.align o ?_
      rw [hlist x]
      simp only [List.mem_append, List.mem_cons] at ho ⊢
      tauto
  · rw [hE]; simpa [(hne _ hend).2] using t.endUsed
  · rw [hE, hnx]; simpa [(hne _ hend).1, (hne _ hend).2] using t.endNext
  · simpa using t.endEq
  · simpa using t.base
  · simpa using t.bound

/-- An item swallowing its successor. -/
theorem join (t : Tiled h (a ++ x :: y :: b)) : Tiled (joinNext h x y) (a ++ x :: b) := by
  have t' : Tiled h ((a ++ [x]) ++ y :: b) := by
    rwa [List.append_assoc, List.singleton_append]
  obtain ⟨s, l, hb, hs, -⟩ := t'.next_head
  obtain ⟨hlo, hhi⟩ := t'.order
  have hxy : x + 12 ≤ y := hlo x (by simp)
  have hlox := t.order.1
  have hsm : s ∈ b ++ [h.heapEnd] := by rw [hb]; simp
  have hsy : y + 12 ≤ s := hhi s hsm
  have hnx : (joinNext h x y).next = update h.next x s := by simp [hs]
  have hpv : (joinNext h x y).prev = update h.prev s x := by simp [hs]
  have hE : (joinNext h x y).heapEnd = h.heapEnd := by simp
  have hxe : h.heapEnd ≠ x := by have := t.lt_end (x := x) (by simp); omega
  have hlist : a ++ x :: y :: b ++ [h.heapEnd] = a ++ x :: y :: s :: l := by
    simp only [List.append_assoc, List.cons_append, hb]
  have hlist' : a ++ x :: b ++ [h.heapEnd] = a ++ x :: s :: l := by
    simp only [List.append_assoc, List.cons_append, hb]
  have hf := t.fwd
  have hg := t.gap
  rw [hlist] at hf hg
  refine ⟨?_, ?_, ?_, ?_, ?_, ?_, ?_, ?_, ?_, ?_, ?_⟩
  · have := t.first; rwa [List.head?_append] at this ⊢
  · rw [hE, hlist', hnx]
    refine hf.skip (by simp) fun z hz => ?_
    have hz' : z ≠ x := by
      rcases List.mem_append.1 hz with hz | hz
      · have := hlox z hz; omega
      · have := hhi z (by rw [hb]; exact List.dropLast_subset _ hz); omega
    simp [hz']
  · rw [hpv]
    have hbw := t.bwd
    have hlow : ∀ z ∈ (a ++ [x]).tail, z ≠ s := fun z hz => by
      have := hlo z (List.mem_of_mem_tail hz); omega
    rcases b with _ | ⟨s', b'⟩
    · exact hbw.skip_last fun z hz => by simp [hlow z hz]
    · obtain rfl : s = s' := by simp at hb; exact hb.1.symm
      refine hbw.skip (by simp) fun z hz => ?_
      have hz' : z ≠ s := by
        rcases List.mem_append.1 hz with hz | hz
        · exact hlow z hz
        · have hp := (List.pairwise_append.1 t'.pairwise).1
          have hp := (List.pairwise_cons.1 (List.pairwise_append.1 hp).2.1).2
          have := (List.pairwise_cons.1 hp).1 z hz; unfold Gap at this; omega
      simp [hz']
  · rw [hpv]; simp [show (0 : ℕ) ≠ s by omega, t.prevFirst]
  · rw [hE, hlist']
    simp only [List.isChain_append_cons_cons, List.isChain_cons_cons] at hg ⊢
    exact ⟨hg.1, by unfold Gap; omega, hg.2.2.2⟩
  · intro o ho
    rw [hE] at ho
    refine t.align o ?_
    simp only [List.mem_append, List.mem_cons] at ho ⊢
    tauto
  · rw [hE]; simpa using t.endUsed
  · rw [hE, hnx]; simpa [hxe] using t.endNext
  · simpa using t.endEq
  · simpa using t.base
  · simpa using t.bound

/-- The tiling reads neither the statistics, nor `lfree`, nor the bytes, nor the marks of items. -/
theorem frame {h' : Heap} (t : Tiled h os) (hn : h'.next = h.next) (hp : h'.prev = h.prev)
    (hu : h'.used h.heapEnd = h.used h.heapEnd) (hE : h'.heapEnd = h.heapEnd)
    (hP : h'.heapPtr = h.heapPtr) (hM : h'.memSizeAligned = h.memSizeAligned) : Tiled h' os :=
  ⟨t.first, by rw [hn, hE]; exact t.fwd, by rw [hp]; exact t.bwd, by rw [hp]; exact t.prevFirst,
    by rw [hE]; exact t.gap, by rw [hE]; exact t.align, by rw [hE, hu]; exact t.endUsed,
    by rw [hE, hn]; exact t.endNext, by rw [hE, hM]; exact t.endEq, by rw [hP]; exact t.base,
    by rw [hP, hE]; exact t.bound⟩

end Tiled

end EasyCore.SmallMem
