import EasyCore.Kernel.MemHeap
import EasyCore.Lib.Links

/-! The invariant of a memory heap, and the edits of its two rings.

    `Blocks h bs e` says that the blocks `bs`, closed by the tailer at `e`, are a ring in address
    order that tiles the pool; `FreeRing h fs` that the free ring goes through `fs`. Each edit of
    the code (an item built behind another, an item swallowed, an item taken out of or put into
    the free ring) has one lemma, and `Inv` ties the two rings to the marks and to the count of
    available bytes. -/

namespace EasyCore.MemHeap
open Function Kernel Links

@[simp] theorem memheapSize_eq : memheapSize = 24 := by decide
@[simp] theorem memheapMinialloc_eq : memheapMinialloc = 12 := rfl

variable {h h' : Memheap} {bs fs a b c d : List ℕ} {e x y z n v : ℕ}

/-! ### Marks -/

theorem isUsed_iff : h.isUsed x ↔ h.magic x % 2 = 1 := by
  unfold Memheap.isUsed memheapUsed
  rw [Nat.and_one_is_mod]; omega

/-- A fresh item is free. -/
theorem isUsed_of_magic (hm : h.magic x = memheapMagic) : ¬h.isUsed x := by
  rw [isUsed_iff, hm]; decide

theorem isUsed_or (hm : h.magic x = v ||| memheapUsed) : h.isUsed x := by
  rw [isUsed_iff, hm, Nat.or_mod_two_eq_one]; exact Or.inr rfl

theorem isUsed_and (hm : h.magic x = v &&& memheapMask) : ¬h.isUsed x := by
  rw [isUsed_iff, hm, Nat.and_mod_two_eq_one]
  intro hc; exact absurd hc.2 (by decide)

theorem isUsed_congr (hm : h'.magic x = h.magic x) : h'.isUsed x ↔ h.isUsed x := by
  rw [isUsed_iff, isUsed_iff, hm]

/-! ### What the edits leave alone -/

/-- The pool and the header of the free ring are those of `h`. -/
structure SameArea (h h' : Memheap) : Prop where
  startAddr : h'.startAddr = h.startAddr
  poolSize : h'.poolSize = h.poolSize
  freeList : h'.freeList = h.freeList

theorem SameArea.refl (h : Memheap) : SameArea h h := ⟨rfl, rfl, rfl⟩

theorem SameArea.trans {h'' : Memheap} (s : SameArea h h') (s' : SameArea h' h'') :
    SameArea h h'' :=
  ⟨s'.startAddr.trans s.startAddr, s'.poolSize.trans s.poolSize, s'.freeList.trans s.freeList⟩

/-- The block ring of `h` is kept. -/
structure SameBlocks (h h' : Memheap) : Prop extends SameArea h h' where
  next : h'.next = h.next
  prev : h'.prev = h.prev

theorem SameBlocks.trans {h'' : Memheap} (s : SameBlocks h h') (s' : SameBlocks h' h'') :
    SameBlocks h h'' :=
  ⟨s.toSameArea.trans s'.toSameArea, s'.next.trans s.next, s'.prev.trans s.prev⟩

theorem takeAvailable_same (h : Memheap) (n : ℕ) : SameBlocks h (takeAvailable h n) ∧
    (takeAvailable h n).magic = h.magic ∧ (takeAvailable h n).nextFree = h.nextFree ∧
    (takeAvailable h n).prevFree = h.prevFree ∧
    (takeAvailable h n).availableSize = sub32 h.availableSize n := by
  obtain ⟨v, hv⟩ : ∃ v, v = sub32 h.availableSize n := ⟨_, rfl⟩
  unfold takeAvailable Memheap.setAvailable
  rw [← hv]
  dsimp only
  split
  · exact ⟨⟨⟨rfl, rfl, rfl⟩, rfl, rfl⟩, rfl, rfl, rfl, rfl⟩
  · exact ⟨⟨⟨rfl, rfl, rfl⟩, rfl, rfl⟩, rfl, rfl, rfl, rfl⟩

theorem giveAvailable_same (h : Memheap) (n : ℕ) : SameBlocks h (giveAvailable h n) ∧
    (giveAvailable h n).magic = h.magic ∧ (giveAvailable h n).nextFree = h.nextFree ∧
    (giveAvailable h n).prevFree = h.prevFree ∧
    (giveAvailable h n).availableSize = (h.availableSize + n) % 2 ^ 32 :=
  ⟨⟨⟨rfl, rfl, rfl⟩, rfl, rfl⟩, rfl, rfl, rfl, rfl⟩

theorem setAvailable_same (h : Memheap) (v : ℕ) : SameBlocks h (h.setAvailable v) ∧
    (h.setAvailable v).magic = h.magic ∧ (h.setAvailable v).nextFree = h.nextFree ∧
    (h.setAvailable v).prevFree = h.prevFree ∧ (h.setAvailable v).availableSize = v :=
  ⟨⟨⟨rfl, rfl, rfl⟩, rfl, rfl⟩, rfl, rfl, rfl, rfl⟩

theorem unlinkFree_same (h : Memheap) (x : ℕ) : SameBlocks h (unlinkFree h x) ∧
    (unlinkFree h x).magic = h.magic ∧ (unlinkFree h x).availableSize = h.availableSize :=
  ⟨⟨⟨rfl, rfl, rfl⟩, rfl, rfl⟩, rfl, rfl⟩

theorem insertFree_same (h : Memheap) (x : ℕ) : SameBlocks h (insertFree h x) ∧
    (insertFree h x).magic = h.magic ∧ (insertFree h x).availableSize = h.availableSize := by
  simp only [insertFree, Memheap.setNextFree, Memheap.setPrevFree, and_self, and_true]
  exact ⟨⟨rfl, rfl, rfl⟩, rfl, rfl⟩

theorem setMagic_same (h : Memheap) (x v : ℕ) : SameBlocks h (h.setMagic x v) :=
  ⟨⟨rfl, rfl, rfl⟩, rfl, rfl⟩

theorem insertItem_same (h : Memheap) (x n : ℕ) : SameArea h (insertItem h x n) ∧
    (insertItem h x n).magic = update h.magic n memheapMagic ∧
    (insertItem h x n).nextFree = h.nextFree ∧ (insertItem h x n).prevFree = h.prevFree ∧
    (insertItem h x n).availableSize = h.availableSize := by
  simp only [insertItem, Memheap.setNext, Memheap.setPrev, Memheap.setMagic, and_self, and_true]
  exact ⟨rfl, rfl, rfl⟩

theorem joinNext_same (h : Memheap) (x : ℕ) : SameArea h (joinNext h x) ∧
    (joinNext h x).magic = h.magic ∧ (joinNext h x).nextFree = h.nextFree ∧
    (joinNext h x).prevFree = h.prevFree ∧ (joinNext h x).availableSize = h.availableSize :=
  ⟨⟨rfl, rfl, rfl⟩, rfl, rfl, rfl, rfl⟩

/-! ### The block ring -/

/-- The item at `x` ends, header included, before `y`. -/
def Gap (x y : ℕ) : Prop := x + 24 ≤ y

instance : IsTrans ℕ Gap := ⟨fun _ _ _ h h' => by unfold Gap at *; omega⟩

/-- The bytes of the item at `x`. -/
def size (h : Memheap) (x : ℕ) : ℕ := h.next x - x - 24

/-- The blocks `bs` and the tailer at `e` tile the pool, linked both ways in address order. -/
structure Blocks (h : Memheap) (bs : List ℕ) (e : ℕ) : Prop where
  ring : Ring h.next h.prev h.startAddr (bs ++ [e])
  gap : (bs ++ [e]).IsChain Gap
  tailEnd : e + 24 = h.startAddr + h.poolSize
  bound : h.startAddr + h.poolSize ≤ 2 ^ 32

namespace Blocks

theorem frame (k : Blocks h bs e) (s : SameBlocks h h') : Blocks h' bs e :=
  ⟨by rw [s.next, s.prev, s.startAddr]; exact k.ring, k.gap,
    by rw [s.startAddr, s.poolSize]; exact k.tailEnd,
    by rw [s.startAddr, s.poolSize]; exact k.bound⟩

theorem pairwise (k : Blocks h bs e) : (bs ++ [e]).Pairwise Gap :=
  List.isChain_iff_pairwise.1 k.gap

theorem lt_tail (k : Blocks h bs e) (hx : x ∈ bs) : x + 24 ≤ e :=
  (List.pairwise_append.1 k.pairwise).2.2 x hx _ (List.mem_singleton_self _)

/-- The blocks before `x` lie below it and those after it, the tailer included, above. -/
theorem order (k : Blocks h (a ++ x :: b) e) :
    (∀ z ∈ a, z + 24 ≤ x) ∧ ∀ z ∈ b ++ [e], x + 24 ≤ z := by
  have hp := k.pairwise
  rw [List.append_assoc, List.cons_append] at hp
  obtain ⟨-, hb, hab⟩ := List.pairwise_append.1 hp
  exact ⟨fun z hz => hab z hz x (by simp), (List.pairwise_cons.1 hb).1⟩

/-- The block behind `x`, or the tailer. -/
theorem next_spec (k : Blocks h (a ++ x :: b) e) : ∃ s l, b ++ [e] = s :: l ∧ h.next x = s ∧
    x + 24 ≤ s ∧ s ≤ e ∧ ∀ z ∈ s :: l, s ≤ z := by
  obtain ⟨s, l, hs⟩ := Ring.exists_next b e
  have hr : Ring h.next h.prev h.startAddr (a ++ x :: (b ++ [e])) := by
    have := k.ring; rwa [List.append_assoc, List.cons_append] at this
  have hp := k.pairwise
  rw [List.append_assoc, List.cons_append, hs] at hp
  have hp' := List.pairwise_cons.1 (List.pairwise_append.1 hp).2.1
  have hmin : ∀ z ∈ s :: l, s ≤ z := by
    intro z hz
    rcases List.mem_cons.1 hz with rfl | hz
    · exact le_rfl
    · have := (List.pairwise_cons.1 hp'.2).1 z hz
      unfold Gap at this; omega
  refine ⟨s, l, hs, ?_, hp'.1 s (by simp), hmin e (by rw [← hs]; simp), hmin⟩
  exact hr.next_eq (s := s) (d := l ++ [h.startAddr]) (by rw [hs]; rfl)

/-- The block in front of `x`; the tailer is in front of the first. -/
theorem prev_spec (k : Blocks h (a ++ x :: b) e) :
    (a = [] ∧ h.prev x = e) ∨ ∃ c p, a = c ++ [p] ∧ h.prev x = p := by
  rcases List.eq_nil_or_concat a with rfl | ⟨c, p, rfl⟩
  · left
    have hx : x = h.startAddr := by simpa using k.ring.head
    have hr : Ring h.next h.prev h.startAddr ((x :: b) ++ [e]) := k.ring
    exact ⟨rfl, by rw [hx]; exact hr.prev_hd⟩
  · right
    refine ⟨c, p, by simp, ?_⟩
    have hr := k.ring
    simp only [List.concat_eq_append, List.append_assoc, List.cons_append, List.nil_append] at hr
    exact hr.prev_eq

/-- The pool begins at or before each block. -/
theorem start_le (k : Blocks h bs e) (hx : x ∈ bs) : h.startAddr ≤ x := by
  obtain ⟨l, hl⟩ := List.head?_eq_some_iff.1 k.ring.head
  have hp := k.pairwise
  have hm : x ∈ bs ++ [e] := List.mem_append_left _ hx
  rw [hl] at hp hm
  rcases List.mem_cons.1 hm with rfl | hm
  · exact le_rfl
  · have := (List.pairwise_cons.1 hp).1 x hm
    unfold Gap at this; omega

theorem next_ge (k : Blocks h bs e) (hx : x ∈ bs) : x + 24 ≤ h.next x ∧ h.next x ≤ e := by
  obtain ⟨a, b, rfl⟩ := List.append_of_mem hx
  obtain ⟨s, l, -, hn, h1, h2, -⟩ := k.next_spec
  rw [hn]; exact ⟨h1, h2⟩

/-- Two blocks are the same or one ends before the other begins. -/
theorem apart (k : Blocks h bs e) (hx : x ∈ bs) (hy : y ∈ bs) (hne : x ≠ y) :
    h.next x ≤ y ∨ h.next y ≤ x := by
  obtain ⟨a, b, rfl⟩ := List.append_of_mem hx
  rcases List.mem_append.1 hy with hy | hy
  · obtain ⟨a₁, a₂, rfl⟩ := List.append_of_mem hy
    rw [List.append_assoc, List.cons_append] at k
    obtain ⟨s, l, hs, hn, -, -, hmin⟩ := k.next_spec
    right
    rw [hn]
    exact hmin x (by rw [← hs]; simp)
  · have hy : y ∈ b := (List.mem_cons.1 hy).resolve_left (Ne.symm hne)
    obtain ⟨s, l, hs, hn, -, -, hmin⟩ := k.next_spec
    left
    rw [hn]
    exact hmin y (by rw [← hs]; simp [hy])

/-- No block begins within another. -/
theorem inside (k : Blocks h bs e) (hx : x ∈ bs) (hlt : x < n) (hlt' : n < h.next x) : n ∉ bs := by
  intro hn
  rcases k.apart hx hn (by omega) with h1 | h1
  · omega
  · have := (k.next_ge hn).1; omega

theorem uniq (k : Blocks h (a ++ x :: b) e) : x ∉ a ++ b := by
  intro hx
  have hnd := k.ring.nodup
  rw [List.append_assoc, List.cons_append, List.nodup_middle] at hnd
  refine (List.nodup_cons.1 hnd).1 ?_
  rw [← List.append_assoc]
  exact List.mem_append_left _ hx

theorem memitemSize_eq (k : Blocks h bs e) (hx : x ∈ bs) : h.memitemSize x = size h x := by
  obtain ⟨h1, h2⟩ := k.next_ge hx
  have := k.tailEnd
  have := k.bound
  unfold Memheap.memitemSize
  rw [memheapSize_eq, sub32_eq (a := h.next x) (by omega) (by omega),
    sub32_eq (by omega) (by omega)]
  rfl

/-- The blocks and their headers fill the pool up to the tailer. -/
theorem sum_size (k : Blocks h bs e) :
    h.startAddr + (bs.map (size h)).sum + 24 * bs.length ≤ e := by
  have key : ∀ (l : List ℕ) (x : ℕ), (x :: l ++ [e]).IsChain Gap →
      Fwd h.next (x :: l ++ [e]) →
      x + ((x :: l).map (size h)).sum + 24 * (x :: l).length ≤ e := by
    intro l
    induction l with
    | nil =>
      intro x hg hf
      have h1 := (List.isChain_cons_cons.1 hg).1
      have h2 := (List.isChain_cons_cons.1 hf).1
      unfold Gap at h1
      simp [size]; omega
    | cons y l ih =>
      intro x hg hf
      obtain ⟨h1, hg'⟩ := List.isChain_cons_cons.1 hg
      obtain ⟨h2, hf'⟩ := List.isChain_cons_cons.1 hf
      have := ih y hg' hf'
      unfold Gap at h1
      rw [List.map_cons, List.sum_cons, List.length_cons]
      have hs : size h x = y - x - 24 := by unfold size; rw [h2]
      omega
  have hfwd : Fwd h.next (bs ++ [e]) := k.ring.fwd.left_of_append
  cases bs with
  | nil => have := k.ring.head; simp at this; simp [this]
  | cons x l =>
    have hx : x = h.startAddr := by simpa using k.ring.head
    rw [← hx]
    exact key l x k.gap hfwd

theorem sum_size_le (k : Blocks h bs e) (hnd : fs.Nodup) (hsub : ∀ z ∈ fs, z ∈ bs) :
    h.startAddr + (fs.map (size h)).sum + 24 * fs.length ≤ e := by
  obtain ⟨l, hp, hl⟩ := List.subperm_of_subset hnd hsub
  have hsum : (fs.map (size h)).sum ≤ (bs.map (size h)).sum := by
    rw [← (hp.map (size h)).sum_eq]
    exact (hl.map (size h)).sum_le_sum fun _ _ => Nat.zero_le _
  have hlen : fs.length ≤ bs.length := hp.length_eq ▸ hl.length_le
  have := k.sum_size
  omega

/-- An item built inside the block at `x`. -/
theorem put (k : Blocks h (a ++ x :: b) e) (hn : x + 24 ≤ n) (hn' : n + 24 ≤ h.next x)
    (hs : SameArea h h') (hx : h'.next x = n) (hns : h'.next n = h.next x)
    (hno : ∀ z, z ≠ x → z ≠ n → h'.next z = h.next z) (hsn : h'.prev (h.next x) = n)
    (hnx : h'.prev n = x) (hpo : ∀ z, z ≠ h.next x → z ≠ n → h'.prev z = h.prev z) :
    Blocks h' (a ++ x :: n :: b) e := by
  obtain ⟨s, l, hl, hnext, hge, hle, hmin⟩ := k.next_spec
  have hr : Ring h.next h.prev h.startAddr (a ++ x :: (b ++ [e])) := by
    have := k.ring; rwa [List.append_assoc, List.cons_append] at this
  rw [hnext] at hns hsn hpo hn'
  have hmem : n ∉ a ++ x :: (b ++ [e]) := by
    rw [hl]
    intro hm
    rcases List.mem_append.1 hm with hm | hm
    · have := k.order.1 n hm; omega
    · rcases List.mem_cons.1 hm with rfl | hm
      · omega
      · have := hmin n hm; omega
  refine ⟨?_, ?_, ?_, ?_⟩
  · rw [hs.startAddr, List.append_assoc, List.cons_append, List.cons_append]
    exact hr.put (s := s) (d := l ++ [h.startAddr]) (by rw [hl]; rfl) hmem hx hns hno hsn hnx hpo
  · have hg := k.gap
    rw [List.append_assoc, List.cons_append, hl] at hg
    rw [List.append_assoc, List.cons_append, List.cons_append, hl]
    rw [List.isChain_append_cons_cons] at hg
    exact List.isChain_append_cons_cons.2 ⟨hg.1, hn, List.isChain_cons_cons.2 ⟨hn', hg.2.2⟩⟩
  · rw [hs.startAddr, hs.poolSize]; exact k.tailEnd
  · rw [hs.startAddr, hs.poolSize]; exact k.bound

/-- The block at `x` swallows the one behind it. -/
theorem join (k : Blocks h (a ++ x :: y :: b) e) (hs : SameArea h h') (hx : h'.next x = h.next y)
    (hno : ∀ z, z ≠ x → z ≠ y → h'.next z = h.next z) (hsn : h'.prev (h.next y) = x)
    (hpo : ∀ z, z ≠ h.next y → z ≠ y → h'.prev z = h.prev z) : Blocks h' (a ++ x :: b) e := by
  have k' : Blocks h ((a ++ [x]) ++ y :: b) e := by
    rwa [List.append_assoc, List.singleton_append]
  obtain ⟨s, l, hl, hnext, hge, -, -⟩ := k'.next_spec
  have hr : Ring h.next h.prev h.startAddr (a ++ x :: y :: (b ++ [e])) := by
    have := k.ring; rwa [List.append_assoc, List.cons_append, List.cons_append] at this
  rw [hnext] at hx hsn hpo
  refine ⟨?_, ?_, ?_, ?_⟩
  · rw [hs.startAddr, List.append_assoc, List.cons_append]
    exact hr.skip (s := s) (d := l ++ [h.startAddr]) (by rw [hl]; rfl) hx hno hsn hpo
  · have hg := k.gap
    have hxy := k'.order.1 x (by simp)
    rw [List.append_assoc, List.cons_append, List.cons_append, hl] at hg
    rw [List.append_assoc, List.cons_append, hl]
    simp only [List.isChain_append_cons_cons, List.isChain_cons_cons] at hg ⊢
    exact ⟨hg.1, by unfold Gap; omega, hg.2.2.2⟩
  · rw [hs.startAddr, hs.poolSize]; exact k.tailEnd
  · rw [hs.startAddr, hs.poolSize]; exact k.bound

/-- `insertItem` builds an item inside the block at `x`. -/
theorem insertItem (k : Blocks h (a ++ x :: b) e) (hn : x + 24 ≤ n) (hn' : n + 24 ≤ h.next x) :
    Blocks (insertItem h x n) (a ++ x :: n :: b) e ∧ (insertItem h x n).next x = n ∧
      (MemHeap.insertItem h x n).next n = h.next x ∧
      ∀ z, z ≠ x → z ≠ n → (MemHeap.insertItem h x n).next z = h.next z := by
  have hxn : x ≠ n := by omega
  have hs : h.next x ≠ n := by omega
  have h1 : (MemHeap.insertItem h x n).next = update (update h.next n (h.next x)) x n := by
    simp [MemHeap.insertItem, Memheap.setMagic, Memheap.setPrev, Memheap.setNext]
  have h2 : (MemHeap.insertItem h x n).prev = update (update h.prev n x) (h.next x) n := by
    simp [MemHeap.insertItem, Memheap.setMagic, Memheap.setPrev, Memheap.setNext, hxn]
  have hx : (MemHeap.insertItem h x n).next x = n := by rw [h1, update_self]
  have hnx : (MemHeap.insertItem h x n).next n = h.next x := by
    rw [h1, update_of_ne hxn.symm, update_self]
  have ho : ∀ z, z ≠ x → z ≠ n → (MemHeap.insertItem h x n).next z = h.next z := fun z hzx hzn => by
    rw [h1, update_of_ne hzx, update_of_ne hzn]
  refine ⟨k.put hn hn' (insertItem_same h x n).1 hx hnx ho ?_ ?_ ?_, hx, hnx, ho⟩
  · rw [h2, update_self]
  · rw [h2, update_of_ne hs.symm, update_self]
  · intro z hzs hzn
    rw [h2, update_of_ne hzs, update_of_ne hzn]

/-- `joinNext` lets the block at `x` swallow the one behind it. -/
theorem joinNext (k : Blocks h (a ++ x :: y :: b) e) :
    Blocks (joinNext h x) (a ++ x :: b) e ∧ (MemHeap.joinNext h x).next x = h.next y ∧
      ∀ z, z ≠ x → (MemHeap.joinNext h x).next z = h.next z := by
  have hy : h.next x = y := by
    obtain ⟨s, l, hs, hn, -⟩ := k.next_spec
    simp only [List.cons_append, List.cons.injEq] at hs
    rw [hn, hs.1]
  have h1 : (MemHeap.joinNext h x).next = update h.next x (h.next y) := by
    simp [MemHeap.joinNext, Memheap.setPrev, Memheap.setNext, hy]
  have h2 : (MemHeap.joinNext h x).prev = update h.prev (h.next y) x := by
    simp [MemHeap.joinNext, Memheap.setPrev, Memheap.setNext, hy]
  have hx : (MemHeap.joinNext h x).next x = h.next y := by rw [h1, update_self]
  have ho : ∀ z, z ≠ x → (MemHeap.joinNext h x).next z = h.next z := fun z hzx => by
    rw [h1, update_of_ne hzx]
  refine ⟨k.join (joinNext_same h x).1 hx (fun z hz _ => ho z hz) ?_ ?_, hx, ho⟩
  · rw [h2, update_self]
  · intro z hzs _
    rw [h2, update_of_ne hzs]

end Blocks

/-! ### The free ring -/

/-- The free ring goes from its header through `fs` and back. -/
def FreeRing (h : Memheap) (fs : List ℕ) : Prop :=
  Ring h.nextFree h.prevFree h.freeList (h.freeList :: fs)

theorem FreeRing.frame (r : FreeRing h fs) (hf : h'.freeList = h.freeList)
    (hn : h'.nextFree = h.nextFree) (hp : h'.prevFree = h.prevFree) : FreeRing h' fs := by
  unfold FreeRing; rw [hf, hn, hp]; exact r

/-- The links of an item that is not on the ring do not matter. -/
theorem FreeRing.clear (r : FreeRing h fs) (hx : x ∉ h.freeList :: fs) :
    FreeRing ((h.setNextFree x 0).setPrevFree x 0) fs := by
  have hne : ∀ z ∈ h.freeList :: fs, z ≠ x := fun z hz e => hx (e ▸ hz)
  exact Ring.congr r (fun z hz => update_of_ne (hne z hz) _ _)
    fun z hz => update_of_ne (hne z hz) _ _

/-- `unlinkFree` takes an item out of the ring. -/
theorem FreeRing.unlink (r : FreeRing h (c ++ x :: d)) : FreeRing (unlinkFree h x) (c ++ d) := by
  obtain ⟨s, l, hs⟩ := Ring.exists_next d h.freeList
  obtain ⟨c', p, hc⟩ : ∃ c' p, h.freeList :: c = c' ++ [p] := by
    rcases List.eq_nil_or_concat (h.freeList :: c) with hnil | ⟨c', p, hc⟩
    · cases hnil
    · exact ⟨c', p, by simpa using hc⟩
  have hr : Ring h.nextFree h.prevFree h.freeList (c' ++ p :: x :: d) := by
    have : h.freeList :: (c ++ x :: d) = c' ++ p :: x :: d := by
      rw [← List.cons_append, hc]; simp
    unfold FreeRing at r
    rwa [this] at r
  have hpx : h.prevFree x = p := hr.prev_eq
  have hnx : h.nextFree x = s := by
    have hr' : Ring h.nextFree h.prevFree h.freeList ((c' ++ [p]) ++ x :: d) := by simpa using hr
    exact hr'.next_eq hs
  have hsx : x ≠ s := by
    rintro rfl
    have hnd := r.nodup
    cases d with
    | nil =>
      have hfl : h.freeList = x := by simp at hs; exact hs.1
      rw [hfl] at hnd
      exact (List.nodup_cons.1 hnd).1 (by simp)
    | cons y d =>
      have hy : y = x := by simp at hs; exact hs.1
      have := hr.nodup
      rw [hy] at this
      have := (List.nodup_append.1 this).2.1
      simp at this
  have h1 : (unlinkFree h x).nextFree = update h.nextFree p s := by
    simp [unlinkFree, Memheap.setPrevFree, Memheap.setNextFree, hpx, hnx, hsx]
  have h2 : (unlinkFree h x).prevFree = update h.prevFree s p := by
    simp [unlinkFree, Memheap.setPrevFree, Memheap.setNextFree, hpx, hnx]
  have hgoal : h.freeList :: (c ++ d) = c' ++ p :: d := by
    rw [← List.cons_append, hc]; simp
  change Ring _ _ h.freeList (h.freeList :: (c ++ d))
  rw [hgoal]
  refine hr.skip hs ?_ ?_ ?_ ?_
  · rw [h1, update_self]
  · intro z hz _; rw [h1, update_of_ne hz]
  · rw [h2, update_self]
  · intro z hz _; rw [h2, update_of_ne hz]

/-- `insertFree` puts an item behind the header of the ring. -/
theorem FreeRing.insert (r : FreeRing h fs) (hx : x ∉ h.freeList :: fs) :
    FreeRing (insertFree h x) (x :: fs) := by
  obtain ⟨s, l, hs⟩ := Ring.exists_next fs h.freeList
  have hr : Ring h.nextFree h.prevFree h.freeList ([] ++ h.freeList :: fs) := r
  have hns : h.nextFree h.freeList = s := hr.next_eq hs
  have hfx : h.freeList ≠ x := fun e => hx (by simp [e])
  have hsx : s ≠ x := by
    rintro rfl
    refine hx ?_
    have : s ∈ fs ++ [h.freeList] := by rw [hs]; simp
    simp at this ⊢; tauto
  have h1 : (insertFree h x).nextFree = update (update h.nextFree x s) h.freeList x := by
    simp [insertFree, Memheap.setPrevFree, Memheap.setNextFree, hns]
  have h2 : (insertFree h x).prevFree = update (update h.prevFree x h.freeList) s x := by
    simp [insertFree, Memheap.setPrevFree, Memheap.setNextFree, hns, hfx]
  change Ring _ _ h.freeList ([] ++ h.freeList :: x :: fs)
  refine hr.put hs hx ?_ ?_ ?_ ?_ ?_ ?_
  · rw [h1, update_self]
  · rw [h1, update_of_ne hfx.symm, update_self]
  · intro z hz hzx; rw [h1, update_of_ne hz, update_of_ne hzx]
  · rw [h2, update_self]
  · rw [h2, update_of_ne hsx.symm, update_self]
  · intro z hz hzx; rw [h2, update_of_ne hz, update_of_ne hzx]

/-! ### The invariant -/

/-- Of two neighbouring blocks one is in use. -/
def NoAdj (h : Memheap) (bs : List ℕ) : Prop := bs.IsChain fun x y => h.isUsed x ∨ h.isUsed y

/-- The blocks tile the pool, the free ring goes through exactly the free ones, no two of them are
    neighbours, and the available bytes are theirs. The header of the free ring lies outside the
    pool. -/
structure Inv (h : Memheap) (bs fs : List ℕ) (e : ℕ) : Prop where
  blocks : Blocks h bs e
  tailUsed : h.isUsed e
  ring : FreeRing h fs
  mem_free : ∀ z, z ∈ fs ↔ z ∈ bs ∧ ¬h.isUsed z
  noAdj : NoAdj h bs
  avail : h.availableSize = (fs.map (size h)).sum
  outside : h.freeList + 24 ≤ h.startAddr ∨ h.startAddr + h.poolSize ≤ h.freeList

/-- The block at `z` is in use. -/
def InUse (h : Memheap) (bs : List ℕ) (z : ℕ) : Prop := z ∈ bs ∧ h.isUsed z

theorem NoAdj.mono (hn : NoAdj h bs) (hu : ∀ z ∈ bs, h.isUsed z → h'.isUsed z) : NoAdj h' bs :=
  List.IsChain.imp_of_mem_imp (fun _ _ hx hy hxy => hxy.imp (hu _ hx) (hu _ hy)) hn

/-- Behind a free item comes one in use. -/
theorem NoAdj.next_used (hn : NoAdj h (a ++ x :: b)) (hx : ¬h.isUsed x) :
    NoAdj h b ∧ ∀ y ∈ b.head?, h.isUsed y := by
  have hright : NoAdj h (x :: b) := (List.isChain_split.1 hn).2
  cases b with
  | nil => exact ⟨.nil, by simp⟩
  | cons y b =>
    obtain ⟨hxy, htail⟩ := List.isChain_cons_cons.1 hright
    refine ⟨htail, fun z hz => ?_⟩
    obtain rfl : y = z := Option.some_inj.1 hz
    exact hxy.resolve_left hx

/-- A new free item may lie between two that are in use. -/
theorem NoAdj.insert (hleft : NoAdj h (a ++ [x])) (hx : h.isUsed x) (hb : NoAdj h b)
    (hhead : ∀ y ∈ b.head?, h.isUsed y) : NoAdj h (a ++ x :: n :: b) := by
  refine List.isChain_append_cons_cons.2 ⟨hleft, .inl hx, ?_⟩
  cases b with
  | nil => exact .singleton _
  | cons y b => exact List.isChain_cons_cons.2 ⟨.inr (hhead y rfl), hb⟩

/-- The blocks of a chain that are in use still are in use. -/
theorem NoAdj.insert_mono (hn : NoAdj h (a ++ [x])) (hx : h'.isUsed x)
    (hb : NoAdj h b ∧ ∀ y ∈ b.head?, h.isUsed y)
    (hu : ∀ z, z ∈ a ++ b → z ≠ x → h.isUsed z → h'.isUsed z) :
    NoAdj h' (a ++ x :: n :: b) := by
  have hall (z : ℕ) (hz : z = x ∨ z ∈ a ++ b) (hzu : h.isUsed z) : h'.isUsed z := by
    rcases eq_or_ne z x with rfl | hne
    · exact hx
    · exact hu z (hz.resolve_left hne) hne hzu
  refine NoAdj.insert (hn.mono fun z hz => hall z ?_) hx (hb.1.mono fun z hz => hall z ?_)
    fun y hy => hall y (.inr ?_) (hb.2 y hy)
  · rcases List.mem_append.1 hz with hz | hz
    · exact .inr (List.mem_append_left _ hz)
    · exact .inl (List.mem_singleton.1 hz)
  · exact .inr (List.mem_append_right _ hz)
  · exact List.mem_append_right _ (List.mem_of_mem_head? hy)

theorem sum_congr (hs : ∀ z ∈ fs, size h' z = size h z) :
    (fs.map (size h')).sum = (fs.map (size h)).sum := by
  rw [List.map_congr_left hs]

@[simp] theorem sum_split (f : ℕ → ℕ) :
    ((c ++ x :: d).map f).sum = f x + ((c ++ d).map f).sum := by
  simp only [List.map_append, List.map_cons, List.sum_append, List.sum_cons]; omega

/-- One item of the list grows by `v` bytes. -/
theorem sum_grow {v : ℕ} (hnd : fs.Nodup) (hx : x ∈ fs) (hsx : size h' x = size h x + v)
    (hs : ∀ z, z ≠ x → size h' z = size h z) :
    (fs.map (size h')).sum = (fs.map (size h)).sum + v := by
  obtain ⟨c, d, rfl⟩ := List.append_of_mem hx
  rw [List.nodup_middle] at hnd
  have hrest : ((c ++ d).map (size h')).sum = ((c ++ d).map (size h)).sum :=
    sum_congr fun z hz => hs z fun he => (List.nodup_cons.1 hnd).1 (he ▸ hz)
  rw [sum_split, sum_split, hrest, hsx]
  omega

namespace Inv

theorem free_nodup (i : Inv h bs fs e) : fs.Nodup := (List.nodup_cons.1 i.ring.nodup).2

theorem free_uniq (i : Inv h bs (c ++ x :: d) e) : x ∉ c ++ d := by
  have := i.free_nodup
  rw [List.nodup_middle] at this
  exact (List.nodup_cons.1 this).1

theorem header_notMem (i : Inv h bs fs e) : h.freeList ∉ fs := (List.nodup_cons.1 i.ring.nodup).1

/-- The count of available bytes never reaches the word's end. -/
theorem avail_lt (i : Inv h bs fs e) : h.availableSize < 2 ^ 32 := by
  have := i.blocks.sum_size_le i.free_nodup fun z hz => ((i.mem_free z).1 hz).1
  have := i.blocks.tailEnd
  have := i.blocks.bound
  rw [i.avail]; omega

/-- An address in the pool is not the header of the free ring. -/
theorem ne_header (i : Inv h bs fs e) (hx : x ∈ bs) (hn : x ≤ n) (hn' : n ≤ e) :
    n ≠ h.freeList := by
  have hstart := i.blocks.start_le hx
  have := i.blocks.tailEnd
  have := i.outside
  omega

end Inv

end EasyCore.MemHeap
