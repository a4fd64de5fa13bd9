import EasyCore.Kernel.MemHeapInv

/-! What each operation of the memory heap does to a heap that satisfies `Inv`: the blocks and the
    free ring after it, and which blocks are then in use. -/

namespace EasyCore.MemHeap
open Function Kernel Links

variable {h h' : Memheap} {bs fs a b c d : List ℕ} {e x y z n : ℕ}

/-! ### `rt_memheap_alloc` -/

/-- What giving out the block at `x` for `m` bytes does. -/
structure Taken (h h' : Memheap) (bs bs' fs' : List ℕ) (e x m : ℕ) : Prop where
  inv : Inv h' bs' fs' e
  area : SameArea h h'
  fresh : x ∈ bs ∧ ¬h.isUsed x
  inUse : ∀ z, InUse h' bs' z ↔ InUse h bs z ∨ z = x
  next : ∀ z, InUse h bs z → h'.next z = h.next z
  room : m ≤ size h' x

/-- Taking an item out of the free ring and forgetting its links. -/
theorem FreeRing.take (r : FreeRing h (c ++ x :: d)) :
    FreeRing (((unlinkFree h x).setNextFree x 0).setPrevFree x 0) (c ++ d) := by
  refine r.unlink.clear ?_
  have hnd := r.nodup
  rw [← List.cons_append, List.nodup_middle] at hnd
  exact (List.nodup_cons.1 hnd).1

/-- Everything but the links of the free ring survives `FreeRing.take`. -/
theorem take_same (h : Memheap) (x : ℕ) :
    SameBlocks h (((unlinkFree h x).setNextFree x 0).setPrevFree x 0) ∧
    (((unlinkFree h x).setNextFree x 0).setPrevFree x 0).magic = h.magic ∧
    (((unlinkFree h x).setNextFree x 0).setPrevFree x 0).availableSize = h.availableSize := by
  simp only [unlinkFree, Memheap.setNextFree, Memheap.setPrevFree, and_self, and_true]
  exact ⟨⟨rfl, rfl, rfl⟩, rfl, rfl⟩

theorem Inv.split_free (i : Inv h bs fs e) (hx : x ∈ fs) :
    (∃ a b, bs = a ++ x :: b) ∧ (∃ c d, fs = c ++ x :: d) ∧ x ∈ bs ∧ ¬h.isUsed x := by
  obtain ⟨hxb, hxu⟩ := (i.mem_free x).1 hx
  obtain ⟨a, b, hab⟩ := List.append_of_mem hxb
  obtain ⟨c, d, hcd⟩ := List.append_of_mem hx
  exact ⟨⟨a, b, hab⟩, ⟨c, d, hcd⟩, hxb, hxu⟩

/-- The free item at `x` is split: the rest is a free item of its own. -/
theorem takeSplit_spec (i : Inv h bs fs e) (hx : x ∈ fs) {m : ℕ} (hm : m + 36 ≤ size h x) :
    ∃ bs' fs', Taken h (takeItem h m x (size h x)) bs bs' fs' e x m := by
  obtain ⟨⟨a, b, rfl⟩, ⟨c, d, rfl⟩, hxb, hxu⟩ := i.split_free hx
  obtain ⟨hge, hle⟩ := i.blocks.next_ge hxb
  have hbd := i.blocks.bound
  have hte := i.blocks.tailEnd
  have hsz : size h x = h.next x - x - 24 := rfl
  obtain ⟨n, hn⟩ : ∃ n, n = x + m + 24 := ⟨_, rfl⟩
  have hn36 : n + 36 ≤ h.next x := by omega
  have hmod : (x + m + 24) % 2 ^ 32 = n := by omega
  have hcond : size h x ≥ (m + memheapSize + memheapMinialloc) % 2 ^ 32 := by
    rw [memheapSize_eq, memheapMinialloc_eq]; omega
  -- the stores one after the other
  obtain ⟨h₁, hh₁⟩ : ∃ h₁, h₁ = insertItem h x n := ⟨_, rfl⟩
  obtain ⟨h₂, hh₂⟩ : ∃ h₂, h₂ = ((unlinkFree h₁ x).setNextFree x 0).setPrevFree x 0 := ⟨_, rfl⟩
  obtain ⟨h₃, hh₃⟩ : ∃ h₃, h₃ = insertFree h₂ n := ⟨_, rfl⟩
  obtain ⟨h₄, hh₄⟩ : ∃ h₄, h₄ = takeAvailable h₃ ((m + 24) % 2 ^ 32) := ⟨_, rfl⟩
  have heq : takeItem h m x (size h x) = h₄.setMagic x (h₄.magic x ||| memheapUsed) := by
    unfold takeItem
    rw [if_pos hcond]
    simp only [memheapSize_eq, hmod]
    rw [hh₄, hh₃, hh₂, hh₁]
  obtain ⟨k₁, hxn₁, hnn₁, hno₁⟩ := i.blocks.insertItem (n := n) (by omega) (by omega)
  obtain ⟨ar₁, hm₁, hnf₁, hpf₁, hav₁⟩ := insertItem_same h x n
  rw [← hh₁] at k₁ hxn₁ hnn₁ hno₁ ar₁ hm₁ hnf₁ hpf₁ hav₁
  obtain ⟨sb₂, hm₂, hav₂⟩ := take_same h₁ x
  rw [← hh₂] at sb₂ hm₂ hav₂
  obtain ⟨sb₃, hm₃, hav₃⟩ := insertFree_same h₂ n
  rw [← hh₃] at sb₃ hm₃ hav₃
  obtain ⟨sb₄, hm₄, hnf₄, hpf₄, hav₄⟩ := takeAvailable_same h₃ ((m + 24) % 2 ^ 32)
  rw [← hh₄] at sb₄ hm₄ hnf₄ hpf₄ hav₄
  -- the free ring
  have hnb : n ∉ a ++ x :: b := i.blocks.inside hxb (by omega) (by omega)
  have hnfs : n ∉ c ++ x :: d := fun hmem => hnb ((i.mem_free n).1 hmem).1
  have hnh : n ≠ h.freeList := i.ne_header hxb (by omega) (by omega)
  have r₁ : FreeRing h₁ (c ++ x :: d) := i.ring.frame ar₁.freeList hnf₁ hpf₁
  have r₂ : FreeRing h₂ (c ++ d) := hh₂ ▸ r₁.take
  have r₃ : FreeRing h₃ (n :: (c ++ d)) := by
    rw [hh₃]
    refine r₂.insert ?_
    rw [sb₂.freeList, ar₁.freeList]
    simp only [List.mem_cons, List.mem_append, not_or] at hnfs ⊢
    exact ⟨hnh, hnfs.1, hnfs.2.2⟩
  have r₄ : FreeRing h₄ (n :: (c ++ d)) := r₃.frame sb₄.freeList hnf₄ hpf₄
  -- marks and sizes of the final heap
  rw [heq]
  obtain ⟨h₅, hh₅⟩ : ∃ h₅, h₅ = h₄.setMagic x (h₄.magic x ||| memheapUsed) := ⟨_, rfl⟩
  rw [← hh₅]
  have sb₅ : SameBlocks h₁ h₅ :=
    ((sb₂.trans sb₃).trans sb₄).trans (hh₅ ▸ setMagic_same h₄ x _)
  have hmag : h₅.magic = update (update h.magic n memheapMagic) x (h₄.magic x ||| memheapUsed) := by
    rw [hh₅, ← hm₁, ← hm₂, ← hm₃, ← hm₄]; rfl
  have hux : h₅.isUsed x := isUsed_or (by rw [hmag, update_self])
  have hun : ¬h₅.isUsed n :=
    isUsed_of_magic (by rw [hmag, update_of_ne (by omega), update_self])
  have huo : ∀ z, z ≠ x → z ≠ n → (h₅.isUsed z ↔ h.isUsed z) := fun z hzx hzn =>
    isUsed_congr (by rw [hmag, update_of_ne hzx, update_of_ne hzn])
  have hne : ∀ z ∈ a ++ x :: b, z ≠ n := fun z hz e => hnb (e ▸ hz)
  have hnext : ∀ z, z ≠ x → z ≠ n → h₅.next z = h.next z := fun z hzx hzn => by
    rw [sb₅.next]; exact hno₁ z hzx hzn
  have hmem : ∀ z, z ∈ a ++ x :: n :: b ↔ z ∈ a ++ x :: b ∨ z = n := fun z => by simp; tauto
  have hxcd : x ∉ c ++ d := i.free_uniq
  have hte' : e ≠ n ∧ e ≠ x := by have := i.blocks.lt_tail hxb; omega
  refine ⟨a ++ x :: n :: b, n :: (c ++ d), ⟨⟨k₁.frame sb₅, ?_, ?_, fun z => ?_, ?_, ?_, ?_⟩, ?_,
    ⟨hxb, hxu⟩, fun z => ?_, fun z hz => ?_, ?_⟩⟩
  · exact (huo e hte'.2 hte'.1).2 i.tailUsed
  · rw [hh₅]; exact r₄
  · rw [hmem]
    by_cases hzn : z = n
    · subst hzn; simp [hun]
    · by_cases hzx : z = x
      · subst hzx
        simp only [List.mem_cons, hzn, hxcd, hux]; simp
      · have := i.mem_free z
        simp only [List.mem_append, List.mem_cons, hzx, hzn, false_or, or_false,
          huo z hzx hzn] at this ⊢
        exact this
  · have hleft : NoAdj h (a ++ [x]) := (List.isChain_split.1 i.noAdj).1
    refine hleft.insert_mono hux (i.noAdj.next_used hxu) fun z hz hzx hu => ?_
    have hz : z ∈ a ++ x :: b := by
      simp only [List.mem_append, List.mem_cons] at hz ⊢
      tauto
    exact (huo z hzx (hne z hz)).2 hu
  · have hav : h₅.availableSize = sub32 h.availableSize ((m + 24) % 2 ^ 32) := by
      rw [hh₅, ← hav₁, ← hav₂, ← hav₃, ← hav₄]; rfl
    have hsum := i.avail
    have hlt := i.avail_lt
    rw [sum_split] at hsum
    rw [hav, sub32_eq (by omega) hlt, List.map_cons, List.sum_cons, sum_congr (h := h)]
    · have : size h₅ n = h.next x - n - 24 := by unfold size; rw [sb₅.next, hnn₁]
      omega
    · intro z hz
      have hzx : z ≠ x := fun e => hxcd (e ▸ hz)
      have hzn : z ≠ n := fun e => hnfs (by subst e; simp at hz ⊢; tauto)
      unfold size; rw [hnext z hzx hzn]
  · rw [sb₅.freeList, sb₅.startAddr, sb₅.poolSize, ar₁.freeList, ar₁.startAddr, ar₁.poolSize]
    exact i.outside
  · exact ar₁.trans sb₅.toSameArea
  · unfold InUse; rw [hmem]
    by_cases hzx : z = x
    · subst hzx; simp [hux]
    · by_cases hzn : z = n
      · subst hzn; simp only [hun, hnb, hzx]; simp
      · rw [huo z hzx hzn]; simp [hzx, hzn]
  · have hzx : z ≠ x := fun e => hxu (e ▸ hz.2)
    exact hnext z hzx (hne z hz.1)
  · unfold size; rw [sb₅.next, hxn₁]; omega

/-- The free item at `x` is taken whole. -/
theorem takeWhole_spec (i : Inv h bs fs e) (hx : x ∈ fs) {m : ℕ} (hm : m ≤ size h x)
    (hm' : size h x < m + 36) : ∃ bs' fs', Taken h (takeItem h m x (size h x)) bs bs' fs' e x m := by
  obtain ⟨⟨a, b, rfl⟩, ⟨c, d, rfl⟩, hxb, hxu⟩ := i.split_free hx
  obtain ⟨hge, hle⟩ := i.blocks.next_ge hxb
  have hbd := i.blocks.bound
  have hte := i.blocks.tailEnd
  have hsz : size h x = h.next x - x - 24 := rfl
  have hcond : ¬size h x ≥ (m + memheapSize + memheapMinialloc) % 2 ^ 32 := by
    rw [memheapSize_eq, memheapMinialloc_eq]; omega
  obtain ⟨h₁, hh₁⟩ : ∃ h₁, h₁ = takeAvailable h (size h x) := ⟨_, rfl⟩
  obtain ⟨h₂, hh₂⟩ : ∃ h₂, h₂ = ((unlinkFree h₁ x).setNextFree x 0).setPrevFree x 0 := ⟨_, rfl⟩
  have heq : takeItem h m x (size h x) = h₂.setMagic x (h₂.magic x ||| memheapUsed) := by
    unfold takeItem
    rw [if_neg hcond, hh₂, hh₁]
  obtain ⟨sb₁, hm₁, hnf₁, hpf₁, hav₁⟩ := takeAvailable_same h (size h x)
  rw [← hh₁] at sb₁ hm₁ hnf₁ hpf₁ hav₁
  obtain ⟨sb₂, hm₂, hav₂⟩ := take_same h₁ x
  rw [← hh₂] at sb₂ hm₂ hav₂
  have r₁ : FreeRing h₁ (c ++ x :: d) := i.ring.frame sb₁.freeList hnf₁ hpf₁
  have r₂ : FreeRing h₂ (c ++ d) := hh₂ ▸ r₁.take
  rw [heq]
  obtain ⟨h₅, hh₅⟩ : ∃ h₅, h₅ = h₂.setMagic x (h₂.magic x ||| memheapUsed) := ⟨_, rfl⟩
  rw [← hh₅]
  have sb₅ : SameBlocks h h₅ := (sb₁.trans sb₂).trans (hh₅ ▸ setMagic_same h₂ x _)
  have hmag : h₅.magic = update h.magic x (h₂.magic x ||| memheapUsed) := by
    rw [hh₅, ← hm₁, ← hm₂]; rfl
  have hux : h₅.isUsed x := isUsed_or (by rw [hmag, update_self])
  have huo : ∀ z, z ≠ x → (h₅.isUsed z ↔ h.isUsed z) := fun z hzx =>
    isUsed_congr (by rw [hmag, update_of_ne hzx])
  have hxcd : x ∉ c ++ d := i.free_uniq
  refine ⟨a ++ x :: b, c ++ d, ⟨⟨i.blocks.frame sb₅, ?_, ?_, fun z => ?_, ?_, ?_, ?_⟩,
    sb₅.toSameArea, ⟨hxb, hxu⟩, fun z => ?_, fun z hz => ?_, ?_⟩⟩
  · exact (huo e (by have := i.blocks.lt_tail hxb; omega)).2 i.tailUsed
  · rw [hh₅]; exact r₂
  · by_cases hzx : z = x
    · subst hzx; simp only [hxcd, hux]; simp
    · have := i.mem_free z
      simp only [List.mem_append, List.mem_cons, hzx, false_or, huo z hzx] at this ⊢
      exact this
  · refine i.noAdj.mono fun z _ hu => ?_
    by_cases hzx : z = x
    · rw [hzx]; exact hux
    · exact (huo z hzx).2 hu
  · have hav : h₅.availableSize = sub32 h.availableSize (size h x) := by
      rw [hh₅, ← hav₁, ← hav₂]; rfl
    have hsum := i.avail
    rw [sum_split] at hsum
    rw [hav, sub32_eq (by omega) i.avail_lt, sum_congr (h := h)]
    · omega
    · intro z _; unfold size; rw [sb₅.next]
  · rw [sb₅.freeList, sb₅.startAddr, sb₅.poolSize]; exact i.outside
  · unfold InUse
    by_cases hzx : z = x
    · subst hzx; simp [hux]
    · rw [huo z hzx]; simp [hzx]
  · rw [sb₅.next]
  · unfold size; rw [sb₅.next]; exact hm

/-- The search ends: at an item of the ring that is large enough, or with a size that is not. -/
theorem findFree_spec (i : Inv h bs fs e) {m : ℕ} :
    ∀ (l c : List ℕ) (fuel start sz : ℕ), fs = c ++ l →
      (l ++ [h.freeList]).head? = some start → sz < m → 2 * l.length + 2 ≤ fuel →
      ∃ hp sz', findFree h m fuel start sz = some (hp, sz') ∧
        (sz' < m ∨ hp ∈ fs ∧ sz' = size h hp ∧ m ≤ sz')
  | [], c, fuel + 1, start, sz, _, hst, hsz, _ => by
    obtain rfl : start = h.freeList := by simpa [eq_comm] using hst
    exact ⟨h.freeList, sz, by simp [findFree], Or.inl hsz⟩
  | z :: l, c, fuel + 2, start, sz, hfs, hst, hsz, hfuel => by
    obtain rfl : start = z := by simpa [eq_comm] using hst
    have hmem : start ∈ fs := by rw [hfs]; simp
    have hne : start ≠ h.freeList := fun e => i.header_notMem (e ▸ hmem)
    have hsize := i.blocks.memitemSize_eq ((i.mem_free start).1 hmem).1
    rw [findFree, if_pos ⟨hne, hsz⟩, hsize]
    dsimp only
    by_cases hlt : size h start < m
    · rw [if_pos hlt]
      have hr : Ring h.nextFree h.prevFree h.freeList ((h.freeList :: c) ++ start :: l) := by
        have := i.ring; unfold FreeRing at this; rwa [hfs] at this
      obtain ⟨s, t, hs⟩ := Ring.exists_next l h.freeList
      have hhd : (l ++ [h.freeList]).head? = some (h.nextFree start) := by
        rw [hr.next_eq hs, hs]; rfl
      exact findFree_spec i l (c ++ [start]) (fuel + 1) _ _ (by simp [hfs]) hhd hlt
        (by simp only [List.length_cons] at hfuel; omega)
    · rw [if_neg hlt, findFree, if_neg fun hc => hlt hc.2]
      exact ⟨start, size h start, rfl, Or.inr ⟨hmem, rfl, not_lt.1 hlt⟩⟩

/-- The search of `rt_memheap_alloc` from the header of the ring. -/
theorem Inv.search (i : Inv h bs fs e) {m : ℕ} (hm : 0 < m) :
    ∃ hp sz, findFree h m h.fuel (h.nextFree h.freeList) 0 = some (hp, sz) ∧
      (sz < m ∨ hp ∈ fs ∧ sz = size h hp ∧ m ≤ sz) := by
  have hr : Ring h.nextFree h.prevFree h.freeList ([] ++ h.freeList :: fs) := i.ring
  obtain ⟨s, t, hs⟩ := Ring.exists_next fs h.freeList
  have hhd : (fs ++ [h.freeList]).head? = some (h.nextFree h.freeList) := by
    rw [hr.next_eq hs, hs]; rfl
  have hfuel : 2 * fs.length + 2 ≤ h.fuel := by
    have := i.blocks.sum_size_le i.free_nodup fun z hz => ((i.mem_free z).1 hz).1
    have := i.blocks.tailEnd
    unfold Memheap.fuel; omega
  exact findFree_spec i fs [] h.fuel _ 0 rfl hhd hm hfuel

/-- `rt_memheap_alloc` gives out a free block that is large enough, or changes nothing. -/
theorem rtMemheapAlloc_spec (i : Inv h bs fs e) (n : ℕ) :
    (∃ x h' bs' fs', rtMemheapAlloc h n = some (h', some (x + 24)) ∧
      Taken h h' bs bs' fs' e x (max (rtAlign n) 12)) ∨ rtMemheapAlloc h n = some (h, none) := by
  unfold rtMemheapAlloc
  simp only [memheapMinialloc_eq, memheapSize_eq]
  obtain ⟨m, hm⟩ : ∃ m, m = max (rtAlign n) 12 := ⟨_, rfl⟩
  have hm12 : 12 ≤ m := hm ▸ le_max_right _ _
  rw [← hm]
  by_cases hlt : m < h.availableSize
  · rw [if_pos hlt]
    have hm0 : 0 < m := by omega
    obtain ⟨hp, sz, heq, hcase⟩ := i.search hm0
    rw [heq]
    dsimp only
    rcases hcase with hsm | ⟨hmem, rfl, hle⟩
    · rw [if_neg (by omega)]; exact Or.inr rfl
    · rw [if_pos hle]
      have hlt := i.blocks.lt_tail ((i.mem_free hp).1 hmem).1
      have := i.blocks.tailEnd
      have := i.blocks.bound
      rw [Nat.mod_eq_of_lt (by omega)]
      left
      by_cases hsplit : m + 36 ≤ size h hp
      · obtain ⟨bs', fs', ht⟩ := takeSplit_spec i hmem hsplit
        exact ⟨hp, _, bs', fs', rfl, ht⟩
      · obtain ⟨bs', fs', ht⟩ := takeWhole_spec i hmem hle (by omega)
        exact ⟨hp, _, bs', fs', rfl, ht⟩
  · rw [if_neg hlt]; exact Or.inr rfl

/-! ### `rt_memheap_free` -/

/-- The members of the free ring once the item at `x` is put into it, when it still has to be. -/
def withItem (ins : Bool) (x : ℕ) (fs : List ℕ) : List ℕ := if ins then x :: fs else fs

/-- A heap in the middle of `rt_memheap_free`: the item at `x` is free, it is in the free ring or
    about to be put there, and it may still have a free neighbour behind it. -/
structure Freeing (h : Memheap) (a b fs : List ℕ) (e x : ℕ) (ins : Bool) : Prop where
  blocks : Blocks h (a ++ x :: b) e
  tailUsed : h.isUsed e
  ring : FreeRing h fs
  free : ¬h.isUsed x
  pending : ins = true → x ∉ fs
  mem_free : ∀ z, z ∈ withItem ins x fs ↔ z ∈ a ++ x :: b ∧ ¬h.isUsed z
  left : NoAdj h (a ++ [x])
  right : NoAdj h b
  outside : h.freeList + 24 ≤ h.startAddr ∨ h.startAddr + h.poolSize ≤ h.freeList

/-- The last store of `rt_memheap_free`. -/
theorem Freeing.finish {ins : Bool} (f : Freeing h a b fs e x ins)
    (hb : ∀ y ∈ b.head?, h.isUsed y)
    (hav : h.availableSize = ((withItem ins x fs).map (size h)).sum) :
    Inv (if ins then insertFree h x else h) (a ++ x :: b) (withItem ins x fs) e := by
  have hadj : NoAdj h (a ++ x :: b) := by
    refine List.isChain_split.2 ⟨f.left, ?_⟩
    cases b with
    | nil => exact .singleton _
    | cons y b => exact List.isChain_cons_cons.2 ⟨Or.inr (hb y rfl), f.right⟩
  cases ins with
  | false => exact ⟨f.blocks, f.tailUsed, f.ring, f.mem_free, hadj, hav, f.outside⟩
  | true =>
    obtain ⟨sb, hm, hav'⟩ := insertFree_same h x
    have hu : ∀ z, (insertFree h x).isUsed z ↔ h.isUsed z := fun z => isUsed_congr (by rw [hm])
    have hxh : x ≠ h.freeList := by
      have hx : x ∈ a ++ x :: b := by simp
      have := f.blocks.lt_tail hx
      have hte := f.blocks.tailEnd
      have hr := f.blocks.ring.head
      obtain ⟨l, hl⟩ := List.head?_eq_some_iff.1 hr
      have hp := f.blocks.pairwise
      have hmx : x ∈ (a ++ x :: b) ++ [e] := List.mem_append_left _ hx
      rw [hl] at hp hmx
      have hstart : h.startAddr ≤ x := by
        rcases List.mem_cons.1 hmx with rfl | hmx
        · exact le_rfl
        · have := (List.pairwise_cons.1 hp).1 x hmx
          unfold Gap at this; omega
      have := f.outside
      omega
    rw [if_pos rfl]
    refine ⟨f.blocks.frame sb, (hu e).2 f.tailUsed, f.ring.insert ?_, fun z => ?_, ?_, ?_, ?_⟩
    · simp only [List.mem_cons, not_or]
      exact ⟨hxh, f.pending rfl⟩
    · rw [hu]; exact f.mem_free z
    · exact hadj.mono fun z _ => (hu z).2
    · rw [hav', hav]
      exact (sum_congr fun z _ => by unfold size; rw [sb.next]).symm
    · rw [sb.freeList, sb.startAddr, sb.poolSize]; exact f.outside

theorem Freeing.nodup {ins : Bool} (f : Freeing h a b fs e x ins) :
    (withItem ins x fs).Nodup := by
  have hnd := (List.nodup_cons.1 f.ring.nodup).2
  cases ins with
  | false => exact hnd
  | true => exact List.nodup_cons.2 ⟨f.pending rfl, hnd⟩

/-- A free item behind `x` is swallowed and leaves the free ring. -/
theorem Freeing.joinRight {ins : Bool} (f : Freeing h a (y :: b) fs e x ins) (hy : ¬h.isUsed y) :
    ∃ fs', Freeing (unlinkFree (joinNext h x) y) a b fs' e x ins ∧
      (∀ z ∈ b.head?, (unlinkFree (joinNext h x) y).isUsed z) ∧
      ((withItem ins x fs').map (size (unlinkFree (joinNext h x) y))).sum =
        ((withItem ins x fs).map (size h)).sum + 24 ∧
      (∀ z, (unlinkFree (joinNext h x) y).isUsed z ↔ h.isUsed z) ∧
      ∀ z, z ≠ x → (unlinkFree (joinNext h x) y).next z = h.next z := by
  have hxy : x + 24 ≤ y := f.blocks.order.2 y (by simp)
  have hym : y ∈ withItem ins x fs := (f.mem_free y).2 ⟨by simp, hy⟩
  have hyfs : y ∈ fs := by
    cases ins with
    | false => exact hym
    | true => exact (List.mem_cons.1 hym).resolve_left (by omega)
  obtain ⟨c, d, rfl⟩ := List.append_of_mem hyfs
  obtain ⟨k₁, hx₁, ho₁⟩ := f.blocks.joinNext
  obtain ⟨ar₁, hm₁, hnf₁, hpf₁, hav₁⟩ := joinNext_same h x
  obtain ⟨h₁, hh₁⟩ : ∃ h₁, h₁ = joinNext h x := ⟨_, rfl⟩
  rw [← hh₁] at k₁ hx₁ ho₁ ar₁ hm₁ hnf₁ hpf₁ hav₁ ⊢
  obtain ⟨sb₂, hm₂, hav₂⟩ := unlinkFree_same h₁ y
  have r₁ : FreeRing h₁ (c ++ y :: d) := f.ring.frame ar₁.freeList hnf₁ hpf₁
  have r₂ := r₁.unlink
  obtain ⟨h₂, hh₂⟩ : ∃ h₂, h₂ = unlinkFree h₁ y := ⟨_, rfl⟩
  rw [← hh₂] at sb₂ hm₂ hav₂ r₂ ⊢
  have hu : ∀ z, h₂.isUsed z ↔ h.isUsed z := fun z => isUsed_congr (by rw [hm₂, hm₁])
  have hycd : y ∉ c ++ d := by
    have hnd := (List.nodup_cons.1 f.ring.nodup).2
    rw [List.nodup_middle] at hnd
    exact (List.nodup_cons.1 hnd).1
  have k' : Blocks h ((a ++ [x]) ++ y :: b) e := by simpa using f.blocks
  have hyb : y ∉ a ++ x :: b := by simpa using k'.uniq
  obtain ⟨s, l, hs, hny, hge, hle, -⟩ := k'.next_spec
  have hnx : h.next x = y := by
    obtain ⟨s, l, hs, hn, -⟩ := f.blocks.next_spec
    simp only [List.cons_append, List.cons.injEq] at hs
    rw [hn, hs.1]
  have hbu : ∀ z ∈ b.head?, h.isUsed z := by
    intro z hz
    cases b with
    | nil => simp at hz
    | cons w b =>
      obtain rfl : w = z := by simpa using hz
      exact ((List.isChain_cons_cons.1 f.right).1).resolve_left hy
  have hnext : ∀ z, z ≠ x → h₂.next z = h.next z := fun z hz => by rw [sb₂.next]; exact ho₁ z hz
  have hmem : ∀ z, z ∈ withItem ins x (c ++ d) ↔ z ∈ a ++ x :: b ∧ ¬h₂.isUsed z := by
    intro z
    have hmf := f.mem_free z
    rw [hu]
    rcases eq_or_ne z y with rfl | hzy
    · have hzi : z ∉ withItem ins x (c ++ d) := by
        cases ins with
        | false => exact hycd
        | true =>
          intro hm
          rcases List.mem_cons.1 hm with h1 | h1
          · omega
          · exact hycd h1
      simp only [hyb, hzi, false_and]
    · have h1 : z ∈ withItem ins x (c ++ d) ↔ z ∈ withItem ins x (c ++ y :: d) := by
        cases ins <;> simp [withItem, hzy]
      have h2 : z ∈ a ++ x :: b ↔ z ∈ a ++ x :: y :: b := by simp [hzy]
      rw [h1, h2]; exact hmf
  have f' : Freeing h₂ a b (c ++ d) e x ins := by
    refine ⟨k₁.frame sb₂, (hu e).2 f.tailUsed, r₂, fun hc => f.free ((hu x).1 hc), fun hi hm => ?_, hmem,
      f.left.mono fun z _ => (hu z).2, NoAdj.mono (h := h) f.right.tail fun z _ => (hu z).2, ?_⟩
    · refine f.pending hi ?_
      simp only [List.mem_append, List.mem_cons] at hm ⊢; tauto
    · rw [sb₂.freeList, sb₂.startAddr, sb₂.poolSize, ar₁.freeList, ar₁.startAddr, ar₁.poolSize]
      exact f.outside
  refine ⟨c ++ d, f', fun z hz => (hu z).2 (hbu z hz), ?_, hu, hnext⟩
  -- `x` grows by the header and the bytes of `y`
  have hszx : size h₂ x = size h x + (24 + size h y) := by
    have h1 : h₂.next x = h.next y := by rw [sb₂.next]; exact hx₁
    unfold size; rw [h1, hnx, hny]; omega
  have hgrow := sum_grow f'.nodup ((hmem x).2 ⟨by simp, f'.free⟩) hszx fun z hz => by
    unfold size; rw [hnext z hz]
  have hout : ((withItem ins x (c ++ y :: d)).map (size h)).sum =
      ((withItem ins x (c ++ d)).map (size h)).sum + size h y := by
    cases ins <;> simp only [withItem, Bool.false_eq_true, if_false, if_true, List.map_cons,
      List.sum_cons, sum_split] <;> omega
  omega

/-- The count does not wrap while it is the bytes of the items listed. -/
theorem Freeing.sum_lt {ins : Bool} (f : Freeing h a b fs e x ins) :
    ((withItem ins x fs).map (size h)).sum < 2 ^ 32 := by
  have := f.blocks.sum_size_le f.nodup fun z hz => ((f.mem_free z).1 hz).1
  have := f.blocks.tailEnd
  have := f.blocks.bound
  omega

/-- Counting bytes does not matter to a heap in the middle of a merge. -/
theorem Freeing.frame {ins : Bool} {g : Memheap} (f : Freeing h a b fs e x ins)
    (sb : SameBlocks h g) (hm : g.magic = h.magic) (hn : g.nextFree = h.nextFree)
    (hp : g.prevFree = h.prevFree) : Freeing g a b fs e x ins := by
  have hu : ∀ z, g.isUsed z ↔ h.isUsed z := fun z => isUsed_congr (by rw [hm])
  exact ⟨f.blocks.frame sb, (hu e).2 f.tailUsed, f.ring.frame sb.freeList hn hp,
    fun hc => f.free ((hu x).1 hc), f.pending, fun z => by rw [hu]; exact f.mem_free z,
    f.left.mono fun z _ => (hu z).2, f.right.mono fun z _ => (hu z).2,
    by rw [sb.freeList, sb.startAddr, sb.poolSize]; exact f.outside⟩

/-- What is behind the item: a block in use, the tailer, or a free block. -/
theorem Freeing.behind {ins : Bool} (f : Freeing h a b fs e x ins) :
    (h.isUsed (h.next x) ∧ ∀ y ∈ b.head?, h.isUsed y) ∨
      ∃ y b', b = y :: b' ∧ h.next x = y ∧ ¬h.isUsed y := by
  obtain ⟨s, l, hs, hnx, -⟩ := f.blocks.next_spec
  cases b with
  | nil =>
    simp only [List.nil_append, List.cons.injEq] at hs
    exact Or.inl ⟨by rw [hnx, ← hs.1]; exact f.tailUsed, by simp⟩
  | cons y b =>
    simp only [List.cons_append, List.cons.injEq] at hs
    have hny : h.next x = y := by rw [hnx, hs.1]
    by_cases hu : h.isUsed y
    · refine Or.inl ⟨by rw [hny]; exact hu, fun z hz => ?_⟩
      obtain rfl : y = z := by simpa using hz
      exact hu
    · exact Or.inr ⟨y, b, rfl, hny, hu⟩

/-- From the first merge to the end of `rt_memheap_free`. -/
theorem Freeing.rest {ins : Bool} (f : Freeing h a b fs e x ins)
    (hav : h.availableSize = ((withItem ins x fs).map (size h)).sum) :
    ∃ b' fs', Inv (if ins then insertFree (mergeRight h x) x else mergeRight h x)
        (a ++ x :: b') fs' e ∧
      SameArea h (if ins then insertFree (mergeRight h x) x else mergeRight h x) ∧
      (∀ z, (if ins then insertFree (mergeRight h x) x else mergeRight h x).isUsed z ↔
        h.isUsed z) ∧
      (∀ z, z ≠ x → (if ins then insertFree (mergeRight h x) x else mergeRight h x).next z =
        h.next z) ∧
      ∀ z, h.isUsed z → (z ∈ a ++ x :: b' ↔ z ∈ a ++ x :: b) := by
  -- the last store changes neither marks nor blocks
  have hlast : ∀ g : Memheap, SameBlocks g (if ins then insertFree g x else g) ∧
      (if ins then insertFree g x else g).magic = g.magic := by
    intro g
    cases ins with
    | false => exact ⟨⟨SameArea.refl g, rfl, rfl⟩, rfl⟩
    | true => exact ⟨(insertFree_same g x).1, rfl⟩
  obtain ⟨sb, hm⟩ := hlast (mergeRight h x)
  rcases f.behind with ⟨hu, hb⟩ | ⟨y, b, rfl, hny, hu⟩
  · have heq : mergeRight h x = h := by unfold mergeRight; rw [if_neg (not_not.2 hu)]
    rw [heq] at sb hm ⊢
    exact ⟨b, _, f.finish hb hav, sb.toSameArea, fun z => isUsed_congr (by rw [hm]),
      fun z _ => by rw [sb.next], fun z _ => Iff.rfl⟩
  · obtain ⟨sbg, hmg, hnfg, hpfg, havg⟩ := giveAvailable_same h memheapSize
    obtain ⟨g, hg⟩ : ∃ g, g = giveAvailable h memheapSize := ⟨_, rfl⟩
    rw [← hg] at sbg hmg hnfg hpfg havg
    have hug : ∀ z, g.isUsed z ↔ h.isUsed z := fun z => isUsed_congr (by rw [hmg])
    have heq : mergeRight h x = unlinkFree (joinNext g x) y := by
      unfold mergeRight
      rw [if_pos (by rw [hny]; exact hu), hny, hg]
    obtain ⟨fs', f', hb', hsum, hu', hn'⟩ :=
      (f.frame sbg hmg hnfg hpfg).joinRight fun hc => hu ((hug y).1 hc)
    have hsg : ((withItem ins x fs).map (size g)).sum = ((withItem ins x fs).map (size h)).sum :=
      sum_congr fun z _ => by unfold size; rw [sbg.next]
    have hav' : (unlinkFree (joinNext g x) y).availableSize =
        ((withItem ins x fs').map (size (unlinkFree (joinNext g x) y))).sum := by
      have hlt := f'.sum_lt
      have : (unlinkFree (joinNext g x) y).availableSize = g.availableSize := rfl
      rw [this, havg, hav, hsum, hsg, memheapSize_eq]
      rw [hsum, hsg] at hlt
      exact Nat.mod_eq_of_lt hlt
    have i' := f'.finish hb' hav'
    rw [← heq] at i' hu' hn'
    have sa : SameArea h (mergeRight h x) := by
      rw [heq]
      exact sbg.toSameArea.trans ((joinNext_same g x).1.trans (unlinkFree_same _ y).1.toSameArea)
    refine ⟨b, _, i', sa.trans sb.toSameArea, fun z => ?_, fun z hz => ?_, fun z hzu => ?_⟩
    · rw [← hug z, ← hu' z]; exact isUsed_congr (by rw [hm])
    · rw [sb.next, hn' z hz, sbg.next]
    · have hzy : z ≠ y := fun e => hu (e ▸ hzu)
      simp [hzy]

/-- What freeing the block at `x` does. -/
structure Freed (h h' : Memheap) (bs bs' fs' : List ℕ) (e x : ℕ) : Prop where
  inv : Inv h' bs' fs' e
  area : SameArea h h'
  inUse : ∀ z, InUse h' bs' z ↔ InUse h bs z ∧ z ≠ x
  next : ∀ z, InUse h bs z → z ≠ x → h'.next z = h.next z

/-- The block at `x`, between `a` and `b`, has been marked as free and counted, and is not merged with
    its neighbours yet. -/
structure Marked (h h' : Memheap) (a b fs : List ℕ) (e x : ℕ) : Prop where
  same : SameBlocks h h'
  ring : FreeRing h' fs
  free : ¬h'.isUsed x
  used : ∀ z, z ≠ x → (h'.isUsed z ↔ h.isUsed z)
  notMem : x ∉ fs
  mem_free : ∀ z, z ∈ x :: fs ↔ z ∈ a ++ x :: b ∧ ¬h'.isUsed z
  avail : h'.availableSize = size h x + (fs.map (size h)).sum

/-- The first two stores of `rt_memheap_free`. -/
theorem Inv.marked (i : Inv h (a ++ x :: b) fs e) (hxu : h.isUsed x) {h₁ : Memheap}
    (hh₁ : h₁ = h.setMagic x (h.magic x &&& memheapMask)) :
    Marked h (giveAvailable h₁ (h₁.memitemSize x)) a b fs e x := by
  have hxb : x ∈ a ++ x :: b := by simp
  have sb₁ : SameBlocks h h₁ := hh₁ ▸ setMagic_same h x _
  have hmag₁ : h₁.magic = update h.magic x (h.magic x &&& memheapMask) := by rw [hh₁]; rfl
  have hsz₁ : h₁.memitemSize x = size h x := by
    rw [(i.blocks.frame sb₁).memitemSize_eq hxb]; unfold size; rw [sb₁.next]
  obtain ⟨sb₂, hm₂, hnf₂, hpf₂, hav₂⟩ := giveAvailable_same h₁ (h₁.memitemSize x)
  generalize giveAvailable h₁ (h₁.memitemSize x) = h₂ at sb₂ hm₂ hnf₂ hpf₂ hav₂ ⊢
  have sb : SameBlocks h h₂ := sb₁.trans sb₂
  have hmag : h₂.magic = update h.magic x (h.magic x &&& memheapMask) := hm₂.trans hmag₁
  have hux : ¬h₂.isUsed x := isUsed_and (by rw [hmag, update_self])
  have huo : ∀ z, z ≠ x → (h₂.isUsed z ↔ h.isUsed z) := fun z hz =>
    isUsed_congr (by rw [hmag, update_of_ne hz])
  have hxfs : x ∉ fs := fun hm => ((i.mem_free x).1 hm).2 hxu
  have hsumlt : size h x + (fs.map (size h)).sum < 2 ^ 32 := by
    have hnd : (x :: fs).Nodup := List.nodup_cons.2 ⟨hxfs, i.free_nodup⟩
    have := i.blocks.sum_size_le hnd fun z hz => by
      rcases List.mem_cons.1 hz with rfl | hz
      · exact hxb
      · exact ((i.mem_free z).1 hz).1
    have := i.blocks.tailEnd
    have := i.blocks.bound
    rw [List.map_cons, List.sum_cons] at *
    omega
  refine ⟨sb, i.ring.frame sb.freeList (by rw [hnf₂, hh₁]; rfl) (by rw [hpf₂, hh₁]; rfl), hux, huo, hxfs,
    fun z => ?_, ?_⟩
  · rcases eq_or_ne z x with rfl | hzx
    · simp [hux]
    · rw [huo z hzx]
      have := i.mem_free z
      simp only [List.mem_cons, List.mem_append, hzx, false_or] at this ⊢
      exact this
  · rw [hav₂, hsz₁, show h₁.availableSize = h.availableSize by rw [hh₁]; rfl, i.avail, Nat.add_comm]
    exact Nat.mod_eq_of_lt hsumlt

/-- The sizes are what they were. -/
theorem Marked.sum_eq {h' : Memheap} (m : Marked h h' a b fs e x) :
    (fs.map (size h')).sum = (fs.map (size h)).sum :=
  sum_congr fun z _ => by unfold size; rw [m.same.next]

/-- The blocks behind `x` are no free neighbours of each other. -/
theorem Marked.right {h' : Memheap} (m : Marked h h' a b fs e x) (i : Inv h (a ++ x :: b) fs e) :
    NoAdj h' b := by
  have hne : ∀ z ∈ b, z ≠ x := fun z hz => by
    have := i.blocks.order.2 z (List.mem_append_left _ hz); omega
  exact NoAdj.mono (h := h) (List.isChain_split.1 i.noAdj).2.tail fun z hz => (m.used z (hne z hz)).2

/-- Neither are the blocks in front of it. -/
theorem Marked.left {h' : Memheap} (m : Marked h h' a b fs e x) (i : Inv h (a ++ x :: b) fs e) :
    NoAdj h' a := by
  have hne : ∀ z ∈ a, z ≠ x := fun z hz => by have := i.blocks.order.1 z hz; omega
  exact NoAdj.mono (h := h) (List.IsChain.left_of_append (List.isChain_split.1 i.noAdj).1) fun z hz =>
    (m.used z (hne z hz)).2

theorem Marked.tailUsed {h' : Memheap} (m : Marked h h' a b fs e x) (i : Inv h (a ++ x :: b) fs e) :
    h'.isUsed e := by
  have := i.blocks.lt_tail (x := x) (by simp)
  exact (m.used e (by omega)).2 i.tailUsed

theorem Marked.outside {h' : Memheap} (m : Marked h h' a b fs e x) (i : Inv h (a ++ x :: b) fs e) :
    h'.freeList + 24 ≤ h'.startAddr ∨ h'.startAddr + h'.poolSize ≤ h'.freeList := by
  rw [m.same.freeList, m.same.startAddr, m.same.poolSize]
  exact i.outside

/-- The item in front is in use, or there is none: no merge. -/
theorem Marked.stay {h' : Memheap} (m : Marked h h' a b fs e x) (i : Inv h (a ++ x :: b) fs e)
    (hp : h'.isUsed (h'.prev x)) : Freeing h' a b fs e x true := by
  have hl : NoAdj h' (a ++ [x]) := by
    rcases i.blocks.prev_spec with ⟨rfl, -⟩ | ⟨c, p, rfl, hpp⟩
    · exact .singleton _
    · rw [m.same.prev, hpp] at hp
      rw [List.append_assoc, List.singleton_append]
      exact List.isChain_append_cons_cons.2 ⟨m.left i, Or.inl hp, .singleton _⟩
  exact ⟨i.blocks.frame m.same, m.tailUsed i, m.ring, m.free, fun _ => m.notMem, m.mem_free, hl,
    m.right i, m.outside i⟩

/-- The stores of the first merge, when the item in front is free. -/
theorem mergeLeft_spec {h : Memheap} {p x : ℕ} (hprev : h.prev x = p) (hp : ¬h.isUsed p) (hpx : p ≠ x)
    (hxn : h.next x ≠ x) : ∃ h', mergeLeft h x = (h', p, false) ∧ SameArea h h' ∧
      h'.next = update h.next p (h.next x) ∧ h'.prev = update h.prev (h.next x) p ∧
      h'.magic = h.magic ∧ h'.nextFree = h.nextFree ∧ h'.prevFree = h.prevFree ∧
      h'.availableSize = (h.availableSize + memheapSize) % 2 ^ 32 := by
  obtain ⟨g, hg⟩ : ∃ g, g = giveAvailable h memheapSize := ⟨_, rfl⟩
  obtain ⟨sbg, hmg, hnfg, hpfg, havg⟩ := giveAvailable_same h memheapSize
  rw [← hg] at sbg hmg hnfg hpfg havg
  have hgn : g.next = h.next := sbg.next
  have hgp : g.prev = h.prev := sbg.prev
  refine ⟨(g.setNext p (g.next x)).setPrev (g.next x) p, ?_, sbg.toSameArea.trans ⟨rfl, rfl, rfl⟩, ?_, ?_,
    hmg, hnfg, hpfg, havg⟩
  · have e1 : (g.setNext p (g.next x)).next x = g.next x := update_of_ne hpx.symm _ _
    have e2 : g.prev x = p := by rw [hgp, hprev]
    have e3 : ((g.setNext p (g.next x)).setPrev (g.next x) p).prev x = p := by
      refine (update_of_ne ?_ _ _).trans e2
      rw [hgn]; exact hxn.symm
    have e4 : (g.setNext p (g.next x)).prev x = p := e2
    unfold mergeLeft
    rw [if_pos (by rw [hprev]; exact hp)]
    dsimp only
    rw [← hg, e2, e4, e1, e3]
  · rw [hgn]; exact congrArg (fun f => update f p _) hgn
  · rw [hgn]; exact congrArg (fun f => update f _ p) hgp

/-- The item in front is free, and swallows this one. -/
theorem Marked.joinLeft {c : List ℕ} {p : ℕ} {h' : Memheap} (m : Marked h h' (c ++ [p]) b fs e x)
    (i : Inv h ((c ++ [p]) ++ x :: b) fs e) (hp : ¬h'.isUsed p) :
    ∃ g, mergeLeft h' x = (g, p, false) ∧ SameArea h' g ∧ g.magic = h'.magic ∧
      (∀ z, z ≠ p → g.next z = h'.next z) ∧ Freeing g c b fs e p false ∧
      g.availableSize = (fs.map (size g)).sum := by
  have hpx : p < x := by have := i.blocks.order.1 p (by simp); omega
  have hpfs : p ∈ fs := by
    have := (m.mem_free p).2 ⟨by simp, hp⟩
    simpa [hpx.ne] using this
  have k' : Blocks h' (c ++ p :: x :: b) e := by
    have := i.blocks.frame m.same; rwa [List.append_assoc, List.singleton_append] at this
  have hprev : h'.prev x = p := by
    rcases i.blocks.prev_spec with ⟨hnil, -⟩ | ⟨c', p', hcp, hpp⟩
    · simp at hnil
    · obtain ⟨-, rfl⟩ := List.append_inj' hcp rfl |>.imp_right List.singleton_inj.1
      rw [m.same.prev, hpp]
  have hnp : h'.next p = x := by
    obtain ⟨s, l, hs, hn, -⟩ := k'.next_spec
    simp only [List.cons_append, List.cons.injEq] at hs
    rw [hn, hs.1]
  have hxn : h'.next x ≠ x := by
    have := (k'.next_ge (x := x) (by simp)).1; omega
  obtain ⟨g, hmerge, sa, hn, hpr, hmag, hnf, hpf, hav⟩ := mergeLeft_spec hprev hp hpx.ne hxn
  have hu : ∀ z, g.isUsed z ↔ h'.isUsed z := fun z => isUsed_congr (by rw [hmag])
  have k : Blocks g (c ++ p :: b) e :=
    k'.join sa (by rw [hn, update_self]) (fun z hz _ => by rw [hn, update_of_ne hz])
      (by rw [hpr, update_self]) (fun z hz _ => by rw [hpr, update_of_ne hz])
  have hxcpb : x ∉ c ++ p :: b := by simpa using i.blocks.uniq
  have hmem : ∀ z, z ∈ fs ↔ z ∈ c ++ p :: b ∧ ¬g.isUsed z := fun z => by
    have := m.mem_free z
    rw [hu]
    rcases eq_or_ne z x with rfl | hzx
    · simp only [m.notMem, hxcpb, false_and]
    · simpa [hzx] using this
  have f : Freeing g c b fs e p false :=
    ⟨k, (hu e).2 (m.tailUsed i), m.ring.frame sa.freeList hnf hpf, fun hc => hp ((hu p).1 hc), by simp,
      hmem, (m.left i).mono fun z _ => (hu z).2, (m.right i).mono fun z _ => (hu z).2,
      by rw [sa.freeList, sa.startAddr, sa.poolSize]; exact m.outside i⟩
  refine ⟨g, hmerge, sa, hmag, fun z hz => by rw [hn, update_of_ne hz], f, ?_⟩
  -- the header of the block at `x` is counted as free now
  have hszp : size g p = size h' p + 24 + size h' x := by
    have h1 : g.next p = h'.next x := by rw [hn, update_self]
    obtain ⟨h3, -⟩ := k'.next_ge (x := x) (by simp)
    obtain ⟨h4, -⟩ := k'.next_ge (x := p) (by simp)
    unfold size; rw [h1]; rw [hnp] at *; omega
  have hsum : (fs.map (size g)).sum = (fs.map (size h')).sum + (24 + size h' x) :=
    sum_grow i.free_nodup hpfs (by omega) fun z hz => by unfold size; rw [hn, update_of_ne hz]
  have hlt := f.sum_lt
  simp only [withItem, Bool.false_eq_true, if_false] at hlt
  have hx : size h' x = size h x := by unfold size; rw [m.same.next]
  rw [hsum, m.sum_eq, hx] at hlt ⊢
  rw [hav, m.avail, memheapSize_eq]
  omega

/-- The blocks in use afterwards. -/
theorem Marked.inUse_iff {h' g : Memheap} {bs' : List ℕ} (m : Marked h h' a b fs e x)
    (hu : ∀ z, g.isUsed z ↔ h'.isUsed z) (hm : ∀ z, h'.isUsed z → (z ∈ bs' ↔ z ∈ a ++ x :: b)) (z : ℕ) :
    InUse g bs' z ↔ InUse h (a ++ x :: b) z ∧ z ≠ x := by
  unfold InUse
  rcases eq_or_ne z x with rfl | hzx
  · simp only [ne_eq, not_true_eq_false, and_false, iff_false, not_and]
    exact fun _ hc => m.free ((hu z).1 hc)
  · constructor
    · rintro ⟨h1, h2⟩
      have h3 := (hu z).1 h2
      exact ⟨⟨(hm z h3).1 h1, (m.used z hzx).1 h3⟩, hzx⟩
    · rintro ⟨⟨h1, h2⟩, -⟩
      have h3 := (m.used z hzx).2 h2
      exact ⟨(hm z h3).2 h1, (hu z).2 h3⟩

theorem rtMemheapFree_spec (i : Inv h bs fs e) (hx : InUse h bs x) :
    ∃ bs' fs', Freed h (rtMemheapFree h (some (x + 24))) bs bs' fs' e x := by
  obtain ⟨hxb, hxu⟩ := hx
  have hlt := i.blocks.lt_tail hxb
  have hte := i.blocks.tailEnd
  have hbd := i.blocks.bound
  have hptr : sub32 (x + 24) memheapSize = x := by
    rw [memheapSize_eq, sub32_eq (by omega) (by omega)]; omega
  obtain ⟨a, b, rfl⟩ := List.append_of_mem hxb
  have m := i.marked hxu rfl
  obtain ⟨h', hh'⟩ : ∃ h', h' = giveAvailable (h.setMagic x (h.magic x &&& memheapMask))
      ((h.setMagic x (h.magic x &&& memheapMask)).memitemSize x) := ⟨_, rfl⟩
  rw [← hh'] at m
  obtain ⟨r, hr⟩ : ∃ r, r = mergeLeft h' x := ⟨_, rfl⟩
  have heq : rtMemheapFree h (some (x + 24)) =
      if r.2.2 then insertFree (mergeRight r.1 r.2.1) r.2.1 else mergeRight r.1 r.2.1 := by
    unfold rtMemheapFree
    simp only [hptr]
    rw [← hh', ← hr]
  rw [heq]
  rcases em (h'.isUsed (h'.prev x)) with hp | hp
  · have hr' : r = (h', x, true) := by
      rw [hr]; unfold mergeLeft; rw [if_neg (not_not.2 hp)]
    obtain ⟨b', fs', i', sa, hu', hn', hm'⟩ := (m.stay i hp).rest (by
      simp only [withItem, if_true, List.map_cons, List.sum_cons]
      rw [m.avail, m.sum_eq]; unfold size; rw [m.same.next])
    rw [hr']
    refine ⟨a ++ x :: b', fs', i', m.same.toSameArea.trans sa, m.inUse_iff hu' hm', fun z _ hzx => ?_⟩
    rw [← m.same.next]; exact hn' z hzx
  · rcases i.blocks.prev_spec with ⟨rfl, hpp⟩ | ⟨c, p, rfl, hpp⟩
    · rw [m.same.prev, hpp] at hp
      exact absurd (m.tailUsed i) hp
    · rw [m.same.prev, hpp] at hp
      obtain ⟨g, hmerge, sa₃, hmag, hn₃, f, hav⟩ := m.joinLeft i hp
      have hu₃ : ∀ z, g.isUsed z ↔ h'.isUsed z := fun z => isUsed_congr (by rw [hmag])
      obtain ⟨b', fs', i', sa, hu', hn', hm'⟩ := f.rest (by
        simpa only [withItem, Bool.false_eq_true, if_false] using hav)
      rw [hr, hmerge]
      refine ⟨c ++ p :: b', fs', i', (m.same.toSameArea.trans sa₃).trans sa,
        m.inUse_iff (fun z => (hu' z).trans (hu₃ z)) fun z hz => ?_, fun z hz hzx => ?_⟩
      · have hzx : z ≠ x := fun e => m.free (e ▸ hz)
        rw [hm' z ((hu₃ z).2 hz)]
        simp [hzx]
      · have hpx : p ≠ x := by have := i.blocks.order.1 p (by simp); omega
        have hzp : z ≠ p := fun e => hp ((m.used p hpx).2 (e ▸ hz.2))
        rw [hn' z hzp, hn₃ z hzp, m.same.next]

end EasyCore.MemHeap
