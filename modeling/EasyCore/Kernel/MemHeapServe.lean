import EasyCore.Kernel.MemHeapFit

/-! What one heap answers `rt_memheap_realloc` with, and what becomes of the bytes.

    `Answers h x n` says that the heap can give the block at `x` a size of `n`: the block is large
    enough, or the free item behind it lets it grow, or another free item holds the request. -/

namespace EasyCore.MemHeap
open Function Kernel Links

variable {h h' : Memheap} {bs fs : List ℕ} {e m n q x : ℕ}

/-! ### The bytes -/

section Data
variable (h) (x m n : ℕ)

/-! The fields are read by reducing the update, never by comparing the heaps. -/

@[simp] theorem setMagic_data : (h.setMagic x n).data = h.data := by unfold Memheap.setMagic; dsimp only
@[simp] theorem setNext_data : (h.setNext x n).data = h.data := by unfold Memheap.setNext; dsimp only
@[simp] theorem setPrev_data : (h.setPrev x n).data = h.data := by unfold Memheap.setPrev; dsimp only

@[simp] theorem setNextFree_data : (h.setNextFree x n).data = h.data := by
  unfold Memheap.setNextFree
  dsimp only

@[simp] theorem setPrevFree_data : (h.setPrevFree x n).data = h.data := by
  unfold Memheap.setPrevFree
  dsimp only

@[simp] theorem setAvailable_data : (h.setAvailable n).data = h.data := by
  unfold Memheap.setAvailable
  dsimp only

@[simp] theorem takeAvailable_data : (takeAvailable h n).data = h.data := by
  simp only [takeAvailable, apply_ite Memheap.data, setAvailable_data, ite_self]

@[simp] theorem giveAvailable_data : (giveAvailable h n).data = h.data := setAvailable_data _ _

@[simp] theorem unlinkFree_data : (unlinkFree h x).data = h.data := by
  unfold unlinkFree
  simp only [setNextFree_data, setPrevFree_data]

@[simp] theorem insertFree_data : (insertFree h x).data = h.data := by
  unfold insertFree
  simp only [setNextFree_data, setPrevFree_data]

@[simp] theorem insertItem_data : (insertItem h x n).data = h.data := by
  unfold insertItem
  simp only [setNext_data, setPrev_data, setMagic_data]

@[simp] theorem joinNext_data : (joinNext h x).data = h.data := by
  unfold joinNext
  simp only [setNext_data, setPrev_data]

@[simp] theorem takeItem_data : (takeItem h m x n).data = h.data := by
  unfold takeItem
  dsimp only
  rw [setMagic_data]
  split
  · simp only [takeAvailable_data, insertFree_data, setPrevFree_data, setNextFree_data,
      unlinkFree_data, insertItem_data]
  · simp only [setPrevFree_data, setNextFree_data, unlinkFree_data, takeAvailable_data]

@[simp] theorem growInto_data (y p o : ℕ) : (growInto h x y p o m).data = h.data := by
  unfold growInto
  dsimp only
  simp only [insertFree_data, insertItem_data, setNext_data, setPrev_data, unlinkFree_data,
    takeAvailable_data]

@[simp] theorem cutMerge_data : (cutMerge h x).data = h.data := by
  unfold cutMerge
  split
  · simp only [unlinkFree_data, joinNext_data, setAvailable_data]
  · exact Eq.refl _

@[simp] theorem shrinkTo_data : (shrinkTo h x m).data = h.data := by
  unfold shrinkTo
  dsimp only
  simp only [giveAvailable_data, insertFree_data, cutMerge_data, insertItem_data]

@[simp] theorem mergeLeft_data : (mergeLeft h x).1.data = h.data := by
  unfold mergeLeft
  split
  · simp only [setPrev_data, setNext_data, giveAvailable_data]
  · exact Eq.refl _

@[simp] theorem mergeRight_data : (mergeRight h x).data = h.data := by
  unfold mergeRight
  split
  · simp only [unlinkFree_data, joinNext_data, giveAvailable_data]
  · exact Eq.refl _

@[simp] theorem rtMemheapFree_data (p : Option ℕ) : (rtMemheapFree h p).data = h.data := by
  cases p with
  | none => exact Eq.refl _
  | some p =>
    unfold rtMemheapFree
    dsimp only
    split
    · simp only [insertFree_data, mergeRight_data, mergeLeft_data, giveAvailable_data, setMagic_data]
    · simp only [mergeRight_data, mergeLeft_data, giveAvailable_data, setMagic_data]

end Data

theorem rtMemheapAlloc_data {r : Option ℕ} (heq : rtMemheapAlloc h n = some (h', r)) :
    h'.data = h.data := by
  unfold rtMemheapAlloc at heq
  dsimp only at heq
  split at heq
  · split at heq
    · cases heq
    · split at heq
      · obtain ⟨rfl, -⟩ := Prod.mk.inj (Option.some.inj heq)
        exact takeItem_data _ _ _ _
      · obtain ⟨rfl, -⟩ := Prod.mk.inj (Option.some.inj heq)
        exact Eq.refl _
  · obtain ⟨rfl, -⟩ := Prod.mk.inj (Option.some.inj heq)
    exact Eq.refl _

/-! ### Blocks, as the rings show them -/

/-- The item at `x` is on the block ring. -/
def IsItem (h : Memheap) (x : ℕ) : Prop := ∃ k, h.next^[k] h.startAddr = x

/-- `p` is a block in use: 24 bytes behind the header of an item that is not the tailer. -/
def Allocated (h : Memheap) (p : ℕ) : Prop :=
  ∃ x, IsItem h x ∧ x + 24 ≠ h.startAddr + h.poolSize ∧ h.isUsed x ∧ p = x + 24

/-- `rt_memheap_alloc` finds room for a request of `m` bytes. -/
def CanServe (h : Memheap) (m : ℕ) : Prop :=
  m < h.availableSize ∧ ∃ z, IsItem h z ∧ ¬h.isUsed z ∧ m ≤ h.memitemSize z

/-- `rt_memheap_realloc` finds room for `n` bytes in the block at `x`, or elsewhere in the pool. -/
def Answers (h : Memheap) (x n : ℕ) : Prop :=
  request n ≤ h.memitemSize x ∨ growsInto h x (request n) ∨ CanServe h (request n)

theorem Inv.isItem_iff (i : Inv h bs fs e) : IsItem h x ↔ x ∈ bs ∨ x = e := by
  unfold IsItem
  rw [i.blocks.ring.iterate_iff]
  simp

theorem Inv.allocated_iff (i : Inv h bs fs e) {p : ℕ} :
    Allocated h p ↔ ∃ x, InUse h bs x ∧ p = x + 24 := by
  have hte := i.blocks.tailEnd
  constructor
  · rintro ⟨x, hitem, htail, hu, hp⟩
    rcases i.isItem_iff.1 hitem with hx | rfl
    · exact ⟨x, ⟨hx, hu⟩, hp⟩
    · exact absurd hte htail
  · rintro ⟨x, ⟨hx, hu⟩, hp⟩
    have hlt := i.blocks.lt_tail hx
    exact ⟨x, i.isItem_iff.2 (Or.inl hx), by omega, hu, hp⟩

theorem Inv.canServe_iff (i : Inv h bs fs e) :
    CanServe h m ↔ m < h.availableSize ∧ ∃ z ∈ fs, m ≤ size h z := by
  constructor
  · rintro ⟨hlt, z, hitem, hu, hm⟩
    rcases i.isItem_iff.1 hitem with hz | rfl
    · exact ⟨hlt, z, (i.mem_free z).2 ⟨hz, hu⟩, i.blocks.memitemSize_eq hz ▸ hm⟩
    · exact absurd i.tailUsed hu
  · rintro ⟨hlt, z, hz, hm⟩
    obtain ⟨hzb, hu⟩ := (i.mem_free z).1 hz
    exact ⟨hlt, z, i.isItem_iff.2 (Or.inl hzb), hu, (i.blocks.memitemSize_eq hzb).symm ▸ hm⟩

/-- The request is met exactly if the heap can serve it. -/
theorem rtMemheapAlloc_served (i : Inv h bs fs e) (hs : CanServe h (request n)) :
    ∃ y h' bs' fs', rtMemheapAlloc h n = some (h', some (y + 24)) ∧
      Taken h h' bs bs' fs' e y (request n) := by
  obtain ⟨hlt, z, hz, hm⟩ := i.canServe_iff.1 hs
  rcases rtMemheapAlloc_spec i n with hsome | hnull
  · exact hsome
  · rcases alloc_null i hnull with hfew | hsmall
    · exact absurd hlt (not_lt.2 hfew)
    · exact absurd hm (not_le.2 (hsmall z hz))

theorem rtMemheapAlloc_refused (i : Inv h bs fs e) (hs : ¬CanServe h (request n)) :
    rtMemheapAlloc h n = some (h, none) := by
  have hpos : 0 < request n := lt_max_of_lt_right (by decide)
  rw [i.canServe_iff] at hs
  unfold rtMemheapAlloc
  dsimp only
  by_cases hlt : request n < h.availableSize
  · obtain ⟨hp, sz, heq, hcase⟩ := i.search hpos
    have hlt' : max (rtAlign n) memheapMinialloc < h.availableSize := hlt
    have heq' : findFree h (max (rtAlign n) memheapMinialloc) h.fuel (h.nextFree h.freeList) 0 =
        some (hp, sz) := heq
    rw [if_pos hlt', heq']
    rcases hcase with hsmall | ⟨hmem, rfl, hle⟩
    · exact if_neg (not_le.2 hsmall)
    · exact absurd ⟨hlt, hp, hmem, hle⟩ hs
  · exact if_neg hlt

/-! ### The answers -/

/-- `q` is the block of `n` bytes given in place of the one at `x`, with its bytes up to the smaller
    size. -/
structure Served (h h' : Memheap) (bs bs' fs' : List ℕ) (e x q m : ℕ) : Prop where
  inv : Inv h' bs' fs' e
  area : SameArea h h'
  fresh : q = x ∨ q ∈ bs ∧ ¬h.isUsed q
  inUse : ∀ z, InUse h' bs' z ↔ z = q ∨ InUse h bs z ∧ z ≠ x
  room : q + 24 + m ≤ h'.next q
  bytes : ∀ k < min m (size h x), h'.data (q + 24 + k) = h.data (x + 24 + k)

theorem inUse_self (hx : InUse h bs x) (z : ℕ) : InUse h bs z ↔ z = x ∨ InUse h bs z ∧ z ≠ x := by
  by_cases hz : z = x
  · rw [hz]
    simp [hx]
  · simp [hz]

theorem growInto_next (h : Memheap) (x y p o m : ℕ) :
    (growInto h x y p o m).next x = (p + m) % 2 ^ 32 := by
  have hitem : ∀ g n, (insertItem g x n).next x = n := fun g n => by
    simp only [insertItem, Memheap.setNext, update_self]
  unfold growInto
  dsimp only
  rw [(insertFree_same _ _).1.next, hitem]

section Answered
variable (i : Inv h bs fs e) (hx : InUse h bs x)
include i hx

/-- The block stays as it is. -/
theorem Served.of_same (hle : m ≤ size h x) : Served h h bs bs fs e x x m := by
  obtain ⟨hge, -⟩ := i.blocks.next_ge hx.1
  refine ⟨i, SameArea.refl h, Or.inl rfl, inUse_self hx, ?_, fun _ _ => rfl⟩
  unfold size at hle
  omega

omit i in
/-- It grows or shrinks in place. -/
theorem Served.of_resized {bs' fs' : List ℕ} (r : Resized h h' bs bs' fs' e x (x + m + 24))
    (hd : h'.data = h.data) : Served h h' bs bs' fs' e x x m := by
  refine ⟨r.inv, r.area, Or.inl rfl, fun z => (r.inUse z).trans (inUse_self hx z), ?_, fun k _ => ?_⟩
  · rw [r.cut]
    omega
  · rw [hd]

omit i in
/-- It moves to the item at `q`, and the old one is given back. -/
theorem Served.of_moved {h₁ : Memheap} {bs₁ fs₁ bs' fs' : List ℕ} {d : ℕ → UInt8}
    (t : Taken h h₁ bs bs₁ fs₁ e q m) (f : Freed (h₁.setData d) h' bs₁ bs' fs' e x)
    (hd : h'.data = d) (hd' : ∀ k < min m (size h x), d (q + 24 + k) = h.data (x + 24 + k)) :
    Served h h' bs bs' fs' e x q m := by
  have hqx : q ≠ x := fun heq => t.fresh.2 (heq ▸ hx.2)
  have hq₁ : InUse h₁ bs₁ q := (t.inUse q).2 (Or.inr rfl)
  have hsame : SameArea h₁ (h₁.setData d) := ⟨rfl, rfl, rfl⟩
  refine ⟨f.inv, (t.area.trans hsame).trans f.area, Or.inr t.fresh, fun z => ?_, ?_, fun k hk => ?_⟩
  · rw [f.inUse z]
    have h1 : InUse (h₁.setData d) bs₁ z ↔ InUse h bs z ∨ z = q := t.inUse z
    rw [h1]
    constructor
    · rintro ⟨h2 | h2, h3⟩
      · exact Or.inr ⟨h2, h3⟩
      · exact Or.inl h2
    · rintro (h2 | ⟨h2, h3⟩)
      · exact ⟨Or.inr h2, h2 ▸ hqx⟩
      · exact ⟨Or.inl h2, h3⟩
  · have hnext : h'.next q = h₁.next q := f.next q hq₁ hqx
    have hroom := t.room
    obtain ⟨hge, -⟩ := t.inv.blocks.next_ge hq₁.1
    rw [hnext]
    unfold size at hroom
    omega
  · rw [hd]
    exact hd' k hk

/-- The heap answers with a block of the bytes asked for, if `newsize + RT_MEMHEAP_MINIALLOC` does not
    wrap. -/
theorem rtMemheapRealloc_answers (hn : n ≠ 0) (ha : Answers h x n) :
    ∃ h' q, rtMemheapRealloc h (some (x + 24)) n = some (h', some (q + 24)) ∧
      ((request n + 12 < 2 ^ 32 ∧ ∃ bs' fs', Served h h' bs bs' fs' e x q (request n)) ∨
        (2 ^ 32 ≤ request n + 12 ∧ q = x ∧ h'.next x = (x + 24 + request n) % 2 ^ 32)) := by
  obtain ⟨-, hsz, hmax⟩ := i.live hx
  rcases lt_or_ge (size h x) (request n) with hgt | hfit
  · by_cases hg : growsInto h x (request n)
    · -- the block grows into the free item behind it
      refine ⟨_, x, rtMemheapRealloc_grow i hx hn hgt hg, ?_⟩
      rcases lt_or_ge (request n + 12) (2 ^ 32) with hw | hw
      · obtain ⟨bs', fs', hr⟩ := grow_spec i hx hgt hw hg
        exact Or.inl ⟨hw, bs', fs', Served.of_resized hx hr (growInto_data _ _ _ _ _ _)⟩
      · exact Or.inr ⟨hw, rfl, growInto_next _ _ _ _ _ _⟩
    · -- the block moves
      have hserve : CanServe h (request (request n)) := by
        rw [request_request]
        rcases ha with h1 | h1 | h1
        · omega
        · exact absurd h1 hg
        · exact h1
      obtain ⟨-, z, hz, hm⟩ := i.canServe_iff.1 hserve
      obtain ⟨y, h₁, bs₁, fs₁, heq, ht⟩ := rtMemheapAlloc_served i hserve
      rw [request_request] at hm ht
      obtain ⟨bs', fs', hf⟩ := rtMemheapFree_spec (ht.inv.setData
        (rtMemcpy h₁.data (y + 24) (x + 24) (min (size h x) (request n)))) ((ht.inUse x).2 (Or.inl hx))
      refine ⟨_, y, rtMemheapRealloc_move i hx hn hgt hg heq, Or.inl ⟨?_, bs', fs',
        Served.of_moved hx ht hf (rtMemheapFree_data _ _) fun k hk => ?_⟩⟩
      · obtain ⟨hge, hle⟩ := i.blocks.next_ge ((i.mem_free z).1 hz).1
        have hte := i.blocks.tailEnd
        have hbd := i.blocks.bound
        unfold size at hm
        omega
      · have hin : y + 24 ≤ y + 24 + k ∧ y + 24 + k < y + 24 + min (size h x) (request n) := by omega
        have hsrc : x + 24 + (y + 24 + k - (y + 24)) = x + 24 + k := by omega
        rw [rtMemcpy, if_pos hin, rtMemheapAlloc_data heq, hsrc]
  · have hw : request n + 12 < 2 ^ 32 := by omega
    by_cases hshr : request n + 36 < size h x
    · obtain ⟨bs', fs', hr⟩ := shrinkTo_spec i hx (m := request n) (by omega)
      exact ⟨_, x, rtMemheapRealloc_cut i hx hn hshr, Or.inl ⟨hw, bs', fs',
        Served.of_resized hx hr (shrinkTo_data _ _ _)⟩⟩
    · exact ⟨_, x, rtMemheapRealloc_same i hx hn hfit (not_lt.1 hshr), Or.inl ⟨hw, bs, fs,
        Served.of_same i hx hfit⟩⟩

/-- It returns `RT_NULL`, and nothing has changed. -/
theorem rtMemheapRealloc_refuses (hn : n ≠ 0) (ha : ¬Answers h x n) :
    rtMemheapRealloc h (some (x + 24)) n = some (h, none) := by
  obtain ⟨-, hsz, -⟩ := i.live hx
  unfold Answers at ha
  rw [hsz] at ha
  obtain ⟨hgt, ha⟩ := not_or.1 ha
  obtain ⟨hg, hserve⟩ := not_or.1 ha
  refine rtMemheapRealloc_noRoom i hx hn (not_le.1 hgt) hg (rtMemheapAlloc_refused i ?_)
  rwa [request_request]

end Answered

/-- The bytes asked for fit what is looked for, but for the three largest sizes. -/
theorem le_request (hn : n + 4 ≤ 2 ^ 32) : n ≤ request n := by
  unfold request rtAlign
  omega

end EasyCore.MemHeap
