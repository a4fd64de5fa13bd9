import EasyCore.Kernel.SmallMemBlocks

/-! What `rt_realloc` keeps of the blocks: the bytes of the block it is called for, up to the
    smaller size, and every byte of the other blocks.

    A byte of a block is lost in two ways, by a store into the block and by a header written over
    it. For the second the places of the header stores are followed through the calls: each is an
    item, or lies in the item that is cut. -/

namespace EasyCore.SmallMem
open Function Links Kernel Runs Live

variable {h h' h₁ : Heap} {os os' : List ℕ} {o x y z n m size : ℕ}

/-! ### Where headers are written -/

/-- A header at `z` lies outside the bytes of the block at `o`. -/
def Clear (h : Heap) (o z : ℕ) : Prop := z ≤ o ∨ h.next o ≤ z

/-- From `h` to `h'` no header was written over the block at `o`. -/
def Spares (h h' : Heap) (o : ℕ) : Prop := ∀ z, h'.hdr z ≠ h.hdr z → Clear h o z

theorem Tiled.clear (t : Tiled h os) (ho : o ∈ os) (hz : z ∈ os ++ [h.heapEnd]) : Clear h o z := by
  rcases List.mem_append.1 hz with hz | hz
  · by_cases hne : z = o
    · exact Or.inl hne.le
    · rcases t.apart hz ho hne with hlt | hlt
      · have := (t.next_ge hz).1
        exact Or.inl (by omega)
      · exact Or.inr hlt
  · rw [List.mem_singleton.1 hz]
    exact Or.inr (t.next_ge ho).2.1

/-- A header written inside another item. -/
theorem Tiled.clear_inside (t : Tiled h os) (ho : o ∈ os) (hx : x ∈ os) (hne : x ≠ o) (hz : x ≤ z)
    (hz' : z + 12 ≤ h.next x) : Clear h o z := by
  rcases t.apart hx ho hne with hlt | hlt
  · exact Or.inl (by omega)
  · exact Or.inr (by omega)

theorem Spares.trans (hs : Spares h h₁ o) (hn : h₁.next o = h.next o) (hs' : Spares h₁ h' o) :
    Spares h h' o := by
  intro z hz
  by_cases h1 : h₁.hdr z = h.hdr z
  · have := hs' z (by rwa [h1])
    unfold Clear at this ⊢
    rwa [hn] at this
  · exact hs z h1

theorem joinNext_hdr (hx : z ≠ x) (hy : z ≠ h.next y) : (joinNext h x y).hdr z = h.hdr z := by
  simp [joinNext, hx, hy]

theorem plugHolesForward_hdr (hx : z ≠ x) (hn : z ≠ h.next (h.next x)) :
    (plugHolesForward h x).hdr z = h.hdr z := by
  unfold plugHolesForward
  dsimp only
  split
  · rw [joinNext_hdr hx (by split <;> simpa using hn)]
    split <;> simp
  · rfl

theorem plugHolesBackward_hdr (hp : z ≠ h.prev x) (hn : z ≠ h.next x) :
    (plugHolesBackward h x).hdr z = h.hdr z := by
  unfold plugHolesBackward
  dsimp only
  split
  · rw [joinNext_hdr hp (by split <;> simpa using hn)]
    split <;> simp
  · rfl

/-- The links of the item itself, after its free successor was joined to it. -/
theorem plugHolesForward_links :
    ((plugHolesForward h x).next x = h.next x ∨ (plugHolesForward h x).next x = h.next (h.next x)) ∧
      ((plugHolesForward h x).prev x = h.prev x ∨ (plugHolesForward h x).prev x = x) := by
  unfold plugHolesForward
  dsimp only
  split
  · constructor
    · right
      rw [(joinNext_fields _ _ _).1, update_self]
      split <;> simp
    · rw [(joinNext_fields _ _ _).2.1]
      have hnx : (if h.lfree = h.next x then h.setLfree x else h).prev = h.prev := by
        split <;> simp
      rw [hnx]
      by_cases hx : x = (if h.lfree = h.next x then h.setLfree x else h).next (h.next x)
      · right; rw [← hx, update_self]
      · left; rw [update_of_ne hx]
  · exact ⟨Or.inl rfl, Or.inl rfl⟩

theorem Tiled.prev_mem (t : Tiled h os) (hx : x ∈ os) : h.prev x ∈ os := by
  obtain ⟨a, b, rfl⟩ := List.append_of_mem hx
  rcases t.prev_last with ⟨-, hp⟩ | ⟨c, p, rfl, hp⟩
  · rw [hp]; exact hx
  · rw [hp]; simp

/-- `plug_holes` writes to items only. -/
theorem plugHoles_hdr (t : Tiled h os) (hx : x ∈ os) (hz : z ∉ os ++ [h.heapEnd]) :
    (plugHoles h x).hdr z = h.hdr z := by
  have hne : ∀ y ∈ os ++ [h.heapEnd], z ≠ y := fun y hy hzy => hz (hzy ▸ hy)
  have hxe : x ∈ os ++ [h.heapEnd] := List.mem_append_left _ hx
  have hn := t.next_mem hxe
  have hnn := t.next_mem hn
  have hp : h.prev x ∈ os ++ [h.heapEnd] := List.mem_append_left _ (t.prev_mem hx)
  obtain ⟨hnext, hprev⟩ := plugHolesForward_links (h := h) (x := x)
  unfold plugHoles
  rw [plugHolesBackward_hdr, plugHolesForward_hdr (hne x hxe) (hne _ hnn)]
  · rcases hprev with hprev | hprev <;> rw [hprev]
    · exact hne _ hp
    · exact hne _ hxe
  · rcases hnext with hnext | hnext <;> rw [hnext]
    · exact hne _ hn
    · exact hne _ hnn

theorem cutItem_hdr (hxn : x ≠ n) (hx : z ≠ x) (hn : z ≠ n) (hs : z ≠ h.next x) :
    (cutItem h x n).hdr z = h.hdr z := by
  unfold cutItem
  dsimp only
  split <;> simp [hxn.symm, hx, hn, hs]

/-- The headers written when the item at `x` is taken: its own, that of the rest that is cut off,
    and that of the successor. -/
theorem takeItem_hdr {r : Option ℕ} (he : takeItem h size x = some (h', r))
    (hz : h'.hdr z ≠ h.hdr z) : z = x ∨ z = h.next x ∨
      z = x + 12 + size ∧ sub32 (h.next x) (x + 12) ≥ size + 12 + 12 := by
  by_contra hno
  push Not at hno
  obtain ⟨hx, hs, hn⟩ := hno
  refine hz ?_
  unfold takeItem at he
  simp only [sizeofStructMem_eq, minSizeAligned_eq] at he
  by_cases hc : sub32 (h.next x) (x + 12) ≥ size + 12 + 12
  · have hcut := cutItem_hdr (h := h) (show x ≠ x + 12 + size by omega) hx
      (fun e => (hn e).not_ge hc) hs
    rw [if_pos hc] at he
    split at he
    · obtain ⟨l, -, hl⟩ := Option.map_eq_some_iff.1 he
      rw [← (Prod.mk.inj hl).1]
      simp [hx, hcut]
    · rw [← (Prod.mk.inj (Option.some.inj he)).1]
      simp [hx, hcut]
  · rw [if_neg hc] at he
    split at he
    · obtain ⟨l, -, hl⟩ := Option.map_eq_some_iff.1 he
      rw [← (Prod.mk.inj hl).1]
      simp [hx]
    · rw [← (Prod.mk.inj (Option.some.inj he)).1]
      simp [hx]

/-- The item a search took. -/
theorem rtMallocLoop_took (t : Tiled h os) {q : ℕ} : ∀ (fuel start : ℕ),
    start ∈ os ++ [h.heapEnd] → rtMallocLoop h size fuel start = some (h', some q) →
    ∃ x ∈ os, h.used x = 0 ∧ x + 12 + size ≤ h.next x ∧ takeItem h size x = some (h', some q)
  | 0, _, _, he => by cases he
  | fuel + 1, start, hst, he => by
    rw [rtMallocLoop] at he
    by_cases hlt : start < sub32 h.memSizeAligned size
    · rw [if_pos hlt, sizeofStructMem_eq] at he
      by_cases hfit : h.used start = 0 ∧ sub32 (h.next start) (start + 12) ≥ size
      · rw [if_pos hfit] at he
        have hm : start ∈ os := by
          rcases List.mem_append.1 hst with hm | hm
          · exact hm
          · exact absurd (List.mem_singleton.1 hm ▸ hfit.1) t.endUsed
        obtain ⟨hge, hle, -⟩ := t.next_ge hm
        have hroom := hfit.2
        rw [sub32_eq hge (by have := t.bound; omega)] at hroom
        exact ⟨start, hm, hfit.1, by omega, he⟩
      · rw [if_neg hfit] at he
        exact rtMallocLoop_took t fuel _ (t.next_mem hst) he
    · rw [if_neg hlt] at he
      cases he

/-- `rt_malloc` writes no header over a block, and none over the block it hands out. -/
theorem rtMalloc_hdr (w : Wf h os) (he : rtMalloc h n = some (h', some (blockAddr h x)))
    (hz : h'.hdr z ≠ h.hdr z) :
    (∀ o, InUse h os o → Clear h o z) ∧ (z ≤ x ∨ x + 12 + blockSize n ≤ z) := by
  have hst : h.lfree ∈ os ++ [h.heapEnd] := by
    rcases w.lfreeOk with hl | ⟨hm, -⟩
    · rw [hl]; simp
    · exact List.mem_append_left _ hm
  unfold rtMalloc at he
  simp only [minSizeAligned_eq] at he
  split at he
  · cases he
  split at he
  · cases he
  obtain ⟨y, hy, hyu, hroom, htake⟩ := rtMallocLoop_took w.tiled _ _ hst he
  obtain ⟨a, b, rfl⟩ := List.append_of_mem hy
  have hpos : 12 ≤ blockSize n := le_max_right ..
  obtain ⟨h₂, os₂, htake', -⟩ :=
    takeItem_spec w hyu (by omega : 0 < blockSize n) hroom (blockSize_mod n)
  obtain rfl : y = x := by
    have := (Prod.mk.inj (Option.some.inj (htake'.symm.trans htake))).2
    exact blockAddr_inj h (Option.some.inj this)
  have hbd := w.tiled.bound
  obtain ⟨hge, hle, -⟩ := w.tiled.next_ge hy
  have hroom : y + 12 + blockSize n ≤ h.next y := hroom
  rcases takeItem_hdr htake hz with rfl | rfl | ⟨rfl, hcut⟩
  · exact ⟨fun o ho => w.tiled.clear ho.1 (List.mem_append_left _ hy), Or.inl le_rfl⟩
  · exact ⟨fun o ho => w.tiled.clear ho.1 (w.tiled.next_mem (List.mem_append_left _ hy)),
      Or.inr hroom⟩
  · rw [sub32_eq hge (by omega)] at hcut
    have hcut : y + 12 + blockSize n + 12 ≤ h.next y := by unfold blockSize; omega
    refine ⟨fun o ho => w.tiled.clear_inside ho.1 hy (fun e => ho.2 (e ▸ hyu)) ?_ hcut,
      Or.inr le_rfl⟩
    omega

/-- `rt_free` writes to items only. -/
theorem rtFree_spares (w : Wf h os) (hx : InUse h os x) (ho : o ∈ os) :
    Spares h (rtFree h (some (blockAddr h x))) o := by
  intro z hz
  by_contra hno
  have hzm : z ∉ os ++ [h.heapEnd] := fun hm => hno (w.tiled.clear ho hm)
  have hzx : z ≠ x := fun e => hzm (e ▸ List.mem_append_left _ hx.1)
  have hlt := w.inside x hx
  obtain ⟨h₃, heq, ar₃, hn₃, hp₃, hu₃, -, -, hd₃⟩ := rtFree_eq w.tiled.bound hlt
  have t₃ : Tiled h₃ os := w.tiled.frame hn₃ hp₃
    (by rw [hu₃, update_of_ne (by omega)]) ar₃.heapEnd ar₃.heapPtr ar₃.memSize
  refine hz ?_
  rw [heq, plugHoles_hdr t₃ hx.1 (by rwa [ar₃.heapEnd]), hd₃ z hzx]

/-- A cut writes to items and to the place of the cut. -/
theorem cutBlock_hdr (w : Wf h os) (ho : InUse h os o) (hs : size + 24 < userSize h o)
    (h4 : size % 4 = 0) (hz : (cutBlock h o size).hdr z ≠ h.hdr z) :
    z ∈ os ++ [h.heapEnd] ∨ z = o + 12 + size := by
  by_contra hno
  push Not at hno
  obtain ⟨hzm, hzn⟩ := hno
  refine hz ?_
  obtain ⟨a, b, rfl⟩ := List.append_of_mem ho.1
  have hlt : o + 12 + size + 12 ≤ h.next o := by unfold userSize at hs; omega
  have ho4 := w.tiled.align o (List.mem_append_left _ ho.1)
  obtain ⟨h₀, hh₀⟩ : ∃ h₀, h₀ = (h.subUsed (userSize h o - size)).setMagic (o + 12 + size)
    heapMagic := ⟨_, rfl⟩
  have hn₀ : h₀.next = h.next := by rw [hh₀]; simp
  have hE₀ : h₀.heapEnd = h.heapEnd := by rw [hh₀]; simp
  have t₀ : Tiled h₀ (a ++ o :: b) := w.tiled.frame hn₀ (by rw [hh₀]; simp) (by rw [hh₀]; simp)
    hE₀ (by rw [hh₀]; simp) (by rw [hh₀]; simp)
  have t₁ := t₀.cut (n := o + 12 + size) (by omega) (by rw [hn₀]; exact hlt) (by omega)
  have hE₁ : (cutItem h₀ o (o + 12 + size)).heapEnd = h.heapEnd := by simp [hE₀]
  have hnext := w.tiled.next_mem (List.mem_append_left _ ho.1)
  have hzo : z ≠ o := fun e => hzm (by rw [e]; simp)
  unfold cutBlock
  rw [← hh₀, plugHoles_hdr t₁ (by simp), cutItem_hdr (by omega) hzo hzn, hh₀,
    (Heap.set_hdr _ _ _ hzn).1, (Heap.used_hdr _ _).2]
  · rw [hn₀]
    exact fun e => hzm (e ▸ hnext)
  · rw [hE₁]
    simp only [List.mem_append, List.mem_cons] at hzm ⊢
    tauto

/-! ### Contents -/

/-- The block at `p` keeps its size and its bytes: nothing is stored into it, and no header is
    written over it. -/
structure Untouched (h h' : Heap) (p : ℕ) : Prop where
  bytes : blockBytes h' p = blockBytes h p
  data : ∀ a ∈ extent h p, h'.data a = h.data a
  headers : ∀ z, h'.hdr z ≠ h.hdr z → Disjoint (extent h p) (headerExtent h z)

/-- The block at `p` is in use. -/
def Allocated (h : Heap) (p : ℕ) : Prop :=
  ∃ o, IsItem h o ∧ o ≠ h.heapEnd ∧ h.used o ≠ 0 ∧ p = blockAddr h o

/-- The block at `q` is what a client may expect that had `m` bytes at `p` and asked for `n`. -/
structure Served (h h' : Heap) (p q m n : ℕ) : Prop where
  holds : n ≤ blockBytes h' q
  room : min m n ≤ blockBytes h p
  bytes : ∀ i < min m n, h'.data (q + i) = h.data (p + i)
  headers : ∀ z, h'.hdr z ≠ h.hdr z → Disjoint (Set.Ico q (q + min m n)) (headerExtent h z)
  allocated : Allocated h' q
  released : Allocated h' p → p = q

/-- The answer and what became of the block at `p`. -/
def Outcome (h h' : Heap) (p m n : ℕ) : Option ℕ → Prop
  | none => 0 < n ∧ Allocated h' p ∧ Untouched h h' p
  | some q => Served h h' p q m n

/-- `rt_realloc(p, n)` answers as it should for the live block `p` of `m` bytes, and leaves the
    other live blocks alone. -/
def Reallocates (h : Heap) (live : List ℕ) (p m n : ℕ) : Prop :=
  ∃ h' r, rtRealloc h (some p) n = some (h', r) ∧ Outcome h h' p m n r ∧
    ∀ q ∈ live, q ≠ p → Allocated h' q ∧ Untouched h h' q

/-- The request wraps around and finds a block it cannot cut; or it asks for nothing, and the block
    is empty or can be cut to nothing; or the block has the bytes to keep, or cannot move. -/
def ReallocOk (h : Heap) (p m n : ℕ) : Prop :=
  if 2 ^ 32 - 4 < n then 0 < blockBytes h p ∧ blockBytes h p ≤ 24
  else if n = 0 then blockBytes h p = 0 ∨ 24 < blockBytes h p
  else min m n ≤ blockBytes h p ∨ ¬CanAlloc h (rtAlign n)

/-- Every other block in use stays in use, untouched. -/
def OthersKept (h h' : Heap) (os : List ℕ) (o : ℕ) : Prop := ∀ y, InUse h os y → y ≠ o →
  Allocated h' (blockAddr h y) ∧ Untouched h h' (blockAddr h y)

theorem Untouched.refl (h : Heap) (p : ℕ) : Untouched h h p :=
  ⟨rfl, fun _ _ => rfl, fun _ hz => absurd rfl hz⟩

theorem Wf.allocated_iff (w : Wf h os) : Allocated h (blockAddr h o) ↔ InUse h os o := by
  constructor
  · rintro ⟨x, hx, hne, hu, he⟩
    obtain rfl := blockAddr_inj h he
    rcases List.mem_append.1 (w.tiled.isItem_iff.1 hx) with hm | hm
    · exact ⟨hm, hu⟩
    · exact absurd (List.mem_singleton.1 hm) hne
  · rintro ⟨hm, hu⟩
    have := w.tiled.lt_end hm
    exact ⟨o, w.tiled.isItem_iff.2 (List.mem_append_left _ hm), by omega, hu, rfl⟩

theorem Wf.allocated_after (w : Wf h' os) (ar : SameArea h h') :
    Allocated h' (blockAddr h o) ↔ InUse h' os o := by
  rw [← ar.blockAddr, w.allocated_iff]

theorem blockBytes_after (ar : SameArea h h') (o : ℕ) :
    blockBytes h' (blockAddr h o) = userSize h' o := by
  rw [← ar.blockAddr, blockBytes_blockAddr]

/-- A header clear of a block lies outside any of the block's first bytes. -/
theorem disjoint_header {k : ℕ} (hz : z ≤ o ∨ o + 12 + k ≤ z) :
    Disjoint (Set.Ico (blockAddr h o) (blockAddr h o + k)) (headerExtent h z) := by
  unfold headerExtent blockAddr
  exact disjoint_Ico (by omega)

/-- What is the same block, spared by the headers, with the same bytes. -/
theorem Spares.untouched (hs : Spares h h' o) (hge : o + 12 ≤ h.next o) (ar : SameArea h h')
    (hn : h'.next o = h.next o)
    (hd : ∀ a ∈ extent h (blockAddr h o), h'.data a = h.data a) :
    Untouched h h' (blockAddr h o) := by
  refine ⟨?_, hd, fun z hz => ?_⟩
  · rw [blockBytes_after ar, blockBytes_blockAddr]
    unfold userSize
    rw [hn]
  · unfold extent
    rw [blockBytes_blockAddr]
    refine disjoint_header ((hs z hz).imp_right fun hle => ?_)
    unfold userSize; omega

theorem OthersKept.refl (w : Wf h os) (o : ℕ) : OthersKept h h os o :=
  fun _ hy _ => ⟨w.allocated_iff.2 hy, .refl ..⟩

theorem cutBlock_others (w : Wf h os) (ho : InUse h os o) (hs : size + 24 < userSize h o)
    (h4 : size % 4 = 0) : OthersKept h (cutBlock h o size) os o := by
  intro y hy hne
  obtain ⟨os', hk⟩ := cutBlock_spec w ho hs h4
  refine ⟨(hk.wf.allocated_after hk.area).2 ((hk.inUse y).2 hy), ?_⟩
  have hsp : Spares h (cutBlock h o size) y := by
    intro z hz
    rcases cutBlock_hdr w ho hs h4 hz with hm | rfl
    · exact w.tiled.clear hy.1 hm
    · unfold userSize at hs
      exact w.tiled.clear_inside hy.1 ho.1 (Ne.symm hne) (by omega) (by omega)
  exact hsp.untouched (w.tiled.next_ge hy.1).1 hk.area (hk.next y hy hne) fun a _ => by rw [hk.data]

/-! ### The block moved -/

variable {h₂ : Heap} {os₁ : List ℕ} {k : ℕ}

theorem moved_area (ht : Taken h h₁ os os₁ size x) (d : ℕ → UInt8)
    (hf : Freed (h₁.setData d) h' os₁ os' o) : SameArea h h' := by
  have har : SameArea h₁ (h₁.setData d) := ⟨rfl, rfl, rfl⟩
  exact ht.area.trans (har.trans hf.area)

/-- From the search on, headers spare every block in use. -/
theorem moved_spares (ho : InUse h os o) (ht : Taken h h₁ os os₁ size x) (d : ℕ → UInt8)
    (hy : InUse h₁ os₁ y) : Spares h₁ (rtFree (h₁.setData d) (some (blockAddr h o))) y := by
  have hb : blockAddr h o = blockAddr (h₁.setData d) o := (ht.area.blockAddr o).symm
  have ho₁ : InUse h₁ os₁ o := (ht.inUse o).2 (Or.inl ho)
  rw [hb]
  exact rtFree_spares (ht.wf.setData d) ho₁ hy.1

section Moved
variable (w : Wf h os) (ho : InUse h os o)
  (he : rtMalloc h n = some (h₁, some (blockAddr h x)))
  (ht : Taken h h₁ os os₁ (blockSize n) x)
  (hd : h₂ = h₁.setData (rtMemcpy h₁.data (blockAddr h x) (blockAddr h o) k))
  (hf : Freed h₂ (rtFree h₂ (some (blockAddr h o))) os₁ os' o)
include w ho he ht hd hf

theorem moved_others (hk : k ≤ blockSize n) :
    OthersKept h (rtFree h₂ (some (blockAddr h o))) os o := by
  subst hd
  intro y hy hne
  have hyx : y ≠ x := fun e => (e ▸ hy).2 ht.fresh.2
  have hy₁ : InUse h₁ os₁ y := (ht.inUse y).2 (Or.inl hy)
  have hx₁ : InUse h₁ os₁ x := (ht.inUse x).2 (Or.inr rfl)
  have ar := moved_area ht _ hf
  refine ⟨(hf.wf.allocated_after ar).2 ((hf.inUse y).2 ⟨hy₁, hne⟩), ?_⟩
  have hsp : Spares h h₁ y := fun z hz => (rtMalloc_hdr w he hz).1 y hy
  refine (hsp.trans (ht.next y hy) (moved_spares ho ht _ hy₁)).untouched
    (w.tiled.next_ge hy.1).1 ar ((hf.next y hy₁ hne).trans (ht.next y hy)) fun a ha => ?_
  rw [hf.data, ← ht.data]
  refine if_neg ?_
  rintro ⟨hlo, hhi⟩
  obtain ⟨hya, hay⟩ := ha
  rw [blockBytes_blockAddr] at hay
  have hge := (w.tiled.next_ge hy.1).1
  have hroom := ht.room
  have hny := ht.next y hy
  unfold blockAddr at hlo hhi hya hay
  unfold userSize at hay
  rcases ht.wf.tiled.apart hy₁.1 hx₁.1 hyx with hle | hle <;> omega

/-- The new block is what was asked for iff the old one has the bytes to keep. -/
theorem moved_served {c : ℕ} (hkn : k = min (userSize h o) n) (hnb : n ≤ blockSize n) (hc : c ≤ n) :
    Served h (rtFree h₂ (some (blockAddr h o))) (blockAddr h o) (blockAddr h x) m c ↔
      min m c ≤ userSize h o := by
  subst hd
  have hx₁ : InUse h₁ os₁ x := (ht.inUse x).2 (Or.inr rfl)
  have hxo : x ≠ o := fun e => ho.2 (e ▸ ht.fresh.2)
  have ar := moved_area ht _ hf
  have hnx := hf.next x hx₁ hxo
  have hroom := ht.room
  constructor
  · intro hs
    have := hs.room
    rwa [blockBytes_blockAddr] at this
  · intro hle
    refine ⟨?_, by rwa [blockBytes_blockAddr], fun i hi => ?_, fun z hz => ?_,
      (hf.wf.allocated_after ar).2 ((hf.inUse x).2 ⟨hx₁, hxo⟩), fun hp => ?_⟩
    · rw [blockBytes_after ar]
      unfold userSize
      rw [hnx, (Heap.setData_fields _ _).1]
      omega
    · rw [hf.data, ← ht.data]
      refine (if_pos (by omega)).trans ?_
      rw [Nat.add_sub_cancel_left]
    · refine disjoint_header ?_
      by_cases h1 : h₁.hdr z = h.hdr z
      · rcases moved_spares ho ht _ hx₁ z (by rwa [h1]) with hle | hle <;> omega
      · rcases (rtMalloc_hdr w he h1).2 with hle | hle <;> omega
    · exact absurd rfl ((hf.inUse o).1 ((hf.wf.allocated_after ar).1 hp)).2

end Moved

/-! ### The answer of each path -/

section Answer
variable {live : List ℕ} {r : Option ℕ}

/-- Where the other blocks are kept, the answer decides. -/
theorem reallocates_iff_outcome (hl : ∀ q ∈ live, ∃ y, InUse h os y ∧ q = blockAddr h y)
    (he : rtRealloc h (some (blockAddr h o)) n = some (h', r)) (hk : OthersKept h h' os o) :
    Reallocates h live (blockAddr h o) m n ↔ Outcome h h' (blockAddr h o) m n r := by
  constructor
  · rintro ⟨h₂, r₂, he₂, ho, -⟩
    obtain ⟨rfl, rfl⟩ := Prod.mk.inj (Option.some.inj (he.symm.trans he₂))
    exact ho
  · intro ho
    refine ⟨h', r, he, ho, fun q hq hne => ?_⟩
    obtain ⟨y, hy, rfl⟩ := hl q hq
    exact hk y hy fun e => hne (by rw [e])

/-- Without a new block the old one stays as it was. -/
theorem outcome_none (w : Wf h os) (ho : InUse h os o) :
    Outcome h h (blockAddr h o) m n none ↔ 0 < n :=
  ⟨fun hn => hn.1, fun hn => ⟨hn, w.allocated_iff.2 ho, .refl ..⟩⟩

theorem outcome_same (w : Wf h os) (ho : InUse h os o) :
    Outcome h h (blockAddr h o) m n (some (blockAddr h o)) ↔ n ≤ userSize h o := by
  constructor
  · intro hs
    have hholds := hs.holds
    rwa [blockBytes_blockAddr] at hholds
  · intro hle
    refine ⟨?_, ?_, fun _ _ => rfl, fun _ hz => absurd rfl hz, w.allocated_iff.2 ho, fun _ => rfl⟩
    · rwa [blockBytes_blockAddr]
    · rw [blockBytes_blockAddr]; omega

theorem outcome_cut (w : Wf h os) (ho : InUse h os o) (hs : size + 24 < userSize h o)
    (h4 : size % 4 = 0) :
    Outcome h (cutBlock h o size) (blockAddr h o) m n (some (blockAddr h o)) ↔ n ≤ size := by
  obtain ⟨os', hk⟩ := cutBlock_spec w ho hs h4
  have hcut : userSize (cutBlock h o size) o = size := by
    unfold userSize
    rw [hk.cut]
    omega
  constructor
  · intro hserved
    have hholds := hserved.holds
    rwa [blockBytes_after hk.area, hcut] at hholds
  · intro hle
    refine ⟨by rwa [blockBytes_after hk.area, hcut], ?_, fun _ _ => by rw [hk.data], fun z hz => ?_,
      (hk.wf.allocated_after hk.area).2 ((hk.inUse o).2 ho), fun _ => rfl⟩
    · rw [blockBytes_blockAddr]; omega
    · refine disjoint_header ?_
      rcases cutBlock_hdr w ho hs h4 hz with hm | rfl
      · unfold userSize at hs
        rcases w.tiled.clear ho.1 hm with hle' | hle' <;> omega
      · omega

/-- In a heap that can hold a block at all, `rt_realloc` answers as it should exactly if
    `ReallocOk`. -/
theorem reallocates_iff (w : Wf h os) (ho : InUse h os o) (h12 : 12 ≤ h.memSizeAligned)
    (hl : ∀ q ∈ live, ∃ y, InUse h os y ∧ q = blockAddr h y) (n : RtSize) :
    Reallocates h live (blockAddr h o) m n ↔ ReallocOk h (blockAddr h o) m n := by
  have hlt := n.isLt
  have hge : (n : ℕ) ≤ 2 ^ 32 - 4 → (n : ℕ) ≤ rtAlign n := rtAlign_ge
  have hwrap : 2 ^ 32 - 4 < (n : ℕ) → rtAlign n = 0 := fun hn => rtAlign_wrap hn n.isLt
  have hzero : (n : ℕ) = 0 → rtAlign n = 0 := fun hn => by rw [hn]; rfl
  have hidem := rtAlign_idem n
  unfold ReallocOk
  rw [blockBytes_blockAddr]
  generalize hN : rtAlign (n : ℕ) = N at hge hwrap hzero hidem ⊢
  rcases lt_or_ge h.memSizeAligned N with hM | hM
  · -- refused
    have hno : ¬CanAlloc h N := fun hc => by have := hc.2.1; omega
    rw [reallocates_iff_outcome hl (rtRealloc_large (hN ▸ hM)) (.refl w o), outcome_none w ho,
      if_neg (by omega), if_neg (by omega)]
    simp only [hno, not_false_eq_true, or_true, iff_true]
    omega
  by_cases hsame : userSize h o = N
  · rw [reallocates_iff_outcome hl (rtRealloc_same w ho (hN ▸ hM) (hN ▸ hsame)) (.refl w o),
      outcome_same w ho]
    split_ifs with h1 h2
    · omega
    · omega
    · exact iff_of_true (by omega) (Or.inl (by omega))
  by_cases hcut : N + 24 < userSize h o
  · have h4 : N % 4 = 0 := hN ▸ rtAlign_mod _
    have he := rtRealloc_cut w ho (hN ▸ hM) (hN ▸ hcut)
    rw [hN] at he
    rw [reallocates_iff_outcome hl he (cutBlock_others w ho hcut h4), outcome_cut w ho hcut h4]
    split_ifs with h1 h2
    · omega
    · omega
    · exact iff_of_true (by omega) (Or.inl (by omega))
  have hs : userSize h o ≠ rtAlign n ∧ userSize h o ≤ rtAlign n + 24 := by omega
  rcases rtMalloc_spec w N with ⟨x, h₁, os₁, hc, heq, ht⟩ | ⟨hno, -, hnull⟩
  · -- moved
    have hpos := hc.1
    have hb : N ≤ blockSize N := by unfold blockSize; omega
    have hfreed := rtFree_spec (ht.wf.setData (rtMemcpy h₁.data (blockAddr h x) (blockAddr h o)
      (min (userSize h o) N))) ((ht.inUse o).2 (Or.inl ho))
    obtain ⟨os', hf⟩ := hfreed
    have ha : blockAddr (h₁.setData (rtMemcpy h₁.data (blockAddr h x) (blockAddr h o)
      (min (userSize h o) N))) o = blockAddr h o := ht.area.blockAddr o
    rw [ha] at hf
    have he := rtRealloc_move w ho (hN ▸ hM) hs (hN ▸ heq)
    rw [hN] at he
    rw [reallocates_iff_outcome hl he (moved_others w ho heq ht rfl hf (by omega)),
      if_neg (by omega), if_neg (by omega)]
    simp only [hc, not_true_eq_false, or_false]
    exact moved_served w ho heq ht rfl hf rfl hb (hge (by omega))
  · rw [reallocates_iff_outcome hl (rtRealloc_noRoom w ho (hN ▸ hM) hs (Or.inr rfl)
      (hN ▸ hnull h12)) (.refl w o), outcome_none w ho]
    simp only [hno, not_false_eq_true, or_true]
    split_ifs with h1 h2
    · omega
    · omega
    · exact iff_of_true (by omega) trivial

end Answer

/-! ### Runs -/

/-- A client that remembers how many bytes it asked for each block. -/
structure Asker where
  client : Client
  req : ℕ → ℕ

/-- The bytes a call asks for. -/
def Call.asked : Call → ℕ
  | .malloc size => size
  | .calloc count size => count * size
  | .realloc _ newsize => newsize
  | .free _ => 0

/-- The sizes of the blocks after a call that returned `r`. -/
def Call.reqAfter (req : ℕ → ℕ) (r : Option ℕ) (c : Call) : ℕ → ℕ :=
  match r with
  | none => req
  | some p => update req p c.asked

/-- The runs of `system`, with the sizes asked for. -/
def askSystem : System Asker Call where
  init s := system.init s.client
  step s c s' := ∃ r, Answers s.client c r s'.client ∧ s'.req = c.reqAfter s.req r

theorem reachable_client {s : Asker} (hs : Reachable askSystem s) : Reachable system s.client := by
  refine hs.invariant (I := fun s => Reachable system s.client) (fun _ hi => .init hi) ?_
  rintro s c s' ih - ⟨r, ha, -⟩
  exact ih.step trivial ⟨r, ha⟩

/-- A search that takes an item takes it from a heap that can hold a block. -/
theorem rtMalloc_room (w : Wf h os) {r : Option ℕ} (he : rtMalloc h n = some (h', r)) :
    h'.memSizeAligned = h.memSizeAligned ∧ (r = none ∨ 12 ≤ h.memSizeAligned) := by
  rcases rtMalloc_spec w n with ⟨x, h₁, os₁, -, heq, ht⟩ | ⟨-, heq | heq, -⟩
  · obtain ⟨rfl, rfl⟩ := Prod.mk.inj (Option.some.inj (heq.symm.trans he))
    have hx : InUse h₁ os₁ x := (ht.inUse x).2 (Or.inr rfl)
    have hroom := ht.room
    have hle := (ht.wf.tiled.next_ge hx.1).2.1
    have hend := ht.wf.tiled.endEq
    have hmin : 12 ≤ blockSize n := le_max_right ..
    have hsame := ht.area.memSize
    exact ⟨hsame, Or.inr (by omega)⟩
  · rw [heq] at he; cases he
  · obtain ⟨rfl, rfl⟩ := Prod.mk.inj (Option.some.inj (heq.symm.trans he))
    exact ⟨rfl, Or.inl rfl⟩

/-- A heap too small for a block never serves one. -/
theorem call_room {s s' : Client} (w : Owned s os) {c : Call} (hst : system.step s c s')
    (hroom : s.live ≠ [] → 12 ≤ s.heap.memSizeAligned) :
    s'.live ≠ [] → 12 ≤ s'.heap.memSizeAligned := by
  obtain ⟨h', live'⟩ := s'
  obtain ⟨r, hleg, he, hl⟩ := hst
  obtain rfl : live' = _ := hl
  -- what a call does that only searches
  have hsearch : ∀ n h₁ r₁, rtMalloc s.heap n = some (h₁, r₁) → r₁.toList ++ s.live ≠ [] →
      12 ≤ h₁.memSizeAligned := by
    intro n h₁ r₁ hm hne
    obtain ⟨hsame, rfl | h12⟩ := rtMalloc_room w.wf hm
    · rw [hsame]; exact hroom (by simpa using hne)
    · rwa [hsame]
  cases c with
  | malloc n => simpa using hsearch n h' r he
  | calloc k n =>
    simp only [Call.exec, rtCalloc] at he
    split at he
    · rename_i h₁ p heq
      obtain ⟨rfl, rfl⟩ := Prod.mk.inj (Option.some.inj he)
      simpa using hsearch _ _ _ heq
    · simpa using hsearch _ _ _ he
  | free q =>
    obtain ⟨rfl, rfl⟩ := Prod.mk.inj (Option.some.inj he)
    cases q with
    | none => simpa [rtFree] using hroom
    | some p =>
      obtain ⟨o, ho, rfl⟩ := (w.holds.mem p).1 (hleg p rfl)
      obtain ⟨os', hf⟩ := rtFree_spec w.wf ho
      intro _
      exact (hroom (List.ne_nil_of_mem (hleg _ rfl))).trans_eq hf.area.memSize.symm
  | realloc q n =>
    cases q with
    | none =>
      have he : rtRealloc s.heap none n = some (h', r) := he
      unfold rtRealloc at he
      dsimp only at he
      split at he
      · obtain ⟨rfl, rfl⟩ := Prod.mk.inj (Option.some.inj he)
        simpa using hroom
      · simpa using hsearch _ _ _ he
    | some p =>
      have h12 := hroom (List.ne_nil_of_mem (hleg p rfl))
      obtain ⟨o, ho, rfl⟩ := (w.holds.mem p).1 (hleg p rfl)
      have hr := rtRealloc_spec w.wf ho (n : ℕ)
      have he : rtRealloc s.heap (some (blockAddr s.heap o)) n = some (h', r) := he
      rw [he] at hr
      intro _
      refine h12.trans_eq ?_
      rcases hr with _ | _ | _ | ⟨h₁, os₁, -, hk⟩ | ⟨x, h₁, h₂, h₃, os₁, os', -, -, ht, rfl, hf⟩
      · rfl
      · rfl
      · exact hk.area.memSize.symm
      · exact (moved_area ht _ hf).memSize.symm

/-- A client that holds a block has a heap that can hold one. -/
theorem reachable_room {s : Client} (hs : Reachable system s) :
    s.live ≠ [] → 12 ≤ s.heap.memSizeAligned := by
  have key : (∃ os, Owned s os) ∧ (s.live ≠ [] → 12 ≤ s.heap.memSizeAligned) := by
    refine hs.invariant (I := fun s => (∃ os, Owned s os) ∧
      (s.live ≠ [] → 12 ≤ s.heap.memSizeAligned)) ?_ ?_
    · rintro s ⟨hl, hdr, data, b, e, hi⟩
      exact ⟨⟨[0], owned_init hl hi⟩, fun hne => absurd hl hne⟩
    · rintro s c s' ⟨⟨os, w⟩, hroom⟩ - hst
      obtain ⟨os', w', -⟩ := call_step w hst
      exact ⟨⟨os', w'⟩, call_room w hst hroom⟩
  exact key.2

/-- CORRECT: in every reachable heap `rt_realloc` keeps what it must of a live block
    and of the others exactly if `ReallocOk`. -/
theorem realloc_keeps_iff {s : Asker} (hs : Reachable askSystem s) {p : ℕ}
    (hp : p ∈ s.client.live) (n : RtSize) :
    Reallocates s.client.heap s.client.live p (s.req p) n ↔
      ReallocOk s.client.heap p (s.req p) n := by
  have hc := reachable_client hs
  obtain ⟨os, w⟩ := reachable_owned hc
  have h12 := reachable_room hc (List.ne_nil_of_mem hp)
  obtain ⟨o, ho, rfl⟩ := (w.holds.mem p).1 hp
  exact reallocates_iff w.wf ho h12 (fun q hq => (w.holds.mem q).1 hq) n

/-- One call of the client that remembers. -/
def Asker.call (s : Asker) (c : Call) : Option Asker :=
  if c.Legal s.client.live then
    (c.exec s.client.heap).map fun r =>
      ⟨⟨r.1, c.liveAfter s.client.live r.2⟩, c.reqAfter s.req r.2⟩
  else none

theorem Asker.call_step {s s' : Asker} {c : Call} (h : s.call c = some s') :
    askSystem.step s c s' := by
  obtain ⟨hleg, h⟩ := Option.ite_none_right_eq_some.1 h
  obtain ⟨⟨h₁, r⟩, he, rfl⟩ := Option.map_eq_some_iff.1 h
  exact ⟨r, ⟨hleg, he, rfl⟩, rfl⟩

def boardRequest : Call := .malloc ⟨60, by omega⟩

/-- A block of 60 bytes on the board's heap. -/
def boardBlock : Option Asker :=
  boardHeap.bind fun s => Asker.call ⟨s, fun _ => 0⟩ boardRequest

theorem boardBlock_reachable {s : Asker} (h : boardBlock = some s) : Reachable askSystem s := by
  obtain ⟨s₀, h₀, hc⟩ := Option.bind_eq_some_iff.1 h
  exact .step (.init (boardHeap_init h₀)) trivial (Asker.call_step hc)

/-- Cut to 8 bytes the block keeps them. -/
theorem realloc_keeps_iff_board : ∃ s, boardBlock = some s ∧
    Reallocates s.client.heap s.client.live 0x2000000c (s.req 0x2000000c) (8 : RtSize) := by
  have hrun : boardBlock.map (fun s => (s.client.live, s.req 0x2000000c,
      blockBytes s.client.heap 0x2000000c)) = some ([0x2000000c], 60, 60) := by
    decide +kernel
  obtain ⟨s, hs, hfields⟩ := Option.map_eq_some_iff.1 hrun
  obtain ⟨hlive, hreq, hbytes⟩ : s.client.live = [0x2000000c] ∧ s.req 0x2000000c = 60 ∧
      blockBytes s.client.heap 0x2000000c = 60 := by
    simpa only [Prod.mk.injEq] using hfields
  refine ⟨s, hs, (realloc_keeps_iff (boardBlock_reachable hs) (by simp [hlive]) 8).2 ?_⟩
  unfold ReallocOk
  rw [hbytes, hreq, if_neg (by decide), if_neg (by decide)]
  exact Or.inl (by decide)

/-- Asked for `2 ^ 32 - 1` bytes in place of 60, `rt_realloc` cuts the block to nothing and
    returns it. -/
theorem realloc_loses : ¬∀ s, Reachable askSystem s → ∀ p ∈ s.client.live, ∀ n : RtSize,
    Reallocates s.client.heap s.client.live p (s.req p) n := by
  intro hall
  have hrun : (boardBlock.bind fun s => (rtRealloc s.client.heap (some 0x2000000c)
      (2 ^ 32 - 1)).map fun r => (s.client.live, r.2, blockBytes r.1 0x2000000c)) =
      some ([0x2000000c], some 0x2000000c, 0) := by
    decide +kernel
  obtain ⟨s, hs, hr⟩ := Option.bind_eq_some_iff.1 hrun
  obtain ⟨⟨h₁, r⟩, he, hfields⟩ := Option.map_eq_some_iff.1 hr
  obtain ⟨hlive, rfl, hbytes⟩ : s.client.live = [0x2000000c] ∧ r = some 0x2000000c ∧
      blockBytes h₁ 0x2000000c = 0 := by
    simpa only [Prod.mk.injEq] using hfields
  obtain ⟨h₂, r₂, he₂, ho, -⟩ := hall s (boardBlock_reachable hs) 0x2000000c (by simp [hlive])
    ⟨2 ^ 32 - 1, by omega⟩
  obtain ⟨rfl, rfl⟩ := Prod.mk.inj (Option.some.inj (he.symm.trans he₂))
  have hholds : 2 ^ 32 - 1 ≤ blockBytes h₁ 0x2000000c := ho.holds
  omega

end EasyCore.SmallMem
