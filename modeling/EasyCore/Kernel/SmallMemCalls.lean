import EasyCore.Kernel.SmallMemOps

/-! The three calls on a well-formed heap: when `rt_malloc` finds an item (`CanAlloc`), and the
    three ways `rt_realloc` answers (the block as it is, shrunk in place, or moved). -/

namespace EasyCore.SmallMem
open Function Links Kernel

variable {h : Heap} {os : List ℕ} {o x n size : ℕ}

/-! ### `rt_malloc` -/

/-- The item at `x` can hold `size` bytes and lies before the point where the search gives up. -/
def Fit (h : Heap) (size x : ℕ) : Prop :=
  h.used x = 0 ∧ x + 12 + size ≤ h.next x ∧ x + size < h.memSizeAligned

instance : Decidable (Fit h size x) := by unfold Fit; infer_instance

/-- The size `rt_malloc(n)` searches for. -/
def blockSize (n : ℕ) : ℕ := max (rtAlign n) 12

/-- Some free item from `lfree` on can serve `rt_malloc(n)`. -/
def CanAlloc (h : Heap) (n : ℕ) : Prop :=
  n ≠ 0 ∧ rtAlign n ≤ h.memSizeAligned ∧ ∃ x, IsItem h x ∧ h.lfree ≤ x ∧ Fit h (blockSize n) x

theorem blockSize_mod (n : ℕ) : blockSize n % 4 = 0 := by
  have := rtAlign_mod n
  unfold blockSize
  rcases le_total (rtAlign n) 12 with h | h
  · rw [max_eq_right h]
  · rw [max_eq_left h]; exact this

/-- The search from the items `b` on: the first one that fits is taken. -/
theorem rtMallocLoop_spec (hs : 12 ≤ size) (hsM : size ≤ h.memSizeAligned) (h4 : size % 4 = 0) :
    ∀ (b a : List ℕ) (fuel start : ℕ), Wf h (a ++ b) → (b ++ [h.heapEnd]).head? = some start →
      b.length < fuel →
      (∃ x ∈ b, Fit h size x ∧ ∃ h' os', rtMallocLoop h size fuel start =
        some (h', some (blockAddr h x)) ∧ Taken h h' (a ++ b) os' size x) ∨
      (∀ x ∈ b, ¬Fit h size x) ∧ rtMallocLoop h size fuel start = some (h, none)
  | [], a, fuel + 1, start, w, hst, _ => by
    obtain rfl : start = h.heapEnd := by simpa [eq_comm] using hst
    have := w.tiled.endEq
    have hsub : sub32 h.memSizeAligned size = h.memSizeAligned - size :=
      sub32_eq hsM (by have := w.tiled.bound; omega)
    refine Or.inr ⟨by simp, ?_⟩
    rw [rtMallocLoop, hsub, if_neg (by omega)]
  | z :: b, a, fuel + 1, start, w, hst, hlen => by
    obtain rfl : start = z := by simpa [eq_comm] using hst
    have hE := w.tiled.endEq
    have hbd := w.tiled.bound
    obtain ⟨hge, hle, -⟩ := w.tiled.next_ge (x := start) (by simp)
    have hsub : sub32 h.memSizeAligned size = h.memSizeAligned - size := sub32_eq hsM (by omega)
    have hroom : sub32 (h.next start) (start + 12) = h.next start - (start + 12) :=
      sub32_eq hge (by omega)
    rw [rtMallocLoop, hsub, sizeofStructMem_eq, hroom]
    by_cases hlt : start < h.memSizeAligned - size
    · rw [if_pos hlt]
      by_cases hfit : h.used start = 0 ∧ h.next start - (start + 12) ≥ size
      · rw [if_pos hfit]
        obtain ⟨h', os', heq, ht⟩ := takeItem_spec w hfit.1 (by omega) (by omega) h4
        exact Or.inl ⟨start, by simp, ⟨hfit.1, by omega, by omega⟩, h', os', heq, ht⟩
      · rw [if_neg hfit]
        have w' : Wf h ((a ++ [start]) ++ b) := by rwa [List.append_assoc, List.singleton_append]
        obtain ⟨s, l, hb, hn, -⟩ := w.tiled.next_head
        have hhd : (b ++ [h.heapEnd]).head? = some (h.next start) := by rw [hb, hn]; rfl
        rcases rtMallocLoop_spec hs hsM h4 b (a ++ [start]) fuel _ w' hhd (by simpa using hlen) with
          ⟨x, hx, hf, h', os', heq, ht⟩ | ⟨hno, heq⟩
        · refine Or.inl ⟨x, by simp [hx], hf, h', os', heq, ?_⟩
          rwa [List.append_assoc, List.singleton_append] at ht
        · refine Or.inr ⟨fun x hx => ?_, heq⟩
          rcases List.mem_cons.1 hx with rfl | hx
          · exact fun hf => hfit ⟨hf.1, by have := hf.2.1; omega⟩
          · exact hno x hx
    · rw [if_neg hlt]
      refine Or.inr ⟨fun x hx hf => ?_, rfl⟩
      have hsx : start ≤ x := by
        rcases List.mem_cons.1 hx with rfl | hx
        · exact le_rfl
        · have := w.tiled.order.2 x (List.mem_append_left _ hx); omega
      have := hf.2.2; omega

/-- Where nothing is large enough the search never returns a block. -/
theorem rtMallocLoop_none (w : Wf h os)
    (hno : ∀ x ∈ os, h.used x = 0 → sub32 (h.next x) (x + 12) < size) :
    ∀ (fuel : ℕ), ∀ start ∈ os ++ [h.heapEnd],
      rtMallocLoop h size fuel start = none ∨ rtMallocLoop h size fuel start = some (h, none)
  | 0, _, _ => Or.inl rfl
  | fuel + 1, start, hst => by
    rw [rtMallocLoop]
    split
    · rw [if_neg ?_]
      · exact rtMallocLoop_none w hno fuel _ (w.tiled.next_mem hst)
      · rintro ⟨hu, hr⟩
        rcases List.mem_append.1 hst with hm | hm
        · have := hno start hm hu; simp only [sizeofStructMem_eq] at hr; omega
        · exact w.tiled.endUsed (List.mem_singleton.1 hm ▸ hu)
    · exact Or.inr rfl

/-- A free header is not `heap_end`. -/
theorem Wf.mem_of_free (w : Wf h os) (hx : IsItem h x) (hu : h.used x = 0) : x ∈ os := by
  rcases List.mem_append.1 (w.tiled.isItem_iff.1 hx) with hm | hm
  · exact hm
  · exact absurd (List.mem_singleton.1 hm ▸ hu) w.tiled.endUsed

/-- The items from `lfree` on. -/
theorem Wf.split_lfree (w : Wf h os) : ∃ a b, os = a ++ b ∧
    (b ++ [h.heapEnd]).head? = some h.lfree ∧ ∀ x ∈ os, x ∈ b ↔ h.lfree ≤ x := by
  rcases w.lfreeOk with hl | ⟨hm, -⟩
  · refine ⟨os, [], by simp, by simp [hl], fun x hx => ?_⟩
    have := w.tiled.lt_end hx
    simp; omega
  · obtain ⟨a, b, hab⟩ := List.append_of_mem hm
    have t : Tiled h (a ++ h.lfree :: b) := hab ▸ w.tiled
    refine ⟨a, h.lfree :: b, hab, rfl, fun x hx => ?_⟩
    rw [hab] at hx
    constructor
    · intro hx
      rcases List.mem_cons.1 hx with rfl | hx
      · exact le_rfl
      · have := t.order.2 x (List.mem_append_left _ hx); omega
    · intro hle
      rcases List.mem_append.1 hx with hx | hx
      · have := t.order.1 x hx; omega
      · exact hx

/-- `rt_malloc` takes an item exactly when one can serve the request. -/
theorem rtMalloc_spec (w : Wf h os) (n : ℕ) :
    (∃ x h' os', CanAlloc h n ∧ rtMalloc h n = some (h', some (blockAddr h x)) ∧
      Taken h h' os os' (blockSize n) x) ∨
    (¬CanAlloc h n ∧ (rtMalloc h n = none ∨ rtMalloc h n = some (h, none)) ∧
      (12 ≤ h.memSizeAligned → rtMalloc h n = some (h, none))) := by
  unfold rtMalloc
  simp only [minSizeAligned_eq]
  by_cases hn : n = 0
  · exact Or.inr ⟨fun hc => hc.1 hn, by simp [hn]⟩
  rw [if_neg hn]
  by_cases hM : rtAlign n > h.memSizeAligned
  · exact Or.inr ⟨fun hc => by have := hc.2.1; omega, by simp [hM]⟩
  rw [if_neg hM]
  obtain ⟨a, b, rfl, hst, hab⟩ := w.split_lfree
  have hlen := w.tiled.length_le
  rw [List.length_append] at hlen
  by_cases hsM : blockSize n ≤ h.memSizeAligned
  · rcases rtMallocLoop_spec (le_max_right _ _) hsM (blockSize_mod n) b a h.fuel _ w hst (by omega)
      with ⟨x, hx, hf, h', os', heq, ht⟩ | ⟨hno, heq⟩
    · have hxm : x ∈ a ++ b := List.mem_append_right _ hx
      have hit : IsItem h x := w.tiled.isItem_iff.2 (List.mem_append_left _ hxm)
      exact Or.inl ⟨x, h', os', ⟨hn, by omega, x, hit, (hab x hxm).1 hx, hf⟩, heq, ht⟩
    · refine Or.inr ⟨fun ⟨_, _, x, hit, hlx, hf⟩ => ?_, Or.inr heq, fun _ => heq⟩
      have hxm : x ∈ a ++ b := w.mem_of_free hit hf.1
      exact hno x ((hab x hxm).2 hlx) hf
  · -- the whole heap is smaller than the smallest block
    have hM12 : h.memSizeAligned < 12 := by unfold blockSize at hsM; omega
    have hE := w.tiled.endEq
    have hst' : h.lfree ∈ (a ++ b) ++ [h.heapEnd] := by
      rw [List.append_assoc]; exact List.mem_append_right _ (List.mem_of_head? hst)
    have hsz : 12 ≤ blockSize n := le_max_right _ _
    refine Or.inr ⟨fun ⟨_, _, x, _, _, hf⟩ => by have := hf.2.2; omega,
      rtMallocLoop_none w (fun x hx _ => ?_) _ _ hst', fun h12 => by omega⟩
    obtain ⟨hge, hle, -⟩ := w.tiled.next_ge hx
    rw [sub32_eq hge (by have := w.tiled.bound; omega)]
    unfold blockSize at hsM; omega

/-! ### `rt_realloc` -/

/-- What shrinking the block at `o` in place to `size` bytes does. -/
structure Shrunk (h h' : Heap) (os os' : List ℕ) (o size : ℕ) : Prop where
  wf : Wf h' os'
  area : SameArea h h'
  data : h'.data = h.data
  inUse : ∀ z, InUse h' os' z ↔ InUse h os z
  next : ∀ z, InUse h os z → z ≠ o → h'.next z = h.next z
  cut : h'.next o = o + 12 + size
  low : Lowest h os → (h.lfree < o ∨ h.lfree = h.next o ∧ h.next o ≠ h.heapEnd) → Lowest h' os'

/-- The block at `o` loses its bytes after `n - o`; they become a free item. -/
theorem shrink_spec (h₀ : Heap) (w : Wf h os) (ho : InUse h os o) (hn : o + 12 ≤ n)
    (hn' : n + 12 ≤ h.next o) (h4 : n % 4 = 0) (hx₀ : h₀.next = h.next) (hp₀ : h₀.prev = h.prev)
    (hu₀ : h₀.used = h.used) (ar₀ : SameArea h h₀) (hL₀ : h₀.lfree = h.lfree)
    (hd₀ : h₀.data = h.data) :
    ∃ os', Shrunk h (plugHoles (cutItem h₀ o n) n) os os' o (n - o - 12) := by
  obtain ⟨a, b, rfl⟩ := List.append_of_mem ho.1
  have t₀ : Tiled h₀ (a ++ o :: b) :=
    w.tiled.frame hx₀ hp₀ (by rw [hu₀]) ar₀.heapEnd ar₀.heapPtr ar₀.memSize
  have hoth := fun z hz => t₀.cut_other (z := z) hn (by rw [hx₀]; exact hn') hz
  have t₁ : Tiled (cutItem h₀ o n) (a ++ o :: n :: b) := t₀.cut hn (by rw [hx₀]; exact hn') h4
  have hu₁ : (cutItem h₀ o n).used = update h.used n 0 := by simp [hu₀]
  have hnx₁ := cutItem_next (h := h₀) (x := o) (n := n) (by omega)
  have ar₁ : SameArea h (cutItem h₀ o n) :=
    ar₀.trans ⟨by simp, by simp, by simp⟩
  have hL₁ : (cutItem h₀ o n).lfree = h.lfree := by simp [hL₀]
  have hd₁ : (cutItem h₀ o n).data = h.data := by simp [hd₀]
  obtain ⟨h₁, hh₁⟩ : ∃ h₁, h₁ = cutItem h₀ o n := ⟨_, rfl⟩
  rw [← hh₁] at t₁ hu₁ hnx₁ ar₁ hL₁ hd₁ ⊢
  have hold : ∀ z ∈ a ++ o :: b, h₁.used z = h.used z := fun z hz => by
    rw [hu₁, update_of_ne (hoth z hz).1]
  obtain ⟨hna, hnb⟩ := List.isChain_split.1 w.noAdj
  have t₁' : Tiled h₁ ((a ++ [o]) ++ n :: b) := by rwa [List.append_assoc, List.singleton_append]
  obtain ⟨os', t', hna', k, hlow'⟩ := plugHoles_spec t₁' (by simp [hu₁])
    (NoAdj.mono hna fun z hz hzu => by rwa [hold z (by simp at hz ⊢; tauto)] at hzu)
    (NoAdj.mono hnb.tail fun z hz hzu => by
      rwa [hold z (by simp at hz ⊢; tauto)] at hzu)
  have hmem : ∀ z, z ∈ (a ++ [o]) ++ n :: b ↔ z ∈ a ++ o :: b ∨ z = n := fun z => by simp; tauto
  have hlf₁ : LfreeOk h₁ ((a ++ [o]) ++ n :: b) := by
    unfold LfreeOk; rw [hL₁, ar₁.heapEnd]
    exact w.lfreeOk.imp id fun ⟨hm, hu⟩ => ⟨(hmem _).2 (Or.inl hm), by rw [hold _ hm, hu]⟩
  have hin : ∀ z, InUse (plugHoles h₁ n) os' z ↔ InUse h (a ++ o :: b) z := fun z => by
    unfold InUse; rw [k.used, hu₁]
    by_cases hzn : z = n
    · subst hzn
      have : z ∉ a ++ o :: b := fun hm => (hoth z hm).1 rfl
      simp only [this]; simp
    · have := k.mem z
      simp only [hu₁, update_of_ne hzn, hmem, hzn, or_false] at this ⊢
      tauto
  have hnx : ∀ z, InUse h (a ++ o :: b) z → (plugHoles h₁ n).next z = h₁.next z := fun z hz =>
    k.next z (by rw [hold z hz.1]; exact hz.2)
  have hnn : h₁.next n = h.next o := by
    rw [hnx₁, update_of_ne (by omega), update_self, hx₀]
  refine ⟨os', ⟨t', hna', k.lfreeOk hlf₁, fun z hz => ?_⟩,
    ar₁.trans ⟨k.heapPtr, k.heapEnd, k.memSize⟩, k.data.trans hd₁, hin, fun z hz hzo => ?_, ?_,
    fun hlow hc => hlow' (fun z hz hzn hzu => ?_) ?_ hlf₁⟩
  · rw [k.heapEnd, ar₁.heapEnd]; exact w.inside z ((hin z).1 hz)
  · rw [hnx z hz, hnx₁, update_of_ne hzo, update_of_ne (hoth z hz.1).1, hx₀]
  · rw [hnx o ho, hnx₁, update_self]; omega
  · have hm := ((hmem z).1 hz).resolve_right hzn
    rw [hL₁]; exact hlow z hm (by rwa [hold z hm] at hzu)
  · rw [hL₁, hnn, ar₁.heapEnd]
    rcases hc with hc | hc
    · exact Or.inl (by omega)
    · exact Or.inr hc

/-- The user bytes of the block at `o`. -/
def userSize (h : Heap) (o : ℕ) : ℕ := h.next o - o - 12

/-- The three ways `rt_realloc` answers for a live block. -/
inductive Realloced (h : Heap) (os : List ℕ) (o n : ℕ) : Option (Heap × Option ℕ) → Prop where
  /-- The request is refused or finds no room. -/
  | refused (hs : h.memSizeAligned < rtAlign n ∨
      userSize h o ≠ rtAlign n ∧ userSize h o ≤ rtAlign n + 24) :
      Realloced h os o n (some (h, none))
  /-- No block is found and the search does not end. -/
  | stuck (hs : userSize h o ≠ rtAlign n ∧ userSize h o ≤ rtAlign n + 24) :
      Realloced h os o n none
  /-- The block has the size already. -/
  | same (hs : userSize h o = rtAlign n) : Realloced h os o n (some (h, some (blockAddr h o)))
  /-- The block is shrunk in place. -/
  | shrunk (h' : Heap) (os' : List ℕ) (hs : rtAlign n + 24 < userSize h o)
      (hk : Shrunk h h' os os' o (rtAlign n)) :
      Realloced h os o n (some (h', some (blockAddr h o)))
  /-- The block moves to the item at `x`. -/
  | moved (x : ℕ) (h₁ h₂ h' : Heap) (os₁ os' : List ℕ)
      (hs : userSize h o ≠ rtAlign n ∧ userSize h o ≤ rtAlign n + 24)
      (hc : CanAlloc h (rtAlign n)) (ht : Taken h h₁ os os₁ (blockSize (rtAlign n)) x)
      (hd : h₂ = h₁.setData (rtMemcpy h₁.data (blockAddr h x) (blockAddr h o)
        (min (userSize h o) (rtAlign n)))) (hf : Freed h₂ h' os₁ os' o) :
      Realloced h os o n (some (h', some (blockAddr h x)))

/-- A heap with other bytes is as well formed. -/
theorem Wf.setData (w : Wf h os) (d : ℕ → UInt8) : Wf (h.setData d) os :=
  ⟨w.tiled.frame rfl rfl rfl rfl rfl rfl, w.noAdj, w.lfreeOk, w.inside⟩

/-! The paths of `rt_realloc` for a live block, in its order. -/

theorem rtRealloc_large (hM : h.memSizeAligned < rtAlign n) :
    rtRealloc h (some (blockAddr h o)) n = some (h, none) := by
  unfold rtRealloc
  exact if_pos hM

/-- The block at `o` after `size` bytes are cut off: the rest becomes a free item. -/
def cutBlock (h : Heap) (o size : ℕ) : Heap :=
  plugHoles (cutItem ((h.subUsed (userSize h o - size)).setMagic (o + 12 + size) heapMagic) o
    (o + 12 + size)) (o + 12 + size)

section Paths
variable (w : Wf h os) (ho : InUse h os o) (hM : rtAlign n ≤ h.memSizeAligned)

/-- The address passed leads back to the header, and the header to the size. -/
theorem Wf.live (w : Wf h os) (ho : InUse h os o) :
    ¬(blockAddr h o < h.heapPtr ∨ blockAddr h o ≥ h.heapPtr + h.heapEnd) ∧
      sub32 (sub32 (blockAddr h o) 12) h.heapPtr = o ∧
      sub32 (sub32 (h.next o) o) 12 = userSize h o := by
  have hin := w.inside o ho
  obtain ⟨hge, hle, -⟩ := w.tiled.next_ge ho.1
  have hbd := w.tiled.bound
  refine ⟨?_, header_of_block hbd hin.le, ?_⟩
  · unfold blockAddr; omega
  · rw [sub32_eq (a := h.next o) (by omega) (by omega), sub32_eq (by omega) (by omega)]; rfl

include w ho hM

theorem rtRealloc_same (hs : userSize h o = rtAlign n) :
    rtRealloc h (some (blockAddr h o)) n = some (h, some (blockAddr h o)) := by
  obtain ⟨hrange, hptr, hsize⟩ := w.live ho
  unfold rtRealloc
  simp only [sizeofStructMem_eq, hptr, if_neg hrange, hsize, if_neg (not_lt.2 hM)]
  exact if_pos hs

theorem rtRealloc_cut (hs : rtAlign n + 24 < userSize h o) :
    rtRealloc h (some (blockAddr h o)) n =
      some (cutBlock h o (rtAlign n), some (blockAddr h o)) := by
  obtain ⟨hrange, hptr, hsize⟩ := w.live ho
  unfold rtRealloc
  simp only [sizeofStructMem_eq, minSize_eq, hptr, if_neg hrange, hsize, if_neg (not_lt.2 hM)]
  rw [if_neg (by omega), if_pos (by omega)]
  rfl

variable (hs : userSize h o ≠ rtAlign n ∧ userSize h o ≤ rtAlign n + 24)
include hs

theorem rtRealloc_noRoom {r : Option (Heap × Option ℕ)} (hr : r = none ∨ r = some (h, none))
    (hm : rtMalloc h (rtAlign n) = r) : rtRealloc h (some (blockAddr h o)) n = r := by
  obtain ⟨hrange, hptr, hsize⟩ := w.live ho
  unfold rtRealloc
  simp only [sizeofStructMem_eq, minSize_eq, hptr, if_neg hrange, hsize, if_neg (not_lt.2 hM)]
  rw [if_neg hs.1, if_neg (by omega), hm]
  rcases hr with rfl | rfl <;> rfl

theorem rtRealloc_move {h₁ : Heap} {q : ℕ} (hm : rtMalloc h (rtAlign n) = some (h₁, some q)) :
    rtRealloc h (some (blockAddr h o)) n = some (rtFree (h₁.setData (rtMemcpy h₁.data q
      (blockAddr h o) (min (userSize h o) (rtAlign n)))) (some (blockAddr h o)), some q) := by
  obtain ⟨hrange, hptr, hsize⟩ := w.live ho
  unfold rtRealloc
  simp only [sizeofStructMem_eq, minSize_eq, hptr, if_neg hrange, hsize, if_neg (not_lt.2 hM)]
  rw [if_neg hs.1, if_neg (by omega), hm]

end Paths

theorem cutBlock_spec (w : Wf h os) (ho : InUse h os o) (hs : size + 24 < userSize h o)
    (h4 : size % 4 = 0) : ∃ os', Shrunk h (cutBlock h o size) os os' o size := by
  have ho4 := w.tiled.align o (List.mem_append_left _ ho.1)
  obtain ⟨os', hk⟩ := shrink_spec (n := o + 12 + size)
    ((h.subUsed (userSize h o - size)).setMagic (o + 12 + size) heapMagic)
    w ho (by omega) (by unfold userSize at hs; omega) (by omega) (by simp) (by simp) (by simp)
    ⟨by simp, by simp, by simp⟩ (by simp) (by simp)
  refine ⟨os', ?_⟩
  rwa [show o + 12 + size - o - 12 = size by omega] at hk

theorem rtRealloc_spec (w : Wf h os) (ho : InUse h os o) (n : ℕ) :
    Realloced h os o n (rtRealloc h (some (blockAddr h o)) n) := by
  by_cases hM : h.memSizeAligned < rtAlign n
  · rw [rtRealloc_large hM]; exact .refused (Or.inl hM)
  have hM := not_lt.1 hM
  by_cases hsame : userSize h o = rtAlign n
  · rw [rtRealloc_same w ho hM hsame]; exact .same hsame
  by_cases hsh : rtAlign n + 24 < userSize h o
  · obtain ⟨os', hk⟩ := cutBlock_spec w ho hsh (rtAlign_mod n)
    rw [rtRealloc_cut w ho hM hsh]
    exact .shrunk _ os' hsh hk
  have hs : userSize h o ≠ rtAlign n ∧ userSize h o ≤ rtAlign n + 24 := ⟨hsame, by omega⟩
  rcases rtMalloc_spec w (rtAlign n) with ⟨x, h₁, os₁, hc, heq, ht⟩ | ⟨-, heq | heq, -⟩
  · rw [rtRealloc_move w ho hM hs heq]
    have hne : InUse h₁ os₁ o := (ht.inUse o).2 (Or.inl ho)
    have ha : blockAddr h o = blockAddr (h₁.setData (rtMemcpy h₁.data (blockAddr h x)
        (blockAddr h o) (min (userSize h o) (rtAlign n)))) o := by
      unfold blockAddr; rw [Heap.setData_fields h₁ _ |>.2.2.2.1, ht.area.heapPtr]
    obtain ⟨os', hf⟩ := rtFree_spec (ht.wf.setData (rtMemcpy h₁.data (blockAddr h x)
        (blockAddr h o) (min (userSize h o) (rtAlign n)))) (o := o) hne
    rw [← ha] at hf
    exact .moved x h₁ _ _ os₁ os' hs hc ht rfl hf
  · rw [rtRealloc_noRoom w ho hM hs (Or.inl rfl) heq]; exact .stuck hs
  · rw [rtRealloc_noRoom w ho hM hs (Or.inr rfl) heq]; exact .refused (Or.inr hs)

end EasyCore.SmallMem
