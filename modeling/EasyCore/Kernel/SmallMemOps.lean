import EasyCore.Kernel.SmallMemInv

/-! What each operation of the small-memory allocator does to a well-formed heap. One lemma an
    operation: the items after the call, which of them are in use, and where `lfree` ends up. -/

namespace EasyCore.SmallMem
open Function Links Kernel

/-- `h'` lists `os'` where `h` listed `os`, with the same blocks in use at the same places. -/
structure Kept (h h' : Heap) (os os' : List ℕ) : Prop where
  used : h'.used = h.used
  heapPtr : h'.heapPtr = h.heapPtr
  heapEnd : h'.heapEnd = h.heapEnd
  memSize : h'.memSizeAligned = h.memSizeAligned
  data : h'.data = h.data
  mem : ∀ z, h.used z ≠ 0 → (z ∈ os' ↔ z ∈ os)
  next : ∀ z, h.used z ≠ 0 → h'.next z = h.next z
  lfreeOk : LfreeOk h os → LfreeOk h' os'

theorem Kept.refl (h : Heap) (os : List ℕ) : Kept h h os os :=
  ⟨rfl, rfl, rfl, rfl, rfl, fun _ _ => Iff.rfl, fun _ _ => rfl, id⟩

theorem Kept.trans {h h' h'' : Heap} {os os' os'' : List ℕ} (k : Kept h h' os os')
    (k' : Kept h' h'' os' os'') : Kept h h'' os os'' :=
  ⟨k'.used.trans k.used, k'.heapPtr.trans k.heapPtr, k'.heapEnd.trans k.heapEnd,
    k'.memSize.trans k.memSize, k'.data.trans k.data,
    fun z hz => (k'.mem z (k.used ▸ hz)).trans (k.mem z hz),
    fun z hz => (k'.next z (k.used ▸ hz)).trans (k.next z hz), fun hl => k'.lfreeOk (k.lfreeOk hl)⟩

/-! ### `plug_holes` -/

/-- `lfree` is below every free item but `o`. -/
def LowestBut (h : Heap) (os : List ℕ) (o : ℕ) : Prop :=
  ∀ z ∈ os, z ≠ o → h.used z = 0 → h.lfree ≤ z

variable {h : Heap} {os a b : List ℕ} {o : ℕ}

theorem plugHolesForward_spec (t : Tiled h (a ++ o :: b)) (ho : h.used o = 0) (hb : NoAdj h b) :
    ∃ b', Tiled (plugHolesForward h o) (a ++ o :: b') ∧
      Kept h (plugHolesForward h o) (a ++ o :: b) (a ++ o :: b') ∧ NoAdj h b' ∧
      (∀ z ∈ b'.head?, h.used z ≠ 0) ∧
      (LowestBut h (a ++ o :: b) o → (h.lfree ≤ o ∨ h.lfree = h.next o ∧ h.next o ≠ h.heapEnd) →
        LfreeOk h (a ++ o :: b) → Lowest (plugHolesForward h o) (a ++ o :: b')) := by
  obtain ⟨s, l, hs, hn, hgap⟩ := t.next_head
  have hos : o ≠ s := by omega
  by_cases hc : h.used s = 0 ∧ s ≠ h.heapEnd
  · -- the successor is free: it is swallowed
    obtain ⟨b', rfl⟩ : ∃ b', b = s :: b' := by
      cases b with
      | nil => simp at hs; exact absurd hs.1.symm hc.2
      | cons y b' => simp at hs; exact ⟨b', by rw [hs.1]⟩
    have heq : plugHolesForward h o =
        joinNext (if h.lfree = s then h.setLfree o else h) o s := by
      simp [plugHolesForward, hn, hos, hc.1, hc.2]
    have hnxt : (if h.lfree = s then h.setLfree o else h).next = h.next := by
      split <;> simp
    have hprv : (if h.lfree = s then h.setLfree o else h).prev = h.prev := by
      split <;> simp
    have husd : (if h.lfree = s then h.setLfree o else h).used = h.used := by
      split <;> simp
    have hsu := t.order.2
    have hlf : (plugHolesForward h o).lfree = if h.lfree = s then o else h.lfree := by
      rw [heq]; simp only [joinNext_fields]; split <;> rfl
    refine ⟨b', ?_, ⟨?_, ?_, ?_, ?_, ?_, ?_, ?_, ?_⟩, hb.tail, ?_, ?_⟩
    · rw [heq]
      exact (t.frame hnxt hprv (by rw [husd]) (by split <;> rfl) (by split <;> rfl)
        (by split <;> rfl)).join
    · rw [heq]; simp [husd]
    · rw [heq]; simp only [joinNext_fields]; split <;> rfl
    · rw [heq]; simp only [joinNext_fields]; split <;> rfl
    · rw [heq]; simp only [joinNext_fields]; split <;> rfl
    · rw [heq]; simp only [joinNext_fields]; split <;> rfl
    · intro z hz
      have : z ≠ s := fun e => hz (e ▸ hc.1)
      simp [this]
    · intro z hz
      have : z ≠ o := fun e => hz (e ▸ ho)
      rw [heq]; simp [hnxt, this]
    · intro hl
      have hE : (plugHolesForward h o).heapEnd = h.heapEnd := by
        rw [heq]; simp only [joinNext_fields]; split <;> rfl
      have hU : (plugHolesForward h o).used = h.used := by rw [heq]; simp [husd]
      unfold LfreeOk; rw [hE, hU, hlf]
      by_cases hls : h.lfree = s
      · simp [hls, ho]
      · rw [if_neg hls]
        rcases hl with hl | ⟨hm, hu⟩
        · exact Or.inl hl
        · refine Or.inr ⟨?_, hu⟩
          simpa [hls] using hm
    · intro z hz
      cases b' with
      | nil => simp at hz
      | cons y b'' =>
        obtain rfl : z = y := by simpa [eq_comm] using hz
        have := (List.isChain_cons_cons.1 hb).1
        tauto
    · intro hlow hlo _ z hz hzu
      rw [hlf]
      have hU : (plugHolesForward h o).used = h.used := by rw [heq]; simp [husd]
      rw [hU] at hzu
      have hzm : z ∈ a ++ o :: s :: b' := by simp at hz ⊢; tauto
      by_cases hls : h.lfree = s
      · rw [if_pos hls]
        by_cases hzo : z = o
        · exact le_of_eq hzo.symm
        · have := hlow z hzm hzo hzu; omega
      · rw [if_neg hls]
        have hlo : h.lfree ≤ o := by rcases hlo with h1 | ⟨h1, -⟩ <;> omega
        by_cases hzo : z = o
        · omega
        · exact hlow z hzm hzo hzu
  · have heq : plugHolesForward h o = h := by
      simp only [plugHolesForward, hn]
      rw [if_neg]; tauto
    rw [heq]
    refine ⟨b, t, Kept.refl _ _, hb, ?_, ?_⟩
    · intro z hz
      cases b with
      | nil => simp at hz
      | cons y b' =>
        have hzs : z = s := by simp at hz hs; rw [← hz, hs.1]
        have hle := t.lt_end (x := y) (by simp)
        have : s ≠ h.heapEnd := by simp at hs; omega
        rw [hzs]; tauto
    · intro hlow hlo hlf z hz hzu
      by_cases hzo : z = o
      · rcases hlo with h1 | ⟨h1, h2⟩
        · omega
        · rcases hlf with h3 | ⟨h3, h4⟩
          · exact absurd (h1.symm.trans h3) h2
          · exact absurd ⟨by rw [← hn, ← h1]; exact h4, by rw [← hn]; exact h2⟩ hc
      · exact hlow z hz hzo hzu

theorem plugHolesBackward_spec (t : Tiled h (a ++ o :: b)) (ho : h.used o = 0) (ha : NoAdj h a)
    (hb : NoAdj h b) (hbh : ∀ z ∈ b.head?, h.used z ≠ 0) :
    ∃ os', Tiled (plugHolesBackward h o) os' ∧ NoAdj h os' ∧
      Kept h (plugHolesBackward h o) (a ++ o :: b) os' ∧
      (Lowest h (a ++ o :: b) → Lowest (plugHolesBackward h o) os') := by
  have hob : NoAdj h (o :: b) := by
    cases b with
    | nil => exact .singleton _
    | cons y b => exact List.isChain_cons_cons.2 ⟨fun hc => hbh y (by simp) hc.2, hb⟩
  have hunch : (∀ z ∈ a.getLast?, h.used z ≠ 0) → NoAdj h (a ++ o :: b) := fun hl =>
    List.isChain_append.2 ⟨ha, hob, fun z hz y hy hc => hl z hz hc.1⟩
  rcases t.prev_last with ⟨rfl, hp⟩ | ⟨c, p, rfl, hp⟩
  · have heq : plugHolesBackward h o = h := by simp [plugHolesBackward, hp]
    rw [heq]
    exact ⟨_, t, hunch (by simp), Kept.refl _ _, id⟩
  · have hpo : p + 12 ≤ o := t.order.1 p (by simp)
    by_cases hpu : h.used p = 0
    · have heq : plugHolesBackward h o =
          joinNext (if h.lfree = o then h.setLfree p else h) p o := by
        simp [plugHolesBackward, hp, hpu, show p ≠ o by omega]
      have hnxt : (if h.lfree = o then h.setLfree p else h).next = h.next := by
        split <;> simp
      have hprv : (if h.lfree = o then h.setLfree p else h).prev = h.prev := by
        split <;> simp
      have husd : (if h.lfree = o then h.setLfree p else h).used = h.used := by
        split <;> simp
      have hlf : (plugHolesBackward h o).lfree = if h.lfree = o then p else h.lfree := by
        rw [heq]; simp only [joinNext_fields]; split <;> rfl
      have hE : (plugHolesBackward h o).heapEnd = h.heapEnd := by
        rw [heq]; simp only [joinNext_fields]; split <;> rfl
      have hU : (plugHolesBackward h o).used = h.used := by rw [heq]; simp [husd]
      have t' : Tiled h (c ++ p :: o :: b) := by
        simpa only [List.append_assoc, List.cons_append, List.nil_append] using t
      refine ⟨c ++ p :: b, ?_, ?_, ⟨hU, ?_, hE, ?_, ?_, ?_, ?_, ?_⟩, ?_⟩
      · rw [heq]
        exact (t'.frame hnxt hprv (by rw [husd]) (by split <;> rfl) (by split <;> rfl)
          (by split <;> rfl)).join
      · refine List.isChain_split.2 ⟨ha, ?_⟩
        cases b with
        | nil => exact .singleton _
        | cons y b => exact List.isChain_cons_cons.2 ⟨fun hc => hbh y (by simp) hc.2, hb⟩
      · rw [heq]; simp only [joinNext_fields]; split <;> rfl
      · rw [heq]; simp only [joinNext_fields]; split <;> rfl
      · rw [heq]; simp only [joinNext_fields]; split <;> rfl
      · intro z hz
        have : z ≠ o := fun e => hz (e ▸ ho)
        simp [this]
      · intro z hz
        have : z ≠ p := fun e => hz (e ▸ hpu)
        rw [heq]; simp [hnxt, this]
      · intro hl
        unfold LfreeOk; rw [hE, hU, hlf]
        by_cases hlo : h.lfree = o
        · simp [hlo, hpu]
        · rw [if_neg hlo]
          rcases hl with hl | ⟨hm, hu⟩
          · exact Or.inl hl
          · refine Or.inr ⟨?_, hu⟩
            simpa [hlo] using hm
      · intro hlow z hz hzu
        have hlp := hlow p (by simp) hpu
        rw [hU] at hzu
        have hzm : z ∈ (c ++ [p]) ++ o :: b := by simp at hz ⊢; tauto
        rw [hlf, if_neg (by omega)]
        exact hlow z hzm hzu
    · have heq : plugHolesBackward h o = h := by simp [plugHolesBackward, hp, hpu]
      rw [heq]
      refine ⟨_, t, hunch ?_, Kept.refl _ _, id⟩
      intro z hz
      obtain rfl : p = z := by simpa using hz
      exact hpu

/-- Joining a free item with its free neighbours restores `NoAdj` around it. -/
theorem plugHoles_spec (t : Tiled h (a ++ o :: b)) (ho : h.used o = 0) (ha : NoAdj h a)
    (hb : NoAdj h b) :
    ∃ os', Tiled (plugHoles h o) os' ∧ NoAdj (plugHoles h o) os' ∧
      Kept h (plugHoles h o) (a ++ o :: b) os' ∧
      (LowestBut h (a ++ o :: b) o → (h.lfree ≤ o ∨ h.lfree = h.next o ∧ h.next o ≠ h.heapEnd) →
        LfreeOk h (a ++ o :: b) → Lowest (plugHoles h o) os') := by
  obtain ⟨b', t₁, k₁, hb', hbh, hlow₁⟩ := plugHolesForward_spec t ho hb
  have hu := k₁.used
  obtain ⟨os', t₂, hna, k₂, hlow₂⟩ := plugHolesBackward_spec t₁ (hu ▸ ho)
    (by unfold NoAdj; rw [hu]; exact ha) (by unfold NoAdj; rw [hu]; exact hb') (by rwa [hu])
  refine ⟨os', t₂, ?_, k₁.trans k₂, fun h1 h2 h3 => hlow₂ (hlow₁ h1 h2 h3)⟩
  unfold NoAdj at hna ⊢
  rw [plugHoles, k₂.used]; exact hna

/-! ### `rt_free` -/

/-- The address handed out for the item at `x`. -/
def blockAddr (h : Heap) (x : ℕ) : ℕ := h.heapPtr + x + 12

/-- The header of a block, from its address. -/
theorem header_of_block (hbd : h.heapPtr + h.heapEnd + 12 < 2 ^ 32) (ho : o + 12 ≤ h.heapEnd) :
    sub32 (sub32 (blockAddr h o) 12) h.heapPtr = o := by
  unfold blockAddr
  rw [sub32_eq (a := h.heapPtr + o + 12) (by omega) (by omega), sub32_eq (by omega) (by omega)]
  omega

theorem NoAdj.mono {h h' : Heap} {os : List ℕ} (hn : NoAdj h os)
    (hu : ∀ z ∈ os, h'.used z = 0 → h.used z = 0) : NoAdj h' os :=
  List.IsChain.imp_of_mem_imp (fun _ _ hx hy hxy hc => hxy ⟨hu _ hx hc.1, hu _ hy hc.2⟩) hn

/-- `h'` has the heap's frame of `h`: nothing but headers, `lfree` and bytes may differ. -/
structure SameArea (h h' : Heap) : Prop where
  heapPtr : h'.heapPtr = h.heapPtr
  heapEnd : h'.heapEnd = h.heapEnd
  memSize : h'.memSizeAligned = h.memSizeAligned

theorem SameArea.trans {h h' h'' : Heap} (s : SameArea h h') (s' : SameArea h' h'') :
    SameArea h h'' :=
  ⟨s'.heapPtr.trans s.heapPtr, s'.heapEnd.trans s.heapEnd, s'.memSize.trans s.memSize⟩

/-- Up to `plug_holes`, freeing a block clears its mark and lowers `lfree` to it. -/
theorem rtFree_eq (hbd : h.heapPtr + h.heapEnd + 12 < 2 ^ 32) (ho : o + 12 < h.heapEnd) :
    ∃ h₃, rtFree h (some (blockAddr h o)) = plugHoles h₃ o ∧ SameArea h h₃ ∧ h₃.next = h.next ∧
      h₃.prev = h.prev ∧ h₃.used = update h.used o 0 ∧ h₃.data = h.data ∧
      h₃.lfree = min o h.lfree ∧ ∀ z, z ≠ o → h₃.hdr z = h.hdr z := by
  have hrange : ¬(blockAddr h o < h.heapPtr ∨ blockAddr h o ≥ h.heapPtr + h.heapEnd) := by
    unfold blockAddr; omega
  unfold rtFree
  simp only [sizeofStructMem_eq, header_of_block hbd ho.le, if_neg hrange]
  refine ⟨_, rfl, ?_⟩
  by_cases hc : o < h.lfree
  · rw [if_pos (by simpa using hc)]
    exact ⟨⟨by simp, by simp, by simp⟩, by simp, by simp, by simp, by simp, by simp; omega,
      fun z hz => by simp [hz]⟩
  · rw [if_neg (by simpa using hc)]
    exact ⟨⟨by simp, by simp, by simp⟩, by simp, by simp, by simp, by simp, by simp; omega,
      fun z hz => by simp [hz]⟩

/-- What freeing the item at `o` does to the items in use. -/
structure Freed (h h' : Heap) (os os' : List ℕ) (o : ℕ) : Prop where
  wf : Wf h' os'
  area : SameArea h h'
  data : h'.data = h.data
  inUse : ∀ z, InUse h' os' z ↔ InUse h os z ∧ z ≠ o
  next : ∀ z, InUse h os z → z ≠ o → h'.next z = h.next z
  low : Lowest h os → Lowest h' os'

theorem rtFree_spec (w : Wf h os) (hx : InUse h os o) :
    ∃ os', Freed h (rtFree h (some (blockAddr h o))) os os' o := by
  have hlt := w.inside o hx
  obtain ⟨ho, hou⟩ := hx
  obtain ⟨h₃, heq, ar₃, hn₃, hp₃, hu₃, hd₃, hl₃, -⟩ := rtFree_eq w.tiled.bound hlt
  obtain ⟨a, b, rfl⟩ := List.append_of_mem ho
  have hoe : h.heapEnd ≠ o := by omega
  obtain ⟨hlo, hhi⟩ := w.tiled.order
  have t₃ : Tiled h₃ (a ++ o :: b) :=
    w.tiled.frame hn₃ hp₃ (by rw [hu₃]; simp [hoe]) ar₃.heapEnd ar₃.heapPtr ar₃.memSize
  obtain ⟨ha, hb⟩ := List.isChain_split.1 w.noAdj
  have ha₃ : NoAdj h₃ a := NoAdj.mono (h := h) ha.left_of_append fun z hz hu => by
    have := hlo z hz
    rwa [hu₃, update_of_ne (by omega)] at hu
  have hb₃ : NoAdj h₃ b := NoAdj.mono (h := h) hb.tail fun z hz hu => by
    have := hhi z (List.mem_append_left _ hz)
    rwa [hu₃, update_of_ne (by omega)] at hu
  have hlf₃ : LfreeOk h₃ (a ++ o :: b) := by
    unfold LfreeOk; rw [hl₃, ar₃.heapEnd, hu₃]
    right
    by_cases hc : o ≤ h.lfree
    · rw [min_eq_left hc]; simp
    · have hne : h.lfree ≠ o := by omega
      rw [min_eq_right (by omega)]
      rcases w.lfreeOk with hl | ⟨hm, hu⟩
      · omega
      · exact ⟨hm, by simpa [hne] using hu⟩
  obtain ⟨os', t', hna', k, hlow'⟩ := plugHoles_spec t₃ (by simp [hu₃]) ha₃ hb₃
  rw [← heq] at t' hna' k hlow'
  have hin : ∀ z, InUse (rtFree h (some (blockAddr h o))) os' z ↔
      InUse h (a ++ o :: b) z ∧ z ≠ o := fun z => by
    unfold InUse; rw [k.used, hu₃]
    by_cases hzo : z = o
    · subst hzo; simp
    · have := k.mem z
      simp only [hu₃, update_of_ne hzo] at this ⊢
      tauto
  refine ⟨os', ⟨t', hna', k.lfreeOk hlf₃, fun z hz => ?_⟩, ?_, k.data.trans hd₃, hin,
    fun z hz hzo => ?_, fun hlow => ?_⟩
  · rw [k.heapEnd, ar₃.heapEnd]; exact w.inside z ((hin z).1 hz).1
  · exact ar₃.trans ⟨k.heapPtr, k.heapEnd, k.memSize⟩
  · rw [k.next z (by rw [hu₃, update_of_ne hzo]; exact hz.2), hn₃]
  · refine hlow' (fun z hz hzo hzu => ?_) (Or.inl (by rw [hl₃]; omega)) hlf₃
    rw [hu₃, update_of_ne hzo] at hzu
    have := hlow z hz hzu
    rw [hl₃]; omega

/-! ### `rt_malloc` -/

/-- The walk to the next free item: it stops at the first one, or at `heap_end`. -/
theorem nextFree_spec : ∀ (l : List ℕ) (fuel start : ℕ), Fwd h.next (l ++ [h.heapEnd]) →
    h.heapEnd ∉ l → (l ++ [h.heapEnd]).head? = some start → l.length < fuel →
    ∃ y, nextFree h fuel start = some y ∧
      ((y = h.heapEnd ∧ ∀ z ∈ l, h.used z ≠ 0) ∨
        ∃ l₁ l₂, l = l₁ ++ y :: l₂ ∧ h.used y = 0 ∧ ∀ z ∈ l₁, h.used z ≠ 0)
  | [], fuel + 1, start, _, _, hs, _ => by
    obtain rfl : start = h.heapEnd := by simpa [eq_comm] using hs
    exact ⟨h.heapEnd, by simp [nextFree], Or.inl ⟨rfl, by simp⟩⟩
  | z :: l, fuel + 1, start, hf, he, hs, hlen => by
    obtain rfl : start = z := by simpa [eq_comm] using hs
    by_cases hu : h.used start = 0
    · exact ⟨start, by simp [nextFree, hu], Or.inr ⟨[], l, rfl, hu, by simp⟩⟩
    · have hse : start ≠ h.heapEnd := fun e => he (by simp [← e])
      have hhd : (l ++ [h.heapEnd]).head? = some (h.next start) := by
        cases l with
        | nil => simpa using (List.isChain_cons_cons.1 hf).1.symm
        | cons y l => simpa using (List.isChain_cons_cons.1 hf).1.symm
      obtain ⟨y, hy, hcase⟩ := nextFree_spec l fuel _ hf.tail
        (fun hm => he (List.mem_cons_of_mem _ hm)) hhd (by simpa using hlen)
      refine ⟨y, by simp [nextFree, hu, hse, hy], ?_⟩
      rcases hcase with ⟨rfl, hall⟩ | ⟨l₁, l₂, rfl, hyu, hl₁⟩
      · exact Or.inl ⟨rfl, by simp [hu]; simpa using hall⟩
      · exact Or.inr ⟨start :: l₁, l₂, rfl, hyu, by simp [hu]; simpa using hl₁⟩

/-- The end of a successful allocation: when the item taken was the lowest free one, `lfree` moves
    on to the next. -/
theorem moveLfree_spec {x : ℕ} (t : Tiled h os) (hx : x ∈ os)
    (hl : h.lfree = x ∨ LfreeOk h os) (r : Option ℕ) :
    ∃ l, (if x = h.lfree then
        (nextFree h h.fuel h.lfree).map fun l => (h.setLfree l, r) else some (h, r)) =
        some (h.setLfree l, r) ∧ LfreeOk (h.setLfree l) os ∧
      (Lowest h os → Lowest (h.setLfree l) os) := by
  by_cases hc : x = h.lfree
  · obtain ⟨a, b, rfl⟩ := List.append_of_mem hx
    have hf : Fwd h.next ((x :: b) ++ [h.heapEnd]) := by
      have := t.fwd
      rw [List.append_assoc] at this
      exact List.IsChain.right_of_append this
    have he : h.heapEnd ∉ x :: b := fun hm => by
      have := t.lt_end (x := h.heapEnd) (List.mem_append_right _ hm); omega
    have hlen := t.length_le
    simp only [List.length_append, List.length_cons] at hlen
    obtain ⟨y, hy, hcase⟩ := nextFree_spec (x :: b) h.fuel x hf he (by simp)
      (by simp only [List.length_cons]; omega)
    refine ⟨y, by rw [if_pos hc, ← hc, hy]; rfl, ?_, ?_⟩
    · rcases hcase with ⟨rfl, -⟩ | ⟨l₁, l₂, hl, hyu, -⟩
      · exact Or.inl rfl
      · exact Or.inr ⟨by rw [hl]; simp, hyu⟩
    · intro hlow z hz hzu
      have hzu : h.used z = 0 := hzu
      have hxz := hlow z hz hzu
      show y ≤ z
      have hzb : z ∈ x :: b := by
        rcases List.mem_append.1 hz with hza | hzb
        · have := t.order.1 z hza; omega
        · exact hzb
      rcases hcase with ⟨-, hall⟩ | ⟨l₁, l₂, hl, -, hl₁⟩
      · exact absurd hzu (hall z hzb)
      · rw [hl] at hzb
        rcases List.mem_append.1 hzb with hz₁ | hz₂
        · exact absurd hzu (hl₁ z hz₁)
        · rcases List.mem_cons.1 hz₂ with rfl | hz₂
          · exact le_rfl
          · have t' : Tiled h ((a ++ l₁) ++ y :: l₂) := by rwa [List.append_assoc, ← hl]
            have := t'.order.2 z (List.mem_append_left _ hz₂); omega
  · exact ⟨h.lfree, by rw [if_neg hc]; rfl, hl.resolve_left (Ne.symm hc), id⟩

/-- What a successful allocation of `size` bytes from the item at `x` does. -/
structure Taken (h h' : Heap) (os os' : List ℕ) (size x : ℕ) : Prop where
  wf : Wf h' os'
  area : SameArea h h'
  data : h'.data = h.data
  fresh : x ∈ os ∧ h.used x = 0
  inUse : ∀ z, InUse h' os' z ↔ InUse h os z ∨ z = x
  next : ∀ z, InUse h os z → h'.next z = h.next z
  room : x + 12 + size ≤ h'.next x
  low : Lowest h os → Lowest h' os'

/-- The item at `x` is marked; it is listed in `os'` with room for `size` bytes. Moving `lfree` on
    completes the allocation. -/
theorem taken_of_marked {h₁ : Heap} {os' : List ℕ} {x size : ℕ} (w : Wf h os) (hx : x ∈ os)
    (hxu : h.used x = 0) (hsz : 0 < size) (t : Tiled h₁ os') (hna : NoAdj h₁ os')
    (ar : SameArea h h₁) (hd : h₁.data = h.data) (hL : h₁.lfree = h.lfree)
    (hin : ∀ z, InUse h₁ os' z ↔ InUse h os z ∨ z = x)
    (hfree : ∀ z ∈ os', h₁.used z = 0 → z ∈ os ∧ h.used z = 0 ∨ x ≤ z)
    (hkeep : ∀ z ∈ os, z ≠ x → h.used z = 0 → z ∈ os' ∧ h₁.used z = 0)
    (hnext : ∀ z, InUse h os z → h₁.next z = h.next z) (hroom : x + 12 + size ≤ h₁.next x) :
    ∃ h', (if x = h₁.lfree then (nextFree h₁ h₁.fuel h₁.lfree).map
        fun l => (h₁.setLfree l, some (blockAddr h x)) else
          some (h₁, some (blockAddr h x))) = some (h', some (blockAddr h x)) ∧
      Taken h h' os os' size x := by
  have hl₁ : h₁.lfree = x ∨ LfreeOk h₁ os' := by
    by_cases hlx : h.lfree = x
    · exact Or.inl (hL.trans hlx)
    · right; unfold LfreeOk; rw [hL, ar.heapEnd]
      exact w.lfreeOk.imp id fun ⟨hm, hu⟩ => hkeep _ hm hlx hu
  have hx' : x ∈ os' := ((hin x).2 (Or.inr rfl)).1
  obtain ⟨l, hl, hlf, hlow⟩ := moveLfree_spec t hx' hl₁ (some (blockAddr h x))
  refine ⟨_, hl, ⟨⟨?_, hna, hlf, fun z hz => ?_⟩, ⟨ar.heapPtr, ar.heapEnd, ar.memSize⟩, hd,
    ⟨hx, hxu⟩, hin, hnext, hroom, fun hlw => hlow fun z hz hzu => ?_⟩⟩
  · exact t.frame rfl rfl rfl rfl rfl rfl
  · show z + 12 < h₁.heapEnd
    rcases (hin z).1 hz with hz | rfl
    · rw [ar.heapEnd]; exact w.inside z hz
    · have := (t.next_ge hx').2.1; omega
  · rw [hL]
    rcases hfree z hz hzu with ⟨hzo, hzu⟩ | hxz
    · exact hlw z hzo hzu
    · have := hlw x hx hxu; omega

/-- The items after `x` start at or behind its end. -/
theorem Tiled.next_le {x z : ℕ} (t : Tiled h (a ++ x :: b)) (hz : z ∈ b) : h.next x ≤ z := by
  have hxz := t.order.2 z (List.mem_append_left _ hz)
  have hap := t.apart (x := x) (y := z) (by simp) (by simp [hz]) (by omega)
  have := (t.next_ge (x := z) (by simp [hz])).1
  omega

theorem cutItem_next {x n : ℕ} (hxn : x ≠ n) :
    (cutItem h x n).next = update (update h.next n (h.next x)) x n := by
  unfold cutItem; dsimp only; split <;> simp [hxn.symm]

/-- The cut at `n` inside the item at `x` leaves every other item alone. -/
theorem Tiled.cut_other {x n z : ℕ} (t : Tiled h (a ++ x :: b)) (hn : x + 12 ≤ n)
    (hn' : n + 12 ≤ h.next x) (hz : z ∈ a ++ x :: b) : z ≠ n ∧ (z ≠ x →
      (cutItem h x n).next z = h.next z) := by
  have hzn : z ≠ n := by
    rcases List.mem_append.1 hz with hz | hz
    · have := t.order.1 z hz; omega
    · rcases List.mem_cons.1 hz with rfl | hz
      · omega
      · have := t.next_le hz; omega
  refine ⟨hzn, fun hzx => ?_⟩
  rw [cutItem_next (by omega), update_of_ne hzx, update_of_ne hzn]

theorem takeItem_spec {x size : ℕ} (w : Wf h (a ++ x :: b)) (hxu : h.used x = 0) (hsz : 0 < size)
    (hroom : x + 12 + size ≤ h.next x) (h4 : size % 4 = 0) :
    ∃ h' os', takeItem h size x = some (h', some (blockAddr h x)) ∧
      Taken h h' (a ++ x :: b) os' size x := by
  obtain ⟨hge, hle, hn4⟩ := w.tiled.next_ge (x := x) (by simp)
  have hbd := w.tiled.bound
  have hx4 := w.tiled.align x (by simp)
  have hxe : h.heapEnd ≠ x := by omega
  have hsub : sub32 (h.next x) (x + 12) = h.next x - (x + 12) := sub32_eq hge (by omega)
  obtain ⟨hna, hnb⟩ := List.isChain_split.1 w.noAdj
  unfold takeItem
  simp only [sizeofStructMem_eq, minSizeAligned_eq, hsub]
  by_cases hsplit : h.next x - (x + 12) ≥ size + 12 + 12
  · -- the rest becomes an item of its own, at `n`
    obtain ⟨n, hn⟩ : ∃ n, n = x + 12 + size := ⟨_, rfl⟩
    have hnn : n + 12 ≤ h.next x := by omega
    have hxn : x ≠ n := by omega
    have t₁ : Tiled (cutItem h x n) (a ++ x :: n :: b) := w.tiled.cut (by omega) hnn (by omega)
    have hoth := fun z hz => w.tiled.cut_other (z := z) (n := n) (by omega) hnn hz
    rw [if_pos hsplit, ← hn]
    obtain ⟨h₁, hh₁⟩ : ∃ h₁, h₁ =
        (((cutItem h x n).setUsed x 1).addUsed (size + 12)).setMagic x heapMagic := ⟨_, rfl⟩
    have hu₁ : h₁.used = update (update h.used n 0) x 1 := by simp [hh₁]
    have hnx₁ : h₁.next = (cutItem h x n).next := by simp [hh₁]
    have ar₁ : SameArea h h₁ := ⟨by simp [hh₁], by simp [hh₁], by simp [hh₁]⟩
    have hL₁ : h₁.lfree = h.lfree := by simp [hh₁]
    have hd₁ : h₁.data = h.data := by simp [hh₁]
    have t₂ : Tiled h₁ (a ++ x :: n :: b) :=
      t₁.frame hnx₁ (by simp [hh₁]) (by rw [hu₁]; simp [hxe]) (by simp [hh₁]) (by simp [hh₁])
        (by simp [hh₁])
    rw [← hh₁]; clear hh₁
    have hux : h₁.used x = 1 := by simp [hu₁]
    have hun : h₁.used n = 0 := by simp [hu₁, hxn.symm]
    have hold : ∀ z ∈ a ++ x :: b, z ≠ x → h₁.used z = h.used z := fun z hz hzx => by
      rw [hu₁, update_of_ne hzx, update_of_ne (hoth z hz).1]
    have hzxa : ∀ z ∈ a, z ≠ x := fun z hz => by have := w.tiled.order.1 z hz; omega
    have hzxb : ∀ z ∈ b, z ≠ x := fun z hz => by
      have := w.tiled.order.2 z (List.mem_append_left _ hz); omega
    have hna₁ : NoAdj h₁ (a ++ x :: n :: b) := by
      refine List.isChain_append_cons_cons.2 ⟨?_, by rw [hux]; omega, ?_⟩
      · refine NoAdj.mono hna fun z hz hzu => ?_
        rcases List.mem_append.1 hz with hz | hz
        · rwa [hold z (by simp [hz]) (hzxa z hz)] at hzu
        · rw [List.mem_singleton.1 hz]; exact hxu
      · cases b with
        | nil => exact .singleton _
        | cons y b =>
          obtain ⟨hxy, hb⟩ := List.isChain_cons_cons.1 hnb
          have hub : ∀ z ∈ y :: b, h₁.used z = h.used z := fun z hz =>
            hold z (by simp at hz ⊢; tauto) (hzxb z hz)
          refine List.isChain_cons_cons.2 ⟨fun hc => hxy ⟨hxu, ?_⟩, NoAdj.mono hb fun z hz hzu => ?_⟩
          · rw [← hub y (by simp)]; exact hc.2
          · rwa [hub z hz] at hzu
    have hmem : ∀ z, z ∈ a ++ x :: n :: b ↔ z ∈ a ++ x :: b ∨ z = n := fun z => by simp; tauto
    have hin : ∀ z, InUse h₁ (a ++ x :: n :: b) z ↔ InUse h (a ++ x :: b) z ∨ z = x := fun z => by
      unfold InUse; rw [hmem]
      by_cases hzx : z = x
      · subst hzx; simp [hux]
      · by_cases hzn : z = n
        · subst hzn
          have : z ∉ a ++ x :: b := fun hm => (hoth z hm).1 rfl
          simp only [hun, hzx, this]; simp
        · by_cases hm : z ∈ a ++ x :: b
          · rw [hold z hm hzx]; simp only [hm, hzx]; simp
          · simp only [hm, hzx, hzn]; simp
    have hfree : ∀ z ∈ a ++ x :: n :: b, h₁.used z = 0 →
        z ∈ a ++ x :: b ∧ h.used z = 0 ∨ x ≤ z := fun z hz hzu => by
      rcases (hmem z).1 hz with hm | rfl
      · by_cases hzx : z = x
        · exact Or.inr (by omega)
        · exact Or.inl ⟨hm, by rwa [hold z hm hzx] at hzu⟩
      · exact Or.inr (by omega)
    have hnext : ∀ z, InUse h (a ++ x :: b) z → h₁.next z = h.next z := fun z hz => by
      rw [hnx₁]; exact (hoth z hz.1).2 fun e => hz.2 (e ▸ hxu)
    obtain ⟨h', heq, htk⟩ := taken_of_marked w (by simp) hxu hsz t₂ hna₁ ar₁ hd₁ hL₁ hin hfree
      (fun z hz hzx hzu => ⟨(hmem z).2 (Or.inl hz), by rw [hold z hz hzx, hzu]⟩) hnext
      (by rw [hnx₁, cutItem_next hxn, update_self]; omega)
    refine ⟨h', _, ?_, htk⟩
    rw [← heq]; simp only [ar₁.heapPtr]; rfl
  · -- near or exact fit: the item is taken whole
    rw [if_neg hsplit]
    obtain ⟨h₁, hh₁⟩ : ∃ h₁, h₁ =
        ((h.setUsed x 1).addUsed (sub32 (h.next x) x)).setMagic x heapMagic := ⟨_, rfl⟩
    have hu₁ : h₁.used = update h.used x 1 := by simp [hh₁]
    have hnx₁ : h₁.next = h.next := by simp [hh₁]
    have ar₁ : SameArea h h₁ := ⟨by simp [hh₁], by simp [hh₁], by simp [hh₁]⟩
    have hL₁ : h₁.lfree = h.lfree := by simp [hh₁]
    have hd₁ : h₁.data = h.data := by simp [hh₁]
    have t₁ : Tiled h₁ (a ++ x :: b) :=
      w.tiled.frame hnx₁ (by simp [hh₁]) (by rw [hu₁]; simp [hxe]) (by simp [hh₁]) (by simp [hh₁])
        (by simp [hh₁])
    rw [← hh₁]; clear hh₁
    have hold : ∀ z, z ≠ x → h₁.used z = h.used z := fun z hzx => by rw [hu₁, update_of_ne hzx]
    have hux : h₁.used x = 1 := by simp [hu₁]
    have hna₁ : NoAdj h₁ (a ++ x :: b) := NoAdj.mono w.noAdj fun z _ hzu => by
      by_cases hzx : z = x
      · rw [hzx]; exact hxu
      · rwa [hold z hzx] at hzu
    have hin : ∀ z, InUse h₁ (a ++ x :: b) z ↔ InUse h (a ++ x :: b) z ∨ z = x := fun z => by
      unfold InUse
      by_cases hzx : z = x
      · subst hzx; simp [hux]
      · simp only [hold z hzx, hzx]; simp
    have hfree : ∀ z ∈ a ++ x :: b, h₁.used z = 0 →
        z ∈ a ++ x :: b ∧ h.used z = 0 ∨ x ≤ z := fun z hz hzu => by
      by_cases hzx : z = x
      · exact Or.inr (by omega)
      · exact Or.inl ⟨hz, by rwa [hold z hzx] at hzu⟩
    obtain ⟨h', heq, htk⟩ := taken_of_marked w (by simp) hxu hsz t₁ hna₁ ar₁ hd₁ hL₁ hin hfree
      (fun z hz hzx hzu => ⟨hz, by rw [hold z hzx, hzu]⟩) (fun z _ => by rw [hnx₁])
      (by rw [hnx₁]; exact hroom)
    refine ⟨h', _, ?_, htk⟩
    rw [← heq]; simp only [ar₁.heapPtr]; rfl

end EasyCore.SmallMem
