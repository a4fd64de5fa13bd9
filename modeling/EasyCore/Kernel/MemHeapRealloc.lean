import EasyCore.Kernel.MemHeapOps

/-! `rt_memheap_realloc` on a heap that satisfies `Inv`: the block grows into the free item behind
    it, is cut in place, or moves. -/

namespace EasyCore.MemHeap
open Function Kernel Links

variable {h h' : Memheap} {bs fs a b c d : List ℕ} {e x y z n m : ℕ}

/-- What giving the block at `x` a new end at `n` does. -/
structure Resized (h h' : Memheap) (bs bs' fs' : List ℕ) (e x n : ℕ) : Prop where
  inv : Inv h' bs' fs' e
  area : SameArea h h'
  inUse : ∀ z, InUse h' bs' z ↔ InUse h bs z
  next : ∀ z, InUse h bs z → z ≠ x → h'.next z = h.next z
  cut : h'.next x = n

theorem insertFree_memitemSize (g : Memheap) (z n : ℕ) :
    (insertFree g n).memitemSize z = g.memitemSize z := by
  unfold Memheap.memitemSize
  rw [(insertFree_same g n).1.next]

/-- Counting bytes and putting an item into the free ring commute. -/
theorem giveAvailable_insertFree (g : Memheap) (n v : ℕ) :
    giveAvailable (insertFree g n) v = insertFree (giveAvailable g v) n := rfl

/-- The merge behind a cut. The new item's bytes are not counted yet; with them the count is right
    again. -/
theorem cutMerge_spec (f : Freeing h a b fs e n true)
    (hav : h.availableSize = (fs.map (size h)).sum) :
    ∃ b' fs', Freeing (cutMerge h n) a b' fs' e n true ∧
      (∀ y ∈ b'.head?, (cutMerge h n).isUsed y) ∧
      (cutMerge h n).availableSize + size (cutMerge h n) n =
        ((n :: fs').map (size (cutMerge h n))).sum ∧
      SameArea h (cutMerge h n) ∧ (∀ z, (cutMerge h n).isUsed z ↔ h.isUsed z) ∧
      (∀ z, z ≠ n → (cutMerge h n).next z = h.next z) ∧
      ∀ z, h.isUsed z → (z ∈ a ++ n :: b' ↔ z ∈ a ++ n :: b) := by
  rcases f.behind with ⟨hu, hb⟩ | ⟨y, b, rfl, hny, hu⟩
  · have heq : cutMerge h n = h := by unfold cutMerge; rw [if_neg (not_not.2 hu)]
    rw [heq]
    refine ⟨b, fs, f, hb, ?_, SameArea.refl h, fun z => Iff.rfl, fun z _ => rfl, fun z _ => Iff.rfl⟩
    rw [hav, List.map_cons, List.sum_cons, Nat.add_comm]
  · have hyb : y ∈ a ++ n :: y :: b := by simp
    have hsy := f.blocks.memitemSize_eq hyb
    obtain ⟨g, hg⟩ : ∃ g, g = h.setAvailable (sub32 h.availableSize (size h y)) := ⟨_, rfl⟩
    obtain ⟨sbg, hmg, hnfg, hpfg, hag⟩ := setAvailable_same h (sub32 h.availableSize (size h y))
    rw [← hg] at sbg hmg hnfg hpfg hag
    have hug : ∀ z, g.isUsed z ↔ h.isUsed z := fun z => isUsed_congr (by rw [hmg])
    have heq : cutMerge h n = unlinkFree (joinNext g n) y := by
      unfold cutMerge
      rw [if_pos (by rw [hny]; exact hu)]
      dsimp only
      rw [hny, hsy, hg]
    have fg := f.frame sbg hmg hnfg hpfg
    obtain ⟨fs', f', hb', hsum, hu', hn'⟩ := fg.joinRight fun hc => hu ((hug y).1 hc)
    obtain ⟨-, hnext, -⟩ := fg.blocks.joinNext
    rw [← heq] at f' hb' hsum hu' hn'
    have hyfs : y ∈ fs := by
      have hm : y ∈ withItem true n fs := (f.mem_free y).2 ⟨hyb, hu⟩
      have hny' : y ≠ n := by
        have := f.blocks.order.2 y (by simp); omega
      exact (List.mem_cons.1 hm).resolve_left hny'
    obtain ⟨c, d, rfl⟩ := List.append_of_mem hyfs
    have hsg : ∀ z, size g z = size h z := fun z => by unfold size; rw [sbg.next]
    -- the new item takes over the header and the bytes of the one it swallows
    have hsn : size (cutMerge h n) n = size h n + 24 + size h y := by
      have h1 : (cutMerge h n).next n = h.next y := by
        rw [heq, (unlinkFree_same _ y).1.next, hnext, sbg.next]
      have h2 : n + 24 ≤ y := f.blocks.order.2 y (by simp)
      have h3 := (f.blocks.next_ge hyb).1
      unfold size; rw [h1, hny]; omega
    have havg : (cutMerge h n).availableSize = h.availableSize - size h y := by
      have hlt : h.availableSize < 2 ^ 32 := by
        have := f.sum_lt
        simp only [withItem, if_true, List.map_cons, List.sum_cons] at this
        omega
      rw [sum_split] at hav
      rw [heq, (unlinkFree_same _ y).2.2, (joinNext_same g n).2.2.2.2, hag,
        sub32_eq (by omega) hlt]
    refine ⟨b, fs', f', hb', ?_, ?_, fun z => (hu' z).trans (hug z), fun z hz => ?_, fun z hzu => ?_⟩
    · have h1 := hsum
      simp only [withItem, if_true] at h1
      rw [List.map_cons, List.sum_cons] at h1 ⊢
      rw [h1, List.map_congr_left (fun z _ => hsg z), List.map_cons, List.sum_cons, sum_split,
        havg, hav, sum_split, hsn]
      omega
    · rw [heq]
      exact sbg.toSameArea.trans ((joinNext_same g n).1.trans (unlinkFree_same _ y).1.toSameArea)
    · rw [hn' z hz, sbg.next]
    · have hzy : z ≠ y := fun e => hu (e ▸ hzu)
      simp [hzy]

/-- The block at `x`, larger than `m` bytes by more than an item, is cut after `m` bytes. -/
theorem shrinkTo_spec (i : Inv h bs fs e) (hx : InUse h bs x) (hm : m + 36 ≤ size h x) :
    ∃ bs' fs', Resized h (shrinkTo h x m) bs bs' fs' e x (x + m + 24) := by
  obtain ⟨hxb, hxu⟩ := hx
  obtain ⟨a, b, rfl⟩ := List.append_of_mem hxb
  obtain ⟨hge, hle⟩ := i.blocks.next_ge hxb
  have hbd := i.blocks.bound
  have hte := i.blocks.tailEnd
  have hsz : size h x = h.next x - x - 24 := rfl
  obtain ⟨n, hn⟩ : ∃ n, n = x + m + 24 := ⟨_, rfl⟩
  have hmod : (x + m + memheapSize) % 2 ^ 32 = n := by rw [memheapSize_eq]; omega
  obtain ⟨k₁, hxn₁, hnn₁, hno₁⟩ := i.blocks.insertItem (n := n) (by omega) (by omega)
  obtain ⟨ar₁, hm₁, hnf₁, hpf₁, hav₁⟩ := insertItem_same h x n
  obtain ⟨h₁, hh₁⟩ : ∃ h₁, h₁ = insertItem h x n := ⟨_, rfl⟩
  rw [← hh₁] at k₁ hxn₁ hnn₁ hno₁ ar₁ hm₁ hnf₁ hpf₁ hav₁
  have hnb : n ∉ a ++ x :: b := i.blocks.inside hxb (by omega) (by omega)
  have hnfs : n ∉ fs := fun hmem => hnb ((i.mem_free n).1 hmem).1
  have hxfs : x ∉ fs := fun hmem => ((i.mem_free x).1 hmem).2 hxu
  have hun : ¬h₁.isUsed n := isUsed_of_magic (by rw [hm₁, update_self])
  have huo : ∀ z, z ≠ n → (h₁.isUsed z ↔ h.isUsed z) := fun z hz =>
    isUsed_congr (by rw [hm₁, update_of_ne hz])
  have hne : ∀ z ∈ a ++ x :: b, z ≠ n := fun z hz e => hnb (e ▸ hz)
  obtain ⟨hnl, hnr⟩ := List.isChain_split.1 i.noAdj
  have hmem₁ : ∀ z, z ∈ n :: fs ↔ z ∈ (a ++ [x]) ++ n :: b ∧ ¬h₁.isUsed z := fun z => by
    by_cases hzn : z = n
    · subst hzn; simp [hun]
    · have h1 : z ∈ n :: fs ↔ z ∈ fs := by simp [hzn]
      have h2 : z ∈ (a ++ [x]) ++ n :: b ↔ z ∈ a ++ x :: b := by simp [hzn]
      rw [h1, h2, huo z hzn]; exact i.mem_free z
  have f₁ : Freeing h₁ (a ++ [x]) b fs e n true := by
    refine ⟨by simpa using k₁, ?_, i.ring.frame ar₁.freeList hnf₁ hpf₁, hun, fun _ => hnfs, hmem₁,
      ?_, ?_, ?_⟩
    · exact (huo e (by have := i.blocks.lt_tail hxb; omega)).2 i.tailUsed
    · rw [List.append_assoc]
      refine List.isChain_append_cons_cons.2 ⟨NoAdj.mono (h := h) hnl fun z hz hu => ?_,
        Or.inl ((huo x (by omega)).2 hxu), .singleton _⟩
      exact (huo z (hne z (by simp at hz ⊢; tauto))).2 hu
    · exact NoAdj.mono (h := h) hnr.tail fun z hz hu => (huo z (hne z (by simp [hz]))).2 hu
    · rw [ar₁.freeList, ar₁.startAddr, ar₁.poolSize]; exact i.outside
  have hsum₁ : (fs.map (size h₁)).sum = (fs.map (size h)).sum :=
    sum_congr fun z hz => by
      have hzx : z ≠ x := fun e => hxfs (e ▸ hz)
      have hzn : z ≠ n := fun e => hnfs (e ▸ hz)
      unfold size; rw [hno₁ z hzx hzn]
  have hshr : shrinkTo h x m = insertFree (giveAvailable (cutMerge h₁ n)
      ((cutMerge h₁ n).memitemSize n)) n := by
    unfold shrinkTo
    dsimp only
    rw [hmod, ← hh₁, insertFree_memitemSize, giveAvailable_insertFree]
  rw [hshr, ← hn]
  clear hshr
  have hxn : x ≠ n := by omega
  have hav : h₁.availableSize = (fs.map (size h₁)).sum := by rw [hav₁, i.avail, hsum₁]
  obtain ⟨b', fs', f₂, hb₂, hav₂, sa₂, hu₂, hn₂, hm₂⟩ := cutMerge_spec f₁ hav
  obtain ⟨h₂, hh₂⟩ : ∃ h₂, h₂ = cutMerge h₁ n := ⟨_, rfl⟩
  rw [← hh₂] at f₂ hb₂ hav₂ sa₂ hu₂ hn₂ ⊢
  have hsz₂ : h₂.memitemSize n = size h₂ n := f₂.blocks.memitemSize_eq (by simp)
  rw [hsz₂]
  obtain ⟨sb₃, hm₃, hnf₃, hpf₃, hav₃⟩ := giveAvailable_same h₂ (size h₂ n)
  obtain ⟨h₃, hh₃⟩ : ∃ h₃, h₃ = giveAvailable h₂ (size h₂ n) := ⟨_, rfl⟩
  rw [← hh₃] at sb₃ hm₃ hnf₃ hpf₃ hav₃ ⊢
  have hu₃ : ∀ z, h₃.isUsed z ↔ h₁.isUsed z := fun z =>
    (isUsed_congr (by rw [hm₃])).trans (hu₂ z)
  have f₃ := f₂.frame sb₃ hm₃ hnf₃ hpf₃
  have hsum₃ : ((n :: fs').map (size h₃)).sum = ((n :: fs').map (size h₂)).sum :=
    sum_congr fun z _ => by unfold size; rw [sb₃.next]
  have i₃ := f₃.finish (fun y hy => (isUsed_congr (by rw [hm₃])).2 (hb₂ y hy)) (by
    have hlt := f₃.sum_lt
    simp only [withItem, if_true] at hlt ⊢
    rw [hav₃, hav₂, hsum₃]
    rw [hsum₃] at hlt
    exact Nat.mod_eq_of_lt hlt)
  rw [if_pos rfl] at i₃
  obtain ⟨sb₄, hm₄, -⟩ := insertFree_same h₃ n
  have hu₄ : ∀ z, (insertFree h₃ n).isUsed z ↔ h₁.isUsed z := fun z =>
    (isUsed_congr (by rw [hm₄])).trans (hu₃ z)
  have hnext : ∀ z, z ≠ n → (insertFree h₃ n).next z = h₁.next z := fun z hz => by
    rw [sb₄.next, sb₃.next, hn₂ z hz]
  refine ⟨_, _, i₃, ((ar₁.trans sa₂).trans sb₃.toSameArea).trans sb₄.toSameArea, fun z => ?_,
    fun z hz hzx => ?_, ?_⟩
  · unfold InUse
    rw [hu₄]
    by_cases hzn : z = n
    · subst hzn; simp only [hun, hnb, false_and, and_false]
    · have h2 : z ∈ (a ++ [x]) ++ n :: b ↔ z ∈ a ++ x :: b := by simp [hzn]
      constructor
      · rintro ⟨h3, h4⟩
        exact ⟨h2.1 ((hm₂ z h4).1 h3), (huo z hzn).1 h4⟩
      · rintro ⟨h3, h4⟩
        have h5 := (huo z hzn).2 h4
        exact ⟨(hm₂ z h5).2 (h2.2 h3), h5⟩
  · rw [hnext z (hne z hz.1), hno₁ z hzx (hne z hz.1)]
  · rw [hnext x hxn, hxn₁]

/-- The block at `x` has swallowed the free item at `y` behind it, and `v` bytes more are counted as
    used. -/
structure Swallowed (h h' : Memheap) (a b c d : List ℕ) (e x y v : ℕ) : Prop where
  area : SameArea h h'
  blocks : Blocks h' (a ++ x :: b) e
  ring : FreeRing h' (c ++ d)
  next : h'.next = update h.next x (h.next y)
  magic : h'.magic = h.magic
  avail : h'.availableSize = sub32 h.availableSize v

/-- The free item is taken out of both rings, and a new one is built. -/
theorem Inv.swallow (i : Inv h (a ++ x :: y :: b) (c ++ y :: d) e) (p o m : ℕ) :
    ∃ h', growInto h x y p o m =
        insertFree (insertItem h' x ((p + m) % 2 ^ 32)) ((p + m) % 2 ^ 32) ∧
      Swallowed h h' a b c d e x y (sub32 m o) := by
  have hyb : y ∈ a ++ x :: y :: b := by simp
  have k : Blocks h ((a ++ [x]) ++ y :: b) e := by simpa using i.blocks
  have hpy : h.prev y = x := by
    rcases k.prev_spec with ⟨h1, -⟩ | ⟨c', p, h1, h2⟩
    · simp at h1
    · rw [h2]
      have := List.append_inj_right' h1 (by simp)
      simpa [eq_comm] using this
  obtain ⟨sb₁, hm₁, hnf₁, hpf₁, hav₁⟩ := takeAvailable_same h (sub32 m o)
  obtain ⟨h₁, hh₁⟩ : ∃ h₁, h₁ = takeAvailable h (sub32 m o) := ⟨_, rfl⟩
  rw [← hh₁] at sb₁ hm₁ hnf₁ hpf₁ hav₁
  obtain ⟨sb₂, hm₂, hav₂⟩ := unlinkFree_same h₁ y
  have r₁ : FreeRing h₁ (c ++ y :: d) := i.ring.frame sb₁.freeList hnf₁ hpf₁
  have r₂ := r₁.unlink
  obtain ⟨h₂, hh₂⟩ : ∃ h₂, h₂ = unlinkFree h₁ y := ⟨_, rfl⟩
  rw [← hh₂] at sb₂ hm₂ hav₂ r₂
  have hnx₂ : h₂.next = h.next := by rw [sb₂.next, sb₁.next]
  have hpv₂ : h₂.prev = h.prev := by rw [sb₂.prev, sb₁.prev]
  have hn₃ : ((h₂.setPrev (h.next y) x).setNext x (h.next y)).next = update h.next x (h.next y) := by
    rw [← hnx₂]; rfl
  have hp₃ : ((h₂.setPrev (h.next y) x).setNext x (h.next y)).prev = update h.prev (h.next y) x := by
    rw [← hpv₂]; rfl
  have sa₃ : SameArea h ((h₂.setPrev (h.next y) x).setNext x (h.next y)) :=
    (sb₁.toSameArea.trans sb₂.toSameArea).trans ⟨rfl, rfl, rfl⟩
  refine ⟨(h₂.setPrev (h.next y) x).setNext x (h.next y), ?_, sa₃, ?_, r₂.frame rfl rfl rfl, hn₃,
    hm₂.trans hm₁, hav₂.trans hav₁⟩
  · have e1 : h₂.next y = h.next y := by rw [hnx₂]
    have e2 : h₂.prev y = x := by rw [hpv₂, hpy]
    have e3 : (h₂.setPrev (h.next y) x).prev y = x := by
      have := (i.blocks.next_ge hyb).1
      have hne : y ≠ h.next y := by omega
      exact (update_of_ne hne _ _).trans e2
    have e4 : (h₂.setPrev (h.next y) x).next y = h.next y := e1
    unfold growInto
    dsimp only
    rw [← hh₁, ← hh₂, e1, e2, e3, e4]
  · exact i.blocks.join sa₃ (by rw [hn₃, update_self]) (fun z hz _ => by rw [hn₃, update_of_ne hz])
      (by rw [hp₃, update_self]) (fun z hz _ => by rw [hp₃, update_of_ne hz])

/-- The block at `x` grows to `m` bytes into the free item behind it; the rest of that item is
    built anew behind the block. -/
theorem growInto_spec (i : Inv h bs fs e) (hx : InUse h bs x) (hy : h.next x = y)
    (hyu : ¬h.isUsed y) (hm : size h x < m) (hroom : m + 12 < size h y + size h x) :
    ∃ bs' fs', Resized h (growInto h x y (x + 24) (size h x) m) bs bs' fs' e x (x + m + 24) := by
  obtain ⟨hxb, hxu⟩ := hx
  obtain ⟨a, b₀, rfl⟩ := List.append_of_mem hxb
  -- the free item behind is a block, not the tailer
  obtain ⟨b, rfl⟩ : ∃ b, b₀ = y :: b := by
    obtain ⟨s, l, hs, hn, -⟩ := i.blocks.next_spec
    cases b₀ with
    | nil =>
      simp only [List.nil_append, List.cons.injEq] at hs
      rw [hy] at hn
      rw [hn, ← hs.1] at hyu
      exact absurd i.tailUsed hyu
    | cons w b =>
      simp only [List.cons_append, List.cons.injEq] at hs
      exact ⟨b, by rw [hs.1, ← hn, hy]⟩
  have hyb : y ∈ a ++ x :: y :: b := by simp
  have hyfs : y ∈ fs := (i.mem_free y).2 ⟨hyb, hyu⟩
  obtain ⟨c, d, rfl⟩ := List.append_of_mem hyfs
  have hbd := i.blocks.bound
  have hte := i.blocks.tailEnd
  obtain ⟨hgx, -⟩ := i.blocks.next_ge hxb
  obtain ⟨hgy, hley⟩ := i.blocks.next_ge hyb
  have hszx : size h x = y - x - 24 := by unfold size; rw [hy]
  have hszy : size h y = h.next y - y - 24 := rfl
  rw [hy] at hgx
  obtain ⟨n, hn⟩ : ∃ n, n = x + m + 24 := ⟨_, rfl⟩
  have hny : y < n := by omega
  have hn' : n + 24 ≤ h.next y := by omega
  have hmod : (x + 24 + m) % 2 ^ 32 = n := by omega
  obtain ⟨h₃, heq, sa₃, k₃, r₃, hn₃, hm₃, hav₃⟩ := i.swallow (x + 24) (size h x) m
  have hx₃ : h₃.next x = h.next y := by rw [hn₃, update_self]
  -- a new item behind the grown block
  obtain ⟨k₄, hxn₄, hnn₄, hno₄⟩ := k₃.insertItem (n := n) (by omega) (by rw [hx₃]; exact hn')
  obtain ⟨ar₄, hm₄, hnf₄, hpf₄, hav₄⟩ := insertItem_same h₃ x n
  rw [hmod] at heq
  obtain ⟨h₄, hh₄⟩ : ∃ h₄, h₄ = insertItem h₃ x n := ⟨_, rfl⟩
  rw [← hh₄] at k₄ hxn₄ hnn₄ hno₄ ar₄ hm₄ hnf₄ hpf₄ hav₄ heq
  have r₄ : FreeRing h₄ (c ++ d) := r₃.frame ar₄.freeList hnf₄ hpf₄
  obtain ⟨sb₅, hm₅, hav₅⟩ := insertFree_same h₄ n
  rw [heq, ← hn]
  obtain ⟨h₅, hh₅⟩ : ∃ h₅, h₅ = insertFree h₄ n := ⟨_, rfl⟩
  rw [← hh₅] at sb₅ hm₅ hav₅ ⊢
  have hnb : n ∉ a ++ x :: y :: b := i.blocks.inside hyb hny (by omega)
  have hne : ∀ z ∈ a ++ x :: y :: b, z ≠ n := fun z hz e => hnb (e ▸ hz)
  have hycd : y ∉ c ++ d := i.free_uniq
  have hyb' : y ∉ a ++ x :: b := by
    have k : Blocks h ((a ++ [x]) ++ y :: b) e := by simpa using i.blocks
    simpa using k.uniq
  have hsub : ∀ z ∈ c ++ d, z ∈ c ++ y :: d := fun z hz => by
    simp only [List.mem_append, List.mem_cons] at hz ⊢; tauto
  have hxcd : x ∉ c ++ d := fun hm => ((i.mem_free x).1 (hsub x hm)).2 hxu
  have hncd : n ∉ c ++ d := fun hm => hnb ((i.mem_free n).1 (hsub n hm)).1
  have r₅ : FreeRing h₅ (n :: (c ++ d)) := by
    rw [hh₅]
    refine r₄.insert ?_
    rw [ar₄.freeList, sa₃.freeList]
    exact fun hm => (List.mem_cons.1 hm).elim (i.ne_header hyb hny.le (by omega)) hncd
  have hmag : h₅.magic = update h.magic n memheapMagic := by rw [hm₅, hm₄, hm₃]
  have hun : ¬h₅.isUsed n := isUsed_of_magic (by rw [hmag, update_self])
  have huo : ∀ z, z ≠ n → (h₅.isUsed z ↔ h.isUsed z) := fun z hz =>
    isUsed_congr (by rw [hmag, update_of_ne hz])
  have hnext : ∀ z, z ≠ x → z ≠ n → h₅.next z = h.next z := fun z hzx hzn => by
    rw [sb₅.next, hno₄ z hzx hzn, hn₃, update_of_ne hzx]
  have hux : h₅.isUsed x := (huo x (by omega)).2 hxu
  refine ⟨a ++ x :: n :: b, n :: (c ++ d), ⟨⟨k₄.frame sb₅, ?_, r₅, fun z => ?_, ?_, ?_, ?_⟩,
    (sa₃.trans ar₄).trans sb₅.toSameArea, fun z => ?_, fun z hz hzx => ?_, ?_⟩⟩
  · exact (huo e (by omega)).2 i.tailUsed
  · by_cases hzn : z = n
    · subst hzn; simp [hun]
    · have h1 : z ∈ n :: (c ++ d) ↔ z ∈ c ++ d := by simp [hzn]
      have h2 : z ∈ a ++ x :: n :: b ↔ z ∈ a ++ x :: b := by simp [hzn]
      rw [h1, h2, huo z hzn]
      by_cases hzy : z = y
      · subst hzy; simp only [hycd, hyb', false_and]
      · have h3 : z ∈ c ++ d ↔ z ∈ c ++ y :: d := by simp [hzy]
        have h4 : z ∈ a ++ x :: b ↔ z ∈ a ++ x :: y :: b := by simp [hzy]
        rw [h3, h4]; exact i.mem_free z
  · -- the new item lies between the grown block and one in use
    have hleft : NoAdj h (a ++ [x]) := (List.isChain_split.1 i.noAdj).1
    have hright : NoAdj h ((a ++ [x]) ++ y :: b) := by simpa using i.noAdj
    refine hleft.insert_mono hux (hright.next_used hyu) fun z hz _ hu => ?_
    have hz : z ∈ a ++ x :: y :: b := by
      simp only [List.mem_append, List.mem_cons] at hz ⊢
      tauto
    exact (huo z (hne z hz)).2 hu
  · have hav : h₅.availableSize = h.availableSize - (m - size h x) := by
      have hd : sub32 m (size h x) = m - size h x := sub32_eq hm.le (by omega)
      have hsum := i.avail
      rw [sum_split] at hsum
      rw [hav₅, hav₄, hav₃, hd, sub32_eq (by omega) i.avail_lt]
    have hszn : size h₅ n = h.next y - n - 24 := by
      unfold size; rw [sb₅.next, hnn₄, hx₃]
    have hsum' : ((c ++ d).map (size h₅)).sum = ((c ++ d).map (size h)).sum :=
      sum_congr fun z hz => by
        unfold size
        rw [hnext z (fun e => hxcd (e ▸ hz)) (fun e => hncd (e ▸ hz))]
    rw [hav, i.avail, sum_split, List.map_cons, List.sum_cons, hsum', hszn]
    omega
  · rw [sb₅.freeList, sb₅.startAddr, sb₅.poolSize, ar₄.freeList, ar₄.startAddr, ar₄.poolSize,
      sa₃.freeList, sa₃.startAddr, sa₃.poolSize]
    exact i.outside
  · unfold InUse
    by_cases hzn : z = n
    · subst hzn; simp only [hun, hnb, false_and, and_false]
    · have h2 : z ∈ a ++ x :: n :: b ↔ z ∈ a ++ x :: b := by simp [hzn]
      rw [h2, huo z hzn]
      by_cases hzy : z = y
      · subst hzy; simp only [hyu, and_false]
      · have h4 : z ∈ a ++ x :: b ↔ z ∈ a ++ x :: y :: b := by simp [hzy]
        rw [h4]
  · exact hnext z hzx (hne z hz.1)
  · rw [sb₅.next, hxn₄]

/-- The condition under which `newsize + RT_MEMHEAP_MINIALLOC` cannot mislead `rt_memheap_realloc`:
    the sum does not wrap, or there is no free item behind the block. -/
def growOk (h : Memheap) (x m : ℕ) : Prop := m + 12 < 2 ^ 32 ∨ h.isUsed (h.next x)

/-- The ways `rt_memheap_realloc` answers for the block at `x`. -/
inductive Realloced (h : Memheap) (bs : List ℕ) (e x n : ℕ) :
    Option (Memheap × Option ℕ) → Prop
  /-- Asked for nothing, it frees the block. -/
  | freed (h' : Memheap) (bs' fs' : List ℕ) (hn : n = 0) (hf : Freed h h' bs bs' fs' e x) :
      Realloced h bs e x n (some (h', none))
  /-- No room is found. -/
  | refused (hn : n ≠ 0) : Realloced h bs e x n (some (h, none))
  /-- The block is large enough, and too small to be cut. -/
  | same (hn : n ≠ 0) : Realloced h bs e x n (some (h, some (x + 24)))
  /-- The block grows or shrinks in place. -/
  | resized (hn : n ≠ 0) (h' : Memheap) (bs' fs' : List ℕ) (k : ℕ)
      (hr : Resized h h' bs bs' fs' e x k) : Realloced h bs e x n (some (h', some (x + 24)))
  /-- The block moves to the item at `y`. -/
  | moved (hn : n ≠ 0) (y : ℕ) (h₁ h₂ h' : Memheap) (bs₁ fs₁ bs' fs' : List ℕ) (k : ℕ)
      (ht : Taken h h₁ bs bs₁ fs₁ e y k) (d : ℕ → UInt8) (hd : h₂ = h₁.setData d)
      (hf : Freed h₂ h' bs₁ bs' fs' e x) : Realloced h bs e x n (some (h', some (y + 24)))

/-- The bytes of the blocks do not matter to the invariant. -/
theorem Inv.setData (i : Inv h bs fs e) (v : ℕ → UInt8) : Inv (h.setData v) bs fs e :=
  ⟨i.blocks.frame ⟨⟨rfl, rfl, rfl⟩, rfl, rfl⟩, i.tailUsed, i.ring, i.mem_free, i.noAdj, i.avail,
    i.outside⟩

/-- The request that is looked for: aligned, and no less than `RT_MEMHEAP_MINIALLOC`. -/
def request (n : ℕ) : ℕ := max (rtAlign n) memheapMinialloc

/-- Where `rt_memheap_realloc` grows the block at `x` into the item behind it. -/
def growsInto (h : Memheap) (x m : ℕ) : Prop := ¬h.isUsed (h.next x) ∧
  (h.memitemSize (h.next x) + size h x) % 2 ^ 32 > (m + memheapMinialloc) % 2 ^ 32

/-! The paths of `rt_memheap_realloc` for a block in use, asked for `n ≠ 0` bytes. -/

section Paths
variable (i : Inv h bs fs e) (hx : InUse h bs x) (hn : n ≠ 0)

/-- The address passed leads back to the header, and the header to the size. -/
theorem Inv.live (i : Inv h bs fs e) (hx : InUse h bs x) :
    sub32 (x + 24) 24 = x ∧ h.memitemSize x = size h x ∧ size h x + 48 ≤ 2 ^ 32 := by
  have hlt := i.blocks.lt_tail hx.1
  have hte := i.blocks.tailEnd
  have hbd := i.blocks.bound
  obtain ⟨hge, hle⟩ := i.blocks.next_ge hx.1
  refine ⟨?_, i.blocks.memitemSize_eq hx.1, ?_⟩
  · rw [sub32_eq (by omega) (by omega)]; omega
  · unfold size; omega

include i hx hn

theorem rtMemheapRealloc_same (hle : request n ≤ size h x) (hge : size h x ≤ request n + 36) :
    rtMemheapRealloc h (some (x + 24)) n = some (h, some (x + 24)) := by
  obtain ⟨hptr, hsz, hlt⟩ := i.live hx
  unfold rtMemheapRealloc
  unfold request at hle hge
  simp only [if_neg hn, memheapSize_eq, hptr, hsz, if_neg (not_lt.2 hle)]
  exact if_pos (by rw [memheapMinialloc_eq] at *; omega)

theorem rtMemheapRealloc_cut (hlt : request n + 36 < size h x) :
    rtMemheapRealloc h (some (x + 24)) n = some (shrinkTo h x (request n), some (x + 24)) := by
  obtain ⟨hptr, hsz, hlt'⟩ := i.live hx
  unfold rtMemheapRealloc
  unfold request at hlt ⊢
  simp only [if_neg hn, memheapSize_eq, hptr, hsz]
  rw [if_neg (by omega), if_neg (by rw [memheapMinialloc_eq] at *; omega)]

variable (hgt : size h x < request n)
include hgt

theorem rtMemheapRealloc_grow (hg : growsInto h x (request n)) :
    rtMemheapRealloc h (some (x + 24)) n =
      some (growInto h x (h.next x) (x + 24) (size h x) (request n), some (x + 24)) := by
  obtain ⟨hptr, hsz, -⟩ := i.live hx
  unfold rtMemheapRealloc
  unfold request at hgt hg ⊢
  simp only [if_neg hn, memheapSize_eq, hptr, hsz, if_pos hgt]
  exact if_pos hg

variable (hg : ¬growsInto h x (request n))
include hg

theorem rtMemheapRealloc_noRoom (hm : rtMemheapAlloc h (request n) = some (h, none)) :
    rtMemheapRealloc h (some (x + 24)) n = some (h, none) := by
  obtain ⟨hptr, hsz, -⟩ := i.live hx
  unfold rtMemheapRealloc
  unfold growsInto at hg
  unfold request at hgt hg hm
  simp only [if_neg hn, memheapSize_eq, hptr, hsz, if_pos hgt]
  rw [if_neg hg, hm]

theorem rtMemheapRealloc_move {q : ℕ} (hm : rtMemheapAlloc h (request n) = some (h', some q)) :
    rtMemheapRealloc h (some (x + 24)) n = some (rtMemheapFree (h'.setData
      (rtMemcpy h'.data q (x + 24) (min (size h x) (request n)))) (some (x + 24)), some q) := by
  obtain ⟨hptr, hsz, -⟩ := i.live hx
  unfold rtMemheapRealloc
  unfold growsInto at hg
  unfold request at hgt hg hm ⊢
  simp only [if_neg hn, memheapSize_eq, hptr, hsz, if_pos hgt]
  rw [if_neg hg, hm]

end Paths

/-- A block that grows without a wrap. -/
theorem grow_spec (i : Inv h bs fs e) (hx : InUse h bs x) (hgt : size h x < m)
    (hw : m + 12 < 2 ^ 32) (hg : growsInto h x m) :
    ∃ bs' fs', Resized h (growInto h x (h.next x) (x + 24) (size h x) m) bs bs' fs' e x (x + m + 24) := by
  obtain ⟨hyu, hroom⟩ := hg
  have hte := i.blocks.tailEnd
  have hbd := i.blocks.bound
  obtain ⟨hge, hle⟩ := i.blocks.next_ge hx.1
  -- the item behind is a block, so its size is exact
  have hyb : h.next x ∈ bs := by
    obtain ⟨a, b, rfl⟩ := List.append_of_mem hx.1
    obtain ⟨s, l, hs, hnx, -⟩ := i.blocks.next_spec
    have hmem : h.next x ∈ b ++ [e] := by rw [hs, hnx]; simp
    rcases List.mem_append.1 hmem with h1 | h1
    · simp [h1]
    · rw [List.mem_singleton.1 h1] at hyu
      exact absurd i.tailUsed hyu
  rw [i.blocks.memitemSize_eq hyb, memheapMinialloc_eq] at hroom
  obtain ⟨hgy, hley⟩ := i.blocks.next_ge hyb
  have hs1 : size h (h.next x) = h.next (h.next x) - h.next x - 24 := rfl
  have hs2 : size h x = h.next x - x - 24 := rfl
  rw [Nat.mod_eq_of_lt (by omega), Nat.mod_eq_of_lt hw] at hroom
  exact growInto_spec i hx rfl hyu hgt hroom

theorem request_request (n : ℕ) : request (request n) = request n := by
  unfold request rtAlign memheapMinialloc
  omega

theorem rtMemheapRealloc_spec (i : Inv h bs fs e) (hx : InUse h bs x) (n : ℕ)
    (hok : n ≠ 0 → size h x < max (rtAlign n) 12 → growOk h x (max (rtAlign n) 12)) :
    Realloced h bs e x n (rtMemheapRealloc h (some (x + 24)) n) := by
  by_cases hn : n = 0
  · obtain ⟨bs', fs', hf⟩ := rtMemheapFree_spec i hx
    unfold rtMemheapRealloc
    rw [if_pos hn]
    exact .freed _ bs' fs' hn hf
  rcases lt_or_ge (size h x) (request n) with hgt | hle
  · by_cases hg : growsInto h x (request n)
    · obtain ⟨bs', fs', hr⟩ := grow_spec i hx hgt ((hok hn hgt).resolve_right hg.1) hg
      rw [rtMemheapRealloc_grow i hx hn hgt hg]
      exact .resized hn _ bs' fs' _ hr
    · rcases rtMemheapAlloc_spec i (request n) with ⟨y, h₁, bs₁, fs₁, heq, ht⟩ | heq
      · have hx₁ : InUse h₁ bs₁ x := (ht.inUse x).2 (Or.inl hx)
        obtain ⟨bs', fs', hf⟩ := rtMemheapFree_spec (ht.inv.setData
          (rtMemcpy h₁.data (y + 24) (x + 24) (min (size h x) (request n)))) hx₁
        rw [rtMemheapRealloc_move i hx hn hgt hg heq]
        exact .moved hn y h₁ _ _ bs₁ fs₁ bs' fs' _ ht _ rfl hf
      · rw [rtMemheapRealloc_noRoom i hx hn hgt hg heq]
        exact .refused hn
  · by_cases hshr : request n + 36 < size h x
    · obtain ⟨bs', fs', hr⟩ := shrinkTo_spec i hx (m := request n) (by omega)
      rw [rtMemheapRealloc_cut i hx hn hshr]
      exact .resized hn _ bs' fs' _ hr
    · rw [rtMemheapRealloc_same i hx hn hle (not_lt.1 hshr)]
      exact .same hn

end EasyCore.MemHeap
