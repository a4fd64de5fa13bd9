import EasyCore.Kernel.SmallMemRun

/-! What a non-null answer of `rt_malloc`, `rt_realloc` and `rt_calloc` is worth, in every
    reachable heap.

    `RT_ALIGN` wraps to 0 for the last three sizes below `2 ^ 32`, and `rt_calloc` multiplies
    modulo `2 ^ 32`: such a request is served with a block smaller than asked for. For each call
    the theorem says for which requests this cannot happen. -/

namespace EasyCore.SmallMem
open Function Links Kernel Runs Live

/-- The bytes of the block at address `p`. -/
def blockBytes (h : Heap) (p : ℕ) : ℕ := userSize h (p - 12 - h.heapPtr)

/-- The addresses of the block at `p`. -/
def extent (h : Heap) (p : ℕ) : Set ℕ := Set.Ico p (p + blockBytes h p)

/-- The addresses of the header at offset `o`. -/
def headerExtent (h : Heap) (o : ℕ) : Set ℕ := Set.Ico (h.heapPtr + o) (h.heapPtr + o + 12)

/-- The block at `p` is what a client that asked for `n` bytes may expect. -/
structure GoodBlock (s : Client) (p n : ℕ) : Prop where
  aligned : p % 4 = 0
  inside : s.heap.heapPtr ≤ p ∧ p + blockBytes s.heap p ≤ s.heap.heapPtr + s.heap.heapEnd
  holds : n ≤ blockBytes s.heap p
  apartLive : ∀ q ∈ s.live.erase p, Disjoint (extent s.heap p) (extent s.heap q)
  apartHeader : ∀ o, IsItem s.heap o → Disjoint (extent s.heap p) (headerExtent s.heap o)

/-- Every block the call can return to `s` holds `n` bytes and is good. -/
def Serves (s : Client) (c : Call) (n : ℕ) : Prop :=
  ∀ s' p, Answers s c (some p) s' → GoodBlock s' p n

variable {s s' : Client} {os : List ℕ} {o n : ℕ}

theorem blockBytes_blockAddr (h : Heap) (o : ℕ) : blockBytes h (blockAddr h o) = userSize h o := by
  unfold blockBytes blockAddr
  rw [show h.heapPtr + o + 12 - 12 - h.heapPtr = o by omega]

theorem disjoint_Ico {a b c d : ℕ} (h : b ≤ c ∨ d ≤ a) :
    Disjoint (Set.Ico a b) (Set.Ico c d) :=
  Set.disjoint_left.2 fun x hx hy => by
    have := hx.1; have := hx.2; have := hy.1; have := hy.2; omega

/-- A live block is good for every size it holds. -/
theorem Owned.goodBlock (w : Owned s os) (ho : InUse s.heap os o) (hn : n ≤ userSize s.heap o) :
    GoodBlock s (blockAddr s.heap o) n := by
  obtain ⟨hge, hle, -⟩ := w.wf.tiled.next_ge ho.1
  have hsz := blockBytes_blockAddr s.heap o
  have hu : userSize s.heap o = s.heap.next o - o - 12 := rfl
  refine ⟨?_, ?_, by rwa [hsz], fun q hq => ?_, fun x hx => ?_⟩
  · have := w.wf.tiled.align o (List.mem_append_left _ ho.1)
    have := w.wf.tiled.base
    unfold blockAddr; omega
  · rw [hsz]; unfold blockAddr; omega
  · obtain ⟨hne, hql⟩ := w.holds.nodup.mem_erase_iff.1 hq
    obtain ⟨x, hx, rfl⟩ := (w.holds.mem q).1 hql
    have hox : o ≠ x := fun e => hne (by rw [e])
    obtain ⟨hge', -, -⟩ := w.wf.tiled.next_ge hx.1
    unfold extent
    rw [hsz, blockBytes_blockAddr]
    refine disjoint_Ico ?_
    have hux : userSize s.heap x = s.heap.next x - x - 12 := rfl
    rcases w.wf.tiled.apart ho.1 hx.1 hox with h | h <;> unfold blockAddr <;> omega
  · unfold extent headerExtent
    rw [hsz]
    refine disjoint_Ico ?_
    unfold blockAddr
    rcases List.mem_append.1 (w.wf.tiled.isItem_iff.1 hx) with hm | hm
    · by_cases hox : o = x
      · subst hox; right; omega
      · obtain ⟨hge', -, -⟩ := w.wf.tiled.next_ge hm
        rcases w.wf.tiled.apart ho.1 hm hox with h | h <;> omega
    · rw [List.mem_singleton.1 hm]; left; omega

/-- No block is as large as the sizes at which the arithmetic wraps. -/
theorem Owned.blockBytes_lt (w : Owned s os) (ho : InUse s.heap os o) :
    blockBytes s.heap (blockAddr s.heap o) < 2 ^ 32 - 4 := by
  rw [blockBytes_blockAddr]
  have := (w.wf.tiled.next_ge ho.1).2.1
  have := w.wf.tiled.bound
  unfold userSize; omega

/-! ### `rt_malloc` and `rt_calloc` -/

/-- The block found by a search, in the client's hands. -/
theorem Owned.taken_inUse {h' : Heap} {os' : List ℕ} {size x : ℕ}
    (t : Taken s.heap h' os os' size x) :
    InUse h' os' x ∧ blockAddr h' x = blockAddr s.heap x ∧ size ≤ userSize h' x := by
  refine ⟨(t.inUse x).2 (Or.inr rfl), t.area.blockAddr x, ?_⟩
  have := t.room
  unfold userSize; omega

/-- A search for `m` bytes, of which the client expects `n`, gives good blocks exactly when `m` is
    no less, or when nothing is found. -/
theorem rtMalloc_serves (w : Owned s os) {m n : ℕ}
    (hmn : m = n ∨ 2 ^ 32 - 4 < n) :
    (∀ h' p, rtMalloc s.heap m = some (h', some p) → GoodBlock ⟨h', p :: s.live⟩ p n) ↔
      n ≤ 2 ^ 32 - 4 ∨ ¬CanAlloc s.heap m := by
  rcases rtMalloc_spec w.wf m with ⟨x, h₁, os₁, hc, heq, ht⟩ | ⟨hc, heq, -⟩
  · obtain ⟨hin, ha, hsz⟩ := Owned.taken_inUse (s := s) ht
    have w₁ := w.taken ht
    constructor
    · intro hall
      have hg := (hall _ _ heq).holds
      have hlt := w₁.blockBytes_lt hin
      rw [ha] at hlt
      exact Or.inl (by omega)
    · rintro (hn | hn)
      · intro h' p he
        obtain ⟨rfl, hp⟩ := Prod.mk.inj (Option.some.inj (heq.symm.trans he))
        obtain rfl := Option.some.inj hp
        have hmn : m = n := hmn.resolve_right (by omega)
        have := rtAlign_ge (n := m) (by omega)
        have hge : rtAlign m ≤ blockSize m := le_max_left _ _
        have hle : n ≤ userSize h₁ x := by omega
        have hg := w₁.goodBlock hin hle
        simp only [ha] at hg
        exact hg
      · exact absurd hc hn
  · refine ⟨fun _ => Or.inr hc, fun _ h' p he => ?_⟩
    rcases heq with heq | heq <;> rw [heq] at he <;> cases he

theorem serves_malloc (w : Owned s os) (n : RtSize) :
    Serves s (.malloc n) n ↔ (n : ℕ) ≤ 2 ^ 32 - 4 ∨ ¬CanAlloc s.heap n := by
  rw [← rtMalloc_serves w (Or.inl rfl)]
  constructor
  · intro h h' p he
    exact h ⟨h', p :: s.live⟩ p ⟨by simp [Call.Legal, Call.old], he, by simp⟩
  · rintro h ⟨h', l⟩ p ⟨-, he, hl⟩
    obtain rfl : l = p :: s.live := by simpa using hl
    exact h h' p he

theorem GoodBlock.setData {h' : Heap} {l : List ℕ} {p : ℕ} (d : ℕ → UInt8) :
    GoodBlock ⟨h'.setData d, l⟩ p n ↔ GoodBlock ⟨h', l⟩ p n :=
  ⟨fun g => ⟨g.1, g.2, g.3, g.4, g.5⟩, fun g => ⟨g.1, g.2, g.3, g.4, g.5⟩⟩

theorem rtCalloc_some {h h' : Heap} {k m p : ℕ} : rtCalloc h k m = some (h', some p) ↔
    ∃ h₁, rtMalloc h (k * m % 2 ^ 32) = some (h₁, some p) ∧
      h' = h₁.setData (rtMemset h₁.data p 0 (k * m % 2 ^ 32)) := by
  unfold rtCalloc
  dsimp only
  split
  · rename_i h₁ q heq
    rw [heq]
    constructor
    · intro he
      obtain ⟨rfl, hq⟩ := Prod.mk.inj (Option.some.inj he)
      obtain rfl := Option.some.inj hq
      exact ⟨h₁, rfl, rfl⟩
    · rintro ⟨h₂, he, rfl⟩
      obtain ⟨rfl, hq⟩ := Prod.mk.inj (Option.some.inj he)
      obtain rfl := Option.some.inj hq
      rfl
  · rename_i hno
    constructor
    · intro he; exact absurd he (hno _ _)
    · rintro ⟨h₂, he, -⟩; exact absurd he (hno _ _)

theorem serves_calloc (w : Owned s os) (k m : RtSize) :
    Serves s (.calloc k m) (k * m) ↔
      (k : ℕ) * m ≤ 2 ^ 32 - 4 ∨ ¬CanAlloc s.heap ((k : ℕ) * m % 2 ^ 32) := by
  have hor : (k : ℕ) * m % 2 ^ 32 = k * m ∨ 2 ^ 32 - 4 < (k : ℕ) * m := by
    rcases lt_or_ge ((k : ℕ) * m) (2 ^ 32) with h | h
    · exact Or.inl (Nat.mod_eq_of_lt h)
    · exact Or.inr (by omega)
  rw [← rtMalloc_serves w hor]
  constructor
  · intro h h' p he
    exact (GoodBlock.setData _).1 (h ⟨_, p :: s.live⟩ p
      ⟨by simp [Call.Legal, Call.old], rtCalloc_some.2 ⟨h', he, rfl⟩, by simp⟩)
  · rintro h ⟨h', l⟩ p ⟨-, he, hl⟩
    obtain rfl : l = p :: s.live := by simpa using hl
    obtain ⟨h₁, he₁, rfl⟩ := rtCalloc_some.1 he
    exact (GoodBlock.setData _).2 (h h₁ p he₁)

/-! ### `rt_realloc` -/

/-- The request is one `rt_realloc` can honour, or one it does not answer with a block. -/
def reallocOk (h : Heap) (rmem : Option ℕ) (n : ℕ) : Prop :=
  n ≤ 2 ^ 32 - 4 ∨ ∀ p ∈ rmem, 0 < blockBytes h p ∧ blockBytes h p ≤ 24

/-- Whatever `rt_realloc` returns is a live block that holds the aligned size. -/
theorem rtRealloc_bytes (w : Owned s os) {r : Option ℕ} {n : RtSize} {p : ℕ}
    (h : Answers s (.realloc r n) (some p) s') : rtAlign n ≤ blockBytes s'.heap p := by
  obtain ⟨h', l⟩ := s'
  obtain ⟨hleg, he, -⟩ := h
  cases r with
  | none =>
    have he : rtRealloc s.heap none n = some (h', some p) := he
    unfold rtRealloc at he
    dsimp only at he
    split at he
    · cases he
    · rcases rtMalloc_spec w.wf (rtAlign n) with ⟨x, h₁, os₁, -, heq, ht⟩ | ⟨-, heq | heq, -⟩
      · obtain ⟨rfl, hp⟩ := Prod.mk.inj (Option.some.inj (heq.symm.trans he))
        obtain rfl := Option.some.inj hp
        obtain ⟨-, ha, hsz⟩ := Owned.taken_inUse (s := s) ht
        have hge : rtAlign (rtAlign n) ≤ blockSize (rtAlign n) := le_max_left _ _
        rw [rtAlign_idem] at hge
        rw [← ha, blockBytes_blockAddr]
        exact hge.trans hsz
      · rw [heq] at he; cases he
      · rw [heq] at he; cases he
  | some q =>
    obtain ⟨o, ho, rfl⟩ := (w.holds.mem q).1 (hleg q rfl)
    have hr := rtRealloc_spec w.wf ho (n : ℕ)
    have he : rtRealloc s.heap (some (blockAddr s.heap o)) n = some (h', some p) := he
    rw [he] at hr
    rcases hr with _ | _ | ⟨hs⟩ | ⟨h₁, os₁, hs, hk⟩ |
      ⟨x, h₁, h₂, h₃, os₁, os', hs, hc, ht, hd, hf⟩
    · rw [blockBytes_blockAddr]; exact hs.ge
    · have hsz : rtAlign n ≤ userSize h' o := by
        have := hk.cut
        unfold userSize; omega
      rw [← hk.area.blockAddr, blockBytes_blockAddr]
      exact hsz
    · -- the new block keeps its size while the old one is freed
      obtain ⟨hin, -, hsz⟩ := Owned.taken_inUse (s := s) ht
      have hge : rtAlign (rtAlign n) ≤ blockSize (rtAlign n) := le_max_left _ _
      rw [rtAlign_idem] at hge
      have hxo : x ≠ o := fun e => ho.2 (e ▸ ht.fresh.2)
      have hnx : h'.next x = h₁.next x := by
        rw [hf.next x (hd ▸ hin) hxo, hd]; rfl
      have har : blockAddr h' x = blockAddr s.heap x := by
        rw [hf.area.blockAddr, hd]; exact ht.area.blockAddr x
      rw [← har, blockBytes_blockAddr]
      unfold userSize at hsz ⊢
      rw [hnx]; omega

/-- A live block that is neither empty nor at most 24 bytes long is kept by a request that wraps. -/
theorem rtRealloc_wrap (w : Owned s os) (ho : InUse s.heap os o) {n : RtSize}
    (hn : 2 ^ 32 - 4 < (n : ℕ))
    (hs : ¬(0 < userSize s.heap o ∧ userSize s.heap o ≤ 24)) :
    ∃ h', rtRealloc s.heap (some (blockAddr s.heap o)) n = some (h', some (blockAddr s.heap o)) := by
  have h0 := rtAlign_wrap hn n.isLt
  have hM : ¬s.heap.memSizeAligned < rtAlign n := by omega
  have hr := rtRealloc_spec w.wf ho (n : ℕ)
  generalize rtRealloc s.heap (some (blockAddr s.heap o)) n = res at hr ⊢
  rcases hr with hs' | hs' | ⟨hs'⟩ | ⟨h₁, os₁, hs', hk⟩ |
    ⟨x, h₁, h₂, h₃, os₁, os', hs', hc, ht, hd, hf⟩
  · omega
  · omega
  · exact ⟨_, rfl⟩
  · exact ⟨_, rfl⟩
  · omega

/-- Asked for nothing, `rt_realloc` returns `RT_NULL` for `RT_NULL` and for a small block. -/
theorem rtRealloc_small (w : Owned s os) {r : Option ℕ} (hr : ∀ p ∈ r, p ∈ s.live)
    (hsz : ∀ p ∈ r, 0 < blockBytes s.heap p ∧ blockBytes s.heap p ≤ 24) {n : RtSize}
    (h0 : rtAlign n = 0) (h' : Heap) (p : ℕ) : rtRealloc s.heap r n ≠ some (h', some p) := by
  intro he
  cases r with
  | none =>
    unfold rtRealloc at he
    simp [h0, rtMalloc] at he
  | some q =>
    obtain ⟨o, ho, rfl⟩ := (w.holds.mem q).1 (hr q rfl)
    have hq := hsz _ rfl
    rw [blockBytes_blockAddr] at hq
    have hs := rtRealloc_spec w.wf ho (n : ℕ)
    rw [he] at hs
    rcases hs with _ | _ | ⟨hs'⟩ | ⟨h₁, os₁, hs', hk⟩ |
      ⟨x, h₁, h₂, h₃, os₁, os', hs', hc, ht, hd, hf⟩
    · omega
    · omega
    · exact hc.1 h0

theorem serves_realloc (w : Owned s os) (r : Option ℕ) (hr : ∀ p ∈ r, p ∈ s.live) (n : RtSize) :
    Serves s (.realloc r n) n ↔ reallocOk s.heap r n := by
  constructor
  · intro h
    by_cases hn : (n : ℕ) ≤ 2 ^ 32 - 4
    · exact Or.inl hn
    refine Or.inr fun p hp => ?_
    by_contra hno
    obtain ⟨o, ho, rfl⟩ := (w.holds.mem p).1 (hr p hp)
    obtain rfl : r = some (blockAddr s.heap o) := hp
    rw [blockBytes_blockAddr] at hno
    obtain ⟨h', he⟩ := rtRealloc_wrap w ho (not_le.1 hn) hno
    have ha : Answers s (.realloc (some (blockAddr s.heap o)) n) (some (blockAddr s.heap o))
        ⟨h', _⟩ := ⟨hr, he, rfl⟩
    -- the client now owns a block of at least `2 ^ 32 - 3` bytes, which no heap holds
    obtain ⟨os', w', -⟩ := call_step w ⟨_, ha⟩
    have hlive : blockAddr s.heap o ∈ Call.liveAfter s.live (some (blockAddr s.heap o))
        (.realloc (some (blockAddr s.heap o)) n) := by simp [Call.liveAfter]
    obtain ⟨x, hx, hax⟩ := (w'.holds.mem _).1 hlive
    have hax : blockAddr s.heap o = blockAddr h' x := hax
    have hlt : blockBytes h' (blockAddr h' x) < 2 ^ 32 - 4 := w'.blockBytes_lt hx
    have hge : (n : ℕ) ≤ blockBytes h' (blockAddr s.heap o) := (h _ _ ha).holds
    rw [hax] at hge
    omega
  · rintro hok s' p ha
    obtain ⟨os', w', -⟩ := call_step w ⟨_, ha⟩
    have hb := rtRealloc_bytes w ha
    have hlive : p ∈ s'.live := by rw [ha.2.2]; simp [Call.liveAfter]
    obtain ⟨x, hx, rfl⟩ := (w'.holds.mem p).1 hlive
    rw [blockBytes_blockAddr] at hb
    by_cases hn : (n : ℕ) ≤ 2 ^ 32 - 4
    · exact w'.goodBlock hx ((rtAlign_ge hn).trans hb)
    · -- the aligned size is 0: nothing is allocated for it
      have hsz := hok.resolve_left hn
      have h0 := rtAlign_wrap (not_le.1 hn) n.isLt
      have he : rtRealloc s.heap r n = some (s'.heap, some (blockAddr s'.heap x)) := ha.2.1
      exact absurd he (rtRealloc_small w hr hsz h0 _ _)

/-- CORRECT: in every reachable heap, every block a call returns is aligned, inside the heap, large
    enough and apart from all else exactly when the request does not wrap, or is not served. -/
theorem blocks_good_iff (h : Reachable system s) :
    (∀ n : RtSize, Serves s (.malloc n) n ↔ (n : ℕ) ≤ 2 ^ 32 - 4 ∨ ¬CanAlloc s.heap n) ∧
    (∀ r : Option ℕ, (∀ p ∈ r, p ∈ s.live) → ∀ n : RtSize,
      Serves s (.realloc r n) n ↔ reallocOk s.heap r n) ∧
    (∀ k n : RtSize, Serves s (.calloc k n) (k * n) ↔
      (k : ℕ) * n ≤ 2 ^ 32 - 4 ∨ ¬CanAlloc s.heap ((k : ℕ) * n % 2 ^ 32)) := by
  obtain ⟨os, w⟩ := reachable_owned h
  exact ⟨serves_malloc w, serves_realloc w, serves_calloc w⟩

/-- On the fresh heap a request for 100 bytes is served well. -/
theorem blocks_good_iff_board :
    ∃ s, boardHeap = some s ∧ Serves s (.malloc (100 : RtSize)) 100 := by
  obtain ⟨s, hs⟩ := Option.isSome_iff_exists.1 (show boardHeap.isSome = true by decide +kernel)
  exact ⟨s, hs, ((blocks_good_iff (.init (boardHeap_init hs))).1 100).2 (Or.inl (by decide))⟩

/-- Asked for `2 ^ 32 - 1` bytes, `rt_malloc` hands out twelve. -/
theorem rtMalloc_wraps : ¬∀ s, Reachable system s →
    (∀ n : RtSize, Serves s (.malloc n) n) ∧
    (∀ r : Option ℕ, (∀ p ∈ r, p ∈ s.live) → ∀ n : RtSize, Serves s (.realloc r n) n) ∧
    (∀ k n : RtSize, Serves s (.calloc k n) (k * n)) := by
  intro hall
  have hrun : (boardHeap.bind fun s => (Call.exec s.heap (.malloc ⟨2 ^ 32 - 1, by omega⟩)).map
      fun r => (r.2, blockBytes r.1 0x2000000c)) = some (some 0x2000000c, 12) := by
    decide +kernel
  obtain ⟨s, hs, hr⟩ := Option.bind_eq_some_iff.1 hrun
  obtain ⟨⟨h', r⟩, he, hb⟩ := Option.map_eq_some_iff.1 hr
  obtain ⟨hr, hb⟩ : r = some 0x2000000c ∧ blockBytes h' 0x2000000c = 12 := by
    simpa only [Prod.mk.injEq] using hb
  have hg := (hall s (.init (boardHeap_init hs))).1 ⟨2 ^ 32 - 1, by omega⟩
    ⟨h', 0x2000000c :: s.live⟩ 0x2000000c ⟨by simp [Call.Legal, Call.old], hr ▸ he, by simp⟩
  have hlt : (2 ^ 32 - 1 : ℕ) ≤ blockBytes h' 0x2000000c := hg.holds
  omega

end EasyCore.SmallMem
