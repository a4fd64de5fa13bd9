import EasyCore.Kernel.MemHeapRealloc
import EasyCore.Lib.Runs
import EasyCore.Lib.Live

/-! Runs of the memory heap: a client that allocates, reallocates and frees, and passes only its own
    live blocks.

    `rt_memheap_realloc` compares `nextsize + oldsize` with `newsize + RT_MEMHEAP_MINIALLOC` modulo
    `2 ^ 32`; for the three largest aligned sizes the sum wraps and the block grows into memory that
    is not there. In the runs without such a call the two rings, the marks and the count of
    available bytes agree after every call. -/

namespace EasyCore.MemHeap
open Function Kernel Links Runs Live

/-- A call of the memory heap. -/
inductive Call
  | alloc (size : RtSize)
  | realloc (ptr : Option ℕ) (newsize : RtSize)
  | free (ptr : Option ℕ)
  deriving DecidableEq

/-- The heap and the addresses of the blocks the client holds. -/
structure Client where
  heap : Memheap
  live : List ℕ

/-- The call on the heap: what is left and what is returned. -/
def Call.exec (h : Memheap) : Call → Option (Memheap × Option ℕ)
  | .alloc size => rtMemheapAlloc h size
  | .realloc ptr newsize => rtMemheapRealloc h ptr newsize
  | .free ptr => some (rtMemheapFree h ptr, none)

/-- The block a call takes. -/
def Call.old : Call → Option ℕ
  | .alloc _ => none
  | .realloc ptr _ => ptr
  | .free ptr => ptr

/-- Whether the call gives the block it takes up when it returns `RT_NULL`. -/
def Call.gives : Call → Bool
  | .alloc _ => false
  | .realloc _ newsize => (newsize : ℕ) = 0
  | .free _ => true

/-- The client's blocks after a call that returned `r`. -/
def Call.liveAfter (live : List ℕ) (r : Option ℕ) (c : Call) : List ℕ :=
  match r with
  | some p => p :: live.filter fun q => some q ≠ c.old
  | none => if c.gives then live.filter fun q => some q ≠ c.old else live

/-- The call passes `RT_NULL` or a live block. -/
def Call.Legal (live : List ℕ) (c : Call) : Prop := ∀ p ∈ c.old, p ∈ live

instance (live : List ℕ) (c : Call) : Decidable (c.Legal live) := by
  unfold Call.Legal; infer_instance

/-- A pool: memory inside the address space, apart from the heap object, that can hold a block and
    the tailer. -/
structure Pool where
  junk : Memheap
  freeHeader : ℕ
  startAddr : ℕ
  size : RtSize
  inMemory : startAddr + rtAlignDown size ≤ 2 ^ 32
  apart : freeHeader + 24 ≤ startAddr ∨ startAddr + rtAlignDown size ≤ freeHeader

/-- The heap `rt_memheap_init` makes of a pool. -/
def Pool.heap (p : Pool) : Memheap := rtMemheapInit p.junk p.freeHeader p.startAddr p.size

/-- The memory heap on a pool and its client. -/
def system (p : Pool) : System Client Call where
  init s := s = ⟨p.heap, []⟩
  step s c s' := c.Legal s.live ∧ ∃ r, c.exec s.heap = some (s'.heap, r) ∧
    s'.live = c.liveAfter s.live r

/-! ### The start -/

/-- The fields `rt_memheap_init` leaves: two rings of one block, and the tailer. -/
theorem rtMemheapInit_fields {junk : Memheap} {f s size z e : ℕ} (hz : z = rtAlignDown size)
    (hlt : z < 2 ^ 32) (hp : 48 ≤ z) (he : e = s + z - 24) (hm : s + z ≤ 2 ^ 32) (hfs : f ≠ s)
    (hfe : f ≠ e) (hse : s ≠ e) :
    let h := rtMemheapInit junk f s size
    (h.startAddr = s ∧ h.poolSize = z ∧ h.freeList = f ∧ h.availableSize = z - 48) ∧
    (h.next s = e ∧ h.next e = s ∧ h.prev s = e ∧ h.prev e = s) ∧
    (h.nextFree f = s ∧ h.nextFree s = f ∧ h.prevFree f = s ∧ h.prevFree s = f) ∧
    (h.magic s = memheapMagic ∧ h.magic e = memheapMagic ||| memheapUsed) := by
  intro h
  have hav : sub32 z (2 * memheapSize) = z - 48 := by
    rw [memheapSize_eq]; exact sub32_eq (by omega) hlt
  have hnext : (s + (z - 48) + memheapSize) % 2 ^ 32 = e := by rw [memheapSize_eq]; omega
  have hh : h = rtMemheapInit junk f s size := rfl
  unfold rtMemheapInit at hh
  simp only [← hz, hav, hnext, insertFree, Memheap.setMagic, Memheap.setNext, Memheap.setPrev,
    Memheap.setNextFree, Memheap.setPrevFree, update_self] at hh
  rw [hh]
  simp [hfs, hfs.symm, hfe, hse]

/-- A pool that can hold two headers is one free block and the tailer. -/
theorem Pool.inv (p : Pool) (hp : 48 ≤ rtAlignDown p.size) :
    Inv p.heap [p.startAddr] [p.startAddr] (p.startAddr + rtAlignDown p.size - 24) ∧
      ¬p.heap.isUsed p.startAddr := by
  obtain ⟨s, hs⟩ : ∃ s, s = p.startAddr := ⟨_, rfl⟩
  obtain ⟨z, hz⟩ : ∃ z, z = rtAlignDown p.size := ⟨_, rfl⟩
  obtain ⟨f, hf⟩ : ∃ f, f = p.freeHeader := ⟨_, rfl⟩
  have hm := p.inMemory
  have ha := p.apart
  rw [← hs, ← hz] at hm
  rw [← hs, ← hz, ← hf] at ha
  rw [← hz] at hp
  have hlt : z < 2 ^ 32 := by
    have := p.size.isLt
    unfold rtAlignDown at hz; omega
  obtain ⟨e, he⟩ : ∃ e, e = s + z - 24 := ⟨_, rfl⟩
  have hse : s ≠ e := by omega
  have hfs : f ≠ s := by omega
  obtain ⟨⟨h1, h2, h3, h4⟩, ⟨n1, n2, p1, p2⟩, ⟨f1, f2, f3, f4⟩, ⟨m1, m2⟩⟩ :=
    @rtMemheapInit_fields p.junk f s p.size z e hz hlt hp he hm hfs (by omega) hse
  obtain ⟨h, hh⟩ : ∃ h, h = p.heap := ⟨_, rfl⟩
  have hh' : rtMemheapInit p.junk f s p.size = h := by rw [hh, hf, hs]; rfl
  rw [hh'] at h1 h2 h3 h4 n1 n2 p1 p2 f1 f2 f3 f4 m1 m2
  rw [← hh, ← hs, ← hz, ← he]
  have hu : ¬h.isUsed s := isUsed_of_magic m1
  refine ⟨⟨⟨?_, ?_, by omega, by omega⟩, isUsed_or m2, ?_, fun x => ?_, .singleton _, ?_, ?_⟩, hu⟩
  · rw [h1]
    refine ⟨rfl, ?_, ?_, by simp [hse]⟩
    · exact List.isChain_cons_cons.2 ⟨n1, List.isChain_cons_cons.2 ⟨n2, .singleton _⟩⟩
    · exact List.isChain_cons_cons.2 ⟨p2, List.isChain_cons_cons.2 ⟨p1, .singleton _⟩⟩
  · refine List.isChain_cons_cons.2 ⟨?_, .singleton _⟩
    unfold Gap; omega
  · unfold FreeRing; rw [h3]
    refine ⟨rfl, ?_, ?_, by simp [hfs]⟩
    · exact List.isChain_cons_cons.2 ⟨f1, List.isChain_cons_cons.2 ⟨f2, .singleton _⟩⟩
    · exact List.isChain_cons_cons.2 ⟨f4, List.isChain_cons_cons.2 ⟨f3, .singleton _⟩⟩
  · simp only [List.mem_singleton]
    exact ⟨fun hx => ⟨hx, hx ▸ hu⟩, fun hx => hx.1⟩
  · have : MemHeap.size h s = e - s - 24 := by unfold MemHeap.size; rw [n1]
    rw [h4, List.map_singleton, List.sum_singleton, this]; omega
  · rw [h1, h2, h3]; exact ha

/-! ### One call -/

/-- The client's blocks are the blocks in use, 24 bytes behind their headers. -/
structure Owned (s : Client) (bs fs : List ℕ) (e : ℕ) : Prop where
  inv : Inv s.heap bs fs e
  holds : Holds (· + 24) (InUse s.heap bs) s.live

/-- The call does not grow a block to a size at which `newsize + RT_MEMHEAP_MINIALLOC` wraps, or no
    free item is behind the block. -/
def callOk (h : Memheap) : Call → Prop
  | .realloc (some p) newsize =>
    (newsize : ℕ) ≠ 0 → size h (p - 24) < max (rtAlign newsize) 12 →
      growOk h (p - 24) (max (rtAlign newsize) 12)
  | _ => True

instance (h : Memheap) (x m : ℕ) : Decidable (growOk h x m) := by unfold growOk; infer_instance

instance (h : Memheap) : ∀ c, Decidable (callOk h c)
  | .alloc _ => inferInstanceAs (Decidable True)
  | .free _ => inferInstanceAs (Decidable True)
  | .realloc none _ => inferInstanceAs (Decidable True)
  | .realloc (some _) _ => inferInstanceAs (Decidable (_ → _ → _))

variable {s s' : Client} {bs fs : List ℕ} {e x m : ℕ}

theorem addr_inj : Injective (fun z : ℕ => z + 24) := fun a b h => by simpa using h

theorem Owned.taken {h' : Memheap} {bs' fs' : List ℕ} (w : Owned s bs fs e)
    (t : Taken s.heap h' bs bs' fs' e x m) : Owned ⟨h', (x + 24) :: s.live⟩ bs' fs' e :=
  ⟨t.inv, w.holds.take addr_inj (fun hx => t.fresh.2 hx.2) t.inUse fun _ => rfl⟩

theorem Owned.freed {h' : Memheap} {bs' fs' : List ℕ} (w : Owned s bs fs e)
    (f : Freed s.heap h' bs bs' fs' e x) :
    Owned ⟨h', s.live.filter fun q => some q ≠ some (x + 24)⟩ bs' fs' e :=
  ⟨f.inv, w.holds.drop addr_inj f.inUse fun _ => rfl⟩

theorem Owned.resized {h' : Memheap} {bs' fs' : List ℕ} (w : Owned s bs fs e)
    (r : Resized s.heap h' bs bs' fs' e x m) : Owned ⟨h', s.live⟩ bs' fs' e :=
  ⟨r.inv, w.holds.congr r.inUse fun _ => rfl⟩

theorem Owned.perm {live' : List ℕ} (w : Owned s bs fs e) (hl : live'.Perm s.live) :
    Owned ⟨s.heap, live'⟩ bs fs e := ⟨w.inv, w.holds.perm hl⟩

theorem liveAfter_fresh {live : List ℕ} {r : Option ℕ} {c : Call} (hc : c.old = none) :
    c.liveAfter live r = r.toList ++ live := by
  cases r <;> simp [Call.liveAfter, hc]

/-- A successful search adds a block, a failed one changes nothing. -/
theorem rtMemheapAlloc_step (w : Owned s bs fs e) {n : ℕ} {h' : Memheap} {r : Option ℕ}
    (he : rtMemheapAlloc s.heap n = some (h', r)) :
    ∃ bs' fs', Owned ⟨h', r.toList ++ s.live⟩ bs' fs' e := by
  rcases rtMemheapAlloc_spec w.inv n with ⟨x, h₁, bs', fs', heq, ht⟩ | heq
  · rw [heq] at he
    obtain ⟨rfl, rfl⟩ := Prod.mk.inj (Option.some.inj he)
    exact ⟨bs', fs', w.taken ht⟩
  · rw [heq] at he
    obtain ⟨rfl, rfl⟩ := Prod.mk.inj (Option.some.inj he)
    exact ⟨bs, fs, w⟩

/-- One lemma for the three calls: after a call that meets the condition the client owns the blocks
    in use of a heap that satisfies the invariant. -/
theorem call_step {p : Pool} (w : Owned s bs fs e) {c : Call} (hok : callOk s.heap c)
    (hst : (system p).step s c s') : ∃ bs' fs', Owned s' bs' fs' e := by
  obtain ⟨h', live'⟩ := s'
  obtain ⟨hleg, r, he, hl⟩ := hst
  obtain rfl : live' = _ := hl
  cases c with
  | alloc n =>
    obtain ⟨bs', fs', hw⟩ := rtMemheapAlloc_step w he
    exact ⟨bs', fs', by rw [liveAfter_fresh rfl]; exact hw⟩
  | free q =>
    obtain ⟨rfl, rfl⟩ := Prod.mk.inj (Option.some.inj he)
    cases q with
    | none => exact ⟨bs, fs, by rw [liveAfter_fresh rfl]; exact w⟩
    | some p =>
      obtain ⟨x, hx, rfl⟩ := (w.holds.mem p).1 (hleg p rfl)
      obtain ⟨bs', fs', hf⟩ := rtMemheapFree_spec w.inv hx
      exact ⟨bs', fs', w.freed hf⟩
  | realloc q n =>
    cases q with
    | none =>
      have he : rtMemheapRealloc s.heap none n = some (h', r) := he
      unfold rtMemheapRealloc at he
      split at he
      · obtain ⟨rfl, rfl⟩ := Prod.mk.inj (Option.some.inj he)
        exact ⟨bs, fs, by rw [liveAfter_fresh rfl]; exact w⟩
      · obtain ⟨bs', fs', hw⟩ := rtMemheapAlloc_step w he
        exact ⟨bs', fs', by rw [liveAfter_fresh rfl]; exact hw⟩
    | some p =>
      obtain ⟨x, hx, rfl⟩ := (w.holds.mem p).1 (hleg p rfl)
      have he : rtMemheapRealloc s.heap (some (x + 24)) n = some (h', r) := he
      have hperm := w.holds.keep_perm (hleg _ rfl)
      have hsp := rtMemheapRealloc_spec w.inv hx n (by simpa [callOk] using hok)
      rw [he] at hsp
      rcases hsp with ⟨h₁, bs', fs', hn, hf⟩ | hn | hn | ⟨hn, h₁, bs', fs', k, hr⟩ |
        ⟨hn, y, h₁, h₂, h₃, bs₁, fs₁, bs', fs', k, ht, d, hd, hf⟩
      · refine ⟨bs', fs', ?_⟩
        simp only [Call.liveAfter, Call.gives, Call.old, hn, decide_true, if_true]
        exact w.freed hf
      · refine ⟨bs, fs, ?_⟩
        simp only [Call.liveAfter, Call.gives, hn, decide_false, Bool.false_eq_true, if_false]
        exact w
      · exact ⟨bs, fs, w.perm hperm⟩
      · exact ⟨bs', fs', (w.perm hperm).resized hr⟩
      · have w₁ := w.taken ht
        have w₂ : Owned ⟨h₂, (y + 24) :: s.live⟩ bs₁ fs₁ e :=
          ⟨hd ▸ w₁.inv.setData d, hd ▸ w₁.holds⟩
        have hne : y + 24 ≠ x + 24 := fun e => ht.fresh.2 (addr_inj e ▸ hx.2)
        have w₃ := w₂.freed hf
        rw [Holds.cons_filter hne] at w₃
        exact ⟨bs', fs', w₃⟩

/-! ### Runs -/

/-- The representation invariant: the blocks tile the pool in address order, closed by the tailer;
    the free ring holds exactly the blocks that are not in use; no two free blocks are neighbours;
    and the available bytes are those of the free blocks. -/
def RepInv (h : Memheap) : Prop :=
  ∃ bs fs e, Blocks h bs e ∧ h.isUsed e ∧ FreeRing h fs ∧ (∀ z, z ∈ fs ↔ z ∈ bs ∧ ¬h.isUsed z) ∧
    NoAdj h bs ∧ h.availableSize = ((bs.filter fun z => ¬h.isUsed z).map (size h)).sum

theorem Inv.repInv {h : Memheap} (i : Inv h bs fs e) : RepInv h := by
  refine ⟨bs, fs, e, i.blocks, i.tailUsed, i.ring, i.mem_free, i.noAdj, ?_⟩
  have hnd : bs.Nodup := (List.nodup_append.1 i.blocks.ring.nodup).1
  have hperm : fs.Perm (bs.filter fun z => ¬h.isUsed z) := by
    rw [List.perm_ext_iff_of_nodup i.free_nodup (hnd.filter _)]
    intro z
    simpa using i.mem_free z
  rw [i.avail]
  exact (hperm.map (size h)).sum_eq

/-- One call, as a function of the client. -/
def Client.call (s : Client) (c : Call) : Option Client :=
  if c.Legal s.live then
    (c.exec s.heap).map fun r => ⟨r.1, c.liveAfter s.live r.2⟩
  else none

theorem Client.call_step {p : Pool} {c : Call} (h : s.call c = some s') :
    (system p).step s c s' := by
  obtain ⟨hleg, h⟩ := Option.ite_none_right_eq_some.1 h
  obtain ⟨⟨h', r⟩, he, rfl⟩ := Option.map_eq_some_iff.1 h
  exact ⟨hleg, r, he, rfl⟩

/-- One KiB of the board's RAM, the heap object in front of it. -/
def boardPool : Pool where
  junk := ⟨0, 0, 0, 0, 0, 0, fun _ => 0, fun _ => 0, fun _ => 0, fun _ => 0, fun _ => 0,
    fun _ => 0⟩
  freeHeader := 0x20000100
  startAddr := 0x20000200
  size := ⟨1024, by omega⟩
  inMemory := by decide
  apart := by decide

/-- The heap on it, and a client that holds nothing. -/
def boardHeap : Client := ⟨boardPool.heap, []⟩

/-- A call that meets the condition of the run. -/
def Client.callIfOk (s : Client) (c : Call) : Option Client :=
  if callOk s.heap c then s.call c else none

theorem Client.callIfOk_step {p : Pool} {c : Call} (h : s.callIfOk c = some s') :
    callOk s.heap c ∧ (system p).step s c s' := by
  obtain ⟨hok, hc⟩ := Option.ite_none_right_eq_some.1 h
  exact ⟨hok, Client.call_step hc⟩

/-- Two blocks are taken, the second grows into the rest, the first is given back. -/
def growRun : List Call :=
  [.alloc ⟨100, by omega⟩, .alloc ⟨40, by omega⟩, .realloc (some 0x20000294) ⟨80, by omega⟩,
    .free (some 0x20000218)]

/-- In a run whose growing calls do not wrap the client owns the blocks in use. -/
theorem Owned.of_callOk (p : Pool) (hp : 48 ≤ rtAlignDown p.size)
    (h : Reach (system p) (fun s c => callOk s.heap c) s) :
    ∃ bs fs, Owned s bs fs (p.startAddr + rtAlignDown p.size - 24) := by
  refine h.invariant
    (I := fun s => ∃ bs fs, Owned s bs fs (p.startAddr + rtAlignDown p.size - 24)) ?_ ?_
  · rintro s rfl
    obtain ⟨i, hu⟩ := p.inv hp
    refine ⟨_, _, i, Holds.nil ?_⟩
    rintro z ⟨hz, hzu⟩
    exact hu (List.mem_singleton.1 hz ▸ hzu)
  · rintro s c s' ⟨bs, fs, w⟩ hok hst
    exact call_step w hok hst

/-- CORRECT: on every pool that can hold two headers, in every run whose growing calls do not wrap,
    the heap satisfies its representation invariant after every call. -/
theorem repInv_of_callOk (p : Pool) (hp : 48 ≤ rtAlignDown p.size)
    (h : Reach (system p) (fun s c => callOk s.heap c) s) : RepInv s.heap := by
  obtain ⟨bs, fs, w⟩ := Owned.of_callOk p hp h
  exact w.inv.repInv

theorem repInv_of_callOk_run :
    ∃ s, replay Client.callIfOk boardHeap growRun = some s ∧ RepInv s.heap := by
  obtain ⟨s, hs⟩ := Option.isSome_iff_exists.1
    (show (replay Client.callIfOk boardHeap growRun).isSome = true by decide +kernel)
  exact ⟨s, hs, repInv_of_callOk boardPool (by decide)
    (Reach.of_replay (fun _ _ _ => Client.callIfOk_step) _ (Reach.init rfl) hs)⟩

/-- A block of 100 bytes asked to grow to `2 ^ 32 - 4` is said to have grown. -/
theorem grow_wraps : ¬∀ p : Pool, ∀ s, Reachable (system p) s → RepInv s.heap := by
  intro hall
  have hrun : ((replay Client.call boardHeap
      [.alloc ⟨100, by omega⟩, .realloc (some 0x20000218) ⟨2 ^ 32 - 4, by omega⟩]).map
      fun s => (s.heap.startAddr, s.heap.poolSize, s.heap.next 0x20000200)) =
      some (0x20000200, 1024, 0x20000214) := by decide +kernel
  obtain ⟨s, hs, he⟩ := Option.map_eq_some_iff.1 hrun
  obtain ⟨h1, h2, h3⟩ : s.heap.startAddr = 0x20000200 ∧ s.heap.poolSize = 1024 ∧
      s.heap.next 0x20000200 = 0x20000214 := by simpa only [Prod.mk.injEq] using he
  obtain ⟨bs, fs, e, k, -⟩ := hall boardPool s (Reach.of_replay
    (fun _ _ _ hc => ⟨trivial, Client.call_step hc⟩) _ (Reach.init rfl) hs)
  have hte := k.tailEnd
  have hhd := k.ring.head
  cases bs with
  | nil =>
    have : e = s.heap.startAddr := by simpa using hhd
    omega
  | cons b bs =>
    have hb : b = s.heap.startAddr := by simpa using hhd
    have := (k.next_ge (x := b) (by simp)).1
    rw [hb, h1, h3] at this
    omega

end EasyCore.MemHeap
