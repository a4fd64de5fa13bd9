import EasyCore.Kernel.SmallMemCalls
import EasyCore.Lib.Runs
import EasyCore.Lib.Live

/-! Runs of the small-memory allocator: a client that allocates, reallocates and frees, and passes
    only its own live blocks.

    The structure of the heap survives every call. The place of `lfree` does not: `rt_realloc`
    cuts a free item off a block in place and never lowers `lfree` to it. In the runs that shrink
    no block in front of `lfree` the whole representation invariant holds after every call. -/

namespace EasyCore.SmallMem
open Function Links Kernel Runs Live

/-- A call of the allocator. -/
inductive Call
  | malloc (size : RtSize)
  | calloc (count size : RtSize)
  | realloc (rmem : Option ℕ) (newsize : RtSize)
  | free (rmem : Option ℕ)
  deriving DecidableEq

/-- The heap and the addresses of the blocks the client holds. -/
structure Client where
  heap : Heap
  live : List ℕ

/-- The call on the heap: what is left and what is returned. -/
def Call.exec (h : Heap) : Call → Option (Heap × Option ℕ)
  | .malloc size => rtMalloc h size
  | .calloc count size => rtCalloc h count size
  | .realloc rmem newsize => rtRealloc h rmem newsize
  | .free rmem => some (rtFree h rmem, none)

/-- The block a call gives up when it succeeds. -/
def Call.old : Call → Option ℕ
  | .malloc _ => none
  | .calloc _ _ => none
  | .realloc rmem _ => rmem
  | .free rmem => rmem

/-- The client's blocks after a call that returned `r`. A failed `rt_realloc` gives up nothing. -/
def Call.liveAfter (live : List ℕ) (r : Option ℕ) : Call → List ℕ
  | .free rmem => live.filter fun q => some q ≠ rmem
  | c => match r with
    | none => live
    | some p => p :: live.filter fun q => some q ≠ c.old

@[simp] theorem liveAfter_malloc (live : List ℕ) (r : Option ℕ) (n : RtSize) :
    Call.liveAfter live r (.malloc n) = r.toList ++ live := by
  cases r <;> simp [Call.liveAfter, Call.old]

@[simp] theorem liveAfter_calloc (live : List ℕ) (r : Option ℕ) (k n : RtSize) :
    Call.liveAfter live r (.calloc k n) = r.toList ++ live := by
  cases r <;> simp [Call.liveAfter, Call.old]

@[simp] theorem liveAfter_realloc_null (live : List ℕ) (r : Option ℕ) (n : RtSize) :
    Call.liveAfter live r (.realloc none n) = r.toList ++ live := by
  cases r <;> simp [Call.liveAfter, Call.old]

@[simp] theorem liveAfter_free_null (live : List ℕ) (r : Option ℕ) :
    Call.liveAfter live r (.free none) = live := by simp [Call.liveAfter]

/-- The call passes `RT_NULL` or a live block. -/
def Call.Legal (live : List ℕ) (c : Call) : Prop := ∀ p ∈ c.old, p ∈ live

instance (live : List ℕ) (c : Call) : Decidable (c.Legal live) := by
  unfold Call.Legal; infer_instance

/-- `s'` is the client after the legal call `c` returned `r`. -/
def Answers (s : Client) (c : Call) (r : Option ℕ) (s' : Client) : Prop :=
  c.Legal s.live ∧ c.exec s.heap = some (s'.heap, r) ∧ s'.live = c.liveAfter s.live r

/-- The allocator and its client, from `rt_system_heap_init` on. -/
def system : System Client Call where
  init s := s.live = [] ∧ ∃ hdr data b e, rtSystemHeapInit hdr data b e = some s.heap
  step s c s' := ∃ r, Answers s c r s'

/-! ### The start -/

theorem rtSystemHeapInit_wf {hdr : ℕ → HeapMem} {data : ℕ → UInt8} {b e : RtSize} {h : Heap}
    (hi : rtSystemHeapInit hdr data b e = some h) :
    Wf h [0] ∧ Lowest h [0] ∧ h.used 0 = 0 := by
  unfold rtSystemHeapInit at hi
  simp only [sizeofStructMem_eq] at hi
  split at hi
  · rename_i hc
    have he := e.isLt
    have hal : rtAlign b % 4 = 0 := by unfold rtAlign; omega
    obtain ⟨begin, hbegin⟩ : ∃ x, x = rtAlign (b : ℕ) := ⟨_, rfl⟩
    obtain ⟨endA, hendA⟩ : ∃ x, x = rtAlignDown (e : ℕ) := ⟨_, rfl⟩
    have hendA4 : endA % 4 = 0 ∧ endA ≤ (e : ℕ) := by unfold rtAlignDown at hendA; omega
    rw [← hbegin, ← hendA] at hi hc
    rw [← hbegin] at hal
    obtain ⟨m, hm⟩ : ∃ m, m = endA - begin - 2 * 12 := ⟨_, rfl⟩
    rw [← hm] at hi
    have hi := Option.some.inj hi
    have hne : (0 : ℕ) ≠ m + 12 := by omega
    have hnx : h.next = update (update (fun o => (hdr o).next) 0 (m + 12)) (m + 12) (m + 12) := by
      rw [← hi]; simp; rfl
    have hpv : h.prev = update (update (fun o => (hdr o).prev) 0 0) (m + 12) (m + 12) := by
      rw [← hi]; simp; rfl
    have hus : h.used = update (update (fun o => (hdr o).used) 0 0) (m + 12) 1 := by
      rw [← hi]; simp; rfl
    have hP : h.heapPtr = begin := by rw [← hi]; simp
    have hE : h.heapEnd = m + 12 := by rw [← hi]; simp
    have hM : h.memSizeAligned = m := by rw [← hi]; simp
    have hL : h.lfree = 0 := by rw [← hi]; simp
    have hu0 : h.used 0 = 0 := by rw [hus, update_of_ne hne, update_self]
    refine ⟨⟨⟨rfl, ?_, .singleton _, ?_, ?_, ?_, ?_, ?_, ?_, ?_, ?_⟩, .singleton _, ?_, ?_⟩, ?_,
      hu0⟩
    · refine List.isChain_cons_cons.2 ⟨?_, .singleton _⟩
      rw [hnx, hE, update_of_ne hne, update_self]
    · rw [hpv, update_of_ne hne, update_self]
    · refine List.isChain_cons_cons.2 ⟨?_, .singleton _⟩
      unfold Gap; omega
    · rw [hE]; simp; omega
    · rw [hE, hus, update_self]; omega
    · rw [hE, hnx, update_self]
    · rw [hE, hM]
    · rw [hP]; exact hal
    · rw [hP, hE]; omega
    · exact Or.inr ⟨by simp [hL], by rw [hL]; exact hu0⟩
    · rintro z ⟨hz, hzu⟩
      rw [List.mem_singleton.1 hz] at hzu; exact absurd hu0 hzu
    · intro o ho _; rw [hL]; omega
  · cases hi

/-! ### One call -/

/-- The client's blocks are the items in use. -/
structure Owned (s : Client) (os : List ℕ) : Prop where
  wf : Wf s.heap os
  holds : Holds (blockAddr s.heap) (InUse s.heap os) s.live

/-- Where a call may cut a block in place: behind `lfree`, or right in front of it. -/
def shrinkOk (h : Heap) : Call → Prop
  | .realloc (some p) newsize =>
    let ptr := p - 12 - h.heapPtr
    rtAlign newsize + 24 < userSize h ptr →
      h.lfree < ptr ∨ h.lfree = h.next ptr ∧ h.next ptr ≠ h.heapEnd
  | _ => True

instance (h : Heap) : ∀ c, Decidable (shrinkOk h c)
  | .malloc _ => inferInstanceAs (Decidable True)
  | .calloc _ _ => inferInstanceAs (Decidable True)
  | .free _ => inferInstanceAs (Decidable True)
  | .realloc none _ => inferInstanceAs (Decidable True)
  | .realloc (some _) _ => inferInstanceAs (Decidable (_ → _))

variable {s s' : Client} {os : List ℕ}

theorem SameArea.blockAddr {h h' : Heap} (a : SameArea h h') (o : ℕ) :
    blockAddr h' o = blockAddr h o := by unfold SmallMem.blockAddr; rw [a.heapPtr]

theorem blockAddr_inj (h : Heap) : Injective (blockAddr h) := fun o o' he => by
  unfold blockAddr at he; omega

/-- A block just taken joins the client's blocks. -/
theorem Owned.taken {h' : Heap} {os' : List ℕ} {size x : ℕ} (w : Owned s os)
    (t : Taken s.heap h' os os' size x) : Owned ⟨h', blockAddr s.heap x :: s.live⟩ os' :=
  ⟨t.wf, w.holds.take (blockAddr_inj _) (fun hx => hx.2 t.fresh.2) t.inUse t.area.blockAddr⟩

/-- A block given back leaves the client's blocks. -/
theorem Owned.freed {h' : Heap} {os' : List ℕ} {o : ℕ} (w : Owned s os)
    (f : Freed s.heap h' os os' o) :
    Owned ⟨h', s.live.filter fun q => some q ≠ some (blockAddr s.heap o)⟩ os' :=
  ⟨f.wf, w.holds.drop (blockAddr_inj _) f.inUse f.area.blockAddr⟩

/-- A block shrunk in place stays in the client's hands. -/
theorem Owned.shrunk {h' : Heap} {os' : List ℕ} {o m : ℕ} (w : Owned s os)
    (k : Shrunk s.heap h' os os' o m) : Owned ⟨h', s.live⟩ os' :=
  ⟨k.wf, w.holds.congr k.inUse k.area.blockAddr⟩

theorem Owned.perm {live' : List ℕ} (w : Owned s os) (hl : live'.Perm s.live) :
    Owned ⟨s.heap, live'⟩ os := ⟨w.wf, w.holds.perm hl⟩

/-- Another block's bytes do not matter. -/
theorem Owned.setData (w : Owned s os) (d : ℕ → UInt8) : Owned ⟨s.heap.setData d, s.live⟩ os :=
  ⟨w.wf.setData d, w.holds⟩

/-- A successful search adds a block, a failed one changes nothing. -/
theorem rtMalloc_step (w : Owned s os) {n : ℕ} {h' : Heap} {r : Option ℕ}
    (he : rtMalloc s.heap n = some (h', r)) :
    ∃ os', Owned ⟨h', r.toList ++ s.live⟩ os' ∧ (Lowest s.heap os → Lowest h' os') := by
  rcases rtMalloc_spec w.wf n with ⟨x, h₁, os₁, -, heq, ht⟩ | ⟨-, heq | heq, -⟩
  · obtain ⟨rfl, rfl⟩ : h₁ = h' ∧ some (blockAddr s.heap x) = r := by
      rw [heq] at he; exact Prod.mk.inj (Option.some.inj he)
    exact ⟨os₁, w.taken ht, ht.low⟩
  · rw [heq] at he; cases he
  · obtain ⟨rfl, rfl⟩ : s.heap = h' ∧ none = r := by
      rw [heq] at he; exact Prod.mk.inj (Option.some.inj he)
    exact ⟨os, w, id⟩

/-- One lemma for the four calls: the client owns the items in use again, and `lfree` is lowest
    again unless the call cut a block in front of it. -/
theorem call_step (w : Owned s os) {c : Call} (hst : system.step s c s') :
    ∃ os', Owned s' os' ∧ (Lowest s.heap os → shrinkOk s.heap c → Lowest s'.heap os') := by
  obtain ⟨h', live'⟩ := s'
  obtain ⟨r, hleg, he, hl⟩ := hst
  obtain rfl : live' = _ := hl
  cases c with
  | malloc n =>
    obtain ⟨os', hw, hlow⟩ := rtMalloc_step w he
    exact ⟨os', by simpa using hw, fun h1 _ => hlow h1⟩
  | calloc k n =>
    simp only [Call.exec, rtCalloc] at he
    split at he
    · rename_i h₁ p heq
      obtain ⟨rfl, rfl⟩ := Prod.mk.inj (Option.some.inj he)
      obtain ⟨os', hw, hlow⟩ := rtMalloc_step w heq
      exact ⟨os', by simpa using hw.setData _, fun h1 _ => hlow h1⟩
    · obtain ⟨os', hw, hlow⟩ := rtMalloc_step w he
      exact ⟨os', by simpa using hw, fun h1 _ => hlow h1⟩
  | free q =>
    obtain ⟨rfl, rfl⟩ := Prod.mk.inj (Option.some.inj he)
    cases q with
    | none => exact ⟨os, by simpa [rtFree] using w, fun h1 _ => h1⟩
    | some p =>
      obtain ⟨o, ho, rfl⟩ := (w.holds.mem p).1 (hleg p rfl)
      obtain ⟨os', hf⟩ := rtFree_spec w.wf ho
      exact ⟨os', w.freed hf, fun h1 _ => hf.low h1⟩
  | realloc q n =>
    cases q with
    | none =>
      have he : rtRealloc s.heap none n = some (h', r) := he
      unfold rtRealloc at he
      dsimp only at he
      split at he
      · obtain ⟨rfl, rfl⟩ := Prod.mk.inj (Option.some.inj he)
        exact ⟨os, by simpa using w, fun h1 _ => h1⟩
      · obtain ⟨os', hw, hlow⟩ := rtMalloc_step w he
        exact ⟨os', by simpa using hw, fun h1 _ => hlow h1⟩
    | some p =>
      obtain ⟨o, ho, rfl⟩ := (w.holds.mem p).1 (hleg p rfl)
      have he : rtRealloc s.heap (some (blockAddr s.heap o)) n = some (h', r) := he
      have hperm := w.holds.keep_perm (hleg _ rfl)
      have hptr : blockAddr s.heap o - 12 - s.heap.heapPtr = o := by unfold blockAddr; omega
      have hr := rtRealloc_spec w.wf ho (n : ℕ)
      rw [he] at hr
      rcases hr with hs | _ | ⟨hs⟩ | ⟨h₁, os₁, hs, hk⟩ |
        ⟨x, h₁, h₂, h₃, os₁, os', hs, hc, ht, hd, hf⟩
      · exact ⟨os, w, fun h1 _ => h1⟩
      · exact ⟨os, w.perm hperm, fun h1 _ => h1⟩
      · refine ⟨os₁, (w.perm hperm).shrunk hk, fun h1 h2 => hk.low h1 ?_⟩
        simp only [shrinkOk, hptr] at h2
        exact h2 hs
      · have w₁ : Owned ⟨h₂, blockAddr s.heap x :: s.live⟩ os₁ := hd ▸ (w.taken ht).setData _
        have ha : blockAddr h₂ o = blockAddr s.heap o := by
          rw [hd]; exact ht.area.blockAddr o
        have hne : blockAddr s.heap x ≠ blockAddr s.heap o := fun e =>
          ho.2 (blockAddr_inj _ e ▸ ht.fresh.2)
        have w₂ := w₁.freed hf
        simp only [ha] at w₂
        rw [Holds.cons_filter hne] at w₂
        exact ⟨os', w₂, fun h1 _ => hf.low (by rw [hd]; exact ht.low h1)⟩

/-! ### Runs -/

theorem owned_init {hdr : ℕ → HeapMem} {data : ℕ → UInt8} {b e : RtSize} (hl : s.live = [])
    (hi : rtSystemHeapInit hdr data b e = some s.heap) : Owned s [0] := by
  obtain ⟨w, -, hu⟩ := rtSystemHeapInit_wf hi
  refine ⟨w, ?_⟩
  rw [hl]
  refine Holds.nil ?_
  rintro o ⟨ho, hou⟩
  rw [List.mem_singleton.1 ho] at hou; exact hou hu

/-- In every run the client owns exactly the items in use of a well-formed heap. -/
theorem reachable_owned (h : Reachable system s) : ∃ os, Owned s os := by
  refine h.invariant (I := fun s => ∃ os, Owned s os) ?_ ?_
  · rintro s ⟨hl, hdr, data, b, e, hi⟩
    exact ⟨[0], owned_init hl hi⟩
  · rintro s c s' ⟨os, w⟩ - hst
    obtain ⟨os', w', -⟩ := call_step w hst
    exact ⟨os', w'⟩

/-- `l` is the lowest-addressed free item of the list, or `heap_end` when there is none. -/
def IsLowestFree (h : Heap) (os : List ℕ) (l : ℕ) : Prop :=
  (l ∈ os ∧ h.used l = 0 ∧ ∀ o ∈ os, h.used o = 0 → l ≤ o) ∨
    (l = h.heapEnd ∧ ∀ o ∈ os, h.used o ≠ 0)

/-- The representation invariant: the items tile the heap, no two free ones are neighbours, and
    `lfree` is the lowest free one. -/
def RepInv (h : Heap) : Prop := ∃ os, Tiled h os ∧ NoAdj h os ∧ IsLowestFree h os h.lfree

theorem Wf.isLowestFree {h : Heap} (w : Wf h os) (hlow : Lowest h os) :
    IsLowestFree h os h.lfree := by
  rcases w.lfreeOk with hl | ⟨hm, hu⟩
  · refine Or.inr ⟨hl, fun o ho hu => ?_⟩
    have := hlow o ho hu
    have := w.tiled.lt_end ho; omega
  · exact Or.inl ⟨hm, hu, hlow⟩

/-- A free header below `lfree` breaks the invariant. -/
theorem not_repInv {h : Heap} {x : ℕ} (hx : IsItem h x) (hu : h.used x = 0) (hl : x < h.lfree) :
    ¬RepInv h := by
  rintro ⟨os, t, -, hlow⟩
  have hm : x ∈ os := by
    rcases List.mem_append.1 (t.isItem_iff.1 hx) with hm | hm
    · exact hm
    · exact absurd (List.mem_singleton.1 hm ▸ hu) t.endUsed
  rcases hlow with ⟨-, -, hall⟩ | ⟨-, hall⟩
  · have := hall x hm hu; omega
  · exact hall x hm hu

/-- One call, as a function of the client. -/
def Client.call (s : Client) (c : Call) : Option Client :=
  if c.Legal s.live then
    (c.exec s.heap).map fun r => ⟨r.1, c.liveAfter s.live r.2⟩
  else none

theorem Client.call_step {c : Call} (h : s.call c = some s') : system.step s c s' := by
  unfold Client.call at h
  split at h
  · rename_i hleg
    obtain ⟨⟨h', r⟩, he, rfl⟩ := Option.map_eq_some_iff.1 h
    exact ⟨r, hleg, he, rfl⟩
  · cases h

/-- 1000 bytes at the start of the board's RAM become the heap. -/
def boardHeap : Option Client :=
  (rtSystemHeapInit (fun _ => ⟨0, 0, 0, 0⟩) (fun _ => 0) ⟨0x20000000, by omega⟩
    ⟨0x200003e8, by omega⟩).map fun h => ⟨h, []⟩

theorem boardHeap_init (h : boardHeap = some s) : system.init s := by
  obtain ⟨h₀, hi, rfl⟩ := Option.map_eq_some_iff.1 h
  exact ⟨rfl, _, _, _, _, hi⟩

/-- CORRECT: in every run that cuts no block in front of `lfree`, the heap satisfies its
    representation invariant after every call. -/
theorem repInv_of_shrinkOk (h : Reach system (fun s c => shrinkOk s.heap c) s) :
    RepInv s.heap := by
  have key : ∃ os, Owned s os ∧ Lowest s.heap os := by
    refine h.invariant (I := fun s => ∃ os, Owned s os ∧ Lowest s.heap os) ?_ ?_
    · rintro s ⟨hl, hdr, data, b, e, hi⟩
      obtain ⟨w, hlow, hu⟩ := rtSystemHeapInit_wf hi
      refine ⟨[0], owned_init hl hi, hlow⟩
    · rintro s c s' ⟨os, w, hlow⟩ hok hst
      obtain ⟨os', w', hlow'⟩ := call_step w hst
      exact ⟨os', w', hlow' hlow hok⟩
  obtain ⟨os, w, hlow⟩ := key
  exact ⟨os, w.wf.tiled, w.wf.noAdj, w.wf.isLowestFree hlow⟩

/-- The heap after a block behind `lfree` was cut in two. -/
theorem repInv_of_shrinkOk_run : ∃ s, (boardHeap.bind fun s => replay
    (fun s c => if shrinkOk s.heap c then s.call c else none) s
    [.malloc ⟨16, by omega⟩, .malloc ⟨64, by omega⟩, .free (some 0x2000000c),
      .realloc (some 0x20000028) ⟨8, by omega⟩]) = some s ∧ RepInv s.heap := by
  obtain ⟨s, hs⟩ := Option.isSome_iff_exists.1 (show (boardHeap.bind fun s => replay
    (fun s c => if shrinkOk s.heap c then s.call c else none) s
    [.malloc ⟨16, by omega⟩, .malloc ⟨64, by omega⟩, .free (some 0x2000000c),
      .realloc (some 0x20000028) ⟨8, by omega⟩]).isSome = true by decide +kernel)
  obtain ⟨s₀, h₀, hr⟩ := Option.bind_eq_some_iff.1 hs
  refine ⟨s, hs, repInv_of_shrinkOk (Reach.of_replay (fun s c s' hc => ?_) _
    (Reach.init (boardHeap_init h₀)) hr)⟩
  obtain ⟨hok, hc⟩ := Option.ite_none_right_eq_some.1 hc
  exact ⟨hok, Client.call_step hc⟩

/-- The block at the heap's start is shrunk in place while `lfree` lies two items behind it. -/
def shrinkInFront : List Call :=
  [.malloc ⟨64, by omega⟩, .malloc ⟨16, by omega⟩, .realloc (some 0x2000000c) ⟨8, by omega⟩]

theorem shrinkInFront_breaks : ¬∀ s, Reachable system s → RepInv s.heap := by
  intro hall
  have hrun : ((boardHeap.bind fun s => replay Client.call s shrinkInFront).map
      fun s => (s.heap.used 20, s.heap.next 0, s.heap.lfree)) = some (0, 20, 104) := by
    decide +kernel
  obtain ⟨s, hs, he⟩ := Option.map_eq_some_iff.1 hrun
  obtain ⟨s₀, h₀, hs⟩ := Option.bind_eq_some_iff.1 hs
  obtain ⟨hu, hn, hl⟩ : s.heap.used 20 = 0 ∧ s.heap.next 0 = 20 ∧ s.heap.lfree = 104 := by
    simpa only [Prod.mk.injEq] using he
  have hr := Reach.of_replay (fun _ _ _ hc => ⟨trivial, Client.call_step hc⟩) shrinkInFront
    (Reach.init (boardHeap_init h₀)) hs
  exact not_repInv ⟨1, hn⟩ hu (by omega) (hall s hr)

end EasyCore.SmallMem
