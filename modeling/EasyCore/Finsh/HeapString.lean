import EasyCore.Finsh.HeapBlocks
import EasyCore.Lib.Runs

/-! String constants on the heap of finsh (`finsh_node_new_string`): those of a line, from when they
    are parsed until the line has been run. -/

namespace EasyCore.Finsh.Heap
open Function Kernel Chain Rows Runs

/-- A string without its terminator; it lies in the address space beside the heap. -/
abbrev Text := { s : List UInt8 // 0 ∉ s ∧ s.length + 1 + finshHeapMax ≤ 2 ^ 32 }

/-- `strncpy(ptr, s, strlen(s))`, and the terminator behind it. -/
def copyText (data : ℕ → UInt8) (ptr : ℕ) (text : List UInt8) : ℕ → UInt8 := fun a =>
  if ptr ≤ a then ((text ++ [0])[a - ptr]?).getD (data a) else data a

/-- The string of `finsh_node_new_string`. Where the heap gives no block the string is copied to the
    null pointer, outside of the heap. -/
def finshNodeNewString (held : List ℕ) (s : FinshHeap) (text : Text) : FinshHeap × Option ℕ :=
  let r := finshHeapAllocate held s (text.1.length + 1)
  match r.2 with
  | none => r
  | some ptr => ({ r.1 with data := copyText r.1.data ptr text.1 }, some ptr)

/-- The heap, the values of the global variables in use, and the string constants of the line. -/
structure LineState where
  heap : FinshHeap
  held : List ℕ
  strings : List (Option ℕ × Text)

/-- The shell goes on to the next line; the parser meets a string constant; variables are declared,
    deleted or assigned. -/
inductive LineAct
  | newLine
  | constant (text : Text)
  | globals (held : List ℕ)

def lineStep (st : LineState) : LineAct → LineState
  | .newLine => { st with strings := [] }
  | .constant text =>
    let r := finshNodeNewString st.held st.heap text
    { st with heap := r.1, strings := (r.2, text) :: st.strings }
  | .globals held => { st with held := held }

def lineStart : LineState := ⟨finshHeapInit, [], []⟩

/-- A string is in a block of its own that is long enough, with its terminator. -/
def Stored (s : FinshHeap) (x : Option ℕ × Text) : Prop :=
  ∃ header, x.1 = some (header + headerSize) ∧ OnList s.next s.allocateList header
    ∧ x.2.1.length + 1 ≤ s.length header
    ∧ ∀ i b, (x.2.1 ++ [0])[i]? = some b → s.data (header + headerSize + i) = b

/-- Two strings do not overlap. -/
def Beside (x y : Option ℕ × Text) : Prop :=
  ∀ p q, x.1 = some p → y.1 = some q → p + x.2.1.length + 1 ≤ q ∨ q + y.2.1.length + 1 ≤ p

/-- The string constants of the line are allocated, have not changed, and do not overlap. -/
structure LiveStrings (st : LineState) : Prop where
  stored : ∀ x ∈ st.strings, Stored st.heap x
  apart : st.strings.Pairwise Beside

/-- A free block is longer than `size` and a header. -/
def FreeFor (s : FinshHeap) (size : ℕ) : Prop :=
  ∃ header, OnList s.next s.freeList header ∧ size + headerSize < s.length header

/-- There is space for a block of `size` bytes and one more header between the allocated blocks that
    variables hold. -/
def RoomFor (held : List ℕ) (s : FinshHeap) (size : ℕ) : Prop :=
  ∃ x, x + (headerSize + (size + headerSize)) ≤ finshHeapMax
    ∧ ∀ header, OnList s.next s.allocateList header → header + headerSize ∈ held →
      header + headerSize + s.length header ≤ x
        ∨ x + (headerSize + (size + headerSize)) ≤ header

/-- The string fits without a collection, or the other strings of the line are held by variables, and
    it fits beside what variables hold. -/
def LineActOk (st : LineState) : LineAct → Prop
  | .constant text =>
    FreeFor st.heap (heapAlignSize (text.1.length + 1))
      ∨ (∀ x ∈ st.strings, ∀ p, x.1 = some p → p ∈ st.held)
        ∧ RoomFor st.held st.heap (heapAlignSize (text.1.length + 1))
  | _ => True

/-! ### Bytes -/

theorem finshBlockMerge_data (s : FinshHeap) (list : Option ℕ) (header : ℕ) :
    (finshBlockMerge s list header).data = s.data := by
  have hjoin : (joinNext s header).data = s.data := by
    unfold joinNext
    cases s.next header with
    | none => rfl
    | some next =>
      by_cases hclose : close s header next = true
      · simp only [if_pos hclose]
      · simp only [if_neg hclose]
  unfold finshBlockMerge
  generalize (if list = some header then none
    else prevNode s.next header finshHeapMax list) = prev
  cases prev with
  | none => exact hjoin
  | some prev =>
    by_cases hclose : close s prev header = true
    · simp only [if_pos hclose]
      cases s.next header with
      | none => rfl
      | some next =>
        by_cases hnear : close s header next = true
        · simp only [if_pos hnear]
        · simp only [if_neg hnear]
    · simpa only [if_neg hclose] using hjoin

theorem gcLoop_data (held : List ℕ) : ∀ (fuel : ℕ) (p : Option ℕ) (s : FinshHeap),
    (gcLoop held fuel p s).data = s.data
  | 0, p, s => by cases p <;> rfl
  | fuel + 1, none, s => rfl
  | fuel + 1, some header, s => by
    rw [gcLoop]
    split
    · exact gcLoop_data held fuel _ s
    · rw [gcLoop_data held fuel]
      exact finshBlockMerge_data _ _ _

/-- The bytes of a block that is taken are cleared, and no others. -/
theorem finshHeapAllocate_data (held : List ℕ) (s : FinshHeap) (size : ℕ) {p : ℕ}
    (h : (finshHeapAllocate held s size).2 = some p) :
    (finshHeapAllocate held s size).1.data = rtMemset s.data p 0 (heapAlignSize size) := by
  unfold finshHeapAllocate at h ⊢
  simp only at h ⊢
  split at h
  · obtain rfl := Option.some.inj h
    rfl
  · split at h
    · cases h
    · obtain rfl := Option.some.inj h
      show rtMemset (finshHeapGc held s).data _ _ _ = _
      rw [finshHeapGc, gcLoop_data]

/-! ### Blocks -/

variable {s : FinshHeap} {bs : List Block} {held : List ℕ} {size : ℕ} {st : LineState} {text : Text}

theorem Blocks.onList_free (h : Blocks s bs) {header : ℕ} :
    OnList s.next s.freeList header ↔ ∃ b ∈ unused bs, b.addr = header := by
  rw [h.free.onList_iff, List.mem_map]

theorem Blocks.onList_allocated (h : Blocks s bs) {header : ℕ} :
    OnList s.next s.allocateList header ↔ ∃ b ∈ used bs, b.addr = header := by
  rw [h.allocated.onList_iff, List.mem_map]

theorem Blocks.freeFor_iff (h : Blocks s bs) : FreeFor s size ↔ Fits bs size := by
  constructor
  · rintro ⟨header, hheader, hlt⟩
    obtain ⟨b, hb, rfl⟩ := h.onList_free.1 hheader
    rw [h.length b (mem_unused.1 hb).1] at hlt
    exact ⟨b, hb, hlt⟩
  · rintro ⟨b, hb, hlt⟩
    refine ⟨b.addr, h.onList_free.2 ⟨b, hb, rfl⟩, ?_⟩
    rwa [h.length b (mem_unused.1 hb).1]

theorem Blocks.roomFor_iff (h : Blocks s bs) : RoomFor held s size ↔ Room held bs size := by
  refine exists_congr fun x => and_congr_right fun _ => ⟨fun hx b hb => ?_, fun hx header hh hp => ?_⟩
  · obtain ⟨hb, hheld⟩ := List.mem_filter.1 hb
    rw [← h.length b (mem_used.1 hb).1]
    exact hx b.addr (h.onList_allocated.2 ⟨b, hb, rfl⟩) (of_decide_eq_true hheld)
  · obtain ⟨b, hb, rfl⟩ := h.onList_allocated.1 hh
    rw [h.length b (mem_used.1 hb).1]
    exact hx b (List.mem_filter.2 ⟨hb, decide_eq_true hp⟩)

theorem Blocks.setData (h : Blocks s bs) (data : ℕ → UInt8) : Blocks { s with data := data } bs :=
  ⟨⟨h.tiles, h.length, h.free, h.allocated⟩, h.apart⟩

/-- A string in terms of the block it is in. -/
theorem Blocks.stored_iff (h : Blocks s bs) {x : Option ℕ × Text} : Stored s x
    ↔ ∃ b ∈ used bs, x.1 = some (b.addr + headerSize) ∧ x.2.1.length + 1 ≤ b.len
      ∧ ∀ i c, (x.2.1 ++ [0])[i]? = some c → s.data (b.addr + headerSize + i) = c := by
  constructor
  · rintro ⟨header, hx, hon, hlen, hbytes⟩
    obtain ⟨b, hb, rfl⟩ := h.onList_allocated.1 hon
    rw [h.length b (mem_used.1 hb).1] at hlen
    exact ⟨b, hb, hx, hlen, hbytes⟩
  · rintro ⟨b, hb, hx, hlen, hbytes⟩
    refine ⟨b.addr, hx, h.onList_allocated.2 ⟨b, hb, rfl⟩, ?_, hbytes⟩
    rwa [h.length b (mem_used.1 hb).1]

/-- Two blocks of a row do not overlap. -/
theorem beside_of_ne {b c : Block} (h : Tiles headerSize 0 bs finshHeapMax) (hb : b ∈ bs)
    (hc : c ∈ bs) (hne : b ≠ c) :
    b.addr + headerSize + b.len ≤ c.addr ∨ c.addr + headerSize + c.len ≤ b.addr := by
  obtain ⟨xs, ys, rfl⟩ := List.append_of_mem hb
  obtain hc | rfl | hc := by simpa using hc
  · exact Or.inr (h.around.1 c hc)
  · exact absurd rfl hne
  · exact Or.inl (h.around.2 c hc)

theorem Text.align_le (text : Text) : heapAlignSize (text.1.length + 1) + headerSize < 2 ^ 32 := by
  have := text.2.2
  simp only [heapAlignSize, headerSize, finshHeapMax] at *
  omega

theorem Text.le_align (text : Text) : text.1.length + 1 ≤ heapAlignSize (text.1.length + 1) := by
  have := text.2.2
  simp only [heapAlignSize, finshHeapMax] at *
  omega

theorem copyText_inside (data : ℕ → UInt8) (ptr : ℕ) (text : List UInt8) {i : ℕ} {c : UInt8}
    (h : (text ++ [0])[i]? = some c) : copyText data ptr text (ptr + i) = c := by
  simp [copyText, h]

theorem copyText_outside (data : ℕ → UInt8) {ptr a : ℕ} (text : List UInt8)
    (h : a < ptr ∨ ptr + text.length < a) : copyText data ptr text a = data a := by
  unfold copyText
  split
  · rw [List.getElem?_eq_none]
    · rfl
    · simp
      omega
  · rfl

/-! ### One constant -/

/-- The heap is in order, and so are the strings of the line. -/
def StringInv (st : LineState) : Prop :=
  (∃ bs, Blocks st.heap bs ∧ LastFree bs) ∧ LiveStrings st

/-- A string that has got a block, while the blocks of the other strings of the line are kept. -/
theorem LiveStrings.taken (hlive : LiveStrings st) (h : Blocks st.heap bs) {old : List Block}
    (hold : ∀ x ∈ st.strings, ∀ b ∈ used bs, x.1 = some (b.addr + headerSize) → b ∈ old)
    (htaken : Taken (finshHeapAllocate st.held st.heap (text.1.length + 1)) old
      (heapAlignSize (text.1.length + 1))) : StringInv (lineStep st (.constant text)) := by
  obtain ⟨us, vs, zs, a, hzs, hzlast, rfl, hused, hptr⟩ := htaken
  have hstep : lineStep st (.constant text)
      = { st with
          heap := { (finshHeapAllocate st.held st.heap (text.1.length + 1)).1 with
            data := copyText (finshHeapAllocate st.held st.heap (text.1.length + 1)).1.data
              (a + headerSize) text.1 }
          strings := (some (a + headerSize), text) :: st.strings } := by
    simp only [lineStep, finshNodeNewString, hptr]
  have hdata := finshHeapAllocate_data st.held st.heap (text.1.length + 1) hptr
  have hblocks := hzs.setData (copyText
    (finshHeapAllocate st.held st.heap (text.1.length + 1)).1.data (a + headerSize) text.1)
  generalize hnew : (⟨a, heapAlignSize (text.1.length + 1), false⟩ : Block) = new at hused
  have hnewmem : new ∈ used zs := by simp [hused]
  have haddr : new.addr = a := hnew ▸ rfl
  have hlen : new.len = heapAlignSize (text.1.length + 1) := hnew ▸ rfl
  have hle := text.le_align
  -- the blocks of the other strings are still there, and lie beside the new one
  have hother : ∀ x ∈ st.strings, ∃ b ∈ used zs, x.1 = some (b.addr + headerSize)
      ∧ x.2.1.length + 1 ≤ b.len
      ∧ (∀ i c, (x.2.1 ++ [0])[i]? = some c → st.heap.data (b.addr + headerSize + i) = c)
      ∧ (b.addr + headerSize + b.len ≤ a ∨ a + headerSize + new.len ≤ b.addr) := fun x hx => by
    obtain ⟨b, hb, hptrx, hlenx, hbytes⟩ := h.stored_iff.1 (hlive.stored x hx)
    have hmem := hold x hx b hb hptrx
    have hbzs : b ∈ used zs := by
      rw [hused]
      obtain hmem | hmem := List.mem_append.1 hmem
      · exact List.mem_append_left _ hmem
      · exact List.mem_append_right _ (List.mem_cons_of_mem _ hmem)
    have hne : b ≠ new := by
      rintro rfl
      have hnodup : (used zs).Nodup :=
        List.Nodup.of_map _ (nodup_addrs hzs.tiles (used_sublist zs))
      rw [hused] at hnodup
      exact (List.nodup_cons.1 (List.nodup_middle.1 hnodup)).1 hmem
    have hbeside := beside_of_ne hzs.tiles (mem_used.1 hbzs).1 (mem_used.1 hnewmem).1 hne
    rw [haddr] at hbeside
    exact ⟨b, hbzs, hptrx, hlenx, hbytes, hbeside⟩
  refine ⟨⟨zs, ?_, hzlast⟩, ?_, ?_⟩
  · rw [hstep]
    exact hblocks
  · rw [hstep]
    rintro x hx
    refine hblocks.stored_iff.2 ?_
    obtain rfl | hx := List.mem_cons.1 hx
    · refine ⟨new, hnewmem, by rw [haddr], by rwa [hlen], fun i c hc => ?_⟩
      rw [haddr]
      exact copyText_inside _ _ _ hc
    · obtain ⟨b, hb, hptrx, hlenx, hbytes, hbeside⟩ := hother x hx
      refine ⟨b, hb, hptrx, hlenx, fun i c hc => ?_⟩
      have hi : i < x.2.1.length + 1 := by
        have := (List.getElem?_eq_some_iff.1 hc).1
        simpa using this
      have hkeep : rtMemset st.heap.data (a + headerSize) 0
          (heapAlignSize (text.1.length + 1)) (b.addr + headerSize + i)
            = st.heap.data (b.addr + headerSize + i) := by
        refine if_neg ?_
        simp only [headerSize] at *
        omega
      refine (copyText_outside _ _ ?_).trans ?_
      · simp only [headerSize] at *
        omega
      · rw [hdata, hkeep]
        exact hbytes i c hc
  · rw [hstep]
    refine List.Pairwise.cons (fun x hx => ?_) hlive.apart
    rintro p q ⟨⟩ hq
    obtain ⟨b, hb, hptrx, hlenx, -, hbeside⟩ := hother x hx
    obtain rfl : b.addr + headerSize = q := Option.some.inj (hptrx.symm.trans hq)
    simp only [headerSize] at *
    omega

/-- A collection while a string of the line is not held by a variable: its block is gone, or it is the
    block of the new string. -/
theorem not_live_of_lost {x : Option ℕ × Text} (hx : x ∈ st.strings) {p : ℕ}
    (hxp : x.1 = some p) (hp : p ∉ st.held)
    (htaken : Taken (finshHeapAllocate st.held st.heap (text.1.length + 1))
      ((used bs).filter (isHeld st.held)) (heapAlignSize (text.1.length + 1))) :
    ¬ LiveStrings (lineStep st (.constant text)) := by
  obtain ⟨us, vs, zs, a, hzs, -, hold, hused, hptr⟩ := htaken
  intro hlive
  simp only [lineStep, finshNodeNewString, hptr] at hlive
  obtain ⟨b, hb, hbp, -⟩ := (hzs.setData _).stored_iff.1 (hlive.stored x (List.mem_cons_of_mem _ hx))
  obtain rfl : b.addr + headerSize = p := Option.some.inj (hbp.symm.trans hxp)
  have hnot : b ∉ us ++ vs := fun hm => hp (by
    rw [← hold] at hm
    exact of_decide_eq_true (List.mem_filter.1 hm).2)
  have hnew : b.addr = a := by
    rw [hused] at hb
    obtain hb | hb := List.mem_append.1 hb
    · exact absurd (List.mem_append_left _ hb) hnot
    · obtain rfl | hb := List.mem_cons.1 hb
      · rfl
      · exact absurd (List.mem_append_right _ hb) hnot
  have hbeside := (List.pairwise_cons.1 hlive.apart).1 x hx _ _ rfl hxp
  rw [hnew] at hbeside
  omega

theorem constant_iff (inv : StringInv st) (text : Text) :
    (LiveStrings (lineStep st (.constant text)) ↔ LineActOk st (.constant text))
      ∧ (LineActOk st (.constant text) → StringInv (lineStep st (.constant text))) := by
  obtain ⟨⟨bs, h, hlast⟩, hlive⟩ := inv
  have hok : LineActOk st (.constant text)
      ↔ Fits bs (heapAlignSize (text.1.length + 1))
        ∨ (∀ x ∈ st.strings, ∀ p, x.1 = some p → p ∈ st.held)
          ∧ Room st.held bs (heapAlignSize (text.1.length + 1)) := by
    rw [← h.freeFor_iff, ← h.roomFor_iff]
    rfl
  rw [hok]
  obtain ⟨hfits, htaken⟩ | ⟨hfits, ⟨hroom, htaken⟩ | ⟨hroom, hnone, -⟩⟩ :=
    finshHeapAllocate_spec st.held h hlast text.align_le
  · have inv' := hlive.taken h (fun x hx b hb _ => hb) htaken
    exact ⟨iff_of_true inv'.2 (Or.inl hfits), fun _ => inv'⟩
  · by_cases hheld : ∀ x ∈ st.strings, ∀ p, x.1 = some p → p ∈ st.held
    · have inv' := hlive.taken h (fun x hx b hb hp => List.mem_filter.2
        ⟨hb, decide_eq_true (hheld x hx _ hp)⟩) htaken
      exact ⟨iff_of_true inv'.2 (Or.inr ⟨hheld, hroom⟩), fun _ => inv'⟩
    · have hno : ¬ (Fits bs (heapAlignSize (text.1.length + 1))
          ∨ (∀ x ∈ st.strings, ∀ p, x.1 = some p → p ∈ st.held)
            ∧ Room st.held bs (heapAlignSize (text.1.length + 1))) := by
        rintro (hf | ⟨hh, -⟩)
        · exact hfits hf
        · exact hheld hh
      push Not at hheld
      obtain ⟨x, hx, p, hxp, hp⟩ := hheld
      exact ⟨iff_of_false (not_live_of_lost hx hxp hp htaken) hno, fun hyes => absurd hyes hno⟩
  · have hno : ¬ (Fits bs (heapAlignSize (text.1.length + 1))
        ∨ (∀ x ∈ st.strings, ∀ p, x.1 = some p → p ∈ st.held)
          ∧ Room st.held bs (heapAlignSize (text.1.length + 1))) := by
      rintro (hf | ⟨-, hr⟩)
      · exact hfits hf
      · exact hroom hr
    refine ⟨iff_of_false (fun hafter => ?_) hno, fun hyes => absurd hyes hno⟩
    simp only [lineStep, finshNodeNewString, hnone] at hafter
    obtain ⟨header, hptr, -⟩ := hafter.stored (none, text) List.mem_cons_self
    cases hptr

/-! ### Runs -/

theorem lineStep_iff (inv : StringInv st) (a : LineAct) :
    (LiveStrings (lineStep st a) ↔ LineActOk st a) ∧ (LineActOk st a → StringInv (lineStep st a)) := by
  cases a with
  | newLine =>
    have hlive : LiveStrings (lineStep st .newLine) := ⟨(fun _ h => nomatch h), List.Pairwise.nil⟩
    exact ⟨iff_of_true hlive trivial, fun _ => ⟨inv.1, hlive⟩⟩
  | constant text => exact constant_iff inv text
  | globals held =>
    have hlive : LiveStrings (lineStep st (.globals held)) := ⟨inv.2.stored, inv.2.apart⟩
    exact ⟨iff_of_true hlive trivial, fun _ => ⟨inv.1, hlive⟩⟩

theorem lineStart_inv : StringInv lineStart :=
  ⟨⟨_, finshHeapInit_blocks, _, rfl, rfl⟩, ⟨(fun _ h => nomatch h), List.Pairwise.nil⟩⟩

/-- CORRECT: the strings of a line stay allocated and unchanged, side by side, until the next line, if
    and only if each of them fits without a collection, or the other strings of the line are held by
    variables and it fits after one. -/
theorem liveStrings_of_run (acts : List LineAct) :
    Runs.Along lineStep (fun st a => LiveStrings (lineStep st a)) lineStart acts
      ↔ Runs.Along lineStep LineActOk lineStart acts :=
  Runs.Along.iff (fun _ a inv => (lineStep_iff inv a).1) (fun _ a inv => (lineStep_iff inv a).2) acts
    lineStart_inv

/-- Three strings in one line: for the third one the first two are given back, and it gets the block of
    the first one. -/
theorem not_liveStrings_of_third : ¬ Runs.Along lineStep (fun st a => LiveStrings (lineStep st a))
    lineStart [.constant ⟨List.replicate 40 0x61, by decide⟩,
      .constant ⟨List.replicate 40 0x62, by decide⟩,
      .constant ⟨List.replicate 40 0x63, by decide⟩] := by
  rintro ⟨-, -, h, -⟩
  have hbeside := List.rel_of_pairwise_cons h.apart (List.mem_cons_of_mem _ List.mem_cons_self)
  exact absurd (hbeside 8 8 (by decide +kernel) (by decide +kernel)) (by decide +kernel)

end EasyCore.Finsh.Heap
