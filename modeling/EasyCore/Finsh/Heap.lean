import EasyCore.Kernel.Word
import EasyCore.Lib.Chain

/-! The heap of finsh (`finsh_heap.c`). Its blocks have a header each, and are on one of two lists; an
    address is the offset from `finsh_heap`. The headers are maps of their own, beside the bytes. A
    loop carries fuel, which is more than the number of blocks that there can be.

        ├ length │ next │ bytes ... ├ length │ next │ bytes ... ┤ -/

namespace EasyCore.Finsh.Heap
open Function Kernel Chain

/-- `FINSH_HEAP_MAX` -/
def finshHeapMax : ℕ := 128

/-- `sizeof(struct finsh_block_header)` -/
def headerSize : ℕ := 8

/-- `HEAP_ALIGN_SIZE(size)` on `size_t`. -/
def heapAlignSize (size : ℕ) : ℕ := (size + 3) % 2 ^ 32 / 4 * 4

/-- Where a header points. -/
abbrev Next := ℕ → Option ℕ

/-- The file's static variables, with the headers' fields by the address of the header. -/
structure FinshHeap where
  length : ℕ → ℕ
  next : Next
  freeList : Option ℕ
  allocateList : Option ℕ
  data : ℕ → UInt8

/-- `finsh_heap_init` -/
def finshHeapInit : FinshHeap where
  length := update (fun _ => 0) 0 (finshHeapMax - headerSize)
  next _ := none
  freeList := some 0
  allocateList := none
  data _ := 0

/-! ### Lists -/

/-- The loop of `finsh_block_insert`. -/
def insertPoint (next : Next) (header : ℕ) : ℕ → ℕ → ℕ
  | 0, node => node
  | fuel + 1, node =>
    match next node with
    | none => node
    | some n => if header < n then node else insertPoint next header fuel n

/-- `finsh_block_insert` -/
def finshBlockInsert (next : Next) (list : Option ℕ) (header : ℕ) : Next × Option ℕ :=
  match list with
  | none => (next, some header)
  | some node =>
    if header < node then (update next header (some node), some header)
    else
      let node := insertPoint next header finshHeapMax node
      let next := if (next node).isSome then update next header (next node) else next
      (update next node (some header), list)

/-- The node in front of a header, as `finsh_block_remove` and `finsh_block_merge` look for it. -/
def prevNode (next : Next) (header : ℕ) : ℕ → Option ℕ → Option ℕ
  | 0, _ => none
  | _, none => none
  | fuel + 1, some node =>
    if next node = some header then some node else prevNode next header fuel (next node)

/-- `finsh_block_remove` -/
def finshBlockRemove (next : Next) (list : Option ℕ) (header : ℕ) : Next × Option ℕ :=
  if list = some header then (update next header none, next header)
  else
    match prevNode next header finshHeapMax list with
    | none => (next, list)
    | some node => (update next node (next header), list)

/-! ### Blocks -/

/-- `finsh_block_split` -/
def finshBlockSplit (s : FinshHeap) (header size : ℕ) : FinshHeap :=
  let next := (header + headerSize + size) % 2 ^ 32
  let length := update s.length next (sub32 (sub32 (s.length header) headerSize) size)
  let links := update s.next next (s.next header)
  { s with length := update length header size, next := update links header (some next) }

/-- Whether a block ends where the header of the other one is. -/
def close (s : FinshHeap) (block header : ℕ) : Bool :=
  (block + s.length block + headerSize) % 2 ^ 32 = header

/-- The block `header` is joined to the one behind it. -/
def joinNext (s : FinshHeap) (header : ℕ) : FinshHeap :=
  match s.next header with
  | none => s
  | some next =>
    if close s header next then
      { s with
        length := update s.length header ((s.length header + s.length next + headerSize) % 2 ^ 32)
        next := update s.next header (s.next next) }
    else s

/-- `finsh_block_merge` -/
def finshBlockMerge (s : FinshHeap) (list : Option ℕ) (header : ℕ) : FinshHeap :=
  let prev := if list = some header then none else prevNode s.next header finshHeapMax list
  match prev with
  | none => joinNext s header
  | some prev =>
    if close s prev header then
      match s.next header with
      | none =>
        { s with
          length := update s.length prev ((s.length prev + (s.length header + headerSize)) % 2 ^ 32)
          next := update s.next prev (s.next header) }
      | some next =>
        if close s header next then
          { s with
            length := update s.length prev
              ((s.length prev + (s.length header + s.length next + 2 * headerSize)) % 2 ^ 32)
            next := update s.next prev (s.next next) }
        else
          { s with
            length := update s.length prev
              ((s.length prev + (s.length header + headerSize)) % 2 ^ 32)
            next := update s.next prev (s.next header) }
    else joinNext s header

/-- `finsh_heap_free` -/
def finshHeapFree (s : FinshHeap) (ptr : ℕ) : FinshHeap :=
  let header := sub32 ptr headerSize
  let r := finshBlockRemove s.next s.allocateList header
  let s := { s with next := r.1, allocateList := r.2 }
  let r := finshBlockInsert s.next s.freeList header
  let s := { s with next := r.1, freeList := r.2 }
  finshBlockMerge s s.freeList header

/-- The loop of `finsh_heap_gc`; `held` are the values of the global variables that are in use. -/
def gcLoop (held : List ℕ) : ℕ → Option ℕ → FinshHeap → FinshHeap
  | 0, _, s => s
  | _, none, s => s
  | fuel + 1, some header, s =>
    if header + headerSize ∈ held then gcLoop held fuel (s.next header) s
    else gcLoop held fuel (s.next header) (finshHeapFree s (header + headerSize))

/-- `finsh_heap_gc` -/
def finshHeapGc (held : List ℕ) (s : FinshHeap) : FinshHeap :=
  gcLoop held finshHeapMax s.allocateList s

/-- The first block on a list whose length will do. -/
def firstFit (s : FinshHeap) (fits : ℕ → Bool) : ℕ → Option ℕ → Option ℕ
  | 0, _ => none
  | _, none => none
  | fuel + 1, some header =>
    if fits (s.length header) then some header else firstFit s fits fuel (s.next header)

/-- A block that has been found is split, and goes over to the other list. -/
def take (s : FinshHeap) (header size : ℕ) : FinshHeap :=
  let s := finshBlockSplit s header size
  let r := finshBlockRemove s.next s.freeList header
  let s := { s with next := update r.1 header none, freeList := r.2 }
  let r := finshBlockInsert s.next s.allocateList header
  { s with
    next := r.1
    allocateList := r.2
    data := rtMemset s.data (header + headerSize) 0 size }

/-- `finsh_heap_allocate` -/
def finshHeapAllocate (held : List ℕ) (s : FinshHeap) (size : ℕ) : FinshHeap × Option ℕ :=
  let size := heapAlignSize size
  let room := (size + headerSize) % 2 ^ 32
  match firstFit s (room < ·) finshHeapMax s.freeList with
  | some header => (take s header size, some (header + headerSize))
  | none =>
    let s := finshHeapGc held s
    match firstFit s (room ≤ ·) finshHeapMax s.freeList with
    | none => (s, none)
    | some header => (take s header size, some (header + headerSize))

/-! ### What the list functions do -/

variable {next : Next} {p : Option ℕ} {a b : List ℕ} {header fuel : ℕ}

/-- The first node in front of others is one of them. -/
theorem head_mem {j : ℕ} (h : Chained next p (a ++ j :: b)) : ∃ node ∈ a ++ [j], p = some node := by
  cases a with
  | nil => exact ⟨j, by simp, h.1⟩
  | cons k a => exact ⟨k, by simp, h.1⟩

/-- The loop stops at the last node that is below the header. -/
theorem insertPoint_eq {j : ℕ} : ∀ {fuel : ℕ} {a : List ℕ} {node : ℕ}, a.length < fuel →
    Chained next (some node) (a ++ j :: b) → (∀ x ∈ a ++ [j], x < header) →
    (∀ x ∈ b, header < x) → insertPoint next header fuel node = j
  | fuel + 1, [], node, _, h, _, hb => by
    obtain rfl : node = j := Option.some.inj h.1
    have hnext : next node = b.head? := h.2.head
    rw [insertPoint, hnext]
    cases b with
    | nil => rfl
    | cons x b => exact if_pos (hb x List.mem_cons_self)
  | fuel + 1, k :: a, node, hfuel, h, ha, hb => by
    obtain rfl : node = k := Option.some.inj h.1
    obtain ⟨l, hl, hnext⟩ := head_mem h.2
    have hbelow : ¬ header < l := Nat.not_lt_of_gt (ha l (List.mem_cons_of_mem _ hl))
    simp only [insertPoint, hnext, if_neg hbelow]
    exact insertPoint_eq (Nat.lt_of_succ_lt_succ hfuel) (hnext ▸ h.2)
      (fun x hx => ha x (List.mem_cons_of_mem _ hx)) hb

/-- A header is put in where it belongs; the links of other nodes than those in front of it stay. -/
theorem finshBlockInsert_spec (h : Chained next p (a ++ b)) (ha : ∀ x ∈ a, x < header)
    (hb : ∀ x ∈ b, header < x) (hnodup : (a ++ b).Nodup) (hnull : b = [] → next header = none)
    (hfuel : a.length ≤ finshHeapMax) :
    Chained (finshBlockInsert next p header).1 (finshBlockInsert next p header).2 (a ++ header :: b)
      ∧ ∀ x ∉ a, x ≠ header → (finshBlockInsert next p header).1 x = next x := by
  have hbne : ∀ x ∈ b, x ≠ header := fun x hx => (hb x hx).ne'
  obtain rfl | ⟨c, j, rfl⟩ := List.eq_nil_or_concat' a
  · cases b with
    | nil =>
      obtain rfl : p = none := h
      exact ⟨⟨rfl, hnull rfl⟩, fun _ _ _ => rfl⟩
    | cons x b =>
      obtain rfl : p = some x := h.1
      simp only [finshBlockInsert, if_pos (hb x List.mem_cons_self)]
      refine ⟨⟨rfl, ?_⟩, fun y _ hy => update_of_ne hy _ _⟩
      rw [update_self]
      exact Chained.congr h fun y hy => update_of_ne (hbne y hy) _ _
  · rw [List.append_assoc, List.singleton_append] at h hnodup
    obtain ⟨node, hnode, rfl⟩ := head_mem h
    have hbelow : ¬ header < node := Nat.not_lt_of_gt (ha node hnode)
    have hpoint : insertPoint next header finshHeapMax node = j :=
      insertPoint_eq (by simp at hfuel; omega) h ha hb
    have hnext : next j = b.head? := h.next_eq
    have hj : j ≠ header := (ha j (by simp)).ne
    -- the link of the header is the one of `j`, whether it is stored or null already
    have hlink : (if (next j).isSome then update next header (next j) else next)
        = update next header (next j) := by
      split
      · rfl
      · rename_i hnone
        have hb : b = [] := by
          rw [hnext] at hnone
          simpa using hnone
        rw [hnext, hb, List.head?_nil, ← hnull hb, update_eq_self]
    simp only [finshBlockInsert, if_neg hbelow, hpoint, hlink]
    rw [List.append_assoc, List.singleton_append]
    refine ⟨h.insert ?_ (update_self _ _ _) fun x hx => ?_, fun x hx hxh => ?_⟩
    · rw [update_of_ne hj.symm, update_self, hnext]
    · have hxj : x ≠ j := by
        rintro rfl
        have := (List.nodup_middle.1 hnodup)
        exact (List.nodup_cons.1 this).1 hx
      have hxh : x ≠ header := by
        obtain hx | hx := List.mem_append.1 hx
        · exact (ha x (by simp [hx])).ne
        · exact hbne x hx
      rw [update_of_ne hxj, update_of_ne hxh]
    · have hxj : x ≠ j := fun e => hx (by simp [e])
      rw [update_of_ne hxj, update_of_ne hxh]

/-- The node in front of a header is found. -/
theorem prevNode_eq {j : ℕ} : ∀ {fuel : ℕ} {a : List ℕ} {p : Option ℕ}, a.length < fuel →
    Chained next p (a ++ j :: header :: b) → header ∉ a ++ [j] →
    prevNode next header fuel p = some j
  | fuel + 1, [], _, _, h, _ => by
    obtain rfl := h.1
    rw [prevNode, if_pos h.2.1]
  | fuel + 1, k :: a, _, hfuel, h, hne => by
    obtain rfl := h.1
    obtain ⟨l, hl, hnext⟩ := head_mem h.2
    have hlh : next k ≠ some header := by
      rw [hnext]
      rintro ⟨⟩
      exact hne (List.mem_cons_of_mem _ hl)
    rw [prevNode, if_neg hlh]
    exact prevNode_eq (Nat.lt_of_succ_lt_succ hfuel) h.2 fun hm => hne (List.mem_cons_of_mem _ hm)

/-- A header is taken out; the links of other nodes than those in front of it stay. -/
theorem finshBlockRemove_spec (h : Chained next p (a ++ header :: b))
    (hnodup : (a ++ header :: b).Nodup) (hfuel : a.length ≤ finshHeapMax) :
    Chained (finshBlockRemove next p header).1 (finshBlockRemove next p header).2 (a ++ b)
      ∧ (∀ x ∉ a, x ≠ header → (finshBlockRemove next p header).1 x = next x) := by
  have hnot := (List.nodup_cons.1 (List.nodup_middle.1 hnodup)).1
  obtain rfl | ⟨c, j, rfl⟩ := List.eq_nil_or_concat' a
  · obtain rfl := h.1
    rw [finshBlockRemove, if_pos rfl]
    exact ⟨h.2.update_of_not_mem hnot _, fun x _ hx => update_of_ne hx _ _⟩
  · rw [List.append_assoc, List.singleton_append] at h hnodup hnot
    obtain ⟨node, hnode, rfl⟩ := head_mem h
    have hbefore : header ∉ c ++ [j] := fun hm => hnot (by
      rw [List.append_cons]
      exact List.mem_append_left _ hm)
    have hnh : some node ≠ some header := by
      rintro ⟨⟩
      exact hbefore hnode
    have hprev : prevNode next header finshHeapMax (some node) = some j :=
      prevNode_eq (by simp at hfuel; omega) h hbefore
    rw [finshBlockRemove, if_neg hnh, hprev, List.append_assoc, List.singleton_append]
    refine ⟨h.skip (update_self _ _ _) fun x hx => update_of_ne ?_ _ _, fun x hx _ =>
      update_of_ne (fun e => hx (by simp [e])) _ _⟩
    rintro rfl
    have := (List.nodup_cons.1 (List.nodup_middle.1 hnodup)).1
    exact this (by
      obtain hx | hx := List.mem_append.1 hx
      · exact List.mem_append_left _ hx
      · exact List.mem_append_right _ (List.mem_cons_of_mem _ hx))

theorem firstFit_eq (s : FinshHeap) (fits : ℕ → Bool) : ∀ {fuel : ℕ} {p : Option ℕ} {l : List ℕ},
    l.length < fuel → Chained s.next p l →
    firstFit s fits fuel p = l.find? fun header => fits (s.length header)
  | fuel + 1, _, [], _, h => by
    obtain rfl := h
    rfl
  | fuel + 1, _, header :: l, hfuel, h => by
    obtain rfl := h.1
    rw [firstFit, List.find?_cons, firstFit_eq s fits (Nat.lt_of_succ_lt_succ hfuel) h.2]
    cases fits (s.length header) <;> rfl

end EasyCore.Finsh.Heap
