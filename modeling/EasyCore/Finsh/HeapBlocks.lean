import EasyCore.Finsh.Heap
import EasyCore.Lib.Rows

/-! The blocks of the heap of finsh: what each function makes of the row of blocks, and of the two
    lists that they are on. -/

namespace EasyCore.Finsh.Heap
open Function Kernel Chain Rows

/-- The addresses of blocks. -/
abbrev addrs (bs : List Block) : List ℕ := bs.map (·.addr)

/-- The blocks fill the heap; the free ones are on one list and the others on the other, in the
    order of their addresses. -/
structure Lists (s : FinshHeap) (bs : List Block) : Prop where
  tiles : Tiles headerSize 0 bs finshHeapMax
  length : ∀ b ∈ bs, s.length b.addr = b.len
  free : Chained s.next s.freeList (addrs (unused bs))
  allocated : Chained s.next s.allocateList (addrs (used bs))

/-- Besides, no two neighbours are free. -/
structure Blocks (s : FinshHeap) (bs : List Block) : Prop extends Lists s bs where
  apart : Apart bs

/-- The last block is free. -/
def LastFree (bs : List Block) : Prop := ∃ b ∈ bs.getLast?, b.free = true

variable {s : FinshHeap} {bs xs ys : List Block} {b c : Block}

/-! ### Where blocks are -/

section Places
variable (h : Tiles headerSize 0 (xs ++ b :: ys) finshHeapMax)
include h

theorem addr_lt : ∀ x ∈ addrs xs, x < b.addr := fun x hx => by
  obtain ⟨c, hc, rfl⟩ := List.mem_map.1 hx
  have := h.around.1 c hc
  simp only [headerSize] at this
  omega

theorem lt_addr : ∀ x ∈ addrs ys, b.addr < x := fun x hx => by
  obtain ⟨c, hc, rfl⟩ := List.mem_map.1 hx
  have := h.around.2 c hc
  simp only [headerSize] at this
  omega

theorem length_lt {zs : List Block} (hzs : zs.Sublist xs) : (addrs zs).length < finshHeapMax := by
  have hlength := h.length_le
  have := hzs.length_le
  simp only [headerSize, finshHeapMax, List.length_append, List.length_cons, List.length_map] at *
  omega

end Places

theorem addrs_append : addrs (xs ++ ys) = addrs xs ++ addrs ys := List.map_append

theorem addrs_cons : addrs (b :: ys) = b.addr :: addrs ys := rfl

theorem headerSize_pos : 0 < headerSize := by decide

theorem nodup_addrs (h : Tiles headerSize 0 bs finshHeapMax) {zs : List Block}
    (hzs : zs.Sublist bs) : (addrs zs).Nodup :=
  (h.nodup headerSize_pos).sublist (hzs.map _)

/-- Free blocks and others have different addresses. -/
theorem disjoint_addrs (h : Tiles headerSize 0 bs finshHeapMax) {x : ℕ}
    (hx : x ∈ addrs (unused bs)) : x ∉ addrs (used bs) := by
  obtain ⟨b, hb, rfl⟩ := List.mem_map.1 hx
  rintro hx
  obtain ⟨c, hc, haddr⟩ := List.mem_map.1 hx
  obtain ⟨hb, hbfree⟩ := mem_unused.1 hb
  obtain ⟨hc, hcfree⟩ := mem_used.1 hc
  rw [h.eq_of_addr headerSize_pos hc hb haddr, hbfree] at hcfree
  cases hcfree

/-! ### From one list to the other -/

/-- The header of `b` goes over from one list to the other; `next` is what the links are in
    between. -/
theorem transfer {us vs ws zs : List Block} {links : Next} {p q : Option ℕ}
    (h : Tiles headerSize 0 (xs ++ b :: ys) finshHeapMax)
    (hus : us.Sublist xs) (hvs : vs.Sublist ys) (hws : ws.Sublist xs) (hzs : zs.Sublist ys)
    (hdisjoint : ∀ x ∈ addrs (ws ++ zs), x ∉ addrs (us ++ b :: vs))
    (hfrom : Chained links p (addrs (us ++ b :: vs))) (hto : Chained links q (addrs (ws ++ zs)))
    (next : Next) (hnext : ∀ x, x ≠ b.addr → next x = (finshBlockRemove links p b.addr).1 x)
    (hnull : zs = [] → next b.addr = none) :
    Chained (finshBlockInsert next q b.addr).1 (finshBlockRemove links p b.addr).2 (addrs (us ++ vs))
      ∧ Chained (finshBlockInsert next q b.addr).1 (finshBlockInsert next q b.addr).2
        (addrs (ws ++ b :: zs)) := by
  simp only [addrs, List.map_append, List.map_cons] at *
  have hnodup : (us.map (·.addr) ++ b.addr :: vs.map (·.addr)).Nodup := by
    simpa using nodup_addrs h (hus.append (hvs.cons_cons b))
  have hnodup' : (ws.map (·.addr) ++ zs.map (·.addr)).Nodup := by
    simpa using nodup_addrs h (hws.append (hzs.cons b))
  obtain ⟨hremoved, hkept⟩ := finshBlockRemove_spec hfrom hnodup (length_lt h hus).le
  have hnot := (List.nodup_cons.1 (List.nodup_middle.1 hnodup)).1
  have hother : ∀ x ∈ ws.map (·.addr) ++ zs.map (·.addr), x ∉ us.map (·.addr) ∧ x ≠ b.addr :=
    fun x hx => by
      have := hdisjoint x hx
      rw [List.mem_append, List.mem_cons, not_or, not_or] at this
      exact ⟨this.1, this.2.1⟩
  have hto' : Chained next q (ws.map (·.addr) ++ zs.map (·.addr)) := hto.congr fun x hx => by
    obtain ⟨hxus, hxb⟩ := hother x hx
    rw [hnext x hxb, hkept x hxus hxb]
  obtain ⟨hinserted, hkept'⟩ := finshBlockInsert_spec hto'
    (fun x hx => addr_lt h x ((hws.map _).subset hx))
    (fun x hx => lt_addr h x ((hzs.map _).subset hx)) hnodup'
    (fun hnil => hnull (List.map_eq_nil_iff.1 hnil)) (length_lt h hws).le
  refine ⟨hremoved.congr fun x hx => ?_, hinserted⟩
  have hxb : x ≠ b.addr := fun e => hnot (e ▸ hx)
  have hxws : x ∉ ws.map (·.addr) := fun hxws => by
    have := hdisjoint x (List.mem_append_left _ hxws)
    obtain hx | hx := List.mem_append.1 hx
    · exact this (List.mem_append_left _ hx)
    · exact this (List.mem_append_right _ (List.mem_cons_of_mem _ hx))
  rw [hkept' x hxws hxb, hnext x hxb]

/-- The state of a block that is given back, before it is joined to its neighbours. -/
def released (s : FinshHeap) (header : ℕ) : FinshHeap :=
  let r := finshBlockRemove s.next s.allocateList header
  let q := finshBlockInsert r.1 s.freeList header
  { s with next := q.1, allocateList := r.2, freeList := q.2 }

theorem Lists.release (h : Lists s (xs ++ b :: ys)) (hb : b.free = false) (hys : unused ys ≠ []) :
    Lists (released s b.addr) (xs ++ { b with free := true } :: ys) := by
  have hused : used (xs ++ b :: ys) = used xs ++ b :: used ys := by simp [used_cons_used hb]
  have hunused : unused (xs ++ b :: ys) = unused xs ++ unused ys := by simp [unused_cons_used hb]
  obtain ⟨hallocated, hfree⟩ := transfer h.tiles (used_sublist xs) (used_sublist ys)
    (unused_sublist xs) (unused_sublist ys)
    (fun x hx => hused ▸ disjoint_addrs h.tiles (hunused ▸ hx)) (hused ▸ h.allocated)
    (hunused ▸ h.free) (finshBlockRemove s.next s.allocateList b.addr).1 (fun _ _ => rfl)
    fun hnil => absurd hnil hys
  refine ⟨h.tiles.mark, fun c hc => ?_, ?_, ?_⟩
  · obtain hc | hc | hc := by simpa using hc
    · exact h.length c (by simp [hc])
    · rw [hc]
      exact h.length b (by simp)
    · exact h.length c (by simp [hc])
  · simpa [unused_cons_free, released] using hfree
  · simpa [used_cons_free, released] using hallocated

/-! ### Joining neighbours -/

theorem lastFree_append : LastFree (xs ++ b :: ys) ↔ LastFree (b :: ys) := by
  simp [LastFree, List.getLast?_append]

/-- The end of a block does not wrap. -/
theorem Lists.close_eq (h : Lists s bs) (hb : b ∈ bs) (header : ℕ) :
    close s b.addr header = decide (b.addr + headerSize + b.len = header) := by
  have hin := (h.tiles.inside b hb).2
  simp only [headerSize, finshHeapMax] at hin
  rw [close, h.length b hb, headerSize, Nat.mod_eq_of_lt (by omega)]
  exact decide_eq_decide.2 ⟨fun e => by omega, fun e => by omega⟩

/-- The next free block. -/
theorem Lists.next_free (h : Lists s (xs ++ c :: ys)) (hc : c.free = true) :
    s.next c.addr = (addrs (unused ys)).head? := by
  have := h.free
  rw [unused_append, unused_cons_free hc, addrs, List.map_append, List.map_cons] at this
  exact this.next_eq

/-- A free block takes in the one behind it. -/
theorem Lists.join {d : Block} (h : Lists s (xs ++ c :: d :: ys)) (hc : c.free = true)
    (hd : d.free = true) :
    Lists (joinNext s c.addr) (xs ++ ⟨c.addr, c.len + d.len + headerSize, true⟩ :: ys) := by
  have hnext : s.next c.addr = some d.addr := by
    rw [h.next_free hc, unused_cons_free hd]
    rfl
  have hclose : close s c.addr d.addr = true := by
    rw [h.close_eq (by simp), h.tiles.next_addr]
    exact decide_eq_true rfl
  have hlenc : s.length c.addr = c.len := h.length c (by simp)
  have hlend : s.length d.addr = d.len := h.length d (by simp)
  have hin := (h.tiles.inside d (by simp)).2
  have haddr := h.tiles.next_addr
  have htiles := h.tiles.join (f := true)
  have hsum : (c.len + d.len + headerSize) % 2 ^ 32 = c.len + d.len + headerSize := by
    simp only [headerSize, finshHeapMax] at hin haddr ⊢
    omega
  simp only [joinNext, hnext, hclose, if_pos, hlenc, hlend, hsum]
  have hnodup : (addrs (xs ++ c :: d :: ys)).Nodup := nodup_addrs h.tiles (List.Sublist.refl _)
  have hne : ∀ x ∈ xs ++ ys, x.addr ≠ c.addr := fun x hx e => by
    simp only [addrs, List.map_append, List.map_cons] at hnodup
    have hnot := (List.nodup_cons.1 (List.nodup_middle.1 hnodup)).1
    rw [← e, ← List.map_cons (f := Block.addr), ← List.map_append] at hnot
    refine hnot (List.mem_map_of_mem ?_)
    obtain hx | hx := List.mem_append.1 hx
    · exact List.mem_append_left _ hx
    · exact List.mem_append_right _ (List.mem_cons_of_mem _ hx)
  have hfree := h.free
  have hallocated := h.allocated
  simp only [used_append, unused_append, unused_cons_free, hc, hd, used_cons_free] at hfree hallocated
  refine ⟨htiles, fun x hx => ?_, ?_, ?_⟩
  · obtain hx | rfl | hx := by simpa using hx
    · exact (update_of_ne (hne x (List.mem_append_left _ hx)) _ _).trans (h.length x (by simp [hx]))
    · exact update_self _ _ _
    · exact (update_of_ne (hne x (List.mem_append_right _ hx)) _ _).trans (h.length x (by simp [hx]))
  · rw [unused_append, unused_cons_free rfl, addrs, List.map_append, List.map_cons]
    refine Chained.skip (i := d.addr) (by simpa using hfree) (update_self _ _ _) fun x hx => ?_
    rw [← List.map_append] at hx
    obtain ⟨y, hy, rfl⟩ := List.mem_map.1 hx
    refine update_of_ne (hne y ?_) _ _
    exact ((unused_sublist xs).append (unused_sublist ys)).subset hy
  · rw [used_append, used_cons_free rfl]
    refine hallocated.congr fun x hx => ?_
    obtain ⟨y, hy, rfl⟩ := List.mem_map.1 hx
    refine update_of_ne (hne y ?_) _ _
    exact ((used_sublist xs).append (used_sublist ys)).subset hy

/-- A free block whose next free block does not lie behind it stays as it is. -/
theorem Lists.joinNext_same (h : Lists s (xs ++ c :: ys)) (hc : c.free = true)
    (hys : ∀ d ∈ ys.head?, d.free = false) : joinNext s c.addr = s := by
  have hnext := h.next_free hc
  unfold joinNext
  rw [hnext]
  cases hhead : (addrs (unused ys)).head? with
  | none => rfl
  | some x =>
    have hx : x ∈ addrs (unused ys) := List.mem_of_mem_head? hhead
    obtain ⟨d, hd, rfl⟩ := List.mem_map.1 hx
    obtain ⟨hd, hdfree⟩ := mem_unused.1 hd
    cases ys with
    | nil => cases hd
    | cons f ys =>
      have hf : f.free = false := hys f rfl
      have hdys : d ∈ ys := by
        obtain rfl | hd := List.mem_cons.1 hd
        · rw [hf] at hdfree
          cases hdfree
        · exact hd
      have haddr := h.tiles.next_addr
      have hbehind : f.addr + headerSize + f.len ≤ d.addr := by
        have htiles := h.tiles
        rw [List.append_cons] at htiles
        exact htiles.around.2 d hdys
      have hopen : close s c.addr d.addr = false := by
        rw [h.close_eq (by simp)]
        refine decide_eq_false fun e => ?_
        simp only [headerSize] at *
        omega
      simp only [hopen, Bool.false_eq_true, if_false]

/-- What `joinNext` leaves at a free block: a free block whose neighbour behind it is in use. -/
theorem Lists.joined (h : Lists s (xs ++ c :: ys)) (hc : c.free = true) (hys : Apart ys) :
    ∃ d zs, d.addr = c.addr ∧ d.free = true ∧ Lists (joinNext s c.addr) (xs ++ d :: zs)
      ∧ Apart (d :: zs) ∧ used zs = used ys ∧ (LastFree (c :: ys) → LastFree (d :: zs)) := by
  cases ys with
  | nil =>
    have hsame := h.joinNext_same hc fun _ hd => nomatch hd
    exact ⟨c, [], rfl, hc, by rwa [hsame], List.isChain_singleton _, rfl, id⟩
  | cons d ys =>
    cases hd : d.free with
    | false =>
      have hsame := h.joinNext_same hc fun e he => by
        obtain rfl : d = e := by simpa using he
        exact hd
      refine ⟨c, d :: ys, rfl, hc, by rwa [hsame], ?_, rfl, id⟩
      exact List.isChain_cons_cons.2 ⟨by simp [hd], hys⟩
    | true =>
      refine ⟨⟨c.addr, c.len + d.len + headerSize, true⟩, ys, rfl, rfl, h.join hc hd, ?_,
        (used_cons_free hd).symm, fun hlast => ?_⟩
      · cases ys with
        | nil => exact List.isChain_singleton _
        | cons e ys =>
          obtain ⟨hde, hys⟩ := List.isChain_cons_cons.1 hys
          exact List.isChain_cons_cons.2 ⟨by simpa [hd] using hde, hys⟩
      · cases ys with
        | nil => exact ⟨_, rfl, rfl⟩
        | cons e ys => simpa [LastFree] using hlast

/-- The search of `finsh_block_merge` for the node in front of a free block. -/
theorem Lists.prev_eq (h : Lists s (xs ++ b :: ys)) (hb : b.free = true) :
    (if s.freeList = some b.addr then none else prevNode s.next b.addr finshHeapMax s.freeList)
      = (addrs (unused xs)).getLast? := by
  have hfree := h.free
  rw [unused_append, unused_cons_free hb, addrs_append, addrs_cons] at hfree
  obtain hnil | ⟨us, x, hxs⟩ := List.eq_nil_or_concat' (addrs (unused xs))
  · rw [hnil] at hfree ⊢
    exact if_pos hfree.1
  · have hbelow : ∀ y ∈ us ++ [x], y < b.addr := fun y hy =>
      addr_lt h.tiles y (((unused_sublist xs).map _).subset (by rwa [← hxs] at hy))
    have hnot : b.addr ∉ us ++ [x] := fun hm => lt_irrefl _ (hbelow _ hm)
    have hlength : us.length < finshHeapMax := by
      have := length_lt h.tiles (unused_sublist xs)
      rw [hxs] at this
      simp at this
      omega
    rw [hxs, List.append_assoc, List.singleton_append] at hfree
    obtain ⟨node, hnode, hfirst⟩ := head_mem hfree
    have hne : s.freeList ≠ some b.addr := by
      rw [hfirst]
      rintro ⟨⟩
      exact hnot hnode
    rw [if_neg hne, prevNode_eq hlength hfree hnot, hxs]
    simp

/-- The block in front is free: it takes in the block that has come, and then the one behind. -/
theorem Lists.merge_prev (h : Lists s (xs ++ c :: b :: ys)) (hc : c.free = true)
    (hb : b.free = true) :
    finshBlockMerge s s.freeList b.addr = joinNext (joinNext s c.addr) c.addr := by
  have h' : Lists s ((xs ++ [c]) ++ b :: ys) := by rwa [List.append_assoc, List.singleton_append]
  have hprev := h'.prev_eq hb
  rw [unused_append, unused_cons_free hc, unused_nil, addrs_append,
    show addrs [c] = [c.addr] from rfl, List.getLast?_concat] at hprev
  have haddr := h.tiles.next_addr
  have hcnext : s.next c.addr = some b.addr := by
    rw [h.next_free hc, unused_cons_free hb]
    rfl
  have hcclose : close s c.addr b.addr = true := by
    rw [h.close_eq (by simp), haddr]
    exact decide_eq_true rfl
  have hjoin : joinNext s c.addr = { s with
      length := update s.length c.addr ((s.length c.addr + s.length b.addr + headerSize) % 2 ^ 32)
      next := update s.next c.addr (s.next b.addr) } := by
    simp only [joinNext, hcnext, hcclose, if_pos]
  have hjoined := h.join hc hb
  rw [finshBlockMerge, hprev]
  simp only [hcclose, if_pos]
  cases hnext : s.next b.addr with
  | none =>
    rw [hjoin, joinNext]
    simp only [update_self, hnext, Nat.add_assoc]
  | some next =>
    have hclose : close (joinNext s c.addr) c.addr next = close s b.addr next := by
      have hjclose : close (joinNext s c.addr) c.addr next
          = decide (c.addr + headerSize + (c.len + b.len + headerSize) = next) :=
        hjoined.close_eq (b := ⟨c.addr, c.len + b.len + headerSize, true⟩) (by simp) next
      rw [h'.close_eq (by simp), hjclose, haddr]
      exact decide_eq_decide.2 ⟨fun e => by omega, fun e => by omega⟩
    have hne : next ≠ c.addr := by
      have hmem : next ∈ addrs (unused ys) := by
        rw [h'.next_free hb] at hnext
        exact List.mem_of_mem_head? hnext
      have := lt_addr h'.tiles next (((unused_sublist ys).map _).subset hmem)
      have := addr_lt h'.tiles c.addr (by simp)
      omega
    have hlength : (joinNext s c.addr).length next = s.length next := by
      rw [hjoin]
      exact update_of_ne hne _ _
    have hjnext : (joinNext s c.addr).next c.addr = some next := by
      rw [hjoin]
      exact (update_self _ _ _).trans hnext
    have hafter : (joinNext s c.addr).next next = s.next next := by
      rw [hjoin]
      exact update_of_ne hne _ _
    have hself : (joinNext s c.addr).length c.addr
        = (s.length c.addr + s.length b.addr + headerSize) % 2 ^ 32 := by
      rw [hjoin]
      exact update_self _ _ _
    have hsum : (s.length c.addr + (s.length b.addr + s.length next + 2 * headerSize)) % 2 ^ 32
        = ((s.length c.addr + s.length b.addr + headerSize) % 2 ^ 32 + s.length next + headerSize)
          % 2 ^ 32 := by omega
    rw [joinNext]
    simp only [hjnext, hclose, hlength, hafter, hself]
    by_cases hnear : close s b.addr next = true
    · simp only [if_pos hnear, hjoin, update_idem, hsum]
    · simp only [if_neg hnear, hjoin, Nat.add_assoc, hnext]

/-- The block in front is not free. -/
theorem Lists.merge_no_prev (h : Lists s (xs ++ b :: ys)) (hb : b.free = true)
    (hxs : ∀ c ∈ xs.getLast?, c.free = false) :
    finshBlockMerge s s.freeList b.addr = joinNext s b.addr := by
  rw [finshBlockMerge, h.prev_eq hb]
  cases hlast : (addrs (unused xs)).getLast? with
  | none => rfl
  | some x =>
    obtain ⟨e, he, rfl⟩ := List.mem_map.1 (List.mem_of_getLast? hlast)
    obtain ⟨he, hefree⟩ := mem_unused.1 he
    obtain rfl | ⟨xs, c, rfl⟩ := List.eq_nil_or_concat' xs
    · cases he
    · have hc : c.free = false := hxs c (by simp)
      have hexs : e ∈ xs := by
        obtain he | he := List.mem_append.1 he
        · exact he
        · rw [List.mem_singleton.1 he, hc] at hefree
          cases hefree
      have htiles := h.tiles
      rw [List.append_assoc, List.singleton_append] at htiles
      have hec := htiles.around.1 e hexs
      have hcb := htiles.next_addr
      have hopen : close s e.addr b.addr = false := by
        rw [h.close_eq (List.mem_append_left _ he)]
        refine decide_eq_false fun heq => ?_
        simp only [headerSize] at *
        omega
      simp only [hopen, Bool.false_eq_true, if_false]

/-- A free block among blocks that are apart is joined to its neighbours. -/
theorem Lists.merge (h : Lists s (xs ++ b :: ys)) (hb : b.free = true) (hxs : Apart xs)
    (hys : Apart ys) :
    ∃ zs, Blocks (finshBlockMerge s s.freeList b.addr) zs ∧ used zs = used xs ++ used ys
      ∧ (LastFree (b :: ys) → LastFree zs) := by
  by_cases hprev : ∃ c ∈ xs.getLast?, c.free = true
  · obtain ⟨c, hlast, hc⟩ := hprev
    obtain ⟨xs, rfl⟩ := List.getLast?_eq_some_iff.1 hlast
    rw [List.append_assoc, List.singleton_append] at h
    obtain ⟨hxs', -, hends⟩ := List.isChain_append.1 hxs
    obtain ⟨d, zs, haddr, hd, hlists, hzs, hused, hfree⟩ := (h.join hc hb).joined rfl hys
    refine ⟨xs ++ d :: zs, ⟨?_, ?_⟩, ?_, fun hlast => ?_⟩
    · rw [h.merge_prev hc hb]
      exact hlists
    · refine List.isChain_append.2 ⟨hxs', hzs, fun e he f hf => ?_⟩
      obtain rfl : d = f := by simpa using hf
      have := hends e he c rfl
      simpa [hc, hd] using this
    · simp [used_cons_free hd, used_cons_free hc, hused]
    · rw [lastFree_append]
      refine hfree ?_
      cases ys with
      | nil => exact ⟨_, rfl, rfl⟩
      | cons e ys => simpa [LastFree] using hlast
  · push Not at hprev
    have hno : ∀ c ∈ xs.getLast?, c.free = false := fun c hc => by simpa using hprev c hc
    obtain ⟨d, zs, haddr, hd, hlists, hzs, hused, hfree⟩ := h.joined hb hys
    refine ⟨xs ++ d :: zs, ⟨?_, ?_⟩, ?_, fun hlast => ?_⟩
    · rw [h.merge_no_prev hb hno]
      exact hlists
    · refine List.isChain_append.2 ⟨hxs, hzs, fun e he f _ => ?_⟩
      simp [hno e he]
    · simp [used_cons_free hd, hused]
    · rw [lastFree_append]
      exact hfree hlast

/-! ### Giving back -/

theorem unused_ne_nil (h : LastFree (b :: ys)) (hb : b.free = false) : unused ys ≠ [] := by
  obtain ⟨c, hc, hfree⟩ := h
  cases ys with
  | nil =>
    obtain rfl : b = c := by simpa using hc
    rw [hb] at hfree
    cases hfree
  | cons d ys =>
    have hmem : c ∈ unused (d :: ys) :=
      mem_unused.2 ⟨List.mem_of_getLast? (by simpa using hc), hfree⟩
    exact List.ne_nil_of_mem hmem

/-- `finsh_heap_free` gives back the block at an address, and no other. -/
theorem finshHeapFree_spec (h : Blocks s bs) (hlast : LastFree bs) {us vs : List Block}
    (hused : used bs = us ++ b :: vs) :
    ∃ zs, Blocks (finshHeapFree s (b.addr + headerSize)) zs ∧ LastFree zs
      ∧ used zs = us ++ vs := by
  obtain ⟨xs, ys, rfl, hb, rfl, rfl⟩ := split_used hused
  rw [lastFree_append] at hlast
  obtain ⟨hxs, hbys, -⟩ := List.isChain_append.1 h.apart
  have hys : Apart ys := hbys.tail
  have hin := (h.tiles.inside b (by simp)).2
  have hheader : sub32 (b.addr + headerSize) headerSize = b.addr := by
    simp only [headerSize, finshHeapMax] at hin
    rw [sub32_eq (by omega) (by simp only [headerSize]; omega)]
    omega
  have hreleased := h.toLists.release hb (unused_ne_nil hlast hb)
  obtain ⟨zs, hzs, hzused, hzlast⟩ := hreleased.merge rfl hxs hys
  refine ⟨zs, ?_, hzlast ?_, hzused⟩
  · rw [finshHeapFree, hheader]
    exact hzs
  · cases ys with
    | nil => exact ⟨_, rfl, rfl⟩
    | cons d ys => simpa [LastFree] using hlast

/-! ### Collecting -/

/-- Whether a global variable holds the address of the bytes of a block. -/
abbrev isHeld (held : List ℕ) (b : Block) : Bool := b.addr + headerSize ∈ held

theorem gcLoop_spec (held : List ℕ) : ∀ (us vs : List Block) {fuel : ℕ} {s : FinshHeap}
    {bs : List Block}, vs.length < fuel → Blocks s bs → LastFree bs → used bs = us ++ vs →
    ∃ zs, Blocks (gcLoop held fuel (addrs vs).head? s) zs ∧ LastFree zs
      ∧ used zs = us ++ vs.filter (isHeld held)
  | us, [], fuel + 1, s, bs, _, h, hlast, hused => ⟨bs, h, hlast, by simpa using hused⟩
  | us, b :: vs, fuel + 1, s, bs, hfuel, h, hlast, hused => by
    have hfuel : vs.length < fuel := Nat.lt_of_succ_lt_succ hfuel
    have hnext : s.next b.addr = (addrs vs).head? := by
      have := h.allocated
      rw [hused, addrs_append, addrs_cons] at this
      exact this.next_eq
    rw [addrs_cons, List.head?_cons, gcLoop, hnext, List.filter_cons]
    by_cases hheld : b.addr + headerSize ∈ held
    · simp only [hheld, if_pos, isHeld, decide_true]
      obtain ⟨zs, hzs, hzlast, hzused⟩ :=
        gcLoop_spec held (us ++ [b]) vs hfuel h hlast (by simpa using hused)
      exact ⟨zs, hzs, hzlast, by simpa using hzused⟩
    · simp only [hheld, if_false, isHeld, decide_false, Bool.false_eq_true]
      obtain ⟨ws, hws, hwlast, hwused⟩ := finshHeapFree_spec h hlast hused
      exact gcLoop_spec held us vs hfuel hws hwlast hwused

/-- `finsh_heap_gc` gives back the blocks that no global variable holds. -/
theorem finshHeapGc_spec (held : List ℕ) (h : Blocks s bs) (hlast : LastFree bs) :
    ∃ zs, Blocks (finshHeapGc held s) zs ∧ LastFree zs ∧ used zs = (used bs).filter (isHeld held) := by
  have hfuel : (used bs).length < finshHeapMax := by
    have hlength := h.tiles.length_le
    have := (used_sublist bs).length_le
    simp only [headerSize, finshHeapMax] at *
    omega
  have hhead := h.allocated.head
  rw [finshHeapGc, hhead]
  exact gcLoop_spec held [] (used bs) hfuel h hlast rfl

/-! ### Taking -/

/-- A free block is cut in two. -/
theorem Lists.split (h : Lists s (xs ++ b :: ys)) (hb : b.free = true) {size : ℕ}
    (hsize : size + headerSize ≤ b.len) :
    Lists (finshBlockSplit s b.addr size) (xs ++ ⟨b.addr, size, true⟩
      :: ⟨b.addr + headerSize + size, b.len - headerSize - size, true⟩ :: ys) := by
  have hin := (h.tiles.inside b (by simp)).2
  have hlen := h.length b (by simp)
  have hwrap : (b.addr + headerSize + size) % 2 ^ 32 = b.addr + headerSize + size := by
    simp only [headerSize, finshHeapMax] at hin hsize ⊢
    omega
  have hrest : sub32 (sub32 b.len headerSize) size = b.len - headerSize - size := by
    simp only [headerSize, finshHeapMax] at hin hsize ⊢
    rw [sub32_eq (show 8 ≤ b.len by omega) (by omega),
      sub32_eq (show size ≤ b.len - 8 by omega) (by omega)]
  have hbelow := addr_lt h.tiles
  have habove : ∀ x ∈ addrs ys, b.addr + headerSize + b.len ≤ x := fun x hx => by
    obtain ⟨c, hc, rfl⟩ := List.mem_map.1 hx
    exact h.tiles.around.2 c hc
  -- the header of the second part is none of the others
  have hne : ∀ x, x ∈ addrs xs ∨ x ∈ addrs ys → x ≠ b.addr ∧ x ≠ b.addr + headerSize + size := by
    rintro x (hx | hx)
    · have := hbelow x hx
      omega
    · have := habove x hx
      simp only [headerSize] at *
      omega
  have hnext : b.addr ≠ b.addr + headerSize + size := by
    simp only [headerSize]
    omega
  have hsplit := h.tiles.split (f := true) (g := true) hsize
  have hfree := h.free
  have hallocated := h.allocated
  rw [unused_append, unused_cons_free hb, addrs_append, addrs_cons] at hfree
  rw [used_append, used_cons_free hb] at hallocated
  have hlink : s.next b.addr = (addrs (unused ys)).head? := h.next_free hb
  simp only [finshBlockSplit, hwrap, hlen, hrest]
  refine ⟨hsplit, fun c hc => ?_, ?_, ?_⟩
  · obtain hc | rfl | rfl | hc := by simpa using hc
    · obtain ⟨hcb, hcn⟩ := hne c.addr (Or.inl (List.mem_map_of_mem hc))
      exact (update_of_ne hcb _ _).trans ((update_of_ne hcn _ _).trans (h.length c (by simp [hc])))
    · exact update_self _ _ _
    · exact (update_of_ne hnext.symm _ _).trans (update_self _ _ _)
    · obtain ⟨hcb, hcn⟩ := hne c.addr (Or.inr (List.mem_map_of_mem hc))
      exact (update_of_ne hcb _ _).trans ((update_of_ne hcn _ _).trans (h.length c (by simp [hc])))
  · rw [unused_append, unused_cons_free rfl, unused_cons_free rfl, addrs_append, addrs_cons,
      addrs_cons]
    refine hfree.insert ?_ (update_self _ _ _) fun x hx => ?_
    · exact (update_of_ne hnext.symm _ _).trans ((update_self _ _ _).trans hlink)
    · obtain ⟨hxb, hxn⟩ := hne x ((List.mem_append.1 hx).imp
        (fun hx => ((unused_sublist xs).map _).subset hx)
        fun hx => ((unused_sublist ys).map _).subset hx)
      exact (update_of_ne hxb _ _).trans (update_of_ne hxn _ _)
  · rw [used_append, used_cons_free rfl, used_cons_free rfl]
    refine hallocated.congr fun x hx => ?_
    rw [addrs_append] at hx
    obtain ⟨hxb, hxn⟩ := hne x ((List.mem_append.1 hx).imp
      (fun hx => ((used_sublist xs).map _).subset hx)
      fun hx => ((used_sublist ys).map _).subset hx)
    exact (update_of_ne hxb _ _).trans (update_of_ne hxn _ _)

/-- A block that is long enough is taken. -/
theorem take_spec (h : Blocks s (xs ++ b :: ys)) (hlast : LastFree (xs ++ b :: ys))
    (hb : b.free = true) {size : ℕ} (hsize : size + headerSize ≤ b.len) :
    ∃ zs, Blocks (take s b.addr size) zs ∧ LastFree zs
      ∧ used zs = used xs ++ ⟨b.addr, size, false⟩ :: used ys := by
  have hsplit := h.toLists.split hb hsize
  generalize hc : (⟨b.addr, size, true⟩ : Block) = c at hsplit
  generalize hd : (⟨b.addr + headerSize + size, b.len - headerSize - size, true⟩ : Block) = d
    at hsplit
  have hcfree : c.free = true := hc ▸ rfl
  have hdfree : d.free = true := hd ▸ rfl
  have hcaddr : c.addr = b.addr := hc ▸ rfl
  have hused : used (xs ++ c :: d :: ys) = used xs ++ used ys := by
    rw [used_append, used_cons_free hcfree, used_cons_free hdfree]
  have hunused : unused (xs ++ c :: d :: ys) = unused xs ++ c :: d :: unused ys := by
    rw [unused_append, unused_cons_free hcfree, unused_cons_free hdfree]
  obtain ⟨hfree, hallocated⟩ := transfer hsplit.tiles (unused_sublist xs)
    ((unused_sublist ys).cons_cons d) (used_sublist xs) ((used_sublist ys).cons d)
    (fun x hx hx' => disjoint_addrs hsplit.tiles (hunused ▸ hx') (hused ▸ hx))
    (hunused ▸ hsplit.free) (hused ▸ hsplit.allocated)
    (update (finshBlockRemove (finshBlockSplit s b.addr size).next
      (finshBlockSplit s b.addr size).freeList c.addr).1 c.addr none)
    (fun x hx => update_of_ne hx _ _) fun _ => update_self _ _ _
  obtain ⟨hxs, hbys, -⟩ := List.isChain_append.1 h.apart
  refine ⟨xs ++ { c with free := false } :: d :: ys, ⟨⟨hsplit.tiles.mark, fun e he => ?_, ?_, ?_⟩,
    ?_⟩, ?_, ?_⟩
  · obtain he | rfl | rfl | he := by simpa using he
    · exact hsplit.length e (by simp [he])
    · exact hsplit.length c (by simp)
    · exact hsplit.length e (by simp)
    · exact hsplit.length e (by simp [he])
  · rw [unused_append, unused_cons_used rfl, unused_cons_free hdfree]
    simpa only [take, hcaddr] using hfree
  · rw [addrs_append, addrs_cons] at hallocated
    rw [used_append, used_cons_used rfl, used_cons_free hdfree, addrs_append, addrs_cons]
    simpa only [take, hcaddr] using hallocated
  · refine List.isChain_append.2 ⟨hxs, ?_, fun e _ f hf => ?_⟩
    · refine List.isChain_cons_cons.2 ⟨by simp, ?_⟩
      cases ys with
      | nil => exact List.isChain_singleton _
      | cons e ys =>
        obtain ⟨hbe, hys⟩ := List.isChain_cons_cons.1 hbys
        exact List.isChain_cons_cons.2 ⟨by simpa [hb, hdfree] using hbe, hys⟩
    · obtain rfl : _ = f := by simpa using hf
      simp
  · rw [lastFree_append] at hlast ⊢
    cases ys with
    | nil => exact ⟨d, by simp, hdfree⟩
    | cons e ys => simpa [LastFree] using hlast
  · rw [used_append, used_cons_used rfl, used_cons_free hdfree, ← hc]

/-- The first block on the free list that will do. -/
theorem firstFit_spec (h : Blocks s bs) (fits : ℕ → Bool) :
    firstFit s fits finshHeapMax s.freeList = none ∧ (∀ b ∈ unused bs, fits b.len = false)
      ∨ ∃ b ∈ unused bs, fits b.len = true
        ∧ firstFit s fits finshHeapMax s.freeList = some b.addr := by
  have hlength : (addrs (unused bs)).length < finshHeapMax := by
    have hlength := h.tiles.length_le
    have := (unused_sublist bs).length_le
    simp only [headerSize, finshHeapMax, List.length_map] at *
    omega
  have hlen : ∀ b ∈ unused bs, s.length b.addr = b.len := fun b hb =>
    h.length b (mem_unused.1 hb).1
  rw [firstFit_eq s fits hlength h.free]
  cases hfind : (addrs (unused bs)).find? fun header => fits (s.length header) with
  | none =>
    refine Or.inl ⟨rfl, fun b hb => ?_⟩
    have := List.find?_eq_none.1 hfind b.addr (List.mem_map_of_mem hb)
    rw [hlen b hb] at this
    simpa using this
  | some x =>
    obtain ⟨b, hb, rfl⟩ := List.mem_map.1 (List.mem_of_find?_eq_some hfind)
    have := List.find?_some hfind
    rw [hlen b hb] at this
    exact Or.inr ⟨b, hb, this, rfl⟩

/-- A block that has been found on the free list is taken. -/
theorem take_of_mem (h : Blocks s bs) (hlast : LastFree bs) (hb : b ∈ unused bs) {size : ℕ}
    (hsize : size + headerSize ≤ b.len) :
    ∃ us vs zs, Blocks (take s b.addr size) zs ∧ LastFree zs ∧ used bs = us ++ vs
      ∧ used zs = us ++ ⟨b.addr, size, false⟩ :: vs := by
  obtain ⟨hb, hfree⟩ := mem_unused.1 hb
  obtain ⟨xs, ys, rfl⟩ := List.append_of_mem hb
  obtain ⟨zs, hzs, hzlast, hused⟩ := take_spec h hlast hfree hsize
  exact ⟨used xs, used ys, zs, hzs, hzlast, by simp [used_cons_free hfree], hused⟩

/-- What an allocation that succeeds leaves behind: a block of `size` bytes among the `old` ones. -/
def Taken (r : FinshHeap × Option ℕ) (old : List Block) (size : ℕ) : Prop :=
  ∃ us vs zs a, Blocks r.1 zs ∧ LastFree zs ∧ old = us ++ vs
    ∧ used zs = us ++ ⟨a, size, false⟩ :: vs ∧ r.2 = some (a + headerSize)

/-- Whether a block is found without a collection. -/
def Fits (bs : List Block) (size : ℕ) : Prop := ∃ b ∈ unused bs, size + headerSize < b.len

/-- Whether a block is found after a collection: the blocks that variables hold leave enough space for
    it, and for one more header. -/
def Room (held : List ℕ) (bs : List Block) (size : ℕ) : Prop :=
  ∃ x, x + (headerSize + (size + headerSize)) ≤ finshHeapMax
    ∧ ∀ b ∈ (used bs).filter (isHeld held), b.addr + headerSize + b.len ≤ x
      ∨ x + (headerSize + (size + headerSize)) ≤ b.addr

/-- A collection makes room if there is room beside what variables hold. -/
theorem room_iff {held : List ℕ} {ws : List Block} (hws : Blocks s ws)
    (hused : used ws = (used bs).filter (isHeld held)) {size : ℕ} :
    (∃ b ∈ unused ws, size + headerSize ≤ b.len) ↔ Room held bs size := by
  have hroom := hws.tiles.room headerSize_pos hws.apart (n := headerSize + (size + headerSize))
    (by simp only [headerSize]; omega)
  simp only [Nat.zero_le, true_and, Nat.add_le_add_iff_left, hused] at hroom
  exact hroom

/-- `finsh_heap_allocate` takes a block, after a collection when no block does without. -/
theorem finshHeapAllocate_spec (held : List ℕ) (h : Blocks s bs) (hlast : LastFree bs) {size : ℕ}
    (hsize : heapAlignSize size + headerSize < 2 ^ 32) :
    Fits bs (heapAlignSize size)
        ∧ Taken (finshHeapAllocate held s size) (used bs) (heapAlignSize size)
      ∨ ¬ Fits bs (heapAlignSize size)
        ∧ (Room held bs (heapAlignSize size)
            ∧ Taken (finshHeapAllocate held s size) ((used bs).filter (isHeld held))
              (heapAlignSize size)
          ∨ ¬ Room held bs (heapAlignSize size) ∧ (finshHeapAllocate held s size).2 = none
            ∧ ∃ zs, Blocks (finshHeapAllocate held s size).1 zs ∧ LastFree zs
              ∧ used zs = (used bs).filter (isHeld held)) := by
  have hroom : (heapAlignSize size + headerSize) % 2 ^ 32 = heapAlignSize size + headerSize :=
    Nat.mod_eq_of_lt hsize
  unfold finshHeapAllocate
  simp only [hroom]
  obtain ⟨hfind, hnone⟩ | ⟨b, hb, hfits, hfind⟩ :=
    firstFit_spec h (heapAlignSize size + headerSize < ·)
  · have hnot : ¬ Fits bs (heapAlignSize size) := by
      rintro ⟨b, hb, hlt⟩
      exact of_decide_eq_false (hnone b hb) hlt
    obtain ⟨ws, hws, hwlast, hwused⟩ := finshHeapGc_spec held h hlast
    refine Or.inr ⟨hnot, ?_⟩
    simp only [hfind]
    rw [← room_iff hws hwused]
    obtain ⟨hfind', hnone'⟩ | ⟨b, hb, hfits, hfind'⟩ :=
      firstFit_spec hws (heapAlignSize size + headerSize ≤ ·)
    · simp only [hfind']
      refine Or.inr ⟨?_, trivial, ws, hws, hwlast, hwused⟩
      rintro ⟨b, hb, hle⟩
      exact of_decide_eq_false (hnone' b hb) hle
    · have hle := of_decide_eq_true hfits
      obtain ⟨us, vs, zs, hzs, hzlast, hold, hnew⟩ := take_of_mem hws hwlast hb hle
      simp only [hfind']
      exact Or.inl ⟨⟨b, hb, hle⟩, us, vs, zs, b.addr, hzs, hzlast, hwused.symm.trans hold, hnew, rfl⟩
  · have hlt := of_decide_eq_true hfits
    obtain ⟨us, vs, zs, hzs, hzlast, hold, hnew⟩ := take_of_mem h hlast hb hlt.le
    simp only [hfind]
    exact Or.inl ⟨⟨b, hb, hlt⟩, us, vs, zs, b.addr, hzs, hzlast, hold, hnew, rfl⟩

theorem finshHeapInit_blocks : Blocks finshHeapInit [⟨0, finshHeapMax - headerSize, true⟩] where
  tiles := ⟨rfl, rfl⟩
  length b hb := by
    rw [List.mem_singleton.1 hb]
    rfl
  free := ⟨rfl, rfl⟩
  allocated := rfl
  apart := List.isChain_singleton _

end EasyCore.Finsh.Heap
