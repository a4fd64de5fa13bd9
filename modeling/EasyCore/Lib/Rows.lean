import Mathlib

/-! Blocks, each with a header of `hdr` bytes in front, that lie one behind the other.

        a                                          e
        ├ hdr │ len ├ hdr │ len ├ ... ├ hdr │ len ┤ -/

namespace EasyCore.Rows

structure Block where
  addr : ℕ
  len : ℕ
  free : Bool
  deriving DecidableEq

/-- The blocks fill the space from `a` to `e`. -/
def Tiles (hdr : ℕ) : ℕ → List Block → ℕ → Prop
  | a, [], e => a = e
  | a, b :: bs, e => b.addr = a ∧ Tiles hdr (a + hdr + b.len) bs e

/-- The blocks that are in use, and those that are not. -/
def used (bs : List Block) : List Block := bs.filter fun b => !b.free

def unused (bs : List Block) : List Block := bs.filter (·.free)

/-- No two neighbours are both free. -/
def Apart (bs : List Block) : Prop := bs.IsChain fun b c => ¬ (b.free ∧ c.free)

variable {hdr a e : ℕ} {bs xs ys : List Block} {b c : Block}

theorem tiles_append : ∀ {a : ℕ} {xs : List Block}, Tiles hdr a (xs ++ ys) e
    ↔ ∃ m, Tiles hdr a xs m ∧ Tiles hdr m ys e
  | a, [] => by simp [Tiles]
  | a, x :: xs => by
    simp only [List.cons_append, Tiles, tiles_append]
    constructor
    · rintro ⟨hx, m, hxs, hys⟩
      exact ⟨m, ⟨hx, hxs⟩, hys⟩
    · rintro ⟨m, ⟨hx, hxs⟩, hys⟩
      exact ⟨hx, m, hxs, hys⟩

namespace Tiles

theorem length_le : ∀ {a : ℕ} {bs : List Block}, Tiles hdr a bs e → a + hdr * bs.length ≤ e
  | a, [], h => by
    obtain rfl : a = e := h
    simp
  | a, b :: bs, h => by
    have := length_le h.2
    rw [List.length_cons, Nat.mul_succ]
    omega

/-- A block is inside the space. -/
theorem inside : ∀ {a : ℕ} {bs : List Block}, Tiles hdr a bs e → ∀ b ∈ bs,
    a ≤ b.addr ∧ b.addr + hdr + b.len ≤ e
  | a, b :: bs, h, c, hc => by
    have hle := length_le h.2
    obtain rfl | hc := List.mem_cons.1 hc
    · obtain rfl := h.1
      omega
    · have := inside h.2 c hc
      omega

/-- The blocks in front of a block end where it begins, or before; those behind it begin where it
    ends, or later. -/
theorem around (h : Tiles hdr a (xs ++ b :: ys) e) :
    (∀ c ∈ xs, c.addr + hdr + c.len ≤ b.addr) ∧ ∀ c ∈ ys, b.addr + hdr + b.len ≤ c.addr := by
  obtain ⟨m, hxs, hb, hys⟩ := tiles_append.1 h
  subst hb
  exact ⟨fun c hc => (hxs.inside c hc).2, fun c hc => (hys.inside c hc).1⟩

/-- Two blocks that are neighbours. -/
theorem next_addr (h : Tiles hdr a (xs ++ b :: c :: ys) e) : c.addr = b.addr + hdr + b.len := by
  obtain ⟨m, -, rfl, hc, -⟩ := tiles_append.1 h
  exact hc

theorem sorted (hpos : 0 < hdr) : ∀ {a : ℕ} {bs : List Block}, Tiles hdr a bs e →
    bs.Pairwise fun b c => b.addr < c.addr
  | _, [], _ => List.Pairwise.nil
  | a, b :: bs, h => by
    refine List.Pairwise.cons (fun c hc => ?_) (sorted hpos h.2)
    have hc := (inside h.2 c hc).1
    have hb := h.1
    omega

/-- A block is cut in two. -/
theorem split {size : ℕ} {f g : Bool} (h : Tiles hdr a (xs ++ b :: ys) e)
    (hsize : size + hdr ≤ b.len) :
    Tiles hdr a (xs ++ ⟨b.addr, size, f⟩ :: ⟨b.addr + hdr + size, b.len - hdr - size, g⟩ :: ys) e := by
  obtain ⟨m, hxs, rfl, hys⟩ := tiles_append.1 h
  refine tiles_append.2 ⟨_, hxs, rfl, rfl, ?_⟩
  rwa [show b.addr + hdr + size + hdr + (b.len - hdr - size) = b.addr + hdr + b.len by omega]

/-- Two neighbours become one block. -/
theorem join {f : Bool} (h : Tiles hdr a (xs ++ b :: c :: ys) e) :
    Tiles hdr a (xs ++ ⟨b.addr, b.len + c.len + hdr, f⟩ :: ys) e := by
  obtain ⟨m, hxs, rfl, -, hys⟩ := tiles_append.1 h
  refine tiles_append.2 ⟨_, hxs, rfl, ?_⟩
  rwa [show b.addr + hdr + (b.len + c.len + hdr) = b.addr + hdr + b.len + hdr + c.len by omega]

/-- Whether a block is free does not matter for where it lies. -/
theorem mark {f : Bool} (h : Tiles hdr a (xs ++ b :: ys) e) :
    Tiles hdr a (xs ++ { b with free := f } :: ys) e := by
  obtain ⟨m, hxs, hb⟩ := tiles_append.1 h
  exact tiles_append.2 ⟨m, hxs, hb⟩

end Tiles

/-! ### The free blocks and the others -/

@[simp] theorem used_nil : used [] = [] := rfl

@[simp] theorem unused_nil : unused [] = [] := rfl

@[simp] theorem used_append : used (xs ++ ys) = used xs ++ used ys := List.filter_append xs ys

@[simp] theorem unused_append : unused (xs ++ ys) = unused xs ++ unused ys := List.filter_append xs ys

theorem used_cons_used (h : b.free = false) : used (b :: bs) = b :: used bs := by simp [used, h]

theorem used_cons_free (h : b.free = true) : used (b :: bs) = used bs := by simp [used, h]

theorem unused_cons_used (h : b.free = false) : unused (b :: bs) = unused bs := by
  simp [unused, h]

theorem unused_cons_free (h : b.free = true) : unused (b :: bs) = b :: unused bs := by
  simp [unused, h]

theorem mem_used : b ∈ used bs ↔ b ∈ bs ∧ b.free = false := by simp [used]

theorem mem_unused : b ∈ unused bs ↔ b ∈ bs ∧ b.free = true := by simp [unused]

theorem used_sublist (bs : List Block) : (used bs).Sublist bs := List.filter_sublist

theorem unused_sublist (bs : List Block) : (unused bs).Sublist bs := List.filter_sublist

/-- A block in use splits the blocks. -/
theorem split_used {us vs : List Block} (h : used bs = us ++ b :: vs) :
    ∃ xs ys, bs = xs ++ b :: ys ∧ b.free = false ∧ used xs = us ∧ used ys = vs := by
  obtain ⟨xs, zs, rfl, hxs, hzs⟩ := List.filter_eq_append_iff.1 h
  obtain ⟨ws, ys, rfl, hws, hb, hys⟩ := List.filter_eq_cons_iff.1 hzs
  refine ⟨xs ++ ws, ys, by simp, by simpa using hb, ?_, hys⟩
  have hnone : used ws = [] := List.filter_eq_nil_iff.2 hws
  rw [used_append, hnone, List.append_nil]
  exact hxs

theorem Tiles.nodup (hpos : 0 < hdr) (h : Tiles hdr a bs e) : (bs.map (·.addr)).Nodup :=
  List.pairwise_map.2 ((h.sorted hpos).imp Nat.ne_of_lt)

/-- At an address there is one block. -/
theorem Tiles.eq_of_addr (hpos : 0 < hdr) (h : Tiles hdr a bs e) (hb : b ∈ bs) (hc : c ∈ bs)
    (haddr : b.addr = c.addr) : b = c := List.inj_on_of_nodup_map (h.nodup hpos) hb hc haddr

/-- Each place is in a block. -/
theorem Tiles.find : ∀ {a : ℕ} {bs : List Block}, Tiles hdr a bs e → ∀ {x : ℕ}, a ≤ x → x < e →
    ∃ xs b ys, bs = xs ++ b :: ys ∧ b.addr ≤ x ∧ x < b.addr + hdr + b.len
  | a, [], h, x, hle, hlt => by
    obtain rfl : a = e := h
    omega
  | a, b :: bs, h, x, hle, hlt => by
    obtain ⟨rfl, hbs⟩ := h
    by_cases hx : x < b.addr + hdr + b.len
    · exact ⟨[], b, bs, rfl, hle, hx⟩
    · obtain ⟨xs, c, ys, rfl, hc⟩ := Tiles.find hbs (Nat.le_of_not_lt hx) hlt
      exact ⟨b :: xs, c, ys, rfl, hc⟩

/-- Where no two neighbours are free, a space that no block in use touches is in one free block. -/
theorem Tiles.room (h : Tiles hdr a bs e) (hpos : 0 < hdr) (hapart : Apart bs) {n : ℕ} (hn : 0 < n) :
    (∃ b ∈ unused bs, n ≤ hdr + b.len)
      ↔ ∃ x, a ≤ x ∧ x + n ≤ e ∧ ∀ b ∈ used bs, b.addr + hdr + b.len ≤ x ∨ x + n ≤ b.addr := by
  constructor
  · rintro ⟨b, hb, hle⟩
    obtain ⟨hb, hfree⟩ := mem_unused.1 hb
    obtain ⟨ha, he⟩ := h.inside b hb
    obtain ⟨xs, ys, rfl⟩ := List.append_of_mem hb
    refine ⟨b.addr, ha, by omega, fun c hc => ?_⟩
    obtain ⟨hc, hcfree⟩ := mem_used.1 hc
    obtain hc | rfl | hc := by simpa using hc
    · exact Or.inl (h.around.1 c hc)
    · rw [hfree] at hcfree
      cases hcfree
    · have := h.around.2 c hc
      exact Or.inr (by omega)
  · rintro ⟨x, ha, he, hx⟩
    obtain ⟨xs, b, ys, rfl, hle, hlt⟩ := h.find ha (by omega : x < e)
    have hb : b.free = true := by
      by_contra hno
      have := hx b (mem_used.2 ⟨by simp, by simpa using hno⟩)
      omega
    refine ⟨b, mem_unused.2 ⟨by simp, hb⟩, ?_⟩
    by_contra hshort
    -- the block ends inside the space, so its neighbour would be in use there
    cases ys with
    | nil =>
      obtain ⟨m, -, rfl, hend⟩ := tiles_append.1 h
      have hend : b.addr + hdr + b.len = e := hend
      omega
    | cons c ys =>
      have haddr := h.next_addr
      obtain ⟨-, hys, -⟩ := List.isChain_append.1 hapart
      have hc : c.free = false := by simpa [hb] using (List.isChain_cons_cons.1 hys).1
      have := hx c (mem_used.2 ⟨by simp, hc⟩)
      omega

end EasyCore.Rows
