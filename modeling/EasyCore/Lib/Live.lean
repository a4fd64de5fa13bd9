import Mathlib

/-! The blocks a client of an allocator holds. An allocator names its blocks by keys, some of them
    in use, and hands out addresses; `Holds addr inUse live` says that the client's list `live` is
    the list of the addresses of the blocks in use, each once. Taking, giving up and keeping a
    block each keep it. -/

namespace EasyCore.Live

variable {addr addr' : ℕ → ℕ} {inUse inUse' : ℕ → Prop} {live : List ℕ} {x p : ℕ}

/-- `live` lists the addresses of the blocks in use, each once. -/
structure Holds (addr : ℕ → ℕ) (inUse : ℕ → Prop) (live : List ℕ) : Prop where
  nodup : live.Nodup
  mem : ∀ p, p ∈ live ↔ ∃ o, inUse o ∧ p = addr o

namespace Holds

theorem nil (hu : ∀ z, ¬inUse z) : Holds addr inUse [] :=
  ⟨List.nodup_nil, fun p => by simp [hu]⟩

theorem mem_addr (w : Holds addr inUse live) (hinj : Function.Injective addr) :
    addr x ∈ live ↔ inUse x := by
  rw [w.mem]
  constructor
  · rintro ⟨o, ho, he⟩
    rwa [hinj he]
  · exact fun hx => ⟨x, hx, rfl⟩

/-- The same blocks at the same addresses. -/
theorem congr (w : Holds addr inUse live) (hu : ∀ z, inUse' z ↔ inUse z)
    (ha : ∀ z, addr' z = addr z) : Holds addr' inUse' live :=
  ⟨w.nodup, fun p => by simp only [w.mem, hu, ha]⟩

theorem perm {live' : List ℕ} (w : Holds addr inUse live) (hl : live'.Perm live) :
    Holds addr inUse live' :=
  ⟨hl.nodup_iff.2 w.nodup, fun p => by rw [hl.mem_iff]; exact w.mem p⟩

/-- A block just taken joins the list. -/
theorem take (w : Holds addr inUse live) (hinj : Function.Injective addr) (hx : ¬inUse x)
    (hu : ∀ z, inUse' z ↔ inUse z ∨ z = x) (ha : ∀ z, addr' z = addr z) :
    Holds addr' inUse' (addr x :: live) := by
  refine ⟨List.nodup_cons.2 ⟨fun hm => hx ((w.mem_addr hinj).1 hm), w.nodup⟩, fun p => ?_⟩
  simp only [List.mem_cons, w.mem, hu, ha]
  constructor
  · rintro (rfl | ⟨o, ho, rfl⟩)
    · exact ⟨x, Or.inr rfl, rfl⟩
    · exact ⟨o, Or.inl ho, rfl⟩
  · rintro ⟨o, ho | rfl, rfl⟩
    · exact Or.inr ⟨o, ho, rfl⟩
    · exact Or.inl rfl

/-- A block given back leaves the list. -/
theorem drop (w : Holds addr inUse live) (hinj : Function.Injective addr)
    (hu : ∀ z, inUse' z ↔ inUse z ∧ z ≠ x) (ha : ∀ z, addr' z = addr z) :
    Holds addr' inUse' (live.filter fun q => some q ≠ some (addr x)) := by
  refine ⟨w.nodup.filter _, fun p => ?_⟩
  simp only [List.mem_filter, w.mem, hu, ha, ne_eq, decide_not, Bool.not_eq_eq_eq_not,
    Bool.not_true, decide_eq_false_iff_not, Option.some.injEq]
  constructor
  · rintro ⟨⟨o, ho, rfl⟩, hne⟩
    exact ⟨o, ⟨ho, fun e => hne (by rw [e])⟩, rfl⟩
  · rintro ⟨o, ⟨ho, hne⟩, rfl⟩
    exact ⟨⟨o, ho, rfl⟩, fun e => hne (hinj e)⟩

/-- A block kept across a call is listed as before. -/
theorem keep_perm (w : Holds addr inUse live) (hp : p ∈ live) :
    (p :: live.filter fun q => some q ≠ some p).Perm live := by
  have := List.cons_perm_iff_perm_erase.2 ⟨hp, List.Perm.refl (live.erase p)⟩
  rw [w.nodup.erase_eq_filter] at this
  refine Eq.subst (motive := fun l => List.Perm (_ :: l) live) ?_ this
  exact List.filter_congr fun q _ => by simp [bne, BEq.beq]

/-- A block taken in place of another. -/
theorem cons_filter {q : ℕ} (hne : q ≠ p) :
    ((q :: live).filter fun r => some r ≠ some p) =
      q :: live.filter fun r => some r ≠ some p := by
  rw [List.filter_cons_of_pos]
  simpa using hne

end Holds

end EasyCore.Live
