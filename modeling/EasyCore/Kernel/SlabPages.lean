import EasyCore.Kernel.Slab
import EasyCore.Lib.Spaced
import EasyCore.Lib.Runs

/-! The page allocator of the slab allocator by itself (`rt_page_alloc`, `rt_page_free` in `src/slab.c`).
    The list of the free pages has one run for each stretch of them; pages that come back are joined
    to the run before them, to the run behind them, to both or to none:

        ├ free ┤ back ├ free ┤     ├ free ┤ back │ used     used │ back ├ free ┤     used │ back │ used -/

namespace EasyCore.Slab
open Function Kernel Ranges Runs

/-- `rt_page_init` -/
def rtPageInit (s : SlabHeap) (addr npages : ℕ) : SlabHeap :=
  rtPageFree { s with pageList := [] } addr npages

/-! ### One call -/

variable {l : List (ℕ × ℕ)} {lo n k b i : ℕ}

/-- A run is cut or taken, and no other changes; or none is long enough. -/
theorem pageAlloc_spec (hk : 0 < k) : ∀ {lo : ℕ} {l : List (ℕ × ℕ)}, Spaced lo l →
    Spaced lo (pageAlloc k l).2
      ∧ ((∃ b, (pageAlloc k l).1 = some b
          ∧ ∀ i, (Covers l i ↔ (b ≤ i ∧ i < b + k) ∨ Covers (pageAlloc k l).2 i)
            ∧ ¬ ((b ≤ i ∧ i < b + k) ∧ Covers (pageAlloc k l).2 i))
        ∨ (pageAlloc k l = (none, l) ∧ ∀ r ∈ l, r.2 < k))
  | _, [], _ => ⟨trivial, Or.inr ⟨rfl, fun r hr => absurd hr List.not_mem_nil⟩⟩
  | lo, (b, page) :: rest, ⟨hlo, hpos, hrest⟩ => by
    have hbehind : ∀ i, Covers rest i → b + page < i := fun i hi => hrest.le_of_covers hi
    unfold pageAlloc
    by_cases hcut : k < page
    · rw [if_pos hcut]
      dsimp only at hlo hpos hrest
      refine ⟨⟨by dsimp only; omega, by dsimp only; omega, ?_⟩, Or.inl ⟨b, rfl, fun i => ⟨?_, ?_⟩⟩⟩
      · exact hrest.mono (by dsimp only; omega)
      · simp only [covers_cons, ← or_assoc]
        refine or_congr_left ?_
        omega
      · rw [covers_cons]
        rintro ⟨hin, hout | hout⟩
        · dsimp only at hout
          omega
        · have := hbehind i hout
          omega
    · rw [if_neg hcut]
      by_cases hfit : page = k
      · rw [if_pos hfit]
        refine ⟨hrest.mono (by dsimp only; omega), Or.inl ⟨b, rfl, fun i => ⟨?_, ?_⟩⟩⟩
        · rw [covers_cons, hfit]
        · rintro ⟨hin, hout⟩
          have := hbehind i hout
          omega
      · rw [if_neg hfit]
        obtain ⟨hspaced, ⟨c, hc, hcovers⟩ | ⟨hnone, hall⟩⟩ := pageAlloc_spec hk hrest
        · refine ⟨⟨hlo, hpos, hspaced⟩, Or.inl ⟨c, hc, fun i => ⟨?_, ?_⟩⟩⟩
          · rw [covers_cons, covers_cons, (hcovers i).1, or_left_comm]
          · rw [covers_cons]
            rintro ⟨hin, hout | hout⟩
            · have := hbehind i ((hcovers i).1.2 (Or.inl hin))
              dsimp only at hout
              omega
            · exact (hcovers i).2 ⟨hin, hout⟩
        · rw [hnone]
          refine ⟨⟨hlo, hpos, hrest⟩, Or.inr ⟨rfl, fun r hr => ?_⟩⟩
          obtain rfl | hr := List.mem_cons.1 hr
          · dsimp only
            omega
          · exact hall r hr

/-- A run that has grown is joined to the next one if they touch. -/
theorem joinRun_spec (hlo : lo ≤ b) (hk : 0 < k) (h : Spaced (b + k) l) :
    Spaced lo (joinRun b k l) ∧ ∀ i, Covers (joinRun b k l) i ↔ (b ≤ i ∧ i < b + k) ∨ Covers l i := by
  cases l with
  | nil => exact ⟨⟨hlo, hk, trivial⟩, fun i => covers_cons⟩
  | cons r rest =>
    obtain ⟨c, m⟩ := r
    obtain ⟨hc, hm, hrest⟩ := h
    dsimp only at hc hm hrest
    rw [joinRun]
    by_cases htouch : b + k = c
    · rw [if_pos htouch]
      refine ⟨⟨hlo, by dsimp only; omega, hrest.mono (by dsimp only; omega)⟩, fun i => ?_⟩
      simp only [covers_cons, ← or_assoc]
      refine or_congr_left ?_
      omega
    · rw [if_neg htouch]
      exact ⟨⟨hlo, hk, by dsimp only; omega, hm, hrest⟩, fun i => covers_cons⟩

/-- Pages that come back are where they belong, and no run touches another. -/
theorem pageFree_spec (hk : 0 < k) : ∀ {lo : ℕ} {l : List (ℕ × ℕ)}, Spaced lo l → lo ≤ n →
    (∀ i, n ≤ i → i < n + k → ¬ Covers l i) →
    Spaced lo (pageFree n k l) ∧ ∀ i, Covers (pageFree n k l) i ↔ (n ≤ i ∧ i < n + k) ∨ Covers l i
  | _, [], _, hlo, _ => ⟨⟨hlo, hk, trivial⟩, fun i => covers_cons⟩
  | lo, (b, page) :: rest, ⟨hb, hpos, hrest⟩, hlo, hnew => by
    dsimp only at hb hpos hrest
    have hfirst : ∀ i, n ≤ i → i < n + k → ¬ (b ≤ i ∧ i < b + page) := fun i hi hi' hin =>
      hnew i hi hi' (covers_cons.2 (Or.inl hin))
    have hbehind : ∀ i, n ≤ i → i < n + k → ¬ Covers rest i := fun i hi hi' hin =>
      hnew i hi hi' (covers_cons.2 (Or.inr hin))
    unfold pageFree
    by_cases hleft : b + page = n
    · rw [if_pos hleft]
      have hspaced : Spaced (b + (page + k)) rest := by
        cases rest with
        | nil => trivial
        | cons r rest =>
          refine ⟨?_, hrest.2⟩
          by_contra hlt
          have hge := hrest.1
          exact hbehind r.1 (by omega) (by omega)
            (covers_cons.2 (Or.inl ⟨le_rfl, Nat.lt_add_of_pos_right hrest.2.1⟩))
      obtain ⟨hjoin, hcovers⟩ := joinRun_spec hb (by omega) hspaced
      refine ⟨hjoin, fun i => ?_⟩
      rw [hcovers, covers_cons, ← or_assoc]
      refine or_congr_left ?_
      dsimp only
      omega
    · rw [if_neg hleft]
      by_cases hright : b = n + k
      · rw [if_pos hright]
        refine ⟨⟨hlo, by dsimp only; omega, hrest.mono (by dsimp only; omega)⟩, fun i => ?_⟩
        rw [covers_cons, covers_cons, ← or_assoc]
        refine or_congr_left ?_
        dsimp only
        omega
      · rw [if_neg hright]
        by_cases hbefore : n + k < b
        · rw [if_pos hbefore]
          exact ⟨⟨hlo, hk, hbefore, hpos, hrest⟩, fun i => covers_cons⟩
        · rw [if_neg hbefore]
          -- the pages do not overlap the run, so they are behind it
          have hafter : b + page < n := by
            have h₁ := hfirst b
            have h₂ := hfirst n
            omega
          obtain ⟨hspaced, hcovers⟩ := pageFree_spec hk hrest hafter hbehind
          refine ⟨⟨hb, hpos, hspaced⟩, fun i => ?_⟩
          rw [covers_cons, covers_cons, hcovers, or_left_comm]

/-! ### Runs -/

/-- The allocator, and the numbers of the pages that the client has. -/
structure PageClient where
  heap : SlabHeap
  pages : Finset ℕ

inductive PageCall
  | alloc (npages : ℕ)
  | free (addr npages : ℕ)

/-- The numbers of the `npages` pages from an address on. -/
def pagesAt (npages addr : ℕ) : Finset ℕ :=
  Finset.Ico (addr / rtMmPageSize) (addr / rtMmPageSize + npages)

/-- Only pages that the client has come back, as many at a time as it likes. -/
def PageCall.Legal (pages : Finset ℕ) : PageCall → Prop
  | .alloc _ => True
  | .free addr npages => addr % rtMmPageSize = 0 ∧ npages ≠ 0 ∧ pagesAt npages addr ⊆ pages

instance (pages : Finset ℕ) : DecidablePred (PageCall.Legal pages)
  | .alloc _ => inferInstanceAs (Decidable True)
  | .free _ _ => inferInstanceAs (Decidable (_ ∧ _ ∧ _))

def PageClient.call (s : PageClient) (c : PageCall) : Option PageClient :=
  if c.Legal s.pages then
    some <| match c with
    | .alloc npages =>
      ⟨(rtPageAlloc s.heap npages).1,
        s.pages ∪ (rtPageAlloc s.heap npages).2.elim ∅ (pagesAt npages)⟩
    | .free addr npages => ⟨rtPageFree s.heap addr npages, s.pages \ pagesAt npages addr⟩
  else none

/-- `npages` pages from `addr` on are given to the allocator. -/
def pageSystem (addr npages : ℕ) : System PageClient PageCall where
  init s := ∃ junk, s = ⟨rtPageInit junk addr npages, ∅⟩
  step s c s' := s.call c = some s'

/-- The runs are in address order, apart and not empty, and none touches the next; each page that was
    given is free or the client has it, and not both; and `rt_page_alloc` fails only if no run is long
    enough. -/
structure PagesOk (addr npages : ℕ) (s : PageClient) : Prop where
  order : s.heap.pageList.Pairwise fun r q => r.1 + r.2 < q.1
  nonempty : ∀ r ∈ s.heap.pageList, 0 < r.2
  given : ∀ i, Covers s.heap.pageList i ∨ i ∈ s.pages ↔ i ∈ pagesAt npages addr
  once : ∀ i, Covers s.heap.pageList i → i ∉ s.pages
  fails : ∀ k, 0 < k → (rtPageAlloc s.heap k).2 = none → ∀ r ∈ s.heap.pageList, r.2 < k

/-- What is kept by each call. -/
structure PageInv (addr npages : ℕ) (s : PageClient) : Prop where
  spaced : Spaced 0 s.heap.pageList
  given : ∀ i, Covers s.heap.pageList i ∨ i ∈ s.pages ↔ i ∈ pagesAt npages addr
  once : ∀ i, Covers s.heap.pageList i → i ∉ s.pages

variable {s s' : PageClient} {addr npages : ℕ} {c : PageCall}

theorem mem_pagesAt : i ∈ pagesAt k n ↔ n / rtMmPageSize ≤ i ∧ i < n / rtMmPageSize + k :=
  Finset.mem_Ico

theorem mul_div_pageSize (b : ℕ) : b * rtMmPageSize / rtMmPageSize = b :=
  Nat.mul_div_cancel b (by decide)

theorem rtPageAlloc_eq (h : SlabHeap) (hk : k ≠ 0) :
    (rtPageAlloc h k).1.pageList = (pageAlloc k h.pageList).2
      ∧ (rtPageAlloc h k).2 = (pageAlloc k h.pageList).1.map (· * rtMmPageSize) := by
  rw [rtPageAlloc, if_neg hk]
  exact ⟨rfl, rfl⟩

theorem PageInv.init (junk : SlabHeap) (hn : npages ≠ 0) :
    PageInv addr npages ⟨rtPageInit junk addr npages, ∅⟩ := by
  have hlist : (rtPageInit junk addr npages).pageList = [(addr / rtMmPageSize, npages)] := rfl
  refine ⟨?_, fun i => ?_, fun i _ => Finset.notMem_empty i⟩
  · rw [hlist]
    exact ⟨Nat.zero_le _, Nat.pos_of_ne_zero hn, trivial⟩
  · rw [hlist, covers_cons, mem_pagesAt]
    simp

theorem PageInv.alloc (v : PageInv addr npages s) (k : ℕ) : PageInv addr npages
    ⟨(rtPageAlloc s.heap k).1, s.pages ∪ (rtPageAlloc s.heap k).2.elim ∅ (pagesAt k)⟩ := by
  obtain rfl | hk := Nat.eq_zero_or_pos k
  · have hnone : rtPageAlloc s.heap 0 = (s.heap, none) := if_pos rfl
    rw [hnone, Option.elim_none, Finset.union_empty]
    exact v
  · obtain ⟨hlist, hret⟩ := rtPageAlloc_eq s.heap hk.ne'
    obtain ⟨hspaced, ⟨b, hb, hcovers⟩ | ⟨hnone, -⟩⟩ := pageAlloc_spec hk v.spaced
    · rw [hb, Option.map_some] at hret
      have hin : ∀ i, i ∈ pagesAt k (b * rtMmPageSize) ↔ b ≤ i ∧ i < b + k := fun i => by
        rw [mem_pagesAt, mul_div_pageSize]
      rw [hret, Option.elim_some]
      refine ⟨hlist ▸ hspaced, fun i => ?_, fun i hi hmem => ?_⟩
      · dsimp only
        rw [hlist, Finset.mem_union, hin, ← v.given, (hcovers i).1]
        tauto
      · dsimp only at hi
        rw [hlist] at hi
        obtain hmem | hmem := Finset.mem_union.1 hmem
        · exact v.once i ((hcovers i).1.2 (Or.inr hi)) hmem
        · exact (hcovers i).2 ⟨(hin i).1 hmem, hi⟩
    · rw [hnone] at hlist hret
      rw [hret, Option.map_none, Option.elim_none, Finset.union_empty]
      exact ⟨hlist ▸ v.spaced, hlist ▸ v.given, hlist ▸ v.once⟩

theorem PageInv.free (v : PageInv addr npages s) {a : ℕ} (hk : k ≠ 0) (hsub : pagesAt k a ⊆ s.pages) :
    PageInv addr npages ⟨rtPageFree s.heap a k, s.pages \ pagesAt k a⟩ := by
  have hlist : (rtPageFree s.heap a k).pageList = pageFree (a / rtMmPageSize) k s.heap.pageList := rfl
  have hnew : ∀ i, a / rtMmPageSize ≤ i → i < a / rtMmPageSize + k → ¬ Covers s.heap.pageList i :=
    fun i hi hi' hin => v.once i hin (hsub (mem_pagesAt.2 ⟨hi, hi'⟩))
  obtain ⟨hspaced, hcovers⟩ := pageFree_spec (Nat.pos_of_ne_zero hk) v.spaced (Nat.zero_le _) hnew
  refine ⟨hlist ▸ hspaced, fun i => ?_, fun i hi hmem => ?_⟩
  · dsimp only
    rw [hlist, hcovers, Finset.mem_sdiff, ← v.given, ← mem_pagesAt]
    constructor
    · rintro ((hin | hin) | ⟨hin, -⟩)
      · exact Or.inr (hsub hin)
      · exact Or.inl hin
      · exact Or.inr hin
    · rintro (hin | hin)
      · exact Or.inl (Or.inr hin)
      · by_cases hback : i ∈ pagesAt k a
        · exact Or.inl (Or.inl hback)
        · exact Or.inr ⟨hin, hback⟩
  · dsimp only at hi
    rw [hlist, hcovers, ← mem_pagesAt] at hi
    obtain ⟨hmem, hback⟩ := Finset.mem_sdiff.1 hmem
    exact hi.elim hback fun hin => v.once i hin hmem

theorem PageInv.step (v : PageInv addr npages s) (h : s.call c = some s') :
    PageInv addr npages s' := by
  obtain ⟨hlegal, h⟩ := Option.ite_none_right_eq_some.1 h
  obtain rfl := Option.some.inj h
  cases c with
  | alloc k => exact v.alloc k
  | free a k => exact v.free hlegal.2.1 hlegal.2.2

theorem PageInv.ok (v : PageInv addr npages s) : PagesOk addr npages s where
  order := v.spaced.pairwise
  nonempty := v.spaced.pos
  given := v.given
  once := v.once
  fails k hk hnone := by
    obtain ⟨-, ⟨b, hb, -⟩ | ⟨-, hall⟩⟩ := pageAlloc_spec hk v.spaced
    · rw [(rtPageAlloc_eq s.heap hk.ne').2, hb] at hnone
      cases hnone
    · exact hall

/-- CORRECT: in every run. -/
theorem pagesOk_of_run (hn : npages ≠ 0) (h : Reachable (pageSystem addr npages) s) :
    PagesOk addr npages s := by
  refine PageInv.ok (h.invariant ?_ fun s c s' v _ hst => v.step hst)
  rintro s ⟨junk, rfl⟩
  exact PageInv.init junk hn

/-- A run of pages is cut, and its pieces come back in another order. -/
theorem pagesOk_of_run_pieces : ∃ s, replay PageClient.call
      ⟨rtPageInit (rtSystemHeapInit 0 fun _ => ⟨.free, 0⟩) 8192 9, ∅⟩
      [.alloc 2, .alloc 3, .alloc 4, .alloc 1, .free 8192 1, .free 24576 2, .free 12288 3] = some s
    ∧ PagesOk 8192 9 s ∧ s.heap.pageList = [(2, 6)] := by
  have hrun : (replay PageClient.call
      ⟨rtPageInit (rtSystemHeapInit 0 fun _ => ⟨.free, 0⟩) 8192 9, ∅⟩
      [.alloc 2, .alloc 3, .alloc 4, .alloc 1, .free 8192 1, .free 24576 2, .free 12288 3]).map
      (fun s => s.heap.pageList) = some [(2, 6)] := by decide +kernel
  obtain ⟨s, hs, hlist⟩ := Option.map_eq_some_iff.1 hrun
  exact ⟨s, hs, pagesOk_of_run (by decide) (Reach.of_replay (fun _ _ _ h => ⟨trivial, h⟩) _
    (Reach.init ⟨_, rfl⟩) hs), hlist⟩

end EasyCore.Slab
