import Mathlib

/-! Lists threaded through link functions: a list is *forward linked* by `nx` when every element
    is sent by `nx` to the element after it, and *backward linked* by `pv` when every element is
    sent by `pv` to the element before it. A ring with header `h` is the list `h :: l ++ [h]`
    linked both ways (`Ring`). The edits of a linked list (skip an element, put one in) are stated
    on the new link functions by what they change and what they leave alone, so that an
    implementation may do its stores in any order. -/

namespace EasyCore.Links
open Function

variable {α : Type*}

/-- `nx` sends every element of `l` but the last to its successor. -/
def Fwd (nx : α → α) (l : List α) : Prop := l.IsChain fun x y => nx x = y

/-- `pv` sends every element of `l` but the first to its predecessor. -/
def Bwd (pv : α → α) (l : List α) : Prop := l.IsChain fun x y => pv y = x

/-! ### Frame -/

/-- Forward links read only the elements before the last. -/
theorem Fwd.congr {nx nx' : α → α} : ∀ {l : List α}, Fwd nx l →
    (∀ x ∈ l.dropLast, nx' x = nx x) → Fwd nx' l
  | [], _, _ => .nil
  | [_], _, _ => .singleton _
  | x :: y :: l, h, hag => by
    obtain ⟨hxy, hl⟩ := List.isChain_cons_cons.1 h
    refine List.isChain_cons_cons.2 ⟨(hag x (by simp)).trans hxy, Fwd.congr (l := y :: l) hl ?_⟩
    exact fun z hz => hag z (by simp only [List.dropLast_cons_cons]; exact List.mem_cons_of_mem _ hz)

/-- Backward links read only the elements after the first. -/
theorem Bwd.congr {pv pv' : α → α} : ∀ {l : List α}, Bwd pv l →
    (∀ y ∈ l.tail, pv' y = pv y) → Bwd pv' l
  | [], _, _ => .nil
  | [_], _, _ => .singleton _
  | x :: y :: l, h, hag => by
    obtain ⟨hxy, hl⟩ := List.isChain_cons_cons.1 h
    refine List.isChain_cons_cons.2 ⟨(hag y (by simp)).trans hxy, Bwd.congr (l := y :: l) hl ?_⟩
    exact fun z hz => hag z (List.mem_cons_of_mem _ hz)

/-- The successor of an element inside a forward linked list. -/
theorem Fwd.next_eq {nx : α → α} {a b : List α} {x y : α} (h : Fwd nx (a ++ x :: y :: b)) :
    nx x = y := (List.isChain_append_cons_cons.1 h).2.1

/-- The predecessor of an element inside a backward linked list. -/
theorem Bwd.prev_eq {pv : α → α} {a b : List α} {x y : α} (h : Bwd pv (a ++ x :: y :: b)) :
    pv y = x := (List.isChain_append_cons_cons.1 h).2.1

/-- Every element of a forward linked list is met from its head. -/
theorem Fwd.iterate {nx : α → α} {z : α} : ∀ {l : List α} {x : α}, Fwd nx (x :: l) → z ∈ x :: l →
    ∃ k, nx^[k] x = z
  | [], _, _, hz => ⟨0, (List.mem_singleton.1 hz).symm⟩
  | y :: l, x, h, hz => by
    obtain ⟨hxy, hl⟩ := List.isChain_cons_cons.1 h
    rcases List.mem_cons.1 hz with rfl | hz
    · exact ⟨0, rfl⟩
    · obtain ⟨k, hk⟩ := Fwd.iterate (l := l) hl hz
      exact ⟨k + 1, by rw [Function.iterate_succ_apply, hxy, hk]⟩

/-! ### Edits -/

/-- Leave `n` out: its predecessor now points at its successor. -/
theorem Fwd.skip {nx nx' : α → α} {a b : List α} {p n s : α} (h : Fwd nx (a ++ p :: n :: s :: b))
    (hp : nx' p = s) (ho : ∀ x ∈ a ++ (s :: b).dropLast, nx' x = nx x) :
    Fwd nx' (a ++ p :: s :: b) := by
  obtain ⟨ha, -, hn⟩ := List.isChain_append_cons_cons.1 h
  refine List.isChain_append_cons_cons.2 ⟨Fwd.congr ha ?_, hp, Fwd.congr hn.tail ?_⟩
  · exact fun x hx => ho x (List.mem_append_left _ (by simpa using hx))
  · exact fun x hx => ho x (List.mem_append_right _ hx)

/-- Put `n` in between `p` and its successor `s`. -/
theorem Fwd.put {nx nx' : α → α} {a b : List α} {p n s : α} (h : Fwd nx (a ++ p :: s :: b))
    (hp : nx' p = n) (hn : nx' n = s) (ho : ∀ x ∈ a ++ (s :: b).dropLast, nx' x = nx x) :
    Fwd nx' (a ++ p :: n :: s :: b) := by
  obtain ⟨ha, -, hs⟩ := List.isChain_append_cons_cons.1 h
  refine List.isChain_append_cons_cons.2 ⟨Fwd.congr ha ?_, hp,
    List.isChain_cons_cons.2 ⟨hn, Fwd.congr hs ?_⟩⟩
  · exact fun x hx => ho x (List.mem_append_left _ (by simpa using hx))
  · exact fun x hx => ho x (List.mem_append_right _ hx)

/-- Leave `n` out: its successor now points back at its predecessor. -/
theorem Bwd.skip {pv pv' : α → α} {a b : List α} {p n s : α} (h : Bwd pv (a ++ p :: n :: s :: b))
    (hs : pv' s = p) (ho : ∀ x ∈ (a ++ [p]).tail ++ b, pv' x = pv x) :
    Bwd pv' (a ++ p :: s :: b) := by
  obtain ⟨ha, -, hn⟩ := List.isChain_append_cons_cons.1 h
  refine List.isChain_append_cons_cons.2 ⟨Bwd.congr ha ?_, hs, Bwd.congr hn.tail ?_⟩
  · exact fun x hx => ho x (List.mem_append_left _ hx)
  · exact fun x hx => ho x (List.mem_append_right _ hx)

/-- Leave the last element out of a backward linked list. -/
theorem Bwd.skip_last {pv pv' : α → α} {a : List α} {p n : α} (h : Bwd pv (a ++ [p, n]))
    (ho : ∀ x ∈ (a ++ [p]).tail, pv' x = pv x) : Bwd pv' (a ++ [p]) :=
  Bwd.congr (List.isChain_append_cons_cons.1 h).1 ho

/-- Put `n` in between `p` and its successor `s`. -/
theorem Bwd.put {pv pv' : α → α} {a b : List α} {p n s : α} (h : Bwd pv (a ++ p :: s :: b))
    (hn : pv' n = p) (hs : pv' s = n) (ho : ∀ x ∈ (a ++ [p]).tail ++ b, pv' x = pv x) :
    Bwd pv' (a ++ p :: n :: s :: b) := by
  obtain ⟨ha, -, hb⟩ := List.isChain_append_cons_cons.1 h
  refine List.isChain_append_cons_cons.2 ⟨Bwd.congr ha ?_, hn,
    List.isChain_cons_cons.2 ⟨hs, Bwd.congr hb ?_⟩⟩
  · exact fun x hx => ho x (List.mem_append_left _ hx)
  · exact fun x hx => ho x (List.mem_append_right _ hx)

/-- Put `n` behind the last element. -/
theorem Bwd.put_last {pv pv' : α → α} {a : List α} {p n : α} (h : Bwd pv (a ++ [p]))
    (hn : pv' n = p) (ho : ∀ x ∈ (a ++ [p]).tail, pv' x = pv x) : Bwd pv' (a ++ [p, n]) :=
  List.isChain_append_cons_cons.2 ⟨Bwd.congr h ho, hn, .singleton _⟩

/-! ### Rings -/

/-- The elements of `l`, the first of them `hd`, linked both ways in a ring. -/
structure Ring (nx pv : α → α) (hd : α) (l : List α) : Prop where
  head : l.head? = some hd
  fwd : Fwd nx (l ++ [hd])
  bwd : Bwd pv (l ++ [hd])
  nodup : l.Nodup

namespace Ring
variable {nx pv nx' pv' : α → α} {hd x p n s : α} {l a b d : List α}

theorem hd_mem (r : Ring nx pv hd l) : hd ∈ l := List.mem_of_head? r.head

/-- A ring reads only the links of its elements. -/
theorem congr (r : Ring nx pv hd l) (hn : ∀ z ∈ l, nx' z = nx z) (hp : ∀ z ∈ l, pv' z = pv z) :
    Ring nx' pv' hd l := by
  refine ⟨r.head, r.fwd.congr fun z hz => hn z (by simpa using hz), r.bwd.congr fun z hz => ?_,
    r.nodup⟩
  rcases List.mem_append.1 (List.mem_of_mem_tail hz) with hz | hz
  · exact hp z hz
  · rw [List.mem_singleton.1 hz]; exact hp _ r.hd_mem

/-- A ring of one element points at itself. -/
theorem singleton (hn : nx hd = hd) (hp : pv hd = hd) : Ring nx pv hd [hd] :=
  ⟨rfl, List.isChain_cons_cons.2 ⟨hn, .singleton _⟩, List.isChain_cons_cons.2 ⟨hp, .singleton _⟩,
    List.nodup_singleton _⟩

/-- The links at an element: what follows it, round the ring, and what precedes it. -/
theorem next_eq (r : Ring nx pv hd (a ++ x :: b)) (hs : b ++ [hd] = s :: d) : nx x = s := by
  have h := r.fwd
  rw [List.append_assoc, List.cons_append, hs] at h
  exact h.next_eq

theorem prev_eq (r : Ring nx pv hd (a ++ p :: x :: b)) : pv x = p := by
  have h := r.bwd
  rw [List.append_assoc, List.cons_append, List.cons_append] at h
  exact h.prev_eq

theorem prev_hd (r : Ring nx pv hd (a ++ [x])) : pv hd = x := by
  have h := r.bwd
  rw [List.append_assoc, List.singleton_append] at h
  exact h.prev_eq

/-- The element after `x`, round the ring, is again one of the ring. -/
theorem exists_next (b : List α) (hd : α) : ∃ s d, b ++ [hd] = s :: d := by
  cases b with
  | nil => exact ⟨hd, [], rfl⟩
  | cons s b => exact ⟨s, b ++ [hd], rfl⟩

/-- The ring is what is met from its head. -/
theorem iterate_iff (r : Ring nx pv hd l) : (∃ k, nx^[k] hd = x) ↔ x ∈ l := by
  constructor
  · rintro ⟨k, rfl⟩
    induction k with
    | zero => exact r.hd_mem
    | succ k ih =>
      rw [Function.iterate_succ_apply']
      obtain ⟨a, b, hl⟩ := List.append_of_mem ih
      obtain ⟨s, d, hs⟩ := exists_next b hd
      rw [hl] at r
      rw [r.next_eq hs, hl]
      have hsm : s ∈ b ++ [hd] := by rw [hs]; exact List.mem_cons_self
      rcases List.mem_append.1 hsm with hsm | hsm
      · exact List.mem_append_right _ (List.mem_cons_of_mem _ hsm)
      · rw [List.mem_singleton.1 hsm]
        exact r.hd_mem
  · intro hx
    obtain ⟨t, rfl⟩ := List.head?_eq_some_iff.1 r.head
    exact Fwd.iterate r.fwd (List.mem_append_left _ hx)

/-- The elements but the first, round the ring, without the one after `x`. -/
theorem rest_ne (hhead : (a ++ x :: b).head? = some hd) (hnd : (a ++ x :: b).Nodup)
    (hs : b ++ [hd] = s :: d) : ∀ z ∈ (a ++ [x]).tail ++ d, z ∈ a ++ x :: b ∧ z ≠ s := by
  intro z hz
  obtain ⟨t, ht⟩ := List.head?_eq_some_iff.1 hhead
  cases b with
  | nil =>
    obtain ⟨rfl, rfl⟩ : hd = s ∧ d = [] := by simpa [eq_comm] using hs
    rw [List.append_nil] at hz
    refine ⟨List.mem_of_mem_tail hz, ?_⟩
    rw [ht] at hz hnd
    rintro rfl
    exact (List.nodup_cons.1 hnd).1 hz
  | cons y b =>
    obtain ⟨rfl, rfl⟩ : y = s ∧ b ++ [hd] = d := by simpa using hs
    rw [show a ++ x :: y :: b = (a ++ [x]) ++ y :: b by simp] at hnd ht ⊢
    rw [List.nodup_middle] at hnd
    have hy := (List.nodup_cons.1 hnd).1
    rcases List.mem_append.1 hz with hz | hz
    · have hz := List.mem_of_mem_tail hz
      refine ⟨List.mem_append_left _ hz, ?_⟩
      rintro rfl
      exact hy (List.mem_append_left _ hz)
    · rcases List.mem_append.1 hz with hz | hz
      · refine ⟨List.mem_append_right _ (List.mem_cons_of_mem _ hz), ?_⟩
        rintro rfl
        exact hy (List.mem_append_right _ hz)
      · rw [List.mem_singleton.1 hz]
        have hhd : hd ∈ a ++ [x] := by
          cases a with
          | nil => simp at ht; simp [ht.1]
          | cons w a => simp at ht; simp [ht.1]
        refine ⟨List.mem_append_left _ hhd, ?_⟩
        rintro rfl
        exact hy (List.mem_append_left _ hhd)

/-- Put `n` in behind `x`. -/
theorem put (r : Ring nx pv hd (a ++ x :: b)) (hs : b ++ [hd] = s :: d) (hn : n ∉ a ++ x :: b)
    (hx : nx' x = n) (hns : nx' n = s) (hno : ∀ z, z ≠ x → z ≠ n → nx' z = nx z)
    (hsn : pv' s = n) (hnx : pv' n = x) (hpo : ∀ z, z ≠ s → z ≠ n → pv' z = pv z) :
    Ring nx' pv' hd (a ++ x :: n :: b) := by
  have hnd := r.nodup
  have hmem : ∀ z ∈ a ++ x :: b, z ≠ n := fun z hz e => hn (e ▸ hz)
  have hfull : a ++ x :: b ++ [hd] = a ++ x :: s :: d := by
    rw [List.append_assoc, List.cons_append, hs]
  have hfull' : a ++ x :: n :: b ++ [hd] = a ++ x :: n :: s :: d := by
    rw [List.append_assoc, List.cons_append, List.cons_append, hs]
  have hdrop : (s :: d).dropLast = b := by rw [← hs, List.dropLast_concat]
  have hfwd := r.fwd
  have hbwd := r.bwd
  have hhead := r.head
  rw [hfull] at hfwd hbwd
  refine ⟨?_, ?_, ?_, ?_⟩
  · cases a with
    | nil => exact hhead
    | cons y a => exact hhead
  · rw [hfull']
    refine hfwd.put hx hns fun z hz => ?_
    rw [hdrop] at hz
    have hza : z ∈ a ++ x :: b := by simp only [List.mem_append, List.mem_cons] at hz ⊢; tauto
    refine hno z ?_ (hmem z hza)
    rintro rfl
    rw [List.nodup_middle] at hnd
    exact (List.nodup_cons.1 hnd).1 hz
  · rw [hfull']
    refine hbwd.put hnx hsn fun z hz => ?_
    have hperm := rest_ne hhead hnd hs z hz
    exact hpo z hperm.2 (hmem z hperm.1)
  · rw [show a ++ x :: n :: b = (a ++ [x]) ++ n :: b by simp, List.nodup_middle]
    refine List.nodup_cons.2 ⟨?_, ?_⟩
    · simpa using hn
    · simpa using hnd

/-- Leave `x` out. -/
theorem skip (r : Ring nx pv hd (a ++ p :: x :: b)) (hs : b ++ [hd] = s :: d)
    (hp : nx' p = s) (hno : ∀ z, z ≠ p → z ≠ x → nx' z = nx z)
    (hsp : pv' s = p) (hpo : ∀ z, z ≠ s → z ≠ x → pv' z = pv z) :
    Ring nx' pv' hd (a ++ p :: b) := by
  have hnd := r.nodup
  have hsplit : a ++ p :: x :: b = (a ++ [p]) ++ x :: b := by simp
  have hx : x ∉ a ++ p :: b := by
    rw [hsplit, List.nodup_middle] at hnd
    simpa using (List.nodup_cons.1 hnd).1
  have hnd' : (a ++ p :: b).Nodup := by
    rw [hsplit, List.nodup_middle] at hnd
    simpa using (List.nodup_cons.1 hnd).2
  have hmem : ∀ z ∈ a ++ p :: b, z ≠ x := fun z hz e => hx (e ▸ hz)
  have hfull : a ++ p :: x :: b ++ [hd] = a ++ p :: x :: s :: d := by
    rw [List.append_assoc, List.cons_append, List.cons_append, hs]
  have hfull' : a ++ p :: b ++ [hd] = a ++ p :: s :: d := by
    rw [List.append_assoc, List.cons_append, hs]
  have hhead' : (a ++ p :: b).head? = some hd := by
    have hhead := r.head
    cases a with
    | nil => exact hhead
    | cons y a => exact hhead
  have hdrop : (s :: d).dropLast = b := by rw [← hs, List.dropLast_concat]
  have hfwd := r.fwd
  have hbwd := r.bwd
  rw [hfull] at hfwd hbwd
  refine ⟨hhead', ?_, ?_, hnd'⟩
  · rw [hfull']
    refine hfwd.skip hp fun z hz => ?_
    rw [hdrop] at hz
    have hza : z ∈ a ++ p :: b := by simp only [List.mem_append, List.mem_cons] at hz ⊢; tauto
    refine hno z ?_ (hmem z hza)
    rintro rfl
    rw [List.nodup_middle] at hnd'
    exact (List.nodup_cons.1 hnd').1 hz
  · rw [hfull']
    refine hbwd.skip hsp fun z hz => ?_
    have hperm := rest_ne hhead' hnd' hs z hz
    exact hpo z hperm.2 (hmem z hperm.1)

end Ring

end EasyCore.Links
