import EasyCore.Lib.Queues

/-! The doubly linked lists of rtservice.h: two link words a node, and the five list functions
    with their stores in the order of the source. On queues threaded through headers and items
    (`EasyCore.Links.Queues`) each of them is the list operation it is named after. -/

namespace EasyCore.Kernel
open Function EasyCore.Links

/-- The `next` and `prev` words of every list node. -/
structure RtList (ν : Type*) where
  next : ν → ν
  prev : ν → ν

section Functions
variable {ν : Type*} [DecidableEq ν]

def RtList.setNext (l : RtList ν) (n x : ν) : RtList ν := { l with next := update l.next n x }
def RtList.setPrev (l : RtList ν) (n x : ν) : RtList ν := { l with prev := update l.prev n x }

@[simp] theorem RtList.setNext_next (l : RtList ν) (n x : ν) :
    (l.setNext n x).next = update l.next n x := rfl
@[simp] theorem RtList.setNext_prev (l : RtList ν) (n x : ν) : (l.setNext n x).prev = l.prev := rfl
@[simp] theorem RtList.setPrev_next (l : RtList ν) (n x : ν) : (l.setPrev n x).next = l.next := rfl
@[simp] theorem RtList.setPrev_prev (l : RtList ν) (n x : ν) :
    (l.setPrev n x).prev = update l.prev n x := rfl

/-- `rt_list_init`: `l->next = l->prev = l`. -/
def rtListInit (m : RtList ν) (l : ν) : RtList ν := (m.setPrev l l).setNext l l

/-- `rt_list_insert_after`: insert the node `n` after `l`. -/
def rtListInsertAfter (m : RtList ν) (l n : ν) : RtList ν :=
  let m := m.setPrev (m.next l) n
  let m := m.setNext n (m.next l)
  let m := m.setNext l n
  m.setPrev n l

/-- `rt_list_insert_before`: insert the node `n` before `l`. -/
def rtListInsertBefore (m : RtList ν) (l n : ν) : RtList ν :=
  let m := m.setNext (m.prev l) n
  let m := m.setPrev n (m.prev l)
  let m := m.setPrev l n
  m.setNext n l

/-- `rt_list_remove`: take `n` out and let it point at itself. -/
def rtListRemove (m : RtList ν) (n : ν) : RtList ν :=
  let m := m.setPrev (m.next n) (m.prev n)
  let m := m.setNext (m.prev n) (m.next n)
  (m.setPrev n n).setNext n n

/-- `rt_list_isempty`. -/
def rtListIsempty (m : RtList ν) (l : ν) : Bool := m.next l = l

@[simp] theorem rtListInit_next (m : RtList ν) (l : ν) :
    (rtListInit m l).next = update m.next l l := rfl

@[simp] theorem rtListInit_prev (m : RtList ν) (l : ν) :
    (rtListInit m l).prev = update m.prev l l := rfl

theorem rtListInsertBefore_next (m : RtList ν) (l n : ν) :
    (rtListInsertBefore m l n).next = update (update m.next (m.prev l) n) n l := rfl

theorem rtListInsertBefore_prev (m : RtList ν) (l n : ν) :
    (rtListInsertBefore m l n).prev = update (update m.prev n (m.prev l)) l n := rfl

theorem rtListInsertAfter_next (m : RtList ν) (l n : ν) :
    (rtListInsertAfter m l n).next = update (update m.next n (m.next l)) l n := rfl

theorem rtListInsertAfter_prev (m : RtList ν) (l n : ν) :
    (rtListInsertAfter m l n).prev = update (update m.prev (m.next l) n) n l := rfl

/-- The predecessor is read back after the first store of `rt_list_remove`, unchanged by it. -/
theorem rtListRemove_prev_n (m : RtList ν) (n : ν) :
    (m.setPrev (m.next n) (m.prev n)).prev n = m.prev n := by
  by_cases h : n = m.next n
  · simp [← h]
  · simp [update_of_ne h]

theorem rtListRemove_next (m : RtList ν) (n : ν) :
    (rtListRemove m n).next = update (update m.next (m.prev n) (m.next n)) n n := by
  simp only [rtListRemove, rtListRemove_prev_n, RtList.setNext_next, RtList.setPrev_next]

theorem rtListRemove_prev (m : RtList ν) (n : ν) :
    (rtListRemove m n).prev = update (update m.prev (m.next n) (m.prev n)) n n := by
  simp only [rtListRemove, RtList.setNext_prev, RtList.setPrev_prev]

end Functions

/-! ### The list functions on queues -/

section Specs
variable {η τ : Type*} [DecidableEq η] [DecidableEq τ] {m : RtList (Node η τ)} {V : η → Prop}
  {K : τ → Prop} {L : η → List τ} {h : η} {t u : τ} {a b : List τ}

/-- `m` holds the queues `L`. -/
abbrev Linked (m : RtList (Node η τ)) (V : η → Prop) (K : τ → Prop) (L : η → List τ) : Prop :=
  Queues m.next m.prev V K L

theorem rtListIsempty_iff (q : Linked m V K L) (hV : V h) :
    rtListIsempty m (.head h) = true ↔ L h = [] := by
  rw [rtListIsempty, decide_eq_true_iff, q.head_next hV]
  cases L h <;> simp

/-- `rt_list_insert_before` puts the item in front of the node it names. -/
theorem linked_insertBefore (q : Linked m V K L) (hV : V h) (hL : L h = a ++ b) (hK : K t)
    (ht : ∀ h, V h → t ∉ L h) :
    Linked (rtListInsertBefore m (after h b) (.item t)) V K (update L h (a ++ t :: b)) := by
  have hni := ht h hV
  rw [hL, List.mem_append, not_or] at hni
  have hbt := before_ne_item h hni.1
  have hat := after_ne_item h hni.2
  have hp := (q.link hV hL).2
  refine q.put hV hL hK ht ?_ ?_ (fun z hz hzt => ?_) ?_ ?_ fun z hz hzt => ?_
  · rw [rtListInsertBefore_next, hp, update_of_ne hbt, update_self]
  · rw [rtListInsertBefore_next, update_self]
  · rw [rtListInsertBefore_next, hp, update_of_ne hzt, update_of_ne hz]
  · rw [rtListInsertBefore_prev, update_self]
  · rw [rtListInsertBefore_prev, hp, update_of_ne hat.symm, update_self]
  · rw [rtListInsertBefore_prev, hp, update_of_ne hz, update_of_ne hzt]

/-- Before the header: at the end of the queue. -/
theorem linked_insertBefore_head (q : Linked m V K L) (hV : V h) (hK : K t)
    (ht : ∀ h, V h → t ∉ L h) :
    Linked (rtListInsertBefore m (.head h) (.item t)) V K (enqueue L h t) :=
  linked_insertBefore (b := []) q hV (List.append_nil _).symm hK ht

/-- `rt_list_insert_after` puts the item behind the node it names. -/
theorem linked_insertAfter (q : Linked m V K L) (hV : V h) (hL : L h = a ++ b) (hK : K t)
    (ht : ∀ h, V h → t ∉ L h) :
    Linked (rtListInsertAfter m (before h a) (.item t)) V K (update L h (a ++ t :: b)) := by
  have hni := ht h hV
  rw [hL, List.mem_append, not_or] at hni
  have hbt := before_ne_item h hni.1
  have hat := after_ne_item h hni.2
  have hn := (q.link hV hL).1
  refine q.put hV hL hK ht ?_ ?_ (fun z hz hzt => ?_) ?_ ?_ fun z hz hzt => ?_
  · rw [rtListInsertAfter_next, update_self]
  · rw [rtListInsertAfter_next, hn, update_of_ne hbt.symm, update_self]
  · rw [rtListInsertAfter_next, hn, update_of_ne hz, update_of_ne hzt]
  · rw [rtListInsertAfter_prev, hn, update_of_ne hat, update_self]
  · rw [rtListInsertAfter_prev, update_self]
  · rw [rtListInsertAfter_prev, hn, update_of_ne hzt, update_of_ne hz]

/-- After the header: at the front of the queue. -/
theorem linked_insertAfter_head (q : Linked m V K L) (hV : V h) (hK : K t)
    (ht : ∀ h, V h → t ∉ L h) :
    Linked (rtListInsertAfter m (.head h) (.item t)) V K (push L h t) :=
  linked_insertAfter (a := []) q hV rfl hK ht

/-- `rt_list_remove` takes the item off the queue it is on, if it is on one. -/
theorem linked_remove (q : Linked m V K L) (hK : K t) :
    Linked (rtListRemove m (.item t)) V K (without L t) := by
  by_cases hon : ∃ h, V h ∧ t ∈ L h
  · obtain ⟨h, hV, ht⟩ := hon
    obtain ⟨a, b, hL⟩ := List.append_of_mem ht
    have hnd := q.nodup hV
    rw [hL, List.nodup_middle, List.nodup_cons, List.mem_append, not_or] at hnd
    have hbt := before_ne_item h hnd.1.1
    have hat := after_ne_item h hnd.1.2
    have hn := q.item_next hV hL
    have hp := q.item_prev hV hL
    have hq : Linked (rtListRemove m (.item t)) V K (update L h (a ++ b)) := by
      refine q.skip hV hL ?_ ?_ (fun z hz hzt => ?_) ?_ ?_ fun z hz hzt => ?_
      · rw [rtListRemove_next, hn, hp, update_of_ne hbt, update_self]
      · rw [rtListRemove_next, update_self]
      · rw [rtListRemove_next, hp, update_of_ne hzt, update_of_ne hz]
      · rw [rtListRemove_prev, hn, hp, update_of_ne hat, update_self]
      · rw [rtListRemove_prev, update_self]
      · rw [rtListRemove_prev, hn, update_of_ne hzt, update_of_ne hz]
    refine hq.congr fun k hk => ?_
    by_cases hkh : k = h
    · rw [hkh, update_self, without, hL, List.erase_append_right _ hnd.1.1, List.erase_cons_head]
    · rw [update_of_ne hkh, without_eq fun hm => hkh (q.uniq hk hV hm ht)]
  · have hno : ∀ h, V h → t ∉ L h := fun h hV ht => hon ⟨h, hV, ht⟩
    obtain ⟨hn, hp⟩ := q.alone hK hno
    have hnext : (rtListRemove m (.item t)).next = m.next := by
      rw [rtListRemove_next, hp, hn, update_idem]
      exact update_eq_self_iff.2 hn.symm
    have hprev : (rtListRemove m (.item t)).prev = m.prev := by
      rw [rtListRemove_prev, hp, hn, update_idem]
      exact update_eq_self_iff.2 hp.symm
    unfold Linked
    rw [hnext, hprev]
    exact Queues.congr q fun k hk => without_eq (hno k hk)

/-- `rt_list_init` sets up an item that is on no queue. -/
theorem linked_init {K' : τ → Prop} (q : Linked m V K L) (ht : ∀ h, V h → t ∉ L h)
    (hK : ∀ u, K u → K' u) (hK' : ∀ u, K' u → u = t ∨ K u) :
    Linked (rtListInit m (.item t)) V K' L := by
  refine q.learn ht hK hK' ?_ (fun z hz => ?_) ?_ fun z hz => ?_
  · simp
  · simp [update_of_ne hz]
  · simp
  · simp [update_of_ne hz]

end Specs

end EasyCore.Kernel
