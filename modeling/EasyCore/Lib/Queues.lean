import EasyCore.Lib.Links

/-! A family of queues threaded through shared nodes. Every header `h` carries the ring of the
    items queued on it, every item is on one queue at most, and an item on no queue points at
    itself (`Queues nx pv V K L`, with `V` the headers set up, `K` the items set up and `L` what
    is queued where). The two edits are `put` (between two neighbours of a queue) and `skip`. -/

namespace EasyCore.Links
open Function

/-- A node is the header of a queue or the link cell of an item. -/
inductive Node (η τ : Type*)
  | head (h : η)
  | item (t : τ)
  deriving DecidableEq

variable {η τ : Type*}

/-- The nodes of the queue `h`, its header first. -/
def nodes (L : η → List τ) (h : η) : List (Node η τ) := .head h :: (L h).map .item

/-- The last node of the header followed by the items `a`. -/
def before (h : η) (a : List τ) : Node η τ := a.getLast?.elim (.head h) .item

/-- The first node of the items `b`, round to the header. -/
def after (h : η) (b : List τ) : Node η τ := b.head?.elim (.head h) .item

@[simp] theorem before_nil (h : η) : (before h [] : Node η τ) = .head h := rfl
@[simp] theorem before_concat (h : η) (a : List τ) (t : τ) : before h (a ++ [t]) = .item t := by
  simp [before]
@[simp] theorem after_nil (h : η) : (after h [] : Node η τ) = .head h := rfl
@[simp] theorem after_cons (h : η) (b : List τ) (t : τ) : after h (t :: b) = .item t := rfl

@[simp] theorem mem_nodes_head {L : η → List τ} {h h' : η} : .head h' ∈ nodes L h ↔ h' = h := by
  simp [nodes]

@[simp] theorem mem_nodes_item {L : η → List τ} {h : η} {t : τ} :
    .item t ∈ nodes L h ↔ t ∈ L h := by
  simp [nodes]

/-- The header and the items `a`, split at their last node. -/
theorem split_before (h : η) (a : List τ) :
    ∃ c, (.head h :: a.map .item : List (Node η τ)) = c ++ [before h a] := by
  rcases List.eq_nil_or_concat a with rfl | ⟨c, t, rfl⟩
  · exact ⟨[], rfl⟩
  · exact ⟨.head h :: c.map .item, by simp⟩

/-- The items `b` and the header, split at their first node. -/
theorem split_after (h : η) (b : List τ) :
    ∃ d, (b.map .item ++ [.head h] : List (Node η τ)) = after h b :: d := by
  cases b with
  | nil => exact ⟨[], rfl⟩
  | cons t b => exact ⟨b.map .item ++ [.head h], rfl⟩

theorem before_mem (h : η) (a : List τ) : before h a ∈ (.head h :: a.map .item : List (Node η τ)) := by
  obtain ⟨c, hc⟩ := split_before h a
  rw [hc]
  simp

theorem after_mem (h : η) (b : List τ) : after h b ∈ (.head h :: b.map .item : List (Node η τ)) := by
  cases b <;> simp

theorem before_ne_item (h : η) {a : List τ} {t : τ} (ht : t ∉ a) : (before h a : Node η τ) ≠ .item t := by
  intro e
  have hm := before_mem h a
  rw [e] at hm
  simp [ht] at hm

theorem after_ne_item (h : η) {b : List τ} {t : τ} (ht : t ∉ b) : (after h b : Node η τ) ≠ .item t := by
  intro e
  have hm := after_mem h b
  rw [e] at hm
  simp [ht] at hm

/-- The queues `L` of the headers `V`, over the items `K`. -/
structure Queues (nx pv : Node η τ → Node η τ) (V : η → Prop) (K : τ → Prop) (L : η → List τ) :
    Prop where
  ring : ∀ h, V h → Ring nx pv (.head h) (nodes L h)
  uniq : ∀ {h h' t}, V h → V h' → t ∈ L h → t ∈ L h' → h = h'
  known : ∀ {h t}, V h → t ∈ L h → K t
  alone : ∀ {t}, K t → (∀ h, V h → t ∉ L h) → nx (.item t) = .item t ∧ pv (.item t) = .item t

namespace Queues
variable {nx pv nx' pv' : Node η τ → Node η τ} {V : η → Prop} {K : τ → Prop} {L : η → List τ}
  {h h' : η} {t u : τ} {a b : List τ}

theorem nodup (q : Queues nx pv V K L) (hV : V h) : (L h).Nodup :=
  (List.nodup_cons.1 (q.ring h hV).nodup).2.of_map _

/-- No node is on two queues. -/
theorem nodes_uniq (q : Queues nx pv V K L) (hV : V h) (hV' : V h') {z : Node η τ}
    (hz : z ∈ nodes L h) (hz' : z ∈ nodes L h') : h = h' := by
  cases z with
  | head k => exact (mem_nodes_head.1 hz).symm.trans (mem_nodes_head.1 hz')
  | item t => exact q.uniq hV hV' (mem_nodes_item.1 hz) (mem_nodes_item.1 hz')

/-- The links where the queue is `a` followed by `b`. -/
theorem link (q : Queues nx pv V K L) (hV : V h) (hL : L h = a ++ b) :
    nx (before h a) = after h b ∧ pv (after h b) = before h a := by
  have r := q.ring h hV
  obtain ⟨c, hc⟩ := split_before h a
  obtain ⟨d, hd⟩ := split_after h b
  have hn : nodes L h = c ++ before h a :: b.map .item := by
    rw [nodes, hL, List.map_append, ← List.cons_append, hc, List.append_assoc, List.singleton_append]
  rw [hn] at r
  refine ⟨r.next_eq hd, ?_⟩
  have hb := r.bwd
  rw [List.append_assoc, List.cons_append, hd] at hb
  exact hb.prev_eq

theorem head_next (q : Queues nx pv V K L) (hV : V h) : nx (.head h) = after h (L h) :=
  (q.link hV (a := []) rfl).1

theorem head_prev (q : Queues nx pv V K L) (hV : V h) : pv (.head h) = before h (L h) :=
  (q.link hV (b := []) (List.append_nil _).symm).2

theorem item_next (q : Queues nx pv V K L) (hV : V h) (hL : L h = a ++ t :: b) :
    nx (.item t) = after h b := by
  have := (q.link hV (a := a ++ [t]) (b := b) (by simpa using hL)).1
  rwa [before_concat] at this

theorem item_prev (q : Queues nx pv V K L) (hV : V h) (hL : L h = a ++ t :: b) :
    pv (.item t) = before h a := (q.link hV hL).2

/-- Only the queues of the headers set up count. -/
theorem congr {L' : η → List τ} (q : Queues nx pv V K L) (hL : ∀ h, V h → L' h = L h) :
    Queues nx pv V K L' := by
  refine ⟨fun h hV => ?_, fun hV hV' hu hu' => ?_, fun hV hu => ?_, fun hu hno => ?_⟩
  · rw [nodes, hL h hV]
    exact q.ring h hV
  · exact q.uniq hV hV' (hL _ hV ▸ hu) (hL _ hV' ▸ hu')
  · exact q.known hV (hL _ hV ▸ hu)
  · exact q.alone hu fun h hV => hL h hV ▸ hno h hV

variable [DecidableEq η]

/-- Put `t` in where the queue `h` is `a` followed by `b`. -/
theorem put (q : Queues nx pv V K L) (hV : V h) (hL : L h = a ++ b) (hK : K t)
    (ht : ∀ h, V h → t ∉ L h)
    (hn : nx' (before h a) = .item t) (hnt : nx' (.item t) = after h b)
    (hno : ∀ z, z ≠ before h a → z ≠ .item t → nx' z = nx z)
    (hp : pv' (after h b) = .item t) (hpt : pv' (.item t) = before h a)
    (hpo : ∀ z, z ≠ after h b → z ≠ .item t → pv' z = pv z) :
    Queues nx' pv' V K (update L h (a ++ t :: b)) := by
  obtain ⟨c, hc⟩ := split_before h a
  obtain ⟨d, hd⟩ := split_after h b
  have hnodes : nodes L h = c ++ before h a :: b.map .item := by
    rw [nodes, hL, List.map_append, ← List.cons_append, hc, List.append_assoc, List.singleton_append]
  have hnodes' : nodes (update L h (a ++ t :: b)) h = c ++ before h a :: .item t :: b.map .item := by
    rw [nodes, update_self, List.map_append, ← List.cons_append, hc, List.append_assoc]
    rfl
  have hbm : before h a ∈ nodes L h := by rw [hnodes]; simp
  have ham : after h b ∈ nodes L h := by
    have := after_mem h b
    simp only [nodes, hL, List.map_append, List.mem_cons, List.mem_append] at this ⊢
    exact this.imp id Or.inr
  have hmem : ∀ k u, u ∈ update L h (a ++ t :: b) k ↔ u ∈ L k ∨ (k = h ∧ u = t) := by
    intro k u
    by_cases hk : k = h
    · subst hk; simp [hL]; grind
    · simp [hk]
  refine ⟨fun k hk => ?_, fun hk hk' hu hu' => ?_, fun hk hu => ?_, fun {u} hu hno' => ?_⟩
  · by_cases hkh : k = h
    · subst hkh
      have r := q.ring k hk
      have hni : .item t ∉ nodes L k := fun hm => ht k hk (mem_nodes_item.1 hm)
      rw [hnodes] at r hni
      rw [hnodes']
      exact r.put hd hni hn hnt hno hp hpt hpo
    · have hne : ∀ z ∈ nodes L k, z ∉ nodes L h ∧ z ≠ .item t := fun z hz =>
        ⟨fun hz' => hkh (q.nodes_uniq hk hV hz hz'), fun e => ht k hk (mem_nodes_item.1 (e ▸ hz))⟩
      have hnk : nodes (update L h (a ++ t :: b)) k = nodes L k := by
        simp [nodes, update_of_ne hkh]
      rw [hnk]
      refine (q.ring k hk).congr (fun z hz => ?_) (fun z hz => ?_)
      · exact hno z (fun e => (hne z hz).1 (e ▸ hbm)) (hne z hz).2
      · exact hpo z (fun e => (hne z hz).1 (e ▸ ham)) (hne z hz).2
  · rcases (hmem _ _).1 hu with hm | ⟨rfl, rfl⟩
    · rcases (hmem _ _).1 hu' with hm' | ⟨-, rfl⟩
      · exact q.uniq hk hk' hm hm'
      · exact absurd hm (ht _ hk)
    · rcases (hmem _ _).1 hu' with hm' | ⟨rfl, -⟩
      · exact absurd hm' (ht _ hk')
      · rfl
  · rcases (hmem _ _).1 hu with hu | ⟨rfl, rfl⟩
    · exact q.known hk hu
    · exact hK
  · have hut : ∀ k, V k → u ∉ L k := fun k hk hm => hno' k hk ((hmem _ _).2 (Or.inl hm))
    have hne : (Node.item u : Node η τ) ∉ nodes L h := fun hm => hut h hV (mem_nodes_item.1 hm)
    have hneq : (Node.item u : Node η τ) ≠ .item t := fun e =>
      hno' h hV ((hmem _ _).2 (Or.inr ⟨rfl, Node.item.inj e⟩))
    rw [hno (.item u) (fun e => hne (e ▸ hbm)) hneq, hpo (.item u) (fun e => hne (e ▸ ham)) hneq]
    exact q.alone hu hut

/-- Leave `t` out of the queue `h`, pointing at itself. -/
theorem skip (q : Queues nx pv V K L) (hV : V h) (hL : L h = a ++ t :: b)
    (hn : nx' (before h a) = after h b) (hnt : nx' (.item t) = .item t)
    (hno : ∀ z, z ≠ before h a → z ≠ .item t → nx' z = nx z)
    (hp : pv' (after h b) = before h a) (hpt : pv' (.item t) = .item t)
    (hpo : ∀ z, z ≠ after h b → z ≠ .item t → pv' z = pv z) :
    Queues nx' pv' V K (update L h (a ++ b)) := by
  obtain ⟨c, hc⟩ := split_before h a
  obtain ⟨d, hd⟩ := split_after h b
  have hnodes : nodes L h = c ++ before h a :: .item t :: b.map .item := by
    rw [nodes, hL, List.map_append, ← List.cons_append, hc, List.append_assoc]
    rfl
  have hnodes' : nodes (update L h (a ++ b)) h = c ++ before h a :: b.map .item := by
    rw [nodes, update_self, List.map_append, ← List.cons_append, hc, List.append_assoc]
    rfl
  have hbm : before h a ∈ nodes L h := by rw [hnodes]; simp
  have ham : after h b ∈ nodes L h := by
    have := after_mem h b
    simp only [nodes, hL, List.map_append, List.map_cons, List.mem_cons, List.mem_append] at this ⊢
    exact this.imp id fun hm => Or.inr (Or.inr hm)
  have hnd := q.nodup hV
  rw [hL, List.nodup_middle, List.nodup_cons, List.mem_append, not_or] at hnd
  have hmem : ∀ k, V k → ∀ u, u ∈ update L h (a ++ b) k ↔ u ∈ L k ∧ u ≠ t := by
    intro k hk u
    by_cases hkh : k = h
    · subst hkh
      simp only [update_self, hL, List.mem_append, List.mem_cons]
      grind
    · simp only [update_of_ne hkh]
      refine ⟨fun hu => ⟨hu, ?_⟩, And.left⟩
      rintro rfl
      exact hkh (q.uniq hk hV hu (by simp [hL]))
  refine ⟨fun k hk => ?_, fun hk hk' hu hu' => ?_, fun hk hu => ?_, fun hu hno' => ?_⟩
  · by_cases hkh : k = h
    · subst hkh
      have r := q.ring k hk
      rw [hnodes] at r
      rw [hnodes']
      exact r.skip hd hn hno hp hpo
    · have hne : ∀ z ∈ nodes L k, z ∉ nodes L h := fun z hz hz' =>
        hkh (q.nodes_uniq hk hV hz hz')
      have hnt : Node.item t ∈ nodes L h := by rw [hnodes]; simp
      have hnk : nodes (update L h (a ++ b)) k = nodes L k := by
        simp [nodes, update_of_ne hkh]
      rw [hnk]
      refine (q.ring k hk).congr (fun z hz => ?_) (fun z hz => ?_)
      · exact hno z (fun e => hne z hz (e ▸ hbm)) (fun e => hne z hz (e ▸ hnt))
      · exact hpo z (fun e => hne z hz (e ▸ ham)) (fun e => hne z hz (e ▸ hnt))
  · exact q.uniq hk hk' ((hmem _ hk _).1 hu).1 ((hmem _ hk' _).1 hu').1
  · exact q.known hk ((hmem _ hk _).1 hu).1
  · rename_i u
    by_cases hut : u = t
    · subst hut
      exact ⟨hnt, hpt⟩
    · have hul : ∀ k, V k → u ∉ L k := fun k hk hm => hno' k hk ((hmem k hk u).2 ⟨hm, hut⟩)
      have hne : (Node.item u : Node η τ) ∉ nodes L h := fun hm => hul h hV (mem_nodes_item.1 hm)
      have hneq : (Node.item u : Node η τ) ≠ .item t := fun e => hut (Node.item.inj e)
      rw [hno (.item u) (fun e => hne (e ▸ hbm)) hneq, hpo (.item u) (fun e => hne (e ▸ ham)) hneq]
      exact q.alone hu hul

omit [DecidableEq η] in
/-- An item on no queue is set up: it points at itself. -/
theorem learn {K' : τ → Prop} (q : Queues nx pv V K L) (ht : ∀ h, V h → t ∉ L h)
    (hK : ∀ u, K u → K' u) (hK' : ∀ u, K' u → u = t ∨ K u)
    (hn : nx' (.item t) = .item t) (hno : ∀ z, z ≠ .item t → nx' z = nx z)
    (hp : pv' (.item t) = .item t) (hpo : ∀ z, z ≠ .item t → pv' z = pv z) :
    Queues nx' pv' V K' L := by
  have hne : ∀ h, V h → ∀ z ∈ nodes L h, z ≠ .item t := fun h hV z hz e =>
    ht h hV (mem_nodes_item.1 (e ▸ hz))
  refine ⟨fun h hV => ?_, q.uniq, fun hV hu => hK _ (q.known hV hu), fun {u} hu hno' => ?_⟩
  · exact (q.ring h hV).congr (fun z hz => hno z (hne h hV z hz)) fun z hz => hpo z (hne h hV z hz)
  · by_cases hut : u = t
    · subst hut
      exact ⟨hn, hp⟩
    · have hneq : (Node.item u : Node η τ) ≠ .item t := fun e => hut (Node.item.inj e)
      rw [hno _ hneq, hpo _ hneq]
      exact q.alone ((hK' u hu).resolve_left hut) hno'

omit [DecidableEq η] in
/-- Headers that point at themselves carry the empty queues. -/
theorem empty (hn : ∀ h, V h → nx (.head h) = .head h) (hp : ∀ h, V h → pv (.head h) = .head h)
    (hK : ∀ t, ¬K t) : Queues nx pv V K fun _ => [] :=
  ⟨fun h hV => .singleton (hn h hV) (hp h hV), fun _ _ hu => absurd hu List.not_mem_nil,
    fun _ hu => absurd hu List.not_mem_nil, fun hu => absurd hu (hK _)⟩

end Queues

/-! ### The contents of the queues -/

section Contents
variable {L : η → List τ} {h h' : η} {t u : τ}

/-- The queues without the item `t`. -/
def without [DecidableEq τ] (L : η → List τ) (t : τ) (h : η) : List τ := (L h).erase t

/-- The queues with `t` at the end of the queue `h`. -/
def enqueue [DecidableEq η] (L : η → List τ) (h : η) (t : τ) : η → List τ :=
  update L h (L h ++ [t])

/-- The queues with `t` at the front of the queue `h`. -/
def push [DecidableEq η] (L : η → List τ) (h : η) (t : τ) : η → List τ := update L h (t :: L h)

theorem mem_without_of_ne [DecidableEq τ] (hu : u ≠ t) : u ∈ without L t h ↔ u ∈ L h :=
  List.mem_erase_of_ne hu

theorem without_eq [DecidableEq τ] (ht : t ∉ L h) : without L t h = L h := List.erase_of_not_mem ht

theorem not_mem_without [DecidableEq τ] (hnd : (L h).Nodup) : t ∉ without L t h := hnd.not_mem_erase

@[simp] theorem enqueue_self [DecidableEq η] : enqueue L h t h = L h ++ [t] := update_self ..

theorem enqueue_of_ne [DecidableEq η] (hne : h' ≠ h) : enqueue L h t h' = L h' := update_of_ne hne ..

@[simp] theorem mem_enqueue [DecidableEq η] :
    u ∈ enqueue L h t h' ↔ u ∈ L h' ∨ (h' = h ∧ u = t) := by
  by_cases hh : h' = h
  · subst hh
    simp
  · simp [enqueue_of_ne hh, hh]

@[simp] theorem push_self [DecidableEq η] : push L h t h = t :: L h := update_self ..

theorem push_of_ne [DecidableEq η] (hne : h' ≠ h) : push L h t h' = L h' := update_of_ne hne ..

@[simp] theorem mem_push [DecidableEq η] :
    u ∈ push L h t h' ↔ u ∈ L h' ∨ (h' = h ∧ u = t) := by
  by_cases hh : h' = h
  · subst hh
    simp [or_comm]
  · simp [push_of_ne hh, hh]

end Contents

end EasyCore.Links
