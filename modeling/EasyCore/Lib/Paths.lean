import EasyCore.Lib.Tokens

/-! Paths of names with a separator, and what `.` and `..` stand for in them.

        / a / . / b / .. / c     names   a | . | b | .. | c
                                 stack   c | a              (`resolve`, the last name first)
                                 path    / a / c            (`render`) -/

namespace EasyCore.Paths
open Tokens

variable {α : Type*} [DecidableEq α] (sep dot : α)

/-- The names from left to right; none if a `..` has nothing to take away. -/
def resolve (st : List (List α)) : List (List α) → Option (List (List α))
  | [] => some st
  | n :: ns =>
    if n = [dot] then resolve st ns
    else if n = [dot, dot] then if st = [] then none else resolve st.tail ns
    else resolve (n :: st) ns

/-- With this many names in front, a `..` has nothing to take away. -/
def climbs : ℕ → List (List α) → Bool
  | _, [] => false
  | depth, n :: ns =>
    if n = [dot] then climbs depth ns
    else if n = [dot, dot] then if depth = 0 then true else climbs (depth - 1) ns
    else climbs (depth + 1) ns

/-- The names with a separator in front of each; the separator alone for none. -/
def render : List (List α) → List α
  | [] => [sep]
  | n :: st => (n :: st).reverse.flatMap (sep :: ·)

/-- A name that stands for itself. -/
structure IsName (n : List α) : Prop where
  ne_nil : n ≠ []
  ne_dot : n ≠ [dot]
  ne_dots : n ≠ [dot, dot]
  no_sep : sep ∉ n

def Canonical (p : List α) : Prop := ∃ st, (∀ n ∈ st, IsName sep dot n) ∧ p = render sep st

variable {sep dot} {st st' base ns : List (List α)} {n p : List α}

theorem resolve_eq_none : ∀ {st ns : List (List α)},
    resolve dot st ns = none ↔ climbs dot st.length ns = true
  | st, [] => by simp [resolve, climbs]
  | st, n :: ns => by
    rw [resolve, climbs]
    by_cases hdot : n = [dot]
    · rw [if_pos hdot, if_pos hdot]
      exact resolve_eq_none
    · rw [if_neg hdot, if_neg hdot]
      by_cases hdots : n = [dot, dot]
      · rw [if_pos hdots, if_pos hdots]
        cases st with
        | nil => exact iff_of_true rfl rfl
        | cons m st =>
          rw [if_neg (List.cons_ne_nil m st), if_neg (by simp)]
          exact resolve_eq_none
      · rw [if_neg hdots, if_neg hdots]
        exact resolve_eq_none

theorem resolve_plain (hdot : n ≠ [dot]) (hdots : n ≠ [dot, dot]) :
    resolve dot st (n :: ns) = resolve dot (n :: st) ns := by
  rw [resolve, if_neg hdot, if_neg hdots]

/-- Names further down do not matter to what is resolved above them. -/
theorem resolve_append : ∀ {st ns : List (List α)}, resolve dot st ns = some st' →
    resolve dot (st ++ base) ns = some (st' ++ base)
  | st, [], h => by
    cases h
    rfl
  | st, n :: ns, h => by
    rw [resolve] at h ⊢
    by_cases hdot : n = [dot]
    · rw [if_pos hdot] at h ⊢
      exact resolve_append h
    · rw [if_neg hdot] at h ⊢
      by_cases hdots : n = [dot, dot]
      · rw [if_pos hdots] at h ⊢
        cases st with
        | nil => cases h
        | cons m st =>
          rw [if_neg (List.cons_ne_nil m st)] at h
          rw [List.cons_append, if_neg (List.cons_ne_nil m _)]
          exact resolve_append h
      · rw [if_neg hdots] at h ⊢
        exact resolve_append h

/-- What is true of the names is true of those that are left. -/
theorem resolve_forall {P : List α → Prop} : ∀ {st ns : List (List α)}, (∀ n ∈ st, P n) →
    (∀ n ∈ ns, n ≠ [dot] → n ≠ [dot, dot] → P n) → resolve dot st ns = some st' → ∀ n ∈ st', P n
  | st, [], hst, _, h => by
    cases h
    exact hst
  | st, n :: ns, hst, hns, h => by
    have hns' := (List.forall_mem_cons.1 hns).2
    rw [resolve] at h
    by_cases hdot : n = [dot]
    · rw [if_pos hdot] at h
      exact resolve_forall hst hns' h
    · rw [if_neg hdot] at h
      by_cases hdots : n = [dot, dot]
      · rw [if_pos hdots] at h
        cases st with
        | nil => cases h
        | cons m st =>
          rw [if_neg (List.cons_ne_nil m st)] at h
          exact resolve_forall (List.forall_mem_cons.1 hst).2 hns' h
      · rw [if_neg hdots] at h
        exact resolve_forall (List.forall_mem_cons.2 ⟨hns n List.mem_cons_self hdot hdots, hst⟩) hns' h

/-- Above an empty name at the bottom are names that stand for themselves, unless it is taken away. -/
theorem resolve_rooted : ∀ {st ns : List (List α)},
    (∀ n ∈ ns, n ≠ [dot] → n ≠ [dot, dot] → IsName sep dot n) → (∀ n ∈ st, IsName sep dot n) →
    resolve dot (st ++ [[]]) ns = some st' →
    (∃ st₀, (∀ n ∈ st₀, IsName sep dot n) ∧ st' = st₀ ++ [[]]) ∨ ∀ n ∈ st', IsName sep dot n
  | st, [], _, hst, h => by
    cases h
    exact .inl ⟨st, hst, rfl⟩
  | st, n :: ns, hns, hst, h => by
    obtain ⟨hn, hns⟩ := List.forall_mem_cons.1 hns
    by_cases hdot : n = [dot]
    · rw [resolve, if_pos hdot] at h
      exact resolve_rooted hns hst h
    · by_cases hdots : n = [dot, dot]
      · rw [resolve, if_neg hdot, if_pos hdots, if_neg (by simp)] at h
        cases st with
        | nil => exact .inr (resolve_forall (fun m hm => absurd hm List.not_mem_nil) hns h)
        | cons m st => exact resolve_rooted hns (List.forall_mem_cons.1 hst).2 h
      · rw [resolve_plain hdot hdots, ← List.cons_append] at h
        exact resolve_rooted hns (List.forall_mem_cons.2 ⟨hn hdot hdots, hst⟩) h

theorem mem_tokens : ∀ {s : List α}, n ∈ tokens sep s → n ≠ [] ∧ sep ∉ n ∧ ∀ a ∈ n, a ∈ s
  | [], h => by
    rw [tokens_nil] at h
    exact absurd h List.not_mem_nil
  | x :: s, h => by
    by_cases hx : x = sep
    · rw [hx, tokens_sep] at h
      obtain ⟨hne, hsep, hmem⟩ := mem_tokens h
      exact ⟨hne, hsep, fun a ha => List.mem_cons_of_mem x (hmem a ha)⟩
    · rw [tokens_cons hx] at h
      rcases List.mem_cons.1 h with rfl | h
      · refine ⟨?_, fun hsep => ?_, fun a ha => List.takeWhile_subset _ ha⟩
        · rw [List.takeWhile_cons_of_pos (by simpa using hx)]
          exact List.cons_ne_nil _ _
        · simpa using List.mem_takeWhile_imp hsep
      · have hlen : ((x :: s).dropWhile (· ≠ sep)).tail.length < (x :: s).length := by
          have hdrop := List.length_dropWhile_le (· ≠ sep) (x :: s)
          rw [List.length_tail, List.length_cons] at *
          omega
        obtain ⟨hne, hsep, hmem⟩ := mem_tokens h
        refine ⟨hne, hsep, fun a ha => ?_⟩
        exact (List.dropWhile_sublist _).subset (List.mem_of_mem_tail (hmem a ha))
termination_by s => s.length
decreasing_by
  · exact Nat.lt_succ_self _
  · exact hlen

/-- What is left of the names of a text stands for itself. -/
theorem resolve_tokens {s : List α} (h : resolve dot [] (tokens sep s) = some st) :
    ∀ n ∈ st, IsName sep dot n := by
  refine resolve_forall (fun n hn => absurd hn List.not_mem_nil) (fun n hn hdot hdots => ?_) h
  obtain ⟨hne, hsep, -⟩ := mem_tokens hn
  exact ⟨hne, hdot, hdots, hsep⟩

/-- Names that stand for themselves are left as they are. -/
theorem resolve_names : ∀ {ns st : List (List α)}, (∀ n ∈ ns, IsName sep dot n) →
    resolve dot st ns = some (ns.reverse ++ st)
  | [], st, _ => rfl
  | n :: ns, st, h => by
    obtain ⟨hn, hns⟩ := List.forall_mem_cons.1 h
    rw [resolve, if_neg hn.ne_dot, if_neg hn.ne_dots, resolve_names hns, List.reverse_cons,
      List.append_assoc, List.singleton_append]

theorem tokens_append {s : List α} (hne : n ≠ []) (hsep : sep ∉ n) :
    tokens sep (n ++ sep :: s) = n :: tokens sep s := by
  rw [tokens, List.splitOn_append_cons_self_of_not_mem hsep, List.filter_cons_of_pos (by simpa using hne)]
  rfl

theorem tokens_name (hne : n ≠ []) (hsep : sep ∉ n) : tokens sep n = [n] := by
  rw [tokens, List.splitOn_eq_singleton hsep, List.filter_cons_of_pos (by simpa using hne), List.filter_nil]

theorem tokens_flatMap : ∀ {ns : List (List α)}, (∀ n ∈ ns, IsName sep dot n) →
    tokens sep (ns.flatMap (sep :: ·)) = ns
  | [], _ => tokens_nil
  | [n], h => by
    have hn := h n List.mem_cons_self
    rw [List.flatMap_cons, List.flatMap_nil, List.append_nil, tokens_sep, tokens_name hn.ne_nil hn.no_sep]
  | n :: k :: ns, h => by
    obtain ⟨hn, hns⟩ := List.forall_mem_cons.1 h
    have ih := tokens_flatMap hns
    have hrest : (k :: ns).flatMap (sep :: ·) = sep :: (k ++ ns.flatMap (sep :: ·)) := rfl
    rw [List.flatMap_cons, List.cons_append, tokens_sep]
    rw [hrest] at ih ⊢
    rw [tokens_append hn.ne_nil hn.no_sep, ← tokens_sep, ih]

/-- The names of a canonical path are those it was made of. -/
theorem tokens_render (h : ∀ n ∈ st, IsName sep dot n) : tokens sep (render sep st) = st.reverse := by
  cases st with
  | nil => exact (tokens_sep []).trans tokens_nil
  | cons n st => exact tokens_flatMap fun m hm => h m (List.mem_reverse.1 hm)

theorem head_render {β : Type*} {sep : β} : ∀ st : List (List β), (render sep st).head? = some sep
  | [] => rfl
  | n :: st => by
    obtain ⟨m, l, hrev⟩ := List.exists_cons_of_ne_nil (List.reverse_ne_nil_iff.2 (List.cons_ne_nil n st))
    rw [render, hrev]
    rfl

theorem resolve_render (h : ∀ n ∈ st, IsName sep dot n) :
    resolve dot [] (tokens sep (render sep st)) = some st := by
  rw [tokens_render h, resolve_names fun n hn => h n (List.mem_reverse.1 hn), List.reverse_reverse,
    List.append_nil]

/-! ### Paths that are being written -/

/-- The names of a stack, each with a separator behind it. -/
def flat (sep : α) : List (List α) → List α
  | [] => []
  | n :: st => flat sep st ++ n ++ [sep]

/-- A stack that is written, or one whose last name is still without its separator. -/
def Ends (sep : α) (s : List α) (st : List (List α)) : Prop :=
  s = flat sep st ∨ ∃ n st', st = n :: st' ∧ n ≠ [] ∧ sep ∉ n ∧ s = flat sep st' ++ n

/-- The separator at the end is removed, unless it is the only character. -/
def strip (sep : α) (s : List α) : List α :=
  if s.length ≠ 1 ∧ s.getLast? = some sep then s.dropLast else s

/-- With an empty name at its bottom, a stack is a path with one more separator. -/
theorem flat_root {β : Type*} {sep : β} : ∀ st : List (List β),
    flat sep (st ++ [[]]) = st.reverse.flatMap (sep :: ·) ++ [sep]
  | [] => rfl
  | n :: st => by
    rw [List.cons_append, flat, flat_root st, List.reverse_cons, List.flatMap_append, List.flatMap_singleton,
      List.append_assoc _ [sep] n, List.singleton_append]

/-- Without a separator at its end, the path is that of the stack. -/
theorem ends_render {s : List α} (h : Ends sep s (st ++ [[]])) (hst : ∀ n ∈ st, IsName sep dot n) :
    s.length ≠ 0 ∧ strip sep s = render sep st := by
  cases st with
  | nil =>
    rcases h with rfl | ⟨n, st', hcons, hne, -⟩
    · exact ⟨by simp [flat], by simp [strip, flat, render]⟩
    · exact absurd (List.cons.inj hcons).1.symm hne
  | cons n st =>
    have hrender : render sep (n :: st) = flat sep (st ++ [[]]) ++ n := by
      rw [render, flat_root, List.reverse_cons, List.flatMap_append, List.flatMap_singleton,
        List.append_assoc _ [sep] n, List.singleton_append]
    have hn := hst n List.mem_cons_self
    have hpos : 0 < n.length := List.length_pos_iff.2 hn.ne_nil
    have hroot : 0 < (flat sep (st ++ [[]])).length := by
      rw [flat_root, List.length_append]
      exact Nat.lt_add_left _ Nat.one_pos
    rcases h with rfl | ⟨m, st', hcons, -, -, rfl⟩
    · have hlen : (flat sep (n :: st ++ [[]])).length = (flat sep (st ++ [[]])).length + n.length + 1 := by
        rw [List.cons_append, flat, List.length_append, List.length_append]
        rfl
      refine ⟨by omega, ?_⟩
      rw [strip, if_pos ⟨by omega, by rw [List.cons_append, flat, List.getLast?_concat]⟩, List.cons_append,
        flat, List.dropLast_concat, hrender]
    · obtain ⟨rfl, hst'⟩ := List.cons.inj hcons
      replace hst' : st ++ [[]] = st' := hst'
      rw [← hst']
      refine ⟨by rw [List.length_append]; omega, ?_⟩
      rw [strip, if_neg, hrender]
      rintro ⟨-, hlast⟩
      rw [List.getLast?_append_of_ne_nil _ hn.ne_nil] at hlast
      exact hn.no_sep (List.mem_of_getLast? hlast)

theorem head_flat {β : Type*} {sep dot : β} : ∀ {st : List (List β)} {t : List β},
    (∀ n ∈ st, IsName sep dot n) → t.head? ≠ some sep → (flat sep st ++ t).head? ≠ some sep
  | [], t, _, ht => ht
  | n :: st, t, hst, _ => by
    obtain ⟨hn, hst'⟩ := List.forall_mem_cons.1 hst
    obtain ⟨a, m, rfl⟩ := List.exists_cons_of_ne_nil hn.ne_nil
    rw [flat, List.append_assoc, List.append_assoc]
    exact head_flat hst' fun h => hn.no_sep (Option.some.inj h ▸ List.mem_cons_self)

/-- Without an empty name at its bottom, a stack is no path from the root. -/
theorem head_strip {s : List α} (h : Ends sep s st) (hst : ∀ n ∈ st, IsName sep dot n) :
    (strip sep s).head? ≠ some sep := by
  have hs : s.head? ≠ some sep := by
    rcases h with rfl | ⟨n, st', rfl, hne, hsep, rfl⟩
    · have hflat := head_flat (t := []) hst (by simp)
      rwa [List.append_nil] at hflat
    · obtain ⟨a, m, rfl⟩ := List.exists_cons_of_ne_nil hne
      exact head_flat (List.forall_mem_cons.1 hst).2 fun h => hsep (Option.some.inj h ▸ List.mem_cons_self)
  unfold strip
  split_ifs
  · intro hlast
    obtain ⟨t, ht⟩ := List.head?_eq_some_iff.1 hlast
    obtain ⟨u, hu⟩ := List.dropLast_prefix s
    rw [← hu, ht] at hs
    exact hs rfl
  · exact hs

/-! ### One path below another -/

/-- The names of `q` begin with those of `p`. -/
def Below (sep : α) (p q : List α) : Prop := tokens sep p <+: tokens sep q

theorem tokens_append_sep (s t : List α) : tokens sep (s ++ sep :: t) = tokens sep s ++ tokens sep t := by
  rw [tokens, List.splitOn_append_cons_self, List.filter_append]
  rfl

/-- A canonical path is the root, or its names with a separator in front of each. -/
theorem Canonical.cases (h : Canonical sep dot p) :
    (p = [sep] ∧ tokens sep p = []) ∨
      (p = (tokens sep p).flatMap (sep :: ·) ∧ tokens sep p ≠ [] ∧ 1 < p.length) := by
  obtain ⟨st, hst, rfl⟩ := h
  rw [tokens_render hst]
  cases st with
  | nil => exact .inl ⟨rfl, rfl⟩
  | cons n st =>
    refine .inr ⟨rfl, List.reverse_ne_nil_iff.2 (List.cons_ne_nil n st), ?_⟩
    have hpos : 0 < n.length := List.length_pos_iff.2 (hst n List.mem_cons_self).ne_nil
    rw [render, List.reverse_cons, List.flatMap_append, List.length_append, List.flatMap_singleton,
      List.length_cons]
    omega

theorem Canonical.pos {β : Type*} {sep dot : β} {p : List β} (h : Canonical sep dot p) : 0 < p.length := by
  obtain ⟨st, -, rfl⟩ := h
  obtain ⟨t, ht⟩ := List.head?_eq_some_iff.1 (head_render st : (render sep st).head? = some sep)
  rw [ht]
  exact Nat.succ_pos _

/-- A canonical path has no separator at its end, but for the root. -/
theorem Canonical.getLast_ne {β : Type*} {sep dot : β} {p : List β} (h : Canonical sep dot p)
    (hne : p ≠ [sep]) : p.getLast? ≠ some sep := by
  obtain ⟨st, hst, rfl⟩ := h
  cases st with
  | nil => exact absurd rfl hne
  | cons n st =>
    have hn := hst n List.mem_cons_self
    rw [render, List.reverse_cons, List.flatMap_append, List.flatMap_singleton,
      List.getLast?_append_of_ne_nil _ (List.cons_ne_nil _ _), List.getLast?_cons_of_ne_nil hn.ne_nil]
    exact fun hlast => hn.no_sep (List.mem_of_getLast? hlast)

/-- In canonical paths: the root, the path itself, and what a separator follows. -/
theorem below_iff {q : List α} (hp : Canonical sep dot p) (hq : Canonical sep dot q) :
    Below sep p q ↔ p = [sep] ∨ p = q ∨ ∃ t, q = p ++ sep :: t := by
  constructor
  · rintro ⟨r, hr⟩
    rcases hp.cases with ⟨hroot, -⟩ | ⟨hnames, hne, -⟩
    · exact .inl hroot
    · rcases hq.cases with ⟨-, hnil⟩ | ⟨hnames', -, -⟩
      · rw [hnil] at hr
        exact absurd (List.append_eq_nil_iff.1 hr).1 hne
      · rw [← hr, List.flatMap_append, ← hnames] at hnames'
        cases r with
        | nil =>
          rw [List.flatMap_nil, List.append_nil] at hnames'
          exact .inr (.inl hnames'.symm)
        | cons n r => exact .inr (.inr ⟨_, hnames'⟩)
  · rintro (rfl | rfl | ⟨t, rfl⟩)
    · rw [Below, tokens_sep, tokens_nil]
      exact List.nil_prefix
    · exact List.prefix_rfl
    · rw [Below, tokens_append_sep]
      exact List.prefix_append _ _

end EasyCore.Paths
