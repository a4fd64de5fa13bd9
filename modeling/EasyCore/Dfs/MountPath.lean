import EasyCore.Dfs.MountLookup

/-! What `dfs_normalize_path` makes of a path, as the mount table has it (`Mount.lean`): a result from the
    root is canonical, and stays as it is. -/

namespace EasyCore.Dfs.Mount
open Paths Tokens

section Loop
variable {st : List Path} {src dst n : Path}

theorem dropWhile_flat (st : List Path) :
    (flat '/' st).reverse.dropWhile (· ≠ '/') = (flat '/' st).reverse := by
  cases st with
  | nil => rfl
  | cons n st =>
    rw [flat, List.reverse_append, List.reverse_singleton, List.singleton_append,
      List.dropWhile_cons_of_neg (by simp)]

theorem upOne_flat (hn : '/' ∉ n) : upOne (flat '/' (n :: st)).reverse = some (flat '/' st).reverse := by
  have hall : ∀ c ∈ n.reverse, decide (c ≠ '/') = true := fun c hc =>
    decide_eq_true fun h => hn (List.mem_reverse.1 (h ▸ hc))
  rw [flat, List.reverse_append, List.reverse_singleton, List.singleton_append, List.reverse_append, upOne,
    List.dropWhile_append_of_pos hall, dropWhile_flat]

theorem head_skipSlashes (src : Path) : (skipSlashes src).head? ≠ some '/' := by
  intro h
  have hnot := List.head?_dropWhile_not (fun c => decide (c = '/')) src
  rw [← skipSlashes, h] at hnot
  simp at hnot

theorem tokens_skipSlashes (src : Path) : tokens '/' (skipSlashes src) = tokens '/' src :=
  tokens_dropWhile src

/-- The text has been read, and its names have done this to the stack. -/
def Walked (st : List Path) (src : Path) (r : Option Path) : Prop :=
  (r = none ∧ resolve '.' st (tokens '/' src) = none) ∨
    ∃ dst st', r = some dst ∧ resolve '.' st (tokens '/' src) = some st' ∧ Ends '/' dst.reverse st'

/-- A name in front, and the rest from what it does to the stack. -/
theorem Walked.cons {st' : List Path} {src' : Path} {r : Option Path} (h : Walked st' src' r)
    (htokens : resolve '.' st (tokens '/' src) = resolve '.' st' (tokens '/' src')) : Walked st src r := by
  rwa [Walked, htokens]

theorem walked_up {fuel : ℕ} {rest : Path} (hst : ∀ n ∈ st, '/' ∉ n)
    (htokens : tokens '/' src = ['.', '.'] :: tokens '/' rest)
    (ih : ∀ st', (∀ n ∈ st', '/' ∉ n) → Walked st' rest (normalizeLoop fuel (flat '/' st').reverse rest)) :
    Walked st src ((upOne (flat '/' st).reverse).bind fun dst => normalizeLoop fuel dst rest) := by
  have hdot : ['.', '.'] ≠ ['.'] := by decide
  cases st with
  | nil =>
    refine .inl ⟨rfl, ?_⟩
    rw [htokens, resolve, if_neg hdot, if_pos rfl, if_pos rfl]
  | cons n st =>
    obtain ⟨hn, hst⟩ := List.forall_mem_cons.1 hst
    rw [upOne_flat hn]
    refine (ih st hst).cons ?_
    rw [htokens, resolve, if_neg hdot, if_pos rfl, if_neg (List.cons_ne_nil n st), List.tail_cons]

/-- From the start of a name, the loop does what the names say. -/
theorem normalizeLoop_walked : ∀ {fuel : ℕ} {src : Path} {st : List Path}, src.length < fuel →
    src.head? ≠ some '/' → (∀ n ∈ st, '/' ∉ n) →
    Walked st src (normalizeLoop fuel (flat '/' st).reverse src) := by
  intro fuel
  induction fuel with
  | zero => exact fun h => absurd h (Nat.not_lt_zero _)
  | succ fuel ih =>
    intro src st hfuel hhead hst
    have hskip : ∀ (src' : Path) (st' : List Path), src'.length < fuel → (∀ n ∈ st', '/' ∉ n) →
        Walked st' (skipSlashes src') (normalizeLoop fuel (flat '/' st').reverse (skipSlashes src')) :=
      fun src' st' hlen hst' =>
        ih ((length_skipSlashes_le src').trans_lt hlen) (head_skipSlashes src') hst'
    unfold normalizeLoop
    split
    · rename_i heq
      cases heq
    -- `.` at the end, and `./`
    · refine .inr ⟨_, st, rfl, ?_, .inl (List.reverse_reverse _)⟩
      rw [tokens_name (List.cons_ne_nil _ _) (by decide), resolve, if_pos rfl, resolve]
    · rename_i src' heq
      cases heq
      refine (hskip src' st (by simp at hfuel; omega) hst).cons ?_
      have htokens : tokens '/' ('.' :: '/' :: src') = ['.'] :: tokens '/' src' :=
        tokens_append (n := ['.']) (List.cons_ne_nil _ _) (by decide)
      rw [htokens, resolve, if_pos rfl, tokens_skipSlashes]
    -- `..` at the end, and `../`
    · rename_i heq
      cases heq
      refine walked_up hst ?_ fun st' hst' => ih (by simp at hfuel ⊢; omega) (by simp) hst'
      rw [tokens_name (List.cons_ne_nil _ _) (by decide), tokens_nil]
    · rename_i src' heq
      cases heq
      refine walked_up hst ?_ fun st' hst' => hskip src' st' (by simp at hfuel; omega) hst'
      rw [tokens_skipSlashes]
      exact tokens_append (n := ['.', '.']) (List.cons_ne_nil _ _) (by decide)
    · rename_i src _ _ _ _ hfuel' hdot hdotSlash hdots hdotsSlash
      cases hfuel'
      simp only
      have hslash : '/' ∉ src.takeWhile (· ≠ '/') := fun h => by simpa using List.mem_takeWhile_imp h
      have hsplit : src.takeWhile (· ≠ '/') ++ src.dropWhile (· ≠ '/') = src :=
        List.takeWhile_append_dropWhile
      cases hdrop : src.dropWhile (· ≠ '/') with
      | nil =>
        rw [hdrop, List.append_nil] at hsplit
        rw [hsplit] at hslash ⊢
        have hcontent : (src.reverse ++ (flat '/' st).reverse).reverse = flat '/' st ++ src := by
          rw [List.reverse_append, List.reverse_reverse, List.reverse_reverse]
        by_cases hnil : src = []
        · refine .inr ⟨_, st, rfl, by rw [hnil, tokens_nil, resolve], .inl ?_⟩
          rw [hcontent, hnil, List.append_nil]
        · refine .inr ⟨_, src :: st, rfl, ?_, .inr ⟨src, st, rfl, hnil, hslash, hcontent⟩⟩
          rw [tokens_name hnil hslash, resolve_plain hdot hdots, resolve]
      | cons c src' =>
        obtain rfl : c = '/' := by
          have hnot := List.head?_dropWhile_not (fun c => decide (c ≠ '/')) src
          rw [hdrop] at hnot
          simpa using hnot
        rw [hdrop] at hsplit
        have hne : src.takeWhile (· ≠ '/') ≠ [] := fun hnil => by
          rw [hnil] at hsplit
          exact hhead (by rw [← hsplit]; rfl)
        have hlen : src'.length < fuel := by
          have hlt := length_rest_lt hdrop
          omega
        have hname : src.takeWhile (· ≠ '/') ≠ ['.'] := fun h => hdotSlash src' (by rw [← hsplit, h]; rfl)
        have hname' : src.takeWhile (· ≠ '/') ≠ ['.', '.'] := fun h =>
          hdotsSlash src' (by rw [← hsplit, h]; rfl)
        have hflat : '/' :: (src.takeWhile (· ≠ '/')).reverse ++ (flat '/' st).reverse =
            (flat '/' (src.takeWhile (· ≠ '/') :: st)).reverse := by
          rw [flat, List.reverse_append, List.reverse_append]
          rfl
        show Walked st src (normalizeLoop fuel ('/' :: (src.takeWhile (· ≠ '/')).reverse ++
          (flat '/' st).reverse) (skipSlashes src'))
        rw [hflat]
        refine (hskip src' (src.takeWhile (· ≠ '/') :: st) hlen
          (List.forall_mem_cons.2 ⟨hslash, hst⟩)).cons ?_
        rw [tokens_skipSlashes, ← resolve_plain hname hname', ← tokens_append hne hslash, hsplit]

theorem reverse_stripSlash (dst : Path) : (stripSlash dst).reverse = strip '/' dst.reverse := by
  unfold stripSlash
  split
  · rename_i c dst
    rw [strip, if_pos ⟨by simp, by simp⟩]
    simp
  · rename_i hnot
    rw [strip, if_neg]
    rintro ⟨hlen, hlast⟩
    rw [List.getLast?_reverse] at hlast
    obtain ⟨t, rfl⟩ := List.head?_eq_some_iff.1 hlast
    cases t with
    | nil => exact hlen rfl
    | cons c t => exact hnot c t rfl

/-- The path in its buffer. -/
def normalizeFull (path : Path) : Option Path :=
  (normalizeLoop (path.length + 1) [] path).map fun dst => (stripSlash dst).reverse

/-- From the root, its empty name is at the bottom of the stack. -/
theorem walked_root (t : Path) : Walked [[]] ('/' :: t) (normalizeLoop (t.length + 2) [] ('/' :: t)) := by
  have hloop : normalizeLoop (t.length + 2) [] ('/' :: t) =
      normalizeLoop (t.length + 1) (flat '/' [[]]).reverse (skipSlashes t) := by
    rw [normalizeLoop]
    · rfl
    all_goals simp
  have hlen : (skipSlashes t).length < t.length + 1 := Nat.lt_succ_of_le (length_skipSlashes_le t)
  rw [hloop]
  refine (normalizeLoop_walked hlen (head_skipSlashes t) (by simp)).cons ?_
  rw [tokens_sep, tokens_skipSlashes]

variable {path p : Path}

/-- A result from the root is canonical. -/
theorem normalizeFull_canonical (h : normalizeFull path = some p) (hhead : p.head? = some '/') :
    Canonical '/' '.' p := by
  have hnames : ∀ n ∈ tokens '/' path, n ≠ ['.'] → n ≠ ['.', '.'] → IsName '/' '.' n := by
    intro n hn hdot hdots
    obtain ⟨hne, hsep, -⟩ := mem_tokens hn
    exact ⟨hne, hdot, hdots, hsep⟩
  obtain ⟨dst, hdst, hp⟩ := Option.map_eq_some_iff.1 h
  rw [reverse_stripSlash] at hp
  by_cases hroot : path.head? = some '/'
  · obtain ⟨t, rfl⟩ := List.head?_eq_some_iff.1 hroot
    rcases walked_root t with ⟨hnone, -⟩ | ⟨dst', st', hsome, hresolve, hends⟩
    · rw [List.length_cons, hnone] at hdst
      cases hdst
    · rw [List.length_cons, hsome] at hdst
      obtain rfl := Option.some.inj hdst
      have hresolve' : resolve '.' ([] ++ [[]]) (tokens '/' ('/' :: t)) = some st' := hresolve
      rcases resolve_rooted hnames (by simp) hresolve' with ⟨st₀, hst₀, rfl⟩ | hst'
      · exact ⟨st₀, hst₀, by rw [← hp, (ends_render hends hst₀).2]⟩
      · exact absurd (hp ▸ hhead) (head_strip hends hst')
  · have hwalked : Walked [] path (normalizeLoop (path.length + 1) [] path) :=
      normalizeLoop_walked (Nat.lt_succ_self path.length) hroot (by simp)
    rcases hwalked with ⟨hnone, -⟩ | ⟨dst', st', hsome, hresolve, hends⟩
    · exact absurd (hnone.symm.trans hdst) (by simp)
    · obtain rfl := Option.some.inj (hsome.symm.trans hdst)
      exact absurd (hp ▸ hhead) (head_strip hends (resolve_forall (by simp) hnames hresolve))

/-- A canonical path stays as it is. -/
theorem normalizeFull_self (h : Canonical '/' '.' p) : normalizeFull p = some p := by
  obtain ⟨st, hst, rfl⟩ := h
  obtain ⟨t, ht⟩ := List.head?_eq_some_iff.1 (head_render st : (render '/' st).head? = some '/')
  have hresolve : resolve '.' [[]] (tokens '/' (render '/' st)) = some (st ++ [[]]) :=
    resolve_append (resolve_render hst)
  rw [ht] at hresolve ⊢
  rcases walked_root t with ⟨-, hnone⟩ | ⟨dst, st', hsome, hresolve', hends⟩
  · exact absurd (hnone.symm.trans hresolve) (by simp)
  · obtain rfl := Option.some.inj (hresolve'.symm.trans hresolve)
    rw [normalizeFull, List.length_cons, hsome, Option.map_some, reverse_stripSlash,
      (ends_render hends hst).2, ht]

theorem dfsNormalizePath_eq (workingDirectory : Option Path) (filename : Path) :
    dfsNormalizePath workingDirectory true filename =
      (if filename.head? = some '/' then some filename
        else workingDirectory.map fun directory => directory ++ '/' :: filename).bind normalizeFull := rfl

theorem dfsNormalizePath_canonical {workingDirectory : Option Path}
    (h : dfsNormalizePath workingDirectory true path = some p) (hhead : p.head? = some '/') :
    Canonical '/' '.' p := by
  rw [dfsNormalizePath_eq] at h
  obtain ⟨full, -, hfull⟩ := Option.bind_eq_some_iff.1 h
  exact normalizeFull_canonical hfull hhead

theorem dfsNormalizePath_self (workingDirectory : Option Path) (h : Canonical '/' '.' p) :
    dfsNormalizePath workingDirectory true p = some p := by
  obtain ⟨st, -, rfl⟩ := id h
  rw [dfsNormalizePath_eq, if_pos (head_render st)]
  exact normalizeFull_self h

end Loop

end EasyCore.Dfs.Mount
