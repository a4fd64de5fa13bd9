import EasyCore.Dfs.Mount
import EasyCore.Lib.Paths

/-! Which file system a path belongs to (`dfs_filesystem_lookup` of `dfs_fs.c`, and `dfs_subdir` of `dfs.c`).

        table   / · /sd · /sd/log          in any order
        path    /sdx/a   ▶ /       /sdx/a
                /sd/a    ▶ /sd     /a
                /sd/log  ▶ /sd/log NULL -/

namespace EasyCore.Dfs.Mount
open Paths Tokens

/-- `dfs_subdir`: the file name behind the directory, from the slash in front of it. -/
def dfsSubdir (directory filename : Path) : Option Path :=
  if directory.length = filename.length then none
  else if (filename.drop directory.length).head? ≠ some '/' ∧ directory.length ≠ 0 then
    some (filename.drop (directory.length - 1))
  else some (filename.drop directory.length)

/-- An entry that a lookup does not skip. -/
def Live (iter : DfsFilesystem) (p : Path) : Prop := iter.path = some p ∧ iter.ops ≠ none

/-- The entry has the longest path that the path is below. -/
def Longest (table : List DfsFilesystem) (path : Path) (fs : DfsFilesystem) : Prop :=
  fs ∈ table ∧ ∃ p, Live fs p ∧ Below '/' p path ∧
    ∀ iter ∈ table, ∀ q, Live iter q → Below '/' q path → iter = fs ∨ q.length < p.length

/-! ### One entry -/

/-- What the lookup asks of the path of an entry. -/
def Passes (path p : Path) : Prop :=
  p.isPrefixOf path = true ∧ ¬ (1 < p.length ∧ p.length < path.length ∧ path[p.length]? ≠ some '/')

/-- The body of the loop. -/
def look (path : Path) (acc : Option DfsFilesystem × ℕ) (iter : DfsFilesystem) : Option DfsFilesystem × ℕ :=
  match iter.path, iter.ops with
  | some fspath, some _ =>
    if fspath.length < acc.2 ∨ ¬fspath.isPrefixOf path then acc
    else if 1 < fspath.length ∧ fspath.length < path.length ∧ path[fspath.length]? ≠ some '/' then acc
    else (some iter, fspath.length)
  | _, _ => acc

section Lookup
variable {path p q : Path} {iter fs : DfsFilesystem} {acc : Option DfsFilesystem × ℕ}
  {table : List DfsFilesystem}

theorem look_take (h : Live iter p) (hlen : acc.2 ≤ p.length) (hpass : Passes path p) :
    look path acc iter = (some iter, p.length) := by
  obtain ⟨hpath, hops⟩ := h
  obtain ⟨ops, hops⟩ := Option.ne_none_iff_exists'.1 hops
  rw [look, hpath, hops]
  simp only
  rw [if_neg (not_or.2 ⟨not_lt.2 hlen, not_not.2 hpass.1⟩), if_neg hpass.2]

theorem look_skip (h : ∀ p, Live iter p → Passes path p → p.length < acc.2) :
    look path acc iter = acc := by
  rw [look]
  split
  · rename_i fspath ops hpath hops
    have hlive : Live iter fspath := ⟨hpath, hops ▸ Option.some_ne_none ops⟩
    split_ifs with hshort hsep
    · rfl
    · rfl
    · rw [not_or, not_not] at hshort
      exact absurd (h fspath hlive ⟨hshort.2, hsep⟩) hshort.1
  · rfl

/-- What the loop has found in the entries it has seen. -/
structure Found (path : Path) (table : List DfsFilesystem) (fs : DfsFilesystem) (p : Path) : Prop where
  mem : fs ∈ table
  live : Live fs p
  passes : Passes path p
  longest : ∀ iter ∈ table, ∀ q, Live iter q → Passes path q → q.length ≤ p.length

theorem foldl_look (path : Path) (table : List DfsFilesystem) :
    (table.foldl (look path) (none, 0) = (none, 0) ∧
      ∀ iter ∈ table, ∀ p, Live iter p → ¬ Passes path p) ∨
    ∃ fs p, table.foldl (look path) (none, 0) = (some fs, p.length) ∧ Found path table fs p := by
  induction table using List.reverseRecOn with
  | nil => exact .inl ⟨rfl, fun iter hiter => absurd hiter List.not_mem_nil⟩
  | append_singleton table iter ih =>
    rw [List.foldl_append, List.foldl_cons, List.foldl_nil]
    -- An entry has one path, so what is asked of all its paths is asked of that one.
    have hsame : ∀ {p q}, Live iter p → Live iter q → q = p := fun hp hq =>
      Option.some.inj (hq.1.symm.trans hp.1)
    by_cases hpass : ∃ p, Live iter p ∧ Passes path p
    · obtain ⟨p, hlive, hpass⟩ := hpass
      have hlast : ∀ q, Live iter q → q.length ≤ p.length := fun q hq => by rw [hsame hlive hq]
      right
      rcases ih with ⟨hacc, hnone⟩ | ⟨fs, r, hacc, hfound⟩
      · refine ⟨iter, p, by rw [hacc]; exact look_take hlive (Nat.zero_le _) hpass, ?_, hlive, hpass, ?_⟩
        · exact List.mem_concat_self
        · intro iter' hiter' q hq hq'
          rcases List.mem_append.1 hiter' with hiter' | hiter'
          · exact absurd hq' (hnone iter' hiter' q hq)
          · exact hlast q (List.mem_singleton.1 hiter' ▸ hq)
      · rcases le_or_gt r.length p.length with hle | hlt
        · refine ⟨iter, p, by rw [hacc]; exact look_take hlive hle hpass, ?_, hlive, hpass, ?_⟩
          · exact List.mem_concat_self
          · intro iter' hiter' q hq hq'
            rcases List.mem_append.1 hiter' with hiter' | hiter'
            · exact (hfound.longest iter' hiter' q hq hq').trans hle
            · exact hlast q (List.mem_singleton.1 hiter' ▸ hq)
        · refine ⟨fs, r, ?_, List.mem_append_left _ hfound.mem, hfound.live, hfound.passes, ?_⟩
          · rw [hacc]
            exact look_skip fun q hq _ => by rw [hsame hlive hq]; exact hlt
          · intro iter' hiter' q hq hq'
            rcases List.mem_append.1 hiter' with hiter' | hiter'
            · exact hfound.longest iter' hiter' q hq hq'
            · exact (hlast q (List.mem_singleton.1 hiter' ▸ hq)).trans hlt.le
    · have hskip : ∀ acc, look path acc iter = acc := fun acc =>
        look_skip fun p hp hp' => absurd ⟨p, hp, hp'⟩ hpass
      rw [hskip]
      rcases ih with ⟨hacc, hnone⟩ | ⟨fs, r, hacc, hfound⟩
      · refine .inl ⟨hacc, fun iter' hiter' p hp hp' => ?_⟩
        rcases List.mem_append.1 hiter' with hiter' | hiter'
        · exact hnone iter' hiter' p hp hp'
        · exact hpass ⟨p, List.mem_singleton.1 hiter' ▸ hp, hp'⟩
      · refine .inr ⟨fs, r, hacc, List.mem_append_left _ hfound.mem, hfound.live, hfound.passes, ?_⟩
        intro iter' hiter' q hq hq'
        rcases List.mem_append.1 hiter' with hiter' | hiter'
        · exact hfound.longest iter' hiter' q hq hq'
        · exact absurd ⟨q, List.mem_singleton.1 hiter' ▸ hq, hq'⟩ hpass

/-- The tests for a path are those for a directory above it. -/
theorem passes_iff (hp : Canonical '/' '.' p) (hpath : Canonical '/' '.' path) :
    Passes path p ↔ Below '/' p path := by
  rw [below_iff hp hpath, Passes, List.isPrefixOf_iff_prefix]
  constructor
  · rintro ⟨⟨t, rfl⟩, hsep⟩
    rcases hp.cases with ⟨hroot, -⟩ | ⟨-, -, hlen⟩
    · exact .inl hroot
    · cases t with
      | nil => exact .inr (.inl (List.append_nil p).symm)
      | cons c t =>
        right
        right
        refine ⟨t, ?_⟩
        have hc : (p ++ c :: t)[p.length]? = some c := by simp
        rw [hc] at hsep
        by_contra hne
        refine hsep ⟨hlen, by simp, fun heq => hne ?_⟩
        rw [Option.some.inj heq]
  · rintro (rfl | rfl | ⟨t, rfl⟩)
    · refine ⟨?_, fun h => absurd h.1 (lt_irrefl 1)⟩
      obtain ⟨st, -, rfl⟩ := hpath
      have hhead : (render '/' st).head? = some '/' := head_render st
      obtain ⟨t, ht⟩ := List.head?_eq_some_iff.1 hhead
      exact ⟨t, ht.symm⟩
    · exact ⟨List.prefix_rfl, fun h => absurd h.2.1 (lt_irrefl _)⟩
    · exact ⟨List.prefix_append _ _, fun h => h.2.2 (by simp)⟩

/-- Behind the root a name begins. -/
theorem second_char (hpath : Canonical '/' '.' path) (hne : path ≠ ['/']) :
    ∃ c t, path = '/' :: c :: t ∧ c ≠ '/' := by
  rcases hpath.cases with ⟨hroot, -⟩ | ⟨hnames, hnil, -⟩
  · exact absurd hroot hne
  · obtain ⟨n, ns, htokens⟩ := List.exists_cons_of_ne_nil hnil
    obtain ⟨hn, hsep, -⟩ := mem_tokens (htokens ▸ List.mem_cons_self : n ∈ tokens '/' path)
    obtain ⟨c, m, rfl⟩ := List.exists_cons_of_ne_nil hn
    rw [htokens] at hnames
    exact ⟨c, _, hnames, fun hc => hsep (hc ▸ List.mem_cons_self)⟩

/-- The file name behind a directory above it. -/
theorem dfsSubdir_spec (hp : Canonical '/' '.' p) (hpath : Canonical '/' '.' path)
    (hbelow : Below '/' p path) : (path = p → dfsSubdir p path = none) ∧
      (path ≠ p → ∃ t, dfsSubdir p path = some ('/' :: t) ∧
        path = if p = ['/'] then '/' :: t else p ++ '/' :: t) := by
  constructor
  · rintro rfl
    rw [dfsSubdir, if_pos rfl]
  · intro hne
    by_cases hroot : p = ['/']
    · obtain ⟨c, t, rfl, hc⟩ := second_char hpath (hroot ▸ hne)
      refine ⟨c :: t, ?_, by rw [if_pos hroot]⟩
      have hhead : (c :: t).head? ≠ some '/' ∧ ['/'].length ≠ 0 :=
        ⟨fun h => hc (Option.some.inj h), by decide⟩
      rw [hroot, dfsSubdir, if_neg (by simp)]
      exact if_pos hhead
    · rcases (below_iff hp hpath).1 hbelow with h | rfl | ⟨t, rfl⟩
      · exact absurd h hroot
      · exact absurd rfl hne
      · refine ⟨t, ?_, by rw [if_neg hroot]⟩
        rw [dfsSubdir, if_neg (by simp), List.drop_left, if_neg (by simp)]

/-- Mounted entries with the same path are the same. -/
theorem same_entry (hdistinct : Distinct table) {iter' : DfsFilesystem} (hiter : iter ∈ table)
    (hiter' : iter' ∈ table) (h : iter.path = some p) (h' : iter'.path = some p) : iter = iter' := by
  obtain ⟨i, hi⟩ := List.mem_iff_getElem?.1 hiter
  obtain ⟨j, hj⟩ := List.mem_iff_getElem?.1 hiter'
  have hij : i = j := hdistinct i j p (by rw [pathAt, hi]; exact h) (by rw [pathAt, hj]; exact h')
  rw [hij, hj] at hi
  exact (Option.some.inj hi).symm

end Lookup

/-- CORRECT: with different normalised paths in the table, a lookup finds the entry with the longest path that
    the path is below, and none if there is none; the sub-path is what follows that path, from a slash, and
    NULL for that path itself. -/
theorem lookup_longest (s : State) (path : Path) (hdistinct : Distinct s.table)
    (htable : ∀ iter ∈ s.table, ∀ p, iter.path = some p → Canonical '/' '.' p)
    (hpath : Canonical '/' '.' path) :
    (∀ fs, dfsFilesystemLookup s path = some fs ↔ Longest s.table path fs) ∧
      (dfsFilesystemLookup s path = none ↔ ∀ iter ∈ s.table, ∀ p, Live iter p → ¬ Below '/' p path) ∧
      ∀ fs p, dfsFilesystemLookup s path = some fs → fs.path = some p →
        (path = p → dfsSubdir p path = none) ∧
          (path ≠ p → ∃ t, dfsSubdir p path = some ('/' :: t) ∧
            path = if p = ['/'] then '/' :: t else p ++ '/' :: t) := by
  have hpasses : ∀ iter ∈ s.table, ∀ p, Live iter p → (Passes path p ↔ Below '/' p path) :=
    fun iter hiter p hp => passes_iff (htable iter hiter p hp.1) hpath
  have hlookup : dfsFilesystemLookup s path = (s.table.foldl (look path) (none, 0)).1 := rfl
  rcases foldl_look path s.table with ⟨hacc, hnone⟩ | ⟨fs, p, hacc, hfound⟩
  · rw [hacc] at hlookup
    have hnot : ∀ iter ∈ s.table, ∀ p, Live iter p → ¬ Below '/' p path := fun iter hiter p hp hbelow =>
      hnone iter hiter p hp ((hpasses iter hiter p hp).2 hbelow)
    rw [hlookup]
    refine ⟨fun fs => iff_of_false (fun h => nomatch h) ?_, iff_of_true rfl hnot, fun fs p h => nomatch h⟩
    rintro ⟨hmem, p, hlive, hbelow, -⟩
    exact hnot fs hmem p hlive hbelow
  · rw [hacc] at hlookup
    have hbelow : Below '/' p path := (hpasses fs hfound.mem p hfound.live).1 hfound.passes
    have hlongest : Longest s.table path fs := by
      refine ⟨hfound.mem, p, hfound.live, hbelow, fun iter hiter q hq hq' => ?_⟩
      have hpass := (hpasses iter hiter q hq).2 hq'
      rcases (hfound.longest iter hiter q hq hpass).lt_or_eq with hlt | heq
      · exact .inr hlt
      · left
        have hqp : q = p := by
          have hqpath := List.isPrefixOf_iff_prefix.1 hpass.1
          have hppath := List.isPrefixOf_iff_prefix.1 hfound.passes.1
          exact (List.prefix_of_prefix_length_le hqpath hppath heq.le).eq_of_length heq
        exact same_entry hdistinct hiter hfound.mem (hqp ▸ hq.1) hfound.live.1
    rw [hlookup]
    refine ⟨fun fs' => ⟨fun h => Option.some.inj h ▸ hlongest, ?_⟩,
      iff_of_false (Option.some_ne_none fs) ?_, ?_⟩
    · rintro ⟨hmem, p', hlive, hbelow', hall⟩
      obtain ⟨-, p'', hlive', -, hall'⟩ := hlongest
      rcases hall fs hfound.mem p hfound.live hbelow with h | h
      · rw [h]
      · rcases hall' fs' hmem p' hlive hbelow' with h' | h'
        · rw [h']
        · obtain rfl : p'' = p := Option.some.inj (hlive'.1.symm.trans hfound.live.1)
          exact absurd h' (lt_asymm h)
    · exact fun h => h fs hfound.mem p hfound.live hbelow
    · intro fs' p' h h'
      obtain rfl := Option.some.inj h
      obtain rfl : p' = p := Option.some.inj (h'.symm.trans hfound.live.1)
      exact dfsSubdir_spec (htable fs hfound.mem p' h') hpath hbelow

/-- A card in a directory of the root. -/
def elmOps : FsOps := ⟨['e', 'l', 'm'], true, true, true⟩
def card : State :=
  ⟨[some elmOps], [⟨none, some ['/'], some elmOps⟩, ⟨some 1, some ['/', 's', 'd'], some elmOps⟩]⟩

/-- `/sd/a` is `/a` on the card. -/
theorem lookup_longest_card :
    dfsFilesystemLookup card ['/', 's', 'd', '/', 'a'] = some ⟨some 1, some ['/', 's', 'd'], some elmOps⟩ ∧
      ∃ t, dfsSubdir ['/', 's', 'd'] ['/', 's', 'd', '/', 'a'] = some ('/' :: t) ∧
        ['/', 's', 'd', '/', 'a'] =
          if ['/', 's', 'd'] = ['/'] then '/' :: t else ['/', 's', 'd'] ++ '/' :: t := by
  have hsd : IsName '/' '.' ['s', 'd'] := ⟨by decide, by decide, by decide, by decide⟩
  have ha : IsName '/' '.' ['a'] := ⟨by decide, by decide, by decide, by decide⟩
  have hdistinct : Distinct card.table := by
    intro i j p hi hj
    match i, j with
    | 0, 0 => rfl
    | 1, 1 => rfl
    | 0, 1 => exact absurd (hi.trans hj.symm) (by decide)
    | 1, 0 => exact absurd (hi.trans hj.symm) (by decide)
    | i + 2, _ => cases hi
    | _, j + 2 => cases hj
  have htable : ∀ iter ∈ card.table, ∀ p, iter.path = some p → Canonical '/' '.' p := by
    intro iter hiter p hp
    simp only [card, List.mem_cons, List.not_mem_nil, or_false] at hiter
    rcases hiter with rfl | rfl
    · cases hp
      exact ⟨[], fun n hn => absurd hn List.not_mem_nil, rfl⟩
    · cases hp
      exact ⟨[['s', 'd']], by simpa using hsd, rfl⟩
  have hpath : Canonical '/' '.' ['/', 's', 'd', '/', 'a'] :=
    ⟨[['a'], ['s', 'd']], by simpa using ⟨ha, hsd⟩, rfl⟩
  have hfound : dfsFilesystemLookup card ['/', 's', 'd', '/', 'a'] =
      some ⟨some 1, some ['/', 's', 'd'], some elmOps⟩ := by decide
  exact ⟨hfound, ((lookup_longest card _ hdistinct htable hpath).2.2 _ _ hfound rfl).2 (by decide)⟩

end EasyCore.Dfs.Mount
