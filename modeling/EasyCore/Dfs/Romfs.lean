import EasyCore.Lib.CString
import EasyCore.Lib.Tokens

/-! The lookup of the ROM file system (`filesystems/romfs/dfs_romfs.c`). The names of a path lead from the
    root through the directories; each is compared as far as the name in the path goes.

        /            entries   readme.txt · read/ · a
        /read/x      leads to  readme.txt, and ends there
        /            is the root; any other path without a name leads to its first entry -/

namespace EasyCore.Dfs.Romfs
open CStr Tokens

/-- `'/'` -/
def slash : UInt8 := 47

/-- `struct romfs_dirent`: a file with its size, and a directory with its entries. -/
inductive RomfsDirent
  | file (name : CString) (fileSize : ℕ)
  | dir (name : CString) (entries : List RomfsDirent)

def RomfsDirent.name : RomfsDirent → CString
  | .file name _ => name
  | .dir name _ => name

/-- `size`, which is the number of the entries of a directory. -/
def RomfsDirent.size : RomfsDirent → ℕ
  | .file _ size => size
  | .dir _ entries => entries.length

def RomfsDirent.entries : RomfsDirent → List RomfsDirent
  | .file _ _ => []
  | .dir _ entries => entries

/-- `rt_strncmp` -/
def rtStrncmp : ℕ → List UInt8 → List UInt8 → UInt8
  | 0, _, _ => 0
  | count + 1, cs, ct =>
    let res := cs.headD 0 - ct.headD 0
    if res ≠ 0 ∨ cs.headD 0 = 0 then res else rtStrncmp count cs.tail ct.tail

def skipSlashes (path : List UInt8) : List UInt8 := path.dropWhile (· = slash)

/-- What follows the name at `subpath`, without the slashes in front. -/
def nextSubpath (subpath : List UInt8) : List UInt8 := skipSlashes (subpath.dropWhile (· ≠ slash))

theorem nextSubpath_lt {subpath : List UInt8} (h : subpath ≠ []) :
    (nextSubpath subpath).length < subpath.length := by
  obtain ⟨c, s, rfl⟩ := List.exists_cons_of_ne_nil h
  rw [nextSubpath, skipSlashes]
  by_cases hc : c = slash
  · rw [List.dropWhile_cons_of_neg (by simpa using hc), List.dropWhile_cons_of_pos (by simpa using hc)]
    exact Nat.lt_succ_of_le (List.length_dropWhile_le _ s)
  · rw [List.dropWhile_cons_of_pos (by simpa using hc)]
    exact Nat.lt_succ_of_le ((List.length_dropWhile_le _ _).trans (List.length_dropWhile_le _ s))

/-- The loop: an entry is found where its indices lead, one for each directory. -/
def descend (dirent : List RomfsDirent) (subpath : List UInt8) : Option (List ℕ × ℕ) :=
  let name := subpath.takeWhile (· ≠ slash)
  match dirent.findIdx? fun e => rtStrncmp name.length e.name.chars subpath = 0 with
  | none => none
  | some index =>
    match dirent[index]? with
    | none => none
    | some e =>
      if _ : nextSubpath subpath = [] then some ([index], e.size)
      else
        match e with
        | .file _ _ => none
        | .dir _ entries => (descend entries (nextSubpath subpath)).map fun r => (index :: r.1, r.2)
termination_by subpath.length
decreasing_by
  rename_i hnext
  refine nextSubpath_lt ?_
  rintro rfl
  exact hnext rfl

/-- `dfs_romfs_lookup`: where the entry is, and its size. -/
def dfsRomfsLookup (rootDirent : RomfsDirent) (path : CString) : Option (List ℕ × ℕ) :=
  if path.chars = [slash] then some ([], rootDirent.size)
  else descend rootDirent.entries (skipSlashes path.chars)

/-! ### Following names -/

/-- The way that the names lead, where `pick` chooses an entry for a name. -/
def follow (pick : List RomfsDirent → List UInt8 → Option ℕ) :
    RomfsDirent → List (List UInt8) → Option (List ℕ × ℕ)
  | d, [] => some ([], d.size)
  | d, c :: cs =>
    (pick d.entries c).bind fun index =>
      (d.entries[index]?).bind fun e => (follow pick e cs).map fun r => (index :: r.1, r.2)

/-- The first entry of this name. -/
def named (entries : List RomfsDirent) (c : List UInt8) : Option ℕ :=
  entries.findIdx? fun e => e.name.chars = c

/-- The first entry whose name begins so. -/
def begins (entries : List RomfsDirent) (c : List UInt8) : Option ℕ :=
  entries.findIdx? fun e => c <+: e.name.chars

/-- The way leads to an entry with a longer name than the one in the path. -/
def Strays : RomfsDirent → List (List UInt8) → Prop
  | _, [] => False
  | d, c :: cs => ∃ index e, begins d.entries c = some index ∧ d.entries[index]? = some e ∧
      (e.name.chars ≠ c ∨ Strays e cs)

/-- No directory of the tree has two entries of one name. -/
inductive Distinct : RomfsDirent → Prop
  | file (name : CString) (fileSize : ℕ) : Distinct (.file name fileSize)
  | dir (name : CString) (entries : List RomfsDirent) (hnodup : (entries.map RomfsDirent.name).Nodup)
      (hentries : ∀ e ∈ entries, Distinct e) : Distinct (.dir name entries)

section Lookup
variable {d e : RomfsDirent} {entries : List RomfsDirent} {c cs ct : List UInt8} {index : ℕ}

theorem rtStrncmp_eq_zero : ∀ {c cs rest : List UInt8}, 0 ∉ c → 0 ∉ cs →
    (rtStrncmp c.length cs (c ++ rest) = 0 ↔ c <+: cs)
  | [], cs, rest, _, _ => iff_of_true rfl List.nil_prefix
  | x :: c, [], rest, hc, _ => by
    have hx : (0 : UInt8) - x ≠ 0 := fun h => hc (by rw [sub_eq_zero.1 h]; exact List.mem_cons_self)
    refine iff_of_false ?_ (by simp)
    rw [List.length_cons, rtStrncmp, List.cons_append, List.headD_cons, List.headD_nil, if_pos (.inl hx)]
    exact hx
  | x :: c, y :: cs, rest, hc, hcs => by
    have hy : y ≠ 0 := fun h => hcs (h ▸ List.mem_cons_self)
    rw [List.length_cons, rtStrncmp, List.cons_append, List.headD_cons, List.headD_cons, List.tail_cons,
      List.tail_cons, List.cons_prefix_cons]
    by_cases hxy : x = y
    · rw [hxy, sub_self, if_neg (by simp [hy]), and_iff_right rfl]
      exact rtStrncmp_eq_zero (List.not_mem_of_not_mem_cons hc) (List.not_mem_of_not_mem_cons hcs)
    · have hres : y - x ≠ 0 := fun h => hxy (sub_eq_zero.1 h).symm
      rw [if_pos (.inl hres)]
      exact iff_of_false hres fun h => hxy h.1

theorem head_skipSlashes (path : List UInt8) : (skipSlashes path).head? ≠ some slash := by
  intro h
  have hnot := List.head?_dropWhile_not (fun c => decide (c = slash)) path
  rw [← skipSlashes, h] at hnot
  simp at hnot

theorem tokens_skipSlashes (path : List UInt8) : tokens slash (skipSlashes path) = tokens slash path :=
  tokens_dropWhile path

/-- The names of a path are the one at its beginning, and those of the next sub-path. -/
theorem tokens_subpath {subpath : List UInt8} (hne : subpath ≠ []) (hhead : subpath.head? ≠ some slash) :
    tokens slash subpath = subpath.takeWhile (· ≠ slash) :: tokens slash (nextSubpath subpath) := by
  obtain ⟨c, s, rfl⟩ := List.exists_cons_of_ne_nil hne
  have hc : c ≠ slash := fun h => hhead (by rw [h]; rfl)
  rw [tokens_cons hc, nextSubpath, tokens_skipSlashes]
  congr 1
  cases hdrop : (c :: s).dropWhile (· ≠ slash) with
  | nil => rfl
  | cons x r =>
    obtain rfl : x = slash := by
      have hnot := List.head?_dropWhile_not (fun c => decide (c ≠ slash)) (c :: s)
      rw [hdrop] at hnot
      simpa using hnot
    rw [List.tail_cons, tokens_sep]

/-- A path that does not begin with a slash has a name. -/
theorem tokens_ne_nil {subpath : List UInt8} (hne : subpath ≠ []) (hhead : subpath.head? ≠ some slash) :
    tokens slash subpath ≠ [] := by
  rw [tokens_subpath hne hhead]
  exact List.cons_ne_nil _ _

/-- From the start of a name, the loop goes where the beginnings of the names lead. -/
theorem descend_eq : ∀ {d : RomfsDirent} {subpath : List UInt8}, subpath ≠ [] → subpath.head? ≠ some slash →
    0 ∉ subpath → descend d.entries subpath = follow begins d (tokens slash subpath) := by
  intro d subpath
  induction hlen : subpath.length using Nat.strong_induction_on generalizing d subpath with
  | _ n ih =>
    intro hne hhead hnul
    have hsplit : subpath.takeWhile (· ≠ slash) ++ subpath.dropWhile (· ≠ slash) = subpath :=
      List.takeWhile_append_dropWhile
    have hpick : (fun e : RomfsDirent => decide (rtStrncmp (subpath.takeWhile (· ≠ slash)).length e.name.chars
        subpath = 0)) = fun e => decide (subpath.takeWhile (· ≠ slash) <+: e.name.chars) := by
      funext e
      have hname : 0 ∉ subpath.takeWhile (· ≠ slash) := fun h0 => hnul (List.takeWhile_subset _ h0)
      have hiff : rtStrncmp (subpath.takeWhile (· ≠ slash)).length e.name.chars
          (subpath.takeWhile (· ≠ slash) ++ subpath.dropWhile (· ≠ slash)) = 0 ↔
          subpath.takeWhile (· ≠ slash) <+: e.name.chars := rtStrncmp_eq_zero hname e.name.no_nul
      rw [hsplit] at hiff
      exact decide_eq_decide.2 hiff
    rw [tokens_subpath hne hhead, follow, descend, hpick]
    show (match begins d.entries (subpath.takeWhile (· ≠ slash)) with
      | none => none
      | some index => _) = _
    cases begins d.entries (subpath.takeWhile (· ≠ slash)) with
    | none => rfl
    | some index =>
      simp only [Option.bind_some]
      cases d.entries[index]? with
      | none => rfl
      | some e =>
        simp only [Option.bind_some]
        by_cases hnext : nextSubpath subpath = []
        · rw [dif_pos hnext, hnext, tokens_nil, follow]
          rfl
        · have hnul' : 0 ∉ nextSubpath subpath := fun h0 =>
            hnul ((List.dropWhile_sublist _).subset ((List.dropWhile_sublist _).subset h0))
          rw [dif_neg hnext]
          cases e with
          | file name size =>
            obtain ⟨c, cs, hcs⟩ := List.exists_cons_of_ne_nil (tokens_ne_nil hnext (head_skipSlashes _))
            rw [hcs, follow]
            rfl
          | dir name entries =>
            have hrec := ih (nextSubpath subpath).length (by rw [← hlen]; exact nextSubpath_lt hne)
              (d := .dir name entries) rfl hnext (head_skipSlashes _) hnul'
            exact congrArg (Option.map fun r => (index :: r.1, r.2)) hrec

/-- An entry that is found and has the name is the first one with it. -/
theorem named_of_begins (h : begins entries c = some index) (he : entries[index]? = some e)
    (hname : e.name.chars = c) : named entries c = some index := by
  obtain ⟨hlt, -, hbefore⟩ := List.findIdx?_eq_some_iff_getElem.1 h
  refine List.findIdx?_eq_some_iff_getElem.2 ⟨hlt, ?_, fun j hj heq => hbefore j hj ?_⟩
  · rw [(List.getElem_eq_iff hlt).2 he]
    exact decide_eq_true hname
  · exact decide_eq_true (of_decide_eq_true heq ▸ List.prefix_rfl)

theorem named_of_begins_none (h : begins entries c = none) : named entries c = none := by
  rw [begins, List.findIdx?_eq_none_iff] at h
  rw [named, List.findIdx?_eq_none_iff]
  intro e he
  refine decide_eq_false fun heq => of_decide_eq_false (h e he) ?_
  rw [heq]

/-- The entry of a name has it. -/
theorem name_of_named (h : named entries c = some index) (he : entries[index]? = some e) :
    e.name.chars = c := by
  obtain ⟨hlt, hname, -⟩ := List.findIdx?_eq_some_iff_getElem.1 h
  rw [(List.getElem_eq_iff hlt).2 he] at hname
  exact of_decide_eq_true hname

/-- If no longer name is met, both ways are the same. -/
theorem follow_eq : ∀ {cs : List (List UInt8)} {d : RomfsDirent}, ¬ Strays d cs →
    follow begins d cs = follow named d cs
  | [], _, _ => rfl
  | c :: cs, d, h => by
    rw [follow, follow]
    cases hbegins : begins d.entries c with
    | none =>
      rw [named_of_begins_none hbegins]
      rfl
    | some index =>
      obtain ⟨hlt, -⟩ := List.findIdx?_eq_some_iff_getElem.1 hbegins
      have he : d.entries[index]? = some d.entries[index] := List.getElem?_eq_getElem hlt
      have hname : d.entries[index].name.chars = c := by
        by_contra hne
        exact h ⟨index, _, hbegins, he, .inl hne⟩
      have hrest : ¬ Strays d.entries[index] cs := fun hstrays => h ⟨index, _, hbegins, he, .inr hstrays⟩
      rw [named_of_begins hbegins he hname, Option.bind_some, Option.bind_some, he, Option.bind_some,
        Option.bind_some, follow_eq hrest]

/-- If a longer name is met, both ways are the same only if they lead nowhere. -/
theorem follow_none : ∀ {cs : List (List UInt8)} {d : RomfsDirent}, Strays d cs →
    follow begins d cs = follow named d cs → follow begins d cs = none
  | [], _, h, _ => h.elim
  | c :: cs, d, ⟨index, e, hbegins, he, h⟩, heq => by
    rw [follow, follow, hbegins, Option.bind_some, he, Option.bind_some] at heq
    rw [follow, hbegins, Option.bind_some, he, Option.bind_some]
    by_cases hname : e.name.chars = c
    · have hstrays : Strays e cs := h.resolve_left (not_not.2 hname)
      rw [named_of_begins hbegins he hname, Option.bind_some, he, Option.bind_some] at heq
      have hsame : follow begins e cs = follow named e cs := by
        refine Option.map_injective (fun r r' hr => ?_) heq
        exact Prod.ext (List.cons.inj (Prod.mk.inj hr).1).2 (Prod.mk.inj hr).2
      rw [follow_none hstrays hsame, Option.map_none]
    · rw [Option.map_eq_none_iff]
      by_contra hsome
      obtain ⟨r, hr⟩ := Option.ne_none_iff_exists'.1 hsome
      rw [hr, Option.map_some] at heq
      obtain ⟨j, hnamed, hj⟩ := Option.bind_eq_some_iff.1 heq.symm
      obtain ⟨e', he', hmap⟩ := Option.bind_eq_some_iff.1 hj
      obtain ⟨r', -, hr'⟩ := Option.map_eq_some_iff.1 hmap
      obtain rfl : j = index := (List.cons.inj (Prod.mk.inj hr').1).1
      obtain rfl : e' = e := Option.some.inj (he'.symm.trans he)
      exact hname (name_of_named hnamed he')

/-- The lookup goes where the beginnings of the names lead. -/
theorem lookup_eq {path : CString} (h : tokens slash path.chars ≠ []) :
    dfsRomfsLookup d path = follow begins d (tokens slash path.chars) := by
  have hroot : path.chars ≠ [slash] := by
    intro heq
    rw [heq, tokens_sep, tokens_nil] at h
    exact h rfl
  have hne : skipSlashes path.chars ≠ [] := by
    intro hnil
    rw [← tokens_skipSlashes, hnil, tokens_nil] at h
    exact h rfl
  have hnul : 0 ∉ skipSlashes path.chars := fun h0 =>
    path.no_nul ((List.dropWhile_sublist _).subset h0)
  rw [dfsRomfsLookup, if_neg hroot, descend_eq hne (head_skipSlashes _) hnul, tokens_skipSlashes]

/-- Without a name, the lookup leads to the first entry. -/
theorem lookup_slashes {path : CString} (h : tokens slash path.chars = []) (hroot : path.chars ≠ [slash]) :
    dfsRomfsLookup d path ≠ some ([], d.size) := by
  have hnil : skipSlashes path.chars = [] := by
    by_contra hne
    exact tokens_ne_nil hne (head_skipSlashes _) ((tokens_skipSlashes _).trans h)
  rw [dfsRomfsLookup, if_neg hroot, hnil, descend]
  split
  · exact (Option.some_ne_none _).symm
  · split
    · exact (Option.some_ne_none _).symm
    · split_ifs with hnext
      · simp
      · exact absurd rfl hnext

end Lookup

/-- CORRECT: the lookup returns the entry that the names of the path lead to, with its size, exactly if the
    path is the root or has a name, and no longer name is met on the way, or nothing is found either
    way. -/
theorem romfs_lookup_iff (rootDirent : RomfsDirent) (path : CString) :
    dfsRomfsLookup rootDirent path = follow named rootDirent (tokens slash path.chars) ↔
      path.chars = [slash] ∨ tokens slash path.chars ≠ [] ∧
        (¬ Strays rootDirent (tokens slash path.chars) ∨
          follow begins rootDirent (tokens slash path.chars) = none ∧
            follow named rootDirent (tokens slash path.chars) = none) := by
  by_cases hroot : path.chars = [slash]
  · refine iff_of_true ?_ (.inl hroot)
    rw [dfsRomfsLookup, if_pos hroot, hroot, tokens_sep, tokens_nil]
    rfl
  · rw [or_iff_right hroot]
    by_cases hnames : tokens slash path.chars = []
    · refine iff_of_false ?_ fun h => h.1 hnames
      rw [hnames, follow]
      exact lookup_slashes hnames hroot
    · rw [lookup_eq hnames, and_iff_right hnames]
      constructor
      · intro heq
        by_cases hstrays : Strays rootDirent (tokens slash path.chars)
        · have hnone := follow_none hstrays heq
          exact .inr ⟨hnone, heq ▸ hnone⟩
        · exact .inl hstrays
      · rintro (hstrays | ⟨hbegins, hnamed⟩)
        · exact follow_eq hstrays
        · rw [hbegins, hnamed]

/-- INCORRECT: `/a` is looked up in a root with the entries `ab` and `a`, and the first one is returned. -/
theorem longer_name_returned : ¬ ∀ (rootDirent : RomfsDirent) (path : CString), Distinct rootDirent →
    path.chars.head? = some slash →
    dfsRomfsLookup rootDirent path = follow named rootDirent (tokens slash path.chars) := by
  intro hall
  have hdistinct : Distinct (.dir ⟨[47], by decide⟩ [.file ⟨[97, 98], by decide⟩ 1,
      .file ⟨[97], by decide⟩ 2]) := by
    refine .dir _ _ (by decide) fun e he => ?_
    simp only [List.mem_cons, List.not_mem_nil, or_false] at he
    rcases he with rfl | rfl
    · exact .file _ _
    · exact .file _ _
  have h := hall _ ⟨[47, 97], by decide⟩ hdistinct rfl
  have hnames : tokens slash [47, 97] = [[97]] := by decide +kernel
  rw [lookup_eq (by rw [hnames]; decide), hnames] at h
  exact absurd h (by decide)

end EasyCore.Dfs.Romfs
