import EasyCore.Lib.Bytes
import EasyCore.Lib.CString
import EasyCore.Lib.Paths

/-! The path of a file from a directory and a name (`dfs_normalize_path` of `dfs/src/dfs.c`). The joined
    path is rewritten in its own buffer: `src` reads a name, `dst` writes behind the ones that are kept.

        / a / . / b / .. / c ∅
        ▲     ▲              the path up to `dst` is `/a/`, a name with its slash for each entry
       dst   src             of a stack, and the root is the empty name at the bottom of it

    A `..` takes an entry away, and that may be the root. -/

namespace EasyCore.Dfs.Normalize
open Function Bytes CStr Paths Tokens

/-- `'/'` and `'.'` -/
def slash : UInt8 := 47
def dot : UInt8 := 46

/-! ### The loop -/

/-- The buffer with its two pointers. -/
structure Ptrs where
  path : ℕ → UInt8
  src : ℕ
  dst : ℕ

/-- How a turn goes on: `stop` is the `break`, `outside` an access outside of the buffer. -/
inductive Turn
  | next (p : Ptrs)
  | stop (p : Ptrs)
  | null
  | outside

section Loop
variable (size : ℕ)

/-- `while (*src == '/') src ++;` -/
def skipSlashes (path : ℕ → UInt8) (src : ℕ) : Option ℕ :=
  if src < size then if path src = slash then skipSlashes path (src + 1) else some src else none
termination_by size - src

/-- `while ((c = *src++) != '\0' && c != '/') *dst ++ = c;` -/
def copyName (p : Ptrs) : Option (Ptrs × UInt8) :=
  if p.src < size then
    if p.path p.src ≠ 0 ∧ p.path p.src ≠ slash then
      if p.dst < size then copyName ⟨update p.path p.dst (p.path p.src), p.src + 1, p.dst + 1⟩ else none
    else some (⟨p.path, p.src + 1, p.dst⟩, p.path p.src)
  else none
termination_by size - p.src

/-- `while (dst0 < dst && dst[-1] != '/') dst --;` -/
def upName (path : ℕ → UInt8) : ℕ → Option ℕ
  | 0 => some 0
  | dst + 1 =>
    if dst < size then if path dst ≠ slash then upName path dst else some (dst + 1) else none

/-- `up_one` -/
def upOne (p : Ptrs) : Turn :=
  match p.dst with
  | 0 => .null
  | dst + 1 =>
    match upName size p.path dst with
    | none => .outside
    | some dst => .next { p with dst }

/-- A name is copied up to its slash, and all slashes are skipped. -/
def copyTurn (p : Ptrs) : Turn :=
  match copyName size p with
  | none => .outside
  | some (p, c) =>
    if c = slash then
      if p.dst < size then
        match skipSlashes size (update p.path p.dst slash) p.src with
        | none => .outside
        | some src => .next ⟨update p.path p.dst slash, src, p.dst + 1⟩
      else .outside
    else .stop p

/-- A turn of the loop. -/
def turn (p : Ptrs) : Turn :=
  if size ≤ p.src then .outside
  else if p.path p.src ≠ dot then copyTurn size p
  else if size ≤ p.src + 1 then .outside
  -- `.` at the end, and `./`
  else if p.path (p.src + 1) = 0 then copyTurn size { p with src := p.src + 1 }
  else if p.path (p.src + 1) = slash then
    match skipSlashes size p.path (p.src + 2) with
    | none => .outside
    | some src => .next { p with src }
  else if p.path (p.src + 1) ≠ dot then copyTurn size p
  else if size ≤ p.src + 2 then .outside
  -- `..` at the end, and `../`
  else if p.path (p.src + 2) = 0 then upOne size { p with src := p.src + 2 }
  else if p.path (p.src + 2) = slash then
    match skipSlashes size p.path (p.src + 3) with
    | none => .outside
    | some src => upOne size { p with src }
  else copyTurn size p

variable {size} {path : ℕ → UInt8} {p p' : Ptrs} {src src' : ℕ}

theorem skipSlashes_le (h : skipSlashes size path src = some src') : src ≤ src' := by
  fun_induction skipSlashes size path src with
  | case1 src hlt hslash ih => exact (Nat.le_succ src).trans (ih h)
  | case2 src hlt hslash => exact (Option.some.inj h).le
  | case3 src hlt => cases h

theorem copyName_lt {c : UInt8} (h : copyName size p = some (p', c)) : p.src < p'.src := by
  fun_induction copyName size p with
  | case1 p hlt hc hdst ih => exact (Nat.lt_succ_self p.src).trans (ih h)
  | case2 p hlt hc hdst => cases h
  | case3 p hlt hc =>
    cases h
    exact Nat.lt_succ_self p.src
  | case4 p hlt => cases h

theorem upOne_src (h : upOne size p = .next p') : p'.src = p.src := by
  unfold upOne at h
  split at h
  · cases h
  · split at h
    · cases h
    · cases h
      rfl

theorem copyTurn_lt (h : copyTurn size p = .next p') : p.src < p'.src := by
  unfold copyTurn at h
  split at h
  · cases h
  · rename_i q c hcopy
    have hlt := copyName_lt hcopy
    split at h
    · split at h
      · split at h
        · cases h
        · rename_i src hskip
          cases h
          exact hlt.trans_le (skipSlashes_le hskip)
      · cases h
    · cases h

/-- Every turn reads something. -/
theorem turn_lt (h : turn size p = .next p') : p.src < size ∧ p.src < p'.src := by
  unfold turn at h
  split at h
  · cases h
  · rename_i hlt
    refine ⟨not_le.1 hlt, ?_⟩
    split at h
    · exact copyTurn_lt h
    · split at h
      · cases h
      · split at h
        -- `.` at the end, and `./`
        · exact (Nat.lt_succ_self p.src).trans (copyTurn_lt h)
        · split at h
          · split at h
            · cases h
            · rename_i src hskip
              cases h
              have hle := skipSlashes_le hskip
              show p.src < src
              omega
          · split at h
            · exact copyTurn_lt h
            · split at h
              · cases h
              · split at h
                -- `..` at the end, and `../`
                · have hsrc : p'.src = p.src + 2 := upOne_src h
                  omega
                · split at h
                  · split at h
                    · cases h
                    · rename_i src hskip
                      have hle := skipSlashes_le hskip
                      have hsrc : p'.src = src := upOne_src h
                      omega
                  · exact copyTurn_lt h

end Loop

/-- The loop, to its `break` or `return`. -/
def loop (size : ℕ) (p : Ptrs) : Turn :=
  match _ : turn size p with
  | .next p' => loop size p'
  | .stop p' => .stop p'
  | .null => .null
  | .outside => .outside
termination_by size - p.src
decreasing_by
  rename_i h
  have hlt := turn_lt h
  omega

/-! ### The function -/

/-- The string in a buffer. -/
def stringOf (path : ℕ → UInt8) (size : ℕ) : CString :=
  ⟨(stretch path 0 size).takeWhile (· ≠ 0), fun h => by simpa using List.mem_takeWhile_imp h⟩

/-- What the function returns, or that it accesses memory outside of its buffer. -/
inductive Result
  | path (s : CString)
  | null
  | outside
  deriving DecidableEq

/-- The path is terminated, and a slash at its end is removed if it is not the first character. -/
def finish (size : ℕ) (p : Ptrs) : Result :=
  if size ≤ p.dst then .outside
  else
    let path := update p.path p.dst 0
    match p.dst with
    -- `*dst` of a pointer in front of `fullpath`
    | 0 => .outside
    | dst + 1 =>
      if dst ≠ 0 ∧ path dst = slash then .path (stringOf (update path dst 0) size)
      else .path (stringOf path size)

/-- A path in its buffer. -/
def normalize (chars : List UInt8) : Result :=
  match loop (chars.length + 1) ⟨fun i => chars.getD i 0, 0, 0⟩ with
  | .stop p => finish (chars.length + 1) p
  | .null => .null
  | _ => .outside

/-- The directory and the name with a slash between them, or the name alone if it starts with one. -/
def joined (directory filename : CString) : List UInt8 :=
  if filename.chars.head? = some slash then filename.chars
  else directory.chars ++ slash :: filename.chars

/-- `dfs_normalize_path`: there is a working directory with `DFS_USING_WORKDIR`, and `memory` says whether
    the heap has some for the path. -/
def dfsNormalizePath (workingDirectory : Option CString) (memory : Bool) (directory : Option CString)
    (filename : CString) : Result :=
  match directory.or workingDirectory with
  | none =>
    if filename.chars.head? ≠ some slash then .null
    else if memory then normalize filename.chars else .null
  | some directory => if memory then normalize (joined directory filename) else .null

/-! ### What the buffer holds -/

/-- The buffer up to `dst` is the stack, and from `src` to its end at `e` it is still to be read. -/
structure Inv (e : ℕ) (p : Ptrs) (st : List (List UInt8)) : Prop where
  src_le : p.src ≤ e
  dst_le : p.dst ≤ p.src
  nul : p.path e = 0
  no_nul : 0 ∉ stretch p.path p.src e
  written : stretch p.path 0 p.dst = flat slash st
  names : ∀ n ∈ st, slash ∉ n ∧ 0 ∉ n

/-- What is still to be read. -/
def rest (e : ℕ) (p : Ptrs) : List UInt8 := stretch p.path p.src e

section Spec
variable {e : ℕ} {path : ℕ → UInt8} {p : Ptrs} {src dst : ℕ} {st : List (List UInt8)} {n : List UInt8}

theorem skipSlashes_spec (src : ℕ) (hnul : path e = 0) (hsrc : src ≤ e) :
    ∃ src', skipSlashes (e + 1) path src = some src' ∧ src ≤ src' ∧ src' ≤ e ∧
      stretch path src' e = (stretch path src e).dropWhile (· = slash) := by
  fun_induction skipSlashes (e + 1) path src with
  | case1 src hlt hslash ih =>
    have hne : src ≠ e := fun heq => by
      rw [heq, hnul] at hslash
      exact absurd hslash (by decide)
    obtain ⟨src', hskip, hle, he, hrest⟩ := ih (by omega)
    refine ⟨src', hskip, by omega, he, ?_⟩
    rw [stretch_cons (p := src) (by omega), List.dropWhile_cons_of_pos (by simpa using hslash), hrest]
  | case2 src hlt hslash =>
    refine ⟨src, rfl, le_rfl, hsrc, ?_⟩
    rcases hsrc.lt_or_eq with hlt' | rfl
    · rw [stretch_cons hlt', List.dropWhile_cons_of_neg (by simpa using hslash)]
    · rw [stretch_nil le_rfl]
      rfl
  | case3 src hlt => omega

/-- The name in front of the next slash is copied. -/
theorem copyName_spec (hnul : p.path e = 0) (hsrc : p.src ≤ e) (hdst : p.dst ≤ p.src)
    (hno : 0 ∉ stretch p.path p.src e) :
    ∃ path' k, k ≤ e ∧ p.src ≤ k ∧
      copyName (e + 1) p = some (⟨path', k + 1, p.dst + (k - p.src)⟩, p.path k) ∧
      (∀ i, i < p.dst ∨ k ≤ i → path' i = p.path i) ∧
      stretch path' p.dst (p.dst + (k - p.src)) = stretch p.path p.src k ∧
      slash ∉ stretch p.path p.src k ∧ (k < e → p.path k = slash) := by
  fun_induction copyName (e + 1) p with
  | case1 p hlt hc hdst' ih =>
    have hlt' : p.src < e := by
      rcases hsrc.lt_or_eq with hlt' | heq
      · exact hlt'
      · exact absurd (heq ▸ hnul) hc.1
    have hsame : ∀ i, p.dst < i → update p.path p.dst (p.path p.src) i = p.path i := fun i hi =>
      update_of_ne (by omega) _ _
    have hrest : stretch (update p.path p.dst (p.path p.src)) (p.src + 1) e =
        stretch p.path (p.src + 1) e := stretch_update (.inl (by omega))
    rw [stretch_cons hlt', List.mem_cons, not_or] at hno
    obtain ⟨path', k, hk, hle, hcopy, hout, hname, hslash, hend⟩ :=
      ih ((hsame e (by omega)).trans hnul) (by exact hlt') (by exact Nat.succ_le_succ hdst)
        (by rw [hrest]; exact hno.2)
    simp only at hle hcopy hout hname hslash hend
    have hlen : p.dst + (k - p.src) = p.dst + 1 + (k - (p.src + 1)) := by omega
    refine ⟨path', k, hk, by omega, ?_, ?_, ?_, ?_, ?_⟩
    · rw [hcopy, hlen, hsame k (by omega)]
    · intro i hi
      have hne : i ≠ p.dst := by omega
      rw [hout i (by omega), update_of_ne hne]
    · have hfirst : path' p.dst = p.path p.src := by
        rw [hout p.dst (.inl (Nat.lt_succ_self _)), update_self]
      rw [hlen, stretch_cons (p := p.dst) (by omega), hname, hfirst, stretch_cons (p := p.src) (by omega)]
      exact congrArg _ (stretch_congr fun i hi _ => hsame i (by omega))
    · rw [stretch_cons (p := p.src) (by omega), List.mem_cons, not_or,
        ← stretch_congr fun i hi _ => hsame i (by omega)]
      exact ⟨fun heq => hc.2 heq.symm, hslash⟩
    · intro hlt''
      rw [← hsame k (by omega)]
      exact hend hlt''
  | case2 p hlt hc hdst' => omega
  | case3 p hlt hc =>
    refine ⟨p.path, p.src, hsrc, le_rfl, by simp, fun i _ => rfl, by simp [stretch_nil], ?_, ?_⟩
    · rw [stretch_nil le_rfl]
      exact List.not_mem_nil
    · intro hlt'
      by_contra hne
      refine hc ⟨fun h0 => hno (mem_stretch.2 ⟨p.src, le_rfl, hlt', h0⟩), hne⟩
  | case4 p hlt => omega

theorem upName_spec {size first : ℕ} (hle : first ≤ dst) (hsize : dst ≤ size)
    (hslash : ∀ i, first ≤ i → i < dst → path i ≠ slash)
    (hfirst : first = 0 ∨ path (first - 1) = slash) : upName size path dst = some first := by
  induction dst with
  | zero => rw [upName, Nat.le_zero.1 hle]
  | succ dst ih =>
    rw [upName, if_pos (Nat.lt_of_succ_le hsize)]
    rcases hle.lt_or_eq with hlt | rfl
    · rw [if_pos (hslash dst (Nat.lt_succ_iff.1 hlt) (Nat.lt_succ_self dst))]
      exact ih (Nat.lt_succ_iff.1 hlt) (Nat.le_of_succ_le hsize)
        fun i hi hi' => hslash i hi (Nat.lt_succ_of_lt hi')
    · rcases hfirst with hfirst | hfirst
      · cases hfirst
      · rw [Nat.add_sub_cancel] at hfirst
        rw [if_neg (not_not.2 hfirst)]

/-- A stack is written with a slash at its end. -/
theorem flat_last (h : stretch path 0 dst = flat slash st) : dst = 0 ∨ path (dst - 1) = slash := by
  cases st with
  | nil =>
    left
    rw [← Nat.sub_zero dst, ← stretch_length path 0 dst, h]
    rfl
  | cons n st =>
    right
    have hlen : dst = (flat slash st ++ n).length + 1 := by
      rw [← Nat.sub_zero dst, ← stretch_length path 0 dst, h, flat, List.length_append]
      rfl
    obtain ⟨-, hlast⟩ := stretch_eq_append h
    rw [zero_add, stretch_cons (by omega)] at hlast
    rw [hlen, Nat.add_sub_cancel]
    exact (List.cons.inj hlast).1

/-- `..` takes the last name away. -/
theorem upOne_spec (h : Inv e p (n :: st)) :
    ∃ p', upOne (e + 1) p = .next p' ∧ Inv e p' st ∧ rest e p' = rest e p := by
  obtain ⟨hsrc, hdst, hnul, hno, hwritten, hnames⟩ := h
  obtain ⟨⟨hslash, -⟩, hnames⟩ := List.forall_mem_cons.1 hnames
  have hlen : p.dst = (flat slash st).length + n.length + 1 := by
    rw [← Nat.sub_zero p.dst, ← stretch_length p.path 0 p.dst, hwritten, flat, List.length_append,
      List.length_append]
    rfl
  obtain ⟨hbelow, -⟩ := stretch_eq_append hwritten
  obtain ⟨hst, hn⟩ := stretch_eq_append hbelow
  rw [zero_add] at hst hn
  have hup : upName (e + 1) p.path ((flat slash st).length + n.length) = some (flat slash st).length := by
    refine upName_spec (Nat.le_add_right _ _) (by omega) (fun i hi hi' heq => hslash ?_) (flat_last hst)
    rw [zero_add, List.length_append] at hn
    rw [← hn]
    exact mem_stretch.2 ⟨i, hi, hi', heq⟩
  refine ⟨⟨p.path, p.src, (flat slash st).length⟩, ?_, ⟨hsrc, ?_, hnul, hno, hst, hnames⟩, rfl⟩
  · rw [upOne, hlen]
    simp only [hup]
  · show (flat slash st).length ≤ p.src
    omega

theorem upOne_nil (h : Inv e p []) : upOne (e + 1) p = .null := by
  have hlen : p.dst = 0 := by
    rw [← Nat.sub_zero p.dst, ← stretch_length p.path 0 p.dst, h.written]
    rfl
  rw [upOne, hlen]

/-- A name is added; without a slash behind it, it is the last one. -/
theorem copyTurn_spec (h : Inv e p st) :
    (slash ∉ rest e p ∧ ∃ p', copyTurn (e + 1) p = .stop p' ∧ p'.dst ≤ e ∧
      stretch p'.path 0 p'.dst = flat slash st ++ rest e p) ∨
    ∃ n r p', rest e p = n ++ slash :: r ∧ slash ∉ n ∧ copyTurn (e + 1) p = .next p' ∧
      Inv e p' (n :: st) ∧ rest e p' = r.dropWhile (· = slash) := by
  obtain ⟨hsrc, hdst, hnul, hno, hwritten, hnames⟩ := h
  obtain ⟨path', k, hk, hle, hcopy, hout, hname, hslash, hend⟩ := copyName_spec hnul hsrc hdst hno
  have hwritten' : stretch path' 0 (p.dst + (k - p.src)) = flat slash st ++ stretch p.path p.src k := by
    rw [← stretch_append (Nat.zero_le p.dst) (Nat.le_add_right _ _), hname, ← hwritten]
    exact congrArg (· ++ _) (stretch_congr fun i _ hi => hout i (.inl hi))
  rcases hk.lt_or_eq with hlt | rfl
  · right
    have hsame : ∀ i, k < i → update path' (p.dst + (k - p.src)) slash i = p.path i := fun i hi => by
      rw [update_of_ne (by omega), hout i (by omega)]
    have hrest : stretch (update path' (p.dst + (k - p.src)) slash) (k + 1) e =
        stretch p.path (k + 1) e := stretch_congr fun i hi _ => hsame i hi
    have hsplit : rest e p = stretch p.path p.src k ++ slash :: stretch p.path (k + 1) e := by
      rw [rest, ← stretch_append hle hk, stretch_cons hlt, hend hlt]
    have hnul' : update path' (p.dst + (k - p.src)) slash e = 0 := by rw [hsame e hlt, hnul]
    obtain ⟨src', hskip, hsrc', hsrc'', hdrop⟩ := skipSlashes_spec (k + 1) hnul' hlt
    rw [hrest] at hdrop
    refine ⟨_, _, ⟨update path' (p.dst + (k - p.src)) slash, src', p.dst + (k - p.src) + 1⟩, hsplit, hslash,
      ?_, ?_, hdrop⟩
    · rw [copyTurn, hcopy]
      simp only [hend hlt, if_true, if_pos (show p.dst + (k - p.src) < e + 1 by omega), hskip]
    · refine ⟨hsrc'', by show p.dst + (k - p.src) + 1 ≤ src'; omega, hnul',
        ?_, ?_, List.forall_mem_cons.2 ⟨⟨hslash, ?_⟩, hnames⟩⟩
      · show 0 ∉ stretch (update path' (p.dst + (k - p.src)) slash) src' e
        rw [hdrop]
        intro hmem
        refine hno ?_
        show 0 ∈ rest e p
        rw [hsplit]
        exact List.mem_append_right _ (List.mem_cons_of_mem _ ((List.dropWhile_sublist _).subset hmem))
      · show stretch (update path' (p.dst + (k - p.src)) slash) 0 (p.dst + (k - p.src) + 1) = _
        rw [← stretch_append (Nat.zero_le (p.dst + (k - p.src))) (Nat.le_succ _),
          stretch_update (.inr le_rfl), hwritten', stretch_cons (Nat.lt_succ_self _), update_self,
          stretch_nil le_rfl]
        rfl
      · intro hmem
        refine hno ?_
        show 0 ∈ rest e p
        rw [hsplit]
        exact List.mem_append_left _ hmem
  · left
    refine ⟨hslash, ⟨path', k + 1, p.dst + (k - p.src)⟩, ?_, by show p.dst + (k - p.src) ≤ k; omega,
      hwritten'⟩
    rw [copyTurn, hcopy]
    simp only [hnul]
    rfl

/-- The text has been read, and its names have done this to the stack. -/
def Done (e : ℕ) (st : List (List UInt8)) (t : List UInt8) (r : Turn) : Prop :=
  (∃ p st', r = .stop p ∧ p.dst ≤ e ∧ resolve dot st (tokens slash t) = some st' ∧
    Ends slash (stretch p.path 0 p.dst) st' ∧ 0 ∉ stretch p.path 0 p.dst) ∨
  (r = .null ∧ resolve dot st (tokens slash t) = none)

/-- A turn does to the stack what the name does that it reads. -/
def Goes (e : ℕ) (st : List (List UInt8)) (t : List UInt8) (r : Turn) : Prop :=
  Done e st t r ∨
  ∃ p st', r = .next p ∧ Inv e p st' ∧ (rest e p).head? ≠ some slash ∧
    resolve dot st (tokens slash t) = resolve dot st' (tokens slash (rest e p))

theorem flat_no_nul : ∀ {st : List (List UInt8)}, (∀ n ∈ st, slash ∉ n ∧ 0 ∉ n) → 0 ∉ flat slash st
  | [], _ => List.not_mem_nil
  | n :: st, h => by
    obtain ⟨⟨-, hn⟩, hst⟩ := List.forall_mem_cons.1 h
    have hslash : (0 : UInt8) ≠ slash := by decide
    simp only [flat, List.mem_append, List.mem_singleton, not_or]
    exact ⟨⟨flat_no_nul hst, hn⟩, hslash⟩

theorem head_dropWhile_ne (r : List UInt8) : (r.dropWhile (· = slash)).head? ≠ some slash := by
  intro h
  have hnot := List.head?_dropWhile_not (fun c => decide (c = slash)) r
  rw [h] at hnot
  simp at hnot

/-- A name that is copied stands for itself. -/
theorem goes_plain {c : UInt8} {t : List UInt8} (h : Inv e p st) (hrest : rest e p = c :: t)
    (hc : c ≠ slash) (hdot : (c :: t).takeWhile (· ≠ slash) ≠ [dot])
    (hdots : (c :: t).takeWhile (· ≠ slash) ≠ [dot, dot]) :
    Goes e st (rest e p) (copyTurn (e + 1) p) := by
  rcases copyTurn_spec h with ⟨hslash, p', hturn, hdst, hcontent⟩ |
    ⟨n, r, p', hsplit, hslash, hturn, hinv, hdrop⟩
  · have htake : (c :: t).takeWhile (· ≠ slash) = c :: t := by
      refine List.takeWhile_eq_self_iff.2 fun a ha => decide_eq_true fun heq => ?_
      rw [hrest] at hslash
      exact hslash (heq ▸ ha)
    rw [htake] at hdot hdots
    have hno : 0 ∉ stretch p'.path 0 p'.dst := by
      rw [hcontent, List.mem_append, not_or]
      exact ⟨flat_no_nul h.names, h.no_nul⟩
    rw [hrest] at hslash hcontent ⊢
    refine .inl (.inl ⟨p', (c :: t) :: st, hturn, hdst, ?_, .inr ⟨c :: t, st, rfl, List.cons_ne_nil c t,
      hslash, hcontent⟩, hno⟩)
    rw [tokens_name (List.cons_ne_nil c t) hslash, resolve_plain hdot hdots, resolve]
  · have hne : n ≠ [] := by
      rintro rfl
      rw [hrest] at hsplit
      exact hc (List.cons.inj hsplit).1
    have htake : (c :: t).takeWhile (· ≠ slash) = n := by
      rw [← hrest, hsplit, List.takeWhile_append_of_pos, List.takeWhile_cons_of_neg (by simp),
        List.append_nil]
      exact fun a ha => decide_eq_true fun heq => hslash (heq ▸ ha)
    rw [htake] at hdot hdots
    refine .inr ⟨p', n :: st, hturn, hinv, ?_, ?_⟩
    · rw [hdrop]
      exact head_dropWhile_ne r
    · rw [hsplit, tokens_append hne hslash, resolve_plain hdot hdots, hdrop, tokens_dropWhile]

/-- The end of the text, after a slash or a `.`. -/
theorem goes_end {t : List UInt8} (h : Inv e p st) (hrest : rest e p = [])
    (ht : resolve dot st (tokens slash t) = some st) : Goes e st t (copyTurn (e + 1) p) := by
  rcases copyTurn_spec h with ⟨-, p', hturn, hdst, hcontent⟩ | ⟨n, r, p', hsplit, -⟩
  · rw [hrest, List.append_nil] at hcontent
    exact .inl (.inl ⟨p', st, hturn, hdst, ht, .inl hcontent, hcontent ▸ flat_no_nul h.names⟩)
  · rw [hrest] at hsplit
    simp at hsplit

theorem goes_up {t : List UInt8} (h : Inv e p st) (hhead : (rest e p).head? ≠ some slash)
    (ht : tokens slash t = [dot, dot] :: tokens slash (rest e p)) : Goes e st t (upOne (e + 1) p) := by
  have hdot : [dot, dot] ≠ [dot] := by decide
  rw [Goes, Done, ht, resolve, if_neg hdot, if_pos rfl]
  cases st with
  | nil => exact .inl (.inr ⟨upOne_nil h, rfl⟩)
  | cons n st =>
    obtain ⟨p', hup, hinv, hrest⟩ := upOne_spec h
    rw [if_neg (List.cons_ne_nil n st), List.tail_cons]
    exact .inr ⟨p', st, hup, hinv, hrest ▸ hhead, by rw [hrest]⟩

/-- What is skipped has been read. -/
theorem Inv.skip (h : Inv e p st) (hle : p.src ≤ src) (he : src ≤ e) : Inv e { p with src } st := by
  refine ⟨he, h.dst_le.trans hle, h.nul, fun hmem => h.no_nul ?_, h.written, h.names⟩
  obtain ⟨i, hi, hi', h0⟩ := mem_stretch.1 hmem
  exact mem_stretch.2 ⟨i, hle.trans hi, hi', h0⟩

theorem turn_spec (h : Inv e p st) (hhead : (rest e p).head? ≠ some slash) :
    Goes e st (rest e p) (turn (e + 1) p) := by
  have hno : ∀ i, p.src ≤ i → i < e → p.path i ≠ 0 := fun i hi hi' h0 =>
    h.no_nul (mem_stretch.2 ⟨i, hi, hi', h0⟩)
  have hsrc := h.src_le
  have hcons : ∀ i, i < e → stretch p.path i e = p.path i :: stretch p.path (i + 1) e :=
    fun i hi => stretch_cons hi
  rw [turn, if_neg (by omega)]
  by_cases hdot : p.path p.src = dot
  · have hlt : p.src < e := by
      refine hsrc.lt_of_ne fun heq => ?_
      rw [heq, h.nul] at hdot
      exact absurd hdot (by decide)
    have hrest : rest e p = dot :: stretch p.path (p.src + 1) e := by rw [rest, hcons _ hlt, hdot]
    rw [if_neg (not_not.2 hdot), if_neg (by omega)]
    by_cases hlast : p.src + 1 = e
    · rw [if_pos (hlast ▸ h.nul)]
      refine goes_end (h.skip (Nat.le_succ _) hlt) (stretch_nil hlast.ge) ?_
      rw [hrest, stretch_nil hlast.ge, tokens_name (List.cons_ne_nil _ _) (by decide), resolve, if_pos rfl,
        resolve]
    · have hlt' : p.src + 1 < e := by omega
      rw [if_neg (hno _ (Nat.le_succ _) hlt')]
      rw [hcons _ hlt'] at hrest
      by_cases hslash : p.path (p.src + 1) = slash
      · obtain ⟨src', hskip, hle, he, hdrop⟩ := skipSlashes_spec (p.src + 2) h.nul hlt'
        rw [if_pos hslash, hskip]
        refine .inr ⟨{ p with src := src' }, st, rfl, h.skip (by omega) he, ?_, ?_⟩
        · rw [rest, hdrop]
          exact head_dropWhile_ne _
        · have htokens : tokens slash (rest e p) = [dot] :: tokens slash (stretch p.path (p.src + 2) e) := by
            rw [hrest, hslash]
            exact tokens_append (n := [dot]) (List.cons_ne_nil _ _) (by decide)
          rw [htokens, resolve, if_pos rfl, rest, hdrop, tokens_dropWhile]
      · rw [if_neg hslash]
        by_cases hdot' : p.path (p.src + 1) = dot
        · rw [if_neg (not_not.2 hdot'), if_neg (by omega)]
          rw [hdot'] at hrest
          by_cases hlast' : p.src + 2 = e
          · rw [if_pos (hlast' ▸ h.nul)]
            have hnil : stretch p.path (p.src + 2) e = [] := stretch_nil hlast'.ge
            refine goes_up (h.skip (by omega) (by omega)) ?_ ?_
            · rw [rest, hnil]
              simp
            · rw [rest, rest, hnil, tokens_nil, ← rest, hrest, hnil,
                tokens_name (List.cons_ne_nil _ _) (by decide)]
          · have hlt'' : p.src + 2 < e := by omega
            rw [if_neg (hno _ (by omega) hlt'')]
            rw [hcons _ hlt''] at hrest
            by_cases hslash' : p.path (p.src + 2) = slash
            · obtain ⟨src', hskip, hle, he, hdrop⟩ := skipSlashes_spec (p.src + 3) h.nul hlt''
              rw [if_pos hslash', hskip]
              refine goes_up (h.skip (by omega) he) ?_ ?_
              · rw [rest, hdrop]
                exact head_dropWhile_ne _
              · rw [rest, rest, hdrop, tokens_dropWhile, ← rest, hrest, hslash']
                exact tokens_append (n := [dot, dot]) (List.cons_ne_nil _ _) (by decide)
            · rw [if_neg hslash']
              have htake : (dot :: dot :: p.path (p.src + 2) :: stretch p.path (p.src + 2 + 1) e).takeWhile
                  (· ≠ slash) = dot :: dot :: p.path (p.src + 2) ::
                    (stretch p.path (p.src + 2 + 1) e).takeWhile (· ≠ slash) := by
                rw [List.takeWhile_cons_of_pos (by decide), List.takeWhile_cons_of_pos (by decide),
                  List.takeWhile_cons_of_pos (by simpa using hslash')]
              exact goes_plain h hrest (by decide) (by rw [htake]; simp) (by rw [htake]; simp)
        · rw [if_pos hdot']
          have htake : (dot :: p.path (p.src + 1) :: stretch p.path (p.src + 1 + 1) e).takeWhile
              (· ≠ slash) = dot :: p.path (p.src + 1) ::
                (stretch p.path (p.src + 1 + 1) e).takeWhile (· ≠ slash) := by
            rw [List.takeWhile_cons_of_pos (by decide), List.takeWhile_cons_of_pos (by simpa using hslash)]
          exact goes_plain h hrest (by decide) (by rw [htake]; simp) (by rw [htake]; simp [hdot'])
  · rw [if_pos hdot]
    rcases hsrc.lt_or_eq with hlt | heq
    · have hrest : rest e p = p.path p.src :: stretch p.path (p.src + 1) e := hcons _ hlt
      have hslash : p.path p.src ≠ slash := fun hslash => hhead (by rw [hrest, hslash]; rfl)
      have htake : (p.path p.src :: stretch p.path (p.src + 1) e).takeWhile (· ≠ slash) =
          p.path p.src :: (stretch p.path (p.src + 1) e).takeWhile (· ≠ slash) :=
        List.takeWhile_cons_of_pos (by simpa using hslash)
      exact goes_plain h hrest hslash (by rw [htake]; simp [hdot]) (by rw [htake]; simp [hdot])
    · have hnil : rest e p = [] := stretch_nil heq.ge
      rw [hnil]
      exact goes_end h hnil (by rw [tokens_nil, resolve])

theorem loop_spec (h : Inv e p st) (hhead : (rest e p).head? ≠ some slash) :
    Done e st (rest e p) (loop (e + 1) p) := by
  fun_induction loop (e + 1) p generalizing st with
  | case1 p p' hturn ih =>
    rcases turn_spec h hhead with hdone | ⟨q, st', hnext, hinv, hhead', hresolve⟩
    · rw [hturn] at hdone
      rcases hdone with ⟨q, st', hstop, -⟩ | ⟨hnull, -⟩
      · cases hstop
      · cases hnull
    · rw [hturn] at hnext
      cases hnext
      have hdone := ih hinv hhead'
      rwa [Done, ← hresolve] at hdone
  | case2 p p' hturn =>
    rcases turn_spec h hhead with hdone | ⟨q, st', hnext, -⟩
    · rwa [hturn] at hdone
    · rw [hturn] at hnext
      cases hnext
  | case3 p hturn =>
    rcases turn_spec h hhead with hdone | ⟨q, st', hnext, -⟩
    · rwa [hturn] at hdone
    · rw [hturn] at hnext
      cases hnext
  | case4 p hturn =>
    rcases turn_spec h hhead with hdone | ⟨q, st', hnext, -⟩
    · rwa [hturn] at hdone
    · rw [hturn] at hnext
      cases hnext

theorem loop_next {size : ℕ} {p' : Ptrs} (h : turn size p = .next p') : loop size p = loop size p' := by
  rw [loop]
  split
  · rename_i hturn
    rw [h] at hturn
    cases hturn
    rfl
  all_goals
    rename_i hturn
    rw [h] at hturn
    cases hturn

variable {chars : List UInt8}

theorem stretch_getD : ∀ chars : List UInt8, stretch (fun i => chars.getD i 0) 0 chars.length = chars := by
  intro chars
  refine List.ext_getElem (by rw [stretch_length, Nat.sub_zero]) fun i hi hi' => ?_
  simp [stretch, List.getElem?_eq_getElem hi']

/-- The first turn writes the root. -/
theorem normalize_done (hhead : chars.head? = some slash) (hno : 0 ∉ chars) :
    Done chars.length [[]] chars (loop (chars.length + 1) ⟨fun i => chars.getD i 0, 0, 0⟩) := by
  obtain ⟨t, rfl⟩ := List.head?_eq_some_iff.1 hhead
  generalize he : (slash :: t).length = e
  let p : Ptrs := ⟨fun i => (slash :: t).getD i 0, 0, 0⟩
  have hrest : rest e p = slash :: t := by
    rw [← he]
    exact stretch_getD _
  have hinv : Inv e p [] := by
    refine ⟨Nat.zero_le e, le_rfl, ?_, by rw [← hrest] at hno; exact hno, stretch_nil le_rfl,
      fun n hn => absurd hn List.not_mem_nil⟩
    rw [← he]
    exact List.getD_eq_default _ _ le_rfl
  have hturn : turn (e + 1) p = copyTurn (e + 1) p := by
    rw [turn, if_neg (by show ¬ e + 1 ≤ 0; omega), if_pos (by show slash ≠ dot; decide)]
  rcases copyTurn_spec hinv with ⟨hslash, -⟩ | ⟨n, r, p', hsplit, hslash, hnext, hinv', hdrop⟩
  · rw [hrest] at hslash
    exact absurd List.mem_cons_self hslash
  · rw [hrest] at hsplit
    cases n with
    | cons c n =>
      rw [List.cons_append] at hsplit
      exact absurd ((List.cons.inj hsplit).1 ▸ List.mem_cons_self) hslash
    | nil =>
      obtain rfl := (List.cons.inj hsplit).2
      have hdone := loop_spec hinv' (by rw [hdrop]; exact head_dropWhile_ne t)
      rw [loop_next (hturn.trans hnext)]
      rwa [hdrop, Done, tokens_dropWhile, ← tokens_sep] at hdone

/-- A NUL behind it ends the string. -/
theorem stringOf_update {size : ℕ} (hdst : dst < size) (hno : 0 ∉ stretch path 0 dst) :
    (stringOf (update path dst 0) size).chars = stretch path 0 dst := by
  have hall : ∀ c ∈ stretch path 0 dst, decide (c ≠ 0) = true := fun c hc =>
    decide_eq_true fun h0 => hno (h0 ▸ hc)
  show (stretch (update path dst 0) 0 size).takeWhile (· ≠ 0) = stretch path 0 dst
  rw [← stretch_append (Nat.zero_le dst) hdst.le, stretch_update (.inr le_rfl),
    stretch_cons hdst, update_self, List.takeWhile_append_of_pos hall, List.takeWhile_cons_of_neg (by simp),
    List.append_nil]

/-- What `finish` returns for a path that is not empty. -/
theorem finish_spec (hdst : p.dst ≤ e) (hpos : p.dst ≠ 0) (hno : 0 ∉ stretch p.path 0 p.dst) :
    ∃ s : CString, finish (e + 1) p = .path s ∧ s.chars = strip slash (stretch p.path 0 p.dst) := by
  obtain ⟨path, src, dst⟩ := p
  obtain ⟨dst, rfl⟩ := Nat.exists_eq_add_one_of_ne_zero hpos
  simp only at hdst hno
  have hsplit : stretch path 0 (dst + 1) = stretch path 0 dst ++ [path dst] := by
    rw [← stretch_append (Nat.zero_le dst) (Nat.le_succ dst), stretch_cons (Nat.lt_succ_self dst),
      stretch_nil le_rfl]
  have hbelow : update path (dst + 1) 0 dst = path dst := update_of_ne (Nat.succ_ne_self dst).symm 0 path
  have hsize : ¬ e + 1 ≤ dst + 1 := by omega
  have hstrip : strip slash (stretch path 0 (dst + 1)) =
      if dst ≠ 0 ∧ path dst = slash then stretch path 0 dst else stretch path 0 (dst + 1) := by
    rw [strip, stretch_length, hsplit, List.getLast?_concat, List.dropLast_concat]
    simp
  rw [finish, if_neg hsize]
  simp only [hbelow, hstrip]
  by_cases hslash : dst ≠ 0 ∧ path dst = slash
  · rw [if_pos hslash, if_pos hslash]
    refine ⟨_, rfl, ?_⟩
    have hstretch : stretch (update path (dst + 1) 0) 0 dst = stretch path 0 dst :=
      stretch_update (.inr (Nat.le_succ dst))
    rw [hsplit, List.mem_append, not_or] at hno
    rw [stringOf_update (by omega) (by rw [hstretch]; exact hno.1), hstretch]
  · rw [if_neg hslash, if_neg hslash]
    exact ⟨_, rfl, stringOf_update (by omega) hno⟩

/-- No `..` climbs above the root: the canonical path. -/
theorem normalize_path (hhead : chars.head? = some slash) (hno : 0 ∉ chars)
    (hresolve : resolve dot [] (tokens slash chars) = some st) :
    ∃ s : CString, normalize chars = .path s ∧ s.chars = render slash st := by
  have hroot : resolve dot [[]] (tokens slash chars) = some (st ++ [[]]) := resolve_append hresolve
  rcases normalize_done hhead hno with ⟨p, st', hstop, hdst, hst', hends, hno'⟩ | ⟨-, hnone⟩
  · rw [hroot] at hst'
    obtain rfl := Option.some.inj hst'
    obtain ⟨hpos, hrender⟩ := ends_render hends (resolve_tokens hresolve)
    rw [stretch_length, Nat.sub_zero] at hpos
    obtain ⟨s, hfinish, hs⟩ := finish_spec hdst hpos hno'
    exact ⟨s, by rw [normalize, hstop]; exact hfinish, hs.trans hrender⟩
  · rw [hroot] at hnone
    cases hnone

/-- The result is NULL if a `..` climbs above a directory that the root would be in. -/
theorem normalize_null (hhead : chars.head? = some slash) (hno : 0 ∉ chars) :
    normalize chars = .null ↔ resolve dot [[]] (tokens slash chars) = none := by
  rcases normalize_done hhead hno with ⟨p, st', hstop, -, hst', -⟩ | ⟨hnull, hnone⟩
  · rw [normalize, hstop, hst']
    refine iff_of_false ?_ (Option.some_ne_none st')
    unfold finish
    simp only
    split_ifs
    · exact fun h => nomatch h
    · split
      · exact fun h => nomatch h
      · split_ifs <;> exact fun h => nomatch h
  · rw [normalize, hnull]
    exact iff_of_true rfl hnone

end Spec

/-- The path is canonical, and stays as it is when it is normalised again; it is NULL if a `..` climbs above
    the root. -/
def Normalizes (workingDirectory : Option CString) (directory filename : CString) : Prop :=
  match resolve dot [] (tokens slash (joined directory filename)) with
  | some st => ∃ s, dfsNormalizePath workingDirectory true (some directory) filename = .path s ∧
      s.chars = render slash st ∧ Canonical slash dot s.chars ∧
      ∀ directory', dfsNormalizePath workingDirectory true directory' s = .path s
  | none => dfsNormalizePath workingDirectory true (some directory) filename = .null

/-- CORRECT: a path below an absolute directory is normalised exactly if no `..` of it climbs above the root,
    or one climbs above a directory that the root would be in. -/
theorem normalize_iff (workingDirectory : Option CString) (directory filename : CString)
    (hdirectory : directory.chars.head? = some slash) : Normalizes workingDirectory directory filename ↔
      climbs dot 0 (tokens slash (joined directory filename)) = false ∨
        climbs dot 1 (tokens slash (joined directory filename)) = true := by
  have hhead : (joined directory filename).head? = some slash := by
    unfold joined
    split_ifs with h
    · exact h
    · rw [List.head?_append, hdirectory]
      rfl
  have hno : 0 ∉ joined directory filename := by
    unfold joined
    split_ifs with h
    · exact filename.no_nul
    · simp only [List.mem_append, List.mem_cons, not_or]
      exact ⟨directory.no_nul, by decide, filename.no_nul⟩
  unfold Normalizes
  cases hresolve : resolve dot [] (tokens slash (joined directory filename)) with
  | some st =>
    have hclimbs : climbs dot 0 (tokens slash (joined directory filename)) = false := by
      refine Bool.eq_false_iff.2 fun h => ?_
      rw [resolve_eq_none.2 h] at hresolve
      cases hresolve
    refine iff_of_true ?_ (.inl hclimbs)
    obtain ⟨s, hpath, hs⟩ := normalize_path hhead hno hresolve
    have hnames := resolve_tokens hresolve
    have hhead' : s.chars.head? = some slash := by
      rw [hs]
      exact head_render st
    refine ⟨s, hpath, hs, ⟨st, hnames, hs⟩, fun directory' => ?_⟩
    obtain ⟨s', hpath', hs'⟩ := normalize_path hhead' s.no_nul (by rw [hs]; exact resolve_render hnames)
    obtain rfl : s' = s := CString.ext (hs'.trans hs.symm)
    unfold dfsNormalizePath
    cases directory'.or workingDirectory with
    | none =>
      simp only [hhead', ne_eq, not_true_eq_false, if_false, if_true]
      exact hpath'
    | some d =>
      simp only [joined, hhead', if_true]
      exact hpath'
  | none =>
    have hclimbs : climbs dot 0 (tokens slash (joined directory filename)) = true :=
      resolve_eq_none.1 hresolve
    show normalize (joined directory filename) = .null ↔ _
    rw [normalize_null hhead hno, resolve_eq_none, hclimbs]
    simp

/-- `./b/..` in `/a` -/
theorem normalize_iff_dots : Normalizes none ⟨[47, 97], by decide⟩ ⟨[46, 47, 98, 47, 46, 46], by decide⟩ :=
  (normalize_iff none ⟨[47, 97], by decide⟩ ⟨[46, 47, 98, 47, 46, 46], by decide⟩ rfl).2
    (.inl (by decide +kernel))

/-- INCORRECT: `..` in the root climbs above it, and the result is not NULL. -/
theorem above_root : ¬ ∀ (workingDirectory : Option CString) (directory filename : CString),
    directory.chars.head? = some slash → Normalizes workingDirectory directory filename := by
  intro hall
  have h := hall none ⟨[47], by decide⟩ ⟨[46, 46], by decide⟩ rfl
  have hresolve : resolve dot [] (tokens slash (joined ⟨[47], by decide⟩ ⟨[46, 46], by decide⟩)) = none := by
    decide +kernel
  have hroot : resolve dot [[]] (tokens slash [47, 47, 46, 46]) = some [] := by decide +kernel
  rw [Normalizes, hresolve] at h
  have hnull : normalize [47, 47, 46, 46] = .null := h
  rw [normalize_null rfl (by decide), hroot] at hnull
  cases hnull

end EasyCore.Dfs.Normalize
