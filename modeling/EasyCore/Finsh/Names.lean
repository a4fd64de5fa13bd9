import EasyCore.Lib.CString
import EasyCore.Lib.Runs

/-! What a name of a line stands for (`finsh_vm.c`, `finsh_var.c`). System calls and system variables have
    a table each, and a list of those that are appended; variables have eight entries.

        table   printf · list_mem · ...          compared in full
        list    version_long ─▶ version ─▶ ...   compared in the length of the name that is asked for
        vars    a · b · · · · · ·                compared in 16 characters

    In a list `version` finds `version_long`, if that was appended later. -/

namespace EasyCore.Finsh.Names
open Function Runs CStr

/-! ### Tables and lists -/

/-- The table between `begin` and `end`, and the list with the entry that was appended last first. -/
structure Registry (α : Type*) where
  table : List α
  list : List α

/-- `struct finsh_syscall` -/
structure FinshSyscall where
  name : CString
  func : UInt32

/-- `struct finsh_sysvar` -/
structure FinshSysvar where
  name : CString
  type : UInt8
  var : UInt32

section Registry
variable {α : Type*} (name : α → CString)

/-- The first of the table with this name, or the first of the list that starts with it. -/
def Registry.lookup (r : Registry α) (id : CString) : Option α :=
  match r.table.find? fun index => strcmp (name index).chars id.chars = 0 with
  | some index => some index
  | none => r.list.find? fun item => strncmp id.chars.length (name item).chars id.chars = 0

def Registry.append (r : Registry α) (item : α) : Registry α := { r with list := item :: r.list }

end Registry

/-- `finsh_syscall_lookup` -/
def finshSyscallLookup (r : Registry FinshSyscall) (name : CString) : Option FinshSyscall :=
  r.lookup FinshSyscall.name name

/-- `finsh_syscall_append`, if it gets memory. -/
def finshSyscallAppend (r : Registry FinshSyscall) (name : CString) (func : UInt32) :
    Registry FinshSyscall :=
  r.append ⟨name, func⟩

/-- `finsh_sysvar_lookup` -/
def finshSysvarLookup (r : Registry FinshSysvar) (name : CString) : Option FinshSysvar :=
  r.lookup FinshSysvar.name name

/-- `finsh_sysvar_append`, if it gets memory. -/
def finshSysvarAppend (r : Registry FinshSysvar) (name : CString) (type : UInt8) (var : UInt32) :
    Registry FinshSysvar :=
  r.append ⟨name, type, var⟩

section Entries
variable {α : Type*} (name : α → CString) (table appended : List α) (id : CString)

/-- The entry of this name: that of the table, or the one that was appended last. -/
def entry : Option α :=
  (table.find? fun e => name e = id).or (appended.filter fun e => name e = id).getLast?

/-- An entry with a longer name that starts with this one was appended, and none of this name behind
    it. -/
def Shadowed : Prop :=
  ∃ before e after, appended = before ++ e :: after ∧ id.chars <+: (name e).chars ∧ name e ≠ id ∧
    ∀ e' ∈ after, name e' ≠ id

/-- The table has an entry of this name, or no longer name is in front of it. -/
def Clear : Prop := (∃ e ∈ table, name e = id) ∨ ¬ Shadowed name appended id

variable {name table appended id}

theorem append_list : ∀ (appended : List α) (r : Registry α),
    appended.foldl Registry.append r = ⟨r.table, appended.reverse ++ r.list⟩
  | [], r => rfl
  | e :: appended, r => by
    rw [List.foldl_cons, append_list appended, List.reverse_cons, List.append_assoc]
    rfl

theorem filter_getLast? (p : α → Bool) (l : List α) : (l.filter p).getLast? = l.reverse.find? p := by
  rw [← List.head?_reverse, ← List.filter_reverse, List.head?_filter]

/-- The lookup, without the comparisons. -/
theorem lookup_eq (r : Registry α) (id : CString) : r.lookup name id =
    (r.table.find? fun e => name e = id).or (r.list.find? fun e => id.chars <+: (name e).chars) := by
  have htable : (fun e => decide (strcmp (name e).chars id.chars = 0)) =
      fun e => decide (name e = id) := by
    funext e
    refine decide_eq_decide.2 ((strcmp_eq_zero (name e).no_nul id.no_nul).trans ?_)
    exact ⟨CString.ext, fun h => congrArg CString.chars h⟩
  have hlist : (fun e => decide (strncmp id.chars.length (name e).chars id.chars = 0)) =
      fun e => decide (id.chars <+: (name e).chars) := by
    funext e
    exact decide_eq_decide.2 (strncmp_length (name e).no_nul id.no_nul)
  rw [Registry.lookup, htable, hlist]
  cases r.table.find? fun e => name e = id with
  | none => rfl
  | some e => rfl

/-- In the order of the list: the first name that starts with this one is this one, or there is neither. -/
theorem find_prefix_iff : ∀ l : List α,
    (l.find? fun e => id.chars <+: (name e).chars) = (l.find? fun e => name e = id) ↔
      ¬ ∃ after e before, l = after ++ e :: before ∧ id.chars <+: (name e).chars ∧ name e ≠ id ∧
        ∀ e' ∈ after, name e' ≠ id
  | [] => by
    refine iff_of_true rfl ?_
    rintro ⟨after, e, before, h, -⟩
    exact absurd h (by simp)
  | a :: l => by
    have ih := find_prefix_iff l
    by_cases hname : name a = id
    · have hprefix : id.chars <+: (name a).chars := by rw [hname]
      rw [List.find?_cons_of_pos (by simpa using hprefix), List.find?_cons_of_pos (by simpa using hname)]
      refine iff_of_true rfl ?_
      rintro ⟨after, e, before, h, -, hne, hall⟩
      cases after with
      | nil =>
        obtain rfl := (List.cons.inj h).1
        exact hne hname
      | cons b after =>
        obtain rfl := (List.cons.inj h).1
        exact hall a List.mem_cons_self hname
    · rw [List.find?_cons_of_neg (p := fun e => decide (name e = id)) (by simpa using hname)]
      by_cases hprefix : id.chars <+: (name a).chars
      · rw [List.find?_cons_of_pos (by simpa using hprefix)]
        refine iff_of_false ?_ (not_not.2 ⟨[], a, l, rfl, hprefix, hname, by simp⟩)
        intro h
        exact hname (by simpa using List.find?_some h.symm)
      · rw [List.find?_cons_of_neg (by simpa using hprefix), ih]
        refine not_congr ⟨?_, ?_⟩
        · rintro ⟨after, e, before, rfl, hp, hne, hall⟩
          refine ⟨a :: after, e, before, rfl, hp, hne, ?_⟩
          intro e' he'
          rcases List.mem_cons.1 he' with rfl | he'
          · exact hname
          · exact hall e' he'
        · rintro ⟨after, e, before, h, hp, hne, hall⟩
          cases after with
          | nil =>
            obtain rfl := (List.cons.inj h).1
            exact absurd hp hprefix
          | cons b after =>
            exact ⟨after, e, before, (List.cons.inj h).2, hp, hne,
              fun e' he' => hall e' (List.mem_cons_of_mem b he')⟩

/-- A lookup finds the entry of the name exactly if the name is clear. -/
theorem lookup_iff : (appended.foldl Registry.append ⟨table, []⟩).lookup name id =
    entry name table appended id ↔ Clear name table appended id := by
  rw [append_list, List.append_nil, lookup_eq, entry, filter_getLast?, Clear]
  cases htable : table.find? fun e => name e = id with
  | some e =>
    refine iff_of_true rfl (.inl ⟨e, List.mem_of_find?_eq_some htable, ?_⟩)
    simpa using List.find?_some htable
  | none =>
    have hnone : ¬ ∃ e ∈ table, name e = id := by
      rintro ⟨e, he, hname⟩
      exact absurd hname (by simpa using List.find?_eq_none.1 htable e he)
    rw [Option.none_or, Option.none_or, find_prefix_iff]
    refine Iff.trans (not_congr ?_) (or_iff_right hnone).symm
    constructor
    · rintro ⟨after, e, before, h, hp, hne, hall⟩
      replace h : appended.reverse = after ++ e :: before := h
      refine ⟨before.reverse, e, after.reverse, ?_, hp, hne, fun e' he' => hall e' ?_⟩
      · rw [← List.reverse_reverse appended, h, List.reverse_append, List.reverse_cons,
          List.append_assoc, List.singleton_append]
      · exact List.mem_reverse.1 he'
    · rintro ⟨before, e, after, rfl, hp, hne, hall⟩
      refine ⟨after.reverse, e, before.reverse, ?_, hp, hne, fun e' he' => hall e' ?_⟩
      · rw [List.reverse_append, List.reverse_cons, List.append_assoc, List.singleton_append]
      · exact List.mem_reverse.1 he'

end Entries

/-! ### Variables -/

/-- `FINSH_NAME_MAX`, `FINSH_VARIABLE_MAX` -/
def finshNameMax : ℕ := 16
def finshVariableMax : ℕ := 8

/-- `struct finsh_var`: the string in its array of 17 bytes, and its type; 0 is `finsh_type_unknown`. -/
structure FinshVar where
  name : CString
  type : UInt8

/-- `global_variable` -/
abbrev Vars := Fin finshVariableMax → FinshVar

/-- `finsh_var_init` -/
def finshVarInit : Vars := fun _ => ⟨.empty, 0⟩

/-- `strncmp(global_variable[i].name, name, FINSH_NAME_MAX) == 0` -/
def sameName (v : Vars) (name : CString) (i : Fin finshVariableMax) : Bool :=
  strncmp finshNameMax (v i).name.chars name.chars = 0

/-- The first entry that is empty. -/
def firstEmpty (v : Vars) : Option (Fin finshVariableMax) :=
  (List.finRange finshVariableMax).find? fun i => (v i).type = 0

/-- `finsh_var_insert`; no entry is -1. -/
def finshVarInsert (name : CString) (type : UInt32) (v : Vars) : Option (Fin finshVariableMax) × Vars :=
  if (List.finRange finshVariableMax).any (sameName v name) then (none, v)
  else
    match firstEmpty v with
    | none => (none, v)
    | some empty => (some empty, update v empty ⟨name.take finshNameMax, type.toUInt8⟩)

/-- `finsh_var_lookup` -/
def finshVarLookup (name : CString) (v : Vars) : Option (Fin finshVariableMax) :=
  (List.finRange finshVariableMax).find? (sameName v name)

/-- `finsh_var_delete`; whether it deletes an entry. -/
def finshVarDelete (name : CString) (v : Vars) : Bool × Vars :=
  match finshVarLookup name v with
  | none => (false, v)
  | some i => (true, update v i ⟨.empty, 0⟩)

inductive Op
  | insert (name : CString) (type : UInt32)
  | delete (name : CString)

/-- The table, and the entries that there should be: inserted, and not deleted since. -/
structure Run where
  vars : Vars
  live : CString → Option (Fin finshVariableMax)

def Run.init : Run := ⟨finshVarInit, fun _ => none⟩

def Run.step (r : Run) : Op → Run
  | .insert name type =>
    let (i, vars) := finshVarInsert name type r.vars
    ⟨vars, if i.isSome then update r.live (name.take finshNameMax) i else r.live⟩
  | .delete name =>
    let (deleted, vars) := finshVarDelete name r.vars
    ⟨vars, if deleted then update r.live (name.take finshNameMax) none else r.live⟩

/-- An entry is not inserted in the place of one that has a name, but no type. -/
def Run.Keeps (r : Run) : Op → Prop
  | .insert name _ => (List.finRange finshVariableMax).any (sameName r.vars name) = false →
    ∀ empty ∈ firstEmpty r.vars, (r.vars empty).name = .empty
  | .delete _ => True

instance (r : Run) : (op : Op) → Decidable (r.Keeps op)
  | .insert name _ => inferInstanceAs (Decidable ((List.finRange finshVariableMax).any
      (sameName r.vars name) = false → ∀ empty ∈ firstEmpty r.vars, (r.vars empty).name = .empty))
  | .delete _ => inferInstanceAs (Decidable True)

/-- The names of the entries are those of the table, and no name is in it twice. -/
structure Run.Ok (r : Run) : Prop where
  short : ∀ i, (r.vars i).name.chars.length ≤ finshNameMax
  live : ∀ name i, r.live name = some i ↔ name ≠ .empty ∧ (r.vars i).name = name
  uniq : ∀ i j, (r.vars i).name = (r.vars j).name → (r.vars i).name ≠ .empty → i = j

section Variables
variable {r : Run} {name : CString} {type : UInt32} {i : Fin finshVariableMax} {v : Vars}

theorem sameName_iff (hv : (v i).name.chars.length ≤ finshNameMax) :
    sameName v name i = true ↔ (v i).name = name.take finshNameMax := by
  rw [sameName, decide_eq_true_eq, strncmp_eq_zero _ (v i).name.no_nul name.no_nul,
    List.take_of_length_le hv]
  exact ⟨fun h => CString.ext h, fun h => congrArg CString.chars h⟩

theorem take_short (h : name.chars.length ≤ finshNameMax) : name.take finshNameMax = name :=
  CString.ext (List.take_of_length_le h)

theorem init_ok : Run.init.Ok := by
  refine ⟨fun i => Nat.zero_le _, fun name i => iff_of_false (Option.some_ne_none i).symm ?_,
    fun i j _ hne => absurd rfl hne⟩
  rintro ⟨hne, h⟩
  exact hne h.symm

theorem length_take_le (name : CString) : (name.take finshNameMax).chars.length ≤ finshNameMax :=
  List.length_take_le _ _

/-- An entry without a name gets one that no other has. -/
theorem Run.Ok.set (h : r.Ok) (hempty : (r.vars i).name = .empty)
    (hnew : ∀ j, (r.vars j).name ≠ name.take finshNameMax) (type : UInt8) :
    Run.Ok ⟨update r.vars i ⟨name.take finshNameMax, type⟩,
      update r.live (name.take finshNameMax) (some i)⟩ := by
  have hne : name.take finshNameMax ≠ .empty := fun heq => hnew i (hempty.trans heq.symm)
  refine ⟨fun j => ?_, fun n j => ?_, fun j k hjk hj => ?_⟩
  · by_cases hj : j = i
    · simp only [hj, update_self]
      exact length_take_le name
    · simp only [update_of_ne hj]
      exact h.short j
  · by_cases hn : n = name.take finshNameMax
    · simp only [hn, update_self, Option.some.injEq]
      by_cases hj : j = i
      · simp only [hj, update_self, and_true, true_iff]
        exact hne
      · simp only [update_of_ne hj]
        exact iff_of_false (fun heq => hj heq.symm) fun hand => hnew j hand.2
    · simp only [update_of_ne hn, h.live]
      by_cases hj : j = i
      · simp only [hj, update_self]
        exact and_congr_right fun hne' => iff_of_false (fun heq => hne' (heq.symm.trans hempty))
          fun heq => hn heq.symm
      · simp only [update_of_ne hj]
  · by_cases hj' : j = i
    · by_cases hk : k = i
      · rw [hj', hk]
      · simp only [hj', update_self, update_of_ne hk] at hjk
        exact absurd hjk.symm (hnew k)
    · by_cases hk : k = i
      · simp only [hk, update_self, update_of_ne hj'] at hjk
        exact absurd hjk (hnew j)
      · simp only [update_of_ne hj', update_of_ne hk] at hjk hj
        exact h.uniq j k hjk hj

/-- An entry is cleared. -/
theorem Run.Ok.clear (h : r.Ok) (hname : (r.vars i).name = name.take finshNameMax) :
    Run.Ok ⟨update r.vars i ⟨.empty, 0⟩, update r.live (name.take finshNameMax) none⟩ := by
  refine ⟨fun j => ?_, fun n j => ?_, fun j k hjk hj => ?_⟩
  · by_cases hj : j = i
    · simp only [hj, update_self]
      exact Nat.zero_le _
    · simp only [update_of_ne hj]
      exact h.short j
  · by_cases hn : n = name.take finshNameMax
    · simp only [hn, update_self, reduceCtorEq, false_iff, not_and]
      intro hne heq
      by_cases hj : j = i
      · simp only [hj, update_self] at heq
        exact hne heq.symm
      · simp only [update_of_ne hj] at heq
        exact hj (h.uniq j i (heq.trans hname.symm) (heq ▸ hne))
    · simp only [update_of_ne hn, h.live]
      by_cases hj : j = i
      · simp only [hj, update_self]
        exact and_congr_right fun hne => iff_of_false (fun heq => hn (heq.symm.trans hname))
          fun heq => hne heq.symm
      · simp only [update_of_ne hj]
  · by_cases hj' : j = i
    · simp only [hj', update_self] at hj
      exact absurd rfl hj
    · by_cases hk : k = i
      · simp only [hk, update_self, update_of_ne hj'] at hjk hj
        exact absurd hjk hj
      · simp only [update_of_ne hj', update_of_ne hk] at hjk hj
        exact h.uniq j k hjk hj

theorem step_ok (h : r.Ok) (op : Op) (hop : r.Keeps op) : (r.step op).Ok := by
  cases op with
  | insert name type =>
    show Run.Ok ⟨(finshVarInsert name type r.vars).2, if (finshVarInsert name type r.vars).1.isSome then
      update r.live (name.take finshNameMax) (finshVarInsert name type r.vars).1 else r.live⟩
    unfold finshVarInsert
    by_cases hsame : (List.finRange finshVariableMax).any (sameName r.vars name) = true
    · simp only [if_pos hsame]
      exact h
    · simp only [if_neg hsame]
      cases hempty : firstEmpty r.vars with
      | none => exact h
      | some empty =>
        have hall : ∀ j, (r.vars j).name ≠ name.take finshNameMax := fun j hj =>
          hsame (List.any_eq_true.2 ⟨j, List.mem_finRange j, (sameName_iff (h.short j)).2 hj⟩)
        exact h.set (hop (Bool.not_eq_true _ ▸ hsame) empty hempty) hall type.toUInt8
  | delete name =>
    show Run.Ok ⟨(finshVarDelete name r.vars).2, if (finshVarDelete name r.vars).1 then
      update r.live (name.take finshNameMax) none else r.live⟩
    unfold finshVarDelete
    cases hfind : finshVarLookup name r.vars with
    | none => exact h
    | some i => exact h.clear ((sameName_iff (h.short i)).1 (List.find?_some hfind))

/-- A lookup finds the entry of the name, unless the name is empty and an entry has none. -/
theorem var_lookup_iff (h : r.Ok) (hname : name.chars.length < finshNameMax) :
    finshVarLookup name r.vars = r.live name ↔
      name ≠ .empty ∨ ∀ i, (r.vars i).name ≠ .empty := by
  have hsame : ∀ i, sameName r.vars name i = true ↔ (r.vars i).name = name := fun i => by
    rw [sameName_iff (h.short i), take_short hname.le]
  by_cases hempty : name = .empty
  · have hlive : r.live name = none := by
      by_contra hne
      obtain ⟨i, hi⟩ := Option.ne_none_iff_exists'.1 hne
      exact ((h.live name i).1 hi).1 hempty
    rw [hlive, finshVarLookup, List.find?_eq_none]
    constructor
    · intro hall
      exact .inr fun i hi => hall i (List.mem_finRange i) ((hsame i).2 (hi.trans hempty.symm))
    · rintro (hne | hall) i -
      · exact absurd hempty hne
      · exact fun hi => hall i (((hsame i).1 hi).trans hempty)
  · refine iff_of_true ?_ (.inl hempty)
    rw [finshVarLookup]
    cases hfind : (List.finRange finshVariableMax).find? (sameName r.vars name) with
    | some i => exact ((h.live name i).2 ⟨hempty, (hsame i).1 (List.find?_some hfind)⟩).symm
    | none =>
      by_contra hne
      obtain ⟨i, hi⟩ := Option.ne_none_iff_exists'.1 (Ne.symm hne)
      exact List.find?_eq_none.1 hfind i (List.mem_finRange i)
        ((hsame i).2 ((h.live name i).1 hi).2)

end Variables

/-! ### All names -/

/-- CORRECT: a system call or a system variable is found by its name exactly if the name is clear; and in
    every run whose insertions keep the entries there are, a variable is found by its name exactly if
    that is not empty or no entry is without a name. -/
theorem name_lookup_iff (id : CString) (hid : id.chars.length < finshNameMax) :
    (∀ table appended : List FinshSyscall,
      finshSyscallLookup (appended.foldl (fun r e => finshSyscallAppend r e.name e.func) ⟨table, []⟩) id =
        entry FinshSyscall.name table appended id ↔ Clear FinshSyscall.name table appended id) ∧
    (∀ table appended : List FinshSysvar,
      finshSysvarLookup (appended.foldl (fun r e => finshSysvarAppend r e.name e.type e.var)
        ⟨table, []⟩) id =
        entry FinshSysvar.name table appended id ↔ Clear FinshSysvar.name table appended id) ∧
    ∀ ops : List Op, Runs.Along Run.step Run.Keeps Run.init ops →
      (finshVarLookup id (ops.foldl Run.step Run.init).vars = (ops.foldl Run.step Run.init).live id ↔
        id ≠ .empty ∨ ∀ i, ((ops.foldl Run.step Run.init).vars i).name ≠ .empty) := by
  refine ⟨fun table appended => lookup_iff, fun table appended => lookup_iff, fun ops hops => ?_⟩
  have hok : (ops.foldl Run.step Run.init).Ok :=
    Runs.Along.invariant (I := Run.Ok) (fun r op hr hop => step_ok hr op hop) ops init_ok hops
  exact var_lookup_iff hok hid

/-- A name, an extension of it, and another one. -/
def version : CString := ⟨[118, 101, 114], by decide⟩
def versionLong : CString := ⟨[118, 101, 114, 95, 108], by decide⟩

/-- Two system calls in the table, and a variable that is inserted, deleted and inserted again. -/
theorem name_lookup_iff_version :
    finshSyscallLookup ⟨[⟨versionLong, 4⟩, ⟨version, 8⟩], []⟩ version = some ⟨version, 8⟩ ∧
      finshVarLookup version ([.insert version 9, .insert versionLong 9, .delete version,
        .insert version 12].foldl Run.step Run.init).vars = some ⟨0, by decide⟩ := by
  obtain ⟨hsyscall, -, hvars⟩ := name_lookup_iff version (by decide)
  have hkeeps : Runs.Along Run.step Run.Keeps Run.init [.insert version 9, .insert versionLong 9,
      .delete version, .insert version 12] :=
    ⟨by decide +kernel, by decide +kernel, by decide +kernel, by decide +kernel, trivial⟩
  constructor
  · exact (hsyscall [⟨versionLong, 4⟩, ⟨version, 8⟩] []).2 (.inl ⟨⟨version, 8⟩, by simp, rfl⟩)
  · exact ((hvars _ hkeeps).2 (.inl (by decide))).trans (by decide +kernel)

/-- INCORRECT: with a longer name appended, a name that nobody has appended is found. -/
theorem longer_name_found : ¬ ∀ (table appended : List FinshSyscall) (id : CString),
    id.chars.length < finshNameMax →
    finshSyscallLookup (appended.foldl (fun r e => finshSyscallAppend r e.name e.func) ⟨table, []⟩) id =
      entry FinshSyscall.name table appended id := by
  intro hall
  have h := congrArg Option.isSome (hall [] [⟨versionLong, 4⟩] version (by decide))
  exact absurd h (by decide)

end EasyCore.Finsh.Names
