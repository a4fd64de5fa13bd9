import EasyCore.Finsh.Shell

/-! The shell's line editor does what the editor does, as long as the line is short enough and no
    character after a carriage return is taken for it. -/

namespace EasyCore.Finsh.Shell
open Runs

/-! ### Strings in arrays -/

/-- A string that fits, with its terminator. -/
structure Fits (text : Text) : Prop where
  short : text.length < finshCmdSize
  noNul : 0 ∉ text

variable {text name : Text} {ch : UInt8}

@[simp] theorem take_pad (text : Text) : (pad text).take text.length = text :=
  List.take_left

theorem takeWhile_append_zeros (h : 0 ∉ text) (n : ℕ) :
    (text ++ List.replicate n 0).takeWhile (· ≠ 0) = text := by
  have hall : ∀ b ∈ text, decide (b ≠ 0) = true := fun b hb =>
    decide_eq_true fun h0 => h (h0 ▸ hb)
  rw [List.takeWhile_append_of_pos hall]
  cases n <;> simp [List.replicate_succ]

theorem takeWhile_pad (h : 0 ∉ text) : (pad text).takeWhile (· ≠ 0) = text :=
  takeWhile_append_zeros h _

theorem strlen_pad (h : 0 ∉ text) : strlen (pad text) = text.length :=
  congrArg List.length (takeWhile_pad h)

/-- A shorter string has one more zero behind it. -/
theorem pad_succ (h : text.length < finshCmdSize) :
    ∃ n, finshCmdSize = text.length + (n + 1) ∧ pad text = text ++ 0 :: List.replicate n 0 := by
  obtain ⟨n, hn⟩ := Nat.exists_eq_add_of_lt h
  refine ⟨n, hn, ?_⟩
  rw [pad, hn, show text.length + n + 1 - text.length = n + 1 by omega]
  rfl

/-- One character more at the end. -/
theorem pad_set (h : text.length < finshCmdSize) (ch : UInt8) :
    (pad text).set text.length ch = pad (text ++ [ch]) := by
  obtain ⟨n, hn, hpad⟩ := pad_succ h
  rw [hpad, pad, hn, List.length_append, List.length_singleton,
    show text.length + (n + 1) - (text.length + 1) = n by omega]
  simp

/-- One character less at the end. -/
theorem pad_concat_set {x : UInt8} (h : (text ++ [x]).length < finshCmdSize) :
    (pad (text ++ [x])).set text.length 0 = pad text := by
  rw [List.length_append, List.length_singleton] at h
  obtain ⟨n, -, hpad⟩ := pad_succ (show text.length < finshCmdSize by omega)
  rw [← pad_set (by omega), List.set_set, hpad]
  simp

theorem memmove_insert {a b : Text} (h : (a ++ b).length < finshCmdSize) (ch : UInt8) :
    (memmove (pad (a ++ b)) (a.length + 1) a.length b.length).set a.length ch
      = pad (a ++ ch :: b) := by
  obtain ⟨n, hn, hpad⟩ := pad_succ h
  rw [List.length_append] at hn
  have hzeros : finshCmdSize - (a ++ ch :: b).length = n := by
    simp only [List.length_append, List.length_cons]
    omega
  have hmoved : (pad (a ++ b)).drop a.length = b ++ 0 :: List.replicate n 0 := by
    rw [hpad, List.append_assoc, List.drop_left]
  have hrest : (pad (a ++ b)).drop (a.length + 1 + b.length) = List.replicate n 0 := by
    have hlen : a.length + 1 + b.length = (a ++ b).length + 1 := by
      rw [List.length_append]
      omega
    rw [hpad, hlen, List.drop_length_add_append]
    rfl
  obtain ⟨x, hx⟩ : ∃ x, (pad (a ++ b)).take (a.length + 1) = a ++ [x] := by
    rw [hpad, List.append_assoc, List.take_length_add_append]
    cases b with
    | nil => exact ⟨0, rfl⟩
    | cons x b => exact ⟨x, rfl⟩
  rw [memmove, hx, hmoved, List.take_left, hrest, pad, hzeros]
  simp

theorem memmove_delete {a b : Text} {x : UInt8} (h : (a ++ x :: b).length < finshCmdSize) :
    (memmove (pad (a ++ x :: b)) a.length (a.length + 1) b.length).set (a ++ b).length 0
      = pad (a ++ b) := by
  obtain ⟨n, hn, hpad⟩ := pad_succ h
  simp only [List.length_append, List.length_cons] at hn
  have hzeros : finshCmdSize - (a ++ b).length = n + 2 := by
    simp only [List.length_append]
    omega
  have hkept : (pad (a ++ x :: b)).take a.length = a := by
    rw [hpad, List.append_assoc, List.take_left]
  have hmoved : (pad (a ++ x :: b)).drop (a.length + 1) = b ++ 0 :: List.replicate n 0 := by
    rw [hpad]
    simp
  have hrest : ∃ y, (pad (a ++ x :: b)).drop (a.length + b.length)
      = y :: 0 :: List.replicate n 0 := by
    rw [hpad, List.append_assoc, List.drop_length_add_append, List.cons_append]
    refine ⟨(x :: b)[b.length], ?_⟩
    rw [← List.cons_append, List.drop_append_of_le_length (Nat.le_succ _)]
    rw [List.drop_eq_getElem_cons (Nat.lt_succ_self _)]
    simp
  obtain ⟨y, hy⟩ := hrest
  rw [memmove, hkept, hmoved, List.take_left, hy, pad, hzeros]
  simp [List.replicate_succ]

/-! ### What holds between the shell and the editor -/

/-- The line is the text and zeros behind it, and the rows of the history that are in use are lines that
    have been entered. -/
structure Inv (s : FinshShell) (e : Editor) : Prop where
  stat : s.stat = e.stat
  line : s.line = pad e.text
  position : s.linePosition = e.text.length
  curpos : s.lineCurpos = e.cursor
  cursor : e.cursor ≤ e.text.length
  text : Fits e.text
  inside : s.outside = false
  entered : ∀ line ∈ e.entered, Fits line ∧ line ≠ []
  rows : s.cmdHistory.length = finshHistoryLines
  history : s.cmdHistory.take s.historyCount = e.history.map pad
  count : s.historyCount = e.history.length
  current : s.currentHistory = e.index
  index : e.index ≤ e.history.length

variable {s : FinshShell} {e : Editor}

theorem fits_nil : Fits [] := ⟨by decide, List.not_mem_nil⟩

theorem Inv.start : Inv start Editor.start where
  stat := rfl
  line := rfl
  position := rfl
  curpos := rfl
  cursor := le_rfl
  text := fits_nil
  inside := rfl
  entered := List.forall_mem_nil _
  rows := rfl
  history := rfl
  count := rfl
  current := rfl
  index := le_rfl

theorem Inv.fits_history (inv : Inv s e) {line : Text} (h : line ∈ e.history) : Fits line :=
  (inv.entered line (List.mem_of_mem_drop h)).1

theorem Inv.agrees (inv : Inv s e) : Agrees s e where
  curpos := by
    rw [inv.curpos, inv.position]
    exact inv.cursor
  position := inv.position ▸ inv.text.short
  text := by rw [inv.line, inv.position, take_pad]
  cursor := inv.curpos
  inside := inv.inside
  history := by
    rw [inv.history, List.map_map]
    refine (List.map_congr_left fun line hline => ?_).trans (List.map_id _)
    exact takeWhile_pad (inv.fits_history hline).noNul
  place := inv.current

/-! ### Keys -/

theorem Inv.setStat (inv : Inv s e) (stat : InputStat) :
    Inv { s with stat := stat } { e with stat := stat } :=
  { inv with stat := rfl }

/-- Another line, with the cursor somewhere in it. -/
theorem Inv.edit (inv : Inv s e) {text : Text} {cursor : ℕ} (hfits : Fits text)
    (hcursor : cursor ≤ text.length) {line : List UInt8} {position curpos : ℕ} {outside : Bool}
    (hline : line = pad text) (hposition : position = text.length) (hcurpos : curpos = cursor)
    (hinside : outside = false) :
    Inv { s with line := line, linePosition := position, lineCurpos := curpos, outside := outside }
      { e with text := text, cursor := cursor } :=
  { inv with
    line := hline
    position := hposition
    curpos := hcurpos
    cursor := hcursor
    text := hfits
    inside := hinside }

theorem Inv.recallLine (inv : Inv s e) {i : ℕ} (hi : i < e.history.length) :
    Inv (recallLine { s with currentHistory := i }) (e.recallLine i) := by
  have hline : s.cmdHistory.getD i [] = pad (e.history.getD i []) := by
    have hrow : (s.cmdHistory.take s.historyCount)[i]? = (e.history.map pad)[i]? := by
      rw [inv.history]
    rw [List.getElem?_take, if_pos (inv.count ▸ hi), List.getElem?_map] at hrow
    rw [List.getD_eq_getElem?_getD, List.getD_eq_getElem?_getD, hrow,
      List.getElem?_eq_getElem hi]
    rfl
  have hfits : Fits (e.history.getD i []) := by
    rw [List.getD_eq_getElem _ _ hi]
    exact inv.fits_history (List.getElem_mem hi)
  exact { inv with
    line := hline
    position := (congrArg strlen hline).trans (strlen_pad hfits.noNul)
    curpos := (congrArg strlen hline).trans (strlen_pad hfits.noNul)
    cursor := le_rfl
    text := hfits
    current := rfl
    index := hi.le }

theorem Inv.upKey (inv : Inv s e) : Inv (upKey s) e.up := by
  unfold Shell.upKey Editor.up
  rw [inv.current]
  have hindex := inv.index
  split_ifs with hpos hzero hzero
  · omega
  · exact inv.recallLine (by omega)
  · exact { inv with current := hzero.symm }
  · omega

theorem Inv.downKey (inv : Inv s e) : Inv (downKey s) e.down := by
  have hcurrent := inv.current
  have hcount := inv.count
  have hempty : e.history = [] ↔ s.historyCount = 0 := by rw [hcount, List.length_eq_zero_iff]
  unfold Shell.downKey Editor.down
  by_cases hzero : s.historyCount = 0
  · rw [if_neg (by omega), if_neg (not_not.2 hzero), if_pos (hempty.2 hzero)]
    exact inv
  rw [if_neg (mt hempty.1 hzero)]
  by_cases hnext : s.currentHistory + 1 < s.historyCount
  · rw [if_pos hnext, if_pos (by omega), hcurrent]
    exact inv.recallLine (by omega)
  · have hlast : s.historyCount - 1 = e.history.length - 1 := by rw [hcount]
    rw [if_neg hnext, if_pos hzero, if_neg (by omega), hlast]
    exact inv.recallLine (by omega)

theorem Inv.leftKey (inv : Inv s e) : Inv (leftKey s) e.left := by
  have hcurpos := inv.curpos
  have hcursor : e.cursor - 1 ≤ e.text.length := (Nat.sub_le _ _).trans inv.cursor
  unfold Shell.leftKey Editor.left
  split_ifs with h
  · exact { inv with curpos := congrArg (· - 1) hcurpos, cursor := hcursor }
  · have hzero : s.lineCurpos = e.cursor - 1 := by omega
    exact { inv with curpos := hzero, cursor := hcursor }

theorem Inv.rightKey (inv : Inv s e) : Inv (rightKey s) e.right := by
  have hcurpos := inv.curpos
  have hposition := inv.position
  have hcursor := inv.cursor
  unfold Shell.rightKey Editor.right
  split_ifs with h
  · have hnext : s.lineCurpos + 1 = min (e.cursor + 1) e.text.length := by omega
    exact { inv with curpos := hnext, cursor := min_le_right _ _ }
  · have hlast : s.lineCurpos = min (e.cursor + 1) e.text.length := by omega
    exact { inv with curpos := hlast, cursor := min_le_right _ _ }

/-- The text before the cursor and the text behind it. -/
theorem Inv.split (inv : Inv s e) :
    ∃ a b, e.text = a ++ b ∧ e.cursor = a.length :=
  ⟨e.text.take e.cursor, e.text.drop e.cursor, (List.take_append_drop _ _).symm,
    (List.length_take_of_le inv.cursor).symm⟩

theorem Inv.backspace (inv : Inv s e) : Inv (backspace s) e.delete := by
  have hcurpos := inv.curpos
  have hposition := inv.position
  unfold Shell.backspace Editor.delete
  split_ifs with hzero
  · exact inv
  · omega
  · omega
  rename_i hne
  obtain ⟨a', b, htext, hcursor⟩ := inv.split
  obtain ⟨a, x, rfl⟩ : ∃ a x, a' = a ++ [x] := by
    have hne' : a' ≠ [] := by
      rintro rfl
      exact hne hcursor
    exact ⟨a'.dropLast, a'.getLast hne', (List.dropLast_append_getLast hne').symm⟩
  rw [List.append_assoc, List.singleton_append] at htext
  rw [List.length_append, List.length_singleton] at hcursor
  have hlength : e.text.length = a.length + b.length + 1 := by
    rw [htext, List.length_append, List.length_cons]
    omega
  have hshort : (a ++ x :: b).length < finshCmdSize := htext ▸ inv.text.short
  have herase : e.text.eraseIdx a.length = a ++ b := by
    rw [htext, List.eraseIdx_append_of_length_le le_rfl]
    simp
  have hfits : Fits (a ++ b) := by
    have hnoNul := inv.text.noNul
    rw [htext] at hnoNul
    refine ⟨?_, fun h => hnoNul ?_⟩
    · simp only [List.length_append, List.length_cons] at hshort ⊢
      omega
    · simp only [List.mem_append, List.mem_cons] at h ⊢
      tauto
  have hposition' : s.linePosition - 1 = (a ++ b).length := by
    rw [hposition, hlength, List.length_append]
    omega
  have hcurpos' : s.lineCurpos - 1 = a.length := by omega
  have hcursor' : e.cursor - 1 = a.length := by omega
  have hle : a.length ≤ (a ++ b).length := by simp
  have hinside : (s.outside || decide (finshCmdSize ≤ (a ++ b).length)) = false := by
    rw [inv.inside, Bool.false_or, decide_eq_false_iff_not, not_le]
    exact hfits.short
  simp only [herase, hposition', hcurpos', hcursor', FinshShell.store]
  split_ifs with hbehind
  · refine inv.edit hfits hle ?_ rfl rfl hinside
    have hn : (a ++ b).length - a.length = b.length := by simp
    rw [inv.line, htext, hn]
    exact memmove_delete hshort
  · obtain rfl : b = [] := by
      rw [List.length_append] at hbehind
      exact List.eq_nil_of_length_eq_zero (by omega)
    refine inv.edit hfits hle ?_ rfl rfl hinside
    rw [inv.line, htext, List.append_nil]
    exact pad_concat_set hshort

theorem insertIdx_length (a b : Text) (ch : UInt8) :
    (a ++ b).insertIdx a.length ch = a ++ ch :: b := by
  induction a with
  | nil => rfl
  | cons x a ih =>
    simp only [List.cons_append, List.length_cons, List.insertIdx_succ_cons]
    rw [ih]

theorem Inv.insert (inv : Inv s e) (hne : ch ≠ 0) (hroom : e.text.length + 1 < finshCmdSize) :
    Inv (insert s ch) (e.type ch) := by
  have hcurpos := inv.curpos
  have hposition := inv.position
  obtain ⟨a, b, htext, hcursor⟩ := inv.split
  have hlength : e.text.length = a.length + b.length := by rw [htext, List.length_append]
  have hshort : (a ++ b).length < finshCmdSize := htext ▸ inv.text.short
  have hinsert : e.text.insertIdx a.length ch = a ++ ch :: b := by
    rw [htext, insertIdx_length]
  have hfits : Fits (a ++ ch :: b) := by
    have hnoNul := inv.text.noNul
    rw [htext, List.mem_append] at hnoNul
    refine ⟨?_, fun h => ?_⟩
    · simp only [List.length_append, List.length_cons]
      omega
    · simp only [List.mem_append, List.mem_cons] at h
      exact h.elim (fun h => hnoNul (Or.inl h))
        (fun h => h.elim (fun h => hne h.symm) fun h => hnoNul (Or.inr h))
  have hle : a.length + 1 ≤ (a ++ ch :: b).length := by simp
  have hposition' : (s.linePosition + 1) % 256 = (a ++ ch :: b).length := by
    simp only [List.length_append, List.length_cons]
    unfold finshCmdSize at hroom
    omega
  have hcurpos' : (s.lineCurpos + 1) % 256 = a.length + 1 := by
    unfold finshCmdSize at hroom
    omega
  have hinside {i : ℕ} (hi : i ≤ a.length + b.length) :
      (s.outside || decide (finshCmdSize ≤ i)) = false := by
    rw [inv.inside, Bool.false_or, decide_eq_false_iff_not]
    omega
  have hfull : ¬finshCmdSize ≤ s.linePosition := by omega
  unfold Shell.insert Editor.type
  by_cases hbehind : s.lineCurpos < s.linePosition
  · simp only [if_neg hfull, if_pos hbehind, hcursor, hinsert, FinshShell.store]
    refine inv.edit hfits hle ?_ hposition' hcurpos' ?_
    · have hn : s.linePosition - s.lineCurpos = b.length := by omega
      rw [hn, inv.line, htext, hcurpos, hcursor]
      exact memmove_insert hshort ch
    · rw [hinside (by omega), Bool.false_or, decide_eq_false_iff_not]
      omega
  · simp only [if_neg hfull, if_neg hbehind, hcursor, hinsert, FinshShell.store]
    obtain rfl : b = [] := List.eq_nil_of_length_eq_zero (by omega)
    refine inv.edit hfits hle ?_ hposition' hcurpos' (hinside (by omega))
    have hn : s.linePosition = a.length := by simpa [hlength] using hposition
    rw [hn, inv.line, htext, List.append_nil]
    exact pad_set (by simpa using hshort) ch

/-! ### The end of a line -/

theorem history_length (e : Editor) :
    e.history.length = min finshHistoryLines e.entered.length := by
  rw [Editor.history, List.length_drop]
  omega

theorem history_of_length_le {l : List Text} (h : l.length ≤ finshHistoryLines) :
    l.drop (l.length - finshHistoryLines) = l := by
  rw [Nat.sub_eq_zero_of_le h, List.drop_zero]

theorem drop_concat_full {l : List Text} (h : finshHistoryLines ≤ l.length) (line : Text) :
    (l ++ [line]).drop ((l ++ [line]).length - finshHistoryLines)
      = (l.drop (l.length - finshHistoryLines)).tail ++ [line] := by
  have hpos : 0 < finshHistoryLines := by decide
  rw [List.length_append, List.length_singleton, List.tail_drop,
    List.drop_append_of_le_length (by omega),
    show l.length + 1 - finshHistoryLines = l.length - finshHistoryLines + 1 by omega]

theorem take_set_succ {α : Type*} {l : List α} {n : ℕ} (h : n < l.length) (a : α) :
    (l.set n a).take (n + 1) = l.take n ++ [a] := by
  rw [List.take_succ_eq_append_getElem (by simpa using h), List.take_set,
    List.set_eq_of_length_le (List.length_take_le _ _)]
  simp

/-- A line that is not empty goes to the end of the history. -/
theorem Inv.push (inv : Inv s e) (hne : e.text ≠ []) :
    Inv (shellPushHistory s) { e with
      entered := e.entered ++ [e.text]
      index := ((e.entered ++ [e.text]).drop
        ((e.entered ++ [e.text]).length - finshHistoryLines)).length } := by
  have hposition : s.linePosition ≠ 0 := by
    rw [inv.position]
    exact mt List.length_eq_zero_iff.1 hne
  have hrow : pad (s.line.take s.linePosition) = pad e.text := by
    rw [inv.line, inv.position, take_pad]
  have hentered : ∀ line ∈ e.entered ++ [e.text], Fits line ∧ line ≠ [] := by
    intro line hline
    obtain hold | hnew := List.mem_append.1 hline
    · exact inv.entered line hold
    · rw [List.mem_singleton.1 hnew]
      exact ⟨inv.text, hne⟩
  have hlen := history_length e
  have hcount := inv.count
  have hlines : finshHistoryLines = 5 := rfl
  unfold shellPushHistory
  simp only [if_pos hposition, hrow]
  by_cases hfull : finshHistoryLines ≤ s.historyCount
  · have hconcat := drop_concat_full (l := e.entered) (by omega) e.text
    have hall : s.cmdHistory = e.history.map pad := by
      rw [← inv.history, List.take_of_length_le]
      rw [inv.rows]
      exact hfull
    have hnew : s.cmdHistory.tail ++ [pad e.text] = (e.history.tail ++ [e.text]).map pad := by
      rw [hall, List.map_append, List.map_tail]
      rfl
    have hlength : (e.history.tail ++ [e.text]).length = finshHistoryLines := by
      rw [List.length_append, List.length_tail, List.length_singleton]
      omega
    simp only [if_pos hfull, hnew]
    refine { inv with
      entered := hentered
      rows := by rw [List.length_map, hlength]
      history := ?_
      count := ?_
      current := ?_
      index := le_rfl }
    · refine (List.take_of_length_le ?_).trans (congrArg (List.map pad) hconcat.symm)
      rw [List.length_map]
      exact hlength.le
    · exact hlength.symm.trans (congrArg List.length hconcat.symm)
    · exact hlength.symm.trans (congrArg List.length hconcat.symm)
  · have hroom : e.entered.length < finshHistoryLines := by omega
    have hold : e.history = e.entered := history_of_length_le hroom.le
    have hconcat : (e.entered ++ [e.text]).drop
        ((e.entered ++ [e.text]).length - finshHistoryLines) = e.entered ++ [e.text] :=
      history_of_length_le (by rw [List.length_append, List.length_singleton]; omega)
    have hcount' : s.historyCount + 1 = (e.entered ++ [e.text]).length := by
      rw [hcount, hold, List.length_append, List.length_singleton]
    simp only [if_neg hfull]
    refine { inv with
      entered := hentered
      rows := by rw [List.length_set, inv.rows]
      history := ?_
      count := ?_
      current := ?_
      index := le_rfl }
    · refine Eq.trans ?_ (congrArg (List.map pad) hconcat.symm)
      rw [take_set_succ (by rw [inv.rows]; omega), inv.history, hold, List.map_append]
      rfl
    · exact hcount'.trans (congrArg List.length hconcat.symm)
    · exact hcount'.trans (congrArg List.length hconcat.symm)

theorem Inv.enter (inv : Inv s e) : Inv (enter s) e.enter := by
  have hinside : (s.outside || decide (finshCmdSize ≤ s.linePosition)) = false := by
    rw [inv.inside, Bool.false_or, decide_eq_false_iff_not, inv.position, not_le]
    exact inv.text.short
  have hposition : (shellPushHistory s).linePosition = s.linePosition := by
    unfold shellPushHistory
    split_ifs <;> rfl
  have houtside : (shellPushHistory s).outside = s.outside := by
    unfold shellPushHistory
    split_ifs <;> rfl
  unfold Shell.enter Editor.enter
  by_cases hempty : e.text = []
  · have hzero : s.linePosition = 0 := by
      rw [inv.position, hempty]
      rfl
    have hpush : shellPushHistory s = { s with currentHistory := s.historyCount } := by
      simp only [shellPushHistory, hzero, ne_eq, not_true_eq_false, if_false]
    have inv' : Inv { s with currentHistory := s.historyCount }
        { e with index := e.history.length } :=
      { inv with current := inv.count, index := le_rfl }
    simp only [if_pos hempty, hpush, FinshShell.store]
    exact inv'.edit fits_nil le_rfl rfl rfl rfl hinside
  · have hpush := inv.push hempty
    simp only [if_neg hempty, FinshShell.store]
    refine hpush.edit fits_nil le_rfl rfl rfl rfl ?_
    rw [houtside]
    exact hinside

/-! ### Completion -/

theorem common_eq_take (s t : Text) : Editor.common s t = s.take (strCommon s t) := by
  induction s generalizing t with
  | nil => simp [Editor.common]
  | cons a s ih =>
    cases t with
    | nil => rfl
    | cons b t =>
      simp only [Editor.common, strCommon]
      split
      · rw [List.take_succ_cons, ih]
      · rfl

theorem strCommon_take (s t : Text) (n : ℕ) : strCommon (s.take n) t = min n (strCommon s t) := by
  induction s generalizing t n with
  | nil => simp [strCommon]
  | cons a s ih =>
    cases n with
    | zero => simp [strCommon]
    | succ n =>
      cases t with
      | nil => simp [strCommon]
      | cons b t =>
        simp only [List.take_succ_cons, strCommon, ih]
        split
        · omega
        · rfl

/-- Where the names agree with the first one is where they agree. -/
theorem foldl_common (name : Text) (names : List Text) (n : ℕ) :
    names.foldl Editor.common (name.take n)
      = name.take (names.foldl (fun n name' => min n (strCommon name name')) n) := by
  induction names generalizing n with
  | nil => rfl
  | cons name' names ih =>
    simp only [List.foldl_cons]
    rw [common_eq_take, strCommon_take, List.take_take, min_comm (min n _) n, ← min_assoc,
      min_self, ih]

theorem listPrefix_eq (names : List Text) (text : Text) :
    (listPrefix names text).getD text = Editor.completion names text := by
  unfold listPrefix Editor.completion
  cases names.filter (text.isPrefixOf ·) with
  | nil => simp
  | cons name names =>
    by_cases hempty : text = []
    · simp [hempty]
    · simp only [if_neg hempty, Option.getD_some]
      rw [← foldl_common, List.take_length]

theorem prefix_common {s t u : Text} (ht : s <+: t) (hu : s <+: u) : s <+: Editor.common t u := by
  induction s generalizing t u with
  | nil => exact List.nil_prefix
  | cons a s ih =>
    obtain ⟨t', rfl⟩ := ht
    obtain ⟨u', rfl⟩ := hu
    simp only [List.cons_append, Editor.common, if_true, List.cons_prefix_cons, true_and]
    exact ih (List.prefix_append _ _) (List.prefix_append _ _)

theorem prefix_foldl_common {text name : Text} {names : List Text} (hname : text <+: name)
    (hnames : ∀ name' ∈ names, text <+: name') : text <+: names.foldl Editor.common name := by
  induction names generalizing name with
  | nil => exact hname
  | cons name' names ih =>
    rw [List.forall_mem_cons] at hnames
    exact ih (prefix_common hname hnames.1) hnames.2

/-- A completion goes on from the line, and is the beginning of a name if it is longer. -/
theorem completion_cases (names : List Text) (text : Text) :
    Editor.completion names text = text
      ∨ text <+: Editor.completion names text
        ∧ ∃ name ∈ names, Editor.completion names text <+: name := by
  unfold Editor.completion
  split_ifs with hempty
  · exact Or.inl rfl
  cases hnames : names.filter (text.isPrefixOf ·) with
  | nil => exact Or.inl rfl
  | cons name rest =>
    right
    have hmem : ∀ name' ∈ name :: rest, name' ∈ names ∧ text <+: name' := fun name' h => by
      rw [← hnames] at h
      obtain ⟨hmem, hbegins⟩ := List.mem_filter.1 h
      exact ⟨hmem, List.isPrefixOf_iff_prefix.1 hbegins⟩
    rw [List.forall_mem_cons] at hmem
    refine ⟨prefix_foldl_common hmem.1.2 fun name' h => (hmem.2 name' h).2, name, hmem.1.1, ?_⟩
    have htake := foldl_common name rest name.length
    rw [List.take_length] at htake
    show rest.foldl Editor.common name <+: name
    rw [htake]
    exact List.take_prefix _ _

theorem completion_noNul {names : List Text} (hnames : ∀ name ∈ names, 0 ∉ name)
    (htext : 0 ∉ text) : 0 ∉ Editor.completion names text := by
  obtain heq | ⟨-, name, hmem, hbegins⟩ := completion_cases names text
  · rwa [heq]
  · exact fun h => hnames name hmem (hbegins.subset h)

theorem length_completion (names : List Text) (text : Text) :
    text.length ≤ (Editor.completion names text).length := by
  obtain heq | ⟨hbegins, -⟩ := completion_cases names text
  · rw [heq]
  · exact hbegins.length_le

/-- A longer string over the beginning of the line. -/
theorem append_drop_pad (h : text.length ≤ name.length) :
    name ++ (pad text).drop name.length = pad name := by
  rw [pad, List.drop_append, List.drop_eq_nil_of_le h, List.nil_append, List.drop_replicate, pad]
  congr 2
  omega

/-- The line after the completion, whatever its length. -/
theorem tab_eq (inv : Inv s e) (names : List Text) : tab names s
    = { s with
        line := pad (Editor.completion names e.text)
        linePosition := strlen (pad (Editor.completion names e.text))
        lineCurpos := strlen (pad (Editor.completion names e.text))
        outside := finshCmdSize < (Editor.completion names e.text).length } := by
  have hline : s.line.takeWhile (· ≠ 0) = e.text := by
    rw [inv.line]
    exact takeWhile_pad inv.text.noNul
  have hcompletion := listPrefix_eq names e.text
  have hlength := length_completion names e.text
  unfold tab
  rw [hline]
  cases hbegins : listPrefix names e.text with
  | none =>
    rw [hbegins] at hcompletion
    have hcompletion : e.text = Editor.completion names e.text := hcompletion
    have hinside : s.outside = decide (finshCmdSize < e.text.length) := by
      rw [inv.inside]
      exact (decide_eq_false (not_lt.2 inv.text.short.le)).symm
    simp only [← hcompletion, ← hinside, inv.line]
  | some name =>
    rw [hbegins] at hcompletion
    have hcompletion : name = Editor.completion names e.text := hcompletion
    simp only [inv.inside, Bool.false_or, inv.line, ← hcompletion]
    rw [append_drop_pad (hcompletion ▸ hlength)]

theorem Inv.tab (inv : Inv s e) {names : List Text} (hnames : ∀ name ∈ names, 0 ∉ name)
    (hroom : (Editor.completion names e.text).length < finshCmdSize) :
    Inv (tab names s) (e.complete names) := by
  have hnoNul := completion_noNul hnames inv.text.noNul
  rw [tab_eq inv, strlen_pad hnoNul]
  exact inv.edit ⟨hroom, hnoNul⟩ le_rfl rfl rfl rfl (decide_eq_false (not_lt.2 hroom.le))

/-! ### One character -/

/-- A character that is inserted when it is no part of a key. -/
def IsNormal (ch : UInt8) : Prop :=
  ch ≠ 0x0d ∧ ch ≠ 0x0a ∧ ch ≠ 0x09 ∧ ch ≠ 0x7f ∧ ch ≠ 0x08

/-- A character that is no part of a key, after those before it. -/
def IsPlain (stat : InputStat) (ch : UInt8) : Prop :=
  ch ≠ 0x1b ∧ (stat = .specKey → ch ≠ 0x5b)
    ∧ (stat = .funcKey → ch ≠ 0x41 ∧ ch ≠ 0x42 ∧ ch ≠ 0x44 ∧ ch ≠ 0x43)

/-- There is room for what is inserted, and a character that follows a carriage return at once is one
    that ends the line, too, or the first of a line when none of the history has been recalled. -/
structure OpOk (s : FinshShell) (a : Received) : Prop where
  room : IsPlain s.stat a.ch → IsNormal a.ch → s.linePosition + 1 < finshCmdSize
  completion : a.ch = 0x09 →
    (Editor.completion a.names (s.line.take s.linePosition)).length < finshCmdSize
  lone : a.ch = 0x0d → ∀ ch, a.next = some ch → ch = 0x0d ∨ ch = 0x0a
    ∨ s.linePosition = 0 ∧ s.currentHistory = s.historyCount ∧ ch ≠ 0x1b ∧ IsNormal ch

theorem Received.noNul_of_mem (a : Received) : ∀ name ∈ a.names, 0 ∉ name := by
  intro name hname
  obtain hmem | hmem := List.mem_append.1 hname
  · exact a.names_ne name (List.mem_append_left _ (List.mem_of_mem_filter hmem))
  · exact a.names_ne name (List.mem_append_right _ hmem)

/-- What is done with a character that is no part of a key, once it is known to be one. -/
theorem handle_of_ne (a : Received) (h : a.ch ≠ 0x0d) (s : FinshShell) : handle s a
    = if a.ch = 0x09 then tab a.names s
      else if a.ch = 0x7f ∨ a.ch = 0x08 then backspace s
      else if a.ch = 0x0a then enter s
      else insert s a.ch := by
  rw [handle, if_neg h]

theorem Inv.handle_char (inv : Inv s e) (a : Received) (h : a.ch ≠ 0x0d)
    (hroom : IsNormal a.ch → s.linePosition + 1 < finshCmdSize)
    (hcompletion : a.ch = 0x09 → (Editor.completion a.names e.text).length < finshCmdSize) :
    Inv (handle s a) (e.handle a.names a.ch) := by
  rw [handle_of_ne a h]
  unfold Editor.handle
  by_cases htab : a.ch = 0x09
  · rw [if_pos htab, if_neg (by rw [htab]; decide), if_pos htab]
    exact inv.tab a.noNul_of_mem (hcompletion htab)
  by_cases hback : a.ch = 0x7f ∨ a.ch = 0x08
  · have hend : ¬(a.ch = 0x0d ∨ a.ch = 0x0a) := by
      obtain hch | hch := hback <;> rw [hch] <;> decide
    rw [if_neg htab, if_pos hback, if_neg hend, if_neg htab, if_pos hback]
    exact inv.backspace
  by_cases hlf : a.ch = 0x0a
  · rw [if_neg htab, if_neg hback, if_pos hlf, if_pos (Or.inr hlf)]
    exact inv.enter
  · have hend : ¬(a.ch = 0x0d ∨ a.ch = 0x0a) := not_or.2 ⟨h, hlf⟩
    rw [if_neg htab, if_neg hback, if_neg hlf, if_neg hend, if_neg htab, if_neg hback]
    refine inv.insert a.ch_ne ?_
    rw [← inv.position]
    exact hroom ⟨h, hlf, htab, not_or.1 hback⟩

theorem enter_enter (e : Editor) : e.enter.enter = e.enter := by
  simp [Editor.enter, Editor.history]

theorem enter_of_nil (htext : e.text = []) (hcursor : e.cursor = 0)
    (hindex : e.index = e.history.length) : e.enter = e := by
  unfold Editor.enter
  simp only [if_pos htext]
  rw [← hindex, ← htext, ← hcursor]

theorem step_plain {a : Received} (h : IsPlain s.stat a.ch) :
    step s a = handle { s with stat := .normal } a := by
  obtain ⟨hesc, hspec, hfunc⟩ := h
  unfold step
  rw [if_neg hesc]
  cases hstat : s.stat with
  | normal => simp [← hstat]
  | specKey => simp [hspec hstat]
  | funcKey => simp [hfunc hstat]

theorem read_plain {names : List Text} (h : IsPlain e.stat ch) :
    e.read names ch = Editor.handle { e with stat := .normal } names ch := by
  obtain ⟨hesc, hspec, hfunc⟩ := h
  unfold Editor.read
  rw [if_neg hesc]
  cases hstat : e.stat with
  | normal => simp [← hstat]
  | specKey => simp [hspec hstat]
  | funcKey => simp [hfunc hstat]

theorem step_of_ne {a : Received} (h : a.ch ≠ 0x0d) : e.step a = e.read a.names a.ch := by
  unfold Editor.step
  cases a.next with
  | none => rfl
  | some ch => simp [h]

theorem isPlain_cr (stat : InputStat) : IsPlain stat 0x0d := by
  refine ⟨by decide, fun _ => by decide, fun _ => by decide⟩

theorem isPlain_normal (h : ch ≠ 0x1b) : IsPlain .normal ch :=
  ⟨h, (nomatch ·), (nomatch ·)⟩

/-- A part of a key. -/
theorem Inv.key (inv : Inv s e) {a : Received} (h : ¬IsPlain s.stat a.ch) :
    Inv (step s a) (e.step a) := by
  have hcr : a.ch ≠ 0x0d := fun hcr => h (hcr ▸ isPlain_cr s.stat)
  have hnormal := inv.setStat .normal
  have hstat := inv.stat
  rw [step_of_ne hcr]
  unfold step Editor.read
  by_cases hesc : a.ch = 0x1b
  · rw [if_pos hesc, if_pos hesc]
    exact inv.setStat .specKey
  rw [if_neg hesc, if_neg hesc, ← hstat]
  cases hs : s.stat with
  | normal => exact absurd ⟨hesc, by simp [hs], by simp [hs]⟩ h
  | specKey =>
    have hch : a.ch = 0x5b := by
      by_contra hne
      exact h ⟨hesc, fun _ => hne, by simp [hs]⟩
    simp only [if_pos hch]
    exact inv.setStat .funcKey
  | funcKey =>
    have hch : a.ch = 0x41 ∨ a.ch = 0x42 ∨ a.ch = 0x44 ∨ a.ch = 0x43 := by
      by_contra hne
      push Not at hne
      exact h ⟨hesc, by simp [hs], fun _ => hne⟩
    obtain hch | hch | hch | hch := hch <;> simp only [hch]
    · exact hnormal.upKey
    · exact hnormal.downKey
    · exact hnormal.leftKey
    · exact hnormal.rightKey

theorem Inv.step_cr (inv : Inv s e) {a : Received} (hcr : a.ch = 0x0d)
    (hlone : ∀ ch, a.next = some ch → ch = 0x0d ∨ ch = 0x0a
      ∨ s.linePosition = 0 ∧ s.currentHistory = s.historyCount ∧ ch ≠ 0x1b ∧ IsNormal ch) :
    Inv (step s a) (e.step a) := by
  have hnormal := inv.setStat .normal
  have hread : e.read a.names a.ch = Editor.enter { e with stat := .normal } := by
    rw [read_plain (hcr ▸ isPlain_cr e.stat), hcr]
    rfl
  rw [step_plain (hcr ▸ isPlain_cr s.stat)]
  unfold handle Editor.step
  rw [if_pos hcr, hread]
  cases hnext : a.next with
  | none => exact hnormal.enter
  | some ch =>
    simp only [Option.getD_some, if_pos hcr]
    by_cases hend : ch = 0x0d ∨ ch = 0x0a
    · have hesc : ch ≠ 0x1b := by
        obtain rfl | rfl := hend <;> decide
      rw [if_pos hend, read_plain (isPlain_normal hesc), Editor.handle, if_pos hend]
      have henter := enter_enter { e with stat := .normal }
      exact henter ▸ hnormal.enter
    · obtain hch | hch | ⟨hposition, hcurrent, hesc, hch⟩ := hlone ch hnext
      · exact absurd (Or.inl hch) hend
      · exact absurd (Or.inr hch) hend
      have htext : e.text = [] :=
        List.eq_nil_of_length_eq_zero (inv.position.symm.trans hposition)
      have hcursor : e.cursor = 0 := by
        have := inv.cursor
        rw [htext, List.length_nil] at this
        omega
      have henter : Editor.enter { e with stat := .normal } = { e with stat := .normal } :=
        enter_of_nil htext hcursor (inv.current.symm.trans (hcurrent.trans inv.count))
      rw [if_neg hend, henter, read_plain (isPlain_normal hesc), Editor.handle, if_neg hend,
        if_neg hch.2.2.1, if_neg (not_or.2 hch.2.2.2)]
      refine hnormal.insert (fun h0 => a.next_ne (hnext.trans (congrArg some h0))) ?_
      show e.text.length + 1 < finshCmdSize
      rw [htext]
      decide

theorem Inv.step (inv : Inv s e) {a : Received} (hok : OpOk s a) : Inv (step s a) (e.step a) := by
  by_cases hcr : a.ch = 0x0d
  · exact inv.step_cr hcr (hok.lone hcr)
  by_cases hplain : IsPlain s.stat a.ch
  · rw [step_plain hplain, step_of_ne hcr, read_plain (inv.stat ▸ hplain)]
    refine (inv.setStat .normal).handle_char a hcr (hok.room hplain) fun htab => ?_
    have hcompletion := hok.completion htab
    rwa [inv.line, inv.position, take_pad] at hcompletion
  · exact inv.key hplain

/-! ### Where they part -/

/-- The position is beyond the line when there has been no room. -/
theorem insert_position (hposition : s.linePosition < finshCmdSize) :
    (insert s ch).linePosition = s.linePosition + 1 := by
  have hroom : ¬finshCmdSize ≤ s.linePosition := not_le.2 hposition
  have hmod : (s.linePosition + 1) % 256 = s.linePosition + 1 := by
    unfold finshCmdSize at hposition
    exact Nat.mod_eq_of_lt (by omega)
  simp only [Shell.insert, if_neg hroom, FinshShell.store]
  split_ifs <;> exact hmod

theorem insert_place (s : FinshShell) (ch : UInt8) :
    (insert s ch).currentHistory = s.currentHistory := by
  simp only [Shell.insert, FinshShell.store]
  split_ifs <;> rfl

theorem room_of_agrees (inv : Inv s e) {a : Received} {e' : Editor} (h : Agrees (step s a) e')
    (hplain : IsPlain s.stat a.ch) (hnormal : IsNormal a.ch) :
    s.linePosition + 1 < finshCmdSize := by
  obtain ⟨hcr, hlf, htab, hback⟩ := hnormal
  have hposition : s.linePosition < finshCmdSize := inv.position ▸ inv.text.short
  have hshort := h.position
  rw [step_plain hplain, handle_of_ne a hcr, if_neg htab, if_neg (not_or.2 hback), if_neg hlf,
    insert_position (s := { s with stat := .normal }) hposition] at hshort
  exact hshort

theorem completion_of_agrees (inv : Inv s e) {a : Received} {e' : Editor}
    (h : Agrees (step s a) e') (htab : a.ch = 0x09) :
    (Editor.completion a.names e.text).length < finshCmdSize := by
  have hplain : IsPlain s.stat a.ch := by
    rw [htab]
    exact ⟨by decide, fun _ => by decide, fun _ => by decide⟩
  have hshort := h.position
  rw [step_plain hplain, handle_of_ne a (by rw [htab]; decide), if_pos htab,
    tab_eq (inv.setStat .normal), strlen_pad] at hshort
  · exact hshort
  · exact completion_noNul a.noNul_of_mem inv.text.noNul

theorem lone_of_agrees (inv : Inv s e) {a : Received} (h : Agrees (step s a) (e.step a))
    (hcr : a.ch = 0x0d) (hnext : a.next = some ch) : ch = 0x0d ∨ ch = 0x0a
      ∨ s.linePosition = 0 ∧ s.currentHistory = s.historyCount ∧ ch ≠ 0x1b ∧ IsNormal ch := by
  by_contra hno
  push Not at hno
  obtain ⟨hch, hlf, hlone⟩ := hno
  have hread : e.read a.names a.ch = Editor.enter { e with stat := .normal } := by
    rw [read_plain (hcr ▸ isPlain_cr e.stat), hcr]
    rfl
  have hstep : step s a = insert { s with stat := .normal } ch := by
    rw [step_plain (hcr ▸ isPlain_cr s.stat), handle, if_pos hcr, hnext]
    exact if_neg (not_or.2 ⟨hch, hlf⟩)
  have hstep' : e.step a = (Editor.enter { e with stat := .normal }).read a.names ch := by
    unfold Editor.step
    rw [hread, hnext]
    exact if_pos hcr
  have hposition : s.linePosition < finshCmdSize := inv.position ▸ inv.text.short
  have hroom : e.text.length + 1 < finshCmdSize := by
    have hshort := h.position
    rw [hstep, insert_position (s := { s with stat := .normal }) hposition] at hshort
    rw [← inv.position]
    exact hshort
  have hne : ch ≠ 0 := fun h0 => a.next_ne (hnext.trans (congrArg some h0))
  -- The line has one character more, while that of the editor is empty or that character.
  have hinserted := ((inv.setStat .normal).insert hne hroom).agrees.text
  have htext := h.text
  rw [hstep] at htext
  have hlength : (e.step a).text.length = e.text.length + 1 := by
    rw [← htext, hinserted, Editor.type, List.length_insertIdx, if_pos inv.cursor]
  rw [hstep'] at hlength
  by_cases hesc : ch = 0x1b
  · rw [Editor.read, if_pos hesc] at hlength
    simp [Editor.enter] at hlength
  rw [read_plain (isPlain_normal hesc)] at hlength
  have hend : ¬(ch = 0x0d ∨ ch = 0x0a) := not_or.2 ⟨hch, hlf⟩
  by_cases htab : ch = 0x09
  · rw [Editor.handle, if_neg hend, if_pos htab] at hlength
    simp [Editor.complete, Editor.completion, Editor.enter] at hlength
  by_cases hback : ch = 0x7f ∨ ch = 0x08
  · rw [Editor.handle, if_neg hend, if_neg htab, if_pos hback] at hlength
    simp [Editor.delete, Editor.enter] at hlength
  rw [Editor.handle, if_neg hend, if_neg htab, if_neg hback] at hlength
  have hempty : e.text = [] := by
    refine List.eq_nil_of_length_eq_zero ?_
    simpa [Editor.type, Editor.enter] using hlength.symm
  have hplace := h.place
  rw [hstep, insert_place, hstep', read_plain (isPlain_normal hesc), Editor.handle, if_neg hend,
    if_neg htab, if_neg hback] at hplace
  have hindex : (Editor.type { Editor.enter { e with stat := .normal } with stat := .normal }
      ch).index = e.history.length := by
    simp [Editor.type, Editor.enter, Editor.history, hempty]
  refine hlone ?_ (hplace.trans (hindex.trans inv.count.symm)) hesc
    ⟨hch, hlf, htab, not_or.1 hback⟩
  rw [inv.position, hempty]
  rfl

theorem Inv.opOk (inv : Inv s e) {a : Received} (h : Agrees (Shell.step s a) (e.step a)) :
    OpOk s a where
  room := room_of_agrees inv h
  completion htab := by
    rw [inv.line, inv.position, take_pad]
    exact completion_of_agrees inv h htab
  lone hcr _ hnext := lone_of_agrees inv h hcr hnext

/-! ### Runs -/

/-- The shell and the editor, side by side. -/
def both (p : FinshShell × Editor) (a : Received) : FinshShell × Editor :=
  (step p.1 a, p.2.step a)

/-- After every character the shell holds what the editor does, as long as there is room for the
    characters and the completions, and no carriage return is followed at once by something else
    than the end of a line. -/
theorem agrees_of_run (as : List Received) :
    Runs.Along both (fun p a => Agrees (both p a).1 (both p a).2) (start, Editor.start) as
      ↔ Runs.Along both (fun p a => OpOk p.1 a) (start, Editor.start) as :=
  Runs.Along.iff (I := fun p : FinshShell × Editor => Inv p.1 p.2)
    (fun _ _ inv => ⟨inv.opOk, fun hok => (inv.step hok).agrees⟩)
    (fun _ _ inv hok => inv.step hok) as Inv.start

/-- The character `a`, with nothing behind it. -/
def letter : Received := ⟨0x61, none, [], [], by decide, by decide, by decide⟩

/-- Eighty letters fill the line: there is no room for a `;`, or for a terminator. -/
theorem not_agrees_of_long : ¬Runs.Along both (fun p a => Agrees (both p a).1 (both p a).2)
    (start, Editor.start) (List.replicate 80 letter) := by
  rw [show List.replicate 80 letter = List.replicate 79 letter ++ [letter] from rfl, along_append]
  rintro ⟨-, hlast, -⟩
  have hposition := hlast.position
  revert hposition
  decide +kernel

end EasyCore.Finsh.Shell
