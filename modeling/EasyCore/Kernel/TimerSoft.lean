import EasyCore.Kernel.TimerFlag
import EasyCore.Lib.Cursor

/-! The checks of the timer lists as loops (`rt_timer_check`, `rt_soft_timer_check`). The first reads
    the first timer of the list in each round; the second goes on to the node that was the next one
    before the function of a timer was called. -/

namespace EasyCore.Timer
open Function Relation EasyCore.Links EasyCore.Kernel EasyCore.Runs

/-- The timers, and the memory that the functions of the timers work on. -/
structure Sys (τ μ : Type*) where
  os : Timers τ
  mem : μ

section Check
variable {τ μ : Type*} [DecidableEq τ] (cfg : Config) (fuel : ℕ) (l : TimerList)
  (cb : τ → Sys τ μ → Sys τ μ)

/-- The body of both loops: if the timer at the node is due, it is removed, its function is called
    and it is started again or stopped. -/
def checkBody : Cursor.Body (Sys τ μ) (Node TimerList τ) τ
  | .head _, _ => none
  | .item t, s =>
    if s.os.due t then
      let s := cb t { s with os := timerRemove t s.os }
      some (t, (timerReturn cfg fuel t s.os).map fun os => { s with os := os })
    else none

/-- The node behind a node in the bottom row. -/
def nextNode (s : Sys τ μ) (m : Node TimerList τ) : Node TimerList τ := (s.os.row cfg.bottom).next m

/-- `rt_timer_check` on the list `l`: the timers whose functions are called in `n` rounds. -/
def rtTimerCheck : ℕ → Sys τ μ → List τ :=
  Cursor.reread (checkBody cfg fuel cb) fun s => s.os.first cfg l

/-- `rt_soft_timer_check` on the list `l`. -/
def rtSoftTimerCheck (n : ℕ) (s : Sys τ μ) : List τ :=
  Cursor.keep (checkBody cfg fuel cb) (nextNode cfg) n (s.os.first cfg l) s

/-- A node is on the list. -/
def OnList (s : Sys τ μ) (m : Node TimerList τ) : Prop := ∃ i, (nextNode cfg s)^[i] (.head l) = m

/-- The nodes that `rt_soft_timer_check` comes to in `n` rounds are on the list when it does. -/
def VisitsListed (n : ℕ) (s : Sys τ μ) : Prop :=
  Cursor.Visits (checkBody cfg fuel cb) (nextNode cfg) (OnList cfg l) n (s.os.first cfg l) s

/-- A round of `rt_timer_check`. -/
def CheckRound : Sys τ μ → Sys τ μ → Prop :=
  Cursor.Round (checkBody cfg fuel cb) fun s => s.os.first cfg l

/-- A node is that of a timer that is due. -/
def NodeDue (s : Sys τ μ) : Node TimerList τ → Prop
  | .head _ => False
  | .item t => s.os.due t = true

/-- The node behind the first one in `s` is the first one in `s'`; or it is on the list, and neither
    is due. -/
def KeepsNext (s s' : Sys τ μ) : Prop :=
  nextNode cfg s (s.os.first cfg l) = s'.os.first cfg l ∨
    OnList cfg l s' (nextNode cfg s (s.os.first cfg l)) ∧
      ¬NodeDue s' (nextNode cfg s (s.os.first cfg l)) ∧ ¬NodeDue s' (s'.os.first cfg l)

end Check

section Check
variable {τ μ : Type*} [DecidableEq τ] {cfg : Config} {fuel : ℕ} {l : TimerList}
  {cb : τ → Sys τ μ → Sys τ μ} {s s' : Sys τ μ} {m : Node TimerList τ} {t : τ}
  {R : ℕ → TimerList → List τ}

theorem checkBody_eq_none : checkBody cfg fuel cb m s = none ↔ ¬NodeDue s m := by
  cases m with
  | head h => simp [checkBody, NodeDue]
  | item t => simp [checkBody, NodeDue]

/-- The timer whose function is called is that of the node. -/
theorem tells_checkBody : Cursor.Tells (checkBody cfg fuel cb) := by
  have htimer : ∀ {m s t r}, checkBody cfg fuel cb m s = some (t, r) → m = .item t := by
    intro m s t r h
    cases m with
    | head h' => exact absurd h (by simp [checkBody])
    | item u =>
      obtain ⟨-, h⟩ := Option.ite_none_right_eq_some.1 h
      rw [(Prod.mk.inj (Option.some.inj h)).1]
  intro m m' s t r r' h h'
  rw [htimer h, htimer h']

omit [DecidableEq τ] in
theorem onList_first (s : Sys τ μ) : OnList cfg l s (s.os.first cfg l) := ⟨1, rfl⟩

omit [DecidableEq τ] in
/-- On a linked list these are the nodes of its timers. -/
theorem onList_iff (r : Rows cfg s.os R) : OnList cfg l s (.item t) ↔ t ∈ R cfg.bottom l := by
  have q := r.linked cfg.bottom le_rfl
  have hstep : ∀ {a b}, R cfg.bottom l = a ++ b → (nextNode cfg s) (before l a) = after l b :=
    fun hR => (q.link trivial hR).1
  constructor
  · rintro ⟨i, hi⟩
    have hnode : ∀ i, ∃ a b, R cfg.bottom l = a ++ b ∧ (nextNode cfg s)^[i] (.head l) = before l a := by
      intro i
      induction i with
      | zero => exact ⟨[], _, rfl, rfl⟩
      | succ i ih =>
        obtain ⟨a, b, hR, he⟩ := ih
        rw [iterate_succ_apply', he, hstep hR]
        cases b with
        | nil => exact ⟨[], _, rfl, rfl⟩
        | cons u b => exact ⟨a ++ [u], b, by simpa using hR, by simp⟩
    obtain ⟨a, b, hR, he⟩ := hnode i
    rw [hi] at he
    rcases List.eq_nil_or_concat' a with rfl | ⟨c, u, rfl⟩
    · exact absurd he (by simp)
    · rw [before_concat] at he
      rw [hR, Node.item.inj he]
      simp
  · intro h
    have hreach : ∀ {a b}, R cfg.bottom l = a ++ b → OnList cfg l s (before l a) := by
      intro a
      induction a using List.reverseRecOn with
      | nil => exact fun _ => ⟨0, rfl⟩
      | append_singleton a u ih =>
        intro b hR
        have hR' : R cfg.bottom l = a ++ u :: b := by simpa using hR
        obtain ⟨i, hi⟩ := ih hR'
        exact ⟨i + 1, by rw [iterate_succ_apply', hi, hstep hR', before_concat, after_cons]⟩
    obtain ⟨a, b, hR⟩ := List.append_of_mem h
    rw [← before_concat l a t]
    exact hreach (b := b) (by simpa using hR)

/-- A round keeps the next node as the loops see it. -/
theorem keepsNext_iff (cfg : Config) (fuel : ℕ) (l : TimerList) (cb : τ → Sys τ μ → Sys τ μ) :
    KeepsNext cfg l s s' ↔ Cursor.Keeps (checkBody cfg fuel cb) (fun s => s.os.first cfg l)
      (nextNode cfg) (OnList cfg l) s s' := by
  rw [KeepsNext, Cursor.Keeps, checkBody_eq_none, checkBody_eq_none]

/-- CORRECT: the checks call the same functions in the same order, and `rt_soft_timer_check` comes
    to nodes on the list only, exactly when every round keeps the next node. -/
theorem rtSoftTimerCheck_eq_iff (cfg : Config) (fuel : ℕ) (l : TimerList)
    (cb : τ → Sys τ μ → Sys τ μ) (s : Sys τ μ) :
    ((∀ n, rtSoftTimerCheck cfg fuel l cb n s = rtTimerCheck cfg fuel l cb n s) ∧
      ∀ n, VisitsListed cfg fuel l cb n s) ↔
    ∀ s₁ s₂, ReflTransGen (CheckRound cfg fuel l cb) s s₁ → CheckRound cfg fuel l cb s₁ s₂ →
      KeepsNext cfg l s₁ s₂ := by
  simp only [keepsNext_iff cfg fuel l cb]
  exact Cursor.same_iff_keeps tells_checkBody onList_first s

/-- A function that leaves the timers alone keeps the next node, if its timer is not periodic. -/
theorem keepsNext_of_quiet (hcb : ∀ t s, (cb t s).os.row = s.os.row ∧ (cb t s).os.timer = s.os.timer)
    (r : Rows cfg s.os R) (hp : ∀ t, (s.os.timer t).periodic = false)
    (h : CheckRound cfg fuel l cb s s') :
    KeepsNext cfg l s s' ∧ (∃ R', Rows cfg s'.os R') ∧ ∀ t, (s'.os.timer t).periodic = false := by
  obtain ⟨t, h⟩ := h
  dsimp only at h
  have q := r.linked cfg.bottom le_rfl
  cases hfirst : s.os.first cfg l with
  | head l' =>
    rw [hfirst] at h
    exact absurd h (by simp [checkBody])
  | item u =>
    rw [hfirst] at h
    obtain ⟨-, hround⟩ := Option.ite_none_right_eq_some.1 h
    obtain ⟨rfl, hs'⟩ := Prod.mk.inj (Option.some.inj hround)
    obtain ⟨hrow, htimer⟩ := hcb u { s with os := timerRemove u s.os }
    generalize cb u { s with os := timerRemove u s.os } = s₁ at hs' hrow htimer
    have hp₁ : ∀ t, (s₁.os.timer t).periodic = false := fun t => by
      rw [htimer]
      exact hp t
    obtain ⟨os, hos, rfl⟩ := Option.map_eq_some_iff.1 hs'
    rw [timerReturn, if_neg (by simp [hp₁])] at hos
    obtain rfl := Option.some.inj hos
    have r₁ := r.remove u
    have r' : Rows cfg (s₁.os.setActivated u false) fun i => without (R i) u :=
      ⟨fun i hi => hrow ▸ r₁.linked i hi, r₁.nested⟩
    obtain ⟨b, hR⟩ := r.first_item hfirst
    refine ⟨.inl ?_, ⟨_, r'⟩, fun t => ?_⟩
    · rw [hfirst, r'.first_eq, without, hR, List.erase_cons_head]
      exact q.item_next (a := []) trivial hR
    · exact (setActivated_periodic t).trans (hp₁ t)

/-- Functions that leave the timers alone do not tell the checks of one-shot timers apart. -/
theorem rtSoftTimerCheck_of_quiet
    (hcb : ∀ t s, (cb t s).os.row = s.os.row ∧ (cb t s).os.timer = s.os.timer)
    (r : Rows cfg s.os R) (hp : ∀ t, (s.os.timer t).periodic = false) (n : ℕ) :
    rtSoftTimerCheck cfg fuel l cb n s = rtTimerCheck cfg fuel l cb n s := by
  refine ((rtSoftTimerCheck_eq_iff cfg fuel l cb s).2 fun s₁ s₂ hpath hround => ?_).1 n
  have hquiet : (∃ R, Rows cfg s₁.os R) ∧ ∀ t, (s₁.os.timer t).periodic = false := by
    clear hround
    induction hpath with
    | refl => exact ⟨⟨R, r⟩, hp⟩
    | tail _ hr ih =>
      obtain ⟨⟨R₁, r₁⟩, hp₁⟩ := ih
      exact (keepsNext_of_quiet hcb r₁ hp₁ hr).2
  obtain ⟨⟨R₁, r₁⟩, hp₁⟩ := hquiet
  exact (keepsNext_of_quiet hcb r₁ hp₁ hround).1

end Check

/-- One-shot timers of the soft list; the number of a timer is its period. -/
def softBoard : Run (Fin 8) :=
  { board 0 with os := { (board 0).os with timer := fun t => ⟨false, false, true, t, 0⟩ } }

/-- The function of the timer `a` stops the timer `b`. -/
def stops {τ μ : Type*} [DecidableEq τ] (a b t : τ) (s : Sys τ μ) : Sys τ μ :=
  if t = a then { s with os := (rtTimerStop b s.os).2 } else s

/-- Both are due: `rt_soft_timer_check` calls the function of the second though it is stopped. -/
theorem soft_calls_stopped :
    ¬∀ (r : Run (Fin 8)) (cb : Fin 8 → Sys (Fin 8) Unit → Sys (Fin 8) Unit),
      Reachable (system oneRow) r →
      (∀ n, rtSoftTimerCheck oneRow 9 .soft cb n ⟨r.os, ()⟩ =
        rtTimerCheck oneRow 9 .soft cb n ⟨r.os, ()⟩) ∧
      ∀ n, VisitsListed oneRow 9 .soft cb n ⟨r.os, ()⟩ := by
  intro hall
  have hrun : (replay (Run.exec oneRow 9) softBoard [.start 2, .start 4, .tick 4]).map
      (fun r => (rtSoftTimerCheck oneRow 9 .soft (stops 2 4) 2 ⟨r.os, ()⟩,
        rtTimerCheck oneRow 9 .soft (stops 2 4) 2 ⟨r.os, ()⟩)) = some ([2, 4], [2]) := by decide +kernel
  obtain ⟨r, hr, he⟩ := Option.map_eq_some_iff.1 hrun
  obtain ⟨hsoft, hhard⟩ := Prod.mk.inj he
  have hinit : softBoard.Init := ⟨(board_init 0).1, fun _ => rfl, (board_init 0).2.2⟩
  have hsame := (hall r (stops 2 4) (Reach.of_replay (fun _ _ _ h => exec_step h) _
    (Reach.init hinit) hr)).1 2
  rw [hsoft, hhard] at hsame
  exact absurd hsame (by decide)

end EasyCore.Timer
