import EasyCore.Lib.Runs

/-! The main loop of the PPP service (`applications/ppp_service.c`). Every hundredth round, once the
    link is up, it asks the modem for the signal quality, and counts the questions without an
    answer.

        normal ▶ initmodem ▶ initppp ▶ pppsuccess ▶ ppperror
                    ▲                                  │
                    └──────────────────────────────────┘ -/

namespace EasyCore.PppService
open Runs

/-- `SYSTEM_STATUS` -/
inductive SystemStatus
  | normal
  | initmodem
  | initppp
  | ppperror
  | pppsuccess
  deriving DecidableEq

/-- `PPPSTATUS` -/
inductive PppStatus
  | none
  | init
  | initmodem
  | protoStart
  | protoSuccess
  | protoStop
  | protoError
  | protoTimeout
  deriving DecidableEq

/-- `privd`, and the static variables of the file. For the statements below, `silent` counts the
    unanswered questions since the last answer, and `declared` has its value at each time that the
    supervision declared an error. -/
structure Ppp where
  systemStatus : SystemStatus
  pppdStatus : PppStatus
  pppconnectCnt : UInt8
  routtingCounter : UInt8
  atcsqErrCnt : UInt8
  lastRvSerialDataJiff : UInt32
  pppdPd : ℤ
  silent : ℕ
  declared : List ℕ

/-- What a round finds: the second, whether the XMPP client is connected, what `pppOpen` would
    return, and whether the modem would answer "AT+CSQ" (`at_cmd_ret_code` is `AT_RESP_OK`). -/
structure Env where
  second : UInt32
  xmppConnected : Bool
  opened : ℤ
  answers : Bool
  deriving DecidableEq

/-- `check_ppp_timeout` -/
def checkPppTimeout (env : Env) (s : Ppp) : Ppp :=
  let s := if s.lastRvSerialDataJiff = 0 then { s with lastRvSerialDataJiff := env.second } else s
  match s.pppdStatus with
  | .protoSuccess =>
    let serialCommTimeout : UInt32 := if env.xmppConnected then 600 else 240
    if serialCommTimeout < env.second - s.lastRvSerialDataJiff then
      { s with pppdStatus := .protoTimeout, lastRvSerialDataJiff := env.second }
    else s
  | _ => { s with lastRvSerialDataJiff := env.second }

/-- `ppp_routing`; the outcome of `dial` is ignored. -/
def pppRouting (env : Env) (s : Ppp) : Ppp :=
  let s := checkPppTimeout env s
  match s.pppdStatus with
  | .none => { s with pppdStatus := .initmodem }
  | .initmodem =>
    { s with
      pppdPd := if s.pppdPd < 0 then env.opened else s.pppdPd
      pppdStatus := .protoStart }
  | .protoTimeout | .protoError => { s with pppdStatus := .protoStop, systemStatus := .ppperror }
  | .init | .protoStart | .protoSuccess | .protoStop => s

/-- The question and its count; nothing resets `atcsq_err_cnt`. -/
def checkCsq (env : Env) (s : Ppp) : Ppp :=
  if env.answers then { s with silent := 0 }
  else
    let s := { s with atcsqErrCnt := s.atcsqErrCnt + 1, silent := s.silent + 1 }
    if 5 < s.atcsqErrCnt then
      { s with pppdStatus := .protoError, declared := s.silent :: s.declared }
    else s

/-- The switch of a round. The modem has been set up when `init_modem` and `__restart_cmux` are
    through. -/
def dispatch (env : Env) (s : Ppp) : Ppp :=
  match s.systemStatus with
  | .normal => { s with systemStatus := .initmodem }
  | .initmodem =>
    { s with
      pppconnectCnt := s.pppconnectCnt + 1
      systemStatus := .initppp
      pppdStatus := .none }
  | .initppp =>
    let s := if s.routtingCounter % 100 = 0 then pppRouting env s else s
    if s.pppdStatus = .protoSuccess then { s with systemStatus := .pppsuccess } else s
  | .ppperror => { s with systemStatus := .initmodem }
  | .pppsuccess =>
    if s.routtingCounter % 100 = 0 then checkCsq env (pppRouting env s) else s

/-- A round of `mainloop`. -/
def mainloop (env : Env) (s : Ppp) : Ppp :=
  let s := dispatch env { s with routtingCounter := s.routtingCounter + 1 }
  if 100 ≤ s.routtingCounter then { s with routtingCounter := 0 } else s

/-- `linkStatusCB` -/
def linkStatusCb (errCode : ℤ) (s : Ppp) : Ppp :=
  if errCode = -5 ∨ errCode = -8 then { s with pppdStatus := .protoError }
  else if errCode = 0 then { s with pppdStatus := .protoSuccess }
  else s

/-- A round, what PPP reports, and data from the modem at a second. -/
inductive Act
  | round (env : Env)
  | link (errCode : ℤ)
  | serial (second : UInt32)
  deriving DecidableEq

def step (s : Ppp) : Act → Ppp
  | .round env => mainloop env s
  | .link errCode => linkStatusCb errCode s
  | .serial second => { s with lastRvSerialDataJiff := second }

def start : Ppp where
  systemStatus := .normal
  pppdStatus := .none
  pppconnectCnt := 0
  routtingCounter := 0
  atcsqErrCnt := 0
  lastRvSerialDataJiff := 0
  pppdPd := -1
  silent := 0
  declared := []

def system : System Ppp Act where
  init s := s = start
  step s a s' := step s a = s'

/-- Each error is declared after more than five unanswered questions in a row. -/
def Patient (s : Ppp) : Prop := ∀ n ∈ s.declared, 5 < n

/-- The next round asks the modem. -/
def Asks (s : Ppp) : Prop := s.systemStatus = .pppsuccess ∧ (s.routtingCounter + 1) % 100 = 0

/-- An answer comes only while the count is zero. -/
def AnswerOk (s : Ppp) (a : Act) : Prop :=
  ∀ env, a = .round env → Asks s → env.answers = true → s.atcsqErrCnt = 0

/-! ### The count -/

/-- The count does not exceed the unanswered questions in a row. -/
structure Counted (s : Ppp) : Prop where
  count : s.atcsqErrCnt.toNat ≤ s.silent
  patient : Patient s

/-- The parts of the state that the count is about. -/
def Same (s s' : Ppp) : Prop :=
  s'.atcsqErrCnt = s.atcsqErrCnt ∧ s'.silent = s.silent ∧ s'.declared = s.declared

theorem Counted.same {s s' : Ppp} (h : Counted s) (hs : Same s s') : Counted s' := by
  obtain ⟨hcount, hsilent, hdeclared⟩ := hs
  exact ⟨hcount ▸ hsilent ▸ h.count, by rw [Patient, hdeclared]; exact h.patient⟩

theorem checkPppTimeout_same (env : Env) (s : Ppp) : Same s (checkPppTimeout env s) := by
  have hfirst : Same s (if s.lastRvSerialDataJiff = 0 then
      { s with lastRvSerialDataJiff := env.second } else s) := by
    split <;> exact ⟨rfl, rfl, rfl⟩
  simp only [checkPppTimeout]
  generalize (if s.lastRvSerialDataJiff = 0 then _ else _ : Ppp) = t at hfirst ⊢
  cases t.pppdStatus with
  | protoSuccess =>
    dsimp only
    generalize (if env.xmppConnected = true then 600 else 240 : UInt32) = serialCommTimeout
    split <;> exact hfirst
  | none | init | initmodem | protoStart | protoStop | protoError | protoTimeout => exact hfirst

theorem pppRouting_same (env : Env) (s : Ppp) : Same s (pppRouting env s) := by
  have h := checkPppTimeout_same env s
  simp only [pppRouting]
  split <;> exact h

theorem linkStatusCb_same (errCode : ℤ) (s : Ppp) : Same s (linkStatusCb errCode s) := by
  simp only [linkStatusCb]
  split
  · exact ⟨rfl, rfl, rfl⟩
  · split <;> exact ⟨rfl, rfl, rfl⟩

/-- A question keeps the count, if an answer comes only while it is zero. -/
theorem Counted.csq {env : Env} {s : Ppp} (h : Counted s)
    (hok : env.answers = true → s.atcsqErrCnt = 0) : Counted (checkCsq env s) := by
  simp only [checkCsq]
  split
  · next hanswer =>
    refine ⟨?_, h.patient⟩
    rw [hok hanswer]
    exact Nat.zero_le _
  · have hnext : (s.atcsqErrCnt + 1).toNat ≤ s.silent + 1 := by
      have hcount := h.count
      rw [UInt8.toNat_add]
      exact (Nat.mod_le _ _).trans (by simpa using hcount)
    split
    · next hmany =>
      refine ⟨hnext, fun n hn => ?_⟩
      rcases List.mem_cons.1 hn with rfl | hn
      · exact lt_of_lt_of_le (UInt8.lt_iff_toNat_lt.1 hmany) hnext
      · exact h.patient n hn
    · exact ⟨hnext, h.patient⟩

theorem Counted.dispatch {env : Env} {s : Ppp} (h : Counted s)
    (hok : s.systemStatus = .pppsuccess → s.routtingCounter % 100 = 0 → env.answers = true →
      s.atcsqErrCnt = 0) : Counted (dispatch env s) := by
  simp only [PppService.dispatch]
  cases hstatus : s.systemStatus with
  | normal | initmodem | ppperror => exact h.same ⟨rfl, rfl, rfl⟩
  | initppp =>
    refine h.same ?_
    have hroute := pppRouting_same env s
    dsimp only
    split
    · split <;> exact hroute
    · split <;> exact ⟨rfl, rfl, rfl⟩
  | pppsuccess =>
    dsimp only
    split
    · next hround =>
      have hroute := pppRouting_same env s
      refine (h.same hroute).csq fun hanswer => ?_
      rw [hroute.1]
      exact hok hstatus hround hanswer
    · exact h

theorem Counted.step {s : Ppp} {a : Act} (h : Counted s) (hok : AnswerOk s a) :
    Counted (step s a) := by
  cases a with
  | link errCode => exact h.same (linkStatusCb_same errCode s)
  | serial second => exact h.same ⟨rfl, rfl, rfl⟩
  | round env =>
    have hround : Counted (PppService.dispatch env
        { s with routtingCounter := s.routtingCounter + 1 }) := by
      refine Counted.dispatch (h.same ⟨rfl, rfl, rfl⟩) ?_
      intro hstatus hcounter hanswer
      exact hok env rfl ⟨hstatus, hcounter⟩ hanswer
    simp only [PppService.step, mainloop]
    split
    · exact hround.same ⟨rfl, rfl, rfl⟩
    · exact hround

/-- In a run where an answer comes only while the count is zero, an error is declared only after
    more than five unanswered questions in a row. -/
theorem patient_of_answerOk {s : Ppp} (h : Reach system AnswerOk s) : Patient s := by
  have hcounted : Counted s := by
    refine h.invariant (fun s hs => ?_) fun s a s' hs hok hstep => ?_
    · rw [show s = start from hs]
      refine ⟨Nat.zero_le _, fun n hn => ?_⟩
      cases hn
    · rw [← show PppService.step s a = s' from hstep]
      exact hs.step hok
  exact hcounted.patient

/-! ### Two runs -/

/-- A round that finds a modem that answers, or not. -/
def roundWith (answers : Bool) : Act := .round ⟨1, true, 0, answers⟩

/-- The rounds up to the first question and beyond: the link comes up after two hundred. -/
def acts (rounds : List Act) : List Act :=
  List.replicate 200 (roundWith false) ++ .link 0 :: rounds

/-- A step of a replay; it looks at the state, so that the state is evaluated step by step. -/
def replayStep (ok : Act → Bool) (s : Ppp) (a : Act) : Option Ppp :=
  if s.routtingCounter ≤ 100 ∧ s.atcsqErrCnt ≤ 6 ∧ s.systemStatus ≠ .ppperror ∧ ok a then
    some (step s a)
  else none

theorem replayStep_eq {ok : Act → Bool} {s s' : Ppp} {a : Act}
    (h : replayStep ok s a = some s') : ok a = true ∧ step s a = s' := by
  simp only [replayStep, Option.ite_none_right_eq_some, Option.some.injEq] at h
  exact ⟨h.1.2.2.2, h.2⟩

/-- The modem does not answer six times. -/
theorem patient_of_silence : ∃ s, Reach system AnswerOk s ∧ s.declared = [6] ∧ Patient s := by
  have hrun : (replay (replayStep fun a => a = roundWith false ∨ a = .link 0) start
      (acts (List.replicate 600 (roundWith false)))).map (fun s => s.declared) = some [6] := by
    decide +kernel
  obtain ⟨s, hs, hdeclared⟩ := Option.map_eq_some_iff.1 hrun
  have hreach : Reach system AnswerOk s := by
    refine Reach.of_replay (fun s a s' hstep => ?_) _ (.init rfl) hs
    obtain ⟨ha, hstep⟩ := replayStep_eq hstep
    refine ⟨fun env henv _ hanswer => ?_, hstep⟩
    rw [henv, decide_eq_true_eq] at ha
    rcases ha with ha | ha
    · cases ha
      cases hanswer
    · cases ha
  exact ⟨s, hreach, hdeclared, patient_of_answerOk hreach⟩

/-- An unanswered question, an answer, and five unanswered questions: an error. -/
theorem not_patient : ¬∀ s, Reachable system s → Patient s := by
  intro h
  have hrun : (replay (replayStep fun _ => true) start (acts (List.replicate 199 (roundWith false) ++
      roundWith true :: List.replicate 500 (roundWith false)))).map (fun s => s.declared) =
        some [5] := by
    decide +kernel
  obtain ⟨s, hs, hdeclared⟩ := Option.map_eq_some_iff.1 hrun
  have hreach : Reachable system s := by
    refine Reach.of_replay (fun s a s' hstep => ?_) _ (.init rfl) hs
    exact ⟨trivial, (replayStep_eq hstep).2⟩
  have hfive := h s hreach 5 (by simp [hdeclared])
  omega

end EasyCore.PppService
