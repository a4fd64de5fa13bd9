import Mathlib

/-! The TCP clients (`easyio_core/lwip_raw_api_tcp_template.c`). Each is a state machine, driven by
    its routing, by the answers of the resolver, by its connection and by its user. One counter, of
    the routings that wait for an answer, is shared by all of them.

        init ──▶ dnsStart ──▶ dnsFinish ──▶ connecting ──▶ connected ──▶ disconnect
          ▲  ◀───── 10 routings                                              │
          └───────────────────────── reconnectDelay ◀── (type 1) ────────────┘ -/

namespace EasyCore.TcpClient
open Function

/-- The values of `active_status`. -/
inductive Status
  | pause
  | init
  | dnsStart
  | dnsFinish
  | connecting
  | connected
  | dnsErr
  | connectErr
  | disconnect
  | reconnectDelay
  deriving DecidableEq

/-- The functions of the user. -/
inductive Callback
  | recv
  | connected
  | disconn
  | connerr
  | routing
  deriving DecidableEq

/-- `struct TcpClientCon`; of the functions, which ones are set. -/
structure TcpClientCon where
  pcb : Option ℕ
  ipaddr : UInt32
  port : ℤ
  activeStatus : Status
  hostname : List UInt8
  connectType : UInt8
  reconnectionTime : UInt32
  keepalive : UInt8
  connectingCount : UInt8
  isSet : Callback → Bool

/-- What a client does, the calls of its user's functions among it. After `reset` and `fault` nothing
    goes on. -/
inductive Action
  | dnsGethostbyname (hostname : List UInt8)
  | tcpNew
  | tcpConnect (pcb : ℕ) (ipaddr : UInt32) (port : ℤ)
  | tcpAbort (pcb : ℕ)
  | tcpClose (pcb : ℕ)
  | call (cb : Callback) (data : List UInt8)
  | reset
  | fault
  deriving DecidableEq

/-- What `dns_gethostbyname` returns. -/
inductive DnsResult
  | ok (ipaddr : UInt32)
  | inProgress
  | err

/-- What the calls of a routing return, and `app_timer_second`. -/
structure Env where
  dns : DnsResult
  tcpNew : Option ℕ
  connectOk : Bool
  second : UInt32

/-- What a call leaves: `dns_wait_count`, the client, and what it did. -/
structure Outcome where
  count : UInt8
  cli : TcpClientCon
  actions : List Action

/-- `if (cli->cb > 0) cli->cb(cli->arg)`. -/
def TcpClientCon.notify (cli : TcpClientCon) (cb : Callback) (data : List UInt8) : List Action :=
  if cli.isSet cb then [.call cb data] else []

/-- The end of a routing. -/
def routed (count : UInt8) (cli : TcpClientCon) (actions : List Action) : Outcome :=
  ⟨count, cli, actions ++ cli.notify .routing []⟩

/-- `MY_TCP_Client_Routing`. -/
def routing (env : Env) (count : UInt8) (cli : TcpClientCon) : Outcome :=
  match cli.activeStatus with
  | .init =>
    match env.dns with
    | .ok ipaddr =>
      routed 0 { cli with ipaddr, activeStatus := .dnsFinish } [.dnsGethostbyname cli.hostname]
    | .inProgress =>
      routed count { cli with activeStatus := .dnsStart } [.dnsGethostbyname cli.hostname]
    | .err => routed count cli [.dnsGethostbyname cli.hostname]
  | .dnsStart =>
    if 10 ≤ count + 1 then routed 0 { cli with activeStatus := .init } []
    else routed (count + 1) cli []
  | .dnsFinish =>
    let cli := { cli with connectingCount := cli.connectingCount + 1, pcb := env.tcpNew }
    match env.tcpNew with
    | none =>
      -- the option is set before the test
      if 0 < cli.keepalive then ⟨count, cli, [.tcpNew, .fault]⟩
      else routed count { cli with activeStatus := .connectErr } (.tcpNew :: cli.notify .connerr [])
    | some pcb =>
      let actions := [.tcpNew, .tcpConnect pcb cli.ipaddr cli.port]
      if env.connectOk then routed count { cli with activeStatus := .connecting } actions
      else ⟨count, { cli with activeStatus := .init }, actions⟩
  | .dnsErr | .connectErr | .disconnect =>
    if cli.connectType = 1 then
      if 100 < cli.connectingCount then ⟨count, cli, [.reset]⟩
      else routed count { cli with activeStatus := .reconnectDelay } []
    else routed count cli []
  | .reconnectDelay =>
    if cli.reconnectionTime < env.second then routed count { cli with activeStatus := .init } []
    else routed count cli []
  | .connecting => routed count cli []
  | .connected => routed count { cli with connectingCount := 0 } []
  | .pause => routed count cli []

/-- `my_found`. -/
def myFound (ipaddr : Option UInt32) (cli : TcpClientCon) : TcpClientCon × List Action :=
  match ipaddr with
  | none => ({ cli with activeStatus := .dnsErr }, cli.notify .connerr [])
  | some ipaddr => ({ cli with ipaddr, activeStatus := .dnsFinish }, [])

/-- `TcpCli_Connected`. -/
def tcpCliConnected (cli : TcpClientCon) : TcpClientCon × List Action :=
  ({ cli with activeStatus := .connected }, cli.notify .connected [])

/-- `ClientConError`. -/
def clientConError (cli : TcpClientCon) : TcpClientCon × List Action :=
  ({ cli with activeStatus := .connectErr }, cli.notify .connerr [])

/-- `tcp_client_recv_cb` with no error: the data, or nothing when the peer has closed; `mem` says
    whether there is memory for a copy. -/
def tcpClientRecvCb (data : Option (List UInt8)) (mem : Bool) (cli : TcpClientCon) :
    TcpClientCon × List Action :=
  match data with
  | some data => (cli, if mem then cli.notify .recv data else [])
  | none =>
    match cli.pcb with
    | none => (cli, [.fault])
    | some pcb =>
      ({ cli with activeStatus := .disconnect }, .tcpClose pcb :: cli.notify .disconn [])

/-- `MY_TCP_Client_stop`. `tcp_abort` calls the error function of the connection. -/
def myTcpClientStop (cli : TcpClientCon) : TcpClientCon × List Action :=
  if cli.activeStatus = .connected then
    match cli.pcb with
    | none => (cli, [.fault])
    | some pcb =>
      ({ (clientConError cli).1 with activeStatus := .disconnect },
        .tcpAbort pcb :: (clientConError cli).2 ++ cli.notify .disconn [])
  else (cli, [])

/-- What a client is set up with. -/
structure Config where
  hostname : List UInt8
  port : ℤ
  connectType : UInt8
  keepalive : UInt8
  isSet : Callback → Bool

/-- `MY_TCP_Client_Init`, and the functions that the user sets after it. -/
def myTcpClientInit (config : Config) : TcpClientCon where
  pcb := none
  ipaddr := 0
  port := config.port
  activeStatus := .pause
  hostname := config.hostname.take 63
  connectType := config.connectType
  reconnectionTime := 0
  keepalive := config.keepalive
  connectingCount := 0
  isSet := config.isSet

/-- `MY_TCP_Client_start`. -/
def myTcpClientStart (cli : TcpClientCon) : TcpClientCon × List Action :=
  ({ cli with activeStatus := .init }, [])

/-- `MY_TCP_Client_pause`. -/
def myTcpClientPause (cli : TcpClientCon) : TcpClientCon × List Action :=
  ({ (myTcpClientStop cli).1 with activeStatus := .pause }, (myTcpClientStop cli).2)

/-- What happens to a client. -/
inductive Event
  | routing (env : Env)
  | found (ipaddr : Option UInt32)
  | connected
  | conError
  | recv (data : Option (List UInt8)) (mem : Bool)
  | start
  | stop
  | pause

/-- The client and the counter after an event. -/
def exec (count : UInt8) (cli : TcpClientCon) : Event → Outcome
  | .routing env => routing env count cli
  | .found ipaddr => ⟨count, (myFound ipaddr cli).1, (myFound ipaddr cli).2⟩
  | .connected => ⟨count, (tcpCliConnected cli).1, (tcpCliConnected cli).2⟩
  | .conError => ⟨count, (clientConError cli).1, (clientConError cli).2⟩
  | .recv data mem => ⟨count, (tcpClientRecvCb data mem cli).1, (tcpClientRecvCb data mem cli).2⟩
  | .start => ⟨count, (myTcpClientStart cli).1, (myTcpClientStart cli).2⟩
  | .stop => ⟨count, (myTcpClientStop cli).1, (myTcpClientStop cli).2⟩
  | .pause => ⟨count, (myTcpClientPause cli).1, (myTcpClientPause cli).2⟩

/-! ### Several clients -/

variable {ι : Type*} [DecidableEq ι]

/-- The clients and `dns_wait_count`. -/
structure System (ι : Type*) where
  client : ι → TcpClientCon
  dnsWaitCount : UInt8

/-- The clients as they are set up. -/
def System.boot (config : ι → Config) : System ι where
  client := fun i => myTcpClientInit (config i)
  dnsWaitCount := 0

/-- An event at client `i`. -/
def System.step (s : System ι) (i : ι) (e : Event) : System ι where
  client := update s.client i (exec s.dnsWaitCount (s.client i) e).cli
  dnsWaitCount := (exec s.dnsWaitCount (s.client i) e).count

/-- What client `i` shows of a run: its states, and what it does. -/
def trace (i : ι) : System ι → List (ι × Event) → List (TcpClientCon × List Action)
  | _, [] => []
  | s, (j, e) :: run =>
    if j = i then
      let o := exec s.dnsWaitCount (s.client i) e
      (o.cli, o.actions) :: trace i (s.step j e) run
    else trace i (s.step j e) run

/-- The calls and events of client `i`. -/
def own (i : ι) (run : List (ι × Event)) : List (ι × Event) := run.filter fun e => e.1 = i

/-- Client `i` does in the run what it does with its own part of it. -/
def Independent (i : ι) (s : System ι) (run : List (ι × Event)) : Prop :=
  trace i s run = trace i s (own i run)

/-- Whether a routing of the client gives up waiting for an answer. -/
def givesUp (count : UInt8) (cli : TcpClientCon) : Event → Bool
  | .routing _ => cli.activeStatus = .dnsStart && 10 ≤ count + 1
  | _ => false

/-- Client `i` gives up waiting whenever it would have done so with a counter of its own, which is
    now at `count`. -/
def OwnTime (i : ι) : System ι → UInt8 → List (ι × Event) → Prop
  | _, _, [] => True
  | s, count, (j, e) :: run =>
    if j = i then
      givesUp s.dnsWaitCount (s.client i) e = givesUp count (s.client i) e ∧
        OwnTime i (s.step j e) (exec count (s.client i) e).count run
    else OwnTime i (s.step j e) count run

/-! ### What the counter decides -/

@[simp] theorem routed_cli (count : UInt8) (cli : TcpClientCon) (actions : List Action) :
    (routed count cli actions).cli = cli := rfl

@[simp] theorem routed_count (count : UInt8) (cli : TcpClientCon) (actions : List Action) :
    (routed count cli actions).count = count := rfl

@[simp] theorem routed_actions (count : UInt8) (cli : TcpClientCon) (actions : List Action) :
    (routed count cli actions).actions = actions ++ cli.notify .routing [] := rfl

/-- A routing of a waiting client. -/
theorem exec_dnsStart {cli : TcpClientCon} (hst : cli.activeStatus = .dnsStart) (count : UInt8)
    (env : Env) :
    exec count cli (.routing env) =
      if givesUp count cli (.routing env) = true then routed 0 { cli with activeStatus := .init } []
      else routed (count + 1) cli [] := by
  simp [exec, routing, givesUp, hst]

/-- A routing in another state does the same whatever the counter is. -/
theorem routing_frame {cli : TcpClientCon} (hst : cli.activeStatus ≠ .dnsStart) (env : Env)
    (count count' : UInt8) :
    (routing env count cli).cli = (routing env count' cli).cli ∧
      (routing env count cli).actions = (routing env count' cli).actions := by
  simp only [routing]
  cases h : cli.activeStatus with
  | dnsStart => exact absurd h hst
  | init => cases env.dns <;> exact ⟨rfl, rfl⟩
  | dnsFinish =>
    cases hnew : env.tcpNew with
    | none => dsimp only; split <;> exact ⟨rfl, rfl⟩
    | some pcb => dsimp only; split <;> exact ⟨rfl, rfl⟩
  | dnsErr | connectErr | disconnect =>
    dsimp only
    split
    · split <;> exact ⟨rfl, rfl⟩
    · exact ⟨rfl, rfl⟩
  | reconnectDelay => dsimp only; split <;> exact ⟨rfl, rfl⟩
  | connecting | connected | pause => exact ⟨rfl, rfl⟩

/-- The counter decides nothing but whether a routing gives up. -/
theorem exec_congr {count count' : UInt8} {cli : TcpClientCon} {e : Event}
    (h : givesUp count cli e = givesUp count' cli e) :
    (exec count cli e).cli = (exec count' cli e).cli ∧
      (exec count cli e).actions = (exec count' cli e).actions := by
  cases e with
  | routing env =>
    rcases eq_or_ne cli.activeStatus .dnsStart with hst | hst
    · rw [exec_dnsStart hst, exec_dnsStart hst, h]
      split <;> exact ⟨rfl, rfl⟩
    · exact routing_frame hst env count count'
  | found | connected | conError | recv | start | stop | pause => exact ⟨rfl, rfl⟩

/-- A client that gives up shows it. -/
theorem givesUp_eq {count count' : UInt8} {cli : TcpClientCon} {e : Event}
    (h : (exec count cli e).cli = (exec count' cli e).cli) :
    givesUp count cli e = givesUp count' cli e := by
  cases e with
  | routing env =>
    rcases eq_or_ne cli.activeStatus .dnsStart with hst | hst
    · rw [exec_dnsStart hst, exec_dnsStart hst] at h
      have hne : { cli with activeStatus := .init } ≠ cli := by
        intro heq
        have := congrArg TcpClientCon.activeStatus heq
        simp [hst] at this
      cases h1 : givesUp count cli (.routing env) <;> cases h2 : givesUp count' cli (.routing env)
      · rfl
      · simp [h1, h2] at h
        exact absurd h.symm hne
      · simp [h1, h2] at h
        exact absurd h hne
      · rfl
    · simp [givesUp, hst]
  | found | connected | conError | recv | start | stop | pause => rfl

/-! ### Independence -/

/-- The system with a counter of its own for one client. -/
def System.withCount (s : System ι) (count : UInt8) : System ι := { s with dnsWaitCount := count }

/-- What a client shows of its own part depends on its state and the counter at the start. -/
theorem trace_own (i : ι) : ∀ (run : List (ι × Event)) (s s' : System ι),
    s.client i = s'.client i → s.dnsWaitCount = s'.dnsWaitCount →
    trace i s (own i run) = trace i s' (own i run)
  | [], _, _, _, _ => rfl
  | (j, e) :: run, s, s', hc, hn => by
    rcases eq_or_ne j i with rfl | hj
    · have hown : own j ((j, e) :: run) = (j, e) :: own j run := by simp [own]
      rw [hown, trace, trace, if_pos rfl, if_pos rfl]
      simp only [hc, hn]
      rw [trace_own j run (s.step j e) (s'.step j e) (by simp [System.step, hc, hn])
        (by simp [System.step, hc, hn])]
    · have hown : own i ((j, e) :: run) = own i run := by simp [own, hj]
      rw [hown]
      exact trace_own i run s s' hc hn

theorem step_other {i j : ι} (hj : j ≠ i) (s : System ι) (e : Event) :
    (s.step j e).client i = s.client i := by
  simp [System.step, Ne.symm hj]

/-- Along a run, with the counter that the client alone would have. -/
theorem trace_iff (i : ι) : ∀ (run : List (ι × Event)) (s : System ι) (count : UInt8),
    trace i s run = trace i (s.withCount count) (own i run) ↔ OwnTime i s count run
  | [], s, count => by simp [trace, own, OwnTime]
  | (j, e) :: run, s, count => by
    rcases eq_or_ne j i with rfl | hj
    · have hown : own j ((j, e) :: run) = (j, e) :: own j run := by simp [own]
      rw [hown, trace, trace, OwnTime, if_pos rfl, if_pos rfl, if_pos rfl]
      simp only [List.cons.injEq, Prod.mk.injEq]
      have hsame : givesUp s.dnsWaitCount (s.client j) e = givesUp count (s.client j) e ↔
          (exec s.dnsWaitCount (s.client j) e).cli = (exec count (s.client j) e).cli ∧
            (exec s.dnsWaitCount (s.client j) e).actions =
              (exec count (s.client j) e).actions :=
        ⟨exec_congr, fun h => givesUp_eq h.1⟩
      rw [hsame]
      refine and_congr_right fun hstep => ?_
      rw [← trace_iff j run (s.step j e) (exec count (s.client j) e).count]
      rw [trace_own j run ((s.withCount count).step j e)
        ((s.step j e).withCount (exec count (s.client j) e).count)
        (by simp [System.step, System.withCount, hstep.1]) rfl]
    · have hown : own i ((j, e) :: run) = own i run := by simp [own, hj]
      rw [hown, trace, OwnTime, if_neg hj, if_neg hj, ← trace_iff i run (s.step j e) count]
      rw [trace_own i run (s.withCount count) ((s.step j e).withCount count)
        (step_other hj s e).symm rfl]

/-- CORRECT: a client depends on nothing but its own calls and events iff it gives up waiting at the
    times of a counter of its own. -/
theorem independent_iff (i : ι) (s : System ι) (run : List (ι × Event)) :
    Independent i s run ↔ OwnTime i s s.dnsWaitCount run :=
  trace_iff i run s s.dnsWaitCount

/-- A routing while the resolver is at work. -/
def unanswered : Event := .routing ⟨.inProgress, some 1, true, 0⟩

/-- Of two clients that wait for an answer, one gives up after its fifth routing. -/
theorem gives_up_early :
    ¬Independent true (System.boot fun _ => ⟨[], 80, 0, 0, fun _ => true⟩)
      ((false, .start) :: (true, .start) ::
        (List.replicate 6 [(false, unanswered), (true, unanswered)]).flatten) := by
  intro h
  have hstatus := congrArg (List.map fun p => p.1.activeStatus) h
  exact absurd hstatus (by decide)

/-! ### Answers -/

/-- The system after a run. -/
def System.after (s : System ι) (run : List (ι × Event)) : System ι :=
  run.foldl (fun s e => s.step e.1 e.2) s

/-- The state that an answer sets. -/
def answered : Option UInt32 → Status
  | none => .dnsErr
  | some _ => .dnsFinish

/-- The answers in a run change the state of a client only from `dnsStart`, to a resolved or a failed
    one. -/
def AnswersWhenAsked (s : System ι) (run : List (ι × Event)) : Prop :=
  ∀ before i ipaddr rest, run = before ++ (i, .found ipaddr) :: rest →
    let old := ((s.after before).client i).activeStatus
    let new := (((s.after before).step i (.found ipaddr)).client i).activeStatus
    new ≠ old → old = .dnsStart ∧ (new = .dnsFinish ∨ new = .dnsErr)

/-- An event that leaves a waiting client waiting. -/
def keepsWaiting (count : UInt8) (cli : TcpClientCon) : Event → Bool
  | .routing _ => !(10 ≤ count + 1)
  | .recv none _ => cli.pcb = none
  | .recv (some _) _ => true
  | .stop => true
  | _ => false

/-- Client `i` is left waiting by each event of the run. -/
def Undisturbed (i : ι) : System ι → List (ι × Event) → Prop
  | _, [] => True
  | s, (j, e) :: run =>
    (j = i → keepsWaiting s.dnsWaitCount (s.client i) e = true) ∧ Undisturbed i (s.step j e) run

/-- Client `i` has asked the resolver, and since then it has had no answer, has not given up and has
    not been put to something else. -/
def StillWaiting (i : ι) (s : System ι) (run : List (ι × Event)) : Prop :=
  ∃ before env rest, run = before ++ (i, .routing env) :: rest ∧ env.dns = .inProgress ∧
    ((s.after before).client i).activeStatus = .init ∧
    Undisturbed i ((s.after before).step i (.routing env)) rest

/-- Each answer of the run finds its client still waiting, or in the state that it sets. -/
def Awaited (s : System ι) (run : List (ι × Event)) : Prop :=
  ∀ before i ipaddr rest, run = before ++ (i, .found ipaddr) :: rest →
    StillWaiting i s before ∨ ((s.after before).client i).activeStatus = answered ipaddr

/-- The event is the question to the resolver. -/
def Asks (cli : TcpClientCon) (e : Event) : Prop :=
  ∃ env, e = .routing env ∧ env.dns = .inProgress ∧ cli.activeStatus = .init

theorem routing_dnsStart_iff (env : Env) (count : UInt8) (cli : TcpClientCon) :
    (routing env count cli).cli.activeStatus = .dnsStart ↔
      env.dns = .inProgress ∧ cli.activeStatus = .init ∨
        cli.activeStatus = .dnsStart ∧ ¬10 ≤ count + 1 := by
  simp only [routing]
  cases h : cli.activeStatus with
  | init => cases env.dns <;> simp [h]
  | dnsStart => dsimp only; split <;> simp_all
  | dnsFinish =>
    cases hnew : env.tcpNew with
    | none => dsimp only; split <;> simp
    | some pcb => dsimp only; split <;> simp
  | dnsErr | connectErr | disconnect =>
    dsimp only
    split
    · split <;> simp [h]
    · simp [h]
  | reconnectDelay => dsimp only; split <;> simp [h]
  | connecting | connected | pause => simp [h]

theorem stop_status (cli : TcpClientCon) :
    (myTcpClientStop cli).1.activeStatus = cli.activeStatus ∨
      (myTcpClientStop cli).1.activeStatus = .disconnect ∧ cli.activeStatus = .connected := by
  simp only [myTcpClientStop]
  split
  · next h =>
    cases cli.pcb with
    | none => exact .inl rfl
    | some pcb => exact .inr ⟨rfl, h⟩
  · exact .inl rfl

/-- A client waits after an event iff it has just asked, or waited and is left waiting. -/
theorem exec_dnsStart_iff (count : UInt8) (cli : TcpClientCon) (e : Event) :
    (exec count cli e).cli.activeStatus = .dnsStart ↔
      Asks cli e ∨ cli.activeStatus = .dnsStart ∧ keepsWaiting count cli e = true := by
  cases e with
  | routing env =>
    rw [exec, routing_dnsStart_iff]
    simp [Asks, keepsWaiting]
  | found ipaddr => cases ipaddr <;> simp [exec, myFound, Asks, keepsWaiting]
  | connected => simp [exec, tcpCliConnected, Asks, keepsWaiting]
  | conError => simp [exec, clientConError, Asks, keepsWaiting]
  | recv data mem =>
    cases data with
    | some data => simp [exec, tcpClientRecvCb, Asks, keepsWaiting]
    | none => cases h : cli.pcb <;> simp [exec, tcpClientRecvCb, Asks, keepsWaiting, h]
  | start => simp [exec, myTcpClientStart, Asks, keepsWaiting]
  | stop =>
    rcases stop_status cli with h | ⟨h, hst⟩
    · simp [exec, h, Asks, keepsWaiting]
    · simp [exec, h, hst, Asks, keepsWaiting]
  | pause => simp [exec, myTcpClientPause, Asks, keepsWaiting]

theorem step_dnsStart_iff (s : System ι) (i j : ι) (e : Event) :
    ((s.step j e).client i).activeStatus = .dnsStart ↔
      (j = i ∧ Asks (s.client i) e) ∨ (s.client i).activeStatus = .dnsStart ∧
        (j = i → keepsWaiting s.dnsWaitCount (s.client i) e = true) := by
  rcases eq_or_ne j i with rfl | hj
  · simp [System.step, exec_dnsStart_iff]
  · simp [step_other hj, hj]

theorem after_concat (s : System ι) (run : List (ι × Event)) (e : ι × Event) :
    s.after (run ++ [e]) = (s.after run).step e.1 e.2 := by
  simp [System.after]

theorem undisturbed_concat (i j : ι) (e : Event) : ∀ (run : List (ι × Event)) (s : System ι),
    Undisturbed i s (run ++ [(j, e)]) ↔ Undisturbed i s run ∧
      (j = i → keepsWaiting (s.after run).dnsWaitCount ((s.after run).client i) e = true)
  | [], s => by simp [Undisturbed, System.after]
  | (k, f) :: run, s => by
    have ih := undisturbed_concat i j e run (s.step k f)
    simp only [List.cons_append, Undisturbed, ih, and_assoc]
    rfl

/-- One more event: it is the question itself, or leaves the client waiting. -/
theorem stillWaiting_concat (i j : ι) (e : Event) (run : List (ι × Event)) (s : System ι) :
    StillWaiting i s (run ++ [(j, e)]) ↔
      (j = i ∧ Asks ((s.after run).client i) e) ∨ StillWaiting i s run ∧
        (j = i → keepsWaiting (s.after run).dnsWaitCount ((s.after run).client i) e = true) := by
  constructor
  · rintro ⟨before, env, rest, hrun, hdns, hinit, hrest⟩
    rcases List.eq_nil_or_concat rest with rfl | ⟨rest, last, rfl⟩
    · obtain ⟨rfl, hlast⟩ := List.append_inj' hrun rfl
      simp only [List.cons.injEq, Prod.mk.injEq, and_true] at hlast
      exact .inl ⟨hlast.1, env, hlast.2, hdns, hinit⟩
    · rw [List.concat_eq_append] at hrun hrest
      have hrun' : run ++ [(j, e)] = (before ++ (i, .routing env) :: rest) ++ [last] := by
        rw [hrun]; simp
      obtain ⟨rfl, hlast⟩ := List.append_inj' hrun' rfl
      obtain rfl : (j, e) = last := by simpa using hlast
      rw [undisturbed_concat] at hrest
      have hafter : ((s.after before).step i (.routing env)).after rest =
          s.after (before ++ (i, .routing env) :: rest) := by simp [System.after]
      rw [hafter] at hrest
      exact .inr ⟨⟨before, env, rest, rfl, hdns, hinit, hrest.1⟩, hrest.2⟩
  · rintro (⟨rfl, env, rfl, hdns, hinit⟩ | ⟨⟨before, env, rest, rfl, hdns, hinit, hrest⟩, hkeep⟩)
    · exact ⟨run, env, [], rfl, hdns, hinit, trivial⟩
    · refine ⟨before, env, rest ++ [(j, e)], by simp, hdns, hinit, ?_⟩
      rw [undisturbed_concat]
      have hafter : ((s.after before).step i (.routing env)).after rest =
          s.after (before ++ (i, .routing env) :: rest) := by simp [System.after]
      rw [hafter]
      exact ⟨hrest, hkeep⟩

/-- If nobody waits at first, a client is in `dnsStart` iff it is still waiting. -/
theorem dnsStart_iff {s : System ι} (h : ∀ i, (s.client i).activeStatus ≠ .dnsStart) (i : ι)
    (run : List (ι × Event)) :
    ((s.after run).client i).activeStatus = .dnsStart ↔ StillWaiting i s run := by
  induction run using List.reverseRecOn with
  | nil =>
    refine iff_of_false (h i) ?_
    rintro ⟨before, env, rest, hrun, -⟩
    simp at hrun
  | append_singleton run e ih =>
    rw [after_concat, step_dnsStart_iff, stillWaiting_concat, ih]

theorem step_found (s : System ι) (i : ι) (ipaddr : Option UInt32) :
    ((s.step i (.found ipaddr)).client i).activeStatus = answered ipaddr := by
  cases ipaddr <;> simp [System.step, exec, myFound, answered]

theorem answered_or (ipaddr : Option UInt32) :
    answered ipaddr = .dnsFinish ∨ answered ipaddr = .dnsErr := by
  cases ipaddr with
  | none => exact .inr rfl
  | some => exact .inl rfl

/-- CORRECT: from the start of the clients on, the answers change a state only from `dnsStart` iff each
    of them is awaited. -/
theorem answersWhenAsked_iff (config : ι → Config) (run : List (ι × Event)) :
    AnswersWhenAsked (System.boot config) run ↔ Awaited (System.boot config) run := by
  have h : ∀ i, ((System.boot config).client i).activeStatus ≠ .dnsStart := by
    intro i
    simp [System.boot, myTcpClientInit]
  constructor
  · intro hasked before i ipaddr rest hrun
    have := hasked before i ipaddr rest hrun
    simp only [step_found] at this
    rcases eq_or_ne (answered ipaddr)
      (((System.boot config).after before).client i).activeStatus with heq | hne
    · exact .inr heq.symm
    · exact .inl ((dnsStart_iff h i before).1 (this hne).1)
  · intro hawaited before i ipaddr rest hrun
    simp only [step_found]
    intro hne
    rcases hawaited before i ipaddr rest hrun with hwait | hsame
    · exact ⟨(dnsStart_iff h i before).2 hwait, answered_or ipaddr⟩
    · exact absurd hsame.symm hne

/-- A query is answered after the client has given up, asked again and connected. -/
def lateAnswer : List (Unit × Event) :=
  ((), .start) :: List.replicate 12 ((), unanswered) ++
    [((), .found (some 1)), ((), unanswered), ((), .connected), ((), .found (some 1))]

theorem thrown_back :
    ¬AnswersWhenAsked (System.boot fun _ => ⟨[], 80, 0, 0, fun _ => true⟩) lateAnswer := by
  intro h
  have hlast := h (lateAnswer.take 16) () (some 1) [] rfl
  exact absurd hlast (by decide)

end EasyCore.TcpClient
