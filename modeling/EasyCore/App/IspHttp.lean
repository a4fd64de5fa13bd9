import EasyCore.App.TcpClient
import EasyCore.Lib.Decimal

/-! The download client (`applications/isp_http_tcp.c`), on top of its TCP client: the functions that
    the TCP client calls, its own polling, and its stop. Around them stands what the network still
    has for it: queries without an answer, and connections that may call it. -/

namespace EasyCore.IspHttp
open TcpClient

/-- The values of `http_tcp_status`. -/
inductive HttpStatus
  | init
  | start
  | started
  | uploading
  | uploadingEnd
  | uploadFinish
  | uploadDone
  | downloading
  | downloadFinish
  | error
  | finish
  | socketBusy
  deriving DecidableEq

/-- The values of `http_task_type`; uploads are left out. -/
inductive TaskType
  | getConfig
  | getDownloadfile
  deriving DecidableEq

/-- The client, and what the network has for it. -/
structure Http where
  cli : TcpClientCon
  dnsWaitCount : UInt8
  status : HttpStatus
  task : TaskType
  downloadSize : UInt32
  contentLength : UInt32
  activeTime : UInt32
  queries : ℕ
  connecting : List ℕ
  established : List ℕ

/-- What the client does to others: a request to the server, and writes to the SPI flash. -/
inductive Effect
  | request
  | flash (data : List UInt8)
  | flashEnd
  deriving DecidableEq

/-- `DOWNLOAD_ZONE_SIZE`. -/
def storageSize : UInt32 := 524288

/-! ### The header -/

/-- `strstr`: where `pat` begins in the string, which a NUL ends. -/
def strstr (pat buf : List UInt8) : Option ℕ :=
  let s := buf.takeWhile (· ≠ 0)
  (List.range (s.length + 1)).find? fun i => pat.isPrefixOf (s.drop i)

/-- `atoi`, as an unsigned number. -/
def atoi (s : List UInt8) : UInt32 :=
  let s := s.dropWhile fun c => c = 32 || 9 ≤ c && c ≤ 13
  let digits := if s.head? = some 45 ∨ s.head? = some 43 then s.tail else s
  let n := UInt32.ofNat (Decimal.value (digits.takeWhile Decimal.isDigit))
  if s.head? = some 45 then -n else n

/-- "Content-Length". -/
def contentLengthField : List UInt8 :=
  [67, 111, 110, 116, 101, 110, 116, 45, 76, 101, 110, 103, 116, 104]

/-- `HTTP_GetContentLength`; -1 as an unsigned number if the field is missing. -/
def httpGetContentLength (buf : List UInt8) : UInt32 :=
  match strstr contentLengthField buf with
  | none => -1
  | some p => atoi (buf.drop (p + contentLengthField.length + 2))

/-- The four bytes of a number, the lowest first. -/
def bytesOf (n : UInt32) : List UInt8 :=
  [n.toUInt8, (n >>> 8).toUInt8, (n >>> 16).toUInt8, (n >>> 24).toUInt8]

/-! ### The functions that the TCP client calls -/

/-- `send_httpget_pkg`; `mem` says whether there is memory for the request. -/
def sendHttpgetPkg (mem : Bool) (s : Http) : Http × List Effect :=
  if mem then (s, [.request]) else ({ s with status := .error }, [])

/-- `connected`: neither task looks at the status. `init_write_flash` goes back to the start of the
    zone, and writes nothing yet. -/
def connected (mem : Bool) (s : Http) : Http × List Effect := sendHttpgetPkg mem s

/-- `disconn`: `w25x_append_end` fills the last sector and writes it. -/
def disconn (s : Http) : Http × List Effect :=
  ({ s with status := .finish }, if s.task = .getDownloadfile then [.flashEnd] else [])

/-- `connerr`. -/
def connerr (s : Http) : Http × List Effect := ({ s with status := .error }, [])

/-- `recv_http_buf`. -/
def recvHttpBuf (s : Http) (buf : List UInt8) : List Effect :=
  if s.task = .getDownloadfile then [.flash buf] else []

/-- The end of a download. -/
def checkFinished (s : Http) : Http :=
  if s.downloadSize = s.contentLength then { s with status := .downloadFinish } else s

/-- `recv`, at the time `now`. -/
def recv (now : UInt32) (buf : List UInt8) (s : Http) : Http × List Effect :=
  let s := { s with activeTime := now }
  match s.status with
  | .started =>
    let s := { s with contentLength := httpGetContentLength buf }
    if 0 < s.contentLength ∧ s.contentLength < storageSize then
      match strstr [13, 10, 13, 10] buf with
      | some p =>
        let body := buf.drop (p + 4)
        let s := { s with status := .downloading, downloadSize := UInt32.ofNat body.length }
        (checkFinished s, .flash (bytesOf s.contentLength) :: recvHttpBuf s body)
      | none => (s, [])
    else ({ s with status := .error }, [])
  | .downloading =>
    let s := { s with downloadSize := s.downloadSize + UInt32.ofNat buf.length }
    (checkFinished s, recvHttpBuf s buf)
  | .uploading | .uploadingEnd | .uploadFinish => ({ s with status := .uploadDone }, [])
  | _ => (s, [])

/-- A connection is gone. -/
def Http.drop (s : Http) (pcb : ℕ) : Http :=
  { s with
    connecting := s.connecting.filter (· ≠ pcb)
    established := s.established.filter (· ≠ pcb) }

/-- What an action of the TCP client leads to; `mem` and `now` are for the functions that ask. -/
def perform (mem : Bool) (now : UInt32) (s : Http) : Action → Http × List Effect
  | .call .connected _ => connected mem s
  | .call .disconn _ => disconn s
  | .call .connerr _ => connerr s
  | .call .recv data => recv now data s
  | .tcpAbort pcb => (s.drop pcb, [])
  | .tcpClose pcb => (s.drop pcb, [])
  | _ => (s, [])

/-- One action after another. -/
def react (mem : Bool) (now : UInt32) : Http → List Action → Http × List Effect
  | s, [] => (s, [])
  | s, a :: actions =>
    let r := react mem now (perform mem now s a).1 actions
    (r.1, (perform mem now s a).2 ++ r.2)

/-! ### Calls and events -/

/-- The connection that the client holds is there. -/
def Http.holdsLive (s : Http) : Prop := ∃ pcb ∈ s.connecting ++ s.established, s.cli.pcb = some pcb

instance (s : Http) : Decidable s.holdsLive :=
  inferInstanceAs (Decidable (∃ pcb ∈ s.connecting ++ s.established, s.cli.pcb = some pcb))

/-- `isp_stop_http`; `none` if a connection is aborted that is not there any more. -/
def ispStopHttp (s : Http) : Option (Http × List Effect) :=
  if s.cli.activeStatus = .connected ∧ ¬s.holdsLive then none
  else
    let o := myTcpClientStop s.cli
    let r := react true s.activeTime { s with cli := o.1 } o.2
    some ({ r.1 with status := .init }, r.2)

/-- What `init_isp_http_cli` sets up: no reconnection, keepalive on, and all functions. -/
def httpConfig (hostname : List UInt8) (port : ℤ) : Config := ⟨hostname, port, 0, 1, fun _ => true⟩

/-- `isp_start_http_download`. -/
def ispStartHttpDownload (hostname : List UInt8) (port : ℤ) (now : UInt32) (s : Http) : Http :=
  if s.status = .init then
    { s with
      task := .getDownloadfile
      cli := myTcpClientInit (httpConfig hostname port)
      status := .start
      activeTime := now }
  else s

/-- `isp_http_tcp_routing`, at the time `now`. -/
def ispHttpTcpRouting (now : UInt32) (s : Http) : Option (Http × List Effect) :=
  let stopped : Option (Http × List Effect) :=
    if s.status ≠ .init ∧ 30 < now - s.activeTime then ispStopHttp s else some (s, [])
  stopped.bind fun (s, effects) =>
    match s.status with
    | .start => some ({ s with cli := (myTcpClientStart s.cli).1, status := .started }, effects)
    | .uploadDone | .downloadFinish => (ispStopHttp s).map fun r => (r.1, effects ++ r.2)
    | .error => some ({ s with status := .start }, effects)
    | .finish =>
      match s.task with
      | .getConfig => some ({ s with status := .start, task := .getDownloadfile }, effects)
      | .getDownloadfile => (ispStopHttp s).map fun r => (r.1, effects ++ r.2)
    | _ => some (s, effects)

/-- What the network and the polls bring: the answer to a query, a connection that succeeds or fails,
    data, the end of the peer's data, and the two routings. The routings of other clients leave a
    number in the counter that they share. -/
inductive NetEvent
  | answer (ipaddr : Option UInt32)
  | connect (pcb : ℕ) (mem : Bool)
  | error (pcb : ℕ)
  | receive (pcb : ℕ) (data : List UInt8) (mem : Bool) (now : UInt32)
  | closed (pcb : ℕ)
  | tcpRouting (env : Env)
  | httpRouting (now : UInt32)
  | otherRouting (count : UInt8)

/-- A function of the TCP client is called. -/
def Http.exec (mem : Bool) (now : UInt32) (e : Event) (s : Http) : Http × List Effect :=
  let o := TcpClient.exec s.dnsWaitCount s.cli e
  react mem now { s with cli := o.cli, dnsWaitCount := o.count } o.actions

/-- The queries and connections that a routing leaves with the network. -/
def Http.asked (env : Env) (s : Http) : Http :=
  match s.cli.activeStatus, env.dns, env.tcpNew, env.connectOk with
  | .init, .inProgress, _, _ => { s with queries := s.queries + 1 }
  | .dnsFinish, _, some pcb, true => { s with connecting := pcb :: s.connecting }
  | _, _, _, _ => s

/-- An event; `none` if it is not pending. -/
def Http.step (s : Http) : NetEvent → Option (Http × List Effect)
  | .answer ipaddr =>
    if 0 < s.queries then
      some ({ s with queries := s.queries - 1 }.exec true s.activeTime (.found ipaddr))
    else none
  | .connect pcb mem =>
    if pcb ∈ s.connecting then
      let s := { s with connecting := s.connecting.erase pcb, established := pcb :: s.established }
      some (s.exec mem s.activeTime .connected)
    else none
  | .error pcb =>
    if pcb ∈ s.connecting ++ s.established then
      some ((s.drop pcb).exec true s.activeTime .conError)
    else none
  | .receive pcb data mem now =>
    if pcb ∈ s.established then some (s.exec true now (.recv (some data) mem)) else none
  | .closed pcb =>
    if pcb ∈ s.established ∧ s.holdsLive then some (s.exec true s.activeTime (.recv none true))
    else none
  | .tcpRouting env =>
    if ∃ pcb ∈ s.connecting ++ s.established, env.tcpNew = some pcb then none
    else some ((s.asked env).exec true s.activeTime (.routing env))
  | .httpRouting now => ispHttpTcpRouting now s
  | .otherRouting count => some ({ s with dnsWaitCount := count }, [])

/-- The events of a list, one after another, and what the client does at them. -/
def Http.run : Http → List NetEvent → Option (Http × List Effect)
  | s, [] => some (s, [])
  | s, e :: events => (s.step e).bind fun r => (r.1.run events).map fun t => (t.1, r.2 ++ t.2)

/-- Before anything has been started. -/
def idle : Http where
  cli := myTcpClientInit (httpConfig [] 80)
  dnsWaitCount := 0
  status := .init
  task := .getDownloadfile
  downloadSize := 0
  contentLength := 0
  activeTime := 0
  queries := 0
  connecting := []
  established := []

/-- The states that the client gets to. -/
inductive Reached : Http → Prop
  | idle : Reached idle
  | start {s : Http} (hostname : List UInt8) (port : ℤ) (now : UInt32) :
      Reached s → Reached (ispStartHttpDownload hostname port now s)
  | stop {s s' : Http} {effects : List Effect} :
      Reached s → ispStopHttp s = some (s', effects) → Reached s'
  | step {s s' : Http} {effects : List Effect} (e : NetEvent) :
      Reached s → s.step e = some (s', effects) → Reached s'

/-- After the stop, no events make the client send a request, write to the flash or change its
    result. -/
def StaysStopped (s : Http) : Prop :=
  ∃ s' effects, ispStopHttp s = some (s', effects) ∧
    ∀ events s'' effects', s'.run events = some (s'', effects') →
      effects' = [] ∧ s''.status = s'.status

/-- At the stop no query is without an answer, and the client either holds the only connection that
    there is and is connected over it, or rests and there is no connection. -/
def Quiet (s : Http) : Prop :=
  s.queries = 0 ∧
    match s.cli.activeStatus with
    | .connected => ∃ pcb ∈ s.connecting ++ s.established, s.cli.pcb = some pcb ∧
        ∀ p ∈ s.connecting ++ s.established, p = pcb
    | .pause | .connecting | .dnsErr | .connectErr | .disconnect =>
        s.connecting ++ s.established = []
    | .init | .dnsStart | .dnsFinish | .reconnectDelay => False

/-! ### What the functions of the client leave alone -/

theorem recv_frame (now : UInt32) (buf : List UInt8) (s : Http) :
    (recv now buf s).1.cli = s.cli ∧ (recv now buf s).1.queries = s.queries := by
  simp only [recv]
  cases s.status with
  | started =>
    dsimp only
    split
    · cases strstr [13, 10, 13, 10] buf with
      | none => exact ⟨rfl, rfl⟩
      | some p => simp only [checkFinished]; split <;> exact ⟨rfl, rfl⟩
    · exact ⟨rfl, rfl⟩
  | downloading => simp only [checkFinished]; split <;> exact ⟨rfl, rfl⟩
  | uploading | uploadingEnd | uploadFinish => exact ⟨rfl, rfl⟩
  | init | start | uploadDone | downloadFinish | error | finish | socketBusy => exact ⟨rfl, rfl⟩

theorem perform_frame (mem : Bool) (now : UInt32) (s : Http) (a : Action) :
    (perform mem now s a).1.cli = s.cli ∧ (perform mem now s a).1.queries = s.queries := by
  cases a with
  | call cb data =>
    cases cb with
    | recv => exact recv_frame now data s
    | connected => simp only [perform, connected, sendHttpgetPkg]; split <;> exact ⟨rfl, rfl⟩
    | disconn | connerr | routing => exact ⟨rfl, rfl⟩
  | tcpAbort | tcpClose | dnsGethostbyname | tcpNew | tcpConnect | reset | fault => exact ⟨rfl, rfl⟩

theorem react_frame (mem : Bool) (now : UInt32) : ∀ (actions : List Action) (s : Http),
    (react mem now s actions).1.cli = s.cli ∧ (react mem now s actions).1.queries = s.queries
  | [], _ => ⟨rfl, rfl⟩
  | a :: actions, s => by
    have ha := perform_frame mem now s a
    have ih := react_frame mem now actions (perform mem now s a).1
    simp only [react]
    exact ⟨ih.1.trans ha.1, ih.2.trans ha.2⟩

/-! ### Where the TCP client can be -/

/-- The TCP client has been set up for the download, and waits only for a query that is out. -/
structure Wf (s : Http) : Prop where
  no_reconnect : s.cli.connectType = 0
  all_set : ∀ cb, s.cli.isSet cb = true
  no_delay : s.cli.activeStatus ≠ .reconnectDelay
  asked : s.cli.activeStatus = .dnsStart → 0 < s.queries

/-- An event leaves the set-up of a TCP client alone, and one that does not reconnect does not wait
    to. -/
theorem exec_setup (count : UInt8) (cli : TcpClientCon) (e : Event) :
    (TcpClient.exec count cli e).cli.connectType = cli.connectType ∧
      (TcpClient.exec count cli e).cli.isSet = cli.isSet ∧
      (cli.connectType = 0 → cli.activeStatus ≠ .reconnectDelay →
        (TcpClient.exec count cli e).cli.activeStatus ≠ .reconnectDelay) := by
  cases e with
  | routing env =>
    simp only [TcpClient.exec, routing]
    cases h : cli.activeStatus with
    | init => cases env.dns <;> simp [h]
    | dnsStart => dsimp only; split <;> simp [h]
    | dnsFinish =>
      cases hnew : env.tcpNew with
      | none => dsimp only; split <;> simp
      | some pcb => dsimp only; split <;> simp
    | dnsErr | connectErr | disconnect =>
      dsimp only
      split
      · next htype =>
        split <;> exact ⟨rfl, rfl, fun h0 => absurd (h0.symm.trans htype) (by decide)⟩
      · simp [h]
    | reconnectDelay => dsimp only; split <;> simp
    | connecting | connected | pause => simp [h]
  | found ipaddr => cases ipaddr <;> simp [TcpClient.exec, myFound]
  | connected => simp [TcpClient.exec, tcpCliConnected]
  | conError => simp [TcpClient.exec, clientConError]
  | recv data mem =>
    cases data with
    | some data => simp [TcpClient.exec, tcpClientRecvCb]
    | none => cases h : cli.pcb <;> simp [TcpClient.exec, tcpClientRecvCb, h]
  | start => simp [TcpClient.exec, myTcpClientStart]
  | stop =>
    simp only [TcpClient.exec, myTcpClientStop, clientConError]
    split
    · cases cli.pcb <;> simp
    · simp
  | pause =>
    simp only [TcpClient.exec, myTcpClientPause, myTcpClientStop, clientConError]
    split
    · cases cli.pcb <;> simp
    · simp

/-- Only a routing asks the resolver. -/
theorem not_asks {cli : TcpClientCon} {e : Event} (h : ∀ env, e ≠ .routing env) : ¬Asks cli e := by
  rintro ⟨env, he, -⟩
  exact h env he

/-- So an event keeps the client well-formed, if a question leaves a query and no query is given up
    while the client waits for it. -/
theorem Wf.exec {s s₁ : Http} (h : Wf s) (hcli : s₁.cli = s.cli) (mem : Bool) (now : UInt32)
    (e : Event)
    (hasks : Asks s.cli e → 0 < s₁.queries)
    (hkeeps : s.cli.activeStatus = .dnsStart → keepsWaiting s₁.dnsWaitCount s.cli e = true →
      0 < s₁.queries) : Wf (s₁.exec mem now e).1 := by
  obtain ⟨htype, hset, hdelay⟩ := exec_setup s₁.dnsWaitCount s.cli e
  obtain ⟨hc, hq⟩ := react_frame mem now (TcpClient.exec s₁.dnsWaitCount s.cli e).actions
    { s₁ with
      cli := (TcpClient.exec s₁.dnsWaitCount s.cli e).cli
      dnsWaitCount := (TcpClient.exec s₁.dnsWaitCount s.cli e).count }
  simp only [Http.exec, hcli]
  refine ⟨?_, ?_, ?_, ?_⟩
  · rw [hc, htype, h.no_reconnect]
  · rw [hc, hset]
    exact h.all_set
  · rw [hc]
    exact hdelay h.no_reconnect h.no_delay
  · rw [hc, hq, exec_dnsStart_iff]
    rintro (hask | ⟨hwait, hkeep⟩)
    · exact hasks hask
    · exact hkeeps hwait hkeep

theorem Wf.stop {s s' : Http} {effects : List Effect} (h : Wf s)
    (hs : ispStopHttp s = some (s', effects)) : Wf s' := by
  simp only [ispStopHttp] at hs
  split at hs
  · simp at hs
  · simp only [Option.some.injEq, Prod.mk.injEq] at hs
    obtain ⟨rfl, -⟩ := hs
    have hexec : Wf (s.exec true s.activeTime .stop).1 :=
      h.exec rfl _ _ _ (fun ha => absurd ha (not_asks (by simp))) fun hwait _ => h.asked hwait
    exact ⟨hexec.no_reconnect, hexec.all_set, hexec.no_delay, hexec.asked⟩

/-- The poll stops the TCP client, starts it, or leaves it as it is. -/
theorem ispHttpTcpRouting_wf {s s' : Http} {effects : List Effect} (h : Wf s) {now : UInt32}
    (hs : ispHttpTcpRouting now s = some (s', effects)) : Wf s' := by
  simp only [ispHttpTcpRouting, Option.bind_eq_some_iff] at hs
  obtain ⟨⟨t, effects₁⟩, hstopped, hs⟩ := hs
  have ht : Wf t := by
    split at hstopped
    · exact h.stop hstopped
    · simp only [Option.some.injEq, Prod.mk.injEq] at hstopped
      exact hstopped.1 ▸ h
  have hkeep : ∀ (status : HttpStatus) (task : TaskType),
      Wf { t with status := status, task := task } := fun _ _ =>
    ⟨ht.no_reconnect, ht.all_set, ht.no_delay, ht.asked⟩
  have hstop : ∀ {r : Http × List Effect}, (ispStopHttp t).map
      (fun r => (r.1, effects₁ ++ r.2)) = some r → Wf r.1 := by
    rintro r hr
    obtain ⟨r₀, hr₀, rfl⟩ := Option.map_eq_some_iff.1 hr
    exact ht.stop hr₀
  dsimp only at hs
  cases hst : t.status <;> simp only [hst, Option.some.injEq, Prod.mk.injEq] at hs
  case start =>
    obtain ⟨rfl, -⟩ := hs
    exact ⟨ht.no_reconnect, ht.all_set, by simp [myTcpClientStart],
      by simp [myTcpClientStart]⟩
  case uploadDone => exact hstop hs
  case downloadFinish => exact hstop hs
  case error => exact hs.1 ▸ hkeep _ t.task
  case finish =>
    cases htask : t.task <;> simp only [htask, Option.some.injEq, Prod.mk.injEq] at hs
    · exact hs.1 ▸ hkeep _ _
    · exact hstop hs
  all_goals exact hs.1 ▸ ht

theorem asked_queries (env : Env) (s : Http) :
    s.queries ≤ (s.asked env).queries ∧
      (Asks s.cli (.routing env) → 0 < (s.asked env).queries) ∧ (s.asked env).cli = s.cli := by
  refine ⟨?_, ?_, ?_⟩
  · simp only [Http.asked]; split <;> simp
  · rintro ⟨env', he, hdns, hinit⟩
    obtain rfl : env = env' := by simpa using he
    simp [Http.asked, hdns, hinit]
  · simp only [Http.asked]; split <;> rfl

theorem Wf.step {s s' : Http} {effects : List Effect} (h : Wf s) {e : NetEvent}
    (hs : s.step e = some (s', effects)) : Wf s' := by
  -- an event that asks nothing and leaves the queries
  have hplain : ∀ {s₁ : Http} {mem now e}, s₁.exec mem now e = (s', effects) → s₁.cli = s.cli →
      s₁.queries = s.queries → ¬Asks s.cli e → Wf s' := by
    intro s₁ mem now e hr hcli hq hask
    have hwf := h.exec hcli mem now e (fun ha => absurd ha hask) fun hwait _ => hq ▸ h.asked hwait
    rwa [hr] at hwf
  cases e with
  | answer ipaddr =>
    simp only [Http.step] at hs
    split at hs
    · simp only [Option.some.injEq] at hs
      have hwf := @Wf.exec s { s with queries := s.queries - 1 } h rfl true s.activeTime
        (.found ipaddr) (fun ha => absurd ha (not_asks (by simp)))
        fun _ hkeep => by simp [keepsWaiting] at hkeep
      rwa [hs] at hwf
    · simp at hs
  | connect pcb mem =>
    simp only [Http.step] at hs
    split at hs
    · simp only [Option.some.injEq] at hs
      exact hplain hs rfl rfl (not_asks (by simp))
    · simp at hs
  | error pcb =>
    simp only [Http.step] at hs
    split at hs
    · simp only [Option.some.injEq] at hs
      exact hplain hs rfl rfl (not_asks (by simp))
    · simp at hs
  | receive pcb data mem now =>
    simp only [Http.step] at hs
    split at hs
    · simp only [Option.some.injEq] at hs
      exact hplain hs rfl rfl (not_asks (by simp))
    · simp at hs
  | closed pcb =>
    simp only [Http.step] at hs
    split at hs
    · simp only [Option.some.injEq] at hs
      exact hplain hs rfl rfl (not_asks (by simp))
    · simp at hs
  | tcpRouting env =>
    simp only [Http.step] at hs
    split at hs
    · simp at hs
    · simp only [Option.some.injEq] at hs
      obtain ⟨hle, hask, hcli⟩ := asked_queries env s
      have hwf := h.exec hcli true s.activeTime (.routing env) hask
        fun hwait _ => lt_of_lt_of_le (h.asked hwait) hle
      rwa [hs] at hwf
  | httpRouting now => exact ispHttpTcpRouting_wf h hs
  | otherRouting count =>
    simp only [Http.step, Option.some.injEq, Prod.mk.injEq] at hs
    obtain ⟨rfl, -⟩ := hs
    exact ⟨h.no_reconnect, h.all_set, h.no_delay, h.asked⟩

theorem init_wf (hostname : List UInt8) (port : ℤ) (s : Http)
    (hcli : s.cli = myTcpClientInit (httpConfig hostname port)) : Wf s := by
  refine ⟨?_, ?_, ?_, ?_⟩ <;> simp [hcli, myTcpClientInit, httpConfig]

theorem Reached.wf {s : Http} (h : Reached s) : Wf s := by
  induction h with
  | idle => exact init_wf [] 80 _ rfl
  | start hostname port now _ ih =>
    simp only [ispStartHttpDownload]
    split
    · exact init_wf hostname port _ rfl
    · exact ih
  | stop _ hs ih => exact ih.stop hs
  | step e _ hs ih => exact ih.step hs

/-! ### The stop -/

/-- Nothing can come any more. -/
structure Dead (s : Http) : Prop where
  wf : Wf s
  no_query : s.queries = 0
  no_pcb : s.connecting ++ s.established = []
  rests : s.cli.activeStatus ≠ .init ∧ s.cli.activeStatus ≠ .dnsStart ∧
    s.cli.activeStatus ≠ .dnsFinish ∧ s.cli.activeStatus ≠ .connected
  stopped : s.status = .init

/-- A client that is not connected is left as it is, but for its result. -/
theorem ispStopHttp_of_not_connected {s : Http} (h : s.cli.activeStatus ≠ .connected) :
    ispStopHttp s = some ({ s with status := .init }, []) := by
  simp [ispStopHttp, myTcpClientStop, h, react]

/-- A connected client closes its connection. -/
theorem ispStopHttp_of_connected {s : Http} (hwf : Wf s) (h : s.cli.activeStatus = .connected)
    {pcb : ℕ} (hpcb : s.cli.pcb = some pcb) (hlive : s.holdsLive) :
    ∃ effects, ispStopHttp s =
      some ({ s.drop pcb with cli := { s.cli with activeStatus := .disconnect }, status := .init },
        effects) := by
  have hset := hwf.all_set
  refine ⟨(disconn (s.drop pcb)).2, ?_⟩
  simp [ispStopHttp, myTcpClientStop, clientConError, TcpClientCon.notify, hset, h, hpcb, hlive,
    react, perform, connerr, disconn, Http.drop]

/-- The stop leaves nothing to come iff the client was quiet. -/
theorem dead_iff {s s' : Http} {effects : List Effect} (hwf : Wf s)
    (hs : ispStopHttp s = some (s', effects)) : Dead s' ↔ Quiet s := by
  have hwf' := hwf.stop hs
  rcases eq_or_ne s.cli.activeStatus .connected with hconn | hconn
  · have hlive : s.holdsLive := by
      by_contra hno
      simp [ispStopHttp, hconn, hno] at hs
    obtain ⟨pcb, hmem, hpcb⟩ := hlive
    obtain ⟨effects', hs'⟩ := ispStopHttp_of_connected hwf hconn hpcb ⟨pcb, hmem, hpcb⟩
    obtain ⟨rfl, -⟩ : _ = s' ∧ _ := by simpa using hs'.symm.trans hs
    have honly : (s.drop pcb).connecting ++ (s.drop pcb).established = [] ↔
        ∀ p ∈ s.connecting ++ s.established, p = pcb := by
      simp only [Http.drop, ← List.filter_append, List.filter_eq_nil_iff]
      simp
    simp only [Quiet, hconn]
    constructor
    · intro hdead
      exact ⟨hdead.no_query, pcb, hmem, hpcb, honly.1 hdead.no_pcb⟩
    · rintro ⟨hq, pcb', -, hpcb', hall⟩
      obtain rfl : pcb = pcb' := by simpa [hpcb] using hpcb'
      exact ⟨hwf', hq, honly.2 hall, by simp, rfl⟩
  · rw [ispStopHttp_of_not_connected hconn] at hs
    obtain ⟨rfl, -⟩ : _ = s' ∧ _ := by simpa using hs
    constructor
    · intro hdead
      refine ⟨hdead.no_query, ?_⟩
      obtain ⟨hinit, hstart, hfinish, -⟩ := hdead.rests
      have hpcb := hdead.no_pcb
      have hdelay := hwf.no_delay
      dsimp only at hinit hstart hfinish hpcb
      cases hst : s.cli.activeStatus <;> simp_all
    · rintro ⟨hq, hst⟩
      refine ⟨hwf', hq, ?_, ?_, rfl⟩
      · cases h : s.cli.activeStatus <;> simp_all
      · dsimp only
        cases h : s.cli.activeStatus <;> simp_all

/-- Where nothing can come any more, the polls do nothing. -/
theorem Dead.step {s s' : Http} {effects : List Effect} (h : Dead s) {e : NetEvent}
    (hs : s.step e = some (s', effects)) : effects = [] ∧ Dead s' := by
  have hno : ∀ pcb, pcb ∉ s.connecting ++ s.established := by simp [h.no_pcb]
  simp only [List.mem_append, not_or] at hno
  cases e with
  | answer => simp [Http.step, h.no_query] at hs
  | connect pcb => simp [Http.step, (hno pcb).1] at hs
  | error pcb => simp [Http.step, hno pcb] at hs
  | receive pcb => simp [Http.step, (hno pcb).2] at hs
  | closed pcb => simp [Http.step, (hno pcb).2] at hs
  | httpRouting now =>
    simp only [Http.step, ispHttpTcpRouting, h.stopped, ne_eq, not_true_eq_false, false_and,
      if_false, Option.bind_some, Option.some.injEq, Prod.mk.injEq] at hs
    obtain ⟨rfl, rfl⟩ := hs
    exact ⟨rfl, h⟩
  | otherRouting count =>
    simp only [Http.step, Option.some.injEq, Prod.mk.injEq] at hs
    obtain ⟨rfl, rfl⟩ := hs
    exact ⟨rfl, ⟨⟨h.wf.no_reconnect, h.wf.all_set, h.wf.no_delay, h.wf.asked⟩, h.no_query, h.no_pcb,
      h.rests, h.stopped⟩⟩
  | tcpRouting env =>
    obtain ⟨hinit, hstart, hfinish, hconn⟩ := h.rests
    have hdelay := h.wf.no_delay
    have htype := h.wf.no_reconnect
    have hrouting : routing env s.dnsWaitCount s.cli = routed s.dnsWaitCount s.cli [] := by
      simp only [routing, htype]
      cases hst : s.cli.activeStatus <;> simp_all
    have hasked : s.asked env = s := by
      simp only [Http.asked]
      cases hst : s.cli.activeStatus <;> simp_all
    have hset := h.wf.all_set
    simp only [Http.step, h.no_pcb, List.not_mem_nil, false_and, exists_false, if_false, hasked,
      Http.exec, TcpClient.exec, hrouting, routed, TcpClientCon.notify, hset, if_true,
      List.nil_append, react, perform, Option.some.injEq, Prod.mk.injEq] at hs
    obtain ⟨rfl, rfl⟩ := hs
    exact ⟨rfl, h⟩

theorem Dead.run : ∀ {events : List NetEvent} {s s' : Http} {effects : List Effect}, Dead s →
    s.run events = some (s', effects) → effects = [] ∧ Dead s'
  | [], s, s', effects, h, hs => by
    simp only [Http.run, Option.some.injEq, Prod.mk.injEq] at hs
    obtain ⟨rfl, rfl⟩ := hs
    exact ⟨rfl, h⟩
  | e :: events, s, s', effects, h, hs => by
    simp only [Http.run, Option.bind_eq_some_iff, Option.map_eq_some_iff] at hs
    obtain ⟨⟨t, effects₁⟩, hstep, ⟨t', effects₂⟩, hrun, heq⟩ := hs
    obtain ⟨rfl, ht⟩ := h.step hstep
    obtain ⟨rfl, ht'⟩ := Dead.run ht hrun
    simp only [List.append_nil, Prod.mk.injEq] at heq
    obtain ⟨rfl, rfl⟩ := heq
    exact ⟨rfl, ht'⟩

/-! ### What can still come -/

/-- No events make the client do anything, or change its result. -/
def Silent (s : Http) : Prop :=
  ∀ events s' effects, s.run events = some (s', effects) → effects = [] ∧ s'.status = s.status

theorem Silent.step {s s' : Http} {effects : List Effect} (h : Silent s) {e : NetEvent}
    (hs : s.step e = some (s', effects)) : s'.status = s.status ∧ Silent s' := by
  have hstatus : s'.status = s.status := (h [e] s' effects (by simp [Http.run, hs])).2
  refine ⟨hstatus, ?_⟩
  intro events t effects' hrun
  obtain ⟨heff, ht⟩ := h (e :: events) t (effects ++ effects') (by simp [Http.run, hs, hrun])
  exact ⟨(List.append_eq_nil_iff.1 heff).2, ht.trans hstatus.symm⟩

/-- A query that is out may fail. -/
theorem Silent.no_query {s : Http} (h : Silent s) (hwf : Wf s) (hst : s.status = .init) :
    s.queries = 0 := by
  apply Nat.eq_zero_of_not_pos
  intro hq
  have hset := hwf.all_set
  have hs : ∃ r, s.step (.answer none) = some r ∧ r.1.status = .error := by
    simp [Http.step, hq, Http.exec, TcpClient.exec, myFound, TcpClientCon.notify, hset, react,
      perform, connerr]
  obtain ⟨r, hr, herr⟩ := hs
  have := (h.step hr).1
  rw [herr, hst] at this
  cases this

/-- A connection that is there may fail. -/
theorem Silent.no_pcb {s : Http} (h : Silent s) (hwf : Wf s) (hst : s.status = .init) :
    s.connecting ++ s.established = [] := by
  apply List.eq_nil_iff_forall_not_mem.2
  intro pcb hmem
  have hset := hwf.all_set
  have hs : ∃ r, s.step (.error pcb) = some r ∧ r.1.status = .error := by
    simp only [Http.step, hmem, if_true]
    simp [Http.exec, TcpClient.exec, clientConError, TcpClientCon.notify, Http.drop, hset, react,
      perform, connerr]
  obtain ⟨r, hr, herr⟩ := hs
  have := (h.step hr).1
  rw [herr, hst] at this
  cases this

/-- A routing in `dnsFinish` opens a connection. -/
theorem Silent.not_dnsFinish {s : Http} (h : Silent s) (hwf : Wf s) (hst : s.status = .init) :
    s.cli.activeStatus ≠ .dnsFinish := by
  intro hfinish
  have hset := hwf.all_set
  have hnone := h.no_pcb hwf hst
  have hs : ∃ r, s.step (.tcpRouting ⟨.err, some 0, true, 0⟩) = some r ∧ 0 ∈ r.1.connecting := by
    simp [Http.step, hnone, Http.asked, hfinish, Http.exec, TcpClient.exec, routing, routed,
      TcpClientCon.notify, hset, react, perform]
  obtain ⟨⟨t, effects⟩, hr, hmem⟩ := hs
  obtain ⟨htst, ht⟩ := h.step hr
  have := ht.no_pcb (hwf.step hr) (htst.trans hst)
  simp only [List.append_eq_nil_iff] at this
  rw [this.1] at hmem
  simp at hmem

/-- A routing in `init` may be answered at once. -/
theorem Silent.not_init {s : Http} (h : Silent s) (hwf : Wf s) (hst : s.status = .init) :
    s.cli.activeStatus ≠ .init := by
  intro hinit
  have hset := hwf.all_set
  have hnone := h.no_pcb hwf hst
  have hs : ∃ r, s.step (.tcpRouting ⟨.ok 0, none, true, 0⟩) = some r ∧
      r.1.cli.activeStatus = .dnsFinish := by
    simp [Http.step, Http.asked, hinit, Http.exec, TcpClient.exec, routing, routed,
      TcpClientCon.notify, hset, react, perform]
  obtain ⟨⟨t, effects⟩, hr, hfinish⟩ := hs
  obtain ⟨htst, ht⟩ := h.step hr
  exact ht.not_dnsFinish (hwf.step hr) (htst.trans hst) hfinish

/-- A stopped client is not connected. -/
theorem stopped_not_connected {s s' : Http} {effects : List Effect} (hwf : Wf s)
    (hs : ispStopHttp s = some (s', effects)) :
    s'.cli.activeStatus ≠ .connected ∧ s'.status = .init := by
  rcases eq_or_ne s.cli.activeStatus .connected with hconn | hconn
  · have hlive : s.holdsLive := by
      by_contra hno
      simp [ispStopHttp, hconn, hno] at hs
    obtain ⟨pcb, hmem, hpcb⟩ := hlive
    obtain ⟨effects', hs'⟩ := ispStopHttp_of_connected hwf hconn hpcb ⟨pcb, hmem, hpcb⟩
    obtain ⟨rfl, -⟩ : _ = s' ∧ _ := by simpa using hs'.symm.trans hs
    exact ⟨by simp, rfl⟩
  · rw [ispStopHttp_of_not_connected hconn] at hs
    obtain ⟨rfl, -⟩ : _ = s' ∧ _ := by simpa using hs
    exact ⟨hconn, rfl⟩

/-- A stopped client is silent iff nothing can come any more. -/
theorem silent_iff_dead {s s' : Http} {effects : List Effect} (hwf : Wf s)
    (hs : ispStopHttp s = some (s', effects)) : Silent s' ↔ Dead s' := by
  obtain ⟨hconn, hst⟩ := stopped_not_connected hwf hs
  have hwf' := hwf.stop hs
  constructor
  · intro h
    have hq := h.no_query hwf' hst
    refine ⟨hwf', hq, h.no_pcb hwf' hst, ⟨h.not_init hwf' hst, ?_, h.not_dnsFinish hwf' hst, hconn⟩,
      hst⟩
    intro hwait
    have := hwf'.asked hwait
    omega
  · intro h events t effects' hrun
    obtain ⟨heff, ht⟩ := h.run hrun
    exact ⟨heff, ht.stopped.trans h.stopped.symm⟩

/-- A download that waits for the answer to its query. -/
def asking : Http :=
  { idle with
    cli := { myTcpClientInit (httpConfig [] 80) with activeStatus := .dnsStart }
    status := .started
    queries := 1 }

theorem asking_reached : Reached asking :=
  .step (.tcpRouting ⟨.inProgress, none, true, 0⟩)
    (.step (.httpRouting 0) (.start [] 80 0 .idle) rfl) rfl

end EasyCore.IspHttp
