import EasyCore.Lib.Runs

/-! The deferred write (`MY_TCP_Client_write2` and `__WDATA_FUNC` in
    `easyio_core/lwip_raw_api_tcp_template.c`). A thread leaves a copy of its data in the one static
    record `wd`, posts a message to the tcpip thread, and polls `tcp_write_err` for the result. The
    callers and the tcpip thread take turns statement by statement.

        caller  test ▶ alloc ▶ check ▶ copy ▶ setCli ▶ setLen ▶ setErr ▶ post ▶ wait ▶ done
                                               ▲                           ▼
                                               └────────── again ◀─────────┘ ▶ free ▶ zero ▶ done
        tcpip   idle ▶ write ▶ store ▶ free ▶ zero ▶ idle -/

namespace EasyCore.TcpWrite
open Function Runs

/-- The next statement of a caller; `done` when it has returned. -/
inductive Pc
  | idle
  | test
  | alloc
  | check
  | copy
  | setCli
  | setLen
  | setErr
  | post
  | wait (j : ℕ)
  | again
  | free
  | zero
  | done (ret : ℤ)
  deriving DecidableEq

/-- A caller: its arguments, its variables `i` and `ret`, and the block that it has allocated. -/
structure Caller where
  pc : Pc
  cli : ℕ
  data : List UInt8
  i : ℕ
  ret : ℤ
  own : Option ℕ

/-- The next statement of `__WDATA_FUNC`; `store` holds what `tcp_write` has returned. -/
inductive TcpipPc
  | idle
  | write
  | store (err : ℤ)
  | free
  | zero
  deriving DecidableEq

/-- A call of `tcp_write`: the block, the client, the bytes and the result. -/
structure Written where
  ptr : ℕ
  cli : ℕ
  bytes : List UInt8
  err : ℤ
  deriving DecidableEq

/-- The record `wd`, `tcp_write_err`, the heap, the messages to the tcpip thread and the threads.
    Blocks are numbered as they are allocated; `freed` counts how often each has been freed, and
    `log` holds the calls of `tcp_write`. -/
structure State (ι : Type*) where
  buf : Option ℕ
  cli : ℕ
  len : ℕ
  err : ℤ
  blocks : ℕ
  mem : ℕ → List UInt8
  freed : ℕ → ℕ
  queue : ℕ
  tcpip : TcpipPc
  caller : ι → Caller
  log : List Written

variable {ι : Type*} [DecidableEq ι]

/-- `ERR_MEM` and `ERR_TIMEOUT`, and the value of `tcp_write_err` while there is no result. -/
def errMem : ℤ := -1
def errTimeout : ℤ := -3
def noResult : ℤ := 99

def State.set (s : State ι) (k : ι) (c : Caller) : State ι := { s with caller := update s.caller k c }

/-- `rt_free`; nothing for a null pointer. -/
def State.rtFree (s : State ι) (ptr : Option ℕ) : State ι :=
  match ptr with
  | some p => { s with freed := update s.freed p (s.freed p + 1) }
  | none => s

/-- The next statement of caller `k` in `MY_TCP_Client_write2`; `mem` says whether `rt_malloc` finds
    a block, `posted` is the result of `tcpip_callback_with_block`. -/
def stepCaller (s : State ι) (k : ι) (mem : Bool) (posted : ℤ) : State ι :=
  let c := s.caller k
  match c.pc with
  | .idle | .done _ => s
  | .test => s.set k { c with pc := if s.buf = none then .alloc else .done errMem }
  | .alloc =>
    if mem then
      { s with buf := some s.blocks, blocks := s.blocks + 1 }.set k
        { c with pc := .check, own := some s.blocks }
    else { s with buf := none }.set k { c with pc := .check }
  | .check => s.set k { c with pc := if s.buf = none then .done c.ret else .copy }
  | .copy =>
    let s' := match s.buf with
      | some p => { s with mem := update s.mem p c.data }
      | none => s
    s'.set k { c with pc := .setCli }
  | .setCli => { s with cli := c.cli }.set k { c with pc := .setLen }
  | .setLen => { s with len := c.data.length }.set k { c with pc := .setErr }
  | .setErr => { s with err := noResult }.set k { c with pc := .post }
  | .post =>
    if posted = 0 then { s with queue := s.queue + 1 }.set k { c with pc := .wait 0, ret := 0 }
    else s.set k { c with pc := .again, ret := posted }
  | .wait j =>
    s.set k { c with
      pc := if s.err ≠ noResult then .done s.err else if j + 1 < 10 then .wait (j + 1)
        else .done errTimeout }
  | .again => s.set k { c with i := c.i + 1, pc := if c.i + 1 < 5 then .setCli else .free }
  | .free => (s.rtFree s.buf).set k { c with pc := .zero }
  | .zero => { s with buf := none }.set k { c with pc := .done c.ret }

/-- The next statement of the tcpip thread; the codes of `err_t` are 0 or negative, and `tcp_write`
    returns the one with absolute value `code`. -/
def stepTcpip (s : State ι) (code : ℕ) : State ι :=
  match s.tcpip with
  | .idle => if 0 < s.queue then { s with queue := s.queue - 1, tcpip := .write } else s
  | .write =>
    let written := match s.buf with
      | some p => [⟨p, s.cli, (s.mem p).take s.len, -code⟩]
      | none => []
    { s with log := s.log ++ written, tcpip := .store (-code) }
  | .store err => { s with err := err, tcpip := .free }
  | .free => { s.rtFree s.buf with tcpip := .zero }
  | .zero => { s with buf := none, tcpip := .idle }

/-- A call of the function by a caller that has none, or one statement of a thread. -/
inductive Act (ι : Type*)
  | call (k : ι) (cli : ℕ) (data : List UInt8)
  | caller (k : ι) (mem : Bool) (posted : ℤ)
  | tcpip (code : ℕ)

def Pc.returned : Pc → Bool
  | .idle => true
  | .done _ => true
  | _ => false

def step (s : State ι) : Act ι → State ι
  | .call k cli data =>
    if (s.caller k).pc.returned then s.set k ⟨.test, cli, data, 0, 0, none⟩ else s
  | .caller k mem posted => stepCaller s k mem posted
  | .tcpip code => stepTcpip s code

/-- Before the first call. -/
def start : State ι where
  buf := none
  cli := 0
  len := 0
  err := noResult
  blocks := 0
  mem := fun _ => []
  freed := fun _ => 0
  queue := 0
  tcpip := .idle
  caller := fun _ => ⟨.idle, 0, [], 0, 0, none⟩
  log := []

def system (ι : Type*) [DecidableEq ι] : System (State ι) (Act ι) where
  init s := s = start
  step s a s' := s' = step s a

/-! ### The hand-over -/

/-- The calls of `tcp_write` with a block. -/
def State.writes (s : State ι) (p : ℕ) : List Written := s.log.filter fun w => w.ptr = p

/-- The bytes of the caller were written, once, for its client and with success. -/
def Success (s : State ι) (c : Caller) : Prop :=
  (c.own = none ∧ c.data = []) ∨ ∃ p, c.own = some p ∧ s.writes p = [⟨p, c.cli, c.data, 0⟩]

/-- No thread is at work. -/
def State.quiet (s : State ι) : Prop :=
  (∀ k, (s.caller k).pc.returned = true) ∧ s.queue = 0 ∧ s.tcpip = .idle

/-- A message is on its way for the block, which the TCP stack has not had. -/
def State.pending (s : State ι) (p : ℕ) : Prop :=
  s.buf = some p ∧ (0 < s.queue ∨ s.tcpip = .write) ∧ s.writes p = []

/-- No block is freed twice, all are freed in the end, and who sees success has been written. -/
structure HandedOver (s : State ι) : Prop where
  once : ∀ p < s.blocks, s.freed p ≤ 1
  all : s.quiet → ∀ p < s.blocks, s.freed p = 1
  success : ∀ k, (s.caller k).pc = .done 0 → Success s (s.caller k)

/-- A block is not lost while it is allocated, and not freed while it is pending. -/
structure Kept (s s' : State ι) : Prop where
  not_lost : ∀ p, s.buf = some p → s.freed p = 0 → s'.buf = some p
  not_freed : ∀ p, s.pending p → s'.freed p = s.freed p

/-- Caller `k` polls for a result, and its bytes have been refused. -/
def WaitsOnFailure (s : State ι) (c : Caller) : Prop :=
  (∃ j, c.pc = .wait j) ∧ ∃ w ∈ s.log, c.own = some w.ptr ∧ w.err ≠ 0

/-- What keeps the hand-over in order: the record is free when a caller stores its block, there is a
    block, and no caller that polls for a failure is overtaken by another one. -/
def Ok (s : State ι) : Act ι → Prop
  | .caller k mem _ =>
    match (s.caller k).pc with
    | .alloc => s.buf = none ∧ (mem = true ∨ (s.caller k).data = [])
    | .check => (s.caller k).own = none → s.buf = none
    | .setErr => ∀ k', k' ≠ k → ¬WaitsOnFailure s (s.caller k')
    | _ => True
  | _ => True

/-! ### The invariant -/

/-- The caller works on a block in the record. -/
def Pc.holds : Pc → Bool
  | .check | .copy | .setCli | .setLen | .setErr | .post | .again | .free | .zero => true
  | _ => false

/-- The caller does not work on the record, but for a call without data that has found no memory. -/
def Aside (c : Caller) : Prop :=
  c.pc.holds = false ∨ c.pc = .check ∧ c.own = none ∧ c.data = []

/-- The result of the caller's write, which `tcp_write_err` still holds if it is a failure. -/
def Answered (s : State ι) (c : Caller) (p : ℕ) : Prop :=
  ∃ err ≤ 0, s.writes p = [⟨p, c.cli, c.data, err⟩] ∧ (err ≠ 0 → s.err = err)

/-- What holds whoever has the record. -/
structure Base (s : State ι) : Prop where
  fresh : ∀ p, s.blocks ≤ p → s.freed p = 0 ∧ s.writes p = []
  released : ∀ p < s.blocks, s.buf ≠ some p → s.freed p = 1
  own_lt : ∀ k p, (s.caller k).own = some p → p < s.blocks
  own_inj : ∀ k k' p, (s.caller k).own = some p → (s.caller k').own = some p → k = k'
  unowned : ∀ k, (s.caller k).pc = .test ∨ (s.caller k).pc = .alloc → (s.caller k).own = none
  ret : ∀ k, (s.caller k).pc = .test ∨ (s.caller k).pc = .alloc ∨
    (s.caller k).pc = .check → (s.caller k).ret = 0
  waiting : ∀ k j, (s.caller k).pc = .wait j → ∃ p, (s.caller k).own = some p ∧
    (s.buf ≠ some p → Answered s (s.caller k) p)
  success : ∀ k, (s.caller k).pc = .done 0 → Success s (s.caller k)

/-- How far caller `c` has got with block `p`. -/
def Filled (s : State ι) (c : Caller) (p : ℕ) : Prop :=
  match c.pc with
  | .check | .copy => s.freed p = 0
  | .setCli => s.freed p = 0 ∧ s.mem p = c.data
  | .setLen => s.freed p = 0 ∧ s.mem p = c.data ∧ s.cli = c.cli
  | .setErr => s.freed p = 0 ∧ s.mem p = c.data ∧ s.cli = c.cli ∧ s.len = c.data.length
  | .post => s.freed p = 0 ∧ s.mem p = c.data ∧ s.cli = c.cli ∧ s.len = c.data.length ∧
      s.err = noResult
  | .again => s.freed p = 0 ∧ s.mem p = c.data ∧ c.ret ≠ 0
  | .free => s.freed p = 0 ∧ c.ret ≠ 0
  | .zero => s.freed p = 1 ∧ c.ret ≠ 0
  | _ => False

/-- The record holds what the owner of block `p` has asked for, if it has not begun another call. -/
def Asked (s : State ι) (p : ℕ) : Prop :=
  s.len = (s.mem p).length ∧ ∀ k, (s.caller k).own = some p →
    ((∃ j, (s.caller k).pc = .wait j) ∨ ∃ ret, (s.caller k).pc = .done ret) ∧
      (s.caller k).cli = s.cli ∧ (s.caller k).data = s.mem p

/-- How far the tcpip thread has got with block `p`. -/
def Served (s : State ι) (p : ℕ) : Prop :=
  match s.tcpip with
  | .idle => False
  | .write => s.freed p = 0 ∧ s.writes p = [] ∧ s.err = noResult
  | .store err => s.freed p = 0 ∧ err ≤ 0 ∧ s.writes p = [⟨p, s.cli, s.mem p, err⟩] ∧
      s.err = noResult
  | .free => s.freed p = 0 ∧ s.err ≤ 0 ∧ s.writes p = [⟨p, s.cli, s.mem p, s.err⟩]
  | .zero => s.freed p = 1 ∧ s.err ≤ 0 ∧ s.writes p = [⟨p, s.cli, s.mem p, s.err⟩]

/-- Who has the record: nobody, a caller, the message that a caller has posted, or the tcpip
    thread. -/
inductive Phase (s : State ι) : Prop
  | unused : s.buf = none → s.queue = 0 → s.tcpip = .idle → (∀ k, Aside (s.caller k)) → Phase s
  | held (k : ι) (p : ℕ) : s.buf = some p → s.queue = 0 → s.tcpip = .idle →
      (s.caller k).own = some p → s.writes p = [] → Filled s (s.caller k) p →
      (∀ k', k' ≠ k → Aside (s.caller k')) → Phase s
  | posted (p : ℕ) : s.buf = some p → s.queue = 1 → s.tcpip = .idle → s.freed p = 0 →
      s.writes p = [] → s.err = noResult → Asked s p → (∀ k, Aside (s.caller k)) → Phase s
  | served (p : ℕ) : s.buf = some p → s.queue = 0 → Served s p → Asked s p →
      (∀ k, Aside (s.caller k)) → Phase s

/-- The invariant; a block in the record has been allocated. -/
structure Inv (s : State ι) : Prop where
  base : Base s
  phase : Phase s
  buf_lt : ∀ p, s.buf = some p → p < s.blocks

omit [DecidableEq ι] in
theorem Inv.init : Inv (start : State ι) := by
  refine ⟨?_, .unused rfl rfl rfl fun k => .inl rfl, nofun⟩
  constructor <;> simp [start, State.writes]

/-! ### Consequences -/

omit [DecidableEq ι] in
theorem Inv.handedOver {s : State ι} (h : Inv s) : HandedOver s := by
  have hfreed : ∀ p, s.buf = some p → s.freed p ≤ 1 := by
    intro p hp
    cases h.phase with
    | unused hbuf => simp [hbuf] at hp
    | held k q hbuf _ _ _ _ hfill =>
      obtain rfl : q = p := by simpa [hbuf] using hp
      simp only [Filled] at hfill
      split at hfill <;> first | omega | exact hfill.elim
    | posted q hbuf _ _ hfree =>
      obtain rfl : q = p := by simpa [hbuf] using hp
      omega
    | served q hbuf _ hserved =>
      obtain rfl : q = p := by simpa [hbuf] using hp
      simp only [Served] at hserved
      split at hserved <;> first | omega | exact hserved.elim
  refine ⟨?_, ?_, h.base.success⟩
  · intro p hp
    rcases eq_or_ne s.buf (some p) with hbuf | hbuf
    · exact hfreed p hbuf
    · exact (h.base.released p hp hbuf).le
  · rintro ⟨hret, hqueue, htcpip⟩ p hp
    apply h.base.released p hp
    intro hbuf
    cases h.phase with
    | unused hnone => simp [hnone] at hbuf
    | held k q _ _ _ _ _ hfill =>
      have hk := hret k
      simp only [Filled] at hfill
      split at hfill <;> simp_all [Pc.returned]
    | posted q _ hone => omega
    | served q _ _ hserved => simp [Served, htcpip] at hserved

/-! ### A caller's step -/

@[simp] theorem set_self (s : State ι) (k : ι) (c : Caller) : (s.set k c).caller k = c := by
  simp [State.set]

theorem set_other {k k' : ι} (h : k' ≠ k) (s : State ι) (c : Caller) :
    (s.set k c).caller k' = s.caller k' := by
  simp [State.set, h]

omit [DecidableEq ι] in
theorem mem_log_of_writes {s : State ι} {p : ℕ} {w : Written} (h : s.writes p = [w]) :
    w ∈ s.log ∧ w.ptr = p := by
  have hw : w ∈ s.writes p := by simp [h]
  simpa [State.writes] using hw

/-- A caller changes itself, and of the record at most what `Base` does not look at. -/
theorem Base.caller {s s' : State ι} (h : Base s) {k : ι} {c : Caller}
    (hcaller : s'.caller = update s.caller k c) (hblocks : s'.blocks = s.blocks)
    (hfreed : s'.freed = s.freed) (hlog : s'.log = s.log) (hbuf : s'.buf = s.buf)
    (herr : s'.err = s.err ∨ ∀ k', k' ≠ k → ¬WaitsOnFailure s (s.caller k'))
    (hown : c.own = none ∨ c.own = (s.caller k).own)
    (hun : c.pc = .test ∨ c.pc = .alloc → c.own = none)
    (hret : c.pc = .test ∨ c.pc = .alloc ∨ c.pc = .check → c.ret = 0)
    (hwait : ∀ j, c.pc = .wait j → ∃ p, c.own = some p ∧ (s.buf ≠ some p → Answered s' c p))
    (hdone : c.pc = .done 0 → Success s' c) : Base s' := by
  have hself : s'.caller k = c := by simp [hcaller]
  have hother : ∀ {k'}, k' ≠ k → s'.caller k' = s.caller k' := fun hk => by simp [hcaller, hk]
  have hwrites : ∀ p, s'.writes p = s.writes p := fun p => by simp [State.writes, hlog]
  have hown' : ∀ k' p, (s'.caller k').own = some p → (s.caller k').own = some p := by
    intro k' p hp
    rcases eq_or_ne k' k with rfl | hk
    · rw [hself] at hp
      rcases hown with hnone | hsame
      · simp [hnone] at hp
      · rwa [hsame] at hp
    · rwa [hother hk] at hp
  refine ⟨?_, ?_, ?_, ?_, ?_, ?_, ?_, ?_⟩
  · intro p hp
    rw [hfreed, hwrites]
    exact h.fresh p (hblocks ▸ hp)
  · intro p hp hne
    rw [hfreed]
    exact h.released p (hblocks ▸ hp) (hbuf ▸ hne)
  · intro k' p hp
    rw [hblocks]
    exact h.own_lt k' p (hown' k' p hp)
  · intro k₁ k₂ p h₁ h₂
    exact h.own_inj k₁ k₂ p (hown' k₁ p h₁) (hown' k₂ p h₂)
  · intro k' hpc
    rcases eq_or_ne k' k with rfl | hk
    · rw [hself] at hpc ⊢
      exact hun hpc
    · rw [hother hk] at hpc ⊢
      exact h.unowned k' hpc
  · intro k' hpc
    rcases eq_or_ne k' k with rfl | hk
    · rw [hself] at hpc ⊢
      exact hret hpc
    · rw [hother hk] at hpc ⊢
      exact h.ret k' hpc
  · intro k' j hpc
    rcases eq_or_ne k' k with rfl | hk
    · rw [hself] at hpc ⊢
      rw [hbuf]
      exact hwait j hpc
    · rw [hother hk] at hpc ⊢
      obtain ⟨p, hp, hans⟩ := h.waiting k' j hpc
      refine ⟨p, hp, fun hne => ?_⟩
      obtain ⟨e, he, hw, hkeep⟩ := hans (hbuf ▸ hne)
      refine ⟨e, he, by rw [hwrites]; exact hw, fun hne0 => ?_⟩
      -- a failure is still there, since nobody overtakes a caller that waits on one
      rcases herr with hsame | hno
      · rw [hsame]
        exact hkeep hne0
      · exact absurd ⟨⟨j, hpc⟩, _, (mem_log_of_writes hw).1, hp, hne0⟩ (hno k' hk)
  · intro k' hpc
    rcases eq_or_ne k' k with rfl | hk
    · rw [hself] at hpc ⊢
      exact hdone hpc
    · rw [hother hk] at hpc ⊢
      have := h.success k' hpc
      simpa only [Success, hwrites] using this

omit [DecidableEq ι] in
/-- A caller that has its block in the record is not aside. -/
theorem Filled.not_aside {s : State ι} {c : Caller} {p : ℕ} (h : Filled s c p)
    (hown : c.own = some p) : ¬Aside c := by
  rintro (hno | ⟨-, hnone, -⟩)
  · simp only [Filled] at h
    split at h <;> simp_all [Pc.holds]
  · simp [hnone] at hown

omit [DecidableEq ι] in
/-- A caller that is not aside has the record. -/
theorem Inv.held_of {s : State ι} (h : Inv s) {k : ι} (hk : ¬Aside (s.caller k)) :
    ∃ p, s.buf = some p ∧ s.queue = 0 ∧ s.tcpip = .idle ∧ (s.caller k).own = some p ∧
      s.writes p = [] ∧ Filled s (s.caller k) p ∧ ∀ k', k' ≠ k → Aside (s.caller k') := by
  cases h.phase with
  | unused _ _ _ haside => exact absurd (haside k) hk
  | posted _ _ _ _ _ _ _ _ haside => exact absurd (haside k) hk
  | served _ _ _ _ _ haside => exact absurd (haside k) hk
  | held k' p hbuf hqueue htcpip hown hw hfill haside =>
    rcases eq_or_ne k k' with rfl | hne
    · exact ⟨p, hbuf, hqueue, htcpip, hown, hw, hfill, haside⟩
    · exact absurd (haside k hne) hk

/-- A caller that is aside and stays so leaves the record to the one who has it. -/
theorem Phase.aside {s : State ι} (h : Phase s) {k : ι} {c : Caller} (hold : Aside (s.caller k))
    (hnew : Aside c)
    (hown : c.own = none ∨ c.own = (s.caller k).own ∧ c.cli = (s.caller k).cli ∧
      c.data = (s.caller k).data ∧ ((∃ j, c.pc = .wait j) ∨ ∃ ret, c.pc = .done ret)) :
    Phase (s.set k c) := by
  have haside : ∀ k', Aside (s.caller k') → Aside ((s.set k c).caller k') := by
    intro k' hk'
    rcases eq_or_ne k' k with rfl | hne
    · rwa [set_self]
    · rwa [set_other hne]
  have hasked : ∀ p, Asked s p → Asked (s.set k c) p := by
    rintro p ⟨hlen, hall⟩
    refine ⟨hlen, fun k' hp => ?_⟩
    rcases eq_or_ne k' k with rfl | hne
    · rw [set_self] at hp ⊢
      rcases hown with hnone | ⟨hsame, hcli, hdata, hpc⟩
      · simp [hnone] at hp
      · obtain ⟨-, hc, hd⟩ := hall k' (hsame ▸ hp)
        exact ⟨hpc, hcli.trans hc, hdata.trans hd⟩
    · rw [set_other hne] at hp ⊢
      exact hall k' hp
  cases h with
  | unused hbuf hqueue htcpip hall =>
    exact .unused hbuf hqueue htcpip fun k' => haside k' (hall k')
  | held k₀ p hbuf hqueue htcpip hp hw hfill hall =>
    have hne : k₀ ≠ k := by
      rintro rfl
      exact hfill.not_aside hp hold
    refine .held k₀ p hbuf hqueue htcpip ?_ hw ?_ fun k' hk' => haside k' (hall k' hk')
    · rwa [set_other hne]
    · rw [set_other hne]
      exact hfill
  | posted p hbuf hqueue htcpip hfree hw herr hask hall =>
    exact .posted p hbuf hqueue htcpip hfree hw herr (hasked p hask) fun k' => haside k' (hall k')
  | served p hbuf hqueue hserved hask hall =>
    exact .served p hbuf hqueue hserved (hasked p hask) fun k' => haside k' (hall k')

/-- The pcs of a caller at work on its block. -/
def Pc.fills : Pc → Bool
  | .copy | .setCli | .setLen | .setErr | .post | .again | .free => true
  | _ => false

/-- A caller goes on with the block that it has in the record. -/
theorem Inv.fill {s s' : State ι} (h : Inv s) {k : ι} (hk : ¬Aside (s.caller k)) {c : Caller}
    (hcaller : s'.caller = update s.caller k c) (hblocks : s'.blocks = s.blocks)
    (hfreed : s'.freed = s.freed) (hlog : s'.log = s.log) (hbuf : s'.buf = s.buf)
    (hqueue : s'.queue = s.queue) (htcpip : s'.tcpip = s.tcpip)
    (herr : s'.err = s.err ∨ ∀ k', k' ≠ k → ¬WaitsOnFailure s (s.caller k'))
    (hown : c.own = (s.caller k).own) (hpc : c.pc.fills = true)
    (hfill : ∀ p, s.buf = some p → Filled s (s.caller k) p → Filled s' c p) : Inv s' := by
  obtain ⟨p, hb, hq, ht, ho, hw, hf, haside⟩ := h.held_of hk
  refine ⟨?_, ?_, fun q hq' => ?_⟩
  · refine h.base.caller hcaller hblocks hfreed hlog hbuf herr (.inr hown) ?_ ?_ ?_ ?_
    · rintro (h1 | h1) <;> simp [h1, Pc.fills] at hpc
    · rintro (h1 | h1 | h1) <;> simp [h1, Pc.fills] at hpc
    · intro j h1
      simp [h1, Pc.fills] at hpc
    · intro h1
      simp [h1, Pc.fills] at hpc
  · have hwrites : s'.writes p = [] := by simpa [State.writes, hlog] using hw
    have hself : s'.caller k = c := by simp [hcaller]
    refine .held k p (hbuf.trans hb) (hqueue.trans hq) (htcpip.trans ht) ?_ hwrites ?_ ?_
    · rw [hself, hown, ho]
    · rw [hself]
      exact hfill p hb hf
    · intro k' hne
      simpa [hcaller, hne] using haside k' hne
  · rw [hblocks]
    exact h.buf_lt q (hbuf ▸ hq')

/-- A caller that is aside does a statement that leaves the record alone. -/
theorem Inv.aside {s : State ι} (h : Inv s) {k : ι} {c : Caller} (hold : Aside (s.caller k))
    (hnew : Aside c)
    (hown : c.own = none ∨ c.own = (s.caller k).own ∧ c.cli = (s.caller k).cli ∧
      c.data = (s.caller k).data ∧ ((∃ j, c.pc = .wait j) ∨ ∃ ret, c.pc = .done ret))
    (hun : c.pc = .test ∨ c.pc = .alloc → c.own = none)
    (hret : c.pc = .test ∨ c.pc = .alloc ∨ c.pc = .check → c.ret = 0)
    (hwait : ∀ j, c.pc = .wait j → ∃ p, c.own = some p ∧ (s.buf ≠ some p → Answered s c p))
    (hdone : c.pc = .done 0 → Success s c) : Inv (s.set k c) :=
  ⟨h.base.caller rfl rfl rfl rfl rfl (.inl rfl) (hown.imp id And.left) hun hret hwait hdone,
    h.phase.aside hold hnew hown, h.buf_lt⟩

theorem Inv.call {s : State ι} (h : Inv s) {k : ι} (hk : (s.caller k).pc.returned = true) (cli : ℕ)
    (data : List UInt8) : Inv (s.set k ⟨.test, cli, data, 0, 0, none⟩) := by
  refine h.aside (.inl ?_) (.inl rfl) (.inl rfl) (fun _ => rfl) (fun _ => rfl) nofun nofun
  cases hpc : (s.caller k).pc <;> simp_all [Pc.returned, Pc.holds]

theorem Inv.test {s : State ι} (h : Inv s) {k : ι} (hpc : (s.caller k).pc = .test) :
    Inv (s.set k { s.caller k with pc := if s.buf = none then .alloc else .done errMem }) := by
  have hnone := h.base.unowned k (.inl hpc)
  have hret := h.base.ret k (.inl hpc)
  refine h.aside (.inl (by rw [hpc]; rfl)) (.inl ?_) (.inl hnone) (fun _ => hnone) (fun _ => hret)
    ?_ ?_
  · dsimp only; split <;> rfl
  · intro j; dsimp only; split <;> exact nofun
  · dsimp only; split <;> simp [errMem]

/-- The block is stored in a record that is free. -/
theorem Inv.alloc {s : State ι} (h : Inv s) {k : ι} (hpc : (s.caller k).pc = .alloc)
    (hbuf : s.buf = none) :
    Inv ({ s with buf := some s.blocks, blocks := s.blocks + 1 }.set k
      { s.caller k with pc := .check, own := some s.blocks }) := by
  have hret := h.base.ret k (.inr (.inl hpc))
  obtain ⟨hfree, hw⟩ := h.base.fresh s.blocks le_rfl
  have hno : ∀ k', (s.caller k').own ≠ some s.blocks := fun k' hp =>
    absurd (h.base.own_lt k' _ hp) (lt_irrefl _)
  set c : Caller := { s.caller k with pc := .check, own := some s.blocks } with hc
  have hbase := h.base
  have hphase : s.queue = 0 ∧ s.tcpip = .idle ∧ ∀ k', Aside (s.caller k') := by
    cases h.phase with
    | unused _ hq ht hall => exact ⟨hq, ht, hall⟩
    | held _ p hb => simp [hbuf] at hb
    | posted p hb => simp [hbuf] at hb
    | served p hb => simp [hbuf] at hb
  obtain ⟨hq, ht, hall⟩ := hphase
  refine ⟨⟨?_, ?_, ?_, ?_, ?_, ?_, ?_, ?_⟩, ?_, ?_⟩
  · intro p hp
    exact hbase.fresh p (Nat.le_of_succ_le hp)
  · intro p hp hne
    have hlt : p < s.blocks := by
      rcases Nat.lt_succ_iff_lt_or_eq.1 hp with hlt | rfl
      · exact hlt
      · exact absurd rfl hne
    exact hbase.released p hlt (by simp [hbuf])
  · intro k' p hp
    rcases eq_or_ne k' k with rfl | hne
    · obtain rfl : s.blocks = p := by simpa [hc] using hp
      exact Nat.lt_succ_self _
    · rw [set_other hne] at hp
      exact Nat.lt_succ_of_lt (hbase.own_lt k' p hp)
  · intro k₁ k₂ p h₁ h₂
    rcases eq_or_ne k₁ k with rfl | hne₁ <;> rcases eq_or_ne k₂ k₁ with rfl | hne
    · rfl
    · obtain rfl : s.blocks = p := by simpa [hc] using h₁
      rw [set_other hne] at h₂
      exact absurd h₂ (hno k₂)
    · rfl
    · rw [set_other hne₁] at h₁
      rcases eq_or_ne k₂ k with rfl | hne₂
      · obtain rfl : s.blocks = p := by simpa [hc] using h₂
        exact absurd h₁ (hno k₁)
      · rw [set_other hne₂] at h₂
        exact hbase.own_inj k₁ k₂ p h₁ h₂
  · intro k' hk'
    rcases eq_or_ne k' k with rfl | hne
    · simp [hc] at hk'
    · rw [set_other hne] at hk' ⊢
      exact hbase.unowned k' hk'
  · intro k' hk'
    rcases eq_or_ne k' k with rfl | hne
    · simpa [hc] using hret
    · rw [set_other hne] at hk' ⊢
      exact hbase.ret k' hk'
  · intro k' j hk'
    rcases eq_or_ne k' k with rfl | hne
    · simp [hc] at hk'
    · rw [set_other hne] at hk' ⊢
      obtain ⟨p, hp, hans⟩ := hbase.waiting k' j hk'
      exact ⟨p, hp, fun _ => hans (by simp [hbuf])⟩
  · intro k' hk'
    rcases eq_or_ne k' k with rfl | hne
    · simp [hc] at hk'
    · rw [set_other hne] at hk' ⊢
      exact hbase.success k' hk'
  · refine .held k s.blocks rfl hq ht (by simp [hc]) hw ?_ fun k' hne => ?_
    · rw [set_self]
      exact hfree
    · rw [set_other hne]
      exact hall k'
  · intro p hp
    obtain rfl : s.blocks = p := by simpa [State.set] using hp
    exact Nat.lt_succ_self _

/-- There is no memory, and no data for it. -/
theorem Inv.alloc_none {s : State ι} (h : Inv s) {k : ι} (hpc : (s.caller k).pc = .alloc)
    (hdata : (s.caller k).data = []) : Inv (s.set k { s.caller k with pc := .check }) := by
  have hnone := h.base.unowned k (.inr hpc)
  refine h.aside (.inl (by rw [hpc]; rfl)) (.inr ⟨rfl, hnone, hdata⟩) (.inl hnone) (fun _ => hnone)
    (fun _ => h.base.ret k (.inr (.inl hpc))) nofun nofun

/-- A caller that finds no result, or finds one, has been served if it succeeds. -/
theorem Inv.wait {s : State ι} (h : Inv s) {k : ι} {j : ℕ} (hpc : (s.caller k).pc = .wait j) :
    Inv (s.set k { s.caller k with
      pc := if s.err ≠ noResult then .done s.err else if j + 1 < 10 then .wait (j + 1)
        else .done errTimeout }) := by
  have haside : Aside (s.caller k) := .inl (by rw [hpc]; rfl)
  obtain ⟨p, hp, hans⟩ := h.base.waiting k j hpc
  refine h.aside haside (.inl ?_) (.inr ⟨rfl, rfl, rfl, ?_⟩) ?_ ?_ ?_ ?_
  · dsimp only; split <;> [rfl; split <;> rfl]
  · dsimp only
    split
    · exact .inr ⟨_, rfl⟩
    · split
      · exact .inl ⟨_, rfl⟩
      · exact .inr ⟨_, rfl⟩
  · dsimp only
    split <;> [skip; split] <;> rintro (h1 | h1) <;> exact nomatch h1
  · dsimp only
    split <;> [skip; split] <;> rintro (h1 | h1 | h1) <;> exact nomatch h1
  · intro i hi
    exact ⟨p, hp, hans⟩
  · intro hdone
    have herr : s.err = 0 := by
      dsimp only at hdone
      split at hdone
      · simpa using hdone
      · split at hdone <;> simp [errTimeout] at hdone
    refine .inr ⟨p, hp, ?_⟩
    rcases eq_or_ne s.buf (some p) with hbuf | hbuf
    · -- the tcpip thread has just stored the result
      cases h.phase with
      | unused hb => simp [hb] at hbuf
      | held k' q hb _ _ ho _ hfill hall =>
        obtain rfl : q = p := by simpa [hb] using hbuf
        obtain rfl : k' = k := h.base.own_inj k' k q ho hp
        exact absurd haside (hfill.not_aside ho)
      | posted q _ _ _ _ _ h99 => simp [herr, noResult] at h99
      | served q hb _ hserved hask =>
        obtain rfl : q = p := by simpa [hb] using hbuf
        obtain ⟨-, hcli, hdata⟩ := hask.2 k hp
        simp only [Served] at hserved
        split at hserved
        · exact hserved.elim
        · simp [herr, noResult] at hserved
        · simp [herr, noResult] at hserved
        · simpa [hcli, hdata, herr] using hserved.2.2
        · simpa [hcli, hdata, herr] using hserved.2.2
    · obtain ⟨e, -, hw, hkeep⟩ := hans hbuf
      obtain rfl : e = 0 := by
        by_contra hne
        exact hne ((hkeep hne).symm.trans herr)
      exact hw

/-- A caller goes on to copy its data, or has none. -/
theorem Inv.check {s : State ι} (h : Inv s) {k : ι} (hpc : (s.caller k).pc = .check)
    (hok : (s.caller k).own = none → s.buf = none) :
    Inv (s.set k { s.caller k with
      pc := if s.buf = none then .done (s.caller k).ret else .copy }) := by
  rcases Classical.em (Aside (s.caller k)) with haside | haside
  · have hempty : (s.caller k).own = none ∧ (s.caller k).data = [] := by
      rcases haside with hno | ⟨-, hempty⟩
      · simp [hpc, Pc.holds] at hno
      · exact hempty
    rw [if_pos (hok hempty.1)]
    exact h.aside haside (.inl rfl) (.inl hempty.1) nofun nofun nofun fun _ => .inl hempty
  · obtain ⟨p, hbuf, -⟩ := h.held_of haside
    rw [if_neg (by simp [hbuf])]
    refine h.fill haside rfl rfl rfl rfl rfl rfl rfl (.inl rfl) rfl rfl ?_
    intro q _ hf
    simp only [Filled, hpc] at hf
    exact hf

theorem not_aside {c : Caller} (h : c.pc.holds = true) (hne : c.pc ≠ .check) : ¬Aside c := by
  rintro (hno | ⟨hcheck, -⟩)
  · rw [h] at hno
    exact nomatch hno
  · exact hne hcheck

/-- The message is posted: the record waits for the tcpip thread, the caller for its result. -/
theorem Inv.post {s : State ι} (h : Inv s) {k : ι} (hpc : (s.caller k).pc = .post) :
    Inv ({ s with queue := s.queue + 1 }.set k { s.caller k with pc := .wait 0, ret := 0 }) := by
  obtain ⟨p, hbuf, hqueue, htcpip, hown, hw, hfill, hall⟩ :=
    h.held_of (not_aside (by rw [hpc]; rfl) (by simp [hpc]))
  simp only [Filled, hpc] at hfill
  obtain ⟨hfree, hmem, hcli, hlen, herr⟩ := hfill
  refine ⟨?_, ?_, h.buf_lt⟩
  · refine h.base.caller rfl rfl rfl rfl rfl (.inl rfl) (.inr rfl) nofun nofun ?_ nofun
    intro j _
    exact ⟨p, hown, fun hne => absurd hbuf hne⟩
  · refine .posted p hbuf (by simp [State.set, hqueue]) htcpip hfree hw herr ⟨?_, ?_⟩ ?_
    · simpa [State.set, hmem] using hlen
    · intro k' hk'
      rcases eq_or_ne k' k with rfl | hne
      · rw [set_self]
        exact ⟨.inl ⟨0, rfl⟩, hcli.symm, hmem.symm⟩
      · rw [set_other hne] at hk'
        exact absurd (h.base.own_inj k' k p hk' hown) hne
    · intro k'
      rcases eq_or_ne k' k with rfl | hne
      · rw [set_self]
        exact .inl rfl
      · rw [set_other hne]
        exact hall k' hne

omit [DecidableEq ι] in
/-- Freeing the block in the record concerns no other block. -/
theorem Base.rtFree {s : State ι} (h : Base s) {p : ℕ} (hbuf : s.buf = some p) (hlt : p < s.blocks) :
    Base (s.rtFree s.buf) := by
  simp only [State.rtFree, hbuf]
  refine ⟨?_, ?_, h.own_lt, h.own_inj, h.unowned, h.ret, ?_, h.success⟩
  · intro q hq
    obtain ⟨hfree, hw⟩ := h.fresh q hq
    have hne : q ≠ p := by
      rintro rfl
      exact absurd hlt (Nat.not_lt.2 hq)
    exact ⟨by simpa [hne] using hfree, hw⟩
  · intro q hq hne
    have hqp : q ≠ p := by
      rintro rfl
      exact hne rfl
    simpa [hqp] using h.released q hq (hbuf ▸ hne)
  · intro k j hpc
    obtain ⟨q, hq, hans⟩ := h.waiting k j hpc
    exact ⟨q, hq, fun hne => hans (hbuf ▸ hne)⟩

/-- The caller gives its block up. -/
theorem Inv.free {s : State ι} (h : Inv s) {k : ι} (hpc : (s.caller k).pc = .free) :
    Inv ((s.rtFree s.buf).set k { s.caller k with pc := .zero }) := by
  obtain ⟨p, hbuf, hqueue, htcpip, hown, hw, hfill, hall⟩ :=
    h.held_of (not_aside (by rw [hpc]; rfl) (by simp [hpc]))
  simp only [Filled, hpc] at hfill
  have hbase := h.base.rtFree hbuf (h.buf_lt p hbuf)
  simp only [State.rtFree, hbuf] at hbase ⊢
  refine ⟨?_, ?_, fun q hq => h.buf_lt q (by simpa [State.set, hbuf] using hq)⟩
  · exact hbase.caller rfl rfl rfl rfl rfl (.inl rfl) (.inr rfl) nofun nofun nofun nofun
  · refine .held k p rfl hqueue htcpip ?_ hw ?_ fun k' hne => ?_
    · rw [set_self]
      exact hown
    · rw [set_self]
      simp [Filled, State.set, hfill.1, hfill.2]
    · rw [set_other hne]
      exact hall k' hne

omit [DecidableEq ι] in
/-- The record may be cleared once its block is free, and whoever polls for it has been answered. -/
theorem Base.clear {s : State ι} (h : Base s) {p : ℕ} (hbuf : s.buf = some p) (hfree : s.freed p = 1)
    (hans : ∀ k j, (s.caller k).pc = .wait j → (s.caller k).own = some p →
      Answered s (s.caller k) p) : Base { s with buf := none } := by
  refine ⟨h.fresh, ?_, h.own_lt, h.own_inj, h.unowned, h.ret, ?_, h.success⟩
  · intro q hq _
    rcases eq_or_ne q p with rfl | hne
    · exact hfree
    · exact h.released q hq (by simpa [hbuf] using hne.symm)
  · intro k j hpc
    obtain ⟨q, hq, hkeep⟩ := h.waiting k j hpc
    refine ⟨q, hq, fun _ => ?_⟩
    rcases eq_or_ne q p with rfl | hne
    · exact hans k j hpc hq
    · exact hkeep (by simpa [hbuf] using hne.symm)

/-- The caller leaves the record free. -/
theorem Inv.zero {s : State ι} (h : Inv s) {k : ι} (hpc : (s.caller k).pc = .zero) :
    Inv ({ s with buf := none }.set k { s.caller k with pc := .done (s.caller k).ret }) := by
  obtain ⟨p, hbuf, hqueue, htcpip, hown, hw, hfill, hall⟩ :=
    h.held_of (not_aside (by rw [hpc]; rfl) (by simp [hpc]))
  simp only [Filled, hpc] at hfill
  have hbase : Base { s with buf := none } := by
    refine h.base.clear hbuf hfill.1 fun k' j hk' ho => ?_
    obtain rfl : k' = k := h.base.own_inj k' k p ho hown
    rw [hpc] at hk'
    exact nomatch hk'
  refine ⟨?_, ?_, nofun⟩
  · refine hbase.caller rfl rfl rfl rfl rfl (.inl rfl) (.inr rfl) nofun nofun nofun ?_
    intro hdone
    simp only [Pc.done.injEq] at hdone
    exact absurd hdone hfill.2
  · refine .unused rfl hqueue htcpip fun k' => ?_
    rcases eq_or_ne k' k with rfl | hne
    · rw [set_self]
      exact .inl rfl
    · rw [set_other hne]
      exact hall k' hne

/-- A caller's statement. -/
theorem Inv.stepCaller {s : State ι} (h : Inv s) {k : ι} {mem : Bool} {posted : ℤ}
    (hok : Ok s (.caller k mem posted)) : Inv (stepCaller s k mem posted) := by
  simp only [TcpWrite.stepCaller]
  simp only [Ok] at hok
  have haside : (s.caller k).pc.holds = true → (s.caller k).pc ≠ .check → ¬Aside (s.caller k) :=
    not_aside
  cases hpc : (s.caller k).pc with
  | idle => exact h
  | done => exact h
  | test => exact h.test hpc
  | alloc =>
    simp only [hpc] at hok
    obtain ⟨hbuf, hmem⟩ := hok
    cases mem with
    | true => exact h.alloc hpc hbuf
    | false =>
      have hs : { s with buf := none } = s := by rw [← hbuf]
      simp only [Bool.false_eq_true, if_false, hs]
      exact h.alloc_none hpc (by simpa using hmem)
  | check =>
    simp only [hpc] at hok
    exact h.check hpc hok
  | copy =>
    rw [hpc] at haside
    obtain ⟨p, hbuf, -⟩ := h.held_of (haside rfl nofun)
    simp only [hbuf]
    refine h.fill (haside rfl nofun) rfl rfl rfl rfl hbuf.symm rfl rfl (.inl rfl) rfl rfl ?_
    intro q hq hf
    obtain rfl : p = q := by simpa [hbuf] using hq
    simp only [Filled, hpc] at hf
    exact ⟨hf, by simp [State.set]⟩
  | setCli =>
    rw [hpc] at haside
    refine h.fill (haside rfl nofun) rfl rfl rfl rfl rfl rfl rfl (.inl rfl) rfl rfl ?_
    intro p _ hf
    simp only [Filled, hpc] at hf
    exact ⟨hf.1, hf.2, rfl⟩
  | setLen =>
    rw [hpc] at haside
    refine h.fill (haside rfl nofun) rfl rfl rfl rfl rfl rfl rfl (.inl rfl) rfl rfl ?_
    intro p _ hf
    simp only [Filled, hpc] at hf
    exact ⟨hf.1, hf.2.1, hf.2.2, rfl⟩
  | setErr =>
    rw [hpc] at haside
    simp only [hpc] at hok
    refine h.fill (haside rfl nofun) rfl rfl rfl rfl rfl rfl rfl (.inr hok) rfl rfl ?_
    intro p _ hf
    simp only [Filled, hpc] at hf
    exact ⟨hf.1, hf.2.1, hf.2.2.1, hf.2.2.2, rfl⟩
  | post =>
    dsimp only
    split
    · exact h.post hpc
    · next hposted =>
      rw [hpc] at haside
      refine h.fill (haside rfl nofun) rfl rfl rfl rfl rfl rfl rfl (.inl rfl) rfl rfl ?_
      intro p _ hf
      simp only [Filled, hpc] at hf
      exact ⟨hf.1, hf.2.1, hposted⟩
  | wait j => exact h.wait hpc
  | again =>
    rw [hpc] at haside
    dsimp only
    split
    · refine h.fill (haside rfl nofun) rfl rfl rfl rfl rfl rfl rfl (.inl rfl) rfl rfl ?_
      intro p _ hf
      simp only [Filled, hpc] at hf
      exact ⟨hf.1, hf.2.1⟩
    · refine h.fill (haside rfl nofun) rfl rfl rfl rfl rfl rfl rfl (.inl rfl) rfl rfl ?_
      intro p _ hf
      simp only [Filled, hpc] at hf
      exact ⟨hf.1, hf.2.2⟩
  | free => exact h.free hpc
  | zero => exact h.zero hpc

/-! ### A step of the tcpip thread -/

omit [DecidableEq ι] in
/-- If the tcpip thread is at work, it is on the block in the record. -/
theorem Inv.served_of {s : State ι} (h : Inv s) (ht : s.tcpip ≠ .idle) :
    ∃ p, s.buf = some p ∧ s.queue = 0 ∧ Served s p ∧ Asked s p ∧ ∀ k, Aside (s.caller k) := by
  cases h.phase with
  | unused _ _ hidle => exact absurd hidle ht
  | held _ _ _ _ hidle => exact absurd hidle ht
  | posted _ _ _ hidle => exact absurd hidle ht
  | served p hbuf hqueue hserved hask hall => exact ⟨p, hbuf, hqueue, hserved, hask, hall⟩

omit [DecidableEq ι] in
/-- The message is taken. -/
theorem Inv.take {s : State ι} (h : Inv s) (hq : 0 < s.queue) :
    Inv { s with queue := s.queue - 1, tcpip := .write } := by
  refine ⟨⟨h.base.fresh, h.base.released, h.base.own_lt, h.base.own_inj, h.base.unowned, h.base.ret,
    h.base.waiting, h.base.success⟩, ?_, h.buf_lt⟩
  cases h.phase with
  | unused _ hzero => omega
  | held _ _ _ hzero => omega
  | posted p hbuf hone _ hfree hw herr hask hall =>
    exact .served p hbuf (by simp [hone]) ⟨hfree, hw, herr⟩ hask hall
  | served p _ hzero => omega

omit [DecidableEq ι] in
/-- The bytes are given to the TCP stack. -/
theorem Inv.write {s : State ι} (h : Inv s) (ht : s.tcpip = .write) {p : ℕ} (hbuf : s.buf = some p)
    {err : ℤ} (herr : err ≤ 0) :
    Inv { s with
      log := s.log ++ [⟨p, s.cli, (s.mem p).take s.len, err⟩], tcpip := .store err } := by
  obtain ⟨q, hq, hqueue, hserved, hask, hall⟩ := h.served_of (by simp [ht])
  obtain rfl : p = q := by simpa [hbuf] using hq
  simp only [Served, ht] at hserved
  obtain ⟨hfree, hw, h99⟩ := hserved
  have htake : (s.mem p).take s.len = s.mem p := by rw [hask.1, List.take_length]
  rw [htake]
  set s' : State ι :=
    { s with log := s.log ++ [⟨p, s.cli, s.mem p, err⟩], tcpip := .store err } with hs'
  have hother : ∀ q, q ≠ p → s'.writes q = s.writes q := fun q hne => by
    simp [hs', State.writes, hne.symm]
  have hself : s'.writes p = [⟨p, s.cli, s.mem p, err⟩] := by
    have : s'.writes p = s.writes p ++ [⟨p, s.cli, s.mem p, err⟩] := by simp [hs', State.writes]
    rw [this, hw, List.nil_append]
  refine ⟨⟨?_, h.base.released, h.base.own_lt, h.base.own_inj, h.base.unowned, h.base.ret, ?_, ?_⟩,
    .served p hbuf hqueue ⟨hfree, herr, hself, h99⟩ hask hall, h.buf_lt⟩
  · intro q hq'
    have hne : q ≠ p := by
      rintro rfl
      exact absurd (h.buf_lt q hbuf) (Nat.not_lt.2 hq')
    exact ⟨(h.base.fresh q hq').1, by rw [hother q hne]; exact (h.base.fresh q hq').2⟩
  · intro k j hpc
    obtain ⟨q, hown, hans⟩ := h.base.waiting k j hpc
    refine ⟨q, hown, fun hne => ?_⟩
    obtain ⟨e, he, hwq, hkeep⟩ := hans hne
    have hqp : q ≠ p := by
      rintro rfl
      exact hne hbuf
    exact ⟨e, he, by rw [hother q hqp]; exact hwq, hkeep⟩
  · intro k hpc
    rcases h.base.success k hpc with hempty | ⟨q, hown, hwq⟩
    · exact .inl hempty
    · have hqp : q ≠ p := by
        rintro rfl
        simp [hw] at hwq
      exact .inr ⟨q, hown, by rw [hother q hqp]; exact hwq⟩

omit [DecidableEq ι] in
/-- The result is stored; nobody waits on another failure, since there was no result. -/
theorem Inv.store {s : State ι} (h : Inv s) {err : ℤ} (ht : s.tcpip = .store err) :
    Inv { s with err := err, tcpip := .free } := by
  obtain ⟨p, hbuf, hqueue, hserved, hask, hall⟩ := h.served_of (by simp [ht])
  simp only [Served, ht] at hserved
  obtain ⟨hfree, herr, hw, h99⟩ := hserved
  refine ⟨⟨h.base.fresh, h.base.released, h.base.own_lt, h.base.own_inj, h.base.unowned, h.base.ret,
    ?_, h.base.success⟩, .served p hbuf hqueue ⟨hfree, herr, hw⟩ hask hall, h.buf_lt⟩
  intro k j hpc
  obtain ⟨q, hown, hans⟩ := h.base.waiting k j hpc
  refine ⟨q, hown, fun hne => ?_⟩
  obtain ⟨e, he, hwq, hkeep⟩ := hans hne
  refine ⟨e, he, hwq, fun hne0 => ?_⟩
  have := hkeep hne0
  rw [h99, noResult] at this
  omega

omit [DecidableEq ι] in
/-- The block is freed. -/
theorem Inv.release {s : State ι} (h : Inv s) (ht : s.tcpip = .free) :
    Inv { s.rtFree s.buf with tcpip := .zero } := by
  obtain ⟨p, hbuf, hqueue, hserved, hask, hall⟩ := h.served_of (by simp [ht])
  simp only [Served, ht] at hserved
  obtain ⟨hfree, herr, hw⟩ := hserved
  have hbase := h.base.rtFree hbuf (h.buf_lt p hbuf)
  simp only [State.rtFree, hbuf] at hbase ⊢
  exact ⟨⟨hbase.fresh, hbase.released, hbase.own_lt, hbase.own_inj, hbase.unowned, hbase.ret,
    hbase.waiting, hbase.success⟩, .served p rfl hqueue ⟨by simp [hfree], herr, hw⟩ hask hall,
    fun q hq => h.buf_lt q (hbuf.trans hq)⟩

omit [DecidableEq ι] in
/-- The record is free again; the owner of the block is answered. -/
theorem Inv.clear {s : State ι} (h : Inv s) (ht : s.tcpip = .zero) :
    Inv { s with buf := none, tcpip := .idle } := by
  obtain ⟨p, hbuf, hqueue, hserved, hask, hall⟩ := h.served_of (by simp [ht])
  simp only [Served, ht] at hserved
  obtain ⟨hfree, herr, hw⟩ := hserved
  have hbase : Base { s with buf := none } := by
    refine h.base.clear hbuf hfree fun k j _ hown => ?_
    obtain ⟨-, hcli, hdata⟩ := hask.2 k hown
    exact ⟨s.err, herr, by rw [hw, hcli, hdata], fun _ => rfl⟩
  exact ⟨⟨hbase.fresh, hbase.released, hbase.own_lt, hbase.own_inj, hbase.unowned, hbase.ret,
    hbase.waiting, hbase.success⟩, .unused rfl hqueue rfl hall, nofun⟩

/-! ### Runs -/

theorem Inv.step {s : State ι} (h : Inv s) {a : Act ι} (hok : Ok s a) : Inv (step s a) := by
  cases a with
  | call k cli data =>
    simp only [TcpWrite.step]
    split
    · next hret => exact h.call hret cli data
    · exact h
  | caller k mem posted => exact h.stepCaller hok
  | tcpip code =>
    simp only [TcpWrite.step, stepTcpip]
    cases ht : s.tcpip with
    | idle =>
      dsimp only
      split
      · next hq => exact h.take hq
      · exact h
    | write =>
      obtain ⟨p, hbuf, -⟩ := h.served_of (by simp [ht])
      simp only [hbuf]
      rw [← hbuf]
      exact h.write ht hbuf (by omega)
    | store err => exact h.store ht
    | free => exact h.release ht
    | zero => exact h.clear ht

omit [DecidableEq ι] in
/-- A step that leaves the record's block and the counts of the frees alone. -/
theorem Kept.of_eq {s s' : State ι} (hbuf : s'.buf = s.buf) (hfreed : s'.freed = s.freed) :
    Kept s s' :=
  ⟨fun _ hp _ => hbuf.trans hp, fun _ _ => by rw [hfreed]⟩

/-- A step that meets the condition loses no block and frees none that is pending. -/
theorem Inv.kept {s : State ι} (h : Inv s) {a : Act ι} (hok : Ok s a) :
    Kept s (TcpWrite.step s a) := by
  cases a with
  | call k cli data =>
    simp only [TcpWrite.step]
    split <;> exact .of_eq rfl rfl
  | caller k mem posted =>
    simp only [TcpWrite.step, TcpWrite.stepCaller]
    simp only [Ok] at hok
    have haside : (s.caller k).pc.holds = true → (s.caller k).pc ≠ .check → ¬Aside (s.caller k) :=
      not_aside
    cases hpc : (s.caller k).pc with
    | alloc =>
      simp only [hpc] at hok
      cases mem with
      | true =>
        refine ⟨fun p hp => ?_, fun p hp => rfl⟩
        simp [hok.1] at hp
      | false => exact .of_eq hok.1.symm rfl
    | free =>
      rw [hpc] at haside
      obtain ⟨p, hbuf, hqueue, htcpip, -⟩ := h.held_of (haside rfl nofun)
      refine ⟨fun q hq _ => ?_, fun q hq => ?_⟩
      · simpa [State.rtFree, hbuf, State.set] using hq
      · -- no message has been posted for the block
        obtain ⟨-, hposted, -⟩ := hq
        simp [hqueue, htcpip] at hposted
    | zero =>
      rw [hpc] at haside
      obtain ⟨p, hbuf, -, -, -, -, hfill, -⟩ := h.held_of (haside rfl nofun)
      simp only [Filled, hpc] at hfill
      refine ⟨fun q hq hfree => ?_, fun q _ => rfl⟩
      obtain rfl : p = q := by simpa [hbuf] using hq
      omega
    | copy =>
      cases hbuf : s.buf with
      | none => exact .of_eq rfl rfl
      | some p => exact .of_eq hbuf.symm rfl
    | post => dsimp only; split <;> exact .of_eq rfl rfl
    | idle | test | check | setCli | setLen | setErr | wait | again | done => exact .of_eq rfl rfl
  | tcpip code =>
    simp only [TcpWrite.step, stepTcpip]
    cases ht : s.tcpip with
    | idle => dsimp only; split <;> exact .of_eq rfl rfl
    | write => exact .of_eq rfl rfl
    | store => exact .of_eq rfl rfl
    | free =>
      obtain ⟨p, hbuf, hqueue, -⟩ := h.served_of (by simp [ht])
      refine ⟨fun q hq _ => ?_, fun q hq => ?_⟩
      · simpa [State.rtFree, hbuf] using hq
      · obtain ⟨-, hposted, -⟩ := hq
        simp [hqueue, ht] at hposted
    | zero =>
      obtain ⟨p, hbuf, -, hserved, -⟩ := h.served_of (by simp [ht])
      simp only [Served, ht] at hserved
      refine ⟨fun q hq hfree => ?_, fun q _ => rfl⟩
      obtain rfl : p = q := by simpa [hbuf] using hq
      omega

theorem reach_inv {s : State ι} (h : Reach (system ι) Ok s) : Inv s := by
  refine h.invariant ?_ ?_
  · rintro s rfl
    exact Inv.init
  · rintro s a s' hinv hok rfl
    exact hinv.step hok

/-- One statement after another. -/
def steps (s : State ι) (as : List (Act ι)) : State ι := as.foldl step s

theorem steps_reachable (as : List (Act ι)) : Reachable (system ι) (steps start as) := by
  induction as using List.reverseRecOn with
  | nil => exact .init rfl
  | append_singleton as a ih =>
    rw [steps, List.foldl_append]
    exact .step ih trivial rfl

end EasyCore.TcpWrite
