import EasyCore.Utilities.Crc16

/-! The YMODEM receiver (`components/utilities/ymodem/ymodem.c`). A session reads the bytes of the
    sender one after the other; `none` is a wait that has timed out, and after the last of them there
    are only timeouts.

        handshake   C … ◀ SOH 00 ff name crc
        trans       ACK C ◀ packet, ACK ◀ packet, …, ◀ EOT
        fin         NAK ◀ EOT, ACK C ◀ SOH 00 ff 0 … 0 crc, ACK -/

namespace EasyCore.Ymodem

/-! ### Codes, errors and packets -/

namespace Code

/-- `enum rym_code` -/
def none : UInt8 := 0x00
def soh : UInt8 := 0x01
def stx : UInt8 := 0x02
def eot : UInt8 := 0x04
def ack : UInt8 := 0x06
def nak : UInt8 := 0x15
def can : UInt8 := 0x18
def c : UInt8 := 0x43

end Code

/-- `RYM_ERR_*`, and the errors of the heap and of the device. -/
inductive RymErr
  | tmo
  | code
  | seq
  | crc
  | dsz
  | can
  | enomem
  | device
  deriving DecidableEq

/-- `enum rym_stage` -/
inductive Stage
  | none
  | establishing
  | established
  | transmitting
  | finishing
  | finished
  deriving DecidableEq

/-- A packet as it lies in the buffer. -/
structure Packet where
  code : UInt8
  seq : UInt8
  nseq : UInt8
  data : List UInt8
  crcHi : UInt8
  crcLo : UInt8
  deriving DecidableEq

/-- `recv_crc` -/
def Packet.recvCrc (p : Packet) : UInt16 := p.crcHi.toUInt16 <<< 8 ||| p.crcLo.toUInt16

/-- The bytes after the code, for a packet of `dataSz` bytes of data. -/
def Packet.ofBytes (code : UInt8) (dataSz : ℕ) (bytes : List UInt8) : Packet where
  code := code
  seq := bytes.getD 0 0
  nseq := bytes.getD 1 0
  data := (bytes.drop 2).take dataSz
  crcHi := bytes.getD (dataSz + 2) 0
  crcLo := bytes.getD (dataSz + 3) 0

/-- What the user's functions answer: `on_begin`, if there is one, and `on_data` to each call. -/
structure Callbacks where
  onBegin : Option UInt8
  onData : Option (ℕ → UInt8)

/-- The line, `ctx->stage`, and the packets passed to `on_data`. -/
structure State where
  input : List (Option UInt8)
  sent : List UInt8
  stage : Stage
  passed : List Packet

/-! ### Reading -/

/-- `_rym_read_code` -/
def readCode (s : State) : UInt8 × State :=
  match s.input with
  | some b :: rest => (b, { s with input := rest })
  | none :: rest => (Code.none, { s with input := rest })
  | [] => (Code.none, s)

/-- `_rym_read_data`: the bytes up to the first timeout. -/
def readData : ℕ → List (Option UInt8) → List UInt8 × List (Option UInt8)
  | 0, input => ([], input)
  | n + 1, some b :: input => (b :: (readData n input).1, (readData n input).2)
  | _ + 1, none :: input => ([], input)
  | _ + 1, [] => ([], [])

/-- `_rym_putchar` -/
def putchar (s : State) (code : UInt8) : State := { s with sent := s.sent ++ [code] }

/-! ### The three parts -/

/-- The loop that waits for the sender, and whether it has found one. -/
def waitSender : ℕ → State → State × Bool
  | 0, s => (s, false)
  | tmSec + 1, s =>
    let r := readCode (putchar s Code.c)
    if r.1 = Code.soh then (r.2, true) else waitSender tmSec r.2

/-- Packet 0, which opens a session and closes it. -/
def readHeader (s : State) : State × Except RymErr Unit :=
  let r := readData 132 s.input
  let p := Packet.ofBytes Code.soh 128 r.1
  let s := { s with input := r.2 }
  if r.1.length ≠ 132 then (s, .error .dsz)
  else if p.seq ≠ 0 ∨ p.nseq ≠ 0xff then (s, .error .seq)
  else if p.recvCrc ≠ crc16 p.data then (s, .error .crc)
  else (s, .ok ())

/-- `_rym_do_handshake` -/
def doHandshake (cb : Callbacks) (tmSec : ℕ) (s : State) : State × Except RymErr Unit :=
  match waitSender tmSec { s with stage := .establishing } with
  | (s, false) => (s, .error .tmo)
  | (s, true) =>
    match readHeader s with
    | (s, .error e) => (s, .error e)
    | (s, .ok ()) => (s, if ∃ code ∈ cb.onBegin, code ≠ Code.ack then .error .can else .ok ())

/-- `_rym_trans_data` -/
def transData (cb : Callbacks) (code : UInt8) (dataSz : ℕ) (s : State) :
    State × Except RymErr UInt8 :=
  let r := readData (2 + dataSz + 2) s.input
  let p := Packet.ofBytes code dataSz r.1
  let s := { s with input := r.2 }
  if r.1.length ≠ 2 + dataSz + 2 then (s, .error .dsz)
  else if p.seq.toNat + p.nseq.toNat ≠ 0xff then (s, .error .seq)
  else if p.recvCrc ≠ crc16 p.data then (s, .error .crc)
  else
    match cb.onData with
    | some answer => ({ s with passed := s.passed ++ [p] }, .ok (answer s.passed.length))
    | none => (s, .ok Code.ack)

/-- One packet, and what `on_data` answers to it; `none` when the loop goes on. -/
def transPacket (cb : Callbacks) (code : UInt8) (dataSz : ℕ) (s : State) :
    State × Option (Except RymErr Unit) :=
  match transData cb code dataSz { s with stage := .transmitting } with
  | (s, .error e) => (s, some (.error e))
  | (s, .ok code) =>
    if code = Code.can then (putchar (putchar s Code.can) Code.can, some (.error .can))
    else if code = Code.ack then (putchar s Code.ack, none)
    else (s, none)

/-- The body of the loop of `_rym_do_trans`. -/
def transStep (cb : Callbacks) (s : State) : State × Option (Except RymErr Unit) :=
  let r := readCode s
  if r.1 = Code.soh then transPacket cb Code.soh 128 r.2
  else if r.1 = Code.stx then transPacket cb Code.stx 1024 r.2
  else if r.1 = Code.eot then (r.2, some (.ok ()))
  else (r.2, some (.error .code))

/-- The loop: it ends at a timeout, so that the length of the input bounds its turns. -/
def transLoop (cb : Callbacks) : ℕ → State → State × Except RymErr Unit
  | 0, s => (s, .error .code)
  | fuel + 1, s =>
    match transStep cb s with
    | (s, some res) => (s, res)
    | (s, none) => transLoop cb fuel s

/-- `_rym_do_trans` -/
def doTrans (cb : Callbacks) (s : State) : State × Except RymErr Unit :=
  let s := putchar (putchar s Code.ack) Code.c
  transLoop cb (s.input.length + 1) { s with stage := .established }

/-- `_rym_do_fin`; the answer of `on_end` is ignored. -/
def doFin (s : State) : State × Except RymErr Unit :=
  let r := readCode (putchar { s with stage := .finishing } Code.nak)
  if r.1 ≠ Code.eot then (r.2, .error .code)
  else
    let r := readCode (putchar (putchar r.2 Code.ack) Code.c)
    if r.1 ≠ Code.soh then (r.2, .error .code)
    else
      match readHeader r.2 with
      | (s, .error e) => (s, .error e)
      | (s, .ok ()) => (putchar { s with stage := .finished } Code.ack, .ok ())

/-! ### A session -/

/-- What a session meets: the device, the heap, the user's functions and the sender. -/
structure Env where
  opens : Bool
  malloc : Option ℕ
  callbacks : Callbacks
  /-- `handshake_timeout`, as an unsigned number. -/
  tmSec : ℕ
  input : List (Option UInt8)

/-- How a session ends: `allocated` and `freed` are the buffers of `rt_malloc` and `rt_free`, and
    `buf` is left in the context. -/
structure Session where
  result : Except RymErr Unit
  line : State
  allocated : Option ℕ
  freed : Option ℕ
  buf : Option ℕ

/-- `_rym_do_recv`, once there is a buffer. -/
def doRecv (env : Env) : State × Except RymErr Unit :=
  match doHandshake env.callbacks env.tmSec ⟨env.input, [], .none, []⟩ with
  | (s, .error e) => (s, .error e)
  | (s, .ok ()) =>
    match doTrans env.callbacks s with
    | (s, .error e) => (s, .error e)
    | (s, .ok ()) => doFin s

/-- `rym_recv_on_device`, with what the context holds for a buffer: the pointer of the session before,
    if there was one. `rt_free` ignores a null pointer. -/
def recvOnDevice (env : Env) (buf : Option ℕ) : Session :=
  if env.opens then
    match env.malloc with
    | none => ⟨.error .enomem, ⟨env.input, [], .none, []⟩, none, none, none⟩
    | some addr => ⟨(doRecv env).2, (doRecv env).1, some addr, some addr, some addr⟩
  else ⟨.error .device, ⟨env.input, [], .none, []⟩, none, buf, buf⟩

/-! ### Packets on the line -/

/-- A packet that passes the checks. -/
structure Packet.Intact (p : Packet) : Prop where
  size : p.code = Code.soh ∧ p.data.length = 128 ∨ p.code = Code.stx ∧ p.data.length = 1024
  seq : p.seq.toNat + p.nseq.toNat = 0xff
  crc : p.recvCrc = crc16 p.data

/-- What is sent after the code. -/
def Packet.body (p : Packet) : List UInt8 := p.seq :: p.nseq :: p.data ++ [p.crcHi, p.crcLo]

/-- A packet on the line. -/
def Packet.encode (p : Packet) : List (Option UInt8) := (p.code :: p.body).map some

variable {p : Packet} {s s' : State} {cb : Callbacks} {n : ℕ}

@[simp] theorem length_body : p.body.length = 2 + p.data.length + 2 := by
  simp only [Packet.body, List.cons_append, List.length_cons, List.length_append, List.length_nil]
  omega

theorem ofBytes_body : Packet.ofBytes p.code p.data.length p.body = p := by
  simp [Packet.ofBytes, Packet.body]

theorem body_ofBytes {bytes : List UInt8} (code : UInt8) (h : bytes.length = 2 + n + 2) :
    (Packet.ofBytes code n bytes).body = bytes := by
  obtain ⟨seq, nseq, tail, rfl⟩ : ∃ seq nseq tail, bytes = seq :: nseq :: tail := by
    match bytes with
    | [] | [_] => simp at h
    | seq :: nseq :: tail => exact ⟨seq, nseq, tail, rfl⟩
  have hlen : (tail.drop n).length = 2 := by
    simp only [List.length_cons, List.length_drop] at h ⊢
    omega
  obtain ⟨hi, lo, hcrc⟩ := List.length_eq_two.1 hlen
  have htail : tail = tail.take n ++ [hi, lo] := by rw [← hcrc, List.take_append_drop]
  have hn : n = (tail.take n).length := by
    simp only [List.length_cons] at h
    rw [List.length_take]
    omega
  generalize tail.take n = data at htail hn
  subst htail hn
  simp [Packet.ofBytes, Packet.body]

theorem readData_append (bytes : List UInt8) (rest : List (Option UInt8)) :
    readData bytes.length (bytes.map some ++ rest) = (bytes, rest) := by
  induction bytes with
  | nil => rfl
  | cons b bytes ih =>
    simp only [List.length_cons, List.map_cons, List.cons_append, readData]
    rw [ih]

/-- What is read is what the line begins with, up to a timeout. -/
theorem readData_eq (n : ℕ) (input : List (Option UInt8)) (h : (readData n input).1.length = n) :
    input = (readData n input).1.map some ++ (readData n input).2 := by
  induction n, input using readData.induct with
  | case1 => rfl
  | case2 n b input ih =>
    simp only [readData, List.length_cons] at h
    simp only [readData, List.map_cons, List.cons_append]
    exact congrArg _ (ih (Nat.succ.inj h))
  | case3 n input => cases h
  | case4 n => cases h

/-! ### One turn of the loop -/

/-- What `on_data` answers to its `k`th call, and `RYM_CODE_ACK` if there is no such function. -/
def Callbacks.answer (cb : Callbacks) (k : ℕ) : UInt8 :=
  match cb.onData with
  | some answer => answer k
  | none => Code.ack

/-- The packets passed after some more. -/
def Callbacks.pass (cb : Callbacks) (passed ps : List Packet) : List Packet :=
  if cb.onData.isSome then passed ++ ps else passed

theorem transData_intact (cb : Callbacks) (h : p.Intact) {rest : List (Option UInt8)}
    (hs : s.input = p.body.map some ++ rest) : transData cb p.code p.data.length s
      = ({ s with input := rest, passed := cb.pass s.passed [p] },
          .ok (cb.answer s.passed.length)) := by
  have hread : readData (2 + p.data.length + 2) s.input = (p.body, rest) := by
    rw [hs, ← length_body]
    exact readData_append _ _
  simp only [transData, hread, ofBytes_body, length_body, ne_eq, not_true_eq_false, if_false, h.seq,
    h.crc]
  cases hdata : cb.onData <;> simp [Callbacks.pass, Callbacks.answer, hdata]

/-- What has been read in full is a packet. -/
theorem read_packet {input : List (Option UInt8)} (code : UInt8)
    (hlen : (readData (2 + n + 2) input).1.length = 2 + n + 2) :
    (Packet.ofBytes code n (readData (2 + n + 2) input).1).data.length = n
      ∧ input = (Packet.ofBytes code n (readData (2 + n + 2) input).1).body.map some
        ++ (readData (2 + n + 2) input).2 := by
  have hbody := body_ofBytes code hlen
  refine ⟨?_, ?_⟩
  · have := congrArg List.length hbody
    rw [length_body, hlen] at this
    omega
  · rw [hbody]
    exact readData_eq _ _ hlen

theorem transData_ok {code answer : UInt8}
    (hsize : code = Code.soh ∧ n = 128 ∨ code = Code.stx ∧ n = 1024)
    (h : transData cb code n s = (s', .ok answer)) :
    ∃ p : Packet, p.Intact ∧ p.code = code ∧ p.data.length = n
      ∧ s.input = p.body.map some ++ s'.input := by
  simp only [transData] at h
  split at h
  · cases h
  rename_i hlen
  split at h
  · cases h
  rename_i hseq
  split at h
  · cases h
  rename_i hcrc
  push Not at hlen hseq hcrc
  obtain ⟨hdata, hinput⟩ := read_packet code hlen
  have hrest : s'.input = (readData (2 + n + 2) s.input).2 := by
    split at h <;> cases h <;> rfl
  refine ⟨Packet.ofBytes code n (readData (2 + n + 2) s.input).1, ⟨?_, hseq, hcrc⟩, rfl, hdata, ?_⟩
  · rwa [hdata]
  · rwa [hrest]

theorem transData_error {code : UInt8} {e : RymErr} (h : transData cb code n s = (s', .error e)) :
    s'.passed = s.passed := by
  simp only [transData] at h
  split at h
  · cases h
    rfl
  split at h
  · cases h
    rfl
  split at h
  · cases h
    rfl
  · split at h <;> cases h

/-- A packet that passes the checks is passed to `on_data`, whose answer decides how it goes on. -/
theorem transStep_intact (cb : Callbacks) (h : p.Intact) {rest : List (Option UInt8)}
    (hs : s.input = p.encode ++ rest) :
    (transStep cb s).1.input = rest ∧ (transStep cb s).1.passed = cb.pass s.passed [p]
      ∧ (transStep cb s).2
        = if cb.answer s.passed.length = Code.can then some (.error .can) else none := by
  have hcode : readCode s = (p.code, { s with input := p.body.map some ++ rest }) := by
    simp only [readCode, hs, Packet.encode, List.map_cons, List.cons_append]
  have hdata := transData_intact cb h
    (s := { s with input := p.body.map some ++ rest, stage := .transmitting }) rfl
  have hstep : transStep cb s
      = transPacket cb p.code p.data.length { s with input := p.body.map some ++ rest } := by
    simp only [transStep, hcode]
    obtain ⟨hcode, hlen⟩ | ⟨hcode, hlen⟩ := h.size
    · rw [hcode, hlen, if_pos rfl]
    · rw [hcode, hlen, if_neg (by decide), if_pos rfl]
  simp only [hstep, transPacket, hdata]
  split
  · exact ⟨rfl, rfl, rfl⟩
  · split <;> exact ⟨rfl, rfl, rfl⟩

theorem transPacket_cases (cb : Callbacks) {code : UInt8}
    (hsize : code = Code.soh ∧ n = 128 ∨ code = Code.stx ∧ n = 1024) (s : State) :
    (∃ p : Packet, p.Intact ∧ p.code = code ∧ s.input = p.body.map some
        ++ (transPacket cb code n s).1.input)
      ∨ (transPacket cb code n s).1.passed = s.passed
        ∧ ∃ e, (transPacket cb code n s).2 = some (.error e) := by
  simp only [transPacket]
  split
  · rename_i s' e hdata
    exact Or.inr ⟨(transData_error hdata :), e, rfl⟩
  · rename_i s' answer hdata
    obtain ⟨p, hp, hcode, -, hinput⟩ := transData_ok hsize hdata
    refine Or.inl ⟨p, hp, hcode, hinput.trans ?_⟩
    split
    · rfl
    · split <;> rfl

theorem readCode_cases (s : State) : (readCode s).2.passed = s.passed
    ∧ ((readCode s).1 ≠ Code.none → s.input = some (readCode s).1 :: (readCode s).2.input) := by
  simp only [readCode]
  split
  · exact ⟨rfl, fun _ => by assumption⟩
  · exact ⟨rfl, fun h => absurd rfl h⟩
  · exact ⟨rfl, fun h => absurd rfl h⟩

/-- Otherwise the loop ends, without an error at `RYM_CODE_EOT` only. -/
theorem transStep_cases (cb : Callbacks) (s : State) :
    (∃ p : Packet, p.Intact ∧ s.input = p.encode ++ (transStep cb s).1.input)
      ∨ (transStep cb s).1.passed = s.passed ∧ ∃ res, (transStep cb s).2 = some res
        ∧ (res = .ok () → s.input = some Code.eot :: (transStep cb s).1.input) := by
  obtain ⟨hpassed, hinput⟩ := readCode_cases s
  rcases hread : readCode s with ⟨code, s₁⟩
  rw [hread] at hpassed hinput
  have hpacket {n : ℕ} (hsize : code = Code.soh ∧ n = 128 ∨ code = Code.stx ∧ n = 1024)
      (hstep : transStep cb s = transPacket cb code n s₁) :
      (∃ p : Packet, p.Intact ∧ s.input = p.encode ++ (transStep cb s).1.input)
        ∨ (transStep cb s).1.passed = s.passed ∧ ∃ res, (transStep cb s).2 = some res
          ∧ (res = .ok () → s.input = some Code.eot :: (transStep cb s).1.input) := by
    have hcode : code ≠ Code.none := by
      obtain ⟨rfl, -⟩ | ⟨rfl, -⟩ := hsize <;> decide
    obtain ⟨p, hp, rfl, hbody⟩ | ⟨hsame, e, hres⟩ := transPacket_cases cb hsize s₁
    · refine Or.inl ⟨p, hp, ?_⟩
      rw [hinput hcode, hstep, hbody]
      rfl
    · rw [hstep]
      exact Or.inr ⟨hsame.trans hpassed, _, hres, fun h => nomatch h⟩
  by_cases hsoh : code = Code.soh
  · exact hpacket (Or.inl ⟨hsoh, rfl⟩) (by simp only [transStep, hread, hsoh, if_true])
  by_cases hstx : code = Code.stx
  · refine hpacket (Or.inr ⟨hstx, rfl⟩) ?_
    simp only [transStep, hread, hstx, if_true]
    exact if_neg (by decide)
  refine Or.inr ?_
  by_cases heot : code = Code.eot
  · have hstep : transStep cb s = (s₁, some (.ok ())) := by
      simp only [transStep, hread, if_neg hsoh, if_neg hstx, if_pos heot]
    rw [hstep]
    refine ⟨hpassed, _, rfl, fun _ => ?_⟩
    have hcode : code ≠ Code.none := by
      rw [heot]
      decide
    rw [hinput hcode, heot]
  · have hstep : transStep cb s = (s₁, some (.error .code)) := by
      simp only [transStep, hread, if_neg hsoh, if_neg hstx, if_neg heot]
    rw [hstep]
    exact ⟨hpassed, _, rfl, fun h => nomatch h⟩

/-! ### The loop -/

/-- `on_data` cancels at none of the packets but the last, when `n` have been passed before. -/
def Callbacks.Uncancelled (cb : Callbacks) (n : ℕ) (ps : List Packet) : Prop :=
  ∀ k, k + 1 < ps.length → cb.answer (n + k) ≠ Code.can

theorem pass_append (passed ps qs : List Packet) :
    cb.pass (cb.pass passed ps) qs = cb.pass passed (ps ++ qs) := by
  unfold Callbacks.pass
  split
  · rw [List.append_assoc]
  · rfl

@[simp] theorem pass_nil (passed : List Packet) : cb.pass passed [] = passed := by
  simp [Callbacks.pass]

theorem answer_pass (passed : List Packet) (p : Packet) (k : ℕ) :
    cb.answer ((cb.pass passed [p]).length + k) = cb.answer (passed.length + (k + 1)) := by
  unfold Callbacks.answer Callbacks.pass
  cases cb.onData with
  | none => rfl
  | some answer => simp [Nat.add_right_comm, Nat.add_assoc]

theorem uncancelled_cons {passed : List Packet} {ps : List Packet}
    (hp : cb.answer passed.length ≠ Code.can)
    (h : cb.Uncancelled (cb.pass passed [p]).length ps) :
    cb.Uncancelled passed.length (p :: ps) := by
  intro k hk
  cases k with
  | zero => exact hp
  | succ k =>
    rw [← answer_pass passed p]
    exact h k (Nat.lt_of_succ_lt_succ hk)

theorem uncancelled_tail {passed : List Packet} {ps : List Packet}
    (h : cb.Uncancelled passed.length (p :: ps)) :
    cb.Uncancelled (cb.pass passed [p]).length ps := by
  intro k hk
  rw [answer_pass]
  exact h (k + 1) (Nat.succ_lt_succ hk)

theorem length_encode_pos (p : Packet) : 0 < p.encode.length := by
  simp [Packet.encode]

/-- The loop passes intact packets that follow each other on the line, up to `RYM_CODE_EOT` when it
    ends without an error. -/
theorem transLoop_spec (cb : Callbacks) : ∀ (fuel : ℕ) (s : State), s.input.length < fuel →
    ∃ ps rest, s.input = ps.flatMap Packet.encode ++ rest ∧ (∀ p ∈ ps, p.Intact)
      ∧ cb.Uncancelled s.passed.length ps
      ∧ (transLoop cb fuel s).1.passed = cb.pass s.passed ps
      ∧ ((transLoop cb fuel s).2 = .ok () → rest.head? = some (some Code.eot))
  | fuel + 1, s, hfuel => by
    obtain ⟨p, hp, hinput⟩ | ⟨hpassed, res, hres, heot⟩ := transStep_cases cb s
    · obtain ⟨-, hpassed, hres⟩ := transStep_intact cb hp hinput
      have hlen : (transStep cb s).1.input.length < fuel := by
        have := congrArg List.length hinput
        have := length_encode_pos p
        rw [List.length_append] at *
        omega
      simp only [transLoop]
      rcases hstep : transStep cb s with ⟨s₁, out⟩
      rw [hstep] at hinput hpassed hres hlen
      by_cases hcan : cb.answer s.passed.length = Code.can
      · rw [if_pos hcan] at hres
        obtain rfl : out = some (.error .can) := hres
        refine ⟨[p], s₁.input, ?_, ?_, ?_, hpassed, fun h => nomatch h⟩
        · simpa using hinput
        · simpa using hp
        · exact fun k hk => absurd hk (by simp)
      · rw [if_neg hcan] at hres
        obtain rfl : out = none := hres
        obtain ⟨ps, rest, hrest, hps, huncancelled, hfinal, hend⟩ :=
          transLoop_spec cb fuel s₁ hlen
        have hpassed : s₁.passed = cb.pass s.passed [p] := hpassed
        refine ⟨p :: ps, rest, ?_, ?_, ?_, ?_, hend⟩
        · rw [hinput, hrest, List.flatMap_cons, List.append_assoc]
        · exact List.forall_mem_cons.2 ⟨hp, hps⟩
        · exact uncancelled_cons hcan (hpassed ▸ huncancelled)
        · rw [hfinal, hpassed, pass_append]
          rfl
    · simp only [transLoop]
      rcases hstep : transStep cb s with ⟨s₁, out⟩
      rw [hstep] at hpassed hres heot
      obtain rfl : out = some res := hres
      refine ⟨[], s.input, rfl, List.forall_mem_nil _, fun k hk => ?_, ?_, ?_⟩
      · exact absurd hk (Nat.not_lt_zero _)
      · simpa using hpassed
      · intro hok
        rw [heot hok]
        rfl

/-- It passes all of those that the line begins with, until `on_data` cancels. -/
theorem prefix_transLoop (hdata : cb.onData.isSome) : ∀ (ps : List Packet) {rest} (fuel : ℕ)
    (s : State), s.input.length < fuel → s.input = ps.flatMap Packet.encode ++ rest →
    (∀ p ∈ ps, p.Intact) → cb.Uncancelled s.passed.length ps →
    s.passed ++ ps <+: (transLoop cb fuel s).1.passed
  | [], _, fuel, s, hfuel, _, _, _ => by
    obtain ⟨ps, -, -, -, -, hpassed, -⟩ := transLoop_spec cb fuel s hfuel
    rw [hpassed, Callbacks.pass, if_pos hdata]
    simp
  | p :: ps, rest, fuel + 1, s, hfuel, hinput, hps, huncancelled => by
    rw [List.flatMap_cons, List.append_assoc] at hinput
    have hp := hps p List.mem_cons_self
    obtain ⟨hrest, hpassed, hres⟩ := transStep_intact cb hp hinput
    have hpass : cb.pass s.passed [p] = s.passed ++ [p] := if_pos hdata
    simp only [transLoop]
    rcases hstep : transStep cb s with ⟨s₁, out⟩
    rw [hstep] at hrest hpassed hres
    have hpassed : s₁.passed = cb.pass s.passed [p] := hpassed
    by_cases hcan : cb.answer s.passed.length = Code.can
    · rw [if_pos hcan] at hres
      obtain rfl : out = some (.error .can) := hres
      -- The packet is the last one.
      have hlast : ps = [] := by
        by_contra hne
        have hpos := List.length_pos_of_ne_nil hne
        exact huncancelled 0 (by simpa using hpos) hcan
      rw [hlast, ← hpass, ← hpassed]
    · rw [if_neg hcan] at hres
      obtain rfl : out = none := hres
      have hlen : s₁.input.length < fuel := by
        have hrest : s₁.input = ps.flatMap Packet.encode ++ rest := hrest
        have := congrArg List.length hinput
        have := length_encode_pos p
        rw [← hrest, List.length_append] at *
        omega
      have ih := prefix_transLoop hdata ps fuel s₁ hlen hrest
        (fun q hq => hps q (List.mem_cons_of_mem _ hq)) (hpassed ▸ uncancelled_tail huncancelled)
      rwa [hpassed, hpass, List.append_assoc] at ih

theorem doTrans_spec (cb : Callbacks) (s : State) :
    ∃ ps rest, s.input = ps.flatMap Packet.encode ++ rest ∧ (∀ p ∈ ps, p.Intact)
      ∧ cb.Uncancelled s.passed.length ps ∧ (doTrans cb s).1.passed = cb.pass s.passed ps
      ∧ ((doTrans cb s).2 = .ok () → rest.head? = some (some Code.eot)) :=
  transLoop_spec cb _ { putchar (putchar s Code.ack) Code.c with stage := .established }
    (Nat.lt_succ_self _)

theorem prefix_doTrans (hdata : cb.onData.isSome) {ps : List Packet} {rest : List (Option UInt8)}
    (hinput : s.input = ps.flatMap Packet.encode ++ rest) (hps : ∀ p ∈ ps, p.Intact)
    (huncancelled : cb.Uncancelled s.passed.length ps) :
    s.passed ++ ps <+: (doTrans cb s).1.passed :=
  prefix_transLoop hdata ps _ { putchar (putchar s Code.ack) Code.c with stage := .established }
    (Nat.lt_succ_self _) hinput hps huncancelled

/-! ### The handshake -/

/-- Packet 0. -/
structure Packet.Header (p : Packet) : Prop extends p.Intact where
  soh : p.code = Code.soh
  zero : p.seq = 0 ∧ p.nseq = 0xff

theorem readHeader_passed (s : State) : (readHeader s).1.passed = s.passed := by
  simp only [readHeader]
  split_ifs <;> rfl

theorem readHeader_ok (h : readHeader s = (s', .ok ())) :
    ∃ p : Packet, p.Header ∧ s.input = p.body.map some ++ s'.input := by
  simp only [readHeader] at h
  split at h
  · cases h
  rename_i hlen
  split at h
  · cases h
  rename_i hseq
  split at h
  · cases h
  rename_i hcrc
  push Not at hlen hseq hcrc
  obtain ⟨hdata, hinput⟩ := read_packet (n := 128) Code.soh hlen
  cases h
  refine ⟨_, ⟨⟨Or.inl ⟨rfl, hdata⟩, ?_, hcrc⟩, rfl, hseq⟩, hinput⟩
  rw [hseq.1, hseq.2]
  rfl

theorem readHeader_header (h : p.Header) {rest : List (Option UInt8)}
    (hs : s.input = p.body.map some ++ rest) :
    readHeader s = ({ s with input := rest }, .ok ()) := by
  have hlen : p.data.length = 128 := by
    obtain ⟨-, hlen⟩ | ⟨hstx, -⟩ := h.size
    · exact hlen
    · exact absurd (h.soh.symm.trans hstx) (by decide)
  have hread : readData 132 s.input = (p.body, rest) := by
    have hbody : p.body.length = 132 := by rw [length_body, hlen]
    rw [hs, ← hbody]
    exact readData_append _ _
  have hp : Packet.ofBytes Code.soh 128 p.body = p := by
    rw [← h.soh, ← hlen]
    exact ofBytes_body
  simp [readHeader, hread, hp, h.zero, h.crc, hlen]

/-- Other codes are read over. -/
theorem waitSender_cons {e : Option UInt8} {rest : List (Option UInt8)} (hs : s.input = e :: rest)
    (he : e ≠ some Code.soh) (n : ℕ) : waitSender (n + 1) s
      = waitSender n { s with input := rest, sent := s.sent ++ [Code.c] } := by
  cases e with
  | none =>
    simp only [waitSender, readCode, putchar, hs]
    exact if_neg (by decide)
  | some b =>
    simp only [waitSender, readCode, putchar, hs]
    exact if_neg fun hb => he (congrArg some hb)

theorem waitSender_nil (hs : s.input = []) (n : ℕ) : (waitSender n s).2 = false := by
  induction n generalizing s with
  | zero => rfl
  | succ n ih =>
    simp only [waitSender, readCode, putchar, hs]
    rw [if_neg (by decide)]
    exact ih rfl

theorem waitSender_passed (n : ℕ) (s : State) : (waitSender n s).1.passed = s.passed := by
  induction n generalizing s with
  | zero => rfl
  | succ n ih =>
    have hpassed : (readCode (putchar s Code.c)).2.passed = s.passed := (readCode_cases _).1
    simp only [waitSender]
    split
    · exact hpassed
    · rw [ih, hpassed]

theorem waitSender_true {n : ℕ} (h : (waitSender n s).2 = true) :
    ∃ noise, s.input = noise ++ some Code.soh :: (waitSender n s).1.input
      ∧ noise.length < n ∧ some Code.soh ∉ noise := by
  induction n generalizing s with
  | zero => cases h
  | succ n ih =>
    cases hs : s.input with
    | nil => simp [waitSender_nil hs] at h
    | cons e rest =>
      by_cases he : e = some Code.soh
      · have hwait : waitSender (n + 1) s
            = ({ s with input := rest, sent := s.sent ++ [Code.c] }, true) := by
          simp [waitSender, readCode, putchar, hs, he]
        rw [hwait]
        exact ⟨[], congrArg (· :: rest) he, Nat.succ_pos n, List.not_mem_nil⟩
      · rw [waitSender_cons hs he] at h ⊢
        obtain ⟨noise, hnoise, hlen, hnot⟩ := ih h
        refine ⟨e :: noise, congrArg (e :: ·) hnoise, Nat.succ_lt_succ hlen, ?_⟩
        exact List.not_mem_cons_of_ne_of_not_mem (Ne.symm he) hnot

theorem waitSender_noise {noise rest : List (Option UInt8)} (hnot : some Code.soh ∉ noise)
    (hs : s.input = noise ++ some Code.soh :: rest) {n : ℕ} (hlen : noise.length < n) :
    (waitSender n s).2 = true ∧ (waitSender n s).1.input = rest := by
  induction noise generalizing s n with
  | nil =>
    obtain ⟨n, rfl⟩ := Nat.exists_eq_add_one_of_ne_zero hlen.ne'
    have hs : s.input = some Code.soh :: rest := hs
    simp [waitSender, readCode, putchar, hs]
  | cons e noise ih =>
    obtain ⟨n, rfl⟩ := Nat.exists_eq_add_one_of_ne_zero (Nat.ne_zero_of_lt hlen)
    rw [List.mem_cons, not_or] at hnot
    rw [waitSender_cons hs (Ne.symm hnot.1)]
    exact ih hnot.2 rfl (Nat.lt_of_succ_lt_succ hlen)

/-- What opens a session: packet 0, which comes while the receiver waits, and which `on_begin`
    accepts. -/
def Greeting (cb : Callbacks) (tmSec : ℕ) (greeting : List (Option UInt8)) : Prop :=
  ∃ noise, ∃ p : Packet, greeting = noise ++ p.encode ∧ noise.length < tmSec
    ∧ some Code.soh ∉ noise ∧ p.Header ∧ ∀ code ∈ cb.onBegin, code = Code.ack

theorem doHandshake_passed (tmSec : ℕ) (s : State) :
    (doHandshake cb tmSec s).1.passed = s.passed := by
  have hwait := waitSender_passed tmSec { s with stage := .establishing }
  unfold doHandshake
  split
  · rename_i s₁ heq
    rw [heq] at hwait
    exact hwait
  · rename_i s₁ heq
    rw [heq] at hwait
    have hheader := readHeader_passed s₁
    split <;> rename_i heq <;> rw [heq] at hheader <;> exact hheader.trans hwait

theorem doHandshake_ok (cb : Callbacks) (tmSec : ℕ) (s : State)
    (h : (doHandshake cb tmSec s).2 = .ok ()) :
    ∃ greeting, Greeting cb tmSec greeting
      ∧ s.input = greeting ++ (doHandshake cb tmSec s).1.input := by
  simp only [doHandshake] at h ⊢
  rcases hwait : waitSender tmSec { s with stage := .establishing } with ⟨s₁, found⟩
  rw [hwait] at h
  cases found with
  | false => cases h
  | true =>
    have hfound := waitSender_true (congrArg Prod.snd hwait)
    rw [hwait] at hfound
    obtain ⟨noise, hnoise, hlen, hnot⟩ := hfound
    rcases hheader : readHeader s₁ with ⟨s₂, res⟩
    simp only [hheader] at h ⊢
    cases res with
    | error e => cases h
    | ok =>
      obtain ⟨p, hp, hbody⟩ := readHeader_ok hheader
      have haccept : ∀ code ∈ cb.onBegin, code = Code.ack := by
        by_contra hrefuse
        push Not at hrefuse
        simp only [if_pos hrefuse] at h
        cases h
      refine ⟨noise ++ p.encode, ⟨noise, p, rfl, hlen, hnot, hp, haccept⟩, ?_⟩
      have hnoise : s.input = noise ++ some Code.soh :: s₁.input := hnoise
      rw [hnoise, hbody, ← hp.soh, List.append_assoc]
      rfl

theorem doHandshake_greeting {tmSec : ℕ} {greeting rest : List (Option UInt8)}
    (h : Greeting cb tmSec greeting) (hs : s.input = greeting ++ rest) :
    (doHandshake cb tmSec s).2 = .ok () ∧ (doHandshake cb tmSec s).1.input = rest := by
  obtain ⟨noise, p, rfl, hlen, hnot, hp, haccept⟩ := h
  have hline : s.input = noise ++ some Code.soh :: (p.body.map some ++ rest) := by
    rw [hs, ← hp.soh, List.append_assoc]
    rfl
  obtain ⟨hfound, hinput⟩ :=
    waitSender_noise (s := { s with stage := .establishing }) hnot hline hlen
  rcases hwait : waitSender tmSec { s with stage := .establishing } with ⟨s₁, found⟩
  rw [hwait] at hfound hinput
  obtain rfl : found = true := hfound
  have hrefuse : ¬∃ code ∈ cb.onBegin, code ≠ Code.ack := by
    push Not
    exact haccept
  simp only [doHandshake, hwait, readHeader_header hp hinput, if_neg hrefuse, and_self]

/-! ### A session -/

/-- What a receiver owes its user: each packet that reaches `on_data` has passed the checks, they come
    in the order of their numbers, beginning with 1, each as often as it has been sent, up to
    `RYM_CODE_EOT` if the session succeeds; and the buffer that is freed is the one that has been
    allocated. -/
structure Received (env : Env) (session : Session) : Prop where
  intact : ∀ p ∈ session.line.passed, p.Intact
  inOrder : ∀ k p, session.line.passed[k]? = some p → p.seq.toNat = (k + 1) % 256
  once : session.line.passed ≠ [] ∨ session.result = .ok () → env.callbacks.onData.isSome →
    ∃ greeting rest, Greeting env.callbacks env.tmSec greeting
      ∧ env.input = greeting ++ session.line.passed.flatMap Packet.encode ++ rest
      ∧ (session.result = .ok () → rest.head? = some (some Code.eot))
  buffer : session.freed = session.allocated

/-- The intact packets that follow the greeting, until `on_data` cancels, bear the numbers 1, 2, 3 and
    so on, and a device that does not open finds no buffer in the context. -/
structure WellSent (env : Env) (buf : Option ℕ) : Prop where
  numbered : env.opens → env.malloc.isSome → env.callbacks.onData.isSome → ∀ greeting ps rest,
    Greeting env.callbacks env.tmSec greeting →
    env.input = greeting ++ ps.flatMap Packet.encode ++ rest → (∀ p ∈ ps, p.Intact) →
    env.callbacks.Uncancelled 0 ps → ∀ k p, ps[k]? = some p → p.seq.toNat = (k + 1) % 256
  buffer : env.opens = false → buf = none

theorem doFin_passed (s : State) : (doFin s).1.passed = s.passed := by
  simp only [doFin]
  have hcode (s : State) : (readCode s).2.passed = s.passed := (readCode_cases s).1
  split
  · exact hcode _
  · split
    · exact (hcode _).trans (hcode _)
    · have hheader := readHeader_passed
        (readCode (putchar (putchar (readCode (putchar { s with stage := .finishing } Code.nak)).2
          Code.ack) Code.c)).2
      split <;> rename_i heq <;> rw [heq] at hheader <;>
        exact hheader.trans ((hcode _).trans (hcode _))

variable {env : Env}

/-- What a session passes to `on_data`. -/
theorem doRecv_passed (h : (doRecv env).1.passed ≠ [] ∨ (doRecv env).2 = .ok ()) :
    ∃ greeting ps rest, Greeting env.callbacks env.tmSec greeting
      ∧ env.input = greeting ++ ps.flatMap Packet.encode ++ rest ∧ (∀ p ∈ ps, p.Intact)
      ∧ env.callbacks.Uncancelled 0 ps ∧ (doRecv env).1.passed = env.callbacks.pass [] ps
      ∧ ((doRecv env).2 = .ok () → rest.head? = some (some Code.eot)) := by
  have hpassed : (doHandshake env.callbacks env.tmSec ⟨env.input, [], .none, []⟩).1.passed = [] :=
    doHandshake_passed _ _
  have hok := doHandshake_ok env.callbacks env.tmSec ⟨env.input, [], .none, []⟩
  unfold doRecv at h ⊢
  rcases hhand : doHandshake env.callbacks env.tmSec ⟨env.input, [], .none, []⟩ with ⟨s₁, res⟩
  rw [hhand] at hpassed hok
  simp only [hhand] at h ⊢
  cases res with
  | error e =>
    obtain h | h := h
    · exact absurd hpassed h
    · cases h
  | ok =>
    obtain ⟨greeting, hgreeting, hinput⟩ := hok rfl
    obtain ⟨ps, rest, hrest, hps, huncancelled, hpass, heot⟩ := doTrans_spec env.callbacks s₁
    have hpassed : s₁.passed = [] := hpassed
    have hinput : env.input = greeting ++ s₁.input := hinput
    rw [hpassed] at huncancelled hpass
    rw [hrest, ← List.append_assoc] at hinput
    refine ⟨greeting, ps, rest, hgreeting, hinput, hps, huncancelled, ?_⟩
    rcases htrans : doTrans env.callbacks s₁ with ⟨s₂, res⟩
    rw [htrans] at hpass heot
    simp only [htrans]
    cases res with
    | error e =>
      refine ⟨hpass, fun h => ?_⟩
      cases h
    | ok => exact ⟨(doFin_passed s₂).trans hpass, fun _ => heot rfl⟩

/-- Every intact packet that comes in its turn reaches `on_data`. -/
theorem prefix_doRecv (hdata : env.callbacks.onData.isSome) {greeting rest : List (Option UInt8)}
    {ps : List Packet} (hgreeting : Greeting env.callbacks env.tmSec greeting)
    (hinput : env.input = greeting ++ ps.flatMap Packet.encode ++ rest) (hps : ∀ p ∈ ps, p.Intact)
    (huncancelled : env.callbacks.Uncancelled 0 ps) : ps <+: (doRecv env).1.passed := by
  have hpassed : (doHandshake env.callbacks env.tmSec ⟨env.input, [], .none, []⟩).1.passed = [] :=
    doHandshake_passed _ _
  rw [List.append_assoc] at hinput
  obtain ⟨hok, hline⟩ := doHandshake_greeting (s := ⟨env.input, [], .none, []⟩) hgreeting hinput
  unfold doRecv
  rcases hhand : doHandshake env.callbacks env.tmSec ⟨env.input, [], .none, []⟩ with ⟨s₁, res⟩
  rw [hhand] at hpassed hok hline
  obtain rfl : res = .ok () := hok
  have hpassed : s₁.passed = [] := hpassed
  have hbegins := prefix_doTrans (s := s₁) hdata hline hps (by rwa [hpassed])
  rw [hpassed, List.nil_append] at hbegins
  rcases htrans : doTrans env.callbacks s₁ with ⟨s₂, res⟩
  rw [htrans] at hbegins
  simp only [htrans]
  cases res with
  | error e => exact hbegins
  | ok =>
    simp only [doFin_passed]
    exact hbegins

/-- A session that gets to receive. -/
theorem received_doRecv_iff (haddr : env.malloc.isSome) {addr : Option ℕ} {buf : Option ℕ}
    (hopens : env.opens = true) :
    Received env ⟨(doRecv env).2, (doRecv env).1, addr, addr, addr⟩ ↔ WellSent env buf := by
  constructor
  · intro h
    refine ⟨fun _ _ hdata greeting ps rest hgreeting hinput hps huncancelled k p hp => ?_, ?_⟩
    · obtain ⟨tail, htail⟩ := prefix_doRecv hdata hgreeting hinput hps huncancelled
      have hk : k < ps.length := (List.getElem?_eq_some_iff.1 hp).1
      refine h.inOrder k p ?_
      rw [← htail, List.getElem?_append_left hk, hp]
    · exact fun h => absurd h (by simp [hopens])
  · intro h
    by_cases hpassed : (doRecv env).1.passed ≠ [] ∨ (doRecv env).2 = .ok ()
    · obtain ⟨greeting, ps, rest, hgreeting, hinput, hps, huncancelled, hpass, heot⟩ :=
        doRecv_passed hpassed
      cases hdata : env.callbacks.onData.isSome with
      | false =>
        have hnone : (doRecv env).1.passed = [] := hpass.trans (if_neg (by simp [hdata]))
        constructor
        · simp [hnone]
        · simp [hnone]
        · simp [hdata]
        · rfl
      | true =>
        have hps' : (doRecv env).1.passed = ps := hpass.trans (if_pos hdata)
        constructor
        · simpa only [hps'] using hps
        · simp only [hps']
          exact h.numbered hopens haddr hdata greeting ps rest hgreeting hinput hps huncancelled
        · intro _ _
          simp only [hps']
          exact ⟨greeting, rest, hgreeting, hinput, heot⟩
        · rfl
    · obtain ⟨hnone, hres⟩ := not_or.1 hpassed
      rw [not_not] at hnone
      constructor
      · simp [hnone]
      · simp [hnone]
      · exact fun hpassed' => absurd hpassed' hpassed
      · rfl

/-- The receiver keeps to this as far as its sender numbers the packets one after the other: it does
    not look at the number of a block. -/
theorem received_iff (env : Env) (buf : Option ℕ) :
    Received env (recvOnDevice env buf) ↔ WellSent env buf := by
  unfold recvOnDevice
  cases hopens : env.opens with
  | false =>
    simp only [Bool.false_eq_true, if_false]
    refine ⟨fun h => ⟨fun h' => by simp [hopens] at h', fun _ => h.buffer⟩, fun h => ?_⟩
    constructor
    · simp
    · simp
    · simp
    · exact h.buffer hopens
  | true =>
    simp only [if_true]
    cases hmalloc : env.malloc with
    | none =>
      refine iff_of_true ?_ ⟨fun _ h' => by simp [hmalloc] at h', fun h' => by simp [hopens] at h'⟩
      constructor <;> simp
    | some addr => exact received_doRecv_iff (by simp [hmalloc]) hopens

/-- A packet of 128 bytes, all 0. -/
def zeroPacket (seq : UInt8) : Packet := ⟨Code.soh, seq, 255 - seq, List.replicate 128 0, 0, 0⟩

/-- A sender that has missed the answer to its first block sends it again. -/
def resent : Env where
  opens := true
  malloc := some 0x20000000
  callbacks := ⟨some Code.ack, some fun _ => Code.ack⟩
  tmSec := 60
  input := (zeroPacket 0).encode ++ (zeroPacket 1).encode ++ (zeroPacket 1).encode
    ++ [some Code.eot, some Code.eot] ++ (zeroPacket 0).encode

/-- The block reaches `on_data` twice, and the session succeeds. -/
theorem not_received_of_resent : ¬Received resent (recvOnDevice resent none) := by
  intro h
  have hsecond := h.inOrder 1 (zeroPacket 1) (by decide +kernel)
  revert hsecond
  decide

end EasyCore.Ymodem
