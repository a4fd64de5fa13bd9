import EasyCore.App.IspProgram
import EasyCore.Lib.Loop

/-! The error budget of the loop that programs an STM32 (`ISP_PROGRAM`): `error_cnt` is compared with
    ten, but then only `isp_step` is set, and the loop goes on.

        for(;;) ▶ error_cnt ≥ 10 ? isp_step = ISP_PROGRAM_ERROR
                ▶ an exchange without ACK ? error_cnt++, continue
                ▶ all sent ? isp_step = ISP_PROGRAM_DONE, break

    The file has been sent after one full round for each block of it, and one command more. -/

namespace EasyCore.IspBudget
open FlashOpt DownZone IspProgram

/-! ### The loop, for an endless sequence of answers -/

/-- A round: the `break` is the only way out. -/
def round (m : Flash) (z : Zone) (s : Prog) (r : Replies) : Loop Prog :=
  let s := if 10 ≤ s.errorCnt then { s with ispStep := .programError } else s
  if r.command ≠ ackOk then .running { s with errorCnt := s.errorCnt + 1 }
  else if s.sendnum = z.downFileSize then .left { s with ispStep := .programDone }
  else if r.address ≠ ackOk then .running { s with errorCnt := s.errorCnt + 1 }
  else .running (sendBlock m z r.data s)

def prog : Loop Prog → Prog
  | .running s => s
  | .left s => s

/-- The loop is left when it is done, and only then. -/
def Ok : Loop Prog → Prop
  | .running s => s.ispStep ≠ .programDone
  | .left s => s.ispStep = .programDone

variable (m : Flash) (dat : UInt8) (answers : ℕ → Replies)

/-- After some rounds. -/
def loopAfter : ℕ → Loop Prog :=
  Loop.after (round m (startGetDownZoneSpiflash m)) (startProgram dat) answers

/-- A round has an exchange that is not acknowledged. -/
def unsuccessful (z : Zone) (r : Replies) : Loop Prog → Bool
  | .left _ => false
  | .running s =>
    r.command ≠ ackOk || s.sendnum ≠ z.downFileSize && (r.address ≠ ackOk || r.data ≠ ackOk)

/-- The unsuccessful exchanges of some rounds; a round has one at most. -/
def failures : ℕ → ℕ
  | 0 => 0
  | n + 1 => failures n +
      (unsuccessful (startGetDownZoneSpiflash m) (answers n) (loopAfter m dat answers n)).toNat

/-- There are ten unsuccessful exchanges at most; behind the tenth the loop is left with an error, and
    it is never done then. -/
structure Budget : Prop where
  atMost : ∀ n, failures m dat answers n ≤ 10
  leaves : ∀ n, failures m dat answers n = 10 →
    ∃ k s, loopAfter m dat answers k = .left s ∧ s.ispStep = .programError
  notDone : ∀ n, 10 ≤ failures m dat answers n →
    ∀ k s, loopAfter m dat answers k = .left s → s.ispStep ≠ .programDone

/-! ### What the answers say -/

def fullAck (r : Replies) : Bool := r.command = ackOk && r.address = ackOk && r.data = ackOk

/-- The rounds among the first `n` in which every answer is an ACK. -/
def fullRounds : ℕ → ℕ
  | 0 => 0
  | n + 1 => fullRounds n + (fullAck (answers n)).toNat

/-- The blocks of the file. -/
def blockCount : ℕ := ((startGetDownZoneSpiflash m).downFileSize.toNat + 247) / 248

/-- Enough full rounds, and then a command with an ACK. -/
def Finishes (n : ℕ) : Prop := blockCount m ≤ fullRounds answers n ∧ (answers n).command = ackOk

theorem sendBytes_sendnum (z : Zone) : ∀ (n : ℕ) (t : Sending),
    (sendBytes m z n t).sendnum = t.sendnum + UInt32.ofNat n
  | 0, t => by simp [sendBytes]
  | n + 1, t => by
    rw [sendBytes, sendBytes_sendnum z n, sendByte]
    apply UInt32.toNat_inj.1
    simp only [UInt32.toNat_add, UInt32.toNat_ofNat', UInt32.reduceToNat]
    omega

/-- A block goes on by its length, when it is acknowledged. -/
theorem sendBlock_sendnum (z : Zone) (data : UInt8) (s : Prog)
    (hle : s.sendnum.toNat < z.downFileSize.toNat) :
    (sendBlock m z data s).sendnum.toNat =
      if data = ackOk then min (s.sendnum.toNat + 248) z.downFileSize.toNat
      else s.sendnum.toNat := by
  have hleft : (z.downFileSize - s.sendnum).toNat = z.downFileSize.toNat - s.sendnum.toNat :=
    UInt32.toNat_sub_of_le _ _ (UInt32.le_iff_toNat_le.2 hle.le)
  have hne : z.downFileSize - s.sendnum ≠ 0 := by
    intro h0
    rw [h0] at hleft
    simp only [UInt32.reduceToNat] at hleft
    omega
  have hdatnum := datnumOf_eq hne
  have hmax := z.downFileSize.toNat_lt
  simp only [sendBlock, sendBytes_sendnum]
  generalize datnumOf (z.downFileSize - s.sendnum) = datnum at hdatnum ⊢
  split
  · simp only [UInt32.toNat_add, UInt32.toNat_ofNat']
    omega
  · have hd := datnum.toNat_lt
    simp only [UInt32.toNat_sub, UInt32.toNat_add, UInt32.toNat_ofNat', UInt32.reduceToNat,
      UInt8.toNat_toUInt32]
    omega

theorem sendBlock_ispStep (z : Zone) (data : UInt8) (s : Prog) :
    (sendBlock m z data s).ispStep = s.ispStep := by
  simp only [sendBlock]
  split <;> rfl

/-! ### A round -/

/-- A round is the round of the program, and the loop is left when that is done. -/
theorem round_prog (z : Zone) {s : Prog} (r : Replies) (hs : s.ispStep ≠ .programDone) :
    prog (round m z s r) = programRound m z s r ∧ Ok (round m z s r) := by
  have hstart : (if 10 ≤ s.errorCnt then { s with ispStep := .programError } else s).ispStep ≠
      .programDone := by
    split
    · exact IspStep.noConfusion
    · exact hs
  simp only [round, programRound, if_neg hs]
  generalize (if 10 ≤ s.errorCnt then _ else _ : Prog) = t at hstart ⊢
  split
  · exact ⟨rfl, hstart⟩
  split
  · exact ⟨rfl, rfl⟩
  split
  · exact ⟨rfl, hstart⟩
  · exact ⟨rfl, by rwa [Ok, sendBlock_ispStep]⟩

theorem loopAfter_prog (n : ℕ) :
    prog (loopAfter m dat answers n) = program m dat ((List.range n).map answers) ∧
      Ok (loopAfter m dat answers n) := by
  have hnext (n : ℕ) : IspProgram.program m dat ((List.range (n + 1)).map answers) =
      programRound m (startGetDownZoneSpiflash m)
        (IspProgram.program m dat ((List.range n).map answers)) (answers n) := by
    rw [IspProgram.program, List.range_succ, List.map_append, List.foldl_append]
    rfl
  refine Loop.after_invariant (I := fun n l =>
    prog l = IspProgram.program m dat ((List.range n).map answers) ∧ Ok l)
    ⟨rfl, IspStep.noConfusion⟩ ?_ ?_ n
  · rintro n s ⟨hprog, hok⟩
    rw [hnext, ← hprog]
    exact round_prog m _ (answers n) hok
  · rintro n s ⟨hprog, hok⟩
    rw [hnext, ← hprog]
    exact ⟨(if_pos hok).symm, hok⟩

/-- What has been sent after some full rounds. -/
def sent (size full : ℕ) : ℕ := min (248 * full) size

/-- While the loop goes on, each round is a full one or has a failure, and the full ones have sent a
    block each. When it has been left, that was in the round after the last block. -/
def Counted (n : ℕ) : Loop Prog → Prop
  | .running s => n = fullRounds answers n + failures m dat answers n ∧
      fullRounds answers n ≤ blockCount m ∧
      s.sendnum.toNat =
        sent (startGetDownZoneSpiflash m).downFileSize.toNat (fullRounds answers n) ∧
      ∀ i < n, ¬ Finishes m answers i
  | .left _ => ∃ i < n, Finishes m answers i ∧ i = blockCount m + failures m dat answers n ∧
      ∀ j < i, ¬ Finishes m answers j

/-- What a round does: it has a failure, or the loop is left, or a block is sent. -/
theorem round_cases (z : Zone) (s : Prog) (r : Replies)
    (hle : s.sendnum.toNat ≤ z.downFileSize.toNat) :
    (∃ s', round m z s r = .running s' ∧ unsuccessful z r (.running s) = true ∧
      fullAck r = false ∧ ¬(s.sendnum = z.downFileSize ∧ r.command = ackOk) ∧
      s'.sendnum = s.sendnum) ∨
    (∃ s', round m z s r = .left s' ∧ unsuccessful z r (.running s) = false ∧
      s.sendnum = z.downFileSize ∧ r.command = ackOk) ∨
    (∃ s', round m z s r = .running s' ∧ unsuccessful z r (.running s) = false ∧
      fullAck r = true ∧ s.sendnum.toNat < z.downFileSize.toNat ∧
      s'.sendnum.toNat = min (s.sendnum.toNat + 248) z.downFileSize.toNat) := by
  have hstart : (if 10 ≤ s.errorCnt then { s with ispStep := .programError } else s).sendnum =
      s.sendnum := by
    split <;> rfl
  simp only [round]
  generalize (if 10 ≤ s.errorCnt then _ else _ : Prog) = t at hstart ⊢
  split
  · next hcommand =>
    exact .inl ⟨_, rfl, by simp [unsuccessful, hcommand], by simp [fullAck, hcommand],
      fun h => hcommand h.2, hstart⟩
  next hcommand =>
  have hcommand : r.command = ackOk := not_not.1 hcommand
  split
  · next hend =>
    rw [hstart] at hend
    exact .inr (.inl ⟨_, rfl, by simp [unsuccessful, hcommand, hend], hend, hcommand⟩)
  next hmore =>
  rw [hstart] at hmore
  have hlt : s.sendnum.toNat < z.downFileSize.toNat :=
    lt_of_le_of_ne hle fun h => hmore (UInt32.toNat_inj.1 h)
  split
  · next haddress =>
    exact .inl ⟨_, rfl, by simp [unsuccessful, hcommand, hmore, haddress],
      by simp [fullAck, haddress], fun h => hmore h.1, hstart⟩
  next haddress =>
  have haddress : r.address = ackOk := not_not.1 haddress
  have hblock := sendBlock_sendnum m z r.data t (by rwa [hstart])
  rw [hstart] at hblock
  rcases eq_or_ne r.data ackOk with hdata | hdata
  · rw [if_pos hdata] at hblock
    exact .inr (.inr ⟨_, rfl, by simp [unsuccessful, hcommand, haddress, hdata],
      by simp [fullAck, hcommand, haddress, hdata], hlt, hblock⟩)
  · rw [if_neg hdata] at hblock
    exact .inl ⟨_, rfl, by simp [unsuccessful, hcommand, hmore, hdata],
      by simp [fullAck, hdata], fun h => hmore h.1, UInt32.toNat_inj.1 hblock⟩

theorem counted_succ (n : ℕ) (h : Counted m dat answers n (loopAfter m dat answers n)) :
    Counted m dat answers (n + 1) (loopAfter m dat answers (n + 1)) := by
  have hfail : failures m dat answers (n + 1) = failures m dat answers n +
    (unsuccessful (startGetDownZoneSpiflash m) (answers n) (loopAfter m dat answers n)).toNat := rfl
  have hfull : fullRounds answers (n + 1) = fullRounds answers n + (fullAck (answers n)).toNat := rfl
  have hblocks : blockCount m = ((startGetDownZoneSpiflash m).downFileSize.toNat + 247) / 248 := rfl
  cases hloop : loopAfter m dat answers n with
  | left s =>
    have hnext : loopAfter m dat answers (n + 1) = .left s := Loop.after_left hloop (Nat.le_succ n)
    rw [hloop] at h hfail
    rw [hnext]
    obtain ⟨i, hi, hfin, hcount, hfirst⟩ := h
    refine ⟨i, by omega, hfin, ?_, hfirst⟩
    rw [hcount, hfail]
    rfl
  | running s =>
    have hnext : loopAfter m dat answers (n + 1) =
      round m (startGetDownZoneSpiflash m) s (answers n) := Loop.after_running hloop
    rw [hloop] at h hfail
    rw [hnext]
    obtain ⟨hn, hp, hsent, hnot⟩ := h
    rw [sent] at hsent
    obtain ⟨s', hround, hun, hack, hmore, hsame⟩ | ⟨s', hround, hun, hend, hcommand⟩ |
        ⟨s', hround, hun, hack, hlt, hmin⟩ :=
      round_cases m (startGetDownZoneSpiflash m) s (answers n) (by rw [hsent]; exact min_le_right ..)
    · rw [hun, Bool.toNat_true] at hfail
      rw [hack, Bool.toNat_false] at hfull
      rw [hround]
      refine ⟨by omega, by omega, by rw [hsame, hsent, hfull]; rfl, ?_⟩
      intro i hi hfin
      rcases Nat.lt_succ_iff_lt_or_eq.1 hi with hi | rfl
      · exact hnot i hi hfin
      · refine hmore ⟨UInt32.toNat_inj.1 ?_, hfin.2⟩
        have hK := hfin.1
        omega
    · rw [hun, Bool.toNat_false] at hfail
      rw [hround]
      rw [hend] at hsent
      exact ⟨n, by omega, ⟨by omega, hcommand⟩, by omega, hnot⟩
    · rw [hun, Bool.toNat_false] at hfail
      rw [hack, Bool.toNat_true] at hfull
      rw [hround]
      refine ⟨by omega, by omega, ?_, ?_⟩
      · rw [hmin, hsent, hfull, sent]
        omega
      · intro i hi hfin
        rcases Nat.lt_succ_iff_lt_or_eq.1 hi with hi | rfl
        · exact hnot i hi hfin
        · have hK := hfin.1
          omega

theorem counted (n : ℕ) : Counted m dat answers n (loopAfter m dat answers n) := by
  induction n with
  | zero =>
    exact ⟨rfl, Nat.zero_le _, (Nat.zero_min _).symm, fun i hi => absurd hi (Nat.not_lt_zero i)⟩
  | succ n ih => exact counted_succ m dat answers n ih

theorem failures_mono : Monotone (failures m dat answers) :=
  monotone_nat_of_le_succ fun _ => Nat.le_add_right _ _

/-! ### The budget -/

/-- Ten failures before the file has been sent: the loop goes on, or it is done later. -/
theorem not_budget (h : ∀ n < blockCount m + 10, ¬ Finishes m answers n) :
    ¬ Budget m dat answers := by
  intro hbudget
  have hcount := counted m dat answers (blockCount m + 10)
  cases hloop : loopAfter m dat answers (blockCount m + 10) with
  | left s =>
    rw [hloop] at hcount
    obtain ⟨i, hi, hfin, -⟩ := hcount
    exact h i hi hfin
  | running s =>
    rw [hloop] at hcount
    obtain ⟨hn, hp, -, -⟩ := hcount
    have hmost := hbudget.atMost (blockCount m + 10)
    obtain ⟨k, t, hleft, herror⟩ := hbudget.leaves (blockCount m + 10) (by omega)
    have hok := (loopAfter_prog m dat answers k).2
    rw [hleft] at hok
    exact absurd (herror.symm.trans hok) IspStep.noConfusion

/-- The loop keeps its budget exactly when the file has been sent, and one command more has been
    acknowledged, before there are ten unsuccessful exchanges. -/
theorem budget_iff :
    Budget m dat answers ↔ ∃ n < blockCount m + 10, Finishes m answers n := by
  constructor
  · intro h
    by_contra hnone
    push Not at hnone
    exact not_budget m dat answers hnone h
  · rintro ⟨n, hn, hfin⟩
    have hfew : ∀ k, failures m dat answers k < 10 := by
      intro k
      have hcount := counted m dat answers (max k (n + 1))
      cases hloop : loopAfter m dat answers (max k (n + 1)) with
      | running s =>
        rw [hloop] at hcount
        exact absurd hfin (hcount.2.2.2 n (by omega))
      | left s =>
        rw [hloop] at hcount
        obtain ⟨i, -, -, hi, hfirst⟩ := hcount
        have hle : i ≤ n := Nat.not_lt.1 fun hlt => hfirst n hlt hfin
        have hmono := failures_mono m dat answers (le_max_left k (n + 1))
        omega
    exact ⟨fun k => (hfew k).le, fun k hk => absurd hk (hfew k).ne,
      fun k hk => absurd (hfew k) (Nat.not_lt.2 hk)⟩

/-- No file, and a target that is silent ten times, and then answers. -/
def late (n : ℕ) : Replies := if n < 10 then ⟨0, 0, 0⟩ else ⟨ackOk, ackOk, ackOk⟩

/-- After ten failures the loop is done all the same. -/
theorem not_budget_late : ¬ Budget (fun _ => 0) 0 late := by
  intro h
  have hfail : failures (fun _ => 0) 0 late 10 = 10 := by decide +kernel
  have hdone : ∃ s, loopAfter (fun _ => 0) 0 late 11 = .left s := by
    exact ⟨prog (loopAfter (fun _ => 0) 0 late 11), rfl⟩
  obtain ⟨s, hs⟩ := hdone
  have hok := (loopAfter_prog (fun _ => 0) 0 late 11).2
  rw [hs] at hok
  exact h.notDone 10 hfail.ge 11 s hs hok

end EasyCore.IspBudget
