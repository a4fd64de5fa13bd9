import EasyCore.App.DownZone

/-! Programming an STM32 over its boot loader (`applications/isp_http_tcp.c`, `ISP_PROGRAM`): the file
    in the download zone goes out in blocks. A block that is not acknowledged is sent again.

        command ▶ address ▶ length, data, checksum ▶ command ▶ …
          ↺          │                │
          ▲──────────┴── no ACK ──────┘ -/

namespace EasyCore.IspProgram
open FlashOpt DownZone

def ackOk : UInt8 := 0x79
def flashBaseaddr : UInt32 := 0x8000000

/-- `WRITE_LEN` -/
def writeLen : UInt32 := 64 * 4 - 8

/-- The values of `isp_step` that the loop leaves behind. -/
inductive IspStep
  | program
  | programError
  | programDone
  deriving DecidableEq

/-- A block as it goes out; the target acknowledges it or not. -/
structure Block where
  address : UInt32
  datnum : UInt8
  data : List UInt8
  datXor : UInt8
  acked : Bool

/-- The address and its checksum. -/
def addressBytes (address : UInt32) : List UInt8 :=
  let adr0 := address.toUInt8
  let adr1 := (address >>> 8).toUInt8
  let adr2 := (address >>> 16).toUInt8
  let adr3 := (address >>> 24).toUInt8
  [adr3, adr2, adr1, adr0, adr3 ^^^ adr2 ^^^ adr1 ^^^ adr0]

/-- What is written to the target for a block. -/
def Block.writes (b : Block) : List UInt8 :=
  addressBytes b.address ++ b.datnum :: b.data ++ [b.datXor]

/-- The variables of the loop, and the blocks that have gone out. -/
structure Prog where
  ispStep : IspStep
  sendnum : UInt32
  pread : UInt32
  errorCnt : UInt8
  dat : UInt8
  blocks : List Block

/-- The first byte that comes back in a round for the command, the address and the data; 0 if nothing
    comes. -/
structure Replies where
  command : UInt8
  address : UInt8
  data : UInt8
  deriving DecidableEq

/-- The variables of the loop over the bytes of a block. -/
structure Sending where
  sendnum : UInt32
  pread : UInt32
  dat : UInt8
  datXor : UInt8
  data : List UInt8

/-- One byte; `Dat` stays if nothing is read. -/
def sendByte (m : Flash) (z : Zone) (t : Sending) : Sending :=
  let dat := ((getDownZoneBufferOffset m z t.pread 1).bind List.head?).getD t.dat
  { sendnum := t.sendnum + 1
    pread := t.pread + 1
    dat := dat
    datXor := t.datXor ^^^ dat
    data := t.data ++ [dat] }

def sendBytes (m : Flash) (z : Zone) : ℕ → Sending → Sending
  | 0, t => t
  | n + 1, t => sendBytes m z n (sendByte m z t)

/-- One more than this is the length of the next block. -/
def datnumOf (left : UInt32) : UInt8 :=
  if writeLen ≤ left then (writeLen - 1).toUInt8 else (left - 1).toUInt8

/-- The data of a block, from where the loop is. -/
def sendBlock (m : Flash) (z : Zone) (data : UInt8) (s : Prog) : Prog :=
  let datnum := datnumOf (z.downFileSize - s.sendnum)
  let t := sendBytes m z (datnum.toNat + 1) ⟨s.sendnum, s.pread, s.dat, datnum, []⟩
  let block : Block := ⟨flashBaseaddr + s.sendnum, datnum, t.data, t.datXor, data = ackOk⟩
  if data = ackOk then
    { s with sendnum := t.sendnum, pread := t.pread, dat := t.dat, blocks := s.blocks ++ [block] }
  else
    { s with
      sendnum := t.sendnum - datnum.toUInt32 - 1
      pread := t.pread - datnum.toUInt32 - 1
      dat := t.dat
      errorCnt := s.errorCnt + 1
      blocks := s.blocks ++ [block] }

/-- A round of the loop; it has ended when the step is `programDone`. -/
def programRound (m : Flash) (z : Zone) (s : Prog) (r : Replies) : Prog :=
  if s.ispStep = .programDone then s
  else
    let s := if 10 ≤ s.errorCnt then { s with ispStep := .programError } else s
    if r.command ≠ ackOk then { s with errorCnt := s.errorCnt + 1 }
    else if s.sendnum = z.downFileSize then { s with ispStep := .programDone }
    else if r.address ≠ ackOk then { s with errorCnt := s.errorCnt + 1 }
    else sendBlock m z r.data s

/-- Before the first round; `Dat` has not been set. -/
def startProgram (dat : UInt8) : Prog := ⟨.program, 0, 0, 0, dat, []⟩

/-- The loop, for what the target replies. -/
def program (m : Flash) (dat : UInt8) (replies : List Replies) : Prog :=
  replies.foldl (programRound m (startGetDownZoneSpiflash m)) (startProgram dat)

/-- The blocks that have been acknowledged. -/
def Prog.acked (s : Prog) : List Block := s.blocks.filter (·.acked)

/-- A block carries the bytes of the file at the offset of its address. -/
def InPlace (m : Flash) (b : Block) : Prop :=
  ∃ offset : ℕ, b.address = flashBaseaddr + UInt32.ofNat offset ∧ b.data ≠ [] ∧
    b.data <+: (file m).drop offset

/-- Each block begins where the ones before it end. -/
def NoGap (blocks : List Block) : Prop :=
  ∀ pre b post, blocks = pre ++ b :: post →
    b.address = flashBaseaddr + UInt32.ofNat (pre.flatMap Block.data).length

/-! ### A block -/

/-- The bytes of a block are those of the file. -/
theorem sendBytes_spec {m : Flash} {z : Zone} (hz : z = startGetDownZoneSpiflash m) : ∀ (n : ℕ)
    {t : Sending}, t.pread = t.sendnum → t.sendnum.toNat + n ≤ z.downFileSize.toNat →
    let t' := sendBytes m z n t
    t'.data = t.data ++ ((file m).drop t.sendnum.toNat).take n ∧ t'.pread = t'.sendnum ∧
      t'.sendnum = t.sendnum + UInt32.ofNat n
  | 0, t, hpread, _ => by simp [sendBytes, hpread]
  | n + 1, t, hpread, hn => by
    have hsize : z.downFileSize.toNat < 524284 := hz ▸ startGetDownZoneSpiflash_size m
    have hlt : t.pread < z.downFileSize := by
      rw [UInt32.lt_iff_toNat_lt, hpread]
      omega
    have hnext : (t.sendnum + 1).toNat = t.sendnum.toNat + 1 := by
      rw [UInt32.toNat_add]
      exact Nat.mod_eq_of_lt (by simp; omega)
    obtain ⟨hdata, heq, hsend⟩ := sendBytes_spec hz n (t := sendByte m z t)
      (by simp [sendByte, hpread]) (by simp only [sendByte, hnext]; omega)
    have hbyte : (sendByte m z t).data = t.data ++ [m (4 + t.sendnum.toNat)] := by
      have hget := getDownZoneBufferOffset_byte m hsize hlt
      rw [hpread] at hget
      simp [sendByte, hpread, hget]
    have hdrop : (file m).drop t.sendnum.toNat =
        m (4 + t.sendnum.toNat) :: (file m).drop (t.sendnum.toNat + 1) := by
      have hlen : t.sendnum.toNat < (file m).length := by
        rw [file, bytesAt_length, ← hz]
        omega
      rw [List.drop_eq_getElem_cons hlen]
      simp [file, bytesAt]
    refine ⟨?_, heq, ?_⟩
    · simp only [sendBytes]
      rw [hdata, hbyte, hdrop, List.take_succ_cons, List.append_assoc]
      simp only [sendByte, hnext]
      rfl
    · simp only [sendBytes]
      rw [hsend]
      apply UInt32.toNat_inj.1
      simp only [sendByte, UInt32.toNat_add, UInt32.toNat_ofNat', UInt32.reduceToNat]
      omega

/-- The next block is the rest of the file, or its next 248 bytes. -/
theorem datnumOf_eq {left : UInt32} (h : left ≠ 0) :
    (datnumOf left).toNat + 1 = min 248 left.toNat := by
  have hpos : left.toNat ≠ 0 := fun h0 => h (UInt32.toNat_inj.1 h0)
  simp only [datnumOf]
  split
  · next hle =>
    have hle : 248 ≤ left.toNat := UInt32.le_iff_toNat_le.1 hle
    have hmax : ((writeLen - 1).toUInt8).toNat = 247 := by decide
    omega
  · next hlt =>
    have hlt : left.toNat < 248 := UInt32.lt_iff_toNat_lt.1 (UInt32.not_le.1 hlt)
    have hone : (left - 1).toNat = left.toNat - 1 :=
      UInt32.toNat_sub_of_le _ _ (UInt32.le_iff_toNat_le.2 (by simp; omega))
    rw [UInt32.toNat_toUInt8, hone]
    omega

/-- What holds between the rounds: both counters are the length of what has been acknowledged. -/
structure Inv (m : Flash) (s : Prog) : Prop where
  pread : s.pread = s.sendnum
  sendnum : s.sendnum.toNat = (s.acked.flatMap Block.data).length
  acked : s.acked.flatMap Block.data <+: file m
  noGap : NoGap s.acked
  inPlace : ∀ b ∈ s.blocks, InPlace m b
  done : s.ispStep = .programDone → s.acked.flatMap Block.data = file m

theorem file_length (m : Flash) :
    (file m).length = (startGetDownZoneSpiflash m).downFileSize.toNat := by
  rw [file, bytesAt_length]

/-- A new block at the end closes up, if it begins where the others end. -/
theorem NoGap.concat {blocks : List Block} (h : NoGap blocks) {b : Block}
    (hb : b.address = flashBaseaddr + UInt32.ofNat (blocks.flatMap Block.data).length) :
    NoGap (blocks ++ [b]) := by
  intro pre c post heq
  rcases List.eq_nil_or_concat post with rfl | ⟨post, d, rfl⟩
  · obtain ⟨rfl, rfl⟩ := List.append_inj' heq rfl |>.imp_right List.singleton_inj.1
    exact hb
  · rw [List.concat_eq_append, ← List.cons_append, ← List.append_assoc] at heq
    exact h pre c post (List.append_inj' heq rfl).1

/-- A block keeps the invariant, whatever the target replies. -/
theorem Inv.sendBlock {m : Flash} {s : Prog} (h : Inv m s) (data : UInt8)
    (hstep : s.ispStep ≠ .programDone)
    (hmore : s.sendnum ≠ (startGetDownZoneSpiflash m).downFileSize) :
    Inv m (sendBlock m (startGetDownZoneSpiflash m) data s) := by
  generalize hzone : startGetDownZoneSpiflash m = z at hmore ⊢
  have hle : s.sendnum.toNat ≤ z.downFileSize.toNat := by
    rw [h.sendnum, ← hzone, ← file_length]
    exact h.acked.length_le
  have hleft : (z.downFileSize - s.sendnum).toNat = z.downFileSize.toNat - s.sendnum.toNat :=
    UInt32.toNat_sub_of_le _ _ (UInt32.le_iff_toNat_le.2 hle)
  have hne : z.downFileSize - s.sendnum ≠ 0 := by
    intro h0
    refine hmore (UInt32.toNat_inj.1 ?_)
    have h0 : (z.downFileSize - s.sendnum).toNat = 0 := by rw [h0]; rfl
    omega
  have hdatnum := (datnumOf_eq hne).le.trans (min_le_right _ _)
  obtain ⟨hdata, hpread, hsendnum⟩ := sendBytes_spec hzone.symm
    ((datnumOf (z.downFileSize - s.sendnum)).toNat + 1)
    (t := ⟨s.sendnum, s.pread, s.dat, datnumOf (z.downFileSize - s.sendnum), []⟩) h.pread
    (by dsimp only; omega)
  simp only [IspProgram.sendBlock]
  generalize datnumOf (z.downFileSize - s.sendnum) = datnum at hdatnum hdata hpread hsendnum ⊢
  generalize sendBytes m z (datnum.toNat + 1) _ = t at hdata hpread hsendnum ⊢
  dsimp only at hdata hsendnum
  rw [List.nil_append] at hdata
  have hlen : t.data.length = datnum.toNat + 1 := by
    rw [hdata, List.length_take, List.length_drop, file_length, hzone]
    omega
  have hin : InPlace m ⟨flashBaseaddr + s.sendnum, datnum, t.data, t.datXor, data = ackOk⟩ := by
    refine ⟨s.sendnum.toNat, by rw [UInt32.ofNat_toNat], ?_, ?_⟩
    · rintro (hnil : t.data = [])
      rw [hnil] at hlen
      cases hlen
    · change t.data <+: _
      rw [hdata]
      exact List.take_prefix ..
  have hall : ∀ b ∈ s.blocks ++ [⟨flashBaseaddr + s.sendnum, datnum, t.data, t.datXor,
      data = ackOk⟩], InPlace m b := by
    intro b hb
    rcases List.mem_append.1 hb with hb | hb
    · exact h.inPlace b hb
    · rw [List.mem_singleton.1 hb]
      exact hin
  split
  · next hack =>
    have hacked : (s.blocks ++ [⟨flashBaseaddr + s.sendnum, datnum, t.data, t.datXor,
        data = ackOk⟩] : List Block).filter (·.acked) = s.acked ++
          [⟨flashBaseaddr + s.sendnum, datnum, t.data, t.datXor, data = ackOk⟩] := by
      rw [List.filter_append, Prog.acked]
      simp [hack]
    have htake : s.acked.flatMap Block.data = (file m).take s.sendnum.toNat := by
      rw [h.sendnum]
      exact List.prefix_iff_eq_take.1 h.acked
    refine ⟨hpread, ?_, ?_, ?_, hall, fun hdone => absurd hdone hstep⟩
    · change t.sendnum.toNat = (List.flatMap Block.data (List.filter _ _)).length
      rw [hacked, List.flatMap_append, List.length_append, ← h.sendnum, hsendnum,
        List.flatMap_singleton, hlen, UInt32.toNat_add, UInt32.toNat_ofNat']
      have hsize := startGetDownZoneSpiflash_size m
      rw [hzone] at hsize
      omega
    · change List.flatMap Block.data (List.filter _ _) <+: _
      rw [hacked, List.flatMap_append, List.flatMap_singleton, htake, hdata, ← List.take_add]
      exact List.take_prefix ..
    · change NoGap (List.filter _ _)
      rw [hacked]
      refine h.noGap.concat ?_
      rw [← h.sendnum, UInt32.ofNat_toNat]
  · next hack =>
    have hacked : (s.blocks ++ [⟨flashBaseaddr + s.sendnum, datnum, t.data, t.datXor,
        data = ackOk⟩] : List Block).filter (·.acked) = s.acked := by
      rw [List.filter_append, Prog.acked]
      simp [hack]
    have hback : t.sendnum - datnum.toUInt32 - 1 = s.sendnum := by
      rw [hsendnum]
      apply UInt32.toNat_inj.1
      simp only [UInt32.toNat_sub, UInt32.toNat_add, UInt32.toNat_ofNat', UInt32.reduceToNat,
        UInt8.toNat_toUInt32]
      have hs := s.sendnum.toNat_lt
      have hd := datnum.toNat_lt
      omega
    refine ⟨?_, ?_, ?_, ?_, hall, fun hdone => absurd hdone hstep⟩
    · change t.pread - datnum.toUInt32 - 1 = t.sendnum - datnum.toUInt32 - 1
      rw [hpread]
    · change (t.sendnum - datnum.toUInt32 - 1).toNat = (List.flatMap _ (List.filter _ _)).length
      rw [hacked, hback, h.sendnum]
    · change List.flatMap Block.data (List.filter _ _) <+: _
      rw [hacked]
      exact h.acked
    · change NoGap (List.filter _ _)
      rw [hacked]
      exact h.noGap

/-- A round keeps the invariant. -/
theorem Inv.round {m : Flash} {s : Prog} (h : Inv m s) (r : Replies) :
    Inv m (programRound m (startGetDownZoneSpiflash m) s r) := by
  simp only [programRound]
  split
  · exact h
  next hstep =>
  have hstart : Inv m (if 10 ≤ s.errorCnt then { s with ispStep := .programError } else s) ∧
      (if 10 ≤ s.errorCnt then { s with ispStep := .programError } else s).ispStep ≠
        .programDone := by
    split
    · exact ⟨⟨h.pread, h.sendnum, h.acked, h.noGap, h.inPlace, fun hdone => by cases hdone⟩,
        by simp⟩
    · exact ⟨h, hstep⟩
  generalize (if 10 ≤ s.errorCnt then _ else _ : Prog) = t at hstart ⊢
  obtain ⟨ht, hstep⟩ := hstart
  have hcount : Inv m { t with errorCnt := t.errorCnt + 1 } :=
    ⟨ht.pread, ht.sendnum, ht.acked, ht.noGap, ht.inPlace, ht.done⟩
  split
  · exact hcount
  split
  · next hend =>
    refine ⟨ht.pread, ht.sendnum, ht.acked, ht.noGap, ht.inPlace, fun _ => ?_⟩
    refine ht.acked.eq_of_length ?_
    rw [file_length, ← hend]
    exact ht.sendnum.symm
  · next hmore =>
    split
    · exact hcount
    · exact ht.sendBlock r.data hstep hmore

theorem inv_program (m : Flash) (dat : UInt8) (replies : List Replies) :
    Inv m (program m dat replies) := by
  have hrun : ∀ (replies : List Replies) {s : Prog}, Inv m s →
      Inv m (replies.foldl (programRound m (startGetDownZoneSpiflash m)) s) := by
    intro replies
    induction replies with
    | nil => intro s h; exact h
    | cons r replies ih => intro s h; exact ih (h.round r)
  refine hrun replies ⟨rfl, rfl, List.nil_prefix, ?_, ?_, fun hdone => by cases hdone⟩
  · intro pre b post heq
    cases pre <;> cases heq
  · intro b hb
    cases hb

/-- Without an acknowledged block a round leaves what has been acknowledged. -/
theorem programRound_acked {m : Flash} {z : Zone} (s : Prog) {r : Replies}
    (h : ¬(r.command = ackOk ∧ r.address = ackOk ∧ r.data = ackOk)) :
    (programRound m z s r).acked = s.acked := by
  have hstart : (if 10 ≤ s.errorCnt then { s with ispStep := .programError } else s).acked =
      s.acked := by
    split <;> rfl
  simp only [programRound]
  split
  · rfl
  generalize (if 10 ≤ s.errorCnt then _ else _ : Prog) = t at hstart ⊢
  rw [← hstart]
  split
  · rfl
  next hcommand =>
  split
  · rfl
  split
  · rfl
  next haddress =>
  have hdata : r.data ≠ ackOk := fun hd => h ⟨not_not.1 hcommand, not_not.1 haddress, hd⟩
  simp only [sendBlock, if_neg hdata, Prog.acked, List.filter_append]
  simp [hdata]

/-- For every file and everything that the target may reply: blocks carry the bytes of the file at
    the offset of their address, those that are acknowledged follow one another from the start of the
    file, no others change that, and the loop is done only when they are all of the file. -/
theorem program_file (m : Flash) (dat : UInt8) (replies : List Replies) :
    let s := program m dat replies
    (∀ b ∈ s.blocks, InPlace m b) ∧
      NoGap s.acked ∧ s.acked.flatMap Block.data <+: file m ∧
      (∀ r, ¬(r.command = ackOk ∧ r.address = ackOk ∧ r.data = ackOk) →
        (program m dat (replies ++ [r])).acked = s.acked) ∧
      (s.ispStep = .programDone → s.acked.flatMap Block.data = file m) := by
  have h := inv_program m dat replies
  refine ⟨h.inPlace, h.noGap, h.acked, fun r hr => ?_, h.done⟩
  rw [program, List.foldl_append]
  exact programRound_acked _ hr

end EasyCore.IspProgram
