import EasyCore.App.IspHttp
import EasyCore.App.DownZone

/-! A download on its way from the HTTP client to the download zone, and back from there: `recv` hands
    the length and the body to the sector buffer, and the readers of the zone look at both. -/

namespace EasyCore.Download
open IspHttp DownZone FlashOpt

/-- What the client does to the SPI flash. -/
def store (w : W25x) : Effect → W25x
  | .request => w
  | .flash data => appendW25xAppendBuffer w data
  | .flashEnd => w25xAppendEnd w

/-- The client and the flash. For the statements below, `received` is the body as far as it has
    come. -/
structure Transfer where
  http : Http
  w : W25x
  received : List UInt8

/-- The part of a segment that belongs to the body. -/
def bodyOf (s : Http) (buf : List UInt8) : List UInt8 :=
  match s.status with
  | .started => ((strstr [13, 10, 13, 10] buf).map fun p => buf.drop (p + 4)).getD []
  | .downloading => buf
  | _ => []

/-- A segment comes, at a time. -/
def receive (d : Transfer) (segment : UInt32 × List UInt8) : Transfer :=
  let r := recv segment.1 segment.2 d.http
  ⟨r.1, r.2.foldl store d.w, d.received ++ bodyOf d.http segment.2⟩

/-- The connection for a download has come up. -/
def begin (s : Http) (w : W25x) : Transfer :=
  ⟨{ s with status := .started, task := .getDownloadfile }, initWriteFlash w, []⟩

/-- The response has come, in segments. -/
def download (s : Http) (w : W25x) (segments : List (UInt32 × List UInt8)) : Transfer :=
  segments.foldl receive (begin s w)

/-- The file is in the zone, and its readers find its length and its bytes. -/
structure ReadsBack (m : Flash) (data : List UInt8) : Prop where
  size : (startGetDownZoneSpiflash m).downFileSize.toNat = data.length
  read : ∀ (outSize : Int16) (rounds : ℕ), 0 < outSize → data.length < rounds →
    readAll m outSize rounds (startGetDownZoneSpiflash m) = data
  inZone : 4 + data.length ≤ downloadZoneSize.toNat

/-- A download that is reported as finished can be read back, when its last sector has been
    written. -/
def Agrees (d : Transfer) : Prop :=
  d.http.status = .downloadFinish → ReadsBack (w25xAppendEnd d.w).flash d.received

/-! ### What has been stored -/

/-- How far a download has come: the header is not through yet, or it has been refused, or the length
    and the body so far are on their way to the flash. -/
inductive Progress (m : Flash) : Transfer → Prop
  | waits {d : Transfer} (hstatus : d.http.status = .started)
      (htask : d.http.task = .getDownloadfile) (hreceived : d.received = [])
      (hw : Holds m [] d.w) : Progress m d
  | refused {d : Transfer} (hstatus : d.http.status = .error) : Progress m d
  | stores {d : Transfer} (hstatus : d.http.status = .downloading ∨ d.http.status = .downloadFinish)
      (htask : d.http.task = .getDownloadfile)
      (hlen : d.http.contentLength < storageSize)
      (hsize : d.http.downloadSize = UInt32.ofNat d.received.length)
      (hdone : d.http.status = .downloadFinish → d.http.downloadSize = d.http.contentLength)
      (hw : 4 + d.received.length ≤ sectionSize * 65535 →
        Holds m (bytesOf d.http.contentLength ++ d.received) d.w) : Progress m d

theorem checkFinished_frame (s : Http) :
    (checkFinished s).task = s.task ∧ (checkFinished s).contentLength = s.contentLength ∧
      (checkFinished s).downloadSize = s.downloadSize := by
  simp only [checkFinished]
  split <;> exact ⟨rfl, rfl, rfl⟩

theorem checkFinished_status {s : Http} (h : s.status = .downloading) :
    ((checkFinished s).status = .downloading ∨ (checkFinished s).status = .downloadFinish) ∧
      ((checkFinished s).status = .downloadFinish → s.downloadSize = s.contentLength) := by
  simp only [checkFinished]
  split
  · next heq => exact ⟨.inr rfl, fun _ => heq⟩
  · exact ⟨.inl h, fun hf => by rw [h] at hf; cases hf⟩

theorem Progress.receive {m : Flash} {d : Transfer} (h : Progress m d)
    (segment : UInt32 × List UInt8) : Progress m (receive d segment) := by
  obtain ⟨now, buf⟩ := segment
  cases h with
  | refused hstatus => exact .refused (by simp [Download.receive, recv, hstatus])
  | waits hstatus htask hreceived hw =>
    simp only [Download.receive, recv, hstatus, bodyOf, hreceived, List.nil_append]
    split
    · next hrange =>
      cases hhead : strstr [13, 10, 13, 10] buf with
      | none => exact .waits rfl htask rfl hw
      | some p =>
        dsimp only
        have htask' : ∀ s : Http, s.task = .getDownloadfile →
            recvHttpBuf s (buf.drop (p + 4)) = [.flash (buf.drop (p + 4))] := by
          intro s hs
          rw [recvHttpBuf, if_pos hs]
        generalize hs : ({ d.http with
          activeTime := now, contentLength := httpGetContentLength buf, status := .downloading,
          downloadSize := UInt32.ofNat (buf.drop (p + 4)).length } : Http) = s
        have hlen : s.contentLength = httpGetContentLength buf := by rw [← hs]
        have hframe := checkFinished_frame s
        have hend := checkFinished_status (s := s) (by rw [← hs])
        refine .stores hend.1 (hframe.1.trans (by rw [← hs]; exact htask)) ?_ ?_ ?_ ?_
        · rw [hframe.2.1, hlen]
          exact hrange.2
        · rw [hframe.2.2, ← hs]
          rfl
        · intro hf
          rw [hframe.2.1, hframe.2.2]
          exact hend.2 hf
        · intro hroom
          have hbody : recvHttpBuf s (buf.drop (p + 4)) = [.flash (buf.drop (p + 4))] :=
            htask' s (by rw [← hs]; exact htask)
          have hheader := hw.append (bytesOf (httpGetContentLength buf)) (by
            simp [bytesOf, sectionSize])
          rw [hframe.2.1, hlen, hbody]
          refine hheader.append (buf.drop (p + 4)) ?_
          simpa [bytesOf] using hroom
    · exact .refused rfl
  | stores hstatus htask hlen hsize hdone hw =>
    rcases hstatus with hstatus | hstatus
    · simp only [Download.receive, recv, hstatus, bodyOf]
      generalize hs : ({ d.http with
        activeTime := now, status := .downloading,
        downloadSize := d.http.downloadSize + UInt32.ofNat buf.length } : Http) = s
      have hframe := checkFinished_frame s
      have hend := checkFinished_status (s := s) (by rw [← hs])
      have hbody : recvHttpBuf s buf = [.flash buf] := by
        rw [recvHttpBuf, if_pos (by rw [← hs]; exact htask)]
      refine .stores hend.1 (hframe.1.trans (by rw [← hs]; exact htask)) ?_ ?_ ?_ ?_
      · rw [hframe.2.1, ← hs]
        exact hlen
      · rw [hframe.2.2, ← hs, List.length_append, UInt32.ofNat_add, ← hsize]
      · intro hf
        rw [hframe.2.1, hframe.2.2]
        exact hend.2 hf
      · intro hroom
        dsimp only at hroom
        rw [List.length_append] at hroom
        rw [hframe.2.1, hbody, ← List.append_assoc, ← hs]
        refine (hw (by omega)).append buf ?_
        simp only [List.length_append, bytesOf, List.length_cons, List.length_nil]
        omega
    · simp only [Download.receive, recv, hstatus, bodyOf, List.append_nil, List.foldl_nil]
      exact .stores (.inr rfl) htask hlen hsize (fun _ => hdone hstatus) hw

theorem progress_download (s : Http) (w : W25x) (segments : List (UInt32 × List UInt8)) :
    Progress w.flash (download s w segments) := by
  have hrun : ∀ (segments : List (UInt32 × List UInt8)) {d : Transfer}, Progress w.flash d →
      Progress w.flash (segments.foldl receive d) := by
    intro segments
    induction segments with
    | nil => intro d h; exact h
    | cons segment segments ih => intro d h; exact ih (h.receive segment)
  exact hrun segments (.waits rfl rfl rfl (.init w))

/-! ### What is read back -/

theorem numberOf_bytesOf (n : UInt32) (more : List UInt8) : numberOf (bytesOf n ++ more) = n := by
  apply UInt32.toNat_inj.1
  have h8 : (n >>> 8).toNat = n.toNat / 256 := by
    rw [UInt32.toNat_shiftRight]
    exact Nat.shiftRight_eq_div_pow ..
  have h16 : (n >>> 16).toNat = n.toNat / 65536 := by
    rw [UInt32.toNat_shiftRight]
    exact Nat.shiftRight_eq_div_pow ..
  have h24 : (n >>> 24).toNat = n.toNat / 16777216 := by
    rw [UInt32.toNat_shiftRight]
    exact Nat.shiftRight_eq_div_pow ..
  have hn := n.toNat_lt
  simp only [numberOf, bytesOf, List.cons_append, List.getD_cons_zero, List.getD_cons_succ,
    UInt32.toNat_toUInt8, UInt32.toNat_ofNat', h8, h16, h24]
  omega

/-- Whatever the segments, a download that is reported as finished can be read back iff its body is
    shorter than 524284 bytes. -/
theorem agrees_iff (s : Http) (w : W25x) (segments : List (UInt32 × List UInt8)) :
    let d := download s w segments
    Agrees d ↔ (d.http.status = .downloadFinish → d.received.length < 524284) := by
  intro d
  have hprogress : Progress w.flash d := progress_download s w segments
  generalize d = d at hprogress
  constructor
  · intro h hfinish
    have hback := h hfinish
    rw [← hback.size]
    exact startGetDownZoneSpiflash_size _
  · intro hlen hfinish
    have hlen := hlen hfinish
    cases hprogress with
    | waits hstatus => rw [hstatus] at hfinish; cases hfinish
    | refused hstatus => rw [hstatus] at hfinish; cases hfinish
    | stores _ _ hrange hsize hdone hw =>
      have hn : d.http.contentLength.toNat = d.received.length := by
        rw [← hdone hfinish, hsize, UInt32.toNat_ofNat']
        exact Nat.mod_eq_of_lt (by omega)
      have hall := (hw (by simp only [sectionSize]; omega)).finish (by
        simp only [List.length_append, bytesOf, List.length_cons, List.length_nil, sectionSize]
        omega)
      have hlen4 : (bytesOf d.http.contentLength).length = 4 := rfl
      rw [List.length_append, hlen4, bytesAt_add] at hall
      obtain ⟨hnumber, hbody⟩ := List.append_inj hall (by rw [bytesAt_length, hlen4])
      have hstart : (startGetDownZoneSpiflash (w25xAppendEnd d.w).flash).downFileSize =
          d.http.contentLength := by
        have hvalue := numberOf_bytesOf d.http.contentLength []
        rw [List.append_nil] at hvalue
        simp only [startGetDownZoneSpiflash, hnumber, hvalue]
        rw [if_neg]
        rw [UInt32.not_le, UInt32.lt_iff_toNat_lt, hn]
        exact hlen
      have hfile : file (w25xAppendEnd d.w).flash = d.received := by
        rw [file, hstart, hn]
        exact hbody
      refine ⟨by rw [hstart, hn], fun outSize rounds hout hrounds => ?_, ?_⟩
      · rw [readAll_file _ hout (by rw [hstart, hn]; exact hrounds), hfile]
      · have hzone : downloadZoneSize.toNat = 524288 := rfl
        omega

/-! ### A file that is too long -/

/-- The header of a response. -/
def header : List UInt8 :=
  "HTTP/1.1 200 OK\r\nContent-Length: 524284\r\n\r\n".toList.map fun c => c.toNat.toUInt8

theorem header_length : httpGetContentLength header = 524284 := by decide +kernel

theorem header_end : strstr [13, 10, 13, 10] header = some (header.length - 4) := by decide +kernel

/-- 524284 bytes are accepted, and the reader takes the zone for empty. -/
theorem not_agrees : ¬∀ s w segments, Agrees (download s w segments) := by
  intro h
  have hbody : header.drop (header.length - 4 + 4) = [] := by decide +kernel
  have hd := h idle ⟨fun _ => 0, [], 0⟩ [(0, header), (0, List.replicate 524284 0)]
  have hfirst : (receive (begin idle ⟨fun _ => 0, [], 0⟩) (0, header)).http =
      { begin idle ⟨fun _ => 0, [], 0⟩ |>.http with
        status := .downloading, downloadSize := 0, contentLength := 524284, activeTime := 0 } ∧
      (receive (begin idle ⟨fun _ => 0, [], 0⟩) (0, header)).received = [] := by
    simp only [receive, begin, recv, bodyOf, header_length, header_end, hbody]
    exact ⟨rfl, rfl⟩
  rw [download, List.foldl_cons, List.foldl_cons, List.foldl_nil] at hd
  generalize receive (begin idle ⟨fun _ => 0, [], 0⟩) (0, header) = d at hfirst hd
  have hsecond : (receive d (0, List.replicate 524284 0)).http.status = .downloadFinish ∧
      (receive d (0, List.replicate 524284 0)).received.length = 524284 := by
    have hstatus : d.http.status = .downloading := by rw [hfirst.1]
    have hsize : d.http.downloadSize + UInt32.ofNat (List.replicate 524284 (0 : UInt8)).length =
        d.http.contentLength := by
      rw [List.length_replicate, hfirst.1]
      rfl
    simp only [receive, recv, hstatus, bodyOf, hfirst.2, List.nil_append, List.length_replicate]
    exact ⟨by rw [checkFinished, if_pos (by rwa [List.length_replicate] at hsize)], trivial⟩
  have hsize := (hd hsecond.1).size
  have hlt := startGetDownZoneSpiflash_size
    (w25xAppendEnd (receive d (0, List.replicate 524284 0)).w).flash
  rw [hsize, hsecond.2] at hlt
  omega

end EasyCore.Download
