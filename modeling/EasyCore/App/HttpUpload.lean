import EasyCore.App.IspHttp

/-! The upload of a picture (`applications/isp_http_tcp.c`, `drivers/extdrv/uart4_cam_drv.c`): a POST
    header that announces the length, the head of a multipart body, the picture in blocks of 512
    bytes, and the tail. Any block may fail to be read, and any write may fail. -/

namespace EasyCore.HttpUpload
open IspHttp

/-! ### The texts -/

def chars (s : String) : List UInt8 := s.toList.map fun c => c.toNat.toUInt8

/-- `"%d"` -/
def signed (n : ℤ) : List UInt8 :=
  if n < 0 then 45 :: Decimal.numeral n.natAbs else Decimal.numeral n.natAbs

def postHeader (contentLength : ℤ) : List UInt8 :=
  chars "POST /upload/upload.php HTTP/1.1\r\n" ++
  chars "Host: www.easy-iot.cc\r\n" ++
  chars "Connection: keep-alive\r\n" ++
  chars "Content-Length: " ++ signed contentLength ++ chars "\r\n" ++
  chars "Content-Type: multipart/form-data; boundary=----WebKitFormBoundaryeCGbABkhlBu3xcId\r\n" ++
  chars "Referer: http://www.easy-iot.cc/upload/\r\n" ++
  chars "Accept-Encoding: gzip, deflate\r\n" ++
  chars "Accept-Language: zh-CN,zh;q=0.8\r\n\r\n"

def multipartHead : List UInt8 :=
  chars "------WebKitFormBoundaryeCGbABkhlBu3xcId\r\n" ++
  chars "Content-Disposition: form-data; name=\"pic\"; filename=\"__EasyIOT.jpg\"\r\n" ++
  chars "Content-Type: image/jpg\r\n\r\n"

def multipartTail : List UInt8 :=
  chars "\r\n" ++ chars "------WebKitFormBoundaryeCGbABkhlBu3xcId--\r\n"

/-! ### The picture -/

/-- Which `get_upload_data` is called. -/
inductive Source
  | serialcam
  | jpeg
  deriving DecidableEq

/-- A picture, and what lies behind it in `JpegBuffer`. -/
structure Picture where
  source : Source
  image : List UInt8
  behind : ℕ → UInt8
  size : image.length < 65536

/-- The upload. `buf` has the bytes that `httpopt.buf` points to, `index` is `imgidx` or
    `JpegBuffer_put_total`, `requests` are the commands to the camera (an address and a length), and
    `sent` is what has been written to the connection. -/
structure Upload where
  status : HttpStatus
  activeTime : UInt32
  uploadSize : UInt32
  uploadContentLength : UInt32
  buf : Option (List UInt8)
  buflen : ℤ
  index : UInt16
  requests : List (UInt16 × UInt16)
  sent : List UInt8

/-- `httpopt.uploadlenth`: a short. -/
def Picture.uploadlenth (p : Picture) : Int16 := Int16.ofNat p.image.length

/-- The upload is started: `httpopt` is cleared, and the camera begins at its first byte. -/
def start (now : UInt32) : Upload := ⟨.started, now, 0, 0, none, 0, 0, [], []⟩

variable (p : Picture)

/-- `getImg`, with its length and its data; the answer is `ok` or has another length, and then
    nothing of it is looked at. -/
def getImg (blockSize : UInt16) (ok : Bool) (u : Upload) : Upload × ℤ × List UInt8 :=
  let imglen := UInt16.ofNat p.image.length
  if u.index < imglen then
    let readlen := if blockSize < imglen - u.index then blockSize else imglen - u.index
    let u := { u with requests := u.requests ++ [(u.index, readlen)] }
    if ok then
      ({ u with index := u.index + readlen }, readlen.toNat,
        (p.image.drop u.index.toNat).take readlen.toNat)
    else (u, -1, [])
  else (u, 0, [])

/-- `get_upload_serialcam_data` -/
def getUploadSerialcamData (ok : Bool) (u : Upload) : Upload :=
  let block := getImg p 512 ok u
  { block.1 with buf := some block.2.2, buflen := block.2.1 }

/-- Bytes of `JpegBuffer`. -/
def jpegBytes (offset n : ℕ) : List UInt8 :=
  (List.range n).map fun i => p.image.getD (offset + i) (p.behind (offset + i))

/-- `get_upload_data` -/
def getUploadData (u : Upload) : Upload :=
  let left := UInt32.ofNat p.image.length - u.index.toUInt32
  if 512 ≤ left then
    { u with buflen := 512, buf := some (jpegBytes p u.index.toNat 512), index := u.index + 512 }
  else
    { u with
      buflen := left.toNat, buf := some (jpegBytes p left.toNat left.toNat)
      index := UInt16.ofNat p.image.length }

/-- `httpopt.get_upload_data` -/
def getData (ok : Bool) (u : Upload) : Upload :=
  match p.source with
  | .serialcam => getUploadSerialcamData p ok u
  | .jpeg => getUploadData p u

/-! ### The upload client -/

/-- `send_httppost_pkg`, on a new connection; `mem` says whether there is memory for the header, and
    nobody asks whether it is `written`. -/
def sendHttppostPkg (mem written : Bool) (u : Upload) : Upload :=
  if mem then
    { u with
      uploadContentLength := UInt32.ofInt p.uploadlenth.toInt, uploadSize := 0
      status := .uploading
      sent := if written then postHeader (p.uploadlenth.toInt + (10664 - 10479)) ++ multipartHead
        else [] }
  else { u with status := .error, sent := [] }

/-- `rout_upload_cb`, at the time `now`; the camera answers or not, and the write is accepted or
    not. -/
def routUploadCb (now : UInt32) (ok written : Bool) (u : Upload) : Upload :=
  match u.status with
  | .uploading =>
    if u.uploadSize < u.uploadContentLength then
      let u := if u.buf = none then getData p ok u else u
      if 0 < u.buflen ∧ written then
        { u with
          activeTime := now, uploadSize := u.uploadSize + UInt32.ofInt u.buflen
          buflen := 0, buf := none, sent := u.sent ++ u.buf.getD [] }
      else u
    else { u with status := .uploadingEnd }
  | .uploadingEnd =>
    if written then { u with status := .uploadFinish, sent := u.sent ++ multipartTail } else u
  | _ => u

/-- What happens to an upload: a connection comes up, its routine runs, a response comes, the
    connection is gone or fails, the client is stopped or started again. -/
inductive Event
  | connected (mem written : Bool)
  | rout (now : UInt32) (ok written : Bool)
  | recv (now : UInt32)
  | disconn
  | connerr
  | stop
  | restart
  deriving DecidableEq

/-- The response to an upload is not looked at. -/
def recv (now : UInt32) (u : Upload) : Upload :=
  let u := { u with activeTime := now }
  match u.status with
  | .uploading | .uploadingEnd | .uploadFinish => { u with status := .uploadDone }
  | _ => u

def step (u : Upload) : Event → Upload
  | .connected mem written => sendHttppostPkg p mem written u
  | .rout now ok written => routUploadCb p now ok written u
  | .recv now => recv now u
  | .disconn => { u with status := .finish }
  | .connerr => { u with status := .error }
  | .stop => { u with status := .init }
  | .restart => { u with status := .started }

def run (now : UInt32) (events : List Event) : Upload := events.foldl (step p) (start now)

/-- What stands behind the header at the end of an upload is as long as the header says, and has the
    picture in it. -/
def Framed (u : Upload) : Prop :=
  u.status = .uploadFinish → ∃ body : List UInt8,
    u.sent = postHeader body.length ++ body ∧ body = multipartHead ++ p.image ++ multipartTail

/-- A block that could not be read is requested again when the routine runs next. -/
def Retried (now : UInt32) (events : List Event) : Prop :=
  ∀ (before : List Event) (now₁ now₂ : UInt32) (written₁ ok written₂ : Bool)
    (block : UInt16 × UInt16),
    before ++ [.rout now₁ false written₁, .rout now₂ ok written₂] <+: events →
      let u := run p now (before ++ [.rout now₁ false written₁])
      u.requests = (run p now before).requests ++ [block] →
        (routUploadCb p now₂ ok written₂ u).requests = u.requests ++ [block]

/-- The header is written, and every block that is asked for is read. -/
def Event.Works : Event → Prop
  | .connected mem written => mem → written
  | .rout _ ok _ => ok
  | _ => True

/-! ### Blocks -/

variable {p}

/-- The bytes up to `pos` are sent, and those of the block in `buf` come next; or `buf` has nothing
    to be sent, and stays as it is. -/
inductive Buffered (p : Picture) (pos : ℕ) (u : Upload) : Prop
  | empty (hbuf : u.buf = none) (hlen : u.buflen = 0) (hindex : u.index.toNat = pos)
      (hpos : pos ≤ p.image.length) (hjpeg : p.source = .jpeg → u.index.toNat % 512 = 0)
  | block {data : List UInt8} (hbuf : u.buf = some data) (hlen : u.buflen = data.length)
      (hindex : u.index.toNat = pos + data.length) (hpos : pos + data.length ≤ p.image.length)
      (hdata : data = (p.image.drop pos).take data.length)
      (hjpeg : p.source = .jpeg → u.index.toNat % 512 = 0)
  | stuck {data : List UInt8} (hbuf : u.buf = some data) (hlen : u.buflen ≤ 0)
      (hpos : pos ≤ p.image.length)

theorem imglen_toNat (p : Picture) : (UInt16.ofNat p.image.length).toNat = p.image.length := by
  rw [UInt16.toNat_ofNat']
  exact Nat.mod_eq_of_lt p.size

theorem getUploadSerialcamData_buffered {u : Upload} (ok : Bool)
    (hsource : p.source = .serialcam) (hpos : u.index.toNat ≤ p.image.length) :
    Buffered p u.index.toNat (getUploadSerialcamData p ok u) := by
  have hn := p.size
  have hlen := imglen_toNat p
  have hcam : p.source ≠ .jpeg := by rw [hsource]; decide
  simp only [getUploadSerialcamData, getImg]
  split
  · next hlt =>
    have hleft : (UInt16.ofNat p.image.length - u.index).toNat =
        p.image.length - u.index.toNat := by
      rw [UInt16.toNat_sub_of_le _ _ (UInt16.le_of_lt hlt), hlen]
    generalize hreadlen : (if 512 < UInt16.ofNat p.image.length - u.index then 512 else
      UInt16.ofNat p.image.length - u.index) = readlen
    have hread : readlen.toNat ≤ p.image.length - u.index.toNat := by
      rw [← hreadlen, ← hleft]
      split
      · next h => exact (UInt16.lt_iff_toNat_lt.1 h).le
      · exact le_refl _
    cases ok with
    | false => exact .stuck rfl (by simp) hpos
    | true =>
      have hdata : ((p.image.drop u.index.toNat).take readlen.toNat).length = readlen.toNat := by
        rw [List.length_take, List.length_drop]
        omega
      have hadd : (u.index + readlen).toNat = u.index.toNat + readlen.toNat := by
        rw [UInt16.toNat_add]
        exact Nat.mod_eq_of_lt (by omega)
      simp only [if_true]
      refine .block rfl ?_ ?_ ?_ ?_ fun h => absurd h hcam
      · rw [hdata]
      · rw [hdata, hadd]
      · rw [hdata]
        omega
      · rw [hdata]
  · exact .stuck rfl (le_refl _) hpos

theorem getUploadData_buffered {u : Upload} {pos : ℕ} (hsize : p.image.length % 512 = 0)
    (hindex : u.index.toNat = pos) (hpos : pos ≤ p.image.length)
    (hjpeg : u.index.toNat % 512 = 0) : Buffered p pos (getUploadData p u) := by
  have hn := p.size
  have hleft : (UInt32.ofNat p.image.length - u.index.toUInt32).toNat = p.image.length - pos := by
    rw [UInt32.toNat_sub_of_le]
    · rw [UInt32.toNat_ofNat', UInt16.toNat_toUInt32, hindex]
      omega
    · rw [UInt32.le_iff_toNat_le, UInt32.toNat_ofNat', UInt16.toNat_toUInt32, hindex]
      omega
  simp only [getUploadData]
  split
  · next hle =>
    have hle : 512 ≤ p.image.length - pos := by
      have h := UInt32.le_iff_toNat_le.1 hle
      rwa [hleft] at h
    have hdata : (jpegBytes p u.index.toNat 512).length = 512 := by simp [jpegBytes]
    have hadd : (u.index + 512).toNat = pos + 512 := by
      rw [UInt16.toNat_add, hindex]
      simp only [UInt16.reduceToNat]
      omega
    refine .block rfl ?_ ?_ ?_ ?_ fun _ => ?_
    · rw [hdata]
      rfl
    · rw [hdata]
      exact hadd
    · rw [hdata]
      omega
    · rw [hdata]
      apply List.ext_getElem
      · rw [hdata, List.length_take, List.length_drop]
        omega
      · intro i hi _
        rw [hdata] at hi
        simp only [jpegBytes, List.getElem_map, List.getElem_range, List.getElem_take,
          List.getElem_drop, hindex]
        exact List.getD_eq_getElem _ _ (by omega)
    · change (u.index + 512).toNat % 512 = 0
      rw [hadd]
      omega
  · next hlt =>
    have hlt : p.image.length - pos < 512 := by
      have h := UInt32.lt_iff_toNat_lt.1 (UInt32.not_le.1 hlt)
      rwa [hleft] at h
    have hnone : p.image.length - pos = 0 := by omega
    refine .stuck rfl (le_of_eq ?_) hpos
    rw [hnone] at hleft
    exact congrArg Int.ofNat hleft

theorem getData_frame (p : Picture) (ok : Bool) (u : Upload) :
    (getData p ok u).status = u.status ∧ (getData p ok u).uploadSize = u.uploadSize ∧
      (getData p ok u).uploadContentLength = u.uploadContentLength ∧
      (getData p ok u).sent = u.sent := by
  rw [getData]
  cases p.source with
  | serialcam =>
    simp only [getUploadSerialcamData, getImg]
    split
    · cases ok <;> exact ⟨rfl, rfl, rfl, rfl⟩
    · exact ⟨rfl, rfl, rfl, rfl⟩
  | jpeg =>
    simp only [getUploadData]
    split <;> exact ⟨rfl, rfl, rfl, rfl⟩

/-- The pictures that `getData` reads right: from the serial camera, or in whole blocks. -/
def Picture.Blocks (p : Picture) : Prop := p.source = .serialcam ∨ p.image.length % 512 = 0

theorem getData_buffered {u : Upload} {pos : ℕ} (hblocks : p.Blocks) (ok : Bool)
    (h : Buffered p pos u) (hbuf : u.buf = none) : Buffered p pos (getData p ok u) := by
  cases h with
  | block hdata => rw [hbuf] at hdata; cases hdata
  | stuck hdata => rw [hbuf] at hdata; cases hdata
  | empty _ _ hindex hpos hjpeg =>
    simp only [getData]
    cases hsource : p.source with
    | serialcam =>
      rw [← hindex] at hpos ⊢
      exact getUploadSerialcamData_buffered ok hsource hpos
    | jpeg =>
      rcases hblocks with hcam | hsize
      · rw [hsource] at hcam
        cases hcam
      · exact getUploadData_buffered hsize hindex hpos (hjpeg hsource)

/-! ### Runs -/

theorem uploadlenth_toInt (p : Picture) :
    p.uploadlenth.toInt = (p.image.length : ℤ).bmod 65536 := by
  rw [Picture.uploadlenth, Int16.toInt_ofNat']

/-- The announced length of a picture below 32 KiB. -/
theorem uploadlenth_small (h : p.image.length < 32768) :
    p.uploadlenth.toInt = p.image.length := by
  rw [uploadlenth_toInt, Int.bmod_eq_of_le] <;> omega

/-- A larger picture is never sent completely. -/
theorem uploadlenth_large (h : 32768 ≤ p.image.length) :
    p.image.length < (UInt32.ofInt p.uploadlenth.toInt).toNat := by
  have hn := p.size
  have hneg : (p.image.length : ℤ).bmod 65536 = p.image.length - 65536 := by
    rw [Int.bmod_def]
    omega
  rw [uploadlenth_toInt, hneg, UInt32.ofInt, UInt32.toNat_ofNat']
  omega

/-- The header, and the head of the body. -/
def Picture.header (p : Picture) : List UInt8 :=
  postHeader (p.uploadlenth.toInt + (10664 - 10479)) ++ multipartHead

/-- How far an upload has come. On a new connection it begins with the byte that comes next, which
    may not be the first; such an upload never ends. -/
structure Progress (p : Picture) (u : Upload) : Prop where
  buffered : ∃ pos, Buffered p pos u ∧ (u.status = .uploading →
    u.uploadContentLength = UInt32.ofInt p.uploadlenth.toInt ∧
      ∃ base, base + u.uploadSize.toNat = pos ∧
        u.sent = p.header ++ (p.image.drop base).take u.uploadSize.toNat)
  ending : u.status = .uploadingEnd →
    p.image.length < 32768 ∧ u.sent = p.header ++ p.image
  finished : u.status = .uploadFinish →
    p.image.length < 32768 ∧ u.sent = p.header ++ p.image ++ multipartTail

theorem progress_start (p : Picture) (now : UInt32) : Progress p (start now) where
  buffered := ⟨0, .empty rfl rfl rfl (Nat.zero_le _) fun _ => rfl, fun h => (by cases h)⟩
  ending h := by cases h
  finished h := by cases h

/-- The block in `buf` stays what it is when the rest changes. -/
theorem Buffered.congr {pos : ℕ} {u v : Upload} (h : Buffered p pos u) (hbuf : v.buf = u.buf)
    (hlen : v.buflen = u.buflen) (hindex : v.index = u.index) : Buffered p pos v := by
  cases h with
  | empty h₁ h₂ h₃ h₄ h₅ =>
    exact .empty (hbuf.trans h₁) (hlen.trans h₂) (hindex ▸ h₃) h₄ (hindex ▸ h₅)
  | block h₁ h₂ h₃ h₄ h₅ h₆ =>
    exact .block (hbuf.trans h₁) (hlen.trans h₂) (hindex ▸ h₃) h₄ h₅ (hindex ▸ h₆)
  | stuck h₁ h₂ h₃ => exact .stuck (hbuf.trans h₁) (hlen.trans_le h₂) h₃

/-- The upload does not go on in this status. -/
theorem Progress.other {u : Upload} (h : Progress p u) {v : Upload} (hbuf : v.buf = u.buf)
    (hlen : v.buflen = u.buflen) (hindex : v.index = u.index) (h₁ : v.status ≠ .uploading)
    (h₂ : v.status ≠ .uploadingEnd) (h₃ : v.status ≠ .uploadFinish) : Progress p v := by
  obtain ⟨pos, hpos, -⟩ := h.buffered
  exact ⟨⟨pos, hpos.congr hbuf hlen hindex, fun h => absurd h h₁⟩, fun h => absurd h h₂,
    fun h => absurd h h₃⟩

/-- A new connection: the header is sent, and the bytes from the next one on will follow. -/
theorem Progress.connected {u : Upload} (h : Progress p u) (mem : Bool) :
    Progress p (sendHttppostPkg p mem true u) := by
  rw [sendHttppostPkg]
  split
  · obtain ⟨pos, hpos, -⟩ := h.buffered
    refine ⟨⟨pos, hpos.congr rfl rfl rfl, fun _ => ⟨rfl, pos, rfl, ?_⟩⟩, fun h => (by cases h),
      fun h => (by cases h)⟩
    rw [if_pos rfl]
    exact (List.append_nil _).symm
  · exact h.other rfl rfl rfl (by simp) (by simp) (by simp)

/-- The next bytes of the picture. -/
theorem take_add_block (image : List UInt8) (base : ℕ) {size : ℕ} {data : List UInt8}
    (hdata : data = (image.drop (base + size)).take data.length) :
    (image.drop base).take (size + data.length) = (image.drop base).take size ++ data := by
  rw [List.take_add, List.drop_drop, ← hdata]

theorem Progress.rout {u : Upload} (hblocks : p.Blocks) (h : Progress p u) (now : UInt32)
    (ok written : Bool) : Progress p (routUploadCb p now ok written u) := by
  have hn := p.size
  rw [routUploadCb]
  split
  · next hstatus =>
    obtain ⟨pos, hpos, hsent⟩ := h.buffered
    obtain ⟨hlen, base, hbase, hsent⟩ := hsent hstatus
    split
    · -- `v`: there is a block in `buf`.
      obtain ⟨hframe, hv⟩ : ((if u.buf = none then getData p ok u else u).status = u.status ∧
          (if u.buf = none then getData p ok u else u).uploadSize = u.uploadSize ∧
          (if u.buf = none then getData p ok u else u).uploadContentLength =
            u.uploadContentLength ∧
          (if u.buf = none then getData p ok u else u).sent = u.sent) ∧
          Buffered p pos (if u.buf = none then getData p ok u else u) := by
        split
        · next hbuf => exact ⟨getData_frame p ok u, getData_buffered hblocks ok hpos hbuf⟩
        · exact ⟨⟨rfl, rfl, rfl, rfl⟩, hpos⟩
      generalize (if u.buf = none then getData p ok u else u) = v at hframe hv
      obtain ⟨h₁, h₂, h₃, h₄⟩ := hframe
      have hwait : Progress p v := by
        refine ⟨⟨pos, hv, fun _ => ⟨h₃.trans hlen, base, by rw [h₂]; exact hbase, ?_⟩⟩,
          fun h => ?_, fun h => ?_⟩
        · rw [h₄, h₂]
          exact hsent
        · rw [h₁, hstatus] at h
          cases h
        · rw [h₁, hstatus] at h
          cases h
      dsimp only
      split
      · next hwritten =>
        cases hv with
        | empty _ hzero => omega
        | stuck _ hzero => omega
        | @block data hbuf hcount hindex hroom hdata hjpeg =>
          have hsize : (v.uploadSize + UInt32.ofInt v.buflen).toNat =
              u.uploadSize.toNat + data.length := by
            rw [UInt32.toNat_add, h₂, hcount, UInt32.ofInt, UInt32.toNat_ofNat']
            omega
          refine ⟨⟨pos + data.length, .empty rfl rfl hindex hroom hjpeg, fun _ =>
            ⟨h₃.trans hlen, base, ?_, ?_⟩⟩, fun h => ?_, fun h => ?_⟩
          · rw [hsize]
            omega
          · have hnext := take_add_block p.image base (hbase ▸ hdata)
            rw [hsize, hnext, h₄, hsent, hbuf, List.append_assoc]
            rfl
          · rw [h₁, hstatus] at h
            cases h
          · rw [h₁, hstatus] at h
            cases h
      · exact hwait
    · -- All of the picture has been sent, from its first byte on.
      next hall =>
      have hle : pos ≤ p.image.length := by
        cases hpos with
        | empty _ _ _ hpos => exact hpos
        | block _ _ _ hpos => omega
        | stuck _ _ hpos => exact hpos
      have hall := UInt32.le_iff_toNat_le.1 (UInt32.not_lt.1 hall)
      rw [hlen] at hall
      rcases Nat.lt_or_ge p.image.length 32768 with hsmall | hlarge
      · have hcount : (UInt32.ofInt p.uploadlenth.toInt).toNat = p.image.length := by
          rw [uploadlenth_small hsmall, UInt32.ofInt, UInt32.toNat_ofNat']
          omega
        refine ⟨⟨pos, hpos.congr rfl rfl rfl, fun h => (by cases h)⟩, fun _ => ⟨hsmall, ?_⟩,
          fun h => (by cases h)⟩
        have hfirst : base = 0 := by omega
        have hlast : u.uploadSize.toNat = p.image.length := by omega
        rw [hfirst, List.drop_zero, hlast, List.take_length] at hsent
        exact hsent
      · have := uploadlenth_large hlarge
        omega
  · next hstatus =>
    obtain ⟨hsmall, hsent⟩ := h.ending hstatus
    obtain ⟨pos, hpos, -⟩ := h.buffered
    split
    · exact ⟨⟨pos, hpos.congr rfl rfl rfl, fun h => (by cases h)⟩, fun h => (by cases h),
        fun _ => ⟨hsmall, congrArg (· ++ multipartTail) hsent⟩⟩
    · exact h
  · exact h

theorem Progress.recv {u : Upload} (h : Progress p u) (now : UInt32) :
    Progress p (recv now u) := by
  rw [HttpUpload.recv]
  split
  · exact h.other rfl rfl rfl (by simp) (by simp) (by simp)
  · exact h.other rfl rfl rfl (by simp) (by simp) (by simp)
  · exact h.other rfl rfl rfl (by simp) (by simp) (by simp)
  · next h₁ h₂ h₃ => exact h.other rfl rfl rfl h₁ h₂ h₃

theorem Progress.step {u : Upload} (hblocks : p.Blocks) (h : Progress p u) {e : Event}
    (he : e.Works) : Progress p (step p u e) := by
  cases e with
  | connected mem written =>
    cases mem with
    | true =>
      obtain rfl : written = true := he rfl
      exact h.connected true
    | false =>
      have hstatus : (HttpUpload.step p u (.connected false written)).status = .error := rfl
      exact h.other rfl rfl rfl (by simp [hstatus]) (by simp [hstatus]) (by simp [hstatus])
  | rout now ok written => exact h.rout hblocks now ok written
  | recv now => exact h.recv now
  | disconn | connerr | stop | restart =>
    exact h.other rfl rfl rfl (by simp [HttpUpload.step]) (by simp [HttpUpload.step])
      (by simp [HttpUpload.step])

theorem progress_run (hblocks : p.Blocks) (now : UInt32) {events : List Event}
    (hworks : ∀ e ∈ events, e.Works) : Progress p (run p now events) := by
  have hsteps : ∀ (events : List Event) {u : Upload}, (∀ e ∈ events, e.Works) → Progress p u →
      Progress p (events.foldl (HttpUpload.step p) u) := by
    intro events
    induction events with
    | nil => intro u _ h; exact h
    | cons e events ih =>
      intro u hworks h
      exact ih (fun e' he' => hworks e' (List.mem_cons_of_mem _ he'))
        (h.step hblocks (hworks e (List.mem_cons_self ..)))
  exact hsteps events hworks (progress_start p now)

theorem multipart_length : multipartHead.length + multipartTail.length = 10664 - 10479 := by
  decide +kernel

theorem Progress.framed {u : Upload} (h : Progress p u) : Framed p u := by
  intro hstatus
  obtain ⟨hsmall, hsent⟩ := h.finished hstatus
  have hvalue := uploadlenth_small hsmall
  refine ⟨multipartHead ++ p.image ++ multipartTail, ?_, rfl⟩
  have hlen : ((multipartHead ++ p.image ++ multipartTail).length : ℤ) =
      p.uploadlenth.toInt + (10664 - 10479) := by
    have hmultipart := multipart_length
    rw [hvalue, List.length_append, List.length_append]
    omega
  rw [hlen, hsent, Picture.header]
  simp only [List.append_assoc]

/-- While the header is written and every block is read, what is sent at the end has the announced
    length and the picture in it. -/
theorem framed_retried_of_works {p : Picture} (hblocks : p.Blocks) (now : UInt32)
    {events : List Event} (hworks : ∀ e ∈ events, e.Works) :
    Framed p (run p now events) ∧ Retried p now events := by
  refine ⟨(progress_run hblocks now hworks).framed, ?_⟩
  intro before now₁ now₂ written₁ ok written₂ block hprefix _ _
  have hmem : Event.rout now₁ false written₁ ∈ events := hprefix.subset (by simp)
  have hread : (false : Bool) = true := hworks _ hmem
  cases hread

/-- Three bytes, in one block. -/
def threeBytes : Picture := ⟨.serialcam, [1, 2, 3], fun _ => 0, by decide⟩

theorem framed_threeBytes :
    let events := [.connected true true, .rout 1 true true, .rout 2 true true, .rout 3 true true]
    (run threeBytes 0 events).status = .uploadFinish ∧
      Framed threeBytes (run threeBytes 0 events) ∧ Retried threeBytes 0 events :=
  ⟨by decide +kernel, framed_retried_of_works (.inl rfl) 0 (by simp [Event.Works])⟩

/-! ### A block that is not read -/

theorem not_framed_retried : ¬∀ (p : Picture) (now : UInt32) (events : List Event),
    Framed p (run p now events) ∧ Retried p now events := by
  intro h
  have hretried := (h ⟨.serialcam, [1], fun _ => 0, by decide⟩ 0
    [.connected true true, .rout 1 false true, .rout 2 true true]).2
  have hrequests := hretried [.connected true true] 1 2 true true true (0, 1)
    (List.prefix_refl _) (by decide +kernel)
  revert hrequests
  decide +kernel

end EasyCore.HttpUpload
