import EasyCore.App.Download
import EasyCore.App.HttpResponse

/-! The segments of a response (`applications/isp_http_tcp.c`). TCP cuts a response anywhere, and
    `recv` looks at each segment by itself: for the length and the end of the header as long as the
    download has only been started, and for nothing at all behind them. -/

namespace EasyCore.HttpSegments
open IspHttp DownZone FlashOpt Download HttpResponse

/-- A time, and the data that come then. -/
abbrev Segment := UInt32 × List UInt8

/-- The client, and what it has done. -/
abbrev Client := Http × List Effect

/-- One more segment. -/
def next (d : Client) (segment : Segment) : Client :=
  let r := recv segment.1 segment.2 d.1
  (r.1, d.2 ++ r.2)

/-- The connection for a download has come up, and the segments come. -/
def recvAll (s : Http) (segments : List Segment) : Client :=
  segments.foldl next ({ s with status := .started, task := .getDownloadfile }, [])

/-- The data of the segments. -/
def arrived (segments : List Segment) : List UInt8 := segments.flatMap Prod.snd

/-- What the storage is given by an effect. -/
def dataOf : Effect → List UInt8
  | .flash data => data
  | _ => []

/-- The storage has been given the length and the body, and no more, and holds them when its last
    sector has been written. -/
structure Stored (w : W25x) (effects : List Effect) (body : List UInt8) : Prop where
  given : effects.flatMap dataOf = bytesOf (UInt32.ofNat body.length) ++ body
  holds : bytesAt (w25xAppendEnd (effects.foldl store (initWriteFlash w))).flash 0
    (4 + body.length) = bytesOf (UInt32.ofNat body.length) ++ body

/-- After any number of segments, the download is finished iff all of the response has come, and the
    body is in the storage then. -/
def Right (s : Http) (w : W25x) (r : Response) (segments : List Segment) : Prop :=
  ∀ k, ((recvAll s (segments.take k)).1.status = .downloadFinish ↔
      arrived (segments.take k) = r.bytes) ∧
    ((recvAll s (segments.take k)).1.status = .downloadFinish →
      Stored w (recvAll s (segments.take k)).2 r.body)

/-- A segment that has a length in it, by itself. -/
def Named (segment : Segment) : Prop :=
  0 < httpGetContentLength segment.2 ∧ httpGetContentLength segment.2 < storageSize

/-- The segment with the end of the header has the length of the body in it, which is not zero, and
    each segment in front of it has a length in it. -/
def HeaderSeen (r : Response) (segments : List Segment) : Prop :=
  ∃ before segment behind, segments = before ++ segment :: behind ∧ (∀ t ∈ before, Named t) ∧
    (arrived before).length + 4 ≤ r.head.length ∧
    r.head.length ≤ (arrived before).length + segment.2.length ∧
    httpGetContentLength segment.2 = UInt32.ofNat r.body.length ∧ r.body ≠ []

/-! ### One segment more -/

theorem recvAll_append_singleton (s : Http) (segments : List Segment) (segment : Segment) :
    recvAll s (segments ++ [segment]) = next (recvAll s segments) segment := by
  rw [recvAll, List.foldl_append]
  rfl

theorem arrived_append (segments more : List Segment) :
    arrived (segments ++ more) = arrived segments ++ arrived more := List.flatMap_append

@[simp] theorem arrived_cons (segment : Segment) (segments : List Segment) :
    arrived (segment :: segments) = segment.2 ++ arrived segments := rfl

@[simp] theorem arrived_nil : arrived [] = [] := rfl

/-- A segment with a length in it, and without the end of the header. -/
def Waits (segment : Segment) : Prop := Named segment ∧ strstr headEnd segment.2 = none

/-- Nothing has been given to the storage, and the next segment is to have the header. -/
structure Waiting (d : Client) : Prop where
  status : d.1.status = .started
  task : d.1.task = .getDownloadfile
  effects : d.2 = []

/-- The end of the header has been found in a segment, and some have come behind it. -/
structure Storing (segment : Segment) (p : ℕ) (behind : List Segment) (d : Client) : Prop where
  task : d.1.task = .getDownloadfile
  length : d.1.contentLength = httpGetContentLength segment.2
  size : d.1.downloadSize = UInt32.ofNat (segment.2.drop (p + 4) ++ arrived behind).length
  status : d.1.status =
    if d.1.downloadSize = d.1.contentLength then .downloadFinish else .downloading
  effects : ∃ parts : List (List UInt8),
    d.2 = .flash (bytesOf (httpGetContentLength segment.2)) :: parts.map .flash ∧
      parts.flatten = segment.2.drop (p + 4) ++ arrived behind

section Step
variable {d : Client} {segment : Segment}

theorem Waiting.next (h : Waiting d) (hwaits : Waits segment) : Waiting (next d segment) := by
  obtain ⟨hnamed, hnone⟩ := hwaits
  simp only [Named] at hnamed
  simp only [headEnd] at hnone
  simp only [HttpSegments.next, recv, h.status, if_pos hnamed, hnone]
  exact ⟨rfl, h.task, by rw [h.effects]; rfl⟩

theorem Waiting.refused (h : Waiting d) (hnamed : ¬Named segment) :
    (HttpSegments.next d segment).1.status = .error := by
  simp only [Named] at hnamed
  simp only [HttpSegments.next, recv, h.status, if_neg hnamed]

/-- The end of a download changes nothing but the status. -/
theorem checkFinished_spec {s : Http} (h : s.status = .downloading) :
    checkFinished s = { s with status :=
      if s.downloadSize = s.contentLength then .downloadFinish else .downloading } := by
  simp only [checkFinished]
  split
  · rfl
  · rw [← h]

theorem Waiting.store (h : Waiting d) (hnamed : Named segment) {p : ℕ}
    (hfound : strstr headEnd segment.2 = some p) :
    Storing segment p [] (HttpSegments.next d segment) := by
  simp only [Named] at hnamed
  simp only [headEnd] at hfound
  have hnext : HttpSegments.next d segment =
      (checkFinished { d.1 with
        activeTime := segment.1
        contentLength := httpGetContentLength segment.2
        status := .downloading
        downloadSize := UInt32.ofNat (segment.2.drop (p + 4)).length },
      [.flash (bytesOf (httpGetContentLength segment.2)), .flash (segment.2.drop (p + 4))]) := by
    simp only [HttpSegments.next, recv, h.status, if_pos hnamed, hfound, recvHttpBuf, h.task,
      if_true, h.effects, List.nil_append]
  rw [hnext, checkFinished_spec rfl]
  refine ⟨h.task, rfl, by rw [arrived_nil, List.append_nil], rfl, [segment.2.drop (p + 4)], rfl, ?_⟩
  simp

/-- What comes behind the header is stored; when the download is finished, nothing may come. -/
theorem Storing.next {t : Segment} {p : ℕ} {behind : List Segment} (h : Storing segment p behind d)
    (hlast : d.1.status = .downloadFinish → t.2 = []) :
    Storing segment p (behind ++ [t]) (HttpSegments.next d t) := by
  have hmore : arrived (behind ++ [t]) = arrived behind ++ t.2 := by
    rw [arrived_append, arrived_cons, arrived_nil, List.append_nil]
  obtain ⟨parts, heffects, hparts⟩ := h.effects
  rcases eq_or_ne d.1.downloadSize d.1.contentLength with heq | hne
  · have hstatus : d.1.status = .downloadFinish := by rw [h.status, if_pos heq]
    have hnext : HttpSegments.next d t = ({ d.1 with activeTime := t.1 }, d.2) := by
      simp only [HttpSegments.next, recv, hstatus, List.append_nil]
    rw [hlast hstatus, List.append_nil] at hmore
    rw [hnext]
    refine ⟨h.task, h.length, ?_, h.status, parts, heffects, ?_⟩
    · rw [hmore]
      exact h.size
    · rw [hmore, hparts]
  · have hstatus : d.1.status = .downloading := by rw [h.status, if_neg hne]
    have hnext : HttpSegments.next d t =
        (checkFinished { d.1 with
          activeTime := t.1
          status := .downloading
          downloadSize := d.1.downloadSize + UInt32.ofNat t.2.length },
        d.2 ++ [.flash t.2]) := by
      simp only [HttpSegments.next, recv, hstatus, recvHttpBuf, h.task, if_true]
    rw [hnext, checkFinished_spec rfl]
    refine ⟨h.task, h.length, ?_, rfl, parts ++ [t.2], ?_, ?_⟩
    · rw [hmore, ← List.append_assoc, List.length_append, UInt32.ofNat_add, ← h.size]
    · rw [heffects, List.map_append]
      rfl
    · rw [hmore, List.flatten_append, hparts, List.append_assoc]
      simp

end Step

/-! ### What the storage has been given -/

theorem holds_store {m : Flash} : ∀ (parts : List (List UInt8)) {data : List UInt8} {w : W25x},
    Holds m data w → data.length + parts.flatten.length ≤ sectionSize * 65535 →
    Holds m (data ++ parts.flatten) ((parts.map Effect.flash).foldl store w)
  | [], data, w, h, _ => by
    rw [List.flatten_nil, List.append_nil]
    exact h
  | part :: parts, data, w, h, hlen => by
    rw [List.flatten_cons, List.length_append] at hlen
    have hpart := h.append part (by omega)
    have hrest := holds_store parts hpart (by
      rw [List.length_append]
      omega)
    rw [List.append_assoc] at hrest
    exact hrest

theorem dataOf_flash (parts : List (List UInt8)) :
    (parts.map Effect.flash).flatMap dataOf = parts.flatten := by
  induction parts with
  | nil => rfl
  | cons part parts ih => rw [List.map_cons, List.flatMap_cons, ih, List.flatten_cons, dataOf]

theorem bytesOf_inj {n n' : UInt32} (h : bytesOf n = bytesOf n') : n = n' := by
  have hn := numberOf_bytesOf n []
  rw [h, numberOf_bytesOf] at hn
  exact hn.symm

/-- The storage is right iff what has come behind the header is the body, and the length is its
    length. -/
theorem Storing.stored_iff {segment : Segment} {p : ℕ} {behind : List Segment} {d : Client}
    (h : Storing segment p behind d) (w : W25x) {body : List UInt8}
    (hsmall : body.length < storageSize.toNat) :
    Stored w d.2 body ↔ httpGetContentLength segment.2 = UInt32.ofNat body.length ∧
      segment.2.drop (p + 4) ++ arrived behind = body := by
  obtain ⟨parts, heffects, hparts⟩ := h.effects
  have hcons : d.2 = (bytesOf (httpGetContentLength segment.2) :: parts).map .flash := heffects
  have hgiven : d.2.flatMap dataOf =
      bytesOf (httpGetContentLength segment.2) ++ (segment.2.drop (p + 4) ++ arrived behind) := by
    rw [hcons, dataOf_flash, List.flatten_cons, hparts]
  constructor
  · intro hstored
    have hboth := hgiven.symm.trans hstored.given
    obtain ⟨hlen, hbody⟩ := List.append_inj hboth rfl
    exact ⟨bytesOf_inj hlen, hbody⟩
  · rintro ⟨hlen, hbody⟩
    refine ⟨by rw [hgiven, hlen, hbody], ?_⟩
    have hsize : storageSize.toNat = 524288 := rfl
    have hparts' : (bytesOf (httpGetContentLength segment.2) :: parts).flatten =
        bytesOf (UInt32.ofNat body.length) ++ body := by
      rw [List.flatten_cons, hparts, hlen, hbody]
    have hfour : (bytesOf (UInt32.ofNat body.length) ++ body).length = 4 + body.length :=
      List.length_append
    have hholds := holds_store (bytesOf (httpGetContentLength segment.2) :: parts) (.init w) (by
      rw [hparts', hfour, List.length_nil, sectionSize]
      omega)
    rw [← hcons, hparts', List.nil_append] at hholds
    have hfinish := hholds.finish (by
      rw [hfour, sectionSize]
      omega)
    rwa [hfour] at hfinish

/-! ### From the segments to the storage -/

/-- The segments in front of the one with the end of the header. -/
theorem waiting_run (s : Http) {segments : List Segment} (h : ∀ t ∈ segments, Waits t) :
    Waiting (recvAll s segments) := by
  induction segments using List.reverseRecOn with
  | nil => exact ⟨rfl, rfl, rfl⟩
  | append_singleton segments t ih =>
    rw [recvAll_append_singleton]
    exact (ih fun t' ht' => h t' (List.mem_append_left _ ht')).next
      (h t (List.mem_append_right _ (List.mem_singleton_self t)))

/-- The run up to the first segment after which the download is finished. -/
theorem run_cases (s : Http) (segments : List Segment)
    (hopen : ∀ n < segments.length,
      (recvAll s (segments.take n)).1.status ≠ .downloadFinish) :
    ((∀ t ∈ segments, Waits t) ∧ Waiting (recvAll s segments)) ∨
      (recvAll s segments).1.status = .error ∨
      ∃ before segment behind p, segments = before ++ segment :: behind ∧
        (∀ t ∈ before, Waits t) ∧ Named segment ∧ strstr headEnd segment.2 = some p ∧
        Storing segment p behind (recvAll s segments) := by
  induction segments using List.reverseRecOn with
  | nil => exact .inl ⟨by simp, ⟨rfl, rfl, rfl⟩⟩
  | append_singleton segments t ih =>
    have hlast := hopen segments.length (by simp)
    rw [List.take_left] at hlast
    have ih := ih fun n hn => by
      have hn' := hopen n (by
        rw [List.length_append]
        omega)
      rwa [List.take_append_of_le_length hn.le] at hn'
    rw [recvAll_append_singleton]
    rcases ih with ⟨hall, hwait⟩ | herror |
      ⟨before, segment, behind, p, rfl, hbefore, hnamed, hfound, hstore⟩
    · by_cases hnamed : Named t
      · cases hfound : strstr headEnd t.2 with
        | none =>
          refine .inl ⟨fun t' ht' => ?_, hwait.next ⟨hnamed, hfound⟩⟩
          rcases List.mem_append.1 ht' with ht' | ht'
          · exact hall t' ht'
          · rw [List.mem_singleton.1 ht']
            exact ⟨hnamed, hfound⟩
        | some p =>
          exact .inr (.inr ⟨segments, t, [], p, rfl, hall, hnamed, hfound,
            hwait.store hnamed hfound⟩)
      · exact .inr (.inl (hwait.refused hnamed))
    · refine .inr (.inl ?_)
      simp only [HttpSegments.next, recv, herror]
    · exact .inr (.inr ⟨before, segment, behind ++ [t], p, by simp, hbefore, hnamed, hfound,
        hstore.next fun hfinish => absurd hfinish hlast⟩)

/-- Where no more than the body can come, the download is finished when all of it has come. -/
theorem Storing.finished_iff {segment : Segment} {p n : ℕ} {behind : List Segment} {d : Client}
    (h : Storing segment p behind d) (hn : n < storageSize.toNat)
    (hlen : httpGetContentLength segment.2 = UInt32.ofNat n)
    (hle : (segment.2.drop (p + 4) ++ arrived behind).length ≤ n) :
    d.1.status = .downloadFinish ↔ (segment.2.drop (p + 4) ++ arrived behind).length = n := by
  have hsize : storageSize.toNat = 524288 := rfl
  have hiff : d.1.downloadSize = d.1.contentLength ↔
      (segment.2.drop (p + 4) ++ arrived behind).length = n := by
    rw [h.size, h.length, hlen, ← UInt32.toNat_inj, UInt32.toNat_ofNat', UInt32.toNat_ofNat',
      Nat.mod_eq_of_lt (by omega), Nat.mod_eq_of_lt (by omega)]
  rw [h.status, ← hiff]
  split
  · next heq => exact iff_of_true rfl heq
  · next hne => exact iff_of_false (by decide) hne

/-- What is said of the first segment after which the download is finished. -/
theorem Right.headerSeen {s : Http} {w : W25x} {r : Response} {segments : List Segment}
    (hcut : arrived segments = r.bytes) (h : Right s w r segments) : HeaderSeen r segments := by
  have hend : ∃ k, (recvAll s (segments.take k)).1.status = .downloadFinish := by
    refine ⟨segments.length, (h segments.length).1.2 ?_⟩
    rw [List.take_length, hcut]
  classical
  obtain ⟨k, hfinish, hfirst⟩ : ∃ k,
      (recvAll s (segments.take k)).1.status = .downloadFinish ∧
        ∀ n < k, (recvAll s (segments.take n)).1.status ≠ .downloadFinish :=
    ⟨Nat.find hend, Nat.find_spec hend, fun n hn => Nat.find_min hend hn⟩
  have hcases := run_cases s (segments.take k) fun n hn => by
    rw [List.length_take] at hn
    rw [List.take_take, min_eq_left (by omega)]
    exact hfirst n (by omega)
  rcases hcases with ⟨-, hwait⟩ | herror |
    ⟨before, segment, behind, p, hsegments, hbefore, hnamed, hfound, hstore⟩
  · rw [hwait.status] at hfinish
    cases hfinish
  · rw [herror] at hfinish
    cases hfinish
  · have hall := (h k).1.1 hfinish
    obtain ⟨hlen, hbody⟩ := (hstore.stored_iff w r.body_small).1 ((h k).2 hfinish)
    have hle : p + 4 ≤ segment.2.length := strstr_le hfound
    have hhead : (arrived before).length + (p + 4) = r.head.length := by
      have htotal := congrArg List.length hall
      have hrest := congrArg List.length hbody
      rw [hsegments, arrived_append, arrived_cons, Response.bytes] at htotal
      simp only [List.length_append, List.length_drop] at htotal hrest
      omega
    refine ⟨before, segment, behind ++ segments.drop k, ?_, fun t ht => (hbefore t ht).1, by omega,
      by omega, hlen, ?_⟩
    · calc segments = segments.take k ++ segments.drop k := (List.take_append_drop k segments).symm
        _ = before ++ segment :: (behind ++ segments.drop k) := by
          rw [hsegments, List.append_assoc, List.cons_append]
    · rintro hnil
      have hpos := hnamed.1
      rw [hlen, hnil] at hpos
      exact absurd hpos (by decide)

/-- Behind the end of the header, each segment is stored. -/
theorem storing_run (s : Http) {before : List Segment} {segment : Segment} {p n : ℕ}
    (hbefore : ∀ t ∈ before, Waits t) (hnamed : Named segment)
    (hfound : strstr headEnd segment.2 = some p) (hn : n < storageSize.toNat)
    (hlen : httpGetContentLength segment.2 = UInt32.ofNat n) (more : List Segment)
    (hle : (segment.2.drop (p + 4) ++ arrived more).length ≤ n) :
    Storing segment p more (recvAll s (before ++ segment :: more)) := by
  induction more using List.reverseRecOn with
  | nil =>
    rw [recvAll_append_singleton]
    exact (waiting_run s hbefore).store hnamed hfound
  | append_singleton more t ih =>
    rw [arrived_append, arrived_cons, arrived_nil, List.append_nil, ← List.append_assoc,
      List.length_append] at hle
    have hstore := ih (by omega)
    rw [← List.cons_append, ← List.append_assoc, recvAll_append_singleton]
    refine hstore.next fun hfinish => ?_
    have hall := (hstore.finished_iff hn hlen (by omega)).1 hfinish
    exact List.eq_nil_of_length_eq_zero (by omega)

/-- Where the segments have come to: the header ends in one of them, and what is left of it and
    comes behind it is the body. -/
theorem cut_head {r : Response} {before behind : List Segment} {segment : Segment}
    (hcut : arrived (before ++ segment :: behind) = r.bytes)
    (hlow : (arrived before).length ≤ r.head.length)
    (hhigh : r.head.length ≤ (arrived before).length + segment.2.length) :
    ∃ inside rest, segment.2 = inside ++ rest ∧ arrived before ++ inside = r.head ∧
      rest ++ arrived behind = r.body := by
  rw [arrived_append, arrived_cons, Response.bytes] at hcut
  have hbefore : arrived before <+: r.head :=
    List.prefix_of_prefix_length_le ⟨_, hcut⟩ (List.prefix_append ..) hlow
  obtain ⟨inside, hinside⟩ := hbefore
  rw [← hinside, List.append_assoc, List.append_cancel_left_eq] at hcut
  rw [← hinside, List.length_append] at hhigh
  have hbegins : inside <+: segment.2 :=
    List.prefix_of_prefix_length_le ⟨_, hcut.symm⟩ (List.prefix_append ..)
      (Nat.le_of_add_le_add_left hhigh)
  obtain ⟨rest, hrest⟩ := hbegins
  rw [← hrest, List.append_assoc, List.append_cancel_left_eq] at hcut
  exact ⟨inside, rest, hrest.symm, hinside, hcut⟩

/-- With a length in each segment up to the end of the header, the segments in front wait. -/
theorem waits_before {r : Response} {before : List Segment} {inside : List UInt8}
    (hhead : arrived before ++ inside = r.head) (hne : inside ≠ [])
    (hbefore : ∀ t ∈ before, Named t) : ∀ t ∈ before, Waits t := by
  intro t ht
  obtain ⟨first, second, rfl⟩ := List.append_of_mem ht
  have hsplit : arrived first ++ (t.2 ++ (arrived second ++ inside)) = r.head := by
    rw [← hhead, arrived_append, arrived_cons]
    simp only [List.append_assoc]
  exact ⟨hbefore t ht, r.strstr_inside hsplit (List.append_ne_nil_of_right_ne_nil _ hne)⟩

theorem HeaderSeen.right {r : Response} {segments : List Segment} (s : Http) (w : W25x)
    (hcut : arrived segments = r.bytes) (h : HeaderSeen r segments) : Right s w r segments := by
  obtain ⟨before, segment, behind, rfl, hbefore, hlow, hhigh, hlen, hne⟩ := h
  obtain ⟨inside, rest, hsegment, hhead, hbody⟩ := cut_head hcut (by omega) hhigh
  have hinside : (arrived before).length + inside.length = r.head.length := by
    rw [← hhead, List.length_append]
  have hfour : 4 ≤ inside.length := by omega
  have hwaits := waits_before hhead (List.ne_nil_of_length_pos (by omega)) hbefore
  have hfound : strstr headEnd segment.2 = some (inside.length - 4) := by
    rw [hsegment]
    exact r.strstr_end hhead hfour rest
  have hrest : segment.2.drop (inside.length - 4 + 4) = rest := by
    rw [Nat.sub_add_cancel hfour, hsegment, List.drop_left]
  have hsmall := r.body_small
  have hsize : storageSize.toNat = 524288 := rfl
  have hnamed : Named segment := by
    have hpos := List.length_pos_iff.2 hne
    rw [Named, hlen, UInt32.lt_iff_toNat_lt, UInt32.lt_iff_toNat_lt, UInt32.toNat_ofNat',
      Nat.mod_eq_of_lt (by omega)]
    exact ⟨hpos, hsmall⟩
  intro k
  rcases Nat.lt_or_ge before.length k with hk | hk
  · -- the header is through
    obtain ⟨j, rfl⟩ : ∃ j, k = before.length + (j + 1) := ⟨k - before.length - 1, by omega⟩
    have htake : (before ++ segment :: behind).take (before.length + (j + 1)) =
        before ++ segment :: behind.take j := List.take_length_add_append _
    rw [htake]
    have hbegins : rest ++ arrived (behind.take j) <+: r.body := by
      rw [← hbody]
      conv_rhs => rw [← List.take_append_drop j behind, arrived_append, ← List.append_assoc]
      exact List.prefix_append ..
    have hstore := storing_run s hwaits hnamed hfound hsmall hlen (behind.take j) (by
      rw [hrest]
      exact hbegins.length_le)
    have harrived : arrived (before ++ segment :: behind.take j) = r.bytes ↔
        rest ++ arrived (behind.take j) = r.body := by
      rw [arrived_append, arrived_cons, hsegment, Response.bytes, ← hhead, List.append_assoc,
        List.append_assoc, List.append_cancel_left_eq, List.append_cancel_left_eq]
    have hfinished := hstore.finished_iff hsmall hlen (by
      rw [hrest]
      exact hbegins.length_le)
    rw [hrest] at hfinished
    have hbodyAll : (rest ++ arrived (behind.take j)).length = r.body.length ↔
        rest ++ arrived (behind.take j) = r.body :=
      ⟨hbegins.eq_of_length, congrArg List.length⟩
    refine ⟨(hfinished.trans hbodyAll).trans harrived.symm, fun hfinish => ?_⟩
    rw [hstore.stored_iff w hsmall, hrest]
    exact ⟨hlen, hbodyAll.1 (hfinished.1 hfinish)⟩
  · -- it has not been seen yet
    have hall : ∀ t ∈ before.take k, Waits t := fun t ht => hwaits t (List.mem_of_mem_take ht)
    have hwait := waiting_run s hall
    rw [List.take_append_of_le_length hk]
    have hshort : (arrived (before.take k)).length ≤ (arrived before).length := by
      conv_rhs => rw [← List.take_append_drop k before, arrived_append, List.length_append]
      exact Nat.le_add_right ..
    refine ⟨iff_of_false ?_ fun hall => ?_, fun hfinish => ?_⟩
    · rw [hwait.status]
      decide
    · have htotal := congrArg List.length hall
      rw [Response.bytes, List.length_append] at htotal
      omega
    · rw [hwait.status] at hfinish
      cases hfinish

/-- With all of the header in the first segment, and its length as most servers write it, the body
    may be cut anywhere. -/
theorem right_of_plain (s : Http) (w : W25x) {r : Response} (hplain : r.Plain) (hne : r.body ≠ [])
    {first : Segment} {behind : List Segment} (hcut : arrived (first :: behind) = r.bytes)
    (hfirst : r.head <+: first.2) : Right s w r (first :: behind) := by
  refine HeaderSeen.right s w hcut ⟨[], first, behind, rfl, by simp, ?_, ?_, ?_, hne⟩
  · rw [arrived_nil, List.length_nil, Nat.zero_add]
    exact r.head_length
  · rw [arrived_nil, List.length_nil, Nat.zero_add]
    exact hfirst.length_le
  · obtain ⟨more, hmore⟩ := hfirst
    rw [← hmore]
    exact hplain.length more

/-- Whatever the segments, a response is received rightly iff the segment with the end of its header
    has the length of the body in it, which is not zero, and each one in front of it a length. -/
theorem segmentsRight_iff (s : Http) (w : W25x) (r : Response) (segments : List Segment)
    (hcut : arrived segments = r.bytes) : Right s w r segments ↔ HeaderSeen r segments :=
  ⟨fun h => h.headerSeen hcut, fun h => h.right s w hcut⟩

/-- A response with one byte. -/
def response : Response where
  version := 49
  reason := [79, 75]
  fields := [⟨contentLengthField, [32, 49], List.cons_ne_nil _ _, by decide +kernel,
    by decide +kernel⟩]
  body := [120]
  version_digit := by decide
  reason_text := by decide +kernel
  length_named := ⟨_, List.mem_singleton_self _, rfl⟩
  length_right := by
    intro f hf _
    rw [List.mem_singleton.1 hf]
    exact ⟨[32], [49], [], rfl, by decide +kernel, by decide +kernel, by decide +kernel, rfl⟩
  body_small := by decide

theorem segmentsRight_iff_whole : Right idle ⟨fun _ => 0, [], 0⟩ response [(0, response.bytes)] ↔
    HeaderSeen response [(0, response.bytes)] :=
  segmentsRight_iff idle ⟨fun _ => 0, [], 0⟩ response [(0, response.bytes)] (List.append_nil _)

/-- It is cut behind the status line, and refused. -/
theorem not_right_cut :
    arrived [(0, response.bytes.take 17), (1, response.bytes.drop 17)] = response.bytes ∧
      ¬Right idle ⟨fun _ => 0, [], 0⟩ response
        [(0, response.bytes.take 17), (1, response.bytes.drop 17)] := by
  refine ⟨by decide +kernel, fun h => ?_⟩
  have hfinish := (h 2).1.2 (by decide +kernel)
  have herror : (recvAll idle [(0, response.bytes.take 17), (1, response.bytes.drop 17)]).1.status =
      .error := by decide +kernel
  cases herror.symm.trans hfinish

end EasyCore.HttpSegments
