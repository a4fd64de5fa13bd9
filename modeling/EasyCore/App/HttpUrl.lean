import EasyCore.App.HttpUpload

/-! From a URL to a request: `GetHost` (`my_stdc_func/my_stdc_func.c`) splits it into two arrays, and
    the download client (`applications/isp_http_tcp.c`) makes its request of them.

        [http://] H [:P] / F        http_host[64]  :  H [:P]
                                    http_path[128] :  F

    The port stays in the host, and nobody compares the host with the size of its array. -/

namespace EasyCore.HttpUrl
open IspHttp HttpUpload

/-! ### GetHost -/

/-- The arrays that `GetHost` is given. -/
inductive Target
  | web
  | file
  deriving DecidableEq

/-- `sizeof(http_host)` and `sizeof(http_path)`. -/
def Target.size : Target → ℕ
  | .web => 64
  | .file => 128

/-- Bytes that are written to one of them. -/
structure Store where
  target : Target
  pos : ℕ
  data : List UInt8
  deriving DecidableEq

def Store.Inside (st : Store) : Prop := st.pos + st.data.length ≤ st.target.size

abbrev Mem := Target → ℕ → UInt8

def Store.run (m : Mem) (st : Store) : Mem := fun t x =>
  if t = st.target ∧ st.pos ≤ x ∧ x < st.pos + st.data.length then st.data.getD (x - st.pos) 0
  else m t x

/-- The string in an array. -/
def Mem.string (m : Mem) (t : Target) : List UInt8 :=
  ((List.range t.size).map (m t)).takeWhile (· ≠ 0)

abbrev slash : UInt8 := 47
abbrev colon : UInt8 := 58

/-- What comes behind `http://` or `https://`. -/
def afterScheme (src : List UInt8) : List UInt8 :=
  if (chars "http://").isPrefixOf src then src.drop 7
  else if (chars "https://").isPrefixOf src then src.drop 8
  else src

/-- What `GetHost` writes, in its order; `sizeof(web)` and `sizeof(file)` are the sizes of
    pointers. -/
def getHostStores (src : List UInt8) : List Store :=
  [⟨.web, 0, [0, 0, 0, 0]⟩, ⟨.file, 0, [0, 0, 0, 0]⟩] ++
    if src = [] then []
    else
      let pA := afterScheme src
      match pA.findIdx? (· = slash) with
      | some n => [⟨.web, 0, pA.take n⟩, ⟨.file, 0, pA.drop (n + 1)⟩,
          ⟨.file, (pA.drop (n + 1)).length, [0]⟩, ⟨.web, n, [0]⟩]
      | none => [⟨.web, 0, pA⟩, ⟨.web, pA.length, [0]⟩]

/-- `GetHost`, with the port. -/
def getHost (m : Mem) (src : List UInt8) : Mem × ℤ :=
  let m := (getHostStores src).foldl Store.run m
  if src = [] then (m, 0)
  else
    match (m.string .web).findIdx? (· = colon) with
    | some i => (m, (atoi ((m.string .web).drop (i + 1))).toInt32.toInt)
    | none => (m, 80)

/-! ### The client -/

/-- `isp_start_http_download`, with what it returns. -/
def ispStartHttpDownload (web : List UInt8) (now : UInt32) (m : Mem) (s : Http) :
    Mem × Http × Bool :=
  if s.status = .init then
    if 128 < web.length then (m, s, false)
    else
      let host := getHost m web
      (host.1, IspHttp.ispStartHttpDownload (host.1.string .web) host.2 now s, true)
  else (m, s, false)

/-- The text of `send_httpget_pkg`. -/
def request (path host : List UInt8) : List UInt8 :=
  chars "GET /" ++ path ++ chars " HTTP/1.1\r\n" ++ chars "HOST: " ++ host ++
    chars "\r\nConnection: keep-alive\r\n\r\n"

/-- What `send_httpget_pkg` writes: `snprintf` to 128 bytes. -/
def sendHttpgetPkg (path host : List UInt8) : List UInt8 := (request path host).take 127

/-! ### The arrays -/

/-- What stands in front of the first slash, without the scheme. -/
def hostPart (src : List UInt8) : List UInt8 := (afterScheme src).takeWhile (· ≠ slash)

theorem afterScheme_length (src : List UInt8) : (afterScheme src).length ≤ src.length := by
  rw [afterScheme]
  split
  · simp
  · split
    · simp
    · exact le_rfl

theorem findIdx?_slash (s : List UInt8) :
    s.findIdx? (· = slash) =
      if (s.takeWhile (· ≠ slash)).length < s.length then some (s.takeWhile (· ≠ slash)).length
      else none := by
  induction s with
  | nil => rfl
  | cons c s ih =>
    rw [List.findIdx?_cons]
    rcases eq_or_ne c slash with rfl | hc
    · simp
    · simp only [hc, ih, decide_false, Bool.false_eq_true, if_false, ne_eq, not_false_eq_true,
        decide_true, List.takeWhile_cons_of_pos, List.length_cons, Nat.add_lt_add_iff_right]
      split <;> rfl

/-- `GetHost` stays inside the arrays exactly when the host has room in its array. -/
theorem getHost_inside_iff (src : List UInt8) (hsrc : src.length ≤ 128) :
    (∀ st ∈ getHostStores src, st.Inside) ↔ (hostPart src).length < 64 := by
  have hpA := afterScheme_length src
  have hpart : (hostPart src).length ≤ (afterScheme src).length := 
    (List.takeWhile_sublist _).length_le
  rcases eq_or_ne src [] with rfl | hne
  · exact ⟨fun _ => by decide, fun _ => by simp [getHostStores, Store.Inside, Target.size]⟩
  · simp only [getHostStores, hne, if_false, findIdx?_slash]
    rw [← hostPart]
    split
    · next n hn =>
      split at hn
      · next hlt =>
        obtain rfl := Option.some.inj hn
        simp only [List.cons_append, List.nil_append, List.mem_cons, List.not_mem_nil, or_false,
          forall_eq_or_imp, forall_eq, Store.Inside, Target.size, List.length_cons,
          List.length_nil, List.length_take, List.length_drop]
        omega
      · exact absurd hn.symm (Option.some_ne_none _)
    · next hn =>
      split at hn
      · exact absurd hn (Option.some_ne_none _)
      · next hge =>
        simp only [List.cons_append, List.nil_append, List.mem_cons, List.not_mem_nil, or_false,
          forall_eq_or_imp, forall_eq, Store.Inside, Target.size, List.length_cons,
          List.length_nil]
        omega

theorem getHost_inside_iff_short :
    (∀ st ∈ getHostStores (chars "http://a/b"), st.Inside) ↔
      (hostPart (chars "http://a/b")).length < 64 :=
  getHost_inside_iff (chars "http://a/b") (by decide)

/-- The start functions admit a host of 64 bytes, and its terminator is written behind the array. -/
theorem getHost_outside : (List.replicate 64 (97 : UInt8)).length ≤ 128 ∧
    ¬ ∀ st ∈ getHostStores (List.replicate 64 97), st.Inside := by
  refine ⟨by decide, fun h => ?_⟩
  have hlast := h ⟨.web, 64, [0]⟩ (by decide +kernel)
  exact absurd hlast (by simp [Store.Inside, Target.size])

/-! ### The strings in them -/

/-- A string that has room in its array, and its terminator. -/
theorem string_eq {m : Mem} {t : Target} {s : List UInt8} (hlen : s.length < t.size)
    (hs : ∀ c ∈ s, c ≠ 0) (hdata : ∀ i, i < s.length → m t i = s.getD i 0)
    (hend : m t s.length = 0) : m.string t = s := by
  have hsize : t.size = s.length + 1 + (t.size - (s.length + 1)) := by omega
  have hmap : (List.range s.length).map (m t) = s := by
    apply List.ext_getElem
    · simp
    · intro i hi hi'
      rw [List.getElem_map, List.getElem_range, hdata i hi', List.getD_eq_getElem _ _ hi']
  rw [Mem.string, hsize, List.range_add, List.range_succ, List.map_append, List.map_append, hmap,
    List.append_assoc, List.takeWhile_append_of_pos (by simpa using hs)]
  simp [hend]

/-- What is written in front of the data, at the begin of an array, is overwritten or stays behind
    the terminator. -/
theorem run_string (m : Mem) (w f : List UInt8) (hw : w.length < 64) (hf : f.length < 128)
    (hw0 : ∀ c ∈ w, c ≠ 0) (hf0 : ∀ c ∈ f, c ≠ 0) :
    let m' := [⟨.web, 0, [0, 0, 0, 0]⟩, ⟨.file, 0, [0, 0, 0, 0]⟩, ⟨.web, 0, w⟩, ⟨.file, 0, f⟩,
      ⟨.file, f.length, [0]⟩, ⟨.web, w.length, [0]⟩].foldl Store.run m
    m'.string .web = w ∧ m'.string .file = f := by
  constructor
  · apply string_eq hw hw0
    · intro i hi
      simp [Store.run, hi, Nat.not_le.2 hi]
    · simp [Store.run]
  · apply string_eq hf hf0
    · intro i hi
      simp [Store.run, hi, Nat.not_le.2 hi]
    · simp [Store.run]

theorem run_string_host (m : Mem) (w : List UInt8) (hw : w.length < 64) (hw0 : ∀ c ∈ w, c ≠ 0) :
    let m' := [⟨.web, 0, [0, 0, 0, 0]⟩, ⟨.file, 0, [0, 0, 0, 0]⟩, ⟨.web, 0, w⟩,
      ⟨.web, w.length, [0]⟩].foldl Store.run m
    m'.string .web = w ∧ m'.string .file = [] := by
  constructor
  · apply string_eq hw hw0
    · intro i hi
      simp [Store.run, hi, Nat.not_le.2 hi]
    · simp [Store.run]
  · apply string_eq (by decide) (by simp)
    · intro i hi
      exact absurd hi (by simp)
    · simp [Store.run]

/-! ### URLs -/

def portText (port : Option (List UInt8)) : List UInt8 :=
  match port with
  | none => []
  | some p => colon :: p

def pathText (path : Option (List UInt8)) : List UInt8 :=
  match path with
  | none => []
  | some f => slash :: f

/-- `[http://]H[:P][/F]`, with fields that have room in the arrays. -/
structure Url where
  scheme : Bool
  host : List UInt8
  port : Option (List UInt8)
  path : Option (List UInt8)
  hostChars : ∀ c ∈ host, c ≠ colon ∧ c ≠ slash ∧ c ≠ 0
  portDigits : ∀ p, port = some p → p ≠ [] ∧ (∀ c ∈ p, Decimal.isDigit c = true) ∧
    Decimal.value p < 65536
  pathChars : ∀ f, path = some f → f.length < 128 ∧ ∀ c ∈ f, c ≠ 0
  hostRoom : (host ++ portText port).length < 64

def Url.hostText (u : Url) : List UInt8 := u.host ++ portText u.port

def Url.rest (u : Url) : List UInt8 := u.hostText ++ pathText u.path

def Url.text (u : Url) : List UInt8 := (if u.scheme then chars "http://" else []) ++ u.rest

variable (u : Url)

theorem Url.port_chars {p : List UInt8} (h : u.port = some p) {c : UInt8} (hc : c ∈ p) :
    c ≠ colon ∧ c ≠ slash ∧ c ≠ 0 := by
  have hdigit := (Decimal.isDigit_iff c).1 ((u.portDigits p h).2.1 c hc)
  refine ⟨?_, ?_, ?_⟩ <;> rintro rfl <;> exact absurd hdigit (by decide)

theorem Url.hostText_chars : ∀ c ∈ u.hostText, c ≠ slash ∧ c ≠ 0 := by
  intro c hc
  rw [Url.hostText] at hc
  rcases List.mem_append.1 hc with hc | hc
  · exact (u.hostChars c hc).2
  · cases hport : u.port with
    | none =>
      rw [hport] at hc
      exact absurd hc List.not_mem_nil
    | some p =>
      rw [hport] at hc
      rcases List.mem_cons.1 hc with rfl | hc
      · exact ⟨by decide, by decide⟩
      · exact (u.port_chars hport hc).2

/-- A URL without a scheme does not look as if it had one. -/
theorem Url.rest_ne (word t : List UInt8) (hword : ∀ c ∈ word, c ≠ colon ∧ c ≠ slash) :
    u.rest ≠ word ++ colon :: slash :: t := by
  intro h
  have htake (xs : List UInt8) (hxs : ∀ c ∈ xs, c ≠ colon ∧ c ≠ slash) (ys : List UInt8) :
      (xs ++ ys).takeWhile (fun c => c ≠ colon ∧ c ≠ slash) =
        xs ++ ys.takeWhile fun c => c ≠ colon ∧ c ≠ slash :=
    List.takeWhile_append_of_pos (by simpa using hxs)
  have hleft : u.rest.takeWhile (fun c => c ≠ colon ∧ c ≠ slash) = u.host := by
    rw [Url.rest, Url.hostText, List.append_assoc,
      htake _ fun c hc => ⟨(u.hostChars c hc).1, (u.hostChars c hc).2.1⟩]
    cases u.port <;> cases u.path <;> simp [portText, pathText]
  have hright : (word ++ colon :: slash :: t).takeWhile (fun c => c ≠ colon ∧ c ≠ slash) = word := by
    rw [htake _ hword]
    simp
  have hhost : u.host = word := by rw [← hleft, h, hright]
  rw [Url.rest, Url.hostText, hhost, List.append_assoc] at h
  have hsame := List.append_cancel_left h
  cases hport : u.port with
  | none =>
    rw [hport] at hsame
    cases hpath : u.path with
    | none =>
      rw [hpath] at hsame
      exact absurd hsame (by simp [portText, pathText])
    | some f =>
      rw [hpath] at hsame
      exact absurd hsame (by simp [portText, pathText, slash, colon])
  | some p =>
    rw [hport] at hsame
    cases hp : p with
    | nil => exact (u.portDigits p hport).1 hp
    | cons c p' =>
      rw [hp] at hsame
      have hc : c = slash := by
        simp only [portText, List.cons_append, List.cons.injEq, true_and] at hsame
        exact hsame.1
      exact (u.port_chars hport (by rw [hp]; exact List.mem_cons_self ..)).2.1 hc

theorem Url.afterScheme_text : afterScheme u.text = u.rest := by
  rw [Url.text]
  cases u.scheme with
  | true =>
    rw [if_pos rfl, afterScheme, if_pos]
    · exact List.drop_left' (by decide)
    · exact List.isPrefixOf_iff_prefix.2 (List.prefix_append ..)
  | false =>
    rw [if_neg Bool.false_ne_true, List.nil_append, afterScheme, if_neg, if_neg]
    · intro hscheme
      obtain ⟨t, ht⟩ := List.isPrefixOf_iff_prefix.1 hscheme
      exact u.rest_ne (chars "https") (slash :: t) (by decide +kernel) ht.symm
    · intro hscheme
      obtain ⟨t, ht⟩ := List.isPrefixOf_iff_prefix.1 hscheme
      exact u.rest_ne (chars "http") (slash :: t) (by decide +kernel) ht.symm

theorem Url.takeWhile_rest : u.rest.takeWhile (· ≠ slash) = u.hostText := by
  rw [Url.rest, List.takeWhile_append_of_pos (by
    intro c hc
    simpa using (u.hostText_chars c hc).1)]
  cases u.path <;> simp [pathText]

theorem Url.hostText_of_none (h : u.port = none) : u.hostText = u.host := by
  rw [Url.hostText, h]
  exact List.append_nil _

theorem Url.port_of_host (h : u.hostText = u.host) : u.port = none := by
  have hsame : u.host ++ portText u.port = u.host ++ [] := by
    rw [List.append_nil]
    exact h
  have htext := List.append_cancel_left hsame
  cases hport : u.port with
  | none => rfl
  | some p =>
    rw [hport] at htext
    exact absurd htext (List.cons_ne_nil _ _)

theorem Url.port_of_empty (h : u.text = []) : u.port = none := by
  rw [Url.text, Url.rest, Url.hostText] at h
  have hport := (List.append_eq_nil_iff.1 (List.append_eq_nil_iff.1
    (List.append_eq_nil_iff.1 h).2).1).2
  cases hp : u.port with
  | none => rfl
  | some p =>
    rw [hp] at hport
    exact absurd hport (List.cons_ne_nil _ _)

/-- What `GetHost` leaves in the arrays. -/
theorem getHost_strings (m : Mem) (hne : u.text ≠ []) :
    (getHost m u.text).1.string .web = u.hostText ∧
      (getHost m u.text).1.string .file = u.path.getD [] := by
  have hmem : (getHost m u.text).1 = (getHostStores u.text).foldl Store.run m := by
    rw [getHost, if_neg hne]
    split <;> rfl
  have hroom : u.hostText.length < 64 := u.hostRoom
  have hchars : ∀ c ∈ u.hostText, c ≠ 0 := fun c hc => (u.hostText_chars c hc).2
  rw [hmem]
  cases hpath : u.path with
  | none =>
    have hrest : u.rest = u.hostText := by
      rw [Url.rest, hpath]
      exact List.append_nil _
    have hfind := findIdx?_slash u.rest
    rw [u.takeWhile_rest, hrest, if_neg (lt_irrefl _)] at hfind
    simp only [getHostStores, hne, if_false, u.afterScheme_text, hrest, hfind]
    exact run_string_host m u.hostText hroom hchars
  | some f =>
    obtain ⟨hf, hf0⟩ := u.pathChars f hpath
    have hrest : u.rest = u.hostText ++ slash :: f := by
      rw [Url.rest, hpath]
      rfl
    have hfind := findIdx?_slash u.rest
    rw [u.takeWhile_rest, if_pos (by rw [hrest]; simp)] at hfind
    have htake : u.rest.take u.hostText.length = u.hostText := by rw [hrest, List.take_left]
    have hdrop : u.rest.drop (u.hostText.length + 1) = f := by
      rw [hrest, List.drop_append, List.drop_eq_nil_of_le (by omega)]
      simp
    simp only [getHostStores, hne, if_false, u.afterScheme_text, hfind, htake, hdrop]
    exact run_string m u.hostText f hroom hf hchars hf0

theorem getHost_port (m : Mem) (hport : u.port = none) (hne : u.text ≠ []) :
    (getHost m u.text).2 = 80 := by
  have hmem : (getHost m u.text).1 = (getHostStores u.text).foldl Store.run m := by
    rw [getHost, if_neg hne]
    split <;> rfl
  have hstring := (getHost_strings u m hne).1
  rw [hmem, u.hostText_of_none hport] at hstring
  have hnone : u.host.findIdx? (· = colon) = none := by
    rw [List.findIdx?_eq_none_iff]
    intro c hc
    simpa using (u.hostChars c hc).1
  rw [getHost, if_neg hne, hstring, hnone]

/-! ### From a URL to a request -/

/-- `H`, `P` or 80, and all of the request for `F`. -/
structure Right (m : Mem) (s : Http) (now : UInt32) : Prop where
  accepted : (ispStartHttpDownload u.text now m s).2.2 = true
  hostname : (ispStartHttpDownload u.text now m s).2.1.cli.hostname = u.host
  port : (ispStartHttpDownload u.text now m s).2.1.cli.port =
    match u.port with
    | none => 80
    | some p => (Decimal.value p : ℤ)
  request : sendHttpgetPkg ((ispStartHttpDownload u.text now m s).1.string .file)
      ((ispStartHttpDownload u.text now m s).1.string .web) = request (u.path.getD []) u.host

theorem ispStartHttpDownload_eq (hlen : u.text.length ≤ 128) (m : Mem) {s : Http}
    (hs : s.status = .init) (now : UInt32) :
    ispStartHttpDownload u.text now m s =
      ((getHost m u.text).1, IspHttp.ispStartHttpDownload ((getHost m u.text).1.string .web)
        (getHost m u.text).2 now s, true) := by
  rw [ispStartHttpDownload, if_pos hs, if_neg (Nat.not_lt.2 hlen)]

theorem ispStartHttpDownload_cli {s : Http} (hs : s.status = .init) (hostname : List UInt8)
    (port : ℤ) (now : UInt32) :
    (IspHttp.ispStartHttpDownload hostname port now s).cli.hostname = hostname.take 63 ∧
      (IspHttp.ispStartHttpDownload hostname port now s).cli.port = port := by
  rw [IspHttp.ispStartHttpDownload, if_pos hs]
  exact ⟨rfl, rfl⟩

/-- The request is the right one, to the right server, exactly when the URL has no port, is not
    empty, and its request has room in the buffer. -/
theorem requestRight_iff (hlen : u.text.length ≤ 128) (m : Mem) {s : Http} (hs : s.status = .init)
    (now : UInt32) :
    Right u m s now ↔
      u.port = none ∧ u.text ≠ [] ∧ (request (u.path.getD []) u.host).length ≤ 127 := by
  have hstart := ispStartHttpDownload_eq u hlen m hs now
  obtain ⟨hhostname, hcliPort⟩ := ispStartHttpDownload_cli hs ((getHost m u.text).1.string .web)
    (getHost m u.text).2 now
  rcases eq_or_ne u.text [] with hempty | hne
  · refine ⟨fun h => ?_, fun h => absurd hempty h.2.1⟩
    have hport := h.port
    rw [hstart, hcliPort, getHost, if_pos hempty, u.port_of_empty hempty] at hport
    exact absurd hport (by decide : ¬ (0 : ℤ) = 80)
  · obtain ⟨hweb, hfile⟩ := getHost_strings u m hne
    have hroom : u.hostText.length ≤ 63 := Nat.le_of_lt_succ u.hostRoom
    rw [hweb, List.take_of_length_le hroom] at hhostname
    rw [hweb] at hstart hcliPort
    constructor
    · intro h
      have hhost := h.hostname
      have hrequest := h.request
      rw [hstart] at hhost hrequest
      have hnone : u.port = none := u.port_of_host (hhostname.symm.trans hhost)
      refine ⟨hnone, hne, ?_⟩
      dsimp only at hrequest
      rw [hweb, hfile, u.hostText_of_none hnone] at hrequest
      have hlength := congrArg List.length hrequest
      rw [sendHttpgetPkg, List.length_take] at hlength
      omega
    · rintro ⟨hnone, -, hfits⟩
      refine ⟨by rw [hstart], ?_, ?_, ?_⟩
      · rw [hstart, ← u.hostText_of_none hnone]
        exact hhostname
      · rw [hstart, hnone, hcliPort]
        exact getHost_port u m hnone hne
      · rw [hstart]
        dsimp only
        rw [hweb, hfile, u.hostText_of_none hnone, sendHttpgetPkg, List.take_of_length_le hfits]

/-- `http://a/b` -/
def plainUrl : Url where
  scheme := true
  host := chars "a"
  port := none
  path := some (chars "b")
  hostChars := by decide +kernel
  portDigits p hp := absurd hp.symm (Option.some_ne_none p)
  pathChars f hf := by
    obtain rfl := Option.some.inj hf
    decide +kernel
  hostRoom := by decide +kernel

theorem requestRight_iff_plain :
    Right plainUrl (fun _ _ => 0) idle 0 ↔
      plainUrl.port = none ∧ plainUrl.text ≠ [] ∧
        (request (plainUrl.path.getD []) plainUrl.host).length ≤ 127 :=
  requestRight_iff plainUrl (by decide +kernel) (fun _ _ => 0) rfl 0

/-- `http://a:8080/b` -/
def portUrl : Url where
  scheme := true
  host := chars "a"
  port := some (chars "8080")
  path := some (chars "b")
  hostChars := by decide +kernel
  portDigits p hp := by
    obtain rfl := Option.some.inj hp
    decide +kernel
  pathChars f hf := by
    obtain rfl := Option.some.inj hf
    decide +kernel
  hostRoom := by decide +kernel

/-- The client is given the host name `a:8080`. -/
theorem not_right_port : portUrl.text.length ≤ 128 ∧ ¬ Right portUrl (fun _ _ => 0) idle 0 := by
  have hlen : portUrl.text.length ≤ 128 := by decide +kernel
  have hne : portUrl.text ≠ [] := by decide +kernel
  refine ⟨hlen, fun h => ?_⟩
  have hhost := h.hostname
  rw [ispStartHttpDownload_eq portUrl hlen _ rfl, (ispStartHttpDownload_cli rfl _ _ _).1,
    (getHost_strings portUrl _ hne).1] at hhost
  exact absurd hhost (by decide +kernel)

end EasyCore.HttpUrl
