import EasyCore.App.FlashConfig
import EasyCore.App.FlashOpt

/-! The user configuration in the flash (`applications/flash_config.c`): `__write_uconfig` writes
    its document twice, and `__read_uconfig` takes the first copy that is a document. The power may
    go before any erase or program step.

        first copy   | old | FF .. | ne FF .. | new | new   | new      | new |
        second copy  | old | old   | old      | old | FF .. | ne FF .. | new | -/

namespace EasyCore.ConfigCrash
open CJson FlashConfig FlashOpt

/-- `USER_CONFIG_FLASH_SIZE`. -/
def userConfigFlashSize : ℕ := 1024 * 4

/-- `USER_CONFIG_FLASH_ADDRESS`: the region is the last one of the flash. -/
def userConfigFlashAddress : ℕ := 0x8000000 + 1024 * 512 - userConfigFlashSize

/-- `USER_CONFIG_FLASH_SIZE/2`. -/
def copySize : ℕ := userConfigFlashSize / 2

/-- The address of the second copy. -/
def secondCopy : ℕ := userConfigFlashAddress + copySize

/-- The memory from an address on, up to the end of the flash. -/
def text (m : Flash) (addr : ℕ) : List UInt8 :=
  bytesAt m addr (userConfigFlashAddress + userConfigFlashSize - addr)

variable (D : Doubles)

/-- `__write_uconfig`, when `makeJson` has memory: the steps in the flash. -/
def writeUconfig (w : Writer) (uconfig : UserConfig) : Writer × List FlashOp :=
  let jsonStr := makeJson D uconfig ++ [0]
  let first := program w userConfigFlashAddress copySize [jsonStr]
  let second := program first.1 secondCopy copySize [jsonStr]
  (second.1, first.2 ++ second.2)

/-- `__set_default_config`. -/
def setDefaultConfig : UserConfig :=
  { blank with
    openfireHostname := ⟨key "easy-iot.cc", by decide +kernel⟩
    openfirePort := 5222 }

/-- Where `__read_uconfig` has the configuration from. -/
inductive Source
  | first
  | second
  | default
  deriving DecidableEq

structure Restored where
  uconfig : UserConfig
  source : Source
  ops : List FlashOp

def cString (l : List UInt8) : List UInt8 := l.takeWhile (· ≠ 0)

/-- `__read_uconfig`; `left₁` and `left₂` are what the two calls of `parseJson` leave in the
    register. What has failed is written again: both copies, or the second one if the first does not
    contain it. -/
def readUconfig (left₁ left₂ : ℤ) (w : Writer) (m : Flash) (uconfig : UserConfig) :
    Option Restored :=
  match parseJson D left₁ (text m userConfigFlashAddress) uconfig with
  | none => none
  | some (uconfig, ret) =>
    if ret < 0 then
      match parseJson D left₂ (text m secondCopy) uconfig with
      | none => none
      | some (uconfig, ret) =>
        if ret < 0 then
          some ⟨setDefaultConfig, .default, (writeUconfig D w setDefaultConfig).2⟩
        else some ⟨uconfig, .second, (writeUconfig D w uconfig).2⟩
    else if cString (text m secondCopy) <:+: cString (text m userConfigFlashAddress) then
      some ⟨uconfig, .first, []⟩
    else
      some ⟨uconfig, .first,
        (program w secondCopy copySize [bytesAt m userConfigFlashAddress copySize]).2⟩

/-! ### What is to hold -/

/-- A copy of a configuration is at an address. -/
def CopyAt (m : Flash) (addr : ℕ) (v : UserConfig) : Prop :=
  bytesAt m addr ((makeJson D v).length + 1) = makeJson D v ++ [0]

/-- A valid stored state: each half holds a copy of the configuration. -/
structure Stored (m : Flash) (v : UserConfig) : Prop where
  first : CopyAt D m userConfigFlashAddress v
  second : CopyAt D m secondCopy v
  room : (makeJson D v).length < copySize

variable (left₁ left₂ : ℤ)

/-- The next `__read_uconfig` does not fail, and gives one of the two configurations, whatever is in
    the RAM. -/
def Restores (m : Flash) (old new : UserConfig) : Prop :=
  ∀ w uconfig, ∃ r, readUconfig D left₁ left₂ w m uconfig = some r ∧ r.source ≠ .default ∧
    (r.uconfig = old ∨ r.uconfig = new)

/-- That is so wherever the write is cut. -/
def CrashSafe (w : Writer) (m : Flash) (old new : UserConfig) : Prop :=
  ∀ k, Restores D left₁ left₂ (runAll m ((writeUconfig D w new).2.take k)) old new

/-! ### The texts -/

theorem copySize_pos : 0 < copySize := by decide

theorem pages_copy : pageSize * pagesMask copySize = copySize := by decide

theorem text_first (m : Flash) : text m userConfigFlashAddress =
    bytesAt m userConfigFlashAddress copySize ++ text m secondCopy :=
  bytesAt_add m userConfigFlashAddress copySize copySize

theorem text_second (m : Flash) : text m secondCopy = bytesAt m secondCopy copySize := rfl

variable {D} {m : Flash} {v old new : UserConfig}

/-- A copy is the beginning of a text. -/
theorem CopyAt.text {addr n : ℕ} (h : CopyAt D m addr v) (hlen : (makeJson D v).length < n) :
    ∃ rest, bytesAt m addr n = makeJson D v ++ rest := by
  obtain ⟨k, rfl⟩ : ∃ k, n = (makeJson D v).length + 1 + k := ⟨_, (Nat.add_sub_of_le hlen).symm⟩
  rw [CopyAt] at h
  rw [bytesAt_add, h, List.append_assoc]
  exact ⟨_, rfl⟩

/-- A document begins so. -/
theorem makeJson_head (v : UserConfig) : ∃ l, makeJson D v = [123, 10, 9] ++ 34 :: 68 :: l :=
  ⟨_, rfl⟩

theorem makeJson_pos (v : UserConfig) : 0 < (makeJson D v).length := by
  obtain ⟨l, h⟩ := makeJson_head (D := D) v
  rw [h]
  simp

theorem plain_erased (n : ℕ) : Plain (List.replicate n 255) := by
  intro c hc
  rw [List.eq_of_mem_replicate hc]
  decide

/-- A document that breaks off, and erased memory up to the end of the flash. -/
theorem parse_erased (hD : D.Exact) (v : UserConfig) {k n : ℕ} (hk : k < (makeJson D v).length)
    (hn : 0 < n) : parse D ((makeJson D v).take k ++ List.replicate n 255) = none := by
  obtain ⟨n, rfl⟩ := Nat.exists_eq_succ_of_ne_zero hn.ne'
  rw [List.replicate_succ]
  exact parse_torn hD (by simp [document]) (document_fits v) hk (.erased (plain_erased n))

/-- A document that breaks off, erased memory, and the other copy. -/
theorem parse_cut (hD : D.Exact) (new old : UserConfig) {k n : ℕ}
    (hk : k < (makeJson D new).length) (hn : 0 < n) (rest : List UInt8) :
    parse D ((makeJson D new).take k ++ (List.replicate n 255 ++ (makeJson D old ++ rest))) =
      none := by
  obtain ⟨n, rfl⟩ := Nat.exists_eq_succ_of_ne_zero hn.ne'
  obtain ⟨l, hl⟩ := makeJson_head (D := D) old
  have htorn : Torn (255 :: (List.replicate n 255 ++ [123, 10, 9]) ++ 34 :: 68 :: (l ++ rest)) := by
    refine .name ?_ (by simp) (by decide) _
    intro c hc
    rcases List.mem_append.1 hc with hc | hc
    · exact plain_erased n c hc
    · have hall : ∀ c ∈ ([123, 10, 9] : List UInt8), c ≠ 34 ∧ c ≠ 0 ∧ c ≠ 92 := by decide +kernel
      exact hall c hc
  have htext : List.replicate (n + 1) 255 ++ (makeJson D old ++ rest) =
      255 :: (List.replicate n 255 ++ [123, 10, 9]) ++ 34 :: 68 :: (l ++ rest) := by
    rw [hl, List.replicate_succ]
    simp
  rw [htext]
  exact parse_torn hD (by simp [document]) (document_fits new) hk htorn

/-! ### Cutting a write -/

theorem take_halfWords : ∀ (addr : ℕ) (data : List UInt8) (k : ℕ),
    (halfWords addr data).take k = halfWords addr (data.take (2 * k))
  | addr, lo :: hi :: data, k + 1 => by
    rw [Nat.mul_succ, List.take_succ_cons, List.take_succ_cons, halfWords, halfWords,
      List.take_succ_cons, take_halfWords]
  | _, _, 0 => by simp [halfWords]
  | _, [], _ + 1 => by simp [halfWords]
  | _, [_], k + 1 => by simp [halfWords, Nat.mul_succ]

theorem halfWords_length : ∀ (addr : ℕ) (data : List UInt8),
    (halfWords addr data).length = data.length / 2
  | addr, lo :: hi :: data => by
    rw [halfWords, List.length_cons, halfWords_length]
    simp only [List.length_cons]
    omega
  | _, [] => rfl
  | _, [_] => by simp [halfWords]

/-- A copy is written in one erase step and a step for each half word; cut behind some of these, it
    is the write of so much data. -/
theorem cut_program (w : Writer) (addr : ℕ) (json : List UInt8) :
    ∃ data, json <+: data ∧ data.length % 2 = 0 ∧
      (program w addr copySize [json]).2.length = data.length / 2 + 1 ∧
      ∀ m k, runAll m ((program w addr copySize [json]).2.take (k + 1)) =
        written m addr copySize (data.take (2 * k)) := by
  obtain ⟨fill, -, heven, hops⟩ := program_ops w addr copySize [json]
  rw [List.flatten_singleton] at heven hops
  have herases : erases addr copySize = [.erasePage addr] := by
    simp [erases, show pagesMask copySize = 1 by decide]
  refine ⟨json ++ fill, List.prefix_append .., heven, ?_, fun m k => ?_⟩
  · rw [hops, herases, List.singleton_append, List.length_cons, halfWords_length]
  · rw [hops, written, herases, List.singleton_append, List.take_succ_cons, take_halfWords]
    rfl

@[simp] theorem runAll_nil (m : Flash) : runAll m [] = m := rfl

theorem bytesAt_congr {m m' : Flash} {addr n : ℕ} (h : ∀ x, addr ≤ x → x < addr + n → m x = m' x) :
    bytesAt m addr n = bytesAt m' addr n :=
  List.map_congr_left fun i hi => h _ (by omega) (by have := List.mem_range.1 hi; omega)

/-- A write that is cut behind its first step: in the first copy, or in the second. -/
theorem cut_write (D : Doubles) (w : Writer) (new : UserConfig) : ∃ data data' : List UInt8,
    makeJson D new ++ [0] <+: data ∧ data.length % 2 = 0 ∧
    makeJson D new ++ [0] <+: data' ∧ data'.length % 2 = 0 ∧
      ∀ m k, runAll m ((writeUconfig D w new).2.take (k + 1)) =
        if k ≤ data.length / 2 then
          written m userConfigFlashAddress copySize (data.take (2 * k))
        else
          written (written m userConfigFlashAddress copySize data) secondCopy copySize
            (data'.take (2 * (k - (data.length / 2 + 1)))) := by
  obtain ⟨data, hdata, heven, hlen, hcut⟩ :=
    cut_program w userConfigFlashAddress (makeJson D new ++ [0])
  obtain ⟨data', hdata', heven', -, hcut'⟩ :=
    cut_program (program w userConfigFlashAddress copySize [makeJson D new ++ [0]]).1 secondCopy
      (makeJson D new ++ [0])
  refine ⟨data, data', hdata, heven, hdata', heven', fun m k => ?_⟩
  simp only [writeUconfig, List.take_append, runAll_append, hlen, hcut]
  split
  · next hk => rw [Nat.sub_eq_zero_of_le (by omega), List.take_zero, runAll_nil]
  · next hk =>
    have hnext : k + 1 - (data.length / 2 + 1) = k - (data.length / 2 + 1) + 1 := by omega
    rw [hnext, hcut', List.take_of_length_le (by omega)]

/-! ### What a cut write leaves -/

section Cut
variable {data : List UInt8} {addr k : ℕ}

theorem even_take (heven : data.length % 2 = 0) : (data.take (2 * k)).length % 2 = 0 := by
  rw [List.length_take]
  omega

/-- Less than the document: it breaks off, and the other copy is as it was. -/
theorem text_cut (hdata : makeJson D new ++ [0] <+: data) (heven : data.length % 2 = 0)
    (hk : 2 * k < (makeJson D new).length) (hroom : 2 * k ≤ copySize) :
    text (written m userConfigFlashAddress copySize (data.take (2 * k))) userConfigFlashAddress =
        (makeJson D new).take (2 * k) ++ (List.replicate (copySize - 2 * k) 255 ++
          text m secondCopy) ∧
      text (written m userConfigFlashAddress copySize (data.take (2 * k))) secondCopy =
        text m secondCopy := by
  have htake : data.take (2 * k) = (makeJson D new).take (2 * k) := by
    obtain ⟨more, rfl⟩ := hdata
    rw [List.append_assoc, List.take_append_of_le_length hk.le]
  have hlen : (data.take (2 * k)).length = 2 * k := by
    rw [htake, List.length_take]
    omega
  have hsecond : text (written m userConfigFlashAddress copySize (data.take (2 * k))) secondCopy =
      text m secondCopy := by
    refine bytesAt_congr fun x hx _ => written_behind _ _ _ _ (even_take heven) ?_ ?_
    · rw [hlen, pages_copy]
      omega
    · rwa [pages_copy]
  refine ⟨?_, hsecond⟩
  rw [text_first, hsecond, written_bytesAt _ _ _ _ (even_take heven) pages_copy.ge, hlen,
    List.take_of_length_le (by omega), htake, List.append_assoc]

/-- The document and more: it is there. -/
theorem copy_written (m : Flash) (addr : ℕ) (hdata : makeJson D new ++ [0] <+: data)
    (heven : data.length % 2 = 0) (hk : (makeJson D new).length ≤ 2 * k)
    (hroom : (makeJson D new).length ≤ copySize) :
    ∃ rest, bytesAt (written m addr copySize (data.take (2 * k))) addr copySize =
      makeJson D new ++ rest := by
  obtain ⟨more, rfl⟩ := hdata
  rw [written_bytesAt _ _ _ _ (even_take heven) pages_copy.ge, List.take_take, List.append_assoc,
    List.take_append, List.take_of_length_le (by omega), List.append_assoc]
  exact ⟨_, rfl⟩

/-- An erased copy. -/
theorem copy_erased : bytesAt (written m addr copySize []) addr copySize =
    List.replicate copySize 255 := by
  rw [written_bytesAt _ _ _ _ rfl pages_copy.ge]
  rfl

/-- The second copy is written behind the first one. -/
theorem first_written (m : Flash) (heven : data.length % 2 = 0) :
    bytesAt (written m secondCopy copySize data) userConfigFlashAddress copySize =
      bytesAt m userConfigFlashAddress copySize :=
  bytesAt_congr fun _ _ hx => written_before _ _ _ _ heven hx

end Cut

/-! ### Reading -/

variable {left₁ left₂ : ℤ}

/-- The first copy is read. -/
theorem read_first (left₂ : ℤ) (hD : D.Exact) {rest : List UInt8}
    (htext : text m userConfigFlashAddress = makeJson D v ++ rest) (hleft : 0 ≤ left₁) (w : Writer)
    (u : UserConfig) : ∃ r, readUconfig D left₁ left₂ w m u = some r ∧ r.source = .first ∧
      r.uconfig = readBack D v := by
  unfold readUconfig
  simp only [htext, parseJson_makeJson hD, if_neg (not_lt.2 hleft)]
  split <;> exact ⟨_, rfl, rfl, rfl⟩

/-- What is read from the first copy is one of the two configurations. -/
theorem Restores.readBack (hD : D.Exact) {rest : List UInt8}
    (htext : text m userConfigFlashAddress = makeJson D v ++ rest) (hleft : 0 ≤ left₁)
    (h : Restores D left₁ left₂ m old new) : readBack D v = old ∨ readBack D v = new := by
  obtain ⟨r, hr, -, hconfig⟩ := h ⟨(0, 0), 0, 0⟩ blank
  obtain ⟨r', hr', -, hback⟩ := read_first left₂ hD htext hleft ⟨(0, 0), 0, 0⟩ blank
  obtain rfl : r = r' := Option.some.inj (hr.symm.trans hr')
  rwa [hback] at hconfig

/-- The first copy is no document, and the second one is read. -/
theorem read_second (hD : D.Exact) {rest : List UInt8}
    (hfirst : parse D (text m userConfigFlashAddress) = none)
    (htext : text m secondCopy = makeJson D v ++ rest) (hleft : 0 ≤ left₂) (w : Writer)
    (u : UserConfig) : ∃ r, readUconfig D left₁ left₂ w m u = some r ∧ r.source = .second ∧
      r.uconfig = readBack D v := by
  have hparse : parseJson D left₁ (text m userConfigFlashAddress) u = some (u, -1) := by
    rw [parseJson, hfirst]
  unfold readUconfig
  simp only [hparse, htext, parseJson_makeJson hD, if_neg (not_lt.2 hleft)]
  exact ⟨_, rfl, rfl, rfl⟩

/-- A copy is not taken: it is no document, or the register holds a negative number. -/
def Refused (left : ℤ) (l : List UInt8) : Prop :=
  parse D l = none ∨ left < 0 ∧ ∃ v rest, l = makeJson D v ++ rest

theorem Refused.parseJson (hD : D.Exact) {left : ℤ} {l : List UInt8} (h : Refused (D := D) left l)
    (u : UserConfig) : ∃ u' ret, parseJson D left l u = some (u', ret) ∧ ret < 0 := by
  rcases h with h | ⟨hleft, v, rest, rfl⟩
  · exact ⟨u, -1, by rw [FlashConfig.parseJson, h], by decide⟩
  · exact ⟨_, left, parseJson_makeJson hD left v u rest, hleft⟩

/-- Neither copy is taken. -/
theorem not_restores (hD : D.Exact)
    (h₁ : Refused (D := D) left₁ (text m userConfigFlashAddress))
    (h₂ : Refused (D := D) left₂ (text m secondCopy)) : ¬Restores D left₁ left₂ m old new := by
  intro h
  obtain ⟨r, hr, hsource, -⟩ := h ⟨(0, 0), 0, 0⟩ blank
  obtain ⟨u₁, ret₁, hparse₁, hret₁⟩ := h₁.parseJson hD blank
  obtain ⟨u₂, ret₂, hparse₂, hret₂⟩ := h₂.parseJson hD u₁
  unfold readUconfig at hr
  simp only [hparse₁, if_pos hret₁, hparse₂, if_pos hret₂] at hr
  obtain rfl := Option.some.inj hr
  exact hsource rfl

/-! ### Every cut -/

/-- A flash whose first copy begins with a document that is read as one of the two. -/
theorem restores_first (hD : D.Exact) {rest : List UInt8}
    (hcopy : bytesAt m userConfigFlashAddress copySize = makeJson D v ++ rest) (hleft : 0 ≤ left₁)
    (hback : readBack D v = old ∨ readBack D v = new) : Restores D left₁ left₂ m old new := by
  intro w u
  have htext : text m userConfigFlashAddress = makeJson D v ++ (rest ++ text m secondCopy) := by
    rw [text_first, hcopy, List.append_assoc]
  obtain ⟨r, hr, hsource, hconfig⟩ := read_first left₂ hD htext hleft w u
  refine ⟨r, hr, ?_, hconfig ▸ hback⟩
  rw [hsource]
  decide

/-- With room for the new document, a register without a negative number, and configurations that
    come back, every cut is safe. -/
theorem crashSafe_of (hD : D.Exact) (w : Writer) (hst : Stored D m old)
    (hroom : (makeJson D new).length ≤ copySize) (hleft₁ : 0 ≤ left₁) (hleft₂ : 0 ≤ left₂)
    (hreads : readBack D old = old ∨ readBack D old = new)
    (hback : readBack D new = old ∨ readBack D new = new) :
    CrashSafe D left₁ left₂ w m old new := by
  intro k
  obtain ⟨data, data', hdata, heven, -, heven', hcut⟩ := cut_write D w new
  have hle : (makeJson D new).length < data.length := by
    have hle := hdata.length_le
    rw [List.length_append, List.length_singleton] at hle
    omega
  cases k with
  | zero =>
    obtain ⟨rest, hrest⟩ := hst.first.text hst.room
    rw [List.take_zero, runAll_nil]
    exact restores_first hD hrest hleft₁ hreads
  | succ k =>
    rw [hcut]
    rcases Nat.lt_or_ge (2 * k) (makeJson D new).length with hk | hk
    · -- the first copy breaks off, and the second one has not been touched
      rw [if_pos (by omega)]
      obtain ⟨htext, hsecond⟩ := text_cut (m := m) hdata heven hk (by omega)
      obtain ⟨rest, hrest⟩ := hst.second.text hst.room
      have hold : text m secondCopy = makeJson D old ++ rest := (text_second m).trans hrest
      have hfirst : parse D (text (written m userConfigFlashAddress copySize (data.take (2 * k)))
          userConfigFlashAddress) = none := by
        rw [htext, hold]
        exact parse_cut hD new old hk (by omega) rest
      intro w' u
      obtain ⟨r, hr, hsource, hconfig⟩ := read_second hD hfirst (hsecond.trans hold) hleft₂ w' u
      refine ⟨r, hr, ?_, hconfig ▸ hreads⟩
      rw [hsource]
      decide
    · -- the first copy is complete
      split
      · obtain ⟨rest, hrest⟩ := copy_written m userConfigFlashAddress hdata heven hk hroom
        exact restores_first hD hrest hleft₁ hback
      · have hwhole : data.take (2 * (data.length / 2 + 1)) = data :=
          List.take_of_length_le (by omega)
        obtain ⟨rest, hrest⟩ := copy_written (k := data.length / 2 + 1) m userConfigFlashAddress
          hdata heven (by omega) hroom
        rw [hwhole] at hrest
        exact restores_first hD ((first_written _ (even_take heven')).trans hrest) hleft₁ hback

/-- When the first copy has been erased, only the second one is left. -/
theorem CrashSafe.second_read (hD : D.Exact) {w : Writer} (hst : Stored D m old)
    (h : CrashSafe D left₁ left₂ w m old new) : 0 ≤ left₂ := by
  obtain ⟨data, data', hdata, heven, -, -, hcut⟩ := cut_write D w new
  obtain ⟨rest, hrest⟩ := hst.second.text hst.room
  have hold : text m secondCopy = makeJson D old ++ rest := (text_second m).trans hrest
  by_contra hneg
  have hfirst := h (0 + 1)
  rw [hcut, if_pos (Nat.zero_le _)] at hfirst
  obtain ⟨htext, hsecond⟩ := text_cut (m := m) (k := 0) hdata heven (makeJson_pos new)
    (Nat.zero_le _)
  refine not_restores hD (.inl ?_) (.inr ⟨not_le.1 hneg, old, rest, hsecond.trans hold⟩) hfirst
  rw [htext, hold]
  exact parse_cut hD new old (makeJson_pos new) copySize_pos rest

/-- When the second copy has been erased, only the first one is left. -/
theorem CrashSafe.first_read (hD : D.Exact) {w : Writer}
    (h : CrashSafe D left₁ left₂ w m old new) :
    (makeJson D new).length ≤ copySize ∧ 0 ≤ left₁ ∧
      (readBack D new = old ∨ readBack D new = new) := by
  obtain ⟨data, data', hdata, heven, -, -, hcut⟩ := cut_write D w new
  have hle : (makeJson D new).length ≤ data.length :=
    ((List.prefix_append ..).trans hdata).length_le
  have hlast := h (data.length / 2 + 1 + 1)
  rw [hcut, if_neg (by omega), Nat.sub_self, Nat.mul_zero, List.take_zero] at hlast
  have hnil : ([] : List UInt8).length % 2 = 0 := rfl
  have hcopy := first_written (written m userConfigFlashAddress copySize data) hnil
  have hsecond : bytesAt (written (written m userConfigFlashAddress copySize data) secondCopy
      copySize []) secondCopy copySize = List.replicate copySize 255 := copy_erased
  generalize written (written m userConfigFlashAddress copySize data) secondCopy copySize [] = m'
    at hlast hcopy hsecond
  have herased : parse D (text m' secondCopy) = none := by
    have hnone := parse_erased hD new (makeJson_pos new) copySize_pos
    rw [List.take_zero, List.nil_append] at hnone
    rwa [text_second, hsecond]
  rcases Nat.lt_or_ge copySize (makeJson D new).length with hlong | hroom
  · -- the end of the document has gone
    have htake : data.take copySize = (makeJson D new).take copySize := by
      obtain ⟨more, rfl⟩ := hdata
      rw [List.append_assoc, List.take_append_of_le_length hlong.le]
    refine absurd hlast (not_restores hD (.inl ?_) (.inl herased))
    rw [text_first, hcopy, text_second, hsecond, written_bytesAt _ _ _ _ heven pages_copy.ge,
      Nat.sub_eq_zero_of_le (hlong.le.trans hle), List.replicate_zero, List.append_nil, htake]
    exact parse_erased hD new hlong copySize_pos
  · have hwhole : data.take (2 * (data.length / 2 + 1)) = data :=
      List.take_of_length_le (by omega)
    obtain ⟨rest, hrest⟩ := copy_written (k := data.length / 2 + 1) m userConfigFlashAddress hdata
      heven (by omega) hroom
    rw [hwhole, ← hcopy] at hrest
    have htext : text m' userConfigFlashAddress =
        makeJson D new ++ (rest ++ text m' secondCopy) := by
      rw [text_first, hrest, List.append_assoc]
    have hleft₁ : 0 ≤ left₁ := by
      by_contra hneg
      exact not_restores hD (.inr ⟨not_le.1 hneg, new, _, htext⟩) (.inl herased) hlast
    exact ⟨hroom, hleft₁, hlast.readBack hD htext hleft₁⟩

/-- A copy that has been written is one. -/
theorem copyAt_written {data : List UInt8} (m : Flash) (addr : ℕ)
    (hdata : makeJson D v ++ [0] <+: data) (heven : data.length % 2 = 0)
    (hroom : (makeJson D v).length < copySize) :
    CopyAt D (written m addr copySize data) addr v := by
  have hlen : (makeJson D v ++ [0]).length = (makeJson D v).length + 1 := by
    rw [List.length_append, List.length_singleton]
  rw [CopyAt, written_bytesAt _ _ _ _ heven (by rw [pages_copy]; exact hroom), ← hlen,
    Nat.sub_eq_zero_of_le hdata.length_le, List.replicate_zero, List.append_nil]
  exact (List.prefix_iff_eq_take.1 hdata).symm

/-- A write that is not cut leaves a valid state. -/
theorem stored_writeUconfig (w : Writer) (m : Flash) (hroom : (makeJson D v).length < copySize) :
    Stored D (runAll m (writeUconfig D w v).2) v := by
  obtain ⟨data, data', hdata, heven, hdata', heven', hcut⟩ := cut_write D w v
  have hrun := hcut m ((writeUconfig D w v).2.length + data.length + data'.length + 1)
  rw [List.take_of_length_le (by omega), if_neg (by omega), List.take_of_length_le (by omega)]
    at hrun
  rw [hrun]
  refine ⟨?_, copyAt_written _ _ hdata' heven' hroom, hroom⟩
  have hfirst := copyAt_written m userConfigFlashAddress hdata heven hroom
  rw [CopyAt] at hfirst ⊢
  rw [← hfirst]
  refine bytesAt_congr fun x _ hx => written_before _ _ _ _ heven' ?_
  have hsecond : secondCopy = userConfigFlashAddress + copySize := rfl
  omega

/-- Before the first step, only the old document is there. -/
theorem CrashSafe.old_read (hD : D.Exact) {w : Writer} (hst : Stored D m old) (hleft : 0 ≤ left₁)
    (h : CrashSafe D left₁ left₂ w m old new) : readBack D old = old ∨ readBack D old = new := by
  obtain ⟨rest, hrest⟩ := hst.first.text hst.room
  have htext : text m userConfigFlashAddress = makeJson D old ++ (rest ++ text m secondCopy) := by
    rw [text_first, hrest, List.append_assoc]
  have hzero := h 0
  rw [List.take_zero, runAll_nil] at hzero
  exact hzero.readBack hD htext hleft

/-- A write can be cut anywhere exactly when the new document has room in a copy, the register never
    holds a negative number, and each of the two documents is read back as one of the two
    configurations. -/
theorem crashSafe_iff (hD : D.Exact) (left₁ left₂ : ℤ) (w : Writer) (m : Flash)
    (old new : UserConfig) (hst : Stored D m old) :
    CrashSafe D left₁ left₂ w m old new ↔
      (makeJson D new).length ≤ copySize ∧ 0 ≤ left₁ ∧ 0 ≤ left₂ ∧
        (readBack D old = old ∨ readBack D old = new) ∧
        (readBack D new = old ∨ readBack D new = new) := by
  constructor
  · intro h
    obtain ⟨hroom, hleft₁, hback⟩ := h.first_read hD
    exact ⟨hroom, hleft₁, h.second_read hD hst, h.old_read hD hst hleft₁, hback⟩
  · rintro ⟨hroom, hleft₁, hleft₂, hreads, hback⟩
    exact crashSafe_of hD w hst hroom hleft₁ hleft₂ hreads hback

/-- A flash to which a configuration of zeros has been written. -/
def zeros : Flash := runAll (fun _ => 255) (writeUconfig integers ⟨(0, 0), 0, 0⟩ blank).2

theorem stored_zeros : Stored integers zeros blank :=
  stored_writeUconfig _ _ (by decide +kernel)

theorem crashSafe_iff_zeros : CrashSafe integers 0 0 ⟨(0, 0), 0, 0⟩ zeros blank blank ↔
    (makeJson integers blank).length ≤ copySize ∧ (0 : ℤ) ≤ 0 ∧ (0 : ℤ) ≤ 0 ∧
      (readBack integers blank = blank ∨ readBack integers blank = blank) ∧
      (readBack integers blank = blank ∨ readBack integers blank = blank) :=
  crashSafe_iff integers_exact 0 0 ⟨(0, 0), 0, 0⟩ zeros blank blank stored_zeros

/-- Strings of control characters, of which each takes six bytes in the document. -/
def control : UserConfig :=
  { blank with
    presenceStr := ⟨List.replicate 63 1, by decide +kernel⟩
    tcpHost := ⟨List.replicate 63 1, by decide +kernel⟩
    openfireHostname := ⟨List.replicate 63 1, by decide +kernel⟩
    apninfo :=
      { ccid := ⟨List.replicate 27 1, by decide +kernel⟩
        apn := ⟨List.replicate 31 1, by decide +kernel⟩
        username := ⟨List.replicate 31 1, by decide +kernel⟩
        password := ⟨List.replicate 31 1, by decide +kernel⟩ } }

/-- The document is longer than a copy: when the second copy is erased its end goes with it, and
    neither copy is a document then. -/
theorem not_crashSafe_control : Stored integers zeros blank ∧ readBack integers control = control ∧
    ¬CrashSafe integers 0 0 ⟨(0, 0), 0, 0⟩ zeros blank control := by
  refine ⟨stored_zeros, by decide +kernel, fun h => ?_⟩
  have hlong : ¬(makeJson integers control).length ≤ copySize := by decide +kernel
  exact hlong (h.first_read integers_exact).1

end EasyCore.ConfigCrash
