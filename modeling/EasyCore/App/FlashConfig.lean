import EasyCore.App.CJsonText

/-! The user configuration as a JSON document (`applications/flash_config.c`): what `makeJson` writes,
    and what `parseJson` reads. -/

namespace EasyCore.FlashConfig
open CJson

/-- The string in a field of `n` bytes: it ends with a NUL within the field. -/
abbrev CStr (n : ℕ) := { s : List UInt8 // 0 ∉ s ∧ s.length < n }

/-- `struct SIMCARD_APN`. -/
structure SimcardApn where
  ccid : CStr 28
  apn : CStr 32
  username : CStr 32
  password : CStr 32
  deriving DecidableEq

/-- `struct USER_CONFIG`. -/
structure UserConfig where
  disableWatchdog : UInt8
  serialbaud : Int16
  presenceStr : CStr 64
  tcpHost : CStr 64
  tcpPort : Int16
  openfireHostname : CStr 64
  openfireDomain : CStr 16
  openfirePort : Int16
  openfireUsername : CStr 32
  openfirePassword : CStr 32
  apninfo : SimcardApn
  otaFlag : UInt8
  otaNewfwAddress : UInt32
  otaNewfwSize : UInt16
  otaTargetFwMd5 : CStr 40
  bootloaderVerA : UInt8
  bootloaderVerB : UInt8
  deriving DecidableEq

/-- The characters of a key. -/
def key (s : String) : List UInt8 := s.toList.map fun c => c.toNat.toUInt8

/-- The document that `makeJson` builds. -/
def document (u : UserConfig) : List (List UInt8 × Scalar) :=
  [(key "DISABLE_WATCHDOG", .number u.disableWatchdog.toNat),
   (key "presence_str", .string u.presenceStr.1),
   (key "openfire_hostname", .string u.openfireHostname.1),
   (key "openfire_port", .number u.openfirePort.toInt),
   (key "openfire_domain", .string u.openfireDomain.1),
   (key "openfire_username", .string u.openfireUsername.1),
   (key "openfire_password", .string u.openfirePassword.1),
   (key "serialbaud", .number u.serialbaud.toInt),
   (key "tcp_host", .string u.tcpHost.1),
   (key "tcp_port", .number u.tcpPort.toInt),
   (key "CCID", .string u.apninfo.ccid.1),
   (key "APN", .string u.apninfo.apn.1),
   (key "USERNAME", .string u.apninfo.username.1),
   (key "PASSWORD", .string u.apninfo.password.1),
   (key "ota_flag", .number u.otaFlag.toNat),
   (key "ota_newfw_address", .number u.otaNewfwAddress.toNat),
   (key "ota_newfw_size", .number u.otaNewfwSize.toNat),
   (key "ota_target_fw_md5", .string u.otaTargetFwMd5.1),
   (key "bootloader_ver_a", .number u.bootloaderVerA.toNat),
   (key "bootloader_ver_b", .number u.bootloaderVerB.toNat),
   (key "JSON_FLAG", .string (key "JSON"))]

variable (D : Doubles)

/-- `makeJson`: the text. -/
def makeJson (u : UserConfig) : List UInt8 := print D (document u)

variable {D}

/-- `sprintf(field,"%s",...)` into a field of `n` bytes; `none` if it writes behind the field, or if
    there is no string. -/
def sprintf (n : ℕ) (item : Item D) : Option (CStr n) :=
  match item.valuestring with
  | none => none
  | some s =>
    let s := s.takeWhile (· ≠ 0)
    if h : 0 ∉ s ∧ s.length < n then some ⟨s, h⟩ else none

/-- `snprintf(field,sizeof(field),"%s",...)`. -/
def snprintf (n : ℕ) (item : Item D) : Option (CStr n) :=
  match item.valuestring with
  | none => none
  | some s =>
    let s := (s.takeWhile (· ≠ 0)).take (n - 1)
    if h : 0 ∉ s ∧ s.length < n then some ⟨s, h⟩ else none

/-- One `if (NULL != pSub)` of `parseJson`. -/
def getItem (name : List UInt8) (write : Item D → UserConfig → Option UserConfig) (json : Item D)
    (u : UserConfig) : Option UserConfig :=
  match json.getObjectItem name with
  | none => some u
  | some item => write item u

/-- A number goes to a field. -/
def getNumber (name : String) (set : ℤ → UserConfig → UserConfig) :
    Item D → UserConfig → Option UserConfig :=
  getItem (key name) fun item u => some (set item.valueint u)

/-- A string goes to a field of `n` bytes, by `sprintf` or `snprintf`. -/
def getString {n : ℕ} (name : String) (copy : Item D → Option (CStr n))
    (set : CStr n → UserConfig → UserConfig) : Item D → UserConfig → Option UserConfig :=
  getItem (key name) fun item u => (copy item).map fun s => set s u

/-- What `parseJson` reads from a document, in turn. -/
def fields : List (Item D → UserConfig → Option UserConfig) :=
  [getNumber "DISABLE_WATCHDOG" fun n u => { u with disableWatchdog := UInt8.ofInt n },
   getString "presence_str" (sprintf 64) fun s u => { u with presenceStr := s },
   getString "openfire_hostname" (sprintf 64) fun s u => { u with openfireHostname := s },
   getNumber "openfire_port" fun n u => { u with openfirePort := Int16.ofInt n },
   getString "openfire_domain" (sprintf 16) fun s u => { u with openfireDomain := s },
   getString "openfire_domain" (sprintf 32) fun s u => { u with openfireUsername := s },
   getString "openfire_domain" (sprintf 32) fun s u => { u with openfirePassword := s },
   getString "tcp_host" (sprintf 64) fun s u => { u with tcpHost := s },
   getNumber "tcp_port" fun n u => { u with tcpPort := Int16.ofInt n },
   getNumber "serialbaud" fun n u => { u with serialbaud := Int16.ofInt n },
   getString "CCID" (sprintf 28) fun s u => { u with apninfo.ccid := s },
   getString "APN" (snprintf 32) fun s u => { u with apninfo.apn := s },
   getString "USERNAME" (snprintf 32) fun s u => { u with apninfo.username := s },
   getString "PASSWORD" (snprintf 32) fun s u => { u with apninfo.password := s },
   getNumber "ota_flag" fun n u => { u with otaFlag := UInt8.ofInt n },
   getNumber "ota_newfw_address" fun n u => { u with otaNewfwAddress := UInt32.ofInt n },
   getNumber "ota_newfw_size" fun n u => { u with otaNewfwSize := UInt16.ofInt n },
   getString "ota_target_fw_md5" (snprintf 40) fun s u => { u with otaTargetFwMd5 := s },
   getNumber "bootloader_ver_a" fun n u => { u with bootloaderVerA := UInt8.ofInt n },
   getNumber "bootloader_ver_b" fun n u => { u with bootloaderVerB := UInt8.ofInt n }]

/-- The fields of a document; `none` is undefined behaviour. -/
def getAll (json : Item D) (u : UserConfig) : Option UserConfig :=
  fields.foldlM (fun u (field : Item D → UserConfig → Option UserConfig) => field json u) u

variable (D) in
/-- `parseJson`: the configuration, and what it returns. There is no `return` at its end: the caller
    finds what is `left` in the register. -/
def parseJson (left : ℤ) (text : List UInt8) (u : UserConfig) : Option (UserConfig × ℤ) :=
  match parse D text with
  | none => some (u, -1)
  | some json => (getAll json u).map fun u => (u, left)

/-! ### The documents -/

theorem fits_toNat {n : ℕ} (h : n < 2 ^ 32) : (Scalar.number n).Fits :=
  ⟨by omega, by exact_mod_cast h⟩

theorem fits_toInt (x : Int16) : (Scalar.number x.toInt).Fits := by
  have h₁ := x.le_toInt
  have h₂ := x.toInt_lt
  exact ⟨by omega, by omega⟩

theorem document_fits (u : UserConfig) : FitsAll (document u) := by
  have h8 : ∀ x : UInt8, (Scalar.number x.toNat).Fits := fun x =>
    fits_toNat (x.toNat_lt.trans (by decide))
  have h16 : ∀ x : UInt16, (Scalar.number x.toNat).Fits := fun x =>
    fits_toNat (x.toNat_lt.trans (by decide))
  have h32 : ∀ x : UInt32, (Scalar.number x.toNat).Fits := fun x => fits_toNat x.toNat_lt
  have hstr : ∀ {n : ℕ} (s : CStr n), (Scalar.string s.1).Fits := fun s => s.2.1
  simp only [FitsAll, document, List.forall_mem_cons]
  refine ⟨⟨by decide, h8 _⟩, ⟨by decide, hstr _⟩, ⟨by decide, hstr _⟩, ⟨by decide, fits_toInt _⟩,
    ⟨by decide, hstr _⟩, ⟨by decide, hstr _⟩, ⟨by decide, hstr _⟩, ⟨by decide, fits_toInt _⟩,
    ⟨by decide, hstr _⟩, ⟨by decide, fits_toInt _⟩, ⟨by decide, hstr _⟩, ⟨by decide, hstr _⟩,
    ⟨by decide, hstr _⟩, ⟨by decide, hstr _⟩, ⟨by decide, h8 _⟩, ⟨by decide, h32 _⟩,
    ⟨by decide, h16 _⟩, ⟨by decide, hstr _⟩, ⟨by decide, h8 _⟩, ⟨by decide, h8 _⟩,
    ⟨by decide, by rw [Scalar.Fits]; decide⟩, ?_⟩
  intro m hm
  cases hm

theorem document_names (u : UserConfig) :
    ((document u).map fun m => m.1.map tolower).Nodup := by
  have h : ((document u).map fun m => m.1.map tolower) =
      ["disable_watchdog", "presence_str", "openfire_hostname", "openfire_port", "openfire_domain",
        "openfire_username", "openfire_password", "serialbaud", "tcp_host", "tcp_port", "ccid",
        "apn", "username", "password", "ota_flag", "ota_newfw_address", "ota_newfw_size",
        "ota_target_fw_md5", "bootloader_ver_a", "bootloader_ver_b", "json_flag"].map key := by
    rfl
  rw [h]
  decide

/-- Names that differ in more than their case: each is found. -/
theorem getObjectItem_items {members : List (List UInt8 × Scalar)}
    (hnames : (members.map fun m => m.1.map tolower).Nodup) {m : List UInt8 × Scalar}
    (hm : m ∈ members) :
    (Item.object (items members) : Item D).getObjectItem m.1 = some m.2.item := by
  simp only [Item.getObjectItem, items]
  induction members with
  | nil => cases hm
  | cons one members ih =>
    rw [List.map_cons, List.nodup_cons] at hnames
    rw [List.map_cons, List.find?_cons]
    rcases List.mem_cons.1 hm with rfl | hm
    · simp
    · have hne : ¬one.1.map tolower = m.1.map tolower := by
        intro heq
        rw [heq] at hnames
        exact hnames.1 (List.mem_map.2 ⟨m, hm, rfl⟩)
      simp only [hne, decide_false]
      exact ih hnames.2 hm

variable (D) in
/-- The document, when it has been parsed. -/
def json (v : UserConfig) : Item D := .object (items (document v))

theorem getNumber_json {v : UserConfig} {name : String} {n : ℤ} (i : ℕ)
    (hi : (document v)[i]? = some (key name, .number n)) (set : ℤ → UserConfig → UserConfig)
    (u : UserConfig) :
    getNumber name set (json D v) u = some (set (D.toInt (D.ofInt n)) u) := by
  have h := getObjectItem_items (D := D) (document_names v) (List.mem_of_getElem? hi)
  rw [getNumber, getItem, json, h]
  rfl

theorem getString_json {v : UserConfig} {name : String} {k : ℕ} {s : CStr k} (i : ℕ)
    (hi : (document v)[i]? = some (key name, .string s.1)) {n : ℕ} (hn : k ≤ n)
    {copy : Item D → Option (CStr n)} (hcopy : copy = sprintf n ∨ copy = snprintf n)
    (set : CStr n → UserConfig → UserConfig) (u : UserConfig) :
    getString name copy set (json D v) u =
      some (set ⟨s.1, s.2.1, s.2.2.trans_le hn⟩ u) := by
  have h := getObjectItem_items (D := D) (document_names v) (List.mem_of_getElem? hi)
  have hs : s.1.takeWhile (· ≠ 0) = s.1 := by
    rw [List.takeWhile_eq_self_iff]
    intro c hc
    simpa using fun h0 : c = 0 => s.2.1 (h0 ▸ hc)
  have hlen := s.2.2.trans_le hn
  have htake : s.1.take (n - 1) = s.1 := List.take_of_length_le (by omega)
  rw [getString, getItem, json, h]
  rcases hcopy with rfl | rfl
  · simp only [sprintf, Scalar.item, Item.valuestring, hs, dif_pos (And.intro s.2.1 hlen),
      Option.map_some]
  · simp only [snprintf, Scalar.item, Item.valuestring, hs, htake,
      dif_pos (And.intro s.2.1 hlen), Option.map_some]

/-- A field of 16 bytes is copied to one of 32. -/
def widen (s : CStr 16) : CStr 32 := ⟨s.1, s.2.1, s.2.2.trans (by decide)⟩

variable (D) in
/-- What `parseJson` reads from the document of `v`: the user name and the password are read from the
    key of the domain, and the address goes through an `int`. -/
def readBack (v : UserConfig) : UserConfig :=
  { v with
    openfireUsername := widen v.openfireDomain
    openfirePassword := widen v.openfireDomain
    otaNewfwAddress := UInt32.ofInt (D.toInt (D.ofInt v.otaNewfwAddress.toNat)) }

/-- Fields that are read one after the other. -/
theorem foldlM_of_forall₂ (json : Item D) :
    ∀ {reads : List (Item D → UserConfig → Option UserConfig)}
      {sets : List (UserConfig → UserConfig)},
      List.Forall₂ (fun read set => ∀ u, read json u = some (set u)) reads sets → ∀ u,
      reads.foldlM (fun u (read : Item D → UserConfig → Option UserConfig) => read json u) u =
        some (sets.foldl (fun u set => set u) u) := by
  intro reads sets h
  induction h with
  | nil => intro u; rfl
  | cons hread _ ih =>
    intro u
    rw [List.foldlM_cons, hread]
    exact ih _

variable (D) in
/-- What the document of `v` makes of the structure, field by field. -/
def writes (v : UserConfig) : List (UserConfig → UserConfig) :=
  [fun u => { u with disableWatchdog := v.disableWatchdog },
   fun u => { u with presenceStr := v.presenceStr },
   fun u => { u with openfireHostname := v.openfireHostname },
   fun u => { u with openfirePort := v.openfirePort },
   fun u => { u with openfireDomain := v.openfireDomain },
   fun u => { u with openfireUsername := widen v.openfireDomain },
   fun u => { u with openfirePassword := widen v.openfireDomain },
   fun u => { u with tcpHost := v.tcpHost },
   fun u => { u with tcpPort := v.tcpPort },
   fun u => { u with serialbaud := v.serialbaud },
   fun u => { u with apninfo.ccid := v.apninfo.ccid },
   fun u => { u with apninfo.apn := v.apninfo.apn },
   fun u => { u with apninfo.username := v.apninfo.username },
   fun u => { u with apninfo.password := v.apninfo.password },
   fun u => { u with otaFlag := v.otaFlag },
   fun u => { u with
     otaNewfwAddress := UInt32.ofInt (D.toInt (D.ofInt v.otaNewfwAddress.toNat)) },
   fun u => { u with otaNewfwSize := v.otaNewfwSize },
   fun u => { u with otaTargetFwMd5 := v.otaTargetFwMd5 },
   fun u => { u with bootloaderVerA := v.bootloaderVerA },
   fun u => { u with bootloaderVerB := v.bootloaderVerB }]

theorem fields_json (hD : D.Exact) (v : UserConfig) :
    List.Forall₂ (fun read set => ∀ u, read (json D v) u = some (set u)) fields (writes D v) := by
  have h8 : ∀ x : UInt8, UInt8.ofInt (D.toInt (D.ofInt x.toNat)) = x := by
    intro x
    have hx := x.toNat_lt
    rw [hD.toInt_ofInt _ (by omega) (by omega)]
    apply UInt8.toNat_inj.1
    simp only [UInt8.ofInt, UInt8.toNat_ofNat']; omega
  have h16 : ∀ x : UInt16, UInt16.ofInt (D.toInt (D.ofInt x.toNat)) = x := by
    intro x
    have hx := x.toNat_lt
    rw [hD.toInt_ofInt _ (by omega) (by omega)]
    apply UInt16.toNat_inj.1
    simp only [UInt16.ofInt, UInt16.toNat_ofNat']; omega
  have hs : ∀ x : Int16, Int16.ofInt (D.toInt (D.ofInt x.toInt)) = x := by
    intro x
    have h₁ := x.le_toInt
    have h₂ := x.toInt_lt
    rw [hD.toInt_ofInt _ (by omega) (by omega), Int16.ofInt_toInt]
  refine .cons ?_ (.cons ?_ (.cons ?_ (.cons ?_ (.cons ?_ (.cons ?_ (.cons ?_ (.cons ?_
    (.cons ?_ (.cons ?_ (.cons ?_ (.cons ?_ (.cons ?_ (.cons ?_ (.cons ?_ (.cons ?_ (.cons ?_
    (.cons ?_ (.cons ?_ (.cons ?_ .nil)))))))))))))))))))
  · intro u; rw [getNumber_json 0 rfl, h8]
  · exact getString_json 1 rfl le_rfl (.inl rfl) _
  · exact getString_json 2 rfl le_rfl (.inl rfl) _
  · intro u; rw [getNumber_json 3 rfl, hs]
  · exact getString_json 4 rfl le_rfl (.inl rfl) _
  · exact getString_json 4 rfl (by decide) (.inl rfl) _
  · exact getString_json 4 rfl (by decide) (.inl rfl) _
  · exact getString_json 8 rfl le_rfl (.inl rfl) _
  · intro u; rw [getNumber_json 9 rfl, hs]
  · intro u; rw [getNumber_json 7 rfl, hs]
  · exact getString_json 10 rfl le_rfl (.inl rfl) _
  · exact getString_json 11 rfl le_rfl (.inr rfl) _
  · exact getString_json 12 rfl le_rfl (.inr rfl) _
  · exact getString_json 13 rfl le_rfl (.inr rfl) _
  · intro u; rw [getNumber_json 14 rfl, h8]
  · intro u; rw [getNumber_json 15 rfl]
  · intro u; rw [getNumber_json 16 rfl, h16]
  · exact getString_json 17 rfl le_rfl (.inr rfl) _
  · intro u; rw [getNumber_json 18 rfl, h8]
  · intro u; rw [getNumber_json 19 rfl, h8]

theorem getAll_json (hD : D.Exact) (v u : UserConfig) :
    getAll (json D v) u = some (readBack D v) :=
  foldlM_of_forall₂ (json D v) (fields_json hD v) u

/-- The document of a configuration is read back as `readBack`, whatever follows it. -/
theorem parseJson_makeJson (hD : D.Exact) (left : ℤ) (v u : UserConfig) (rest : List UInt8) :
    parseJson D left (makeJson D v ++ rest) u = some (readBack D v, left) := by
  rw [parseJson, makeJson, parse_print hD (by simp [document]) (document_fits v)]
  change (getAll (json D v) u).map _ = _
  rw [getAll_json hD]
  rfl

/-! ### The round trip -/

variable (D) in
/-- The configuration that was written is read, whatever the structure holds before. -/
def RoundTrip (left : ℤ) (v : UserConfig) : Prop :=
  ∀ u, ∃ r, parseJson D left (makeJson D v ++ [0]) u = some (v, r) ∧ 0 ≤ r

variable (D) in
/-- The user name and the password are those of the domain, and the address is an `int`, or comes
    back from the conversion. -/
def Survives (v : UserConfig) : Prop :=
  v.openfireUsername.1 = v.openfireDomain.1 ∧ v.openfirePassword.1 = v.openfireDomain.1 ∧
    (v.otaNewfwAddress < 0x80000000 ∨
      UInt32.ofInt (D.toInt (D.ofInt v.otaNewfwAddress.toNat)) = v.otaNewfwAddress)

theorem readBack_eq_iff (hD : D.Exact) (v : UserConfig) : readBack D v = v ↔ Survives D v := by
  have haddr : v.otaNewfwAddress < 0x80000000 →
      UInt32.ofInt (D.toInt (D.ofInt v.otaNewfwAddress.toNat)) = v.otaNewfwAddress := by
    intro hlt
    have hlt : v.otaNewfwAddress.toNat < 2 ^ 31 := hlt
    rw [hD.toInt_ofInt _ (by omega) (by omega)]
    apply UInt32.toNat_inj.1
    simp only [UInt32.ofInt, UInt32.toNat_ofNat']; omega
  constructor
  · intro h
    refine ⟨?_, ?_, .inr ?_⟩
    · exact (congrArg (fun u => u.openfireUsername.1) h).symm
    · exact (congrArg (fun u => u.openfirePassword.1) h).symm
    · exact congrArg UserConfig.otaNewfwAddress h
  · rintro ⟨hname, hpass, hfw⟩
    have hn : widen v.openfireDomain = v.openfireUsername := Subtype.ext hname.symm
    have hp : widen v.openfireDomain = v.openfirePassword := Subtype.ext hpass.symm
    have ha : UInt32.ofInt (D.toInt (D.ofInt v.otaNewfwAddress.toNat)) = v.otaNewfwAddress :=
      hfw.elim haddr id
    rw [readBack, ha, hn]
    cases v
    simp only at hn hp ⊢
    rw [← hn, hp]

/-- Zeros. -/
def blank : UserConfig where
  disableWatchdog := 0
  serialbaud := 0
  presenceStr := ⟨[], by decide⟩
  tcpHost := ⟨[], by decide⟩
  tcpPort := 0
  openfireHostname := ⟨[], by decide⟩
  openfireDomain := ⟨[], by decide⟩
  openfirePort := 0
  openfireUsername := ⟨[], by decide⟩
  openfirePassword := ⟨[], by decide⟩
  apninfo := ⟨⟨[], by decide⟩, ⟨[], by decide⟩, ⟨[], by decide⟩, ⟨[], by decide⟩⟩
  otaFlag := 0
  otaNewfwAddress := 0
  otaNewfwSize := 0
  otaTargetFwMd5 := ⟨[], by decide⟩
  bootloaderVerA := 0
  bootloaderVerB := 0

/-- A configuration with nothing but a user name, `a`. -/
def named : UserConfig := { blank with openfireUsername := ⟨[97], by decide⟩ }

end EasyCore.FlashConfig
