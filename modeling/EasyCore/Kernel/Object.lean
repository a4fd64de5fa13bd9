import EasyCore.Kernel.RtList
import EasyCore.Lib.CString
import EasyCore.Lib.Runs

/-! The object system (`src/object.c`), and the devices that stand on it (`src/device.c`).

        rt_object_container[type].object_list ⇄ newest ⇄ ⋯ ⇄ oldest ⇄ (back to the header)

    Every kernel object is on the list of its class, from when it is initialised or allocated until it is
    detached or deleted. Names have eight characters at most, and are looked for from the newest object on.
    A device is found by its name, and counts its openers. -/

namespace EasyCore.Object
open Function Links Kernel CStr Runs

/-- `RT_NAME_MAX` -/
def rtNameMax : ℕ := 8

/-- `rt_strncpy`: the `n` bytes that it stores. -/
def rtStrncpy : ℕ → List UInt8 → List UInt8
  | 0, _ => []
  | n + 1, [] => 0 :: rtStrncpy n []
  | n + 1, c :: s => c :: rtStrncpy n s

/-- `rt_strncmp`; the difference of two characters is kept in a `signed char`, here without its sign. -/
def rtStrncmp : ℕ → List UInt8 → List UInt8 → UInt8
  | 0, _, _ => 0
  | count + 1, cs, ct =>
    let res := cs.headD 0 - ct.headD 0
    if res ≠ 0 ∨ cs.headD 0 = 0 then res else rtStrncmp count cs.tail ct.tail

/-- The lists of the `K` classes (`K` is `RT_Object_Class_Unknown`), with the header of each and a node in
    each object; and the fields of the objects. -/
structure Objects (K : ℕ) (τ : Type*) where
  list : RtList (Node (Fin K) τ)
  type : τ → Fin K
  isStatic : τ → Bool
  name : τ → List UInt8

/-- What a device has behind its object; of the hooks, whether there is one. -/
structure Device where
  flag : ℕ
  openFlag : ℕ
  refCount : ℕ
  hasInit : Bool
  hasOpen : Bool
  hasClose : Bool

structure System (K : ℕ) (τ : Type*) where
  objects : Objects K τ
  device : τ → Device

section Functions
variable {K : ℕ} {τ : Type*} [DecidableEq τ]

/-- The fields are set, and the object is put in front of the others of its class. -/
def attach (o : τ) (type : Fin K) (isStatic : Bool) (name : CString) (s : Objects K τ) : Objects K τ where
  list := rtListInsertAfter s.list (.head type) (.item o)
  type := update s.type o type
  isStatic := update s.isStatic o isStatic
  name := update s.name o (rtStrncpy rtNameMax name.chars)

/-- `rt_object_init` -/
def rtObjectInit (o : τ) (type : Fin K) (name : CString) (s : Objects K τ) : Objects K τ :=
  attach o type true name s

/-- `rt_object_allocate`, with what `rt_malloc` has answered. -/
def rtObjectAllocate (block : Option τ) (type : Fin K) (name : CString) (s : Objects K τ) :
    Option τ × Objects K τ :=
  match block with
  | none => (none, s)
  | some o => (some o, attach o type false name s)

/-- `rt_object_detach` -/
def rtObjectDetach (o : τ) (s : Objects K τ) : Objects K τ :=
  { s with list := rtListRemove s.list (.item o) }

/-- `rt_object_delete`: the block that it frees. -/
def rtObjectDelete (o : τ) (s : Objects K τ) : Option (τ × Objects K τ) :=
  if s.isStatic o then none else some (o, { s with list := rtListRemove s.list (.item o) })

/-- The loop over the list of a class; it goes wrong on the header of another one, or if it does not
    end. -/
def findLoop (s : Objects K τ) (type : Fin K) (name : CString) :
    ℕ → Node (Fin K) τ → Option (Option τ)
  | 0, _ => none
  | _ + 1, .head h => if h = type then some none else none
  | fuel + 1, .item o =>
    if rtStrncmp rtNameMax (s.name o) name.chars = 0 then some (some o)
    else findLoop s type name fuel (s.list.next (.item o))

/-- `rt_object_find`; the assertion is that it is not called in an interrupt. -/
def rtObjectFind (fuel : ℕ) (nest : ℕ) (name : Option CString) (type : ℕ) (s : Objects K τ) :
    Option (Option τ) :=
  match name with
  | none => some none
  | some name =>
    if type > K then some none
    else if nest ≠ 0 then none
    else if h : type < K then findLoop s ⟨type, h⟩ name fuel (s.list.next (.head ⟨type, h⟩))
    -- `RT_Object_Class_Unknown` itself passes the check, and reads behind the containers
    else none

/-! ### Devices -/

def flagStandalone : ℕ := 0x008
def flagActivated : ℕ := 0x010
def oflagOpen : ℕ := 0x008
def oflagClose : ℕ := 0x000

def eok : ℤ := 0
def enosys : ℤ := 6
def ebusy : ℤ := 7
def error : ℤ := 1

/-- `rt_device_find`; `device` is `RT_Object_Class_Device`. -/
def rtDeviceFind (device : Fin K) (fuel : ℕ) (name : CString) (s : Objects K τ) : Option (Option τ) :=
  findLoop s device name fuel (s.list.next (.head device))

/-- `rt_device_register` -/
def rtDeviceRegister (device : Fin K) (fuel : ℕ) (dev : τ) (name : CString) (flags : ℕ)
    (s : System K τ) : Option (ℤ × System K τ) :=
  (rtDeviceFind device fuel name s.objects).map fun found =>
    if found.isSome then (-error, s)
    else (eok, { objects := rtObjectInit dev device name s.objects
                 device := update s.device dev { s.device dev with flag := flags, refCount := 0 } })

/-- `rt_device_unregister` -/
def rtDeviceUnregister (dev : τ) (s : System K τ) : System K τ :=
  { s with objects := rtObjectDetach dev s.objects }

/-- `rt_device_init`, with what the hook answers. -/
def rtDeviceInit (answer : ℤ) (dev : Device) : ℤ × Device :=
  if dev.hasInit = true ∧ ¬ dev.flag &&& flagActivated ≠ 0 then
    if answer ≠ eok then (answer, dev)
    else (answer, { dev with flag := dev.flag ||| flagActivated })
  else (eok, dev)

/-- The loop of `rt_device_init_all`. -/
def initAllLoop (device : Fin K) (answer : τ → ℤ) (list : RtList (Node (Fin K) τ)) :
    ℕ → Node (Fin K) τ → (τ → Device) → Option (τ → Device)
  | 0, _, _ => none
  | _ + 1, .head h, devs => if h = device then some devs else none
  | fuel + 1, .item o, devs =>
    initAllLoop device answer list fuel (list.next (.item o))
      (update devs o (rtDeviceInit (answer o) (devs o)).2)

/-- `rt_device_init_all` -/
def rtDeviceInitAll (device : Fin K) (fuel : ℕ) (answer : τ → ℤ) (s : System K τ) :
    Option (System K τ) :=
  (initAllLoop device answer s.objects.list fuel (s.objects.list.next (.head device)) s.device).map
    fun devs => { s with device := devs }

/-- What a hook answers; without one, all is well. -/
def hookAnswer (hook : Bool) (answer : ℤ) : ℤ := if hook then answer else eok

/-- A device that is not initialised yet is, before it is opened. -/
def activate (answer : ℤ) (dev : Device) : ℤ × Device :=
  if dev.flag &&& flagActivated ≠ 0 then (eok, dev)
  else if hookAnswer dev.hasInit answer ≠ eok then (answer, dev)
  else (eok, { dev with flag := dev.flag ||| flagActivated })

/-- The second half of `rt_device_open`: the openers are counted before the hook is called. -/
def openHook (oflag : ℕ) (answer : ℤ) (dev : Device) : Option (ℤ × Device) :=
  if dev.flag &&& flagStandalone ≠ 0 ∧ dev.openFlag &&& oflagOpen ≠ 0 then some (-ebusy, dev)
  else
    let dev := { dev with refCount := (dev.refCount + 1) % 256 }
    if dev.refCount = 0 then none
    else
      let result := hookAnswer dev.hasOpen answer
      if result = eok ∨ result = -enosys then
        some (result, { dev with openFlag := oflag ||| oflagOpen })
      else some (result, dev)

/-- `rt_device_open` -/
def rtDeviceOpen (oflag : ℕ) (initAnswer answer : ℤ) (dev : Device) : Option (ℤ × Device) :=
  if (activate initAnswer dev).1 ≠ eok then some (activate initAnswer dev)
  else openHook oflag answer (activate initAnswer dev).2

/-- `rt_device_close` -/
def rtDeviceClose (answer : ℤ) (dev : Device) : ℤ × Device :=
  if dev.refCount = 0 then (-error, dev)
  else
    let dev := { dev with refCount := dev.refCount - 1 }
    if dev.refCount ≠ 0 then (eok, dev)
    else
      let result := hookAnswer dev.hasClose answer
      if result = eok ∨ result = -enosys then (result, { dev with openFlag := oflagClose })
      else (result, dev)

end Functions

/-! ### Names -/

/-- A copied name compares as equal if the first characters are. -/
theorem rtStrncmp_rtStrncpy : ∀ (n : ℕ) {s t : List UInt8}, 0 ∉ s → 0 ∉ t →
    (rtStrncmp n (rtStrncpy n s) t = 0 ↔ s.take n = t.take n)
  | 0, _, _, _, _ => iff_of_true rfl rfl
  | n + 1, [], [], _, _ => by
      rw [rtStrncpy, rtStrncmp, List.headD_cons, if_pos (.inr rfl)]
      exact iff_of_true rfl rfl
  | n + 1, [], d :: t, _, ht => by
      have hd : (0 : UInt8) - d ≠ 0 := fun h => ht (sub_eq_zero.1 h ▸ List.mem_cons_self)
      rw [rtStrncpy, rtStrncmp, List.headD_cons, List.headD_cons, if_pos (.inl hd)]
      exact iff_of_false hd (List.cons_ne_nil d _).symm
  | n + 1, c :: s, [], hs, _ => by
      have hc : c - 0 ≠ 0 := fun h => hs (sub_eq_zero.1 h ▸ List.mem_cons_self)
      rw [rtStrncpy, rtStrncmp, List.headD_cons, List.headD_nil, if_pos (.inl hc)]
      exact iff_of_false hc (List.cons_ne_nil c _)
  | n + 1, c :: s, d :: t, hs, ht => by
      rw [rtStrncpy, rtStrncmp, List.headD_cons, List.headD_cons]
      rcases eq_or_ne c d with rfl | hne
      · have hc : ¬ (c - c ≠ 0 ∨ c = 0) := by
          rintro (h | rfl)
          · exact h (sub_self c)
          · exact hs List.mem_cons_self
        rw [if_neg hc, List.take_succ_cons, List.take_succ_cons, List.cons_inj_right]
        exact rtStrncmp_rtStrncpy n (List.not_mem_of_not_mem_cons hs) (List.not_mem_of_not_mem_cons ht)
      · have hsub : c - d ≠ 0 := fun h => hne (sub_eq_zero.1 h)
        rw [if_pos (.inl hsub)]
        exact iff_of_false hsub fun h => hne (List.cons.inj h).1

/-- Names are the same if their first eight characters are. -/
def SameName (s t : CString) : Prop := s.take rtNameMax = t.take rtNameMax

instance (s t : CString) : Decidable (SameName s t) := inferInstanceAs (Decidable (_ = _))

theorem rtStrncmp_name (s t : CString) :
    rtStrncmp rtNameMax (rtStrncpy rtNameMax s.chars) t.chars = 0 ↔ SameName s t := by
  rw [rtStrncmp_rtStrncpy rtNameMax s.no_nul t.no_nul, SameName, CString.ext_iff]
  rfl

/-! ### What the lists are for -/

section Runs
variable {K : ℕ} {τ : Type*} [DecidableEq τ]

/-- An object in the abstract: what it is, how it was named, and whether it is static. -/
structure Entry (τ : Type*) where
  object : τ
  name : CString
  isStatic : Bool

/-- The objects of each class, the newest one first. -/
abbrev Directory (K : ℕ) (τ : Type*) := Fin K → List (Entry τ)

namespace Directory
variable (d : Directory K τ)

def objects (type : Fin K) : List τ := (d type).map Entry.object

def Live (o : τ) : Prop := ∃ type, o ∈ objects d type

def add (type : Fin K) (e : Entry τ) : Directory K τ := update d type (e :: d type)

def remove (o : τ) : Directory K τ := fun type => (d type).filter fun e => e.object ≠ o

/-- The newest object of the class with this name. -/
def find (type : Fin K) (name : CString) : Option τ :=
  ((d type).find? fun e => SameName e.name name).map Entry.object

end Directory

/-- The calls. One that walks along a list comes with its turns, one that calls a hook with what that
    answers; `reuse` is whatever becomes of the memory of an object. -/
inductive Op (K : ℕ) (τ : Type*)
  | init (o : τ) (type : Fin K) (name : CString)
  | allocate (block : Option τ) (type : Fin K) (name : CString)
  | detach (o : τ)
  | delete (o : τ)
  | reuse (o : τ) (next prev : Node (Fin K) τ) (type : Fin K) (isStatic : Bool) (name : List UInt8)
  | register (dev : τ) (name : CString) (flags fuel : ℕ)
  | unregister (dev : τ)
  | initAll (fuel : ℕ) (answer : τ → ℤ)
  | initDevice (dev : τ) (answer : ℤ)
  | openDevice (dev : τ) (oflag : ℕ) (initAnswer answer : ℤ)
  | closeDevice (dev : τ) (answer : ℤ)

/-- A call; one that goes wrong leaves everything as it is. -/
def step (device : Fin K) (s : System K τ) : Op K τ → System K τ
  | .init o type name => { s with objects := rtObjectInit o type name s.objects }
  | .allocate block type name => { s with objects := (rtObjectAllocate block type name s.objects).2 }
  | .detach o => { s with objects := rtObjectDetach o s.objects }
  | .delete o => ((rtObjectDelete o s.objects).map fun r => { s with objects := r.2 }).getD s
  | .reuse o next prev type isStatic name => { s with objects :=
      { list := (s.objects.list.setNext (.item o) next).setPrev (.item o) prev
        type := update s.objects.type o type
        isStatic := update s.objects.isStatic o isStatic
        name := update s.objects.name o name } }
  | .register dev name flags fuel => ((rtDeviceRegister device fuel dev name flags s).map Prod.snd).getD s
  | .unregister dev => rtDeviceUnregister dev s
  | .initAll fuel answer => (rtDeviceInitAll device fuel answer s).getD s
  | .initDevice dev answer =>
    { s with device := update s.device dev (rtDeviceInit answer (s.device dev)).2 }
  | .openDevice dev oflag initAnswer answer =>
    ((rtDeviceOpen oflag initAnswer answer (s.device dev)).map fun r =>
      { s with device := update s.device dev r.2 }).getD s
  | .closeDevice dev answer =>
    { s with device := update s.device dev (rtDeviceClose answer (s.device dev)).2 }

/-- What a call does to the directory. -/
def apply (device : Fin K) (d : Directory K τ) : Op K τ → Directory K τ
  | .init o type name => d.add type ⟨o, name, true⟩
  | .allocate (some o) type name => d.add type ⟨o, name, false⟩
  | .detach o | .delete o | .unregister o => d.remove o
  | .register dev name _ _ => if (d.find device name).isSome then d else d.add device ⟨dev, name, true⟩
  | _ => d

/-- What the callers see to: an object is not set up twice, only what is there is taken away, the memory
    of a static object is not freed, and devices are registered. A search has enough turns. -/
def Allowed (device : Fin K) (d : Directory K τ) : Op K τ → Prop
  | .init o type _ | .allocate (some o) type _ => ¬ d.Live o ∧ type ≠ device
  | .detach o | .unregister o => d.Live o
  | .delete o => ∃ type, ∃ e ∈ d type, e.object = o ∧ e.isStatic = false
  | .reuse o _ _ _ _ _ => ¬ d.Live o
  | .register dev name _ fuel => (d device).length < fuel ∧ (d.find device name = none → ¬ d.Live dev)
  | _ => True

instance (d : Directory K τ) (o : τ) : Decidable (d.Live o) :=
  inferInstanceAs (Decidable (∃ type, o ∈ d.objects type))

instance (device : Fin K) (d : Directory K τ) : ∀ op, Decidable (Allowed device d op)
  | .init o type _ | .allocate (some o) type _ =>
    inferInstanceAs (Decidable (¬ d.Live o ∧ type ≠ device))
  | .detach o | .unregister o => inferInstanceAs (Decidable (d.Live o))
  | .delete o => inferInstanceAs (Decidable (∃ type, ∃ e ∈ d type, e.object = o ∧ e.isStatic = false))
  | .reuse o _ _ _ _ _ => inferInstanceAs (Decidable (¬ d.Live o))
  | .register dev name _ fuel =>
    inferInstanceAs (Decidable ((d device).length < fuel ∧ (d.find device name = none → ¬ d.Live dev)))
  | .allocate none _ _ | .initAll _ _ | .initDevice _ _ | .openDevice _ _ _ _ | .closeDevice _ _ =>
    inferInstanceAs (Decidable True)

/-- The lists hold the objects of the directory. -/
structure Holds (d : Directory K τ) (s : Objects K τ) : Prop where
  linked : Linked s.list (fun _ => True) d.Live d.objects
  isStatic : ∀ type, ∀ e ∈ d type, s.isStatic e.object = e.isStatic
  name : ∀ type, ∀ e ∈ d type, s.name e.object = rtStrncpy rtNameMax e.name.chars

/-! ### One call -/

section Lists
variable {m : RtList (Node (Fin K) τ)} {V : Fin K → Prop} {C C' : τ → Prop} {L : Fin K → List τ}
  {o : τ}

omit [DecidableEq τ] in
/-- Nodes that are on no list need not be kept. -/
theorem linked_forget (q : Linked m V C L) (hC : ∀ u, C' u → C u)
    (hL : ∀ h u, V h → u ∈ L h → C' u) : Linked m V C' L :=
  ⟨q.ring, q.uniq, fun hV hu => hL _ _ hV hu, fun hu hno => q.alone (hC _ hu) hno⟩

/-- A node that is on no list may hold anything. -/
theorem linked_reuse (q : Linked m V C L) (ho : ∀ h, V h → o ∉ L h) (hC : ¬ C o)
    (x y : Node (Fin K) τ) : Linked ((m.setNext (.item o) x).setPrev (.item o) y) V C L := by
  refine ⟨fun h hV => ?_, q.uniq, q.known, fun {u} hu hno => ?_⟩
  · have hne : ∀ z ∈ nodes L h, z ≠ .item o := fun z hz e => ho h hV (mem_nodes_item.1 (e ▸ hz))
    exact (q.ring h hV).congr (fun z hz => update_of_ne (hne z hz) ..) fun z hz =>
      update_of_ne (hne z hz) ..
  · have hne : (Node.item u : Node (Fin K) τ) ≠ .item o := fun e => hC (Node.item.inj e ▸ hu)
    have hu' := q.alone hu hno
    exact ⟨(update_of_ne hne ..).trans hu'.1, (update_of_ne hne ..).trans hu'.2⟩

/-- The links that a new node holds are not read when it is inserted. -/
theorem rtListInsertAfter_init (m : RtList (Node (Fin K) τ)) (h : Fin K) (o : τ) :
    rtListInsertAfter (rtListInit m (.item o)) (.head h) (.item o)
      = rtListInsertAfter m (.head h) (.item o) := by
  have hne : (Node.head h : Node (Fin K) τ) ≠ .item o := by simp
  have hnext : (rtListInit m (.item o)).next (.head h) = m.next (.head h) := by
    rw [rtListInit_next, update_of_ne hne]
  rw [RtList.mk.injEq, rtListInsertAfter_next, rtListInsertAfter_next, rtListInsertAfter_prev,
    rtListInsertAfter_prev, hnext, rtListInit_next, rtListInit_prev, update_idem]
  refine ⟨rfl, funext fun z => ?_⟩
  rcases eq_or_ne z (.item o) with rfl | hz
  · rw [update_self, update_self]
  · rw [update_of_ne hz, update_of_ne hz]
    rcases eq_or_ne z (m.next (.head h)) with rfl | hz'
    · rw [update_self, update_self]
    · rw [update_of_ne hz', update_of_ne hz', update_of_ne hz]

end Lists

namespace Directory
variable {d : Directory K τ} {type : Fin K} {e : Entry τ} {o : τ}

omit [DecidableEq τ] in
theorem objects_add : (d.add type e).objects = push d.objects type e.object := by
  funext h
  rcases eq_or_ne h type with rfl | hh
  · rw [push_self, objects, add, update_self, List.map_cons, objects]
  · rw [push_of_ne hh, objects, add, update_of_ne hh, objects]

theorem objects_remove (hnd : ∀ type, (d.objects type).Nodup) :
    (d.remove o).objects = without d.objects o := by
  funext h
  rw [without, (hnd h).erase_eq_filter, objects, objects, remove, List.filter_map]
  refine congrArg _ (List.filter_congr fun e _ => ?_)
  simp [bne, Bool.beq_eq_decide_eq]

theorem mem_remove {h : Fin K} : e ∈ d.remove o h ↔ e ∈ d h ∧ e.object ≠ o := by
  rw [remove, List.mem_filter, decide_eq_true_iff]

omit [DecidableEq τ] in
theorem live_add {u : τ} : (d.add type e).Live u ↔ d.Live u ∨ u = e.object := by
  simp only [Live, objects_add, mem_push]
  constructor
  · rintro ⟨h, hu | ⟨-, rfl⟩⟩
    · exact .inl ⟨h, hu⟩
    · exact .inr rfl
  · rintro (⟨h, hu⟩ | rfl)
    · exact ⟨h, .inl hu⟩
    · exact ⟨type, .inr ⟨rfl, rfl⟩⟩

omit [DecidableEq τ] in
theorem Live.of_mem {h : Fin K} (he : e ∈ d h) : d.Live e.object := ⟨h, List.mem_map_of_mem he⟩

section Fields
variable {β : Type*} {f : τ → β} {g : Entry τ → β}

/-- A field that is right stays so when an object is written that is not there. -/
theorem fields_free (hf : ∀ t, ∀ e ∈ d t, f e.object = g e) (ho : ¬ d.Live o) (x : β) :
    ∀ t, ∀ e ∈ d t, update f o x e.object = g e := by
  intro t e he
  have hne : e.object ≠ o := fun heo => ho (heo ▸ Live.of_mem he)
  rw [update_of_ne hne]
  exact hf t e he

theorem fields_add (hf : ∀ t, ∀ e ∈ d t, f e.object = g e) (ho : ¬ d.Live e.object) :
    ∀ t, ∀ e' ∈ d.add type e t, update f e.object (g e) e'.object = g e' := by
  intro t e' he'
  rcases eq_or_ne t type with rfl | ht
  · rw [add, update_self] at he'
    rcases List.mem_cons.1 he' with rfl | he'
    · rw [update_self]
    · exact fields_free hf ho _ t e' he'
  · rw [add, update_of_ne ht] at he'
    exact fields_free hf ho _ t e' he'

end Fields

end Directory

namespace Holds
open Directory
variable {d : Directory K τ} {s : Objects K τ} {type : Fin K} {name : CString} {o : τ}
  {isStatic : Bool}

omit [DecidableEq τ] in
theorem nodup (h : Holds d s) (type : Fin K) : (d.objects type).Nodup := h.linked.nodup trivial

theorem attach (h : Holds d s) (ho : ¬ d.Live o) :
    Holds (d.add type ⟨o, name, isStatic⟩) (attach o type isStatic name s) := by
  have hno : ∀ h, True → o ∉ d.objects h := fun h _ hm => ho ⟨h, hm⟩
  have hinit : Linked (rtListInit s.list (.item o)) _ (d.add type ⟨o, name, isStatic⟩).Live d.objects :=
    linked_init h.linked hno (fun u hu => live_add.2 (.inl hu)) fun u hu => (live_add.1 hu).symm
  have hpush := linked_insertAfter_head (h := type) hinit trivial (live_add.2 (.inr rfl)) hno
  rw [rtListInsertAfter_init] at hpush
  refine ⟨?_, ?_, ?_⟩
  · rw [objects_add]
    exact hpush
  · exact fields_add (g := Entry.isStatic) h.isStatic ho
  · exact fields_add (g := fun e => rtStrncpy rtNameMax e.name.chars) h.name ho

theorem remove (h : Holds d s) (ho : d.Live o) : Holds (d.remove o) (rtObjectDetach o s) := by
  have hrm := linked_remove h.linked ho
  have hobj := objects_remove (o := o) h.nodup
  refine ⟨?_, fun t e he => h.isStatic t e (mem_remove.1 he).1, fun t e he =>
    h.name t e (mem_remove.1 he).1⟩
  rw [← hobj] at hrm
  refine linked_forget hrm ?_ fun h u _ hu => ⟨h, hu⟩
  rintro u ⟨t, hu⟩
  rw [hobj] at hu
  exact ⟨t, List.mem_of_mem_erase hu⟩

theorem reuse (h : Holds d s) (ho : ¬ d.Live o) (next prev : Node (Fin K) τ) (type : Fin K)
    (isStatic : Bool) (name : List UInt8) :
    Holds d { list := (s.list.setNext (.item o) next).setPrev (.item o) prev
              type := update s.type o type
              isStatic := update s.isStatic o isStatic
              name := update s.name o name } :=
  ⟨linked_reuse h.linked (fun h _ hm => ho ⟨h, hm⟩) ho next prev,
    fields_free (g := Entry.isStatic) h.isStatic ho isStatic,
    fields_free (g := fun e => rtStrncpy rtNameMax e.name.chars) h.name ho name⟩

omit [DecidableEq τ] in
/-- A search finds what is found in the directory. -/
theorem findLoop_eq (h : Holds d s) (type : Fin K) (name : CString) (l : List (Entry τ)) :
    ∀ (a : List (Entry τ)) (fuel : ℕ), d type = a ++ l → l.length < fuel →
      findLoop s type name fuel (after type (l.map Entry.object))
        = some ((l.find? fun e => SameName e.name name).map Entry.object) := by
  induction l with
  | nil =>
    intro a fuel _ hfuel
    obtain ⟨fuel, rfl⟩ := Nat.exists_eq_add_of_lt hfuel
    rw [List.length_nil, Nat.zero_add, List.map_nil, after_nil, findLoop, if_pos rfl]
    rfl
  | cons e l ih =>
    intro a fuel hd hfuel
    obtain ⟨fuel, rfl⟩ := Nat.exists_eq_add_of_lt (Nat.zero_lt_of_lt hfuel)
    have hsplit : d.objects type = a.map Entry.object ++ e.object :: l.map Entry.object := by
      rw [objects, hd, List.map_append, List.map_cons]
    have hname := h.name type e (by rw [hd]; simp)
    rw [List.length_cons] at hfuel
    rw [List.map_cons, after_cons, Nat.zero_add, findLoop, hname, List.find?_cons]
    by_cases hsame : SameName e.name name
    · rw [if_pos ((rtStrncmp_name _ _).2 hsame), decide_eq_true hsame]
      rfl
    · rw [if_neg ((rtStrncmp_name _ _).not.2 hsame), decide_eq_false hsame,
        h.linked.item_next trivial hsplit]
      exact ih (a ++ [e]) fuel (by rw [hd, List.append_assoc, List.singleton_append]) (by omega)

omit [DecidableEq τ] in
theorem rtDeviceFind_eq (h : Holds d s) (device : Fin K) (name : CString) {fuel : ℕ}
    (hfuel : (d device).length < fuel) : rtDeviceFind device fuel name s = some (d.find device name) := by
  rw [rtDeviceFind, h.linked.head_next trivial]
  exact h.findLoop_eq device name _ [] fuel rfl hfuel

omit [DecidableEq τ] in
theorem rtObjectFind_eq (h : Holds d s) (type : Fin K) (name : CString) {fuel : ℕ}
    (hfuel : (d type).length < fuel) :
    rtObjectFind fuel 0 (some name) type s = some (d.find type name) := by
  rw [rtObjectFind, if_neg (by omega), if_neg (by simp), dif_pos type.isLt]
  exact h.rtDeviceFind_eq type name hfuel

/-- Every device of the list is initialised once. -/
theorem initAllLoop_eq (h : Holds d s) (device : Fin K) (answer : τ → ℤ) (devs : τ → Device)
    (l : List (Entry τ)) :
    ∀ (a : List (Entry τ)) (fuel : ℕ), d device = a ++ l → l.length < fuel →
      initAllLoop device answer s.list fuel (after device (l.map Entry.object))
        (fun o => if o ∈ a.map Entry.object then (rtDeviceInit (answer o) (devs o)).2 else devs o)
        = some fun o => if o ∈ d.objects device then (rtDeviceInit (answer o) (devs o)).2 else devs o := by
  induction l with
  | nil =>
    intro a fuel hd hfuel
    obtain ⟨fuel, rfl⟩ := Nat.exists_eq_add_of_lt hfuel
    rw [List.length_nil, Nat.zero_add, List.map_nil, after_nil, initAllLoop, if_pos rfl, objects, hd,
      List.append_nil]
  | cons e l ih =>
    intro a fuel hd hfuel
    obtain ⟨fuel, rfl⟩ := Nat.exists_eq_add_of_lt (Nat.zero_lt_of_lt hfuel)
    have hsplit : d.objects device = a.map Entry.object ++ e.object :: l.map Entry.object := by
      rw [objects, hd, List.map_append, List.map_cons]
    have hnd := h.nodup device
    rw [hsplit, List.nodup_middle, List.nodup_cons, List.mem_append, not_or] at hnd
    rw [List.length_cons] at hfuel
    rw [List.map_cons, after_cons, Nat.zero_add, initAllLoop, h.linked.item_next trivial hsplit,
      if_neg hnd.1.1, ← ih (a ++ [e]) fuel (by rw [hd, List.append_assoc, List.singleton_append])
        (by omega)]
    congr 1
    funext o
    rcases eq_or_ne o e.object with rfl | ho
    · rw [update_self, if_pos (by simp)]
    · rw [update_of_ne ho]
      simp [ho]

end Holds

/-! ### Runs -/

section
variable {d : Directory K τ} {s : System K τ}

/-- No two devices are registered under one name. -/
def Apart (device : Fin K) (d : Directory K τ) : Prop :=
  (d device).Pairwise fun e f => ¬ SameName e.name f.name

theorem step_holds {device : Fin K} (h : Holds d s.objects) (hd : Apart device d) {op : Op K τ}
    (hop : Allowed device d op) :
    Holds (apply device d op) (step device s op).objects ∧ Apart device (apply device d op) := by
  have hremove : ∀ o, Apart device (d.remove o) := fun o => hd.filter _
  cases op with
  | init o type name =>
    refine ⟨h.attach hop.1, ?_⟩
    rw [apply, Apart, Directory.add, update_of_ne hop.2.symm]
    exact hd
  | allocate block type name =>
    cases block with
    | none => exact ⟨h, hd⟩
    | some o =>
      refine ⟨h.attach hop.1, ?_⟩
      rw [apply, Apart, Directory.add, update_of_ne hop.2.symm]
      exact hd
  | detach o => exact ⟨h.remove hop, hremove o⟩
  | unregister o => exact ⟨h.remove hop, hremove o⟩
  | delete o =>
    obtain ⟨type, e, he, rfl, hstatic⟩ := hop
    have hs := (h.isStatic type e he).trans hstatic
    refine ⟨?_, hremove _⟩
    rw [step, rtObjectDelete, hs]
    exact h.remove (.of_mem he)
  | reuse o next prev type isStatic name => exact ⟨h.reuse hop next prev type isStatic name, hd⟩
  | register dev name flags fuel =>
    obtain ⟨hfuel, hfree⟩ := hop
    rw [step, rtDeviceRegister, h.rtDeviceFind_eq device name hfuel, apply]
    cases hfind : d.find device name with
    | some o => exact ⟨h, hd⟩
    | none =>
      refine ⟨h.attach (hfree hfind), ?_⟩
      rw [Directory.find, Option.map_eq_none_iff, List.find?_eq_none] at hfind
      rw [if_neg (by simp), Apart, Directory.add, update_self]
      refine List.pairwise_cons.2 ⟨fun e he hsame => hfind e he ?_, hd⟩
      exact decide_eq_true (Eq.symm hsame)
  | initAll fuel answer =>
    refine ⟨?_, hd⟩
    rw [step, rtDeviceInitAll]
    cases initAllLoop device answer s.objects.list fuel (s.objects.list.next (.head device)) s.device with
    | none => exact h
    | some devs => exact h
  | initDevice dev answer => exact ⟨h, hd⟩
  | openDevice dev oflag initAnswer answer =>
    refine ⟨?_, hd⟩
    rw [step]
    cases rtDeviceOpen oflag initAnswer answer (s.device dev) with
    | none => exact h
    | some r => exact h
  | closeDevice dev answer => exact ⟨h, hd⟩

/-- Nothing is on a list after the start. -/
structure Booted (s : Objects K τ) : Prop where
  next : ∀ type, s.list.next (.head type) = .head type
  prev : ∀ type, s.list.prev (.head type) = .head type

omit [DecidableEq τ] in
theorem Booted.holds {s : Objects K τ} (h : Booted s) : Holds (fun _ => []) s := by
  refine ⟨.empty (fun h' _ => h.next h') (fun h' _ => h.prev h') ?_, ?_, ?_⟩
  · rintro o ⟨type, ho⟩
    exact List.not_mem_nil ho
  · exact fun _ _ he => absurd he List.not_mem_nil
  · exact fun _ _ he => absurd he List.not_mem_nil

theorem run_holds {device : Fin K} (ops : List (Op K τ)) :
    ∀ {d : Directory K τ} {s : System K τ}, Holds d s.objects → Apart device d →
      Runs.Along (apply device) (Allowed device) d ops →
      Holds (ops.foldl (apply device) d) (ops.foldl (step device) s).objects
        ∧ Apart device (ops.foldl (apply device) d) := by
  induction ops with
  | nil => exact fun h hd _ => ⟨h, hd⟩
  | cons op ops ih =>
    rintro d s h hd ⟨hop, hops⟩
    obtain ⟨h', hd'⟩ := step_holds h hd hop
    exact ih h' hd' hops

omit [DecidableEq τ] in
/-- A device is what is found under its name. -/
theorem find_registered {device : Fin K} (hd : Apart device d) {e : Entry τ} (he : e ∈ d device) :
    d.find device e.name = some e.object := by
  rw [Apart] at hd
  rw [Directory.find]
  generalize d device = l at he hd
  induction l with
  | nil => exact absurd he List.not_mem_nil
  | cons f l ih =>
    obtain ⟨hf, hl⟩ := List.pairwise_cons.1 hd
    rcases List.mem_cons.1 he with rfl | he
    · have hown : SameName e.name e.name := rfl
      rw [List.find?_cons, decide_eq_true hown]
      rfl
    · rw [List.find?_cons, decide_eq_false (hf e he)]
      exact ih he hl

/-- CORRECT: Whatever objects are set up and taken away, and whatever becomes of their memory, a search
    in a class finds the newest object there with this name, no two devices have one name, and
    `rt_device_init_all` initialises each device that is registered. -/
theorem directory_correct (device : Fin K) {s : System K τ} (hs : Booted s.objects)
    (ops : List (Op K τ)) (hops : Runs.Along (apply device) (Allowed device) (fun _ => []) ops) :
    let d := ops.foldl (apply device) fun _ => []
    let s := ops.foldl (step device) s
    (∀ type name fuel, (d type).length < fuel →
      rtObjectFind fuel 0 (some name) type s.objects = some (d.find type name)) ∧
    (∀ e ∈ d device, ∀ fuel, (d device).length < fuel →
      rtDeviceFind device fuel e.name s.objects = some (some e.object)) ∧
    ∀ fuel answer, (d device).length < fuel → rtDeviceInitAll device fuel answer s = some { s with
      device := fun o =>
        if o ∈ d.objects device then (rtDeviceInit (answer o) (s.device o)).2 else s.device o } := by
  intro d s
  obtain ⟨h, hd⟩ := run_holds ops hs.holds .nil hops
  refine ⟨fun type name fuel hfuel => h.rtObjectFind_eq type name hfuel, fun e he fuel hfuel => ?_,
    fun fuel answer hfuel => ?_⟩
  · rw [h.rtDeviceFind_eq device e.name hfuel, find_registered hd he]
  · have hloop := h.initAllLoop_eq device answer s.device (d device) [] fuel rfl hfuel
    simp only [List.map_nil, List.not_mem_nil, if_false] at hloop
    rw [rtDeviceInitAll, h.linked.head_next trivial]
    exact congrArg (Option.map _) hloop

end

/-! ### Openers -/

/-- A device is marked open while it has openers, and one that stands alone has one at most. -/
structure Sound (dev : Device) : Prop where
  isOpen : dev.openFlag &&& oflagOpen ≠ 0 ↔ dev.refCount ≠ 0
  alone : dev.flag &&& flagStandalone ≠ 0 → dev.refCount ≤ 1

theorem activated_standalone (flag : ℕ) :
    (flag ||| flagActivated) &&& flagStandalone = flag &&& flagStandalone := by
  rw [Nat.and_or_distrib_right]
  exact Nat.or_zero _

theorem open_oflagOpen (oflag : ℕ) : (oflag ||| oflagOpen) &&& oflagOpen ≠ 0 := by
  rw [Nat.and_or_distrib_right, Ne, Nat.or_eq_zero_iff]
  exact fun h => absurd h.2 (by decide)

variable {dev : Device}

theorem Sound.activated (h : Sound dev) : Sound { dev with flag := dev.flag ||| flagActivated } :=
  ⟨h.isOpen, fun hs => h.alone (activated_standalone dev.flag ▸ hs)⟩

theorem Sound.init (h : Sound dev) (answer : ℤ) : Sound (rtDeviceInit answer dev).2 := by
  unfold rtDeviceInit
  split_ifs
  · exact h
  · exact h.activated
  · exact h

theorem Sound.activate (h : Sound dev) (answer : ℤ) : Sound (activate answer dev).2 := by
  unfold Object.activate
  split_ifs
  · exact h
  · exact h
  · exact h.activated

theorem Sound.initAll {device : Fin K} {answer : τ → ℤ} {list : RtList (Node (Fin K) τ)} :
    ∀ (fuel : ℕ) (n : Node (Fin K) τ) {devs devs' : τ → Device}, (∀ o, Sound (devs o)) →
      initAllLoop device answer list fuel n devs = some devs' → ∀ o, Sound (devs' o)
  | 0, _, _, _, _, h => by cases h
  | fuel + 1, .head _, devs, devs', hs, h => by
      rw [initAllLoop, Option.ite_none_right_eq_some] at h
      cases h.2
      exact hs
  | fuel + 1, .item o, devs, devs', hs, h => by
      refine Sound.initAll fuel _ (fun o' => ?_) h
      rcases eq_or_ne o' o with rfl | ho
      · rw [update_self]
        exact (hs o').init _
      · rw [update_of_ne ho]
        exact hs o'

/-- The driver refuses. -/
def Refused (hook : Bool) (answer : ℤ) : Prop :=
  ¬ (hookAnswer hook answer = eok ∨ hookAnswer hook answer = -enosys)

/-- What the hooks answer: the first opening may not be refused, -/
def ProperOpen (initAnswer answer : ℤ) (dev : Device) : Prop :=
  (activate initAnswer dev).1 = eok → Refused dev.hasOpen answer → dev.refCount ≠ 0

/-- nor the last closing. -/
def ProperClose (answer : ℤ) (dev : Device) : Prop := Refused dev.hasClose answer → dev.refCount ≠ 1

theorem activate_fields (answer : ℤ) (dev : Device) :
    (activate answer dev).2.refCount = dev.refCount ∧ (activate answer dev).2.hasOpen = dev.hasOpen := by
  unfold activate
  split_ifs
  · exact ⟨rfl, rfl⟩
  · exact ⟨rfl, rfl⟩
  · exact ⟨rfl, rfl⟩

theorem Sound.openHook_iff (h : Sound dev) {oflag : ℕ} {answer : ℤ} {r : ℤ × Device}
    (hr : openHook oflag answer dev = some r) :
    Sound r.2 ↔ (Refused dev.hasOpen answer → dev.refCount ≠ 0) := by
  rw [openHook] at hr
  split at hr
  · next hbusy =>
    cases hr
    exact ⟨fun _ _ => h.isOpen.1 hbusy.2, fun _ => h⟩
  next hfree =>
  -- a device that stands alone is opened by the first one only
  have halone : dev.flag &&& flagStandalone ≠ 0 → dev.refCount = 0 := fun hs => by
    by_contra hc
    exact hfree ⟨hs, h.isOpen.2 hc⟩
  dsimp only at hr
  split at hr
  · cases hr
  next hcount =>
  have hle : dev.flag &&& flagStandalone ≠ 0 → (dev.refCount + 1) % 256 ≤ 1 := fun hs => by
    rw [halone hs]
  split at hr
  · next hok =>
    cases hr
    refine ⟨fun _ href => absurd hok href, fun _ => ⟨?_, hle⟩⟩
    exact ⟨fun _ => hcount, fun _ => open_oflagOpen oflag⟩
  · next hbad =>
    cases hr
    constructor
    · exact fun hs _ => h.isOpen.1 (hs.isOpen.2 hcount)
    · exact fun hs => ⟨⟨fun _ => hcount, fun _ => h.isOpen.2 (hs hbad)⟩, hle⟩

theorem Sound.open_iff (h : Sound dev) {oflag : ℕ} {initAnswer answer : ℤ} {r : ℤ × Device}
    (hr : rtDeviceOpen oflag initAnswer answer dev = some r) :
    Sound r.2 ↔ ProperOpen initAnswer answer dev := by
  obtain ⟨hcount, hhook⟩ := activate_fields initAnswer dev
  rw [rtDeviceOpen] at hr
  rw [ProperOpen, ← hcount, ← hhook]
  split at hr
  · next hne =>
    cases hr
    exact ⟨fun _ he => absurd he hne, fun _ => h.activate initAnswer⟩
  · next he =>
    rw [(h.activate initAnswer).openHook_iff hr]
    exact ⟨fun hs _ => hs, fun hs => hs (not_not.1 he)⟩

theorem Sound.close_iff (h : Sound dev) (answer : ℤ) :
    Sound (rtDeviceClose answer dev).2 ↔ ProperClose answer dev := by
  rw [rtDeviceClose, ProperClose]
  split
  · next hzero => exact ⟨fun _ _ => by omega, fun _ => h⟩
  next hpos =>
  dsimp only
  split
  · next hmore =>
    have hopen := h.isOpen.2 hpos
    refine ⟨fun _ _ => by omega, fun _ => ⟨⟨fun _ => hmore, fun _ => hopen⟩, fun hs => ?_⟩⟩
    have := h.alone hs
    show dev.refCount - 1 ≤ 1
    omega
  next hlast =>
  have hlast : dev.refCount - 1 = 0 := not_not.1 hlast
  split
  · next hok =>
    refine ⟨fun _ href => absurd hok href, fun _ => ⟨⟨fun hc => ?_, fun hc => ?_⟩, fun _ => ?_⟩⟩
    · exact absurd (Nat.zero_and _) hc
    · exact absurd hlast hc
    · show dev.refCount - 1 ≤ 1
      omega
  · next hbad =>
    constructor
    · exact fun hs => absurd hlast (hs.isOpen.1 (h.isOpen.2 hpos))
    · exact fun hs => absurd (by omega) (hs hbad)

/-- The count is full: somebody has the device open. -/
theorem openHook_none {oflag : ℕ} {answer : ℤ} (h : openHook oflag answer dev = none) :
    dev.refCount ≠ 0 := by
  rintro hzero
  rw [openHook] at h
  split at h
  · cases h
  dsimp only at h
  rw [hzero, if_neg (by decide)] at h
  split at h
  · cases h
  · cases h

theorem rtDeviceOpen_none {oflag : ℕ} {initAnswer answer : ℤ}
    (h : rtDeviceOpen oflag initAnswer answer dev = none) : ProperOpen initAnswer answer dev := by
  intro he _
  rw [rtDeviceOpen, if_neg (not_not.2 he)] at h
  rw [← (activate_fields initAnswer dev).1]
  exact openHook_none h

/-- What keeps the openers of every device right; nor is one registered that is open. -/
def Proper (device : Fin K) (s : System K τ) : Op K τ → Prop
  | .openDevice dev _ initAnswer answer => ProperOpen initAnswer answer (s.device dev)
  | .closeDevice dev answer => ProperClose answer (s.device dev)
  | .register dev name _ fuel =>
      rtDeviceFind device fuel name s.objects = some none → (s.device dev).refCount = 0
  | _ => True

theorem Sound.register_iff (h : Sound dev) (flags : ℕ) :
    Sound { dev with flag := flags, refCount := 0 } ↔ dev.refCount = 0 := by
  constructor
  · intro hs
    by_contra hc
    exact hs.isOpen.1 (h.isOpen.2 hc) rfl
  · intro hzero
    refine ⟨⟨fun hc => absurd hzero (h.isOpen.1 hc), fun hc => absurd rfl hc⟩, fun _ => Nat.zero_le 1⟩

/-- Only the device that is written counts. -/
theorem sound_update_iff {devs : τ → Device} (hs : ∀ o, Sound (devs o)) (o : τ) :
    (∀ o', Sound (update devs o dev o')) ↔ Sound dev := by
  constructor
  · intro h
    have := h o
    rwa [update_self] at this
  · intro h o'
    rcases eq_or_ne o' o with rfl | ho
    · rwa [update_self]
    · rw [update_of_ne ho]
      exact hs o'

theorem step_sound_iff (device : Fin K) {s : System K τ} (hs : ∀ o, Sound (s.device o)) (op : Op K τ) :
    (∀ o, Sound ((step device s op).device o)) ↔ Proper device s op := by
  cases op with
  | init => exact iff_of_true hs trivial
  | allocate => exact iff_of_true hs trivial
  | detach => exact iff_of_true hs trivial
  | reuse => exact iff_of_true hs trivial
  | unregister => exact iff_of_true hs trivial
  | delete o =>
    refine iff_of_true ?_ trivial
    rw [step]
    cases rtObjectDelete o s.objects with
    | none => exact hs
    | some r => exact hs
  | register dev name flags fuel =>
    rw [step, rtDeviceRegister, Proper]
    cases rtDeviceFind device fuel name s.objects with
    | none => exact iff_of_true hs fun h => absurd h (by simp)
    | some found =>
      cases found with
      | some o => exact iff_of_true hs fun h => absurd h (by simp)
      | none => exact (sound_update_iff hs dev).trans (((hs dev).register_iff flags).trans (by simp))
  | initAll fuel answer =>
    refine iff_of_true ?_ trivial
    rw [step, rtDeviceInitAll]
    cases hloop : initAllLoop device answer s.objects.list fuel (s.objects.list.next (.head device))
      s.device with
    | none => exact hs
    | some devs => exact Sound.initAll fuel _ hs hloop
  | initDevice dev answer =>
    exact iff_of_true ((sound_update_iff hs dev).2 ((hs dev).init answer)) trivial
  | openDevice dev oflag initAnswer answer =>
    rw [step, Proper]
    cases hr : rtDeviceOpen oflag initAnswer answer (s.device dev) with
    | none => exact iff_of_true hs (rtDeviceOpen_none hr)
    | some r => exact (sound_update_iff hs dev).trans ((hs dev).open_iff hr)
  | closeDevice dev answer => exact (sound_update_iff hs dev).trans ((hs dev).close_iff answer)

/-- INCORRECT: In every state a device is marked open exactly while it has openers, and a device that
    stands alone has one opener at most. A driver that refuses the first opening leaves an opener of a
    device that is not open, one that refuses the last closing an open device without openers; so does
    registering a device that is open. Nothing else does. -/
theorem openers_iff (device : Fin K) {s : System K τ} (hs : ∀ o, Sound (s.device o))
    (ops : List (Op K τ)) :
    Runs.Along (step device) (fun s op => ∀ o, Sound ((step device s op).device o)) s ops
      ↔ Runs.Along (step device) (Proper device) s ops :=
  Runs.Along.iff (I := fun s => ∀ o, Sound (s.device o)) (fun _ op hs => step_sound_iff device hs op)
    (fun _ op hs hp => (step_sound_iff device hs op).2 hp) ops hs

/-- Two classes, the second one for devices, which have a driver and stand alone. -/
def start : System 2 ℕ where
  objects := ⟨⟨id, id⟩, fun _ => 0, fun _ => false, fun _ => []⟩
  device := fun _ => ⟨flagStandalone, 0, 0, true, true, true⟩

/-- The name `c1`. -/
def c1 : CString := ⟨[0x63, 0x31], by decide⟩

/-- The name of a device is free again after it is unregistered. -/
theorem directory_correct_again :
    rtDeviceFind 1 2 c1 ([.register 5 c1 0 1, .register 6 c1 0 2, .allocate (some 7) 0 c1, .unregister 5,
      .reuse 5 (.item 9) (.item 9) 0 false [], .register 6 c1 0 1].foldl (step 1) start).objects
      = some (some 6) :=
  (directory_correct 1 ⟨fun _ => rfl, fun _ => rfl⟩ _ (by decide +kernel)).2.1 ⟨6, c1, true⟩
    List.mem_cons_self 2 (by decide +kernel)

theorem start_sound (o : ℕ) : Sound (start.device o) :=
  ⟨iff_of_false (by decide : ¬ (0 &&& oflagOpen ≠ 0)) (by decide : ¬ 0 ≠ 0), fun _ => Nat.zero_le 1⟩

/-- A second opener is sent away; one that the driver refuses is not. -/
theorem openers_iff_refused :
    Runs.Along (step 1) (fun s op => ∀ o, Sound ((step 1 s op).device o)) start
        [.openDevice 5 0 eok eok, .openDevice 5 0 eok eok, .closeDevice 5 eok]
      ∧ ¬ Runs.Along (step 1) (fun s op => ∀ o, Sound ((step 1 s op).device o)) start
        [.openDevice 5 0 eok (-error)] :=
  ⟨(openers_iff 1 start_sound _).2 ⟨fun _ h => absurd (.inl rfl) h, fun _ h => absurd (.inl rfl) h,
      fun h => absurd (.inl rfl) h, trivial⟩,
    (openers_iff 1 start_sound _).not.2 fun h =>
      h.1 rfl (by decide : ¬ (-error = eok ∨ -error = -enosys)) rfl⟩

end Runs

end EasyCore.Object
