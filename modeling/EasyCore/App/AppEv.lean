import EasyCore.Kernel.Tasks
import EasyCore.Lib.Owners
import EasyCore.Lib.Runs

/-! The application's events (`easyio_core/app_ev.c`). A post takes an element of `app_event` or a
    block of the heap, fills it and mails its address to the dispatcher, which calls the callbacks
    and gives the element or the block back. Interrupts and threads post, and they and the
    dispatcher take turns statement by statement.

        post        scan ▶ set ▶ type ▶ data 0 ▶ … ▶ data 3 ▶ send ▶ done 0
                         malloc ▲                              ▼ sleep
                                                             undo ▶ done res
        dispatcher  init ▶ recv ▶ switch ▶ loadCb ▶ loadReply ▶ call ▶ reply ▶ release ▶ recv -/

namespace EasyCore.AppEv
open Function Owners Runs
open Kernel (rtEok rtError rtEtimeout)
open Ipc (rtEfull)

/-- What a `struct APP_EVENT *` points to: an element of `app_event` or a block of the heap. -/
inductive Ptr
  | slot (i : ℕ)
  | block (b : ℕ)
  deriving DecidableEq

/-- `struct APP_EVENT`. -/
structure AppEvent where
  enable : ℕ
  type : ℕ
  simpleData : ℕ → ℕ

def appEventBuffer : ℕ := 10
def appEvDefaultType : ℕ := 0
def appEvHwIntType : ℕ := 1

/-- `sizeof(mainloop_mb_pool)/4` -/
def mbSize : ℕ := 32

/-- The function that posts: `post_hw_int_event`, `post_default_event` or
    `post_default_event_wait`. -/
inductive Kind
  | hwInt
  | default
  | defaultWait (timeout : ℤ)

def Kind.type : Kind → ℕ
  | .hwInt => appEvHwIntType
  | _ => appEvDefaultType

/-- The timeout of `rt_mb_send_wait`, which `rt_mb_send` calls with 0. -/
def Kind.timeout : Kind → ℤ
  | .defaultWait timeout => timeout
  | _ => 0

/-- A post: the function and its arguments. -/
structure Job where
  kind : Kind
  func : ℕ
  arg : ℕ
  funcResp : ℕ
  argResp : ℕ

/-- What goes into `simple_data`. -/
def Job.word (job : Job) : ℕ → ℕ
  | 0 => job.func
  | 1 => job.arg
  | 2 => job.funcResp
  | _ => job.argResp

/-- The next statement of a post; `done` when it has returned. -/
inductive Pc
  | idle
  | scan (i : ℕ)
  | set (i : ℕ)
  | malloc
  | type (p : Ptr)
  | data (p : Ptr) (j : ℕ)
  | send (p : Ptr)
  | sleep (p : Ptr)
  | undo (p : Ptr) (res : ℤ)
  | done (res : ℤ)

/-- An interrupt or a thread. Its post has a number, for the statements below. -/
structure Poster where
  pc : Pc
  id : ℕ
  job : Job

/-- An address in the mailbox, with the number of the post that has sent it. -/
structure Mail where
  ptr : Ptr
  id : ℕ
  deriving DecidableEq

/-- The next statement of the dispatcher, with its local variables. -/
inductive Stage
  | init (i : ℕ)
  | recv
  | switch (m : Mail)
  | loadCb (m : Mail) (type : ℕ)
  | loadReply (m : Mail) (type cb : ℕ)
  | call (m : Mail) (type cb cbReply : ℕ)
  | reply (m : Mail) (type cbReply : ℕ)
  | release (m : Mail) (type : ℕ)

/-- A call of a callback by the dispatcher, for the post with this number. -/
structure Call where
  id : ℕ
  func : ℕ
  arg : ℕ
  deriving DecidableEq

/-- The events, the blocks allocated for them, the mailbox (a queue, see `Kernel.Mailbox`), the
    dispatcher and the posts; `jobs` are the posts so far, `sent` those that have succeeded,
    `released` counts how often a post's element or block has been given back. -/
structure State (ι : Type*) where
  ev : Ptr → AppEvent
  heap : ℕ → Bool
  mail : List Mail
  loop : Stage
  poster : ι → Poster
  jobs : List Job
  sent : List ℕ
  calls : List Call
  released : ℕ → ℕ

variable {ι : Type*} [DecidableEq ι]

def State.write (s : State ι) (p : Ptr) (f : AppEvent → AppEvent) : State ι :=
  { s with ev := update s.ev p (f (s.ev p)) }

def State.goto (s : State ι) (k : ι) (pc : Pc) : State ι :=
  { s with poster := update s.poster k { s.poster k with pc := pc } }

def State.destoryAppEvent (s : State ι) (p : Ptr) : State ι :=
  s.write p fun ev => { ev with enable := 0 }

def State.rtFree (s : State ι) : Ptr → State ι
  | .slot _ => s
  | .block b => { s with heap := update s.heap b false }

/-- An event is given back as its type says. -/
def State.release (s : State ι) (type : ℕ) (p : Ptr) (id : ℕ) : State ι :=
  { (if type = appEvHwIntType then s.destoryAppEvent p else s.rtFree p) with
    released := update s.released id (s.released id + 1) }

/-- The mailbox has room: the address goes in, and the post has succeeded. -/
def State.deliver (s : State ι) (k : ι) (p : Ptr) : State ι :=
  { s with
    mail := s.mail ++ [⟨p, (s.poster k).id⟩], sent := s.sent ++ [(s.poster k).id] : State ι }.goto k
      (.done rtEok)

/-- Why a thread that waits for room in the mailbox goes on: a mail has been taken, its time is up,
    or a mail has been taken too late. -/
inductive Wake
  | mail
  | timer
  | late

/-- The next statement of post `k`; `got` is the block that `rt_malloc` finds. -/
def stepPoster (s : State ι) (k : ι) (got : Option ℕ) (wake : Wake) : State ι :=
  let c := s.poster k
  match c.pc with
  | .idle | .done _ => s
  | .scan i =>
    s.goto k (if i < appEventBuffer then
      if (s.ev (.slot i)).enable = 0 then .set i else .scan (i + 1) else .done (-rtError))
  | .set i => (s.write (.slot i) fun ev => { ev with enable := 1 }).goto k (.type (.slot i))
  | .malloc =>
    match got with
    | some b =>
      -- only a block that is not in use
      if s.heap b then s
      else { s with heap := update s.heap b true }.goto k (.type (.block b))
    | none => s.goto k (.done (-rtError))
  | .type p => (s.write p fun ev => { ev with type := c.job.kind.type }).goto k (.data p 0)
  | .data p j =>
    (s.write p fun ev => { ev with simpleData := update ev.simpleData j (c.job.word j) }).goto k
      (if j + 1 < 4 then .data p (j + 1) else .send p)
  | .send p =>
    if s.mail.length < mbSize then s.deliver k p
    else s.goto k (if c.job.kind.timeout = 0 then .undo p (-rtEfull) else .sleep p)
  | .sleep p =>
    match wake with
    | .mail => if s.mail.length < mbSize then s.deliver k p else s
    | .timer => if 0 < c.job.kind.timeout then s.goto k (.undo p (-rtEtimeout)) else s
    | .late =>
      if 0 < c.job.kind.timeout ∧ mbSize ≤ s.mail.length then s.goto k (.undo p (-rtEfull)) else s
  | .undo p res => (s.release c.job.kind.type p c.id).goto k (.done res)

/-- A callback is called if there is one. -/
def callOf (id func arg : ℕ) : List Call := if 0 < func then [⟨id, func, arg⟩] else []

/-- The next statement of the dispatcher (`appev_thread_entry`, once it has a mailbox). -/
def stepLoop (s : State ι) : State ι :=
  match s.loop with
  | .init i =>
    { s.destoryAppEvent (.slot i) with
      loop := if i + 1 < appEventBuffer then .init (i + 1) else .recv }
  | .recv =>
    match s.mail with
    | [] => s
    | m :: mail => { s with mail := mail, loop := .switch m }
  | .switch m =>
    let type := (s.ev m.ptr).type
    { s with loop :=
        if type = appEvDefaultType then .loadCb m type
        else if type = appEvHwIntType then .loadCb m type else .recv }
  | .loadCb m type => { s with loop := .loadReply m type ((s.ev m.ptr).simpleData 0) }
  | .loadReply m type cb => { s with loop := .call m type cb ((s.ev m.ptr).simpleData 2) }
  | .call m type cb cbReply =>
    { s with
      calls := s.calls ++ callOf m.id cb ((s.ev m.ptr).simpleData 1), loop := .reply m type cbReply }
  | .reply m type cbReply =>
    { s with
      calls := s.calls ++ callOf m.id cbReply ((s.ev m.ptr).simpleData 3), loop := .release m type }
  | .release m type => { s.release type m.ptr m.id with loop := .recv }

/-- A post by an interrupt or a thread that is at no other one, or one statement. -/
inductive Act (ι : Type*)
  | call (k : ι) (job : Job)
  | poster (k : ι) (got : Option ℕ) (wake : Wake)
  | loop

def Pc.runs : Pc → Bool
  | .idle => false
  | .done _ => false
  | _ => true

/-- The first statement of a post. -/
def Kind.entry : Kind → Pc
  | .hwInt => .scan 0
  | _ => .malloc

def step (s : State ι) : Act ι → State ι
  | .call k job =>
    if (s.poster k).pc.runs then s
    else { s with
      poster := update s.poster k ⟨job.kind.entry, s.jobs.length, job⟩, jobs := s.jobs ++ [job] }
  | .poster k got wake => stepPoster s k got wake
  | .loop => stepLoop s

/-- The mailbox is there, and `init_app_event` is the next call. -/
def start : State ι where
  ev := fun _ => ⟨0, 0, fun _ => 0⟩
  heap := fun _ => false
  mail := []
  loop := .init 0
  poster := fun _ => ⟨.idle, 0, ⟨.hwInt, 0, 0, 0, 0⟩⟩
  jobs := []
  sent := []
  calls := []
  released := fun _ => 0

def system (ι : Type*) [DecidableEq ι] : System (State ι) (Act ι) where
  init s := s = start
  step s a s' := s' = step s a

/-! ### What the events owe -/

/-- The element or block is in use. -/
def State.used (s : State ι) : Ptr → Prop
  | .slot i => (s.ev (.slot i)).enable ≠ 0
  | .block b => s.heap b = true

/-- The event that a post has and has not handed over. -/
def Pc.ptr : Pc → Option Ptr
  | .type p => some p
  | .data p _ => some p
  | .send p => some p
  | .sleep p => some p
  | .undo p _ => some p
  | _ => none

/-- The mail that the dispatcher is at. -/
def Stage.mail : Stage → Option Mail
  | .init _ => none
  | .recv => none
  | .switch m => some m
  | .loadCb m _ => some m
  | .loadReply m _ _ => some m
  | .call m _ _ _ => some m
  | .reply m _ _ => some m
  | .release m _ => some m

/-- The mails that the dispatcher has not finished. -/
def State.queued (s : State ι) : List Mail := s.loop.mail.toList ++ s.mail

/-- Post `id` has an event there: the post fills it, or it is on its way, or with the dispatcher. -/
def State.Has (s : State ι) (p : Ptr) (id : ℕ) : Prop :=
  (∃ k, (s.poster k).pc.ptr = some p ∧ (s.poster k).id = id) ∨ ⟨p, id⟩ ∈ s.queued

/-- The calls for a post. -/
def State.callsOf (s : State ι) (id : ℕ) : List Call := s.calls.filter fun c => c.id = id

/-- The calls that a post asks for. -/
def Job.calls (job : Job) (id : ℕ) : List Call :=
  callOf id job.func job.arg ++ callOf id job.funcResp job.argResp

/-- The post has been executed, once and as asked, and its event has been given back once. -/
def Served (s : State ι) (id : ℕ) : Prop :=
  ∃ job, s.jobs[id]? = some job ∧ s.callsOf id = job.calls id ∧ s.released id = 1

/-- A post has come to nothing. -/
structure Undone (s : State ι) (id : ℕ) : Prop where
  uncalled : s.callsOf id = []
  gone : ∀ p, ¬s.Has p id
  once : s.released id ≤ 1

/-- The dispatcher has cleared the pool. -/
def Stage.ready : Stage → Bool
  | .init _ => false
  | _ => true

/-- Each event in use belongs to one post; no post is executed beyond what it asks for, or released
    before that; one that fails is not executed, and has nothing; a post leaves what the other ones
    have; and the dispatcher serves every post that has succeeded. -/
structure Correct (s : State ι) : Prop where
  owned : Owned s.Has s.used
  executed : ∀ id ∈ s.sent, ∃ job, s.jobs[id]? = some job ∧ s.callsOf id <+: job.calls id
  unsent : ∀ id ∉ s.sent, s.callsOf id = []
  once : ∀ id, s.released id ≤ 1
  after : ∀ id ∈ s.sent, s.released id = 1 → Served s id ∧ ∀ p, ¬s.Has p id
  success : ∀ k, (s.poster k).pc = .done rtEok → (s.poster k).id ∈ s.sent
  failure : ∀ k res, (s.poster k).pc = .done res → res ≠ rtEok → Undone s (s.poster k).id
  kept : ∀ k got wake p id, id ≠ (s.poster k).id →
    ((step s (.poster k got wake)).Has p id ↔ s.Has p id)
  drains : s.loop.ready = true → ∃ n, ∀ id ∈ s.sent, Served (stepLoop^[n] s) id

/-- What keeps the pool in order: an element is free when a post marks it as taken, and when
    `init_app_event` clears it. -/
def Ok (s : State ι) : Act ι → Prop
  | .call _ _ => True
  | .poster k _ _ => ∀ i, (s.poster k).pc = .set i → (s.ev (.slot i)).enable = 0
  | .loop => ∀ i, s.loop = .init i → (s.ev (.slot i)).enable = 0

/-! ### The invariant -/

/-- An element is posted by `post_hw_int_event`, a block by the other two. -/
def Fits (p : Ptr) (job : Job) : Prop :=
  match p with
  | .slot _ => job.kind.type = appEvHwIntType
  | .block _ => job.kind.type = appEvDefaultType

/-- The event holds what the post was given. -/
def AppEvent.Carries (ev : AppEvent) (job : Job) : Prop :=
  ev.type = job.kind.type ∧ ∀ j < 4, ev.simpleData j = job.word j

/-- How far a post has got with its event. -/
def Filled (s : State ι) (c : Poster) : Prop :=
  match c.pc with
  | .scan _ | .set _ => c.job.kind.type = appEvHwIntType
  | .malloc => c.job.kind.type = appEvDefaultType
  | .type p => Fits p c.job
  | .data p j => Fits p c.job ∧ (s.ev p).type = c.job.kind.type ∧
      ∀ i < j, (s.ev p).simpleData i = c.job.word i
  | .send p | .sleep p => Fits p c.job ∧ (s.ev p).Carries c.job
  | .undo p res => Fits p c.job ∧ res ≠ rtEok
  | .idle | .done _ => True

/-- A post that has not returned. -/
structure Posting (s : State ι) (c : Poster) : Prop where
  job : s.jobs[c.id]? = some c.job
  unsent : c.id ∉ s.sent
  kept : s.released c.id = 0
  filled : Filled s c

/-- A mail that the dispatcher has not finished. -/
structure Carried (s : State ι) (m : Mail) : Prop where
  sent : m.id ∈ s.sent
  kept : s.released m.id = 0
  job : ∃ job, s.jobs[m.id]? = some job ∧ Fits m.ptr job ∧ (s.ev m.ptr).Carries job

/-- What the dispatcher has read of its mail, and the calls that it has made. -/
def Loaded (s : State ι) (job : Job) : Stage → Prop
  | .init _ | .recv => True
  | .switch m => s.callsOf m.id = []
  | .loadCb m type => type = job.kind.type ∧ s.callsOf m.id = []
  | .loadReply m type cb => type = job.kind.type ∧ cb = job.func ∧ s.callsOf m.id = []
  | .call m type cb cbReply =>
      type = job.kind.type ∧ cb = job.func ∧ cbReply = job.funcResp ∧ s.callsOf m.id = []
  | .reply m type cbReply =>
      type = job.kind.type ∧ cbReply = job.funcResp ∧ s.callsOf m.id = callOf m.id job.func job.arg
  | .release m type => type = job.kind.type ∧ s.callsOf m.id = job.calls m.id

structure Inv (s : State ι) : Prop where
  owned : Owned s.Has s.used
  posting : ∀ k, (s.poster k).pc.runs = true → Posting s (s.poster k)
  returned : ∀ k res, (s.poster k).pc = .done res →
    (s.poster k).id < s.jobs.length ∧ ((s.poster k).id ∈ s.sent ↔ res = rtEok)
  inj : ∀ k k', (s.poster k).pc.runs = true → (s.poster k').pc ≠ .idle →
    (s.poster k).id = (s.poster k').id → k = k'
  nodup : (s.queued.map Mail.id).Nodup
  carried : ∀ m ∈ s.queued, Carried s m
  loaded : ∀ m job, s.loop.mail = some m → s.jobs[m.id]? = some job → Loaded s job s.loop
  uncalled : ∀ m ∈ s.mail, s.callsOf m.id = []
  unsent : ∀ id ∉ s.sent, s.callsOf id = []
  served : ∀ id ∈ s.sent, (∀ m ∈ s.queued, m.id ≠ id) → Served s id
  once : ∀ id, s.released id ≤ 1
  fresh : ∀ id, s.jobs.length ≤ id → id ∉ s.sent ∧ s.released id = 0

omit [DecidableEq ι] in
theorem Inv.init : Inv (start : State ι) := by
  refine ⟨.none (fun p id h => ?_) (fun p => ?_), ?_, ?_, ?_, ?_, ?_, ?_, ?_, ?_, ?_, ?_, ?_⟩
  · rcases h with ⟨k, hp, -⟩ | hm
    · exact nomatch hp
    · exact nomatch hm
  · cases p <;> simp [State.used, start]
  all_goals simp [start, State.queued, Stage.mail, State.callsOf, Pc.runs]

/-! ### Consequences -/

theorem runs_of_ptr {pc : Pc} {p : Ptr} (h : pc.ptr = some p) : pc.runs = true := by
  cases pc <;> first | rfl | exact nomatch h

omit [DecidableEq ι] in
theorem mem_queued_of_mail {s : State ι} {m : Mail} (h : s.loop.mail = some m) : m ∈ s.queued := by
  simp [State.queued, h]

omit [DecidableEq ι] in
theorem mem_queued {s : State ι} {m : Mail} : m ∈ s.queued ↔ s.loop.mail = some m ∨ m ∈ s.mail := by
  simp [State.queued]

omit [DecidableEq ι] in
/-- A post that has an event has not returned, or its mail is queued. -/
theorem not_has {s : State ι} {id : ℕ} (hq : ∀ m ∈ s.queued, m.id ≠ id)
    (hk : ∀ k, (s.poster k).pc.runs = true → (s.poster k).id ≠ id) (p : Ptr) : ¬s.Has p id := by
  rintro (⟨k, hp, hid⟩ | hm)
  · exact hk k (runs_of_ptr hp) hid
  · exact hq _ hm rfl

omit [DecidableEq ι] in
theorem Loaded.part_of {s : State ι} {job : Job} {st : Stage} {m : Mail} (h : Loaded s job st)
    (hm : st.mail = some m) : s.callsOf m.id <+: job.calls m.id := by
  cases st with
  | init | recv => exact nomatch hm
  | switch n =>
    obtain rfl : n = m := by simpa [Stage.mail] using hm
    rw [show s.callsOf n.id = [] from h]
    exact List.nil_prefix
  | loadCb n =>
    obtain rfl : n = m := by simpa [Stage.mail] using hm
    rw [h.2]
    exact List.nil_prefix
  | loadReply n =>
    obtain rfl : n = m := by simpa [Stage.mail] using hm
    rw [h.2.2]
    exact List.nil_prefix
  | call n =>
    obtain rfl : n = m := by simpa [Stage.mail] using hm
    rw [h.2.2.2]
    exact List.nil_prefix
  | reply n =>
    obtain rfl : n = m := by simpa [Stage.mail] using hm
    rw [h.2.2]
    exact List.prefix_append _ _
  | release n =>
    obtain rfl : n = m := by simpa [Stage.mail] using hm
    rw [h.2]

/-! ### A statement of a post -/

/-- Another post than `k` has the event. -/
def State.HasOther (s : State ι) (k : ι) (p : Ptr) (id : ℕ) : Prop :=
  (∃ k', k' ≠ k ∧ (s.poster k').pc.ptr = some p ∧ (s.poster k').id = id) ∨ ⟨p, id⟩ ∈ s.queued

omit [DecidableEq ι] in
theorem has_iff (s : State ι) (k : ι) (p : Ptr) (id : ℕ) :
    s.Has p id ↔ ((s.poster k).pc.ptr = some p ∧ (s.poster k).id = id) ∨ s.HasOther k p id := by
  constructor
  · rintro (⟨k', hp, hid⟩ | hm)
    · rcases eq_or_ne k' k with rfl | hne
      · exact .inl ⟨hp, hid⟩
      · exact .inr (.inl ⟨k', hne, hp, hid⟩)
    · exact .inr (.inr hm)
  · rintro (⟨hp, hid⟩ | ⟨k', -, hp, hid⟩ | hm)
    · exact .inl ⟨k, hp, hid⟩
    · exact .inl ⟨k', hp, hid⟩
    · exact .inr hm

/-- After a statement of post `k`, the others have what they had. -/
theorem has_update {s s' : State ι} {k : ι} {c : Poster}
    (hposter : s'.poster = update s.poster k c) (hqueued : s'.queued = s.queued) (p : Ptr) (id : ℕ) :
    s'.Has p id ↔ (c.pc.ptr = some p ∧ c.id = id) ∨ s.HasOther k p id := by
  have hother : ∀ k', k' ≠ k → s'.poster k' = s.poster k' := fun k' hk => by simp [hposter, hk]
  rw [has_iff s' k, hposter, update_self]
  refine or_congr_right ?_
  simp only [State.HasOther, hqueued]
  constructor
  · rintro (⟨k', hne, hp⟩ | hm)
    · exact .inl ⟨k', hne, hother k' hne ▸ hp⟩
    · exact .inr hm
  · rintro (⟨k', hne, hp⟩ | hm)
    · exact .inl ⟨k', hne, (hother k' hne).symm ▸ hp⟩
    · exact .inr hm

theorem has_goto (s : State ι) (k : ι) (pc : Pc) (p : Ptr) (id : ℕ) : (s.goto k pc).Has p id ↔
    (pc.ptr = some p ∧ (s.poster k).id = id) ∨ s.HasOther k p id :=
  @has_update _ _ s (s.goto k pc) k { s.poster k with pc := pc } rfl rfl p id

omit [DecidableEq ι] in
/-- Nobody else has the event of a running post. -/
theorem Inv.hasOther_ne {s : State ι} (h : Inv s) {k : ι} {p q : Ptr} {id : ℕ}
    (hp : (s.poster k).pc.ptr = some p) (ho : s.HasOther k q id) : q ≠ p := by
  rintro rfl
  have hid : (s.poster k).id = id := h.owned.unique (.inl ⟨k, hp, rfl⟩) ((has_iff s k q id).2 (.inr ho))
  rcases ho with ⟨k', hne, hp', hid'⟩ | hm
  · have hk' : (s.poster k').pc ≠ .idle := fun he => by simp [he, Pc.ptr] at hp'
    exact hne (h.inj k k' (runs_of_ptr hp) hk' (hid.trans hid'.symm)).symm
  · exact (h.posting k (runs_of_ptr hp)).unsent (hid ▸ (h.carried _ hm).sent)

omit [DecidableEq ι] in
theorem Filled.congr {s s' : State ι} {c : Poster} (h : Filled s c)
    (hev : ∀ p, c.pc.ptr = some p → (s'.ev p).type = (s.ev p).type ∧
      (s'.ev p).simpleData = (s.ev p).simpleData) : Filled s' c := by
  simp only [Filled] at h ⊢
  cases hpc : c.pc with
  | data p j =>
    obtain ⟨htype, hdata⟩ := hev p (by simp [hpc, Pc.ptr])
    simpa only [hpc, htype, hdata] using h
  | send p =>
    obtain ⟨htype, hdata⟩ := hev p (by simp [hpc, Pc.ptr])
    simpa only [hpc, AppEvent.Carries, htype, hdata] using h
  | sleep p =>
    obtain ⟨htype, hdata⟩ := hev p (by simp [hpc, Pc.ptr])
    simpa only [hpc, AppEvent.Carries, htype, hdata] using h
  | idle | done => simp only
  | scan | set | malloc | type | undo => simpa only [hpc] using h

/-- A post changes itself, its own event and what is in use on its account. -/
theorem Inv.poster {s s' : State ι} (h : Inv s) {k : ι} {c : Poster}
    (hrun : (s.poster k).pc.runs = true) (hposter : s'.poster = update s.poster k c)
    (hid : c.id = (s.poster k).id) (hmail : s'.mail = s.mail) (hloop : s'.loop = s.loop)
    (hjobs : s'.jobs = s.jobs) (hsent : s'.sent = s.sent) (hcalls : s'.calls = s.calls)
    (hreleased : ∀ id, id ≠ (s.poster k).id → s'.released id = s.released id)
    (hone : s'.released (s.poster k).id ≤ 1)
    (hev : ∀ p, (s.poster k).pc.ptr ≠ some p → (s'.ev p).type = (s.ev p).type ∧
      (s'.ev p).simpleData = (s.ev p).simpleData)
    (howned : Owned s'.Has s'.used) (hc : c.pc.runs = true → Posting s' c)
    (hret : ∀ res, c.pc = .done res → res ≠ rtEok) : Inv s' := by
  have hp := h.posting k hrun
  have hself : s'.poster k = c := by simp [hposter]
  have hother : ∀ {k'}, k' ≠ k → s'.poster k' = s.poster k' := fun hk => by simp [hposter, hk]
  have hqueued : s'.queued = s.queued := by simp [State.queued, hmail, hloop]
  have hcallsOf : ∀ id, s'.callsOf id = s.callsOf id := fun id => by simp [State.callsOf, hcalls]
  have hid_ne : ∀ {id}, id ∈ s.sent → id ≠ (s.poster k).id := fun hs he => hp.unsent (he ▸ hs)
  have hid_lt : (s.poster k).id < s.jobs.length := (List.getElem?_eq_some_iff.1 hp.job).1
  refine ⟨howned, ?_, ?_, ?_, hqueued ▸ h.nodup, ?_, ?_, ?_, ?_, ?_, ?_, ?_⟩
  · intro k' hk'
    rcases eq_or_ne k' k with rfl | hne
    · rw [hself] at hk' ⊢
      exact hc hk'
    · rw [hother hne] at hk' ⊢
      obtain ⟨hjob, hun, hkept, hfill⟩ := h.posting k' hk'
      have hidle' : (s.poster k).pc ≠ .idle := fun he => by simp [he, Pc.runs] at hrun
      refine ⟨hjobs ▸ hjob, hsent ▸ hun, ?_, hfill.congr fun q hq => hev q fun hq' => ?_⟩
      · rw [hreleased _ fun he => hne (h.inj k' k hk' hidle' he)]
        exact hkept
      · exact h.hasOther_ne hq' (.inl ⟨k', hne, hq, rfl⟩) rfl
  · intro k' res hk'
    rw [hjobs, hsent]
    rcases eq_or_ne k' k with rfl | hne
    · rw [hself] at hk' ⊢
      rw [hid]
      exact ⟨hid_lt, fun hs => absurd hs hp.unsent, fun he => absurd he (hret res hk')⟩
    · rw [hother hne] at hk' ⊢
      exact h.returned k' res hk'
  · have hidle' : ∀ k', (s'.poster k').pc ≠ .idle → (s.poster k').pc ≠ .idle := by
      intro k' hk'
      rcases eq_or_ne k' k with rfl | hne
      · exact fun he => by simp [he, Pc.runs] at hrun
      · rwa [hother hne] at hk'
    have hrun' : ∀ k', (s'.poster k').pc.runs = true → (s.poster k').pc.runs = true := by
      intro k' hk'
      rcases eq_or_ne k' k with rfl | hne
      · exact hrun
      · rwa [hother hne] at hk'
    have hid' : ∀ k', (s'.poster k').id = (s.poster k').id := by
      intro k'
      rcases eq_or_ne k' k with rfl | hne
      · rw [hself, hid]
      · rw [hother hne]
    intro k₁ k₂ h₁ h₂ he
    rw [hid', hid'] at he
    exact h.inj k₁ k₂ (hrun' k₁ h₁) (hidle' k₂ h₂) he
  · intro m hm
    rw [hqueued] at hm
    obtain ⟨hs, hkept, job, hjob, hfits, hcarries⟩ := h.carried m hm
    refine ⟨hsent ▸ hs, by rw [hreleased _ (hid_ne hs)]; exact hkept, job, hjobs ▸ hjob, hfits, ?_⟩
    obtain ⟨htype, hdata⟩ := hev m.ptr fun hq => h.hasOther_ne hq (.inr hm) rfl
    rwa [AppEvent.Carries, htype, hdata]
  · intro m job hm hjob
    rw [hloop] at hm ⊢
    rw [hjobs] at hjob
    have := h.loaded m job hm hjob
    revert this
    cases s.loop <;> simp only [Loaded, hcallsOf, imp_self]
  · intro m hm
    rw [hcallsOf]
    exact h.uncalled m (hmail ▸ hm)
  · intro id hs
    rw [hcallsOf]
    exact h.unsent id (hsent ▸ hs)
  · intro id hs hm
    rw [hsent] at hs
    rw [hqueued] at hm
    obtain ⟨job, hjob, hcall, hrel⟩ := h.served id hs hm
    exact ⟨job, hjobs ▸ hjob, by rw [hcallsOf, hcall], by rw [hreleased _ (hid_ne hs), hrel]⟩
  · intro id
    rcases eq_or_ne id (s.poster k).id with rfl | hne
    · exact hone
    · rw [hreleased _ hne]
      exact h.once id
  · intro id hle
    rw [hjobs] at hle
    rw [hsent, hreleased _ (by omega)]
    exact h.fresh id hle

/-- A statement that takes nothing and gives nothing back. -/
theorem Inv.move {s : State ι} (h : Inv s) {k : ι} (hrun : (s.poster k).pc.runs = true) {pc : Pc}
    {ev : Ptr → AppEvent} (henable : ∀ p, (ev p).enable = (s.ev p).enable)
    (hev : ∀ p, (s.poster k).pc.ptr ≠ some p → (ev p).type = (s.ev p).type ∧
      (ev p).simpleData = (s.ev p).simpleData)
    (hptr : pc.ptr = (s.poster k).pc.ptr)
    (hfill : pc.runs = true → Filled { s with ev := ev } { s.poster k with pc := pc })
    (hret : ∀ res, pc = .done res → res ≠ rtEok) : Inv ({ s with ev := ev }.goto k pc) := by
  have hp := h.posting k hrun
  refine h.poster hrun rfl rfl rfl rfl rfl rfl rfl (fun _ _ => rfl) (h.once _) hev ?_ ?_ hret
  · refine h.owned.congr (fun p id => ?_) (fun p => ?_)
    · rw [has_iff s k, ← hptr]
      exact has_goto { s with ev := ev } k pc p id
    · cases p <;> simp [State.used, State.goto, henable]
  · exact fun hpc => ⟨hp.job, hp.unsent, hp.kept, (hfill hpc).congr fun _ _ => ⟨rfl, rfl⟩⟩

/-- A free element or block is taken. -/
theorem Inv.take {s s' : State ι} (h : Inv s) {k : ι} (hrun : (s.poster k).pc.runs = true) {p : Ptr}
    (hptr : (s.poster k).pc.ptr = none) (hfree : ¬s.used p) (hfits : Fits p (s.poster k).job)
    (hs' : s' = { s with ev := s'.ev, heap := s'.heap }) (hused : ∀ q, s'.used q ↔ s.used q ∨ q = p)
    (hev : ∀ q, (s'.ev q).type = (s.ev q).type ∧ (s'.ev q).simpleData = (s.ev q).simpleData) :
    Inv (s'.goto k (.type p)) := by
  have hp := h.posting k hrun
  rw [hs']
  refine h.poster hrun rfl rfl rfl rfl rfl rfl rfl (fun _ _ => rfl) (h.once _) (fun q _ => hev q) ?_ ?_
    nofun
  · refine h.owned.take (p := p) (a := (s.poster k).id) hfree (fun q id => ?_) (fun q => ?_)
    · rw [has_iff s k, hptr]
      refine (has_goto { s with ev := s'.ev, heap := s'.heap } k (.type p) q id).trans ?_
      simp only [Pc.ptr, Option.some.injEq, reduceCtorEq, false_and, false_or, @eq_comm _ p,
        @eq_comm _ _ id]
      exact or_comm
    · rw [← hused q]
      cases q <;> rfl
  · exact fun _ => ⟨hp.job, hp.unsent, hp.kept, hfits⟩

omit [DecidableEq ι] in
/-- Giving an event back frees it, and leaves what it holds. -/
theorem release_spec {p : Ptr} {job : Job} (hfits : Fits p job) (s : State ι) (id : ℕ) :
    ∃ ev heap, s.release job.kind.type p id = { s with
        ev := ev, heap := heap, released := update s.released id (s.released id + 1) } ∧
      (∀ q, (ev q).type = (s.ev q).type ∧ (ev q).simpleData = (s.ev q).simpleData) ∧
      ∀ q, { s with ev := ev, heap := heap : State ι }.used q ↔ s.used q ∧ q ≠ p := by
  cases p with
  | slot i =>
    rw [show job.kind.type = appEvHwIntType from hfits]
    refine ⟨update s.ev (.slot i) { s.ev (.slot i) with enable := 0 }, s.heap, rfl, fun q => ?_,
      fun q => ?_⟩
    · rcases eq_or_ne q (.slot i) with rfl | hne
      · simp
      · simp [hne]
    · cases q with
      | slot j => rcases eq_or_ne j i with rfl | hne <;> simp [State.used, *]
      | block b => simp [State.used]
  | block b =>
    rw [show job.kind.type = appEvDefaultType from hfits]
    refine ⟨s.ev, update s.heap b false, rfl, fun q => ⟨rfl, rfl⟩, fun q => ?_⟩
    cases q with
    | slot j => simp [State.used]
    | block b' => rcases eq_or_ne b' b with rfl | hne <;> simp [State.used, *]

/-- The mailbox was full: the event is given back. -/
theorem Inv.undo {s : State ι} (h : Inv s) {k : ι} {p : Ptr} {res : ℤ}
    (hpc : (s.poster k).pc = .undo p res) :
    Inv ((s.release (s.poster k).job.kind.type p (s.poster k).id).goto k (.done res)) := by
  have hrun : (s.poster k).pc.runs = true := by rw [hpc]; rfl
  have hptr : (s.poster k).pc.ptr = some p := by rw [hpc]; rfl
  have hp := h.posting k hrun
  obtain ⟨hfits, hres⟩ : Fits p (s.poster k).job ∧ res ≠ rtEok := by
    simpa only [Filled, hpc] using hp.filled
  obtain ⟨ev, heap, hs, hev, hused⟩ := release_spec hfits s (s.poster k).id
  rw [hs]
  refine h.poster hrun rfl rfl rfl rfl rfl rfl rfl ?_ ?_ (fun q _ => hev q) ?_ nofun ?_
  · intro id hne
    simp [State.goto, hne]
  · simp [State.goto, hp.kept]
  · refine h.owned.drop (p := p) (fun q id => ?_) fun q => ?_
    · rw [has_iff s k, hptr, has_goto]
      constructor
      · rintro (⟨hq, -⟩ | ho)
        · exact nomatch hq
        · exact ⟨.inr ho, h.hasOther_ne hptr ho⟩
      · rintro ⟨⟨hq, -⟩ | ho, hne⟩
        · exact absurd (Option.some.inj hq).symm hne
        · exact .inr ho
    · rw [← hused]
      cases q <;> rfl
  · rintro _ ⟨⟩
    exact hres

/-- The address goes into the mailbox. -/
theorem Inv.deliver {s : State ι} (h : Inv s) {k : ι} {p : Ptr}
    (hpc : (s.poster k).pc = .send p ∨ (s.poster k).pc = .sleep p) : Inv (s.deliver k p) := by
  have hrun : (s.poster k).pc.runs = true := by rcases hpc with hpc | hpc <;> rw [hpc] <;> rfl
  have hptr : (s.poster k).pc.ptr = some p := by rcases hpc with hpc | hpc <;> rw [hpc] <;> rfl
  have hp := h.posting k hrun
  obtain ⟨hfits, hcarries⟩ : Fits p (s.poster k).job ∧ (s.ev p).Carries (s.poster k).job := by
    have := hp.filled
    rcases hpc with hpc | hpc <;> simpa only [Filled, hpc] using this
  have hself : (s.deliver k p).poster k = { s.poster k with pc := .done rtEok } := by
    simp [State.deliver, State.goto]
  have hother : ∀ {k'}, k' ≠ k → (s.deliver k p).poster k' = s.poster k' := fun hne => by
    simp [State.deliver, State.goto, hne]
  have hqueued : (s.deliver k p).queued = s.queued ++ [⟨p, (s.poster k).id⟩] := by
    simp [State.queued, State.deliver, State.goto]
  have hsent : (s.deliver k p).sent = s.sent ++ [(s.poster k).id] := rfl
  have hid_lt : (s.poster k).id < s.jobs.length := (List.getElem?_eq_some_iff.1 hp.job).1
  have hnot_idle : ∀ k, (s.poster k).pc.runs = true → (s.poster k).pc ≠ .idle :=
    fun k hk he => by simp [he, Pc.runs] at hk
  have hne_id : ∀ m ∈ s.queued, m.id ≠ (s.poster k).id := fun m hm he =>
    hp.unsent (he ▸ (h.carried m hm).sent)
  refine ⟨?_, ?_, ?_, ?_, ?_, ?_, ?_, ?_, ?_, ?_, h.once, ?_⟩
  · refine h.owned.congr (fun q id => ?_) fun q => by cases q <;> rfl
    rw [has_iff _ k, has_iff s k, hself, hptr]
    simp only [State.HasOther, hqueued, List.mem_append, List.mem_singleton, Mail.mk.injEq]
    constructor
    · rintro (⟨hq, -⟩ | ⟨k', hne, hk'⟩ | hm | ⟨rfl, rfl⟩)
      · exact nomatch hq
      · exact .inr (.inl ⟨k', hne, hother hne ▸ hk'⟩)
      · exact .inr (.inr hm)
      · exact .inl ⟨rfl, rfl⟩
    · rintro (⟨hq, rfl⟩ | ⟨k', hne, hk'⟩ | hm)
      · exact .inr (.inr (.inr ⟨(Option.some.inj hq).symm, rfl⟩))
      · exact .inr (.inl ⟨k', hne, (hother hne).symm ▸ hk'⟩)
      · exact .inr (.inr (.inl hm))
  · intro k' hk'
    rcases eq_or_ne k' k with rfl | hne
    · rw [hself] at hk'
      exact nomatch hk'
    · rw [hother hne] at hk' ⊢
      obtain ⟨hjob, hun, hkept, hfill⟩ := h.posting k' hk'
      refine ⟨hjob, ?_, hkept, hfill.congr fun q hq => ⟨rfl, rfl⟩⟩
      simp only [hsent, List.mem_append, List.mem_singleton, not_or]
      exact ⟨hun, fun he => hne (h.inj k' k hk' (hnot_idle k hrun) he)⟩
  · intro k' res hk'
    simp only [hsent, List.mem_append, List.mem_singleton]
    rcases eq_or_ne k' k with rfl | hne
    · rw [hself] at hk' ⊢
      exact ⟨hid_lt, fun _ => (Pc.done.inj hk').symm, fun _ => .inr rfl⟩
    · rw [hother hne] at hk' ⊢
      obtain ⟨hlt, hret⟩ := h.returned k' res hk'
      refine ⟨hlt, ?_, fun hres => .inl (hret.2 hres)⟩
      rintro (hs | he)
      · exact hret.1 hs
      · exact absurd (h.inj k k' hrun (by simp [hk']) he.symm).symm hne
  · intro k₁ k₂ h₁ h₂ he
    rcases eq_or_ne k₁ k with rfl | hne₁
    · rw [hself] at h₁
      exact nomatch h₁
    · rw [hother hne₁] at h₁ he
      rcases eq_or_ne k₂ k with rfl | hne₂
      · rw [hself] at he
        exact h.inj k₁ k₂ h₁ (hnot_idle k₂ hrun) he
      · rw [hother hne₂] at h₂ he
        exact h.inj k₁ k₂ h₁ h₂ he
  · rw [hqueued, List.map_append, List.nodup_append]
    refine ⟨h.nodup, List.nodup_singleton _, ?_⟩
    rintro _ ha _ hb rfl
    obtain ⟨m, hm, he⟩ := List.mem_map.1 ha
    exact hne_id m hm (he.trans (List.mem_singleton.1 hb))
  · intro m hm
    rw [hqueued, List.mem_append, List.mem_singleton] at hm
    rcases hm with hm | rfl
    · obtain ⟨hs, hkept, hjob⟩ := h.carried m hm
      exact ⟨List.mem_append_left _ hs, hkept, hjob⟩
    · exact ⟨by simp [hsent], hp.kept, (s.poster k).job, hp.job, hfits, hcarries⟩
  · exact h.loaded
  · intro m hm
    rcases List.mem_append.1 (show m ∈ s.mail ++ [⟨p, (s.poster k).id⟩] from hm) with hm | hm
    · exact h.uncalled m hm
    · rw [List.mem_singleton.1 hm]
      exact h.unsent _ hp.unsent
  · intro id hs
    exact h.unsent id fun hs' => hs (List.mem_append_left _ hs')
  · intro id hs hm
    rw [hqueued] at hm
    rcases List.mem_append.1 (hsent ▸ hs) with hs | hs
    · exact h.served id hs fun m hm' => hm m (List.mem_append_left _ hm')
    · exact absurd (List.mem_singleton.1 hs).symm (hm ⟨p, (s.poster k).id⟩ (by simp))
  · intro id hle
    have hlen : s.jobs.length ≤ id := hle
    refine ⟨?_, (h.fresh id hle).2⟩
    simp only [hsent, List.mem_append, List.mem_singleton, not_or]
    exact ⟨(h.fresh id hle).1, by omega⟩

/-- Another post begins. -/
theorem Inv.call {s : State ι} (h : Inv s) {k : ι} (hrun : (s.poster k).pc.runs ≠ true) (job : Job) :
    Inv { s with
      poster := update s.poster k ⟨job.kind.entry, s.jobs.length, job⟩, jobs := s.jobs ++ [job] } := by
  set c : Poster := ⟨job.kind.entry, s.jobs.length, job⟩ with hc
  set s' : State ι := { s with poster := update s.poster k c, jobs := s.jobs ++ [job] } with hs'
  have hself : s'.poster k = c := update_self ..
  have hother : ∀ {k'}, k' ≠ k → s'.poster k' = s.poster k' := fun hne => update_of_ne hne ..
  have hold : ∀ {id : ℕ} {job' : Job}, s.jobs[id]? = some job' → s'.jobs[id]? = some job' :=
    fun hid => by
      have hlt := (List.getElem?_eq_some_iff.1 hid).1
      simpa [hs', List.getElem?_append_left hlt] using hid
  have hid_lt : ∀ k', (s.poster k').pc ≠ .idle → (s.poster k').id < s.jobs.length := by
    intro k' hk'
    cases hpc : (s.poster k').pc with
    | idle => exact absurd hpc hk'
    | done res => exact (h.returned k' res hpc).1
    | _ => exact (List.getElem?_eq_some_iff.1 (h.posting k' (by rw [hpc]; rfl)).job).1
  have hnot_idle : ∀ k, (s.poster k).pc.runs = true → (s.poster k).pc ≠ .idle :=
    fun k hk he => by simp [he, Pc.runs] at hk
  have hentry : c.pc.ptr = none ∧ Filled s' c ∧ c.pc.runs = true ∧ c.pc ≠ .idle := by
    cases hkind : job.kind <;> simp [hc, Kind.entry, hkind, Pc.ptr, Pc.runs, Filled, Kind.type]
  have hptr : (s.poster k).pc.ptr = none := by
    cases hpc : (s.poster k).pc with
    | idle | done => rfl
    | _ => exact absurd (by rw [hpc]; rfl) hrun
  refine ⟨?_, ?_, ?_, ?_, h.nodup, ?_, ?_, h.uncalled, h.unsent, ?_, h.once, ?_⟩
  · refine h.owned.congr (fun p id => ?_) fun p => by cases p <;> rfl
    rw [has_iff s k, hptr, @has_update _ _ s s' k c rfl rfl, hentry.1]
    simp
  · intro k' hk'
    rcases eq_or_ne k' k with rfl | hne
    · rw [hself]
      exact ⟨by simp [hs', hc], (h.fresh _ le_rfl).1, (h.fresh _ le_rfl).2, hentry.2.1⟩
    · rw [hother hne] at hk' ⊢
      obtain ⟨hjob, hun, hkept, hfill⟩ := h.posting k' hk'
      exact ⟨hold hjob, hun, hkept, hfill.congr fun _ _ => ⟨rfl, rfl⟩⟩
  · intro k' res hk'
    rcases eq_or_ne k' k with rfl | hne
    · rw [hself] at hk'
      rw [hk'] at hentry
      exact nomatch hentry.2.2.1
    · rw [hother hne] at hk' ⊢
      obtain ⟨hlt, hret⟩ := h.returned k' res hk'
      exact ⟨by simpa [hs'] using Nat.lt_succ_of_lt hlt, hret⟩
  · intro k₁ k₂ h₁ h₂ he
    rcases eq_or_ne k₁ k with hk₁ | hne₁
    · rcases eq_or_ne k₂ k with hk₂ | hne₂
      · rw [hk₁, hk₂]
      · rw [hk₁, hself, hother hne₂] at he
        rw [hother hne₂] at h₂
        exact absurd he.symm (hid_lt k₂ h₂).ne
    · rw [hother hne₁] at h₁ he
      rcases eq_or_ne k₂ k with hk₂ | hne₂
      · rw [hk₂, hself] at he
        exact absurd he (hid_lt k₁ (hnot_idle k₁ h₁)).ne
      · rw [hother hne₂] at h₂ he
        exact h.inj k₁ k₂ h₁ h₂ he
  · intro m hm
    obtain ⟨hs, hkept, job', hjob, hcarries⟩ := h.carried m hm
    exact ⟨hs, hkept, job', hold hjob, hcarries⟩
  · intro m job' hm hjob
    obtain ⟨-, -, job₀, hjob₀, -⟩ := h.carried m (mem_queued_of_mail hm)
    obtain rfl : job₀ = job' := Option.some.inj ((hold hjob₀).symm.trans hjob)
    exact h.loaded m job₀ hm hjob₀
  · intro id hs hm
    obtain ⟨job', hjob, hcalls⟩ := h.served id hs hm
    exact ⟨job', hold hjob, hcalls⟩
  · intro id hle
    refine h.fresh id ?_
    simp only [hs', List.length_append, List.length_singleton] at hle
    omega

/-- A statement of a post, in which no element is taken twice. -/
theorem Inv.stepPoster {s : State ι} (h : Inv s) {k : ι} {got : Option ℕ} {wake : Wake}
    (hok : Ok s (.poster k got wake)) : Inv (stepPoster s k got wake) := by
  simp only [AppEv.stepPoster]
  cases hpc : (s.poster k).pc with
  | idle | done => exact h
  | scan i =>
    have hrun : (s.poster k).pc.runs = true := by rw [hpc]; rfl
    have hfill := (h.posting k hrun).filled
    simp only [Filled, hpc] at hfill
    refine h.move hrun (fun _ => rfl) (fun _ _ => ⟨rfl, rfl⟩) ?_ ?_ ?_
    · rw [hpc]
      split_ifs <;> rfl
    · split_ifs <;> intro hruns <;> first | exact hfill | exact nomatch hruns
    · split_ifs <;> rintro _ ⟨⟩
      decide
  | set i =>
    have hrun : (s.poster k).pc.runs = true := by rw [hpc]; rfl
    have hfill := (h.posting k hrun).filled
    simp only [Filled, hpc] at hfill
    refine h.take hrun (by rw [hpc]; rfl) (p := .slot i) ?_ hfill rfl (fun q => ?_) fun q => ?_
    · exact fun hused => hused (hok i hpc)
    · cases q with
      | slot j => rcases eq_or_ne j i with rfl | hne <;> simp [State.used, State.write, *]
      | block b => simp [State.used, State.write]
    · rcases eq_or_ne q (.slot i) with rfl | hne <;> simp [State.write, *]
  | malloc =>
    have hrun : (s.poster k).pc.runs = true := by rw [hpc]; rfl
    have hfill := (h.posting k hrun).filled
    simp only [Filled, hpc] at hfill
    cases got with
    | none =>
      refine h.move hrun (fun _ => rfl) (fun _ _ => ⟨rfl, rfl⟩) (by rw [hpc]; rfl) nofun ?_
      rintro _ ⟨⟩
      decide
    | some b =>
      dsimp only
      split
      · exact h
      · next hb =>
        refine h.take hrun (by rw [hpc]; rfl) (p := .block b) hb hfill rfl (fun q => ?_) fun q => ⟨rfl, rfl⟩
        cases q with
        | slot j => simp [State.used]
        | block b' => rcases eq_or_ne b' b with rfl | hne <;> simp [State.used, *]
  | type p =>
    have hrun : (s.poster k).pc.runs = true := by rw [hpc]; rfl
    have hfill := (h.posting k hrun).filled
    simp only [Filled, hpc] at hfill
    refine h.move hrun (fun q => ?_) (fun q hq => ?_) (by rw [hpc]; rfl) (fun _ => ?_) nofun
    · rcases eq_or_ne q p with rfl | hne <;> simp [*]
    · have hne : q ≠ p := by
        rintro rfl
        exact hq (by rw [hpc]; rfl)
      simp [hne]
    · simp [Filled, hfill]
  | data p j =>
    have hrun : (s.poster k).pc.runs = true := by rw [hpc]; rfl
    have hfill := (h.posting k hrun).filled
    simp only [Filled, hpc] at hfill
    obtain ⟨hfits, htype, hdata⟩ := hfill
    refine h.move hrun (fun q => ?_) (fun q hq => ?_) ?_ (fun _ => ?_) ?_
    · rcases eq_or_ne q p with rfl | hne <;> simp [*]
    · have hne : q ≠ p := by
        rintro rfl
        exact hq (by rw [hpc]; rfl)
      simp [hne]
    · rw [hpc]
      split_ifs <;> rfl
    · have hword : ∀ i < j + 1,
          update (s.ev p).simpleData j ((s.poster k).job.word j) i = (s.poster k).job.word i := by
        intro i hi
        rcases eq_or_ne i j with rfl | hne
        · exact update_self ..
        · rw [update_of_ne hne]
          exact hdata i (by omega)
      split_ifs with hj
      · simpa [Filled, hfits, htype] using hword
      · have hcarried : ∀ i < 4,
            update (s.ev p).simpleData j ((s.poster k).job.word j) i = (s.poster k).job.word i :=
          fun i hi => hword i (by omega)
        simpa [Filled, AppEvent.Carries, hfits, htype] using hcarried
    · split_ifs <;> exact nofun
  | send p =>
    have hrun : (s.poster k).pc.runs = true := by rw [hpc]; rfl
    have hfill := (h.posting k hrun).filled
    simp only [Filled, hpc] at hfill
    dsimp only
    split
    · exact h.deliver (.inl hpc)
    · refine h.move hrun (fun _ => rfl) (fun _ _ => ⟨rfl, rfl⟩) ?_ ?_ ?_
      · rw [hpc]
        split_ifs <;> rfl
      · split_ifs <;> intro _
        · exact ⟨hfill.1, by decide⟩
        · exact hfill
      · split_ifs <;> exact nofun
  | sleep p =>
    have hrun : (s.poster k).pc.runs = true := by rw [hpc]; rfl
    have hfill := (h.posting k hrun).filled
    simp only [Filled, hpc] at hfill
    have hundo : ∀ res, res ≠ rtEok → Inv (s.goto k (.undo p res)) := fun res hres =>
      h.move hrun (fun _ => rfl) (fun _ _ => ⟨rfl, rfl⟩) (by rw [hpc]; rfl)
        (fun _ => ⟨hfill.1, hres⟩) nofun
    cases wake with
    | mail =>
      dsimp only
      split
      · exact h.deliver (.inr hpc)
      · exact h
    | timer =>
      dsimp only
      split
      · exact hundo _ (by decide)
      · exact h
    | late =>
      dsimp only
      split
      · exact hundo _ (by decide)
      · exact h
  | undo p res => exact h.undo hpc

/-! ### A statement of the dispatcher -/

omit [DecidableEq ι] in
/-- The dispatcher goes on with its mail, takes the next one, or waits. -/
theorem Inv.loop {s s' : State ι} (h : Inv s)
    (hs' : s' = { s with mail := s'.mail, loop := s'.loop, calls := s'.calls })
    (hqueued : s'.queued = s.queued) (hmail : ∀ m ∈ s'.mail, m ∈ s.mail)
    (hcalls : ∀ id, (∀ m, s.loop.mail = some m → m.id ≠ id) → s'.callsOf id = s.callsOf id)
    (hloaded : ∀ m job, s'.loop.mail = some m → s.jobs[m.id]? = some job → Loaded s' job s'.loop) :
    Inv s' := by
  have hposter : s'.poster = s.poster := by rw [hs']
  have hjobs : s'.jobs = s.jobs := by rw [hs']
  have hsent : s'.sent = s.sent := by rw [hs']
  have hreleased : s'.released = s.released := by rw [hs']
  have hev : s'.ev = s.ev := by rw [hs']
  refine ⟨?_, ?_, ?_, ?_, hqueued ▸ h.nodup, ?_, ?_, ?_, ?_, ?_, ?_, ?_⟩
  · refine h.owned.congr (fun p id => ?_) fun p => ?_
    · rw [State.Has, State.Has, hposter, hqueued]
    · rw [hs']
      cases p <;> rfl
  · intro k hk
    rw [hposter] at hk ⊢
    obtain ⟨hjob, hun, hkept, hfill⟩ := h.posting k hk
    exact ⟨hjobs ▸ hjob, hsent ▸ hun, hreleased ▸ hkept, hfill.congr fun _ _ => by rw [hev]; exact ⟨rfl, rfl⟩⟩
  · rw [hposter, hjobs, hsent]
    exact h.returned
  · rw [hposter]
    exact h.inj
  · intro m hm
    obtain ⟨hs, hkept, hjob⟩ := h.carried m (hqueued ▸ hm)
    exact ⟨hsent ▸ hs, hreleased ▸ hkept, by rw [hjobs, hev]; exact hjob⟩
  · rw [hjobs]
    exact hloaded
  · intro m hm
    rw [hcalls]
    · exact h.uncalled m (hmail m hm)
    · intro n hn he
      have hnodup := h.nodup
      simp only [State.queued, hn, Option.toList_some, List.singleton_append, List.map_cons,
        List.nodup_cons] at hnodup
      exact hnodup.1 (he ▸ List.mem_map_of_mem (hmail m hm))
  · intro id hs
    rw [hsent] at hs
    rw [hcalls]
    · exact h.unsent id hs
    · rintro m hm rfl
      exact hs (h.carried m (mem_queued_of_mail hm)).sent
  · intro id hs hm
    rw [hqueued] at hm
    obtain ⟨job, hjob, hcall, hrel⟩ := h.served id (hsent ▸ hs) hm
    refine ⟨job, hjobs ▸ hjob, ?_, hreleased ▸ hrel⟩
    rw [hcalls id fun m hm' => hm m (mem_queued_of_mail hm'), hcall]
  · rw [hreleased]
    exact h.once
  · rw [hjobs, hsent, hreleased]
    exact h.fresh

omit [DecidableEq ι] in
/-- The event is given back, and its post has been served. -/
theorem Inv.release {s : State ι} (h : Inv s) {m : Mail} {type : ℕ} (hloop : s.loop = .release m type) :
    Inv { s.release type m.ptr m.id with loop := .recv } := by
  have hmail : s.loop.mail = some m := by rw [hloop]; rfl
  have hqueued : s.queued = m :: s.mail := by rw [State.queued, hmail]; rfl
  have hm : m ∈ s.queued := mem_queued_of_mail hmail
  obtain ⟨hsent, hkept, job, hjob, hfits, -⟩ := h.carried m hm
  obtain ⟨htype, hcalls⟩ : type = job.kind.type ∧ s.callsOf m.id = job.calls m.id := by
    have := h.loaded m job hmail hjob
    simpa only [hloop, Loaded] using this
  have hnodup := h.nodup
  rw [hqueued, List.map_cons, List.nodup_cons] at hnodup
  have hne : ∀ n ∈ s.mail, n.id ≠ m.id := fun n hn he => hnodup.1 (he ▸ List.mem_map_of_mem hn)
  have hnot_post : ∀ k, (s.poster k).pc.runs = true → (s.poster k).id ≠ m.id := fun k hk he =>
    (h.posting k hk).unsent (he ▸ hsent)
  obtain ⟨ev, heap, hs, hev, hused⟩ := release_spec hfits s m.id
  rw [htype, hs]
  refine ⟨?_, ?_, h.returned, h.inj, hnodup.2, ?_, nofun, fun n hn => h.uncalled n hn, h.unsent, ?_, ?_,
    ?_⟩
  · refine h.owned.drop (p := m.ptr) (fun q id => ?_) fun q => ?_
    · have hunique : s.Has q id → q = m.ptr → id = m.id := by
        rintro hq rfl
        exact h.owned.unique hq (.inr hm)
      constructor
      · rintro (⟨k, hk, hid⟩ | hq)
        · have hq : s.Has q id := .inl ⟨k, hk, hid⟩
          exact ⟨hq, fun he => hnot_post k (runs_of_ptr hk) (hid.trans (hunique hq he))⟩
        · have hq' : (⟨q, id⟩ : Mail) ∈ s.mail := hq
          have hhas : s.Has q id := .inr (mem_queued.2 (.inr hq'))
          exact ⟨hhas, fun he => hne _ hq' (hunique hhas he)⟩
      · rintro ⟨hk | hq, hne'⟩
        · exact .inl hk
        · rw [hqueued, List.mem_cons] at hq
          rcases hq with rfl | hq
          · exact absurd rfl hne'
          · exact .inr hq
    · rw [← hused]
      cases q <;> rfl
  · intro k hk
    obtain ⟨hjob', hun, hkept', hfill⟩ := h.posting k hk
    exact ⟨hjob', hun, by simpa [hnot_post k hk] using hkept', hfill.congr fun q _ => hev q⟩
  · intro n hn
    have hn' : n ∈ s.mail := hn
    obtain ⟨hs', hkept', job', hjob', hfits', hcarries⟩ := h.carried n (mem_queued.2 (.inr hn'))
    refine ⟨hs', by simpa [hne n hn'] using hkept', job', hjob', hfits', ?_⟩
    rwa [AppEvent.Carries, (hev n.ptr).1, (hev n.ptr).2]
  · intro id hid hn
    rcases eq_or_ne id m.id with rfl | hid_ne
    · exact ⟨job, hjob, hcalls, by simp [hkept]⟩
    · have hfree : ∀ n ∈ s.queued, n.id ≠ id := by
        intro n hn'
        rw [hqueued, List.mem_cons] at hn'
        rcases hn' with rfl | hn'
        · exact hid_ne.symm
        · exact hn n hn'
      obtain ⟨job', hjob', hcalls', hrel⟩ := h.served id hid hfree
      exact ⟨job', hjob', hcalls', by simpa [hid_ne] using hrel⟩
  · intro id
    rcases eq_or_ne id m.id with rfl | hid_ne
    · simp [hkept]
    · simpa [hid_ne] using h.once id
  · intro id hle
    obtain ⟨hun, hrel⟩ := h.fresh id hle
    have hid_ne : id ≠ m.id := by
      rintro rfl
      exact hun hsent
    exact ⟨hun, by simpa [hid_ne] using hrel⟩

omit [DecidableEq ι] in
/-- Calls for the mail in hand are no calls for another post. -/
theorem callsOf_append {s : State ι} {id id' func arg : ℕ} (hne : id' ≠ id) :
    (s.calls ++ callOf id' func arg).filter (fun c => c.id = id) = s.callsOf id := by
  simp only [callOf, State.callsOf]
  split <;> simp [hne]

omit [DecidableEq ι] in
theorem callsOf_append_self {s : State ι} {id func arg : ℕ} :
    (s.calls ++ callOf id func arg).filter (fun c => c.id = id) =
      s.callsOf id ++ callOf id func arg := by
  simp only [callOf, State.callsOf]
  split <;> simp

omit [DecidableEq ι] in
/-- A statement of the dispatcher, in which no element in use is cleared. -/
theorem Inv.stepLoop {s : State ι} (h : Inv s) (hok : Ok s .loop) : Inv (stepLoop s) := by
  have hhand : ∀ m job, s.loop.mail = some m → s.jobs[m.id]? = some job →
      (s.ev m.ptr).Carries job ∧ Loaded s job s.loop := by
    intro m job hm hjob
    obtain ⟨-, -, job', hjob', -, hcarries⟩ := h.carried m (mem_queued_of_mail hm)
    obtain rfl : job' = job := Option.some.inj (hjob'.symm.trans hjob)
    exact ⟨hcarries, h.loaded m job' hm hjob⟩
  -- a statement that only changes the local variables
  have hlocal : ∀ st : Stage, st.mail = s.loop.mail →
      (∀ m job, st.mail = some m → s.jobs[m.id]? = some job → Loaded s job st) →
      Inv { s with loop := st } := by
    intro st hst hloaded
    refine h.loop rfl ?_ (fun _ hm => hm) (fun _ _ => rfl) fun m job hm hjob => ?_
    · rw [State.queued, State.queued, ← hst]
    · have := hloaded m job hm hjob
      cases st <;> exact this
  simp only [AppEv.stepLoop]
  cases hloop : s.loop with
  | init i =>
    have hsame : s.destoryAppEvent (.slot i) = s := by
      have : { s.ev (.slot i) with enable := 0 } = s.ev (.slot i) := by rw [← hok i hloop]
      rw [State.destoryAppEvent, State.write, this, update_eq_self]
    dsimp only
    rw [hsame]
    refine hlocal _ ?_ ?_
    · rw [hloop]
      split_ifs <;> rfl
    · split_ifs <;> exact nofun
  | recv =>
    cases hmail : s.mail with
    | nil => exact h
    | cons m mail =>
      refine h.loop rfl ?_ ?_ (fun _ _ => rfl) ?_
      · simp [State.queued, hloop, hmail, Stage.mail]
      · exact fun n hn => hmail ▸ List.mem_cons_of_mem m hn
      · rintro n job hn -
        obtain rfl : m = n := Option.some.inj hn
        exact h.uncalled m (by simp [hmail])
  | switch m =>
    have hm : s.loop.mail = some m := by rw [hloop]; rfl
    have htype : (s.ev m.ptr).type = appEvDefaultType ∨ (s.ev m.ptr).type = appEvHwIntType := by
      obtain ⟨-, -, job, -, -, hcarries⟩ := h.carried m (mem_queued_of_mail hm)
      rw [hcarries.1]
      cases job.kind <;> simp [Kind.type]
    have hload : Inv { s with loop := .loadCb m (s.ev m.ptr).type } := by
      refine hlocal _ (by rw [hloop]; rfl) ?_
      rintro n job ⟨⟩ hjob
      obtain ⟨hcarries, hcalls⟩ := hhand m job hm hjob
      rw [hloop] at hcalls
      exact ⟨hcarries.1, hcalls⟩
    dsimp only
    split_ifs with hdefault hhw
    · exact hload
    · exact hload
    · exact absurd htype (by simp [hdefault, hhw])
  | loadCb m type =>
    have hm : s.loop.mail = some m := by rw [hloop]; rfl
    refine hlocal _ (by rw [hloop]; rfl) ?_
    rintro n job ⟨⟩ hjob
    obtain ⟨hcarries, hloaded⟩ := hhand m job hm hjob
    rw [hloop] at hloaded
    exact ⟨hloaded.1, hcarries.2 0 (by omega), hloaded.2⟩
  | loadReply m type cb =>
    have hm : s.loop.mail = some m := by rw [hloop]; rfl
    refine hlocal _ (by rw [hloop]; rfl) ?_
    rintro n job ⟨⟩ hjob
    obtain ⟨hcarries, hloaded⟩ := hhand m job hm hjob
    rw [hloop] at hloaded
    exact ⟨hloaded.1, hloaded.2.1, hcarries.2 2 (by omega), hloaded.2.2⟩
  | call m type cb cbReply =>
    have hm : s.loop.mail = some m := by rw [hloop]; rfl
    refine h.loop rfl ?_ (fun _ hm => hm) (fun id hid => callsOf_append (hid m hm)) ?_
    · simp [State.queued, hloop, Stage.mail]
    · rintro n job ⟨⟩ hjob
      obtain ⟨hcarries, hloaded⟩ := hhand m job hm hjob
      rw [hloop] at hloaded
      obtain ⟨htype, hcb, hreply, hcalls⟩ := hloaded
      refine ⟨htype, hreply, ?_⟩
      rw [State.callsOf, callsOf_append_self, hcalls, hcb, hcarries.2 1 (by omega)]
      rfl
  | reply m type cbReply =>
    have hm : s.loop.mail = some m := by rw [hloop]; rfl
    refine h.loop rfl ?_ (fun _ hm => hm) (fun id hid => callsOf_append (hid m hm)) ?_
    · simp [State.queued, hloop, Stage.mail]
    · rintro n job ⟨⟩ hjob
      obtain ⟨hcarries, hloaded⟩ := hhand m job hm hjob
      rw [hloop] at hloaded
      obtain ⟨htype, hreply, hcalls⟩ := hloaded
      refine ⟨htype, ?_⟩
      rw [State.callsOf, callsOf_append_self, hcalls, hreply, hcarries.2 3 (by omega)]
      rfl
  | release m type => exact h.release hloop

/-! ### Runs -/

theorem Inv.step {s : State ι} (h : Inv s) {a : Act ι} (hok : Ok s a) : Inv (step s a) := by
  cases a with
  | call k job =>
    simp only [AppEv.step]
    split
    · exact h
    · next hrun => exact h.call hrun job
  | poster k got wake => exact h.stepPoster hok
  | loop => exact h.stepLoop hok

theorem reach_inv {s : State ι} (h : Reach (system ι) Ok s) : Inv s := by
  refine h.invariant ?_ ?_
  · rintro s rfl
    exact Inv.init
  · rintro s a s' hinv hok rfl
    exact hinv.step hok

/-- The statements that the dispatcher has left for the mail in hand. -/
def Stage.left : Stage → ℕ
  | .init _ => 0
  | .recv => 0
  | .switch _ => 6
  | .loadCb _ _ => 5
  | .loadReply _ _ _ => 4
  | .call _ _ _ _ => 3
  | .reply _ _ _ => 2
  | .release _ _ => 1

def State.work (s : State ι) : ℕ := s.loop.left + 7 * s.mail.length

omit [DecidableEq ι] in
/-- The dispatcher waits, or has one statement less before it. -/
theorem stepLoop_work (s : State ι) (hready : s.loop.ready = true) :
    s.queued = [] ∨ (stepLoop s).work < s.work ∧ (stepLoop s).loop.ready = true := by
  simp only [stepLoop, State.work, State.queued]
  cases hloop : s.loop with
  | init i =>
    rw [hloop] at hready
    exact nomatch hready
  | recv =>
    cases hmail : s.mail with
    | nil => exact .inl rfl
    | cons m mail =>
      refine .inr ⟨?_, rfl⟩
      simp only [Stage.left, List.length_cons]
      omega
  | switch m =>
    right
    dsimp only
    split_ifs <;> simp [Stage.left, Stage.ready]
  | release m type =>
    right
    simp only [State.release, State.rtFree]
    split_ifs
    · exact ⟨by simp [Stage.left, State.destoryAppEvent, State.write], rfl⟩
    · cases m.ptr <;> exact ⟨by simp [Stage.left], rfl⟩
  | _ => exact .inr ⟨by simp [Stage.left], rfl⟩

omit [DecidableEq ι] in
theorem stepLoop_sent (s : State ι) : (stepLoop s).sent = s.sent := by
  simp only [stepLoop]
  cases s.loop with
  | recv => cases s.mail <;> rfl
  | release m type =>
    simp only [State.release, State.rtFree]
    split_ifs
    · rfl
    · cases m.ptr <;> rfl
  | _ => rfl

omit [DecidableEq ι] in
/-- With the pool cleared, the dispatcher serves every post that has succeeded. -/
theorem Inv.drains {s : State ι} (h : Inv s) (hready : s.loop.ready = true) :
    ∃ n, ∀ id ∈ s.sent, Served (AppEv.stepLoop^[n] s) id := by
  induction hw : s.work using Nat.strong_induction_on generalizing s with
  | _ w ih =>
    rcases stepLoop_work s hready with hempty | ⟨hless, hready'⟩
    · exact ⟨0, fun id hid => h.served id hid (by simp [hempty])⟩
    · have hok : Ok s .loop := by
        intro i hi
        rw [hi] at hready
        exact nomatch hready
      obtain ⟨n, hn⟩ := ih _ (hw ▸ hless) (h.stepLoop hok) hready' rfl
      exact ⟨n + 1, fun id hid => hn id (by rwa [stepLoop_sent])⟩

/-- A post leaves what the other ones have. -/
theorem has_stepPoster (s : State ι) (k : ι) (got : Option ℕ) (wake : Wake) (p : Ptr) {id : ℕ}
    (hne : id ≠ (s.poster k).id) : (stepPoster s k got wake).Has p id ↔ s.Has p id := by
  have hgoto : ∀ (t : State ι) (pc : Pc), t.poster = s.poster →
      (⟨p, id⟩ ∈ t.queued ↔ ⟨p, id⟩ ∈ s.queued) → ((t.goto k pc).Has p id ↔ s.Has p id) := by
    intro t pc hposter hqueued
    rw [has_goto, has_iff s k, State.HasOther, State.HasOther, hposter, hqueued]
    simp [hne.symm]
  have hdeliver : ∀ q, (s.deliver k q).Has p id ↔ s.Has p id := fun q =>
    hgoto _ _ rfl (by simp [State.queued, hne])
  simp only [AppEv.stepPoster]
  cases (s.poster k).pc with
  | idle | done => rfl
  | scan | set | type | data => exact hgoto _ _ rfl Iff.rfl
  | malloc =>
    cases got with
    | none => exact hgoto _ _ rfl Iff.rfl
    | some b =>
      dsimp only
      split
      · rfl
      · exact hgoto _ _ rfl Iff.rfl
  | send q =>
    dsimp only
    split
    · exact hdeliver q
    · exact hgoto _ _ rfl Iff.rfl
  | sleep q =>
    cases wake <;> dsimp only <;> split <;>
      first | exact hdeliver q | exact hgoto _ _ rfl Iff.rfl | rfl
  | undo q res =>
    refine hgoto _ _ ?_ ?_ <;> simp only [State.release, State.rtFree] <;> split_ifs
    · rfl
    · cases q <;> rfl
    · rfl
    · cases q <;> rfl

theorem Inv.correct {s : State ι} (h : Inv s) : Correct s := by
  refine ⟨h.owned, ?_, h.unsent, h.once, ?_, ?_, ?_, ?_, h.drains⟩
  · intro id hid
    by_cases hq : ∃ m ∈ s.queued, m.id = id
    · obtain ⟨m, hm, rfl⟩ := hq
      obtain ⟨job, hjob, -⟩ := (h.carried m hm).job
      refine ⟨job, hjob, ?_⟩
      rcases mem_queued.1 hm with hm | hm
      · exact (h.loaded m job hm hjob).part_of hm
      · rw [h.uncalled m hm]
        exact List.nil_prefix
    · obtain ⟨job, hjob, hcalls, -⟩ := h.served id hid fun m hm he => hq ⟨m, hm, he⟩
      exact ⟨job, hjob, hcalls ▸ List.prefix_rfl⟩
  · intro id hid hone
    have hq : ∀ m ∈ s.queued, m.id ≠ id := by
      rintro m hm rfl
      have := (h.carried m hm).kept
      omega
    exact ⟨h.served id hid hq, not_has hq fun k hk he => (h.posting k hk).unsent (he ▸ hid)⟩
  · exact fun k hk => (h.returned k _ hk).2.2 rfl
  · intro k res hk hres
    have hun : (s.poster k).id ∉ s.sent := fun hs => hres ((h.returned k _ hk).2.1 hs)
    refine ⟨h.unsent _ hun, not_has ?_ ?_, h.once _⟩
    · rintro m hm he
      exact hun (he ▸ (h.carried m hm).sent)
    · intro k' hk' he
      obtain rfl := h.inj k' k hk' (by simp [hk]) he
      rw [hk] at hk'
      exact nomatch hk'
  · exact fun k got wake p _ hne => has_stepPoster s k got wake p hne

/-- One statement after another. -/
def steps (s : State ι) (as : List (Act ι)) : State ι := as.foldl step s

theorem steps_reachable (as : List (Act ι)) : Reachable (system ι) (steps start as) := by
  induction as using List.reverseRecOn with
  | nil => exact .init rfl
  | append_singleton as a ih =>
    rw [steps, List.foldl_append]
    exact .step ih trivial rfl

/-- A thread has found the first element free; an interrupt posts before the thread takes it. -/
def preempted : List (Act Bool) :=
  List.replicate 10 .loop ++ [.call false ⟨.hwInt, 1, 0, 0, 0⟩, .poster false none .mail] ++
    .call true ⟨.hwInt, 2, 0, 0, 0⟩ :: List.replicate 8 (.poster true none .mail) ++
    List.replicate 7 (.poster false none .mail)

end EasyCore.AppEv
