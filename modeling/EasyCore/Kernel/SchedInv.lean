import EasyCore.Kernel.Sched

/-! The invariant of the scheduler. `Bitmap` says that the ready bits are those of a set of
    priorities, `Core` that the lists are linked and the bits are those of the ready lists that
    hold a thread, `Placed` that one thread is on the list its state and priority say. The two
    functions every other one goes through, `rt_schedule_insert_thread` and
    `rt_schedule_remove_thread`, keep `Core`; `SchedInv.of_core` puts the threads back on top. -/

namespace EasyCore.Kernel
open Function EasyCore.Links

variable {κ τ : Type*} {pmax : ℕ} {s s' : KState κ τ} {K K' : τ → Prop} {L L' : Head κ → List τ}
  {t u : τ} {th : Thread} {occ occ' : ℕ → Prop} {p : ℕ}

namespace KState

@[simp] theorem setLinks_fields (s : KState κ τ) (l : RtList (Node (Head κ) τ)) :
    (s.setLinks l).links = l ∧ (s.setLinks l).thread = s.thread ∧
    (s.setLinks l).readyPriorityGroup = s.readyPriorityGroup ∧
    (s.setLinks l).readyTable = s.readyTable ∧ (s.setLinks l).lockNest = s.lockNest ∧
    (s.setLinks l).currentThread = s.currentThread ∧
    (s.setLinks l).currentPriority = s.currentPriority := ⟨rfl, rfl, rfl, rfl, rfl, rfl, rfl⟩

@[simp] theorem setBitmap_fields (s : KState κ τ) (g : BitVec 32) (b : ℕ → BitVec 8) :
    (s.setBitmap g b).links = s.links ∧ (s.setBitmap g b).thread = s.thread ∧
    (s.setBitmap g b).readyPriorityGroup = g ∧ (s.setBitmap g b).readyTable = b ∧
    (s.setBitmap g b).lockNest = s.lockNest ∧
    (s.setBitmap g b).currentThread = s.currentThread ∧
    (s.setBitmap g b).currentPriority = s.currentPriority := ⟨rfl, rfl, rfl, rfl, rfl, rfl, rfl⟩

@[simp] theorem setLockNest_fields (s : KState κ τ) (n : ℤ) :
    (s.setLockNest n).links = s.links ∧ (s.setLockNest n).thread = s.thread ∧
    (s.setLockNest n).readyPriorityGroup = s.readyPriorityGroup ∧
    (s.setLockNest n).readyTable = s.readyTable ∧ (s.setLockNest n).lockNest = n ∧
    (s.setLockNest n).currentThread = s.currentThread ∧
    (s.setLockNest n).currentPriority = s.currentPriority := ⟨rfl, rfl, rfl, rfl, rfl, rfl, rfl⟩

@[simp] theorem modThread_fields [DecidableEq τ] (s : KState κ τ) (t : τ) (f : Thread → Thread) :
    (s.modThread t f).links = s.links ∧
    (s.modThread t f).thread = update s.thread t (f (s.thread t)) ∧
    (s.modThread t f).readyPriorityGroup = s.readyPriorityGroup ∧
    (s.modThread t f).readyTable = s.readyTable ∧ (s.modThread t f).lockNest = s.lockNest ∧
    (s.modThread t f).currentThread = s.currentThread ∧
    (s.modThread t f).currentPriority = s.currentPriority := ⟨rfl, rfl, rfl, rfl, rfl, rfl, rfl⟩

end KState

/-! ### Masks -/

/-- The masks of the thread are those of its current priority. -/
def Thread.MaskOk (pmax : ℕ) (th : Thread) : Prop := th.calcMask pmax = th

instance (th : Thread) : Decidable (th.MaskOk pmax) := inferInstanceAs (Decidable (_ = _))

@[simp] theorem Thread.calcMask_same (th : Thread) : (th.calcMask pmax).stat = th.stat ∧
    (th.calcMask pmax).currentPriority = th.currentPriority ∧
    (th.calcMask pmax).initPriority = th.initPriority ∧
    (th.calcMask pmax).error = th.error ∧ (th.calcMask pmax).timer = th.timer := by
  unfold Thread.calcMask
  split <;> exact ⟨rfl, rfl, rfl, rfl, rfl⟩

theorem Thread.calcMask_maskOk (th : Thread) : (th.calcMask pmax).MaskOk pmax := by
  by_cases h : pmax > 32 <;> simp [Thread.MaskOk, Thread.calcMask, h]

/-- Only the priority and the masks decide. -/
theorem Thread.MaskOk.congr {th' : Thread} (h : th.MaskOk pmax)
    (hp : th'.currentPriority = th.currentPriority) (hn : th'.number = th.number)
    (hm : th'.numberMask = th.numberMask) (hh : th'.highMask = th.highMask) :
    th'.MaskOk pmax := by
  cases th'
  cases th
  subst hp hn hm hh
  by_cases hs : pmax > 32
  · simp only [Thread.MaskOk, Thread.calcMask, if_pos hs, Thread.mk.injEq] at h ⊢
    tauto
  · simp only [Thread.MaskOk, Thread.calcMask, if_neg hs, Thread.mk.injEq] at h ⊢
    tauto

theorem Thread.MaskOk.small (h : th.MaskOk pmax) (hs : pmax ≤ 32) :
    th.numberMask = 1#32 <<< th.currentPriority := by
  have := congrArg Thread.numberMask h
  rw [Thread.calcMask, if_neg (by omega)] at this
  exact this.symm

theorem Thread.MaskOk.large (h : th.MaskOk pmax) (hs : pmax > 32) :
    th.number = th.currentPriority / 8 ∧ th.numberMask = 1#32 <<< (th.currentPriority / 8) ∧
      th.highMask = 1#8 <<< (th.currentPriority % 8) := by
  have h8 : th.currentPriority >>> 3 = th.currentPriority / 8 := Nat.shiftRight_eq_div_pow _ _
  have h7 : th.currentPriority &&& 7 = th.currentPriority % 8 := Nat.and_two_pow_sub_one_eq_mod _ 3
  rw [Thread.MaskOk, Thread.calcMask, if_pos hs, h8, h7] at h
  exact ⟨(congrArg Thread.number h).symm, (congrArg Thread.numberMask h).symm,
    (congrArg Thread.highMask h).symm⟩

theorem one_shl_getLsbD {w i j : ℕ} : (1#w <<< i).getLsbD j = decide (j = i ∧ j < w) := by
  rw [BitVec.getLsbD_shiftLeft]
  by_cases hj : j = i
  · subst hj
    by_cases hw : j < w
    · simp [hw]; omega
    · simp [hw]
  · by_cases hlt : j < i
    · simp [hlt, hj]
    · have : j - i ≠ 0 := by omega
      simp [BitVec.getLsbD_one, hj, this]

/-! ### The bitmap -/

/-- The ready bits are those of the priorities in `occ`. -/
structure Bitmap (pmax : ℕ) (s : KState κ τ) (occ : ℕ → Prop) : Prop where
  lt : ∀ {p}, occ p → p < pmax
  small : pmax ≤ 32 → ∀ p < 32, s.readyPriorityGroup.getLsbD p = true ↔ occ p
  table : pmax > 32 → ∀ i < 32, ∀ j < 8, (s.readyTable i).getLsbD j = true ↔ occ (8 * i + j)
  group : pmax > 32 → ∀ i < 32, s.readyPriorityGroup.getLsbD i = true ↔ ∃ j < 8, occ (8 * i + j)

theorem Bitmap.congr (b : Bitmap pmax s occ) (hocc : ∀ p, occ' p ↔ occ p)
    (hg : s'.readyPriorityGroup = s.readyPriorityGroup) (ht : s'.readyTable = s.readyTable) :
    Bitmap pmax s' occ' := by
  have : occ' = occ := funext fun p => propext (hocc p)
  subst this
  exact ⟨b.lt, hg ▸ b.small, ht ▸ b.table, hg ▸ b.group⟩

theorem byte_ne_zero {b : BitVec 8} : b ≠ 0 ↔ ∃ j < 8, b.getLsbD j = true := by
  constructor
  · intro hne
    by_contra hno
    refine hne (BitVec.eq_of_getLsbD_eq fun j hj => ?_)
    rw [show (0 : BitVec 8).getLsbD j = false by simp]
    exact Bool.eq_false_iff.2 fun hb => hno ⟨j, hj, hb⟩
  · rintro ⟨j, -, hb⟩ rfl
    simp at hb

theorem Bitmap.table_ne_zero (b : Bitmap pmax s occ) (hp : pmax > 32) {i : ℕ} (hi : i < 32) :
    s.readyTable i ≠ 0 ↔ ∃ j < 8, occ (8 * i + j) := by
  rw [byte_ne_zero]
  exact exists_congr fun j => and_congr_right fun hj => b.table hp i hi j hj

theorem setReadyBit_fields (th : Thread) (s : KState κ τ) :
    (setReadyBit pmax th s).links = s.links ∧ (setReadyBit pmax th s).thread = s.thread ∧
    (setReadyBit pmax th s).lockNest = s.lockNest ∧
    (setReadyBit pmax th s).currentThread = s.currentThread ∧
    (setReadyBit pmax th s).currentPriority = s.currentPriority := by
  unfold setReadyBit
  split <;> exact ⟨rfl, rfl, rfl, rfl, rfl⟩

theorem clearReadyBit_fields (th : Thread) (s : KState κ τ) :
    (clearReadyBit pmax th s).links = s.links ∧ (clearReadyBit pmax th s).thread = s.thread ∧
    (clearReadyBit pmax th s).lockNest = s.lockNest ∧
    (clearReadyBit pmax th s).currentThread = s.currentThread ∧
    (clearReadyBit pmax th s).currentPriority = s.currentPriority := by
  unfold clearReadyBit
  split <;> exact ⟨rfl, rfl, rfl, rfl, rfl⟩

theorem div_mod_eq {i j q : ℕ} (hj : j < 8) : 8 * i + j = q ↔ i = q / 8 ∧ j = q % 8 := by omega

/-- Right masks set the bit of the thread's priority and no other. -/
theorem Bitmap.set (b : Bitmap pmax s occ) (hm : th.MaskOk pmax) (hp : th.currentPriority < pmax) :
    Bitmap pmax (setReadyBit pmax th s) fun p => occ p ∨ p = th.currentPriority := by
  refine ⟨?_, fun hs p h32 => ?_, fun hl i hi j hj => ?_, fun hl i hi => ?_⟩
  · rintro p (ho | rfl)
    · exact b.lt ho
    · exact hp
  · rw [setReadyBit, if_neg (by omega), KState.setBitmap, BitVec.getLsbD_or, hm.small hs,
      one_shl_getLsbD, Bool.or_eq_true, b.small hs p h32, decide_eq_true_iff]
    simp [h32]
  · obtain ⟨hn, -, hh⟩ := hm.large hl
    rw [setReadyBit, if_pos hl, div_mod_eq hj]
    simp only [KState.setBitmap_fields]
    by_cases hin : i = th.number
    · rw [hin, update_self, BitVec.getLsbD_or, hh, one_shl_getLsbD, Bool.or_eq_true, ← hin,
        b.table hl i hi j hj, decide_eq_true_iff]
      simp [hj, ← hn, hin]
    · rw [update_of_ne hin, b.table hl i hi j hj, ← hn]
      simp [hin]
  · obtain ⟨-, hg, -⟩ := hm.large hl
    rw [setReadyBit, if_pos hl]
    simp only [KState.setBitmap_fields]
    rw [BitVec.getLsbD_or, hg, one_shl_getLsbD, Bool.or_eq_true, b.group hl i hi,
      decide_eq_true_iff]
    constructor
    · rintro (⟨j, hj, ho⟩ | ⟨rfl, -⟩)
      · exact ⟨j, hj, Or.inl ho⟩
      · exact ⟨th.currentPriority % 8, by omega, Or.inr (by omega)⟩
    · rintro ⟨j, hj, ho | he⟩
      · exact Or.inl ⟨j, hj, ho⟩
      · exact Or.inr ⟨((div_mod_eq hj).1 he).1, hi⟩

theorem clearReadyBit_table (b : Bitmap pmax s occ) (hm : th.MaskOk pmax) (hl : pmax > 32)
    {i j : ℕ} (hi : i < 32) (hj : j < 8) :
    ((clearReadyBit pmax th s).readyTable i).getLsbD j = true ↔
      occ (8 * i + j) ∧ 8 * i + j ≠ th.currentPriority := by
  obtain ⟨hn, -, hh⟩ := hm.large hl
  rw [clearReadyBit, if_pos hl, Ne, div_mod_eq hj]
  simp only [KState.setBitmap_fields]
  by_cases hin : i = th.number
  · rw [hin, update_self, BitVec.getLsbD_and, BitVec.getLsbD_not, hh, one_shl_getLsbD,
      Bool.and_eq_true, ← hin, b.table hl i hi j hj]
    simp [hj, ← hn, hin]
  · rw [update_of_ne hin, b.table hl i hi j hj, ← hn]
    simp [hin]

/-- Right masks clear the bit of the thread's priority and no other. -/
theorem Bitmap.clear (b : Bitmap pmax s occ) (hm : th.MaskOk pmax) :
    Bitmap pmax (clearReadyBit pmax th s) fun p => occ p ∧ p ≠ th.currentPriority := by
  refine ⟨fun h => b.lt h.1, fun hs p h32 => ?_,
    fun hl i hi j hj => clearReadyBit_table b hm hl hi hj, fun hl i hi => ?_⟩
  · rw [clearReadyBit, if_neg (by omega), KState.setBitmap, BitVec.getLsbD_and, BitVec.getLsbD_not,
      hm.small hs, one_shl_getLsbD, Bool.and_eq_true, b.small hs p h32]
    simp [h32]
  · obtain ⟨hn, hg, -⟩ := hm.large hl
    have htab := byte_ne_zero (b := (clearReadyBit pmax th s).readyTable i)
    rw [exists_congr fun j => and_congr_right fun hj => clearReadyBit_table b hm hl hi hj] at htab
    rw [← htab]
    simp only [clearReadyBit, if_pos hl, KState.setBitmap_fields]
    by_cases hin : i = th.number
    · -- the byte decides whether the bit of the group goes
      subst hin
      rw [update_self]
      by_cases hz : s.readyTable th.number &&& ~~~th.highMask = 0
      · rw [if_pos hz, BitVec.getLsbD_and, BitVec.getLsbD_not, hg, one_shl_getLsbD, ← hn]
        simp [hz]
      · rw [if_neg hz, b.group hl _ hi, ← b.table_ne_zero hl hi]
        refine iff_of_true (fun h0 => hz ?_) hz
        rw [h0]
        simp
    · rw [update_of_ne hin, b.table_ne_zero hl hi, ← b.group hl i hi]
      split
      · rw [BitVec.getLsbD_and, BitVec.getLsbD_not, hg, one_shl_getLsbD, ← hn]
        simp [hin, hi]
      · rfl

/-- The masks of the thread select no bit that is set. -/
def Thread.NoBit (pmax : ℕ) (th : Thread) (s : KState κ τ) : Prop :=
  if pmax > 32 then
    s.readyTable th.number &&& th.highMask = 0 ∧
      (s.readyTable th.number ≠ 0 ∨ s.readyPriorityGroup &&& th.numberMask = 0)
  else s.readyPriorityGroup &&& th.numberMask = 0

instance (th : Thread) (s : KState κ τ) : Decidable (th.NoBit pmax s) := by
  unfold Thread.NoBit
  infer_instance

theorem and_not_of_and_eq_zero {w : ℕ} {x m : BitVec w} (h : x &&& m = 0) : x &&& ~~~m = x := by
  refine BitVec.eq_of_getLsbD_eq fun i hi => ?_
  have hb : (x &&& m).getLsbD i = false := by rw [h]; simp
  rw [BitVec.getLsbD_and] at hb
  rw [BitVec.getLsbD_and, BitVec.getLsbD_not]
  grind

/-- Masks that select no set bit clear none. -/
theorem clearReadyBit_noBit (h : th.NoBit pmax s) :
    (clearReadyBit pmax th s).readyPriorityGroup = s.readyPriorityGroup ∧
      (clearReadyBit pmax th s).readyTable = s.readyTable := by
  by_cases hl : pmax > 32
  · simp only [Thread.NoBit, if_pos hl] at h
    simp only [clearReadyBit, if_pos hl, KState.setBitmap_fields, and_not_of_and_eq_zero h.1,
      update_eq_self, and_true]
    split
    · rename_i hz
      exact and_not_of_and_eq_zero (h.2.resolve_left fun hne => hne hz)
    · rfl
  · simp only [Thread.NoBit, if_neg hl] at h
    simp only [clearReadyBit, if_neg hl, KState.setBitmap_fields, and_not_of_and_eq_zero h, and_true]

/-- The least of the occupied priorities is found, when there is one. -/
theorem Bitmap.highest (b : Bitmap pmax s occ) (hmax : pmax ≤ 256) (ho : ∃ p, occ p) :
    ∃ p, highestReadyPriority pmax s = some p ∧ occ p ∧ ∀ q, occ q → p ≤ q := by
  obtain ⟨q, hq⟩ := ho
  have hqm := b.lt hq
  by_cases hs : pmax ≤ 32
  · have hne : s.readyPriorityGroup ≠ 0 := fun h0 => by
      have := (b.small hs q (by omega)).2 hq
      rw [h0] at this
      simp at this
    obtain ⟨k, hk, hbit, hlow⟩ := rtFfs_spec hne
    have hk32 : k < 32 := BitVec.lt_of_getLsbD hbit
    refine ⟨k, ?_, (b.small hs k hk32).1 hbit, fun p hp => ?_⟩
    · rw [highestReadyPriority, if_pos hs, hk, ffsIndex]
      simp
    · by_contra hlt
      have := hlow p (by omega)
      rw [(b.small hs p (by omega)).2 hp] at this
      exact absurd this (by simp)
  · have hl : pmax > 32 := by omega
    have hgq : s.readyPriorityGroup.getLsbD (q / 8) = true :=
      (b.group hl _ (by omega)).2 ⟨q % 8, by omega, by rwa [show 8 * (q / 8) + q % 8 = q by omega]⟩
    have hne : s.readyPriorityGroup ≠ 0 := fun h0 => by
      rw [h0] at hgq
      simp at hgq
    obtain ⟨n, hn, hnbit, hnlow⟩ := rtFfs_spec hne
    have hn32 : n < 32 := BitVec.lt_of_getLsbD hnbit
    have hb0 := (b.table_ne_zero hl hn32).2 ((b.group hl n hn32).1 hnbit)
    have hbne : (s.readyTable n).setWidth 32 ≠ 0 := fun h0 => by
      obtain ⟨j, hj, hbit⟩ := byte_ne_zero.1 hb0
      have := congrArg (fun v => v.getLsbD j) h0
      rw [BitVec.getLsbD_setWidth, hbit] at this
      simp at this
      omega
    obtain ⟨k, hk, hbit, hlow⟩ := rtFfs_spec hbne
    rw [BitVec.getLsbD_setWidth, Bool.and_eq_true] at hbit
    have hk8 : k < 8 := BitVec.lt_of_getLsbD hbit.2
    refine ⟨8 * n + k, ?_, (b.table hl n hn32 k hk8).1 hbit.2, fun p hp => ?_⟩
    · rw [highestReadyPriority, if_neg hs, hn]
      simp only [ffsIndex, Nat.add_one_ne_zero, if_false, Nat.add_sub_cancel, Option.bind_some, hk,
        Nat.shiftLeft_eq]
      rw [if_neg (by omega)]
      congr 1
      omega
    · by_contra hlt
      have hpm := b.lt hp
      have hpg : s.readyPriorityGroup.getLsbD (p / 8) = true :=
        (b.group hl _ (by omega)).2 ⟨p % 8, by omega, by rwa [show 8 * (p / 8) + p % 8 = p by omega]⟩
      have hnp : ¬p / 8 < n := fun h => by
        rw [hnlow _ h] at hpg
        exact absurd hpg (by simp)
      have hpn : p / 8 = n := by omega
      have hpt := (b.table hl n hn32 (p % 8) (by omega)).2
        (by rwa [← hpn, show 8 * (p / 8) + p % 8 = p by omega])
      have := hlow (p % 8) (by omega)
      rw [BitVec.getLsbD_setWidth, hpt] at this
      simp at this
      omega

/-! ### Lists and bits -/

/-- The headers there are: `rt_thread_priority_table` has `pmax` entries. -/
def Head.Valid (pmax : ℕ) : Head κ → Prop
  | .ready p => p < pmax
  | _ => True

@[simp] theorem Head.valid_ready : (Head.ready p : Head κ).Valid pmax ↔ p < pmax := Iff.rfl

@[simp] theorem Head.valid_defunct : (Head.defunct : Head κ).Valid pmax := trivial

@[simp] theorem Head.valid_suspended {k : κ} : (Head.suspended k).Valid pmax := trivial

/-- The state of the threads on a list. -/
def Head.stat : Head κ → Stat
  | .ready _ => .ready
  | .defunct => .close
  | .suspended _ => .suspend

/-- The priorities whose ready list holds a thread. -/
def Occupied (pmax : ℕ) (L : Head κ → List τ) (p : ℕ) : Prop := p < pmax ∧ L (.ready p) ≠ []

/-- The lists are linked, and the bits are those of the ready lists. -/
structure Core (pmax : ℕ) (s : KState κ τ) (K : τ → Prop) (L : Head κ → List τ) : Prop where
  queues : Linked s.links (Head.Valid pmax) K L
  bitmap : Bitmap pmax s (Occupied pmax L)

/-- Where a thread is (`isOn`), for its state and its priority. -/
structure Placed (pmax : ℕ) (th : Thread) (known : Prop) (isOn : Head κ → Prop) : Prop where
  listed : ∀ {h}, h.Valid pmax → isOn h → th.stat = h.stat
  own : ∀ {p}, p < pmax → isOn (.ready p) → th.currentPriority = p
  ready : known → th.stat = .ready → isOn (.ready th.currentPriority)
  maskOk : known → th.stat = .ready ∨ th.stat = .suspend → th.MaskOk pmax
  prio : known → th.currentPriority < pmax ∧ th.initPriority < pmax

/-- The invariant of the scheduler: `K` are the threads initialised, `L` what is listed where. -/
structure SchedInv (pmax : ℕ) (s : KState κ τ) (K : τ → Prop) (L : Head κ → List τ) : Prop where
  core : Core pmax s K L
  placed : ∀ t, Placed pmax (s.thread t) (K t) fun h => t ∈ L h
  current : ∀ {t}, s.currentThread = some t → K t

theorem Core.congr (c : Core pmax s K L) (hL : ∀ h, h.Valid pmax → L' h = L h)
    (hl : s'.links = s.links) (hg : s'.readyPriorityGroup = s.readyPriorityGroup)
    (ht : s'.readyTable = s.readyTable) : Core pmax s' K L' :=
  ⟨(hl ▸ c.queues).congr hL, c.bitmap.congr
    (fun p => and_congr_right fun hp => by rw [hL (.ready p) hp]) hg ht⟩

variable [DecidableEq κ] [DecidableEq τ]

/-- Taking the thread off its ready list clears no bit of another priority. -/
def RemovalOk (pmax : ℕ) (s : KState κ τ) (t : τ) : Prop :=
  (s.thread t).MaskOk pmax ∨ (s.thread t).NoBit pmax s ∨
    rtListIsempty (rtListRemove s.links (.item t)) (.head (.ready (s.thread t).currentPriority)) =
      false

instance (s : KState κ τ) (t : τ) : Decidable (RemovalOk pmax s t) := by
  unfold RemovalOk
  infer_instance

/-- `rt_schedule_remove_thread` takes the thread off its list. -/
theorem Core.remove (c : Core pmax s K L) (hK : K t) (hp : (s.thread t).currentPriority < pmax)
    (hown : ∀ q < pmax, t ∈ L (.ready q) → (s.thread t).currentPriority = q)
    (hm : t ∈ L (.ready (s.thread t).currentPriority) → (s.thread t).MaskOk pmax)
    (hok : RemovalOk pmax s t) :
    Core pmax (rtScheduleRemoveThread pmax t s) K (without L t) := by
  have hq := linked_remove c.queues hK
  have hempty := rtListIsempty_iff hq (Head.valid_ready.2 hp)
  have herase : ∀ q < pmax, q ≠ (s.thread t).currentPriority →
      without L t (.ready q) = L (.ready q) := fun q hqm hne =>
    without_eq fun ht => hne (hown q hqm ht).symm
  rw [rtScheduleRemoveThread]
  simp only [KState.setLinks_fields]
  by_cases he : rtListIsempty (rtListRemove s.links (.item t))
      (.head (.ready (s.thread t).currentPriority)) = true
  · have hnil := hempty.1 he
    rw [if_pos he]
    refine ⟨by rw [(clearReadyBit_fields _ _).1]; exact hq, ?_⟩
    have b : Bitmap pmax (s.setLinks (rtListRemove s.links (.item t))) (Occupied pmax L) :=
      c.bitmap.congr (fun _ => Iff.rfl) rfl rfl
    by_cases hmask : (s.thread t).MaskOk pmax
    · refine (b.clear hmask).congr (fun q => ?_) rfl rfl
      by_cases hqp : q = (s.thread t).currentPriority
      · subst hqp
        simp [Occupied, hnil]
      · simp only [Occupied, ne_eq, hqp, not_false_eq_true, and_true]
        exact and_congr_right fun hqm => by rw [herase q hqm hqp]
    · -- the thread was on no ready list, and its stale masks are harmless
      have hno := (hok.resolve_left hmask).resolve_right (by simp [he])
      obtain ⟨hg, ht⟩ := clearReadyBit_noBit (s := s.setLinks (rtListRemove s.links (.item t))) hno
      refine b.congr (fun q => and_congr_right fun hqm => ?_) hg ht
      by_cases hqp : q = (s.thread t).currentPriority
      · subst hqp
        rw [without_eq fun ht => hmask (hm ht)]
      · rw [herase q hqm hqp]
  · rw [if_neg he]
    refine ⟨hq, c.bitmap.congr (fun q => and_congr_right fun hqm => ?_) rfl rfl⟩
    by_cases hqp : q = (s.thread t).currentPriority
    · subst hqp
      refine iff_of_true (fun hz => he (hempty.2 hz)) fun hz => he (hempty.2 ?_)
      simp [without, hz]
    · rw [herase q hqm hqp]

/-- `rt_schedule_insert_thread` puts the thread at the end of the ready list of its priority. -/
theorem Core.insert (c : Core pmax s K L) (hK : K t) (hoff : ∀ h, h.Valid pmax → t ∉ L h)
    (hp : (s.thread t).currentPriority < pmax) (hm : (s.thread t).MaskOk pmax) :
    Core pmax (rtScheduleInsertThread pmax t s) K
      (enqueue L (.ready (s.thread t).currentPriority) t) := by
  have hq := linked_insertBefore_head c.queues (Head.valid_ready.2 hp) hK hoff
  simp only [rtScheduleInsertThread, KState.setLinks_fields, KState.modThread_fields, update_self]
  refine ⟨by rw [(setReadyBit_fields _ _).1]; exact hq, ?_⟩
  have b : Bitmap pmax ((s.modThread t fun th => { th with stat := .ready }).setLinks
      (rtListInsertBefore s.links (.head (.ready (s.thread t).currentPriority)) (.item t)))
      (Occupied pmax L) := c.bitmap.congr (fun _ => Iff.rfl) rfl rfl
  have hm' : Thread.MaskOk pmax { s.thread t with stat := .ready } := hm.congr rfl rfl rfl rfl
  refine (b.set hm' hp).congr (fun q => ?_) rfl rfl
  by_cases hqp : q = (s.thread t).currentPriority
  · subst hqp
    simp [Occupied, hp]
  · have hne : (Head.ready q : Head κ) ≠ .ready (s.thread t).currentPriority :=
      fun e => hqp (Head.ready.inj e)
    simp [Occupied, enqueue_of_ne hne, hqp]

end EasyCore.Kernel
