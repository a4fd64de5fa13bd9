import EasyCore.App.Md5

/-! MD5 on natural numbers: the same steps, in a form that the kernel evaluates fast, for messages of
    many blocks. -/

namespace EasyCore.Md5
open Blocks

variable {α : Type}

/-- A number is evaluated before it is used. -/
noncomputable def withNat (n : ℕ) (f : ℕ → α) : α := Nat.rec (f 0) (fun n _ => f n.succ) n

@[simp] theorem withNat_eq (n : ℕ) (f : ℕ → α) : withNat n f = f n := by cases n <;> rfl

def natF (x y z : ℕ) : ℕ := Nat.lor (Nat.land x y) (Nat.land (Nat.sub 4294967295 x) z)
def natG (x y z : ℕ) : ℕ := Nat.lor (Nat.land x z) (Nat.land y (Nat.sub 4294967295 z))
def natH (x y z : ℕ) : ℕ := Nat.xor (Nat.xor x y) z
def natI (x y z : ℕ) : ℕ := Nat.xor y (Nat.lor x (Nat.sub 4294967295 z))

/-- A round. -/
noncomputable def natRound (f : ℕ → ℕ → ℕ → ℕ) (words : ℕ → ℕ) (ops : List (ℕ × ℕ × ℕ)) :
    (a b c d : ℕ) → (ℕ → ℕ → ℕ → ℕ → α) → α :=
  List.rec (fun a b c d k => k a b c d) (fun op _ more a b c d k =>
    withNat (Nat.mod (Nat.add (Nat.add (Nat.add a (f b c d)) (words op.1)) op.2.2) 4294967296)
      fun t =>
    withNat (Nat.mod (Nat.add (Nat.lor (Nat.mod (Nat.shiftLeft t op.2.1) 4294967296)
      (Nat.shiftRight t (Nat.sub 32 op.2.1))) b) 4294967296) fun b' => more d b' b c k) ops

def natOps (ops : List (ℕ × UInt32 × UInt32)) : List (ℕ × ℕ × ℕ) :=
  ops.map fun op => (op.1, op.2.1.toNat, op.2.2.toNat)

/-- The same block, `n` times. -/
noncomputable def natBlocks (words : ℕ → ℕ) (k : ℕ → ℕ → ℕ → ℕ → α) : ℕ → (a b c d : ℕ) → α
  | 0, a, b, c, d => k a b c d
  | n + 1, a, b, c, d =>
    natRound natF words (natOps round1) a b c d fun a₁ b₁ c₁ d₁ =>
    natRound natG words (natOps round2) a₁ b₁ c₁ d₁ fun a₂ b₂ c₂ d₂ =>
    natRound natH words (natOps round3) a₂ b₂ c₂ d₂ fun a₃ b₃ c₃ d₃ =>
    natRound natI words (natOps round4) a₃ b₃ c₃ d₃ fun a₄ b₄ c₄ d₄ =>
    withNat (Nat.mod (Nat.add a a₄) 4294967296) fun a₅ =>
    withNat (Nat.mod (Nat.add b b₄) 4294967296) fun b₅ =>
    withNat (Nat.mod (Nat.add c c₄) 4294967296) fun c₅ =>
    withNat (Nat.mod (Nat.add d d₄) 4294967296) fun d₅ => natBlocks words k n a₅ b₅ c₅ d₅

/-! ### The same steps -/

theorem natF_eq (x y z : UInt32) : natF x.toNat y.toNat z.toNat = (fF x y z).toNat := by
  simp only [fF, UInt32.toNat_or, UInt32.toNat_and, UInt32.toNat_not]
  rfl

theorem natG_eq (x y z : UInt32) : natG x.toNat y.toNat z.toNat = (fG x y z).toNat := by
  simp only [fG, UInt32.toNat_or, UInt32.toNat_and, UInt32.toNat_not]
  rfl

theorem natH_eq (x y z : UInt32) : natH x.toNat y.toNat z.toNat = (fH x y z).toNat := by
  simp only [fH, UInt32.toNat_xor]
  rfl

theorem natI_eq (x y z : UInt32) : natI x.toNat y.toNat z.toNat = (fI x y z).toNat := by
  simp only [fI, UInt32.toNat_xor, UInt32.toNat_or, UInt32.toNat_not]
  rfl

theorem rotateLeft_toNat (x : UInt32) {n : UInt32} (h0 : 0 < n.toNat) (h : n.toNat < 32) :
    (rotateLeft x n).toNat = x.toNat <<< n.toNat % 2 ^ 32 ||| x.toNat >>> (32 - n.toNat) := by
  have hsub : (32 - n).toNat = 32 - n.toNat := by
    rw [UInt32.toNat_sub_of_le _ _ (UInt32.le_iff_toNat_le.2 h.le)]
    rfl
  rw [rotateLeft, UInt32.toNat_or, UInt32.toNat_shiftLeft, UInt32.toNat_shiftRight, hsub,
    Nat.mod_eq_of_lt h, Nat.mod_eq_of_lt (by omega : 32 - n.toNat < 32)]

theorem natRound_cons (f : ℕ → ℕ → ℕ → ℕ) (words : ℕ → ℕ) (op : ℕ × ℕ × ℕ)
    (ops : List (ℕ × ℕ × ℕ)) (a b c d : ℕ) (k : ℕ → ℕ → ℕ → ℕ → α) :
    let t := (a + f b c d + words op.1 + op.2.2) % 4294967296
    natRound f words (op :: ops) a b c d k = natRound f words ops d
      (((t <<< op.2.1 % 4294967296 ||| t >>> (32 - op.2.1)) + b) % 4294967296) b c k := by
  intro t
  have hstep : natRound f words (op :: ops) a b c d k = withNat t fun t =>
      withNat (((t <<< op.2.1 % 4294967296 ||| t >>> (32 - op.2.1)) + b) % 4294967296) fun b' =>
        natRound f words ops d b' b c k := rfl
  rw [hstep, withNat_eq, withNat_eq]

/-- A round on numbers is the round on words. -/
theorem natRound_eq {f : ℕ → ℕ → ℕ → ℕ} {F : UInt32 → UInt32 → UInt32 → UInt32}
    (hf : ∀ x y z : UInt32, f x.toNat y.toNat z.toNat = (F x y z).toNat) (data : List UInt8)
    (k : ℕ → ℕ → ℕ → ℕ → α) : ∀ (ops : List (ℕ × UInt32 × UInt32)) (r : Abcd),
    (∀ op ∈ ops, 0 < op.2.1.toNat ∧ op.2.1.toNat < 32) →
    natRound f (fun i => (wordAt data i).toNat) (natOps ops) r.a.toNat r.b.toNat r.c.toNat
        r.d.toNat k =
      k (ops.foldl (set F data) r).a.toNat (ops.foldl (set F data) r).b.toNat
        (ops.foldl (set F data) r).c.toNat (ops.foldl (set F data) r).d.toNat := by
  intro ops
  induction ops with
  | nil => intro r _; rfl
  | cons op ops ih =>
    intro r h
    obtain ⟨h0, h32⟩ := h op (List.mem_cons_self ..)
    have ht : (r.a + F r.b r.c r.d + wordAt data op.1 + op.2.2).toNat =
        (r.a.toNat + f r.b.toNat r.c.toNat r.d.toNat + (wordAt data op.1).toNat + op.2.2.toNat) %
          4294967296 := by
      rw [hf]
      simp only [UInt32.toNat_add, Nat.reducePow]
      omega
    have hb : (set F data r op).b.toNat =
        (((r.a + F r.b r.c r.d + wordAt data op.1 + op.2.2).toNat <<< op.2.1.toNat % 4294967296 |||
          (r.a + F r.b r.c r.d + wordAt data op.1 + op.2.2).toNat >>> (32 - op.2.1.toNat)) +
            r.b.toNat) % 4294967296 := by
      simp only [set, UInt32.toNat_add (rotateLeft ..), rotateLeft_toNat _ h0 h32, Nat.reducePow]
    have hnext := ih (set F data r op) fun op' hop' => h op' (List.mem_cons_of_mem _ hop')
    rw [List.foldl_cons, ← hnext, hb, ht]
    exact natRound_cons ..

theorem round1_shifts : ∀ op ∈ round1, 0 < op.2.1.toNat ∧ op.2.1.toNat < 32 := by decide
theorem round2_shifts : ∀ op ∈ round2, 0 < op.2.1.toNat ∧ op.2.1.toNat < 32 := by decide
theorem round3_shifts : ∀ op ∈ round3, 0 < op.2.1.toNat ∧ op.2.1.toNat < 32 := by decide
theorem round4_shifts : ∀ op ∈ round4, 0 < op.2.1.toNat ∧ op.2.1.toNat < 32 := by decide

theorem natBlocks_eq (data : List UInt8) (k : ℕ → ℕ → ℕ → ℕ → α) : ∀ (n : ℕ) (r : Abcd),
    natBlocks (fun i => (wordAt data i).toNat) k n r.a.toNat r.b.toNat r.c.toNat r.d.toNat =
      k ((fun r => md5Process r data)^[n] r).a.toNat ((fun r => md5Process r data)^[n] r).b.toNat
        ((fun r => md5Process r data)^[n] r).c.toNat
        ((fun r => md5Process r data)^[n] r).d.toNat := by
  intro n
  induction n with
  | zero => intro r; rfl
  | succ n ih =>
    intro r
    rw [Function.iterate_succ_apply, ← ih]
    simp only [natBlocks, natRound_eq natF_eq data _ _ _ round1_shifts,
      natRound_eq natG_eq data _ _ _ round2_shifts, natRound_eq natH_eq data _ _ _ round3_shifts,
      natRound_eq natI_eq data _ _ _ round4_shifts, withNat_eq, md5Process, UInt32.toNat_add]
    rfl

/-! ### Many zeros -/

/-- The registers after 1599 blocks of zeros. -/
theorem zeros_registers : (fun r => md5Process r (List.replicate 64 0))^[1599] abcd₀ =
    ⟨3671875653, 502722063, 1294566597, 1531083487⟩ := by
  have hwords : (fun i => (wordAt (List.replicate 64 0) i).toNat) = fun _ => 0 := by
    funext i
    have hbyte : ∀ j, (List.replicate 64 (0 : UInt8)).getD j 0 = 0 := by
      intro j
      rw [List.getD_eq_getElem?_getD, List.getElem?_replicate]
      split <;> rfl
    simp only [wordAt, hbyte]
    rfl
  have hrun := natBlocks_eq (List.replicate 64 0) (fun a b c d => (a, b, c, d)) 1599 abcd₀
  have hvalue : natBlocks (fun _ => 0) (fun a b c d => (a, b, c, d)) 1599 abcd₀.a.toNat
      abcd₀.b.toNat abcd₀.c.toNat abcd₀.d.toNat =
        (3671875653, 502722063, 1294566597, 1531083487) := by
    decide +kernel
  rw [hwords, hvalue] at hrun
  generalize (fun r => md5Process r (List.replicate 64 0))^[1599] abcd₀ = r at hrun
  obtain ⟨a, b, c, d⟩ := r
  simp only [Prod.mk.injEq] at hrun
  obtain ⟨ha, hb, hc, hd⟩ := hrun
  rw [Abcd.mk.injEq]
  exact ⟨UInt32.toNat_inj.1 ha.symm, UInt32.toNat_inj.1 hb.symm, UInt32.toNat_inj.1 hc.symm,
    UInt32.toNat_inj.1 hd.symm⟩

/-- Zeros, and a block behind them. -/
theorem md5_zeros {block : List UInt8} (h : block.length = 64) :
    md5 (List.replicate 102336 0 ++ block) = (md5Process (md5Process
      ⟨3671875653, 502722063, 1294566597, 1531083487⟩ block) (padding 102400)).digest := by
  have hzeros : List.replicate 102336 (0 : UInt8) =
      (List.replicate 1599 (List.replicate 64 0)).flatten := by
    rw [List.flatten_replicate_replicate]
  have hlen : (List.replicate 102336 (0 : UInt8) ++ block).length = 102400 := by
    rw [List.length_append, List.length_replicate, h]
  have hpad : (padding 102400).length = 64 := by decide +kernel
  rw [md5, hlen, hzeros, List.append_assoc,
    absorb_replicate (by omega) (by rw [List.length_replicate]), zeros_registers,
    absorb_full (by omega) _ (by rw [List.length_append, h]; omega), List.take_left' h,
    List.drop_left' h, absorb_block (by omega) _ hpad]

end EasyCore.Md5
