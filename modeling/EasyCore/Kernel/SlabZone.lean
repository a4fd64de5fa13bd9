import EasyCore.Kernel.Slab

/-! The size classes of the slab allocator, and one zone: which of its chunks are free, which are live,
    and which have never been used. -/

namespace EasyCore.Slab

/-- `NZONES` -/
def nzones : ℕ := 72

/-- The size of the chunks of a class. -/
def classSize (zi : ℕ) : ℕ :=
  if zi < 16 then (zi + 1) * 8
  else if zi < 24 then (zi - 7) * 16
  else if zi < 32 then (zi - 15) * 32
  else if zi < 40 then (zi - 23) * 64
  else if zi < 48 then (zi - 31) * 128
  else if zi < 56 then (zi - 39) * 256
  else if zi < 64 then (zi - 47) * 512
  else (zi - 55) * 1024

/-- `zi` is a class, with chunks of `size` bytes, of the blocks below `limit`. -/
structure SizeClass (limit zi size : ℕ) : Prop where
  index : zi < nzones
  eq : size = classSize zi
  min : minChunkSize ≤ size
  le : size ≤ limit

theorem le_zoneindex (n : ℕ) : n ≤ (zoneindex n).2 := by
  unfold zoneindex roundUp
  split_ifs <;> dsimp only <;> omega

theorem zoneindex_lt {n : ℕ} (hn : n < 2 ^ 32) : (zoneindex n).2 < 2 ^ 32 := by
  unfold zoneindex roundUp
  split_ifs <;> dsimp only <;> omega

theorem classSize_add {q k : ℕ} (hq : 8 ≤ q) (hq' : q ≤ 16) (hk : k < 7) :
    classSize (q + (8 * k + 7)) = q * (16 * 2 ^ k) := by
  unfold classSize
  interval_cases k <;> split_ifs <;> omega

/-- One row of the table of sizes: chunks of `m` bytes for a size from `8 * m` to `16 * m`. -/
theorem roundUp_class {n m k : ℕ} (hm : m = 16 * 2 ^ k) (hk : k < 7) (hn : 8 * m ≤ n)
    (hn' : n < 16 * m) : roundUp n m = classSize (roundUp n m / m + (8 * k + 7)) := by
  have hpos : 0 < m := by rw [hm]; positivity
  have hdiv : roundUp n m / m = (n + (m - 1)) / m := Nat.mul_div_cancel _ hpos
  have hge : 8 ≤ (n + (m - 1)) / m := (Nat.le_div_iff_mul_le hpos).2 (by omega)
  have hle : (n + (m - 1)) / m < 17 := (Nat.div_lt_iff_lt_mul hpos).2 (by omega)
  rw [hdiv, classSize_add hge (Nat.lt_succ_iff.1 hle) hk, ← hm]
  rfl

theorem zoneindex_eq {n : ℕ} (hn : 0 < n) (hlt : n < 16384) :
    (zoneindex n).2 = classSize (zoneindex n).1 := by
  unfold zoneindex
  split_ifs with h1 h2 h3 h4 h5 h6 h7
  · have h8 : 1 ≤ (n + (8 - 1)) / 8 := by omega
    have h16 : (n + (8 - 1)) / 8 ≤ 16 := by omega
    dsimp only [roundUp]
    unfold classSize
    rw [Nat.mul_div_cancel _ (by decide)]
    split_ifs
    all_goals omega
  · exact roundUp_class (k := 0) rfl (by decide) (by omega) (by omega)
  · exact roundUp_class (k := 1) rfl (by decide) (by omega) (by omega)
  · exact roundUp_class (k := 2) rfl (by decide) (by omega) (by omega)
  · exact roundUp_class (k := 3) rfl (by decide) (by omega) (by omega)
  · exact roundUp_class (k := 4) rfl (by decide) (by omega) (by omega)
  · exact roundUp_class (k := 5) rfl (by decide) (by omega) (by omega)
  · exact roundUp_class (k := 6) rfl (by decide) (by omega) (by omega)

theorem zoneindex_class {n limit : ℕ} (hn : 0 < n) (hlt : n < limit)
    (hlimit : limit = 8192 ∨ limit = 16384) :
    SizeClass limit (zoneindex n).1 (zoneindex n).2 := by
  have hindex : (zoneindex n).1 < nzones := by
    unfold zoneindex roundUp nzones
    split_ifs <;> dsimp only <;> omega
  have hle : (zoneindex n).2 ≤ limit := by
    unfold zoneindex roundUp
    split_ifs <;> dsimp only <;> omega
  refine ⟨hindex, zoneindex_eq hn (by omega), ?_, hle⟩
  unfold zoneindex roundUp minChunkSize
  split_ifs <;> dsimp only <;> omega

theorem le_roundUp {n m : ℕ} (hm : 0 < m) : n ≤ roundUp n m ∧ roundUp n m ≤ n + (m - 1) := by
  unfold roundUp
  have h1 := Nat.div_add_mod (n + (m - 1)) m
  have h2 := Nat.mod_lt (n + (m - 1)) hm
  rw [mul_comm] at h1
  omega

/-- The chunks begin behind the `slab_zone`, and leave room for two at least. -/
theorem chunkOffset_bounds {size zoneSize : ℕ} (hmin : minChunkSize ≤ size)
    (hle : 4 * size ≤ zoneSize) (hzone : zallocMinZoneSize ≤ zoneSize) :
    sizeofSlabZone ≤ chunkOffset size ∧ chunkOffset size + 2 * size ≤ zoneSize := by
  have h1 := @le_roundUp sizeofSlabZone size (Nat.lt_of_lt_of_le (by decide) hmin)
  have h2 := @le_roundUp sizeofSlabZone minChunkSize (by decide)
  simp only [sizeofSlabZone, minChunkSize, zallocMinZoneSize] at *
  unfold chunkOffset sizeofSlabZone minChunkSize
  split_ifs <;> omega

/-! ### One zone -/

/-- The zone at `z`, with the live chunks at `ptrs`. Its chunks up to `uindex` have been used, and each
    of them is on the free list or live. -/
structure ZoneOk (zoneSize limit z : ℕ) (v : SlabZone) (ptrs : List ℕ) : Prop where
  magic : v.magic = zallocSlabMagic
  sizeClass : SizeClass limit v.zoneindex v.chunksize
  base : z + sizeofSlabZone ≤ v.baseptr
  fits : v.baseptr + v.nmax * v.chunksize ≤ z + zoneSize
  two_le : 2 ≤ v.nmax
  uindex_lt : v.uindex < v.nmax
  nfree : v.nfree = v.freechunk.length + (v.nmax - 1 - v.uindex)
  chunks : (v.freechunk ++ ptrs).Perm
    ((List.range (v.uindex + 1)).map fun i => v.baseptr + i * v.chunksize)

namespace ZoneOk
variable {zoneSize limit z p : ℕ} {v : SlabZone} {ptrs next : List ℕ}

theorem perm (h : ZoneOk zoneSize limit z v ptrs) {qs : List ℕ} (hp : ptrs.Perm qs) :
    ZoneOk zoneSize limit z v qs :=
  { h with chunks := (hp.symm.append_left _).trans h.chunks }

theorem nfree_eq (h : ZoneOk zoneSize limit z v ptrs) : v.nfree = v.nmax - ptrs.length := by
  have hlen := h.chunks.length_eq
  have hnfree := h.nfree
  simp only [List.length_append, List.length_map, List.length_range] at hlen
  omega

theorem inside (h : ZoneOk zoneSize limit z v ptrs) (hp : p ∈ ptrs) :
    z + sizeofSlabZone ≤ p ∧ p + v.chunksize ≤ z + zoneSize := by
  have hmem := h.chunks.mem_iff.1 (List.mem_append_right _ hp)
  obtain ⟨i, hi, rfl⟩ := List.mem_map.1 hmem
  have hi : i + 1 ≤ v.nmax := (List.mem_range.1 hi).trans_le h.uindex_lt
  have hmul := Nat.mul_le_mul_right v.chunksize hi
  have hbase := h.base
  have hfits := h.fits
  rw [Nat.add_mul, Nat.one_mul] at hmul
  constructor <;> omega

/-- Live chunks do not overlap. -/
theorem apart (h : ZoneOk zoneSize limit z v ptrs) :
    ptrs.Pairwise fun p q => p + v.chunksize ≤ q ∨ q + v.chunksize ≤ p := by
  have hall : ((List.range (v.uindex + 1)).map fun i => v.baseptr + i * v.chunksize).Pairwise
      fun p q => p + v.chunksize ≤ q ∨ q + v.chunksize ≤ p := by
    refine List.pairwise_map.2 (List.pairwise_lt_range.imp fun {i j} hij => Or.inl ?_)
    have := Nat.mul_le_mul_right v.chunksize (Nat.succ_le_of_lt hij)
    rw [Nat.succ_mul] at this
    omega
  have hperm := (h.chunks.pairwise_iff fun {p q} h => Or.symm h).2 hall
  exact hperm.sublist (List.sublist_append_right _ _)

/-- A chunk that has never been used is taken. -/
theorem fresh (h : ZoneOk zoneSize limit z v ptrs) (hne : v.uindex + 1 ≠ v.nmax) :
    ZoneOk zoneSize limit z { v with nfree := v.nfree - 1, uindex := v.uindex + 1 }
      ((v.baseptr + (v.uindex + 1) * v.chunksize) :: ptrs) := by
  have hlt := h.uindex_lt
  refine { h with uindex_lt := by dsimp only; omega, nfree := ?_, chunks := ?_ }
  · have := h.nfree
    push_cast
    omega
  · have hrange : (List.range (v.uindex + 1 + 1)).map (fun i => v.baseptr + i * v.chunksize)
        = (List.range (v.uindex + 1)).map (fun i => v.baseptr + i * v.chunksize)
          ++ [v.baseptr + (v.uindex + 1) * v.chunksize] := by
      rw [List.range_succ, List.map_append, List.map_singleton]
    dsimp only
    rw [hrange]
    exact List.perm_middle.trans ((h.chunks.cons _).trans (List.perm_append_singleton _ _).symm)

/-- The first chunk of the free list is taken. -/
theorem reuse (h : ZoneOk zoneSize limit z v ptrs) (hfree : v.freechunk = p :: next) :
    ZoneOk zoneSize limit z { v with nfree := v.nfree - 1, freechunk := next } (p :: ptrs) := by
  refine { h with nfree := ?_, chunks := ?_ }
  · have := h.nfree
    rw [hfree, List.length_cons] at this
    push_cast at this
    dsimp only
    omega
  · have := h.chunks
    rw [hfree] at this
    exact List.perm_middle.trans this

/-- A live chunk is put on the free list. -/
theorem give (h : ZoneOk zoneSize limit z v (p :: ptrs)) :
    ZoneOk zoneSize limit z { v with freechunk := p :: v.freechunk, nfree := v.nfree + 1 } ptrs := by
  refine { h with nfree := ?_, chunks := List.perm_middle.symm.trans h.chunks }
  have := h.nfree
  rw [List.length_cons]
  push_cast
  omega

/-- A new zone, with its first chunk live. -/
theorem new {zi size : ℕ} (hclass : SizeClass limit zi size) (hle : 4 * size ≤ zoneSize)
    (hzone : zallocMinZoneSize ≤ zoneSize) :
    ZoneOk zoneSize limit z
      { magic := zallocSlabMagic, zoneindex := zi, nmax := (zoneSize - chunkOffset size) / size,
        nfree := (((zoneSize - chunkOffset size) / size : ℕ) : ℤ) - 1,
        baseptr := z + chunkOffset size, uindex := 0, chunksize := size, freechunk := [] }
      [z + chunkOffset size] := by
  obtain ⟨hoff, hroom⟩ := chunkOffset_bounds hclass.min hle hzone
  have hpos : 0 < size := Nat.lt_of_lt_of_le (by decide) hclass.min
  have htwo : 2 ≤ (zoneSize - chunkOffset size) / size := (Nat.le_div_iff_mul_le hpos).2 (by omega)
  have hfits := Nat.div_mul_le_self (zoneSize - chunkOffset size) size
  refine ⟨rfl, hclass, ?_, ?_, htwo, ?_, ?_, ?_⟩
  · exact Nat.add_le_add_left hoff z
  · dsimp only
    omega
  · exact Nat.zero_lt_of_lt htwo
  · simp
  · simp

end ZoneOk

end EasyCore.Slab
