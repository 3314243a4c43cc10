import QubitDynamics.Proofs.Embedding
import QubitDynamics.Proofs.ExactScalar

/-! Operators applied in place. Amplitudes are overwritten block by block, where a
block holds the indices that share their spectators; the amplitudes that a block
reads are those it writes, so later blocks still find their own amplitudes
untouched. Hence one sweep multiplies the amplitudes by the embedded operator,
and the two sweeps over a density matrix multiply it from both sides. -/

namespace QubitDynamics.Register

variable {K : Type} {n : ℕ} {targets : List ℕ}

/-! ### Writing to an array -/

section Writes

variable [Zero K]

/-- The array after `value r` has been written at `slot r`, for the rows `r` in order. -/
def writes (slot : ℕ → ℕ) (value : ℕ → K) (rows : List ℕ) (data : Array K) : Array K :=
  rows.foldl (fun data r => data.setIfInBounds (slot r) (value r)) data

theorem getD_writes_of_ne (slot : ℕ → ℕ) (value : ℕ → K) {rows : List ℕ} (data : Array K) {a : ℕ}
    (h : ∀ r ∈ rows, slot r ≠ a) : (writes slot value rows data).getD a 0 = data.getD a 0 := by
  induction rows generalizing data with
  | nil => rfl
  | cons r rows ih =>
    have hr : slot r ≠ a := h r List.mem_cons_self
    have hrest := ih (data.setIfInBounds (slot r) (value r)) fun r' hr' => h r' (List.mem_cons_of_mem r hr')
    rw [writes, List.foldl_cons]
    rw [writes] at hrest
    rw [hrest, Array.getD_eq_getD_getElem?, Array.getD_eq_getD_getElem?, Array.getElem?_setIfInBounds_ne hr]

theorem getD_writes_of_mem (slot : ℕ → ℕ) (value : ℕ → K) {rows : List ℕ} (data : Array K) {r : ℕ}
    (hr : r ∈ rows) (hslot : slot r < data.size) (hinj : ∀ r' ∈ rows, slot r' = slot r → r' = r) :
    (writes slot value rows data).getD (slot r) 0 = value r := by
  induction rows generalizing data with
  | nil => simp at hr
  | cons r₀ rows ih =>
    by_cases hmem : r ∈ rows
    · exact ih _ hmem (by simpa using hslot) fun r' hr' => hinj r' (List.mem_cons_of_mem r₀ hr')
    · obtain rfl : r = r₀ := (List.mem_cons.1 hr).resolve_right hmem
      have hne : ∀ r' ∈ rows, slot r' ≠ slot r := fun r' hr' e =>
        hmem (hinj r' (List.mem_cons_of_mem r hr') e ▸ hr')
      have hkeep := getD_writes_of_ne slot value (data.setIfInBounds (slot r) (value r)) hne
      rw [writes] at hkeep
      rw [writes, List.foldl_cons, hkeep]
      simp [Array.getD_eq_getD_getElem?, hslot]

end Writes

/-! ### One block -/

section Blocks

variable [Zero K] [Add K] [Mul K]

/-- Where the amplitudes of a register are stored in an array: at distinct places inside it. -/
structure Addressing (n : ℕ) (address : ℕ → ℕ) (size : ℕ) : Prop where
  lt : ∀ i < 2 ^ n, address i < size
  inj : ∀ i < 2 ^ n, ∀ j < 2 ^ n, address i = address j → i = j

/-- What an operator makes of the amplitude of an index: its row for the index times the
amplitudes of the block. -/
def blockProduct (m : Mat K) (n : ℕ) (targets : List ℕ) (f : ℕ → K) (i : ℕ) : K :=
  rangeSum (2 ^ targets.length) fun s => m.entry (subIndex n targets i) s * f (fill n targets i s)

def offsets (n : ℕ) (targets : List ℕ) : Array ℕ :=
  Array.ofFn fun sub : Fin (2 ^ targets.length) => offset n targets sub

theorem updateBlock_eq_writes (m : Mat K) (address : ℕ → ℕ) (data : Array K) {base : ℕ}
    (hb : spectators n targets base = base) :
    updateBlock m (offsets n targets) address data base =
      writes (fun row => address (fill n targets base row))
        (fun row => rangeSum (2 ^ targets.length) fun s =>
          m.entry row s * data.getD (address (fill n targets base s)) 0)
        (List.range (2 ^ targets.length)) data := by
  have hsize : (offsets n targets).size = 2 ^ targets.length := Array.size_ofFn
  have hoff (s : ℕ) (hs : s < 2 ^ targets.length) : base ||| (offsets n targets).getD s 0 = fill n targets base s := by
    simp [offsets, fill, hb, Array.getD_eq_getD_getElem?, hs]
  have hgather (s : ℕ) (hs : s < 2 ^ targets.length) :
      ((offsets n targets).map fun o => data.getD (address (base ||| o)) 0).getD s 0 =
        data.getD (address (fill n targets base s)) 0 := by
    rw [← hoff s hs]
    simp [offsets, Array.getD_eq_getD_getElem?, hs]
  rw [updateBlock, hsize, writes]
  refine List.foldl_ext _ _ _ fun data' row hrow => ?_
  rw [hoff row (List.mem_range.1 hrow)]
  exact congrArg _ (rangeSum_congr fun s hs => by rw [hgather s hs])

omit [Zero K] [Add K] [Mul K] in
theorem fill_inj (ht : Targets n targets) (i : ℕ) {s s' : ℕ} (hs : s < 2 ^ targets.length)
    (hs' : s' < 2 ^ targets.length) (h : fill n targets i s = fill n targets i s') : s = s' := by
  rw [← subIndex_fill ht i hs, h, subIndex_fill ht i hs']

/-- One block: the amplitudes with spectators `base` are multiplied by the operator, and
nothing else is changed. -/
theorem getD_updateBlock (ht : Targets n targets) (m : Mat K) {address : ℕ → ℕ} {data : Array K}
    (ha : Addressing n address data.size) {base : ℕ} (hbase : base < 2 ^ n)
    (hb : spectators n targets base = base) {i : ℕ} (hi : i < 2 ^ n) :
    (updateBlock m (offsets n targets) address data base).getD (address i) 0 =
      if spectators n targets i = base then blockProduct m n targets (fun j => data.getD (address j) 0) i
      else data.getD (address i) 0 := by
  rw [updateBlock_eq_writes m address data hb]
  split
  · rename_i hs
    have hfill (s : ℕ) : fill n targets base s = fill n targets i s := by
      rw [fill, fill, hb, hs]
    have hrow := subIndex_lt n targets i
    have hback : fill n targets base (subIndex n targets i) = i :=
      fill_subIndex ht hbase hi (hb.trans hs.symm)
    have hwrite := getD_writes_of_mem (fun row => address (fill n targets base row))
      (fun row => rangeSum (2 ^ targets.length) fun s =>
        m.entry row s * data.getD (address (fill n targets base s)) 0)
      data (List.mem_range.2 hrow) (ha.lt _ (fill_lt ht hbase _)) fun r hr e =>
        fill_inj ht base (List.mem_range.1 hr) hrow
          (ha.inj _ (fill_lt ht hbase _) _ (fill_lt ht hbase _) e)
    simp only [hback] at hwrite
    rw [hwrite]
    simp only [hfill]
    rfl
  · rename_i hs
    refine getD_writes_of_ne _ _ data fun row _ e => hs ?_
    rw [← ha.inj _ (fill_lt ht hbase row) _ hi e, spectators_fill ht hbase, hb]

/-- A block changes nothing outside the addressed places. -/
theorem getD_updateBlock_of_ne (ht : Targets n targets) (m : Mat K) {address : ℕ → ℕ} (data : Array K)
    {base a : ℕ} (hbase : base < 2 ^ n) (hb : spectators n targets base = base)
    (h : ∀ i < 2 ^ n, address i ≠ a) :
    (updateBlock m (offsets n targets) address data base).getD a 0 = data.getD a 0 := by
  rw [updateBlock_eq_writes m address data hb]
  exact getD_writes_of_ne _ _ data fun row _ => h _ (fill_lt ht hbase row)

/-! ### All blocks -/

omit [Zero K] [Add K] [Mul K] in
theorem spectators_spectators (ht : ∀ q ∈ targets, q < n) {i : ℕ} (hi : i < 2 ^ n) :
    spectators n targets (spectators n targets i) = spectators n targets i := by
  refine (spectators_eq_iff ht (spectators_lt ht hi) hi).2 fun q hq hqt => ?_
  simp [bit_spectators ht i hq, hqt]

/-- The product with an operator reads only amplitudes with the spectators of the index. -/
theorem blockProduct_congr (ht : Targets n targets) (m : Mat K) {f g : ℕ → K} {i : ℕ} (hi : i < 2 ^ n)
    (h : ∀ j < 2 ^ n, spectators n targets j = spectators n targets i → f j = g j) :
    blockProduct m n targets f i = blockProduct m n targets g i :=
  rangeSum_congr fun s _ => by rw [h _ (fill_lt ht hi s) (spectators_fill ht hi s)]

/-- The array after the blocks with a base below `b` are done. -/
def sweep (m : Mat K) (targets : List ℕ) (n : ℕ) (address : ℕ → ℕ) (data : Array K) (b : ℕ) : Array K :=
  (List.range b).foldl (fun data base =>
    if base &&& targetMask n targets = 0 then updateBlock m (offsets n targets) address data base else data) data

theorem size_sweep (m : Mat K) (targets : List ℕ) (n : ℕ) (address : ℕ → ℕ) (data : Array K) (b : ℕ) :
    (sweep m targets n address data b).size = data.size := by
  induction b with
  | zero => rfl
  | succ b ih =>
    rw [sweep] at ih ⊢
    rw [List.range_succ, List.foldl_append, List.foldl_cons, List.foldl_nil]
    split <;> simp [ih]

/-- The next index is passed over unless it is the base of a block. -/
theorem sweep_succ (ht : ∀ q ∈ targets, q < n) (m : Mat K) (address : ℕ → ℕ) (data : Array K) {b : ℕ}
    (hb : b < 2 ^ n) :
    sweep m targets n address data (b + 1) =
      if spectators n targets b = b then
        updateBlock m (offsets n targets) address (sweep m targets n address data b) b
      else sweep m targets n address data b := by
  rw [sweep, List.range_succ, List.foldl_append, List.foldl_cons, List.foldl_nil]
  exact if_congr (and_targetMask_eq_zero_iff ht hb) rfl rfl

/-- What the sweep has done before it comes to base `b`: the amplitudes whose spectators lie
below `b` are final, and all others are as they were. -/
theorem getD_sweep (ht : Targets n targets) (m : Mat K) {address : ℕ → ℕ} {data : Array K}
    (ha : Addressing n address data.size) {b : ℕ} (hb : b ≤ 2 ^ n) {i : ℕ} (hi : i < 2 ^ n) :
    (sweep m targets n address data b).getD (address i) 0 =
      if spectators n targets i < b then blockProduct m n targets (fun j => data.getD (address j) 0) i
      else data.getD (address i) 0 := by
  induction b generalizing i with
  | zero => simp [sweep]
  | succ b ih =>
    have hlt : b < 2 ^ n := by omega
    have ih' {j : ℕ} (hj : j < 2 ^ n) := ih (by omega) hj
    rw [sweep_succ ht.lt m address data hlt]
    by_cases hbase : spectators n targets b = b
    · rw [if_pos hbase, getD_updateBlock ht m (by rwa [size_sweep]) hlt hbase hi]
      by_cases hs : spectators n targets i = b
      · -- the block of `b` is read before any amplitude of it is written
        rw [if_pos hs, if_pos (by omega)]
        refine blockProduct_congr ht m hi fun j hj hji => ?_
        rw [ih' hj, if_neg (by omega)]
      · rw [if_neg hs, ih' hi]
        simp only [show spectators n targets i < b + 1 ↔ spectators n targets i < b by omega]
    · have hs : spectators n targets i ≠ b := fun e =>
        hbase (by rw [← e, spectators_spectators ht.lt hi])
      rw [if_neg hbase, ih' hi]
      simp only [show spectators n targets i < b + 1 ↔ spectators n targets i < b by omega]

theorem getD_sweep_of_ne (ht : Targets n targets) (m : Mat K) {address : ℕ → ℕ} (data : Array K) {a b : ℕ}
    (hb : b ≤ 2 ^ n) (h : ∀ i < 2 ^ n, address i ≠ a) :
    (sweep m targets n address data b).getD a 0 = data.getD a 0 := by
  induction b with
  | zero => rfl
  | succ b ih =>
    have hlt : b < 2 ^ n := by omega
    rw [sweep_succ ht.lt m address data hlt]
    split
    · rename_i hbase
      rw [getD_updateBlock_of_ne ht m _ hlt hbase h, ih (by omega)]
    · exact ih (by omega)

theorem applyInPlace_eq_sweep (hn : n < 64) (hk : targets.length < 64) (m : Mat K) (address : ℕ → ℕ) (data : Array K) :
    applyInPlace m targets n address data = sweep m targets n address data (2 ^ n) := by
  have hoffsets :
      (Array.ofFn fun sub : Fin (dimension targets.length) => scatter n targets sub) = offsets n targets := by
    rw [offsets, dimension_eq hk]
    simp only [scatter_eq_offset hn.le hk.le]
  rw [applyInPlace, hoffsets, dimension_eq hn, mask_eq_targetMask hn.le]
  rfl

/-- Applying an operator in place multiplies every block by it. -/
theorem getD_applyInPlace (hn : n < 64) (ht : Targets n targets) (m : Mat K) {address : ℕ → ℕ} {data : Array K}
    (ha : Addressing n address data.size) {i : ℕ} (hi : i < 2 ^ n) :
    (applyInPlace m targets n address data).getD (address i) 0 =
      blockProduct m n targets (fun j => data.getD (address j) 0) i := by
  rw [applyInPlace_eq_sweep hn (ht.length_le.trans_lt hn), getD_sweep ht m ha le_rfl hi,
    if_pos (spectators_lt ht.lt hi)]

theorem getD_applyInPlace_of_ne (hn : n < 64) (ht : Targets n targets) (m : Mat K) {address : ℕ → ℕ} (data : Array K)
    {a : ℕ} (h : ∀ i < 2 ^ n, address i ≠ a) :
    (applyInPlace m targets n address data).getD a 0 = data.getD a 0 := by
  rw [applyInPlace_eq_sweep hn (ht.length_le.trans_lt hn), getD_sweep_of_ne ht m data le_rfl h]

end Blocks

variable [Semiring K]

/-- The amplitudes of a register that are stored at the given addresses. -/
def amplitudes (n : ℕ) (address : ℕ → ℕ) (data : Array K) : Fin (2 ^ n) → K :=
  fun i => data.getD (address i) 0

/-- A row of an embedded operator meets only the amplitudes of one block. -/
theorem mulVec_operator (ht : Targets n targets) (m : Mat K) (f : ℕ → K) (i : Fin (2 ^ n)) :
    (operator n targets m).mulVec (fun j => f j) i = blockProduct m n targets f i := by
  simp only [Matrix.mulVec, dotProduct, operator_apply, ite_mul, zero_mul]
  rw [sum_spectators_eq ht i.isLt fun j => m.entry (subIndex n targets i) (subIndex n targets j) * f j]
  simp only [subIndex_fill ht _ (Fin.isLt _)]
  rw [blockProduct, rangeSum_eq_sum]

/-- Applying an operator in place multiplies the amplitudes by its embedding. -/
theorem amplitudes_applyInPlace (hn : n < 64) (ht : Targets n targets) (m : Mat K) {address : ℕ → ℕ} {data : Array K}
    (ha : Addressing n address data.size) :
    amplitudes n address (applyInPlace m targets n address data) =
      (operator n targets m).mulVec (amplitudes n address data) := by
  funext i
  rw [amplitudes, getD_applyInPlace hn ht m ha i.isLt]
  exact (mulVec_operator ht m (fun j => data.getD (address j) 0) i).symm

/-! ### Columns -/

section Shapes

omit [Semiring K]

variable [Zero K] [Add K] [Mul K] {r c : ℕ} {rho : Mat K}

theorem hasShape_applyToColumn (m : Mat K) (targets : List ℕ) (n : ℕ) (hrho : rho.HasShape r c) (j : ℕ) :
    (applyToColumn m targets n rho j).HasShape r c := ⟨hrho.rows, hrho.cols⟩

theorem hasShape_applyToColumns (m : Mat K) (targets : List ℕ) (n : ℕ) (hrho : rho.HasShape r c) :
    (applyToColumns m targets n rho).HasShape r c := by
  unfold applyToColumns
  generalize List.range rho.cols = columns
  induction columns generalizing rho with
  | nil => exact hrho
  | cons j columns ih => exact ih (hasShape_applyToColumn m targets n hrho j)

end Shapes

section Columns

variable {c : ℕ} {rho : Mat K}

omit [Semiring K] in
/-- The places of one column in a matrix that is stored row by row. -/
theorem addressing_column (hrho : rho.HasShape (2 ^ n) c) {j : ℕ} (hj : j < c) :
    Addressing n (fun i => i * rho.cols + j) rho.data.size where
  lt i hi := by
    rw [rho.size_eq, hrho.rows, hrho.cols]
    exact Mat.index_lt hi hj
  inj i _ i' _ h := by
    have hpos : 0 < c := by omega
    rw [hrho.cols] at h
    exact Nat.eq_of_mul_eq_mul_right hpos (by omega)

theorem entry_eq_getD (hrho : rho.HasShape (2 ^ n) c) {j : ℕ} (hj : j < c) (i : ℕ) :
    rho.entry i j = rho.data.getD (i * rho.cols + j) 0 := by
  rw [Mat.entry, if_pos (by rwa [hrho.cols])]

theorem amplitudes_column (hrho : rho.HasShape (2 ^ n) c) {j : ℕ} (hj : j < c) :
    amplitudes n (fun i => i * rho.cols + j) rho.data = fun i : Fin (2 ^ n) => rho.entry i j := by
  funext i
  rw [amplitudes, entry_eq_getD hrho hj]

theorem entry_applyToColumn (hn : n < 64) (ht : Targets n targets) (m : Mat K) (hrho : rho.HasShape (2 ^ n) c) {j : ℕ}
    (hj : j < c) (i : Fin (2 ^ n)) {k : ℕ} (hk : k < c) :
    (applyToColumn m targets n rho j).entry i k =
      if k = j then (operator n targets m).mulVec (fun r => rho.entry r j) i else rho.entry i k := by
  have hnew : (applyToColumn m targets n rho j).entry i k =
      (applyInPlace m targets n (fun i => i * rho.cols + j) rho.data).getD (i * rho.cols + k) 0 :=
    entry_eq_getD (hasShape_applyToColumn m targets n hrho j) hk i
  rw [hnew]
  split
  · rename_i hkj
    subst hkj
    rw [← amplitudes_column hrho hk, ← amplitudes_applyInPlace hn ht m (addressing_column hrho hk)]
    rfl
  · rename_i hkj
    rw [entry_eq_getD hrho hk]
    refine getD_applyInPlace_of_ne hn ht m rho.data fun i' _ e => hkj ?_
    -- the column number is the remainder of the place
    have hmod := congrArg (· % rho.cols) e
    simpa [hrho.cols, Nat.mod_eq_of_lt hj, Nat.mod_eq_of_lt hk, eq_comm] using hmod

/-- The matrix after the first `b` columns are done. -/
theorem entry_foldl_applyToColumn (hn : n < 64) (ht : Targets n targets) (m : Mat K)
    (hrho : rho.HasShape (2 ^ n) c) {b : ℕ} (hb : b ≤ c) :
    ((List.range b).foldl (applyToColumn m targets n) rho).HasShape (2 ^ n) c ∧
      ∀ (i : Fin (2 ^ n)) (k : ℕ), k < c →
        ((List.range b).foldl (applyToColumn m targets n) rho).entry i k =
          if k < b then (operator n targets m).mulVec (fun r => rho.entry r k) i else rho.entry i k := by
  induction b with
  | zero => exact ⟨hrho, fun i k _ => by simp⟩
  | succ b ih =>
    obtain ⟨hshape, hentry⟩ := ih (by omega)
    rw [List.range_succ, List.foldl_append, List.foldl_cons, List.foldl_nil]
    refine ⟨hasShape_applyToColumn m targets n hshape b, fun i k hk => ?_⟩
    rw [entry_applyToColumn hn ht m hshape (by omega) i hk]
    by_cases hkb : k = b
    · subst hkb
      simp [hentry _ _ hk]
    · rw [if_neg hkb, hentry i k hk]
      simp only [show k < b + 1 ↔ k < b by omega]

/-- Applying an operator to every column is multiplying by its embedding from the left. -/
theorem toMatrix_applyToColumns (hn : n < 64) (ht : Targets n targets) (m : Mat K) (hrho : rho.HasShape (2 ^ n) c) :
    (applyToColumns m targets n rho).toMatrix (2 ^ n) c = operator n targets m * rho.toMatrix (2 ^ n) c := by
  funext i k
  have h := (entry_foldl_applyToColumn hn ht m hrho hrho.cols.le).2 i k k.isLt
  rw [if_pos (by rw [hrho.cols]; exact k.isLt)] at h
  exact h

end Columns

/-! ### States -/

omit [Semiring K]

theorem numQubits_two_pow (n : ℕ) : numQubits (2 ^ n) = .ok n := by
  simp [numQubits, Nat.log2_two_pow]

theorem checkFit_eq_ok {m : Mat K} (hlt : ∀ q ∈ targets, q < n) (hk : targets.length < 64)
    (hm : m.HasShape (2 ^ targets.length) (2 ^ targets.length)) : checkFit m targets n = .ok () := by
  have hfind : targets.find? (n ≤ ·) = none := by
    rw [List.find?_eq_none]
    intro q hq
    simpa using hlt q hq
  simp [checkFit, hfind, dimension_eq hk, hm.rows, hm.cols]

theorem embed_eq_fullMatrix [Zero K] {m : Mat K} (hlt : ∀ q ∈ targets, q < n) (hk : targets.length < 64)
    (hm : m.HasShape (2 ^ targets.length) (2 ^ targets.length)) :
    embed m targets n = .ok (fullMatrix m targets n) := by
  rw [embed, checkFit_eq_ok hlt hk hm]
  rfl

/-- An operator that fits a register of fewer than sixty-four qubits is embedded, at exact indices. -/
theorem embed_eq_ok [Zero K] {m : Mat K} (hn : n < 64) (hlt : ∀ q ∈ targets, q < n) (hk : targets.length < 64)
    (hm : m.HasShape (2 ^ targets.length) (2 ^ targets.length)) :
    embed m targets n = .ok (embedding m targets n) := by
  rw [embed_eq_fullMatrix hlt hk hm, fullMatrix_eq_embedding hn hk.le]

theorem Targets.embed_eq [Zero K] (ht : Targets n targets) (hn : n < 64) {m : Mat K}
    (hm : m.HasShape (2 ^ targets.length) (2 ^ targets.length)) : embed m targets n = .ok (embedding m targets n) :=
  embed_eq_ok hn ht.lt (ht.length_le.trans_lt hn) hm

section

variable {R : Type} [Zero K] [Add K] [Mul K] [ComplexScalar K R]

theorem apply_vector {m : Mat K} (hlt : ∀ q ∈ targets, q < n) (hk : targets.length < 64)
    (hm : m.HasShape (2 ^ targets.length) (2 ^ targets.length)) {psi : Array K} (hpsi : psi.size = 2 ^ n) :
    apply m targets (.vector psi) = .ok (.vector (applyInPlace m targets n id psi)) := by
  rw [apply, State.dim, hpsi, numQubits_two_pow]
  simp only [bind, Except.bind, checkFit_eq_ok hlt hk hm]
  rfl

theorem apply_density {m : Mat K} (hlt : ∀ q ∈ targets, q < n) (hk : targets.length < 64)
    (hm : m.HasShape (2 ^ targets.length) (2 ^ targets.length)) {rho : Mat K} (hrho : rho.rows = 2 ^ n) :
    apply m targets (.density rho) = .ok (.density
      (applyToColumns m targets n (applyToColumns m targets n rho).conjTranspose).conjTranspose) := by
  rw [apply, State.dim, hrho, numQubits_two_pow]
  simp only [bind, Except.bind, checkFit_eq_ok hlt hk hm]
  rfl

end

/-- A vector is a matrix times another vector if its amplitudes are. -/
theorem column_eq_mul {m : Mat ℂ} (hm : m.HasShape (2 ^ n) (2 ^ n)) {phi psi : Array ℂ} (hphi : phi.size = 2 ^ n)
    (hpsi : psi.size = 2 ^ n) (h : amplitudes n id phi = (m.toMatrix (2 ^ n) (2 ^ n)).mulVec (amplitudes n id psi)) :
    Mat.column phi = m.mul (Mat.column psi) := by
  have hcolumn {v : Array ℂ} (hv : v.size = 2 ^ n) : (Mat.column v).HasShape (2 ^ n) 1 := ⟨hv, rfl⟩
  have hentry {v : Array ℂ} (hv : v.size = 2 ^ n) (i : Fin (2 ^ n)) :
      (Mat.column v).toMatrix (2 ^ n) 1 i 0 = amplitudes n id v i :=
    Mat.entry_ofFn _ (by rw [hv]; exact i.isLt) (by omega)
  refine (hcolumn hphi).ext (hm.mul (hcolumn hpsi)) ?_
  rw [Mat.toMatrix_mul hm (hcolumn hpsi)]
  funext i j
  obtain rfl : j = 0 := Subsingleton.elim j 0
  rw [hentry hphi, h, Matrix.mul_apply]
  simp only [hentry hpsi, Matrix.mulVec, dotProduct]

theorem column_applyInPlace (hn : n < 64) (ht : Targets n targets) (m : Mat ℂ) {psi : Array ℂ}
    (hpsi : psi.size = 2 ^ n) :
    Mat.column (applyInPlace m targets n id psi) = (embedding m targets n).mul (Mat.column psi) := by
  have ha : Addressing n id psi.size := ⟨fun i hi => by rwa [hpsi], fun i _ j _ h => h⟩
  exact column_eq_mul (hasShape_embedding m targets n) ((size_applyInPlace m targets n id psi).trans hpsi) hpsi
    (amplitudes_applyInPlace hn ht m ha)

theorem applyToColumns_eq_mul (hn : n < 64) (ht : Targets n targets) (m : Mat ℂ) {c : ℕ} {rho : Mat ℂ}
    (hrho : rho.HasShape (2 ^ n) c) : applyToColumns m targets n rho = (embedding m targets n).mul rho := by
  have hE := hasShape_embedding m targets n
  refine (hasShape_applyToColumns m targets n hrho).ext (hE.mul hrho) ?_
  rw [toMatrix_applyToColumns hn ht m hrho, Mat.toMatrix_mul hE hrho]
  rfl

/-- Two sweeps with conjugate transposes multiply a density matrix from both sides. -/
theorem two_sweeps_eq (hn : n < 64) (ht : Targets n targets) (m : Mat ℂ) {rho : Mat ℂ}
    (hrho : rho.HasShape (2 ^ n) (2 ^ n)) :
    (applyToColumns m targets n (applyToColumns m targets n rho).conjTranspose).conjTranspose =
      ((embedding m targets n).mul rho).mul (embedding m targets n).conjTranspose := by
  have hE := hasShape_embedding m targets n
  have honce := (hE.mul hrho).conjTranspose
  rw [applyToColumns_eq_mul hn ht m hrho, applyToColumns_eq_mul hn ht m honce]
  refine (hE.mul honce).conjTranspose.ext ((hE.mul hrho).mul hE.conjTranspose) ?_
  rw [Mat.toMatrix_conjTranspose (hE.mul honce), Mat.toMatrix_mul hE honce,
    Mat.toMatrix_conjTranspose (hE.mul hrho), Mat.toMatrix_mul (hE.mul hrho) hE.conjTranspose,
    Mat.toMatrix_conjTranspose hE, Matrix.conjTranspose_mul, Matrix.conjTranspose_conjTranspose]

/-- An operator on distinct targets of a register acts on every state of the register as its
embedding does: on the left of a vector, on both sides of a density matrix. A register with states has fewer
than sixty-four qubits, since the dimension is a word. -/
theorem apply_eq_embed (n : ℕ) (hn : n < 64) (targets : List ℕ) (hlt : ∀ q ∈ targets, q < n)
    (hnd : targets.Nodup) (m : Mat ℂ) (hrows : m.rows = 2 ^ targets.length) (hcols : m.cols = 2 ^ targets.length) :
    ∃ full : Mat ℂ, embed m targets n = .ok full ∧
      (∀ psi : Array ℂ, psi.size = 2 ^ n → ∃ phi : Array ℂ,
        apply m targets (.vector psi) = .ok (.vector phi) ∧ Mat.column phi = full.mul (Mat.column psi)) ∧
      (∀ rho : Mat ℂ, rho.rows = 2 ^ n → rho.cols = 2 ^ n →
        apply m targets (.density rho) = .ok (.density ((full.mul rho).mul full.conjTranspose))) := by
  have ht : Targets n targets := ⟨hlt, hnd⟩
  have hk : targets.length < 64 := ht.length_le.trans_lt hn
  have hm : m.HasShape (2 ^ targets.length) (2 ^ targets.length) := ⟨hrows, hcols⟩
  refine ⟨embedding m targets n, ht.embed_eq hn hm, fun psi hpsi => ?_, fun rho hr hc => ?_⟩
  · exact ⟨_, apply_vector hlt hk hm hpsi, column_applyInPlace hn ht m hpsi⟩
  · rw [apply_density hlt hk hm hr, two_sweeps_eq hn ht m ⟨hr, hc⟩]

/-- An operator that is not unitary on the outer qubits of three, last qubit first. -/
theorem apply_eq_embed_outer :
    let m : Mat ℂ := .ofFn 4 4 fun r c => r + 2 * c * Complex.I
    let psi : Array ℂ := .ofFn fun i : Fin 8 => (i : ℂ) * Complex.I
    let rho : Mat ℂ := .ofFn 8 8 fun r c => r * r + c * Complex.I
    ∃ full : Mat ℂ, embed m [2, 0] 3 = .ok full ∧
      (∃ phi : Array ℂ,
        apply m [2, 0] (.vector psi) = .ok (.vector phi) ∧ Mat.column phi = full.mul (Mat.column psi)) ∧
      apply m [2, 0] (.density rho) = .ok (.density ((full.mul rho).mul full.conjTranspose)) := by
  intro m psi rho
  obtain ⟨full, hfull, hvector, hdensity⟩ := apply_eq_embed 3 (by decide) [2, 0] (by decide) (by decide) m rfl rfl
  exact ⟨full, hfull, hvector psi Array.size_ofFn, hdensity rho rfl rfl⟩

end QubitDynamics.Register
