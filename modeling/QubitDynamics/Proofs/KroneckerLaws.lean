import Mathlib.LinearAlgebra.Matrix.Kronecker
import QubitDynamics.Proofs.ExactScalar

/-! Laws of the Kronecker product. The product consists of blocks, one for each entry
of the first factor, and each block is that entry times the second factor. As a
function of row and column it is the Kronecker product of linear algebra after rows
and columns are split into quotient and remainder, which gives the mixed product
and the product of identities for matrices of any shape, empty ones included. -/

namespace QubitDynamics

open Matrix
open scoped Kronecker

namespace Mat

variable {K : Type}

/-! ### Blocks -/

theorem block_div {i r p : ℕ} (hp : p < r) : (i * r + p) / r = i := by
  rw [Nat.mul_comm, Nat.mul_add_div (Nat.zero_lt_of_lt hp), Nat.div_eq_of_lt hp, Nat.add_zero]

theorem block_mod {i r p : ℕ} (hp : p < r) : (i * r + p) % r = p := by
  rw [Nat.mul_comm, Nat.mul_add_mod, Nat.mod_eq_of_lt hp]

theorem div_block_lt {n r i : ℕ} (hi : i < n * r) : i / r < n := Nat.div_lt_of_lt_mul (by rwa [Nat.mul_comm])

theorem mod_block_lt {n r i : ℕ} (hi : i < n * r) : i % r < r :=
  Nat.mod_lt i (Nat.pos_of_mul_pos_left (Nat.zero_lt_of_lt hi))

section Blocks

variable [Zero K] [Mul K]

theorem entry_kron_block {a b : Mat K} {i j p q : ℕ} (hi : i < a.rows) (hj : j < a.cols) (hp : p < b.rows)
    (hq : q < b.cols) : (a.kron b).entry (i * b.rows + p) (j * b.cols + q) = a.entry i j * b.entry p q := by
  rw [kron, entry_ofFn _ (index_lt hi hp) (index_lt hj hq), block_div hp, block_div hq, block_mod hp, block_mod hq]

/-- A matrix is the product if it has its shape and its blocks. -/
theorem eq_kron_iff {a b m : Mat K} :
    m = a.kron b ↔ m.rows = a.rows * b.rows ∧ m.cols = a.cols * b.cols ∧
      ∀ i j p q, i < a.rows → j < a.cols → p < b.rows → q < b.cols →
        m.entry (i * b.rows + p) (j * b.cols + q) = a.entry i j * b.entry p q := by
  constructor
  · rintro rfl
    exact ⟨rfl, rfl, fun i j p q => entry_kron_block⟩
  · rintro ⟨hr, hc, hblocks⟩
    refine Mat.ext hr hc fun r c hrow hcol => ?_
    rw [hr] at hrow
    rw [hc] at hcol
    have hm := hblocks _ _ _ _ (div_block_lt hrow) (div_block_lt hcol) (mod_block_lt hrow) (mod_block_lt hcol)
    simp only [Nat.div_add_mod'] at hm
    rw [hm, kron, entry_ofFn _ hrow hcol]

end Blocks

/-! ### Writing block by block -/

/-- The matrix with the entries of a block in place of its own, from row `top` and column `left` on. -/
def writeBlock [Zero K] (m : Mat K) (top left : ℕ) (block : Mat K) : Mat K :=
  ofFn m.rows m.cols fun r c =>
    if (top ≤ r ∧ r < top + block.rows) ∧ left ≤ c ∧ c < left + block.cols then block.entry (r - top) (c - left)
    else m.entry r c

section Writing

variable [Zero K] [Mul K]

/-- The matrix with the block of the product that belongs to one entry of the first factor. -/
def writeProduct (a b m : Mat K) (place : ℕ × ℕ) : Mat K :=
  m.writeBlock (place.1 * b.rows) (place.2 * b.cols)
    (ofFn b.rows b.cols fun p q => a.entry place.1 place.2 * b.entry p q)

/-- The Kronecker product, written block by block over zeros along the rows of the first factor. -/
def kronInPlace (a b : Mat K) : Mat K :=
  (List.range a.rows ×ˢ List.range a.cols).foldl (writeProduct a b) (zero (a.rows * b.rows) (a.cols * b.cols))

theorem mem_block_iff {n r h i : ℕ} (hr : r < n * h) : (i * h ≤ r ∧ r < i * h + h) ↔ r / h = i := by
  have hh : 0 < h := Nat.pos_of_mul_pos_left (Nat.zero_lt_of_lt hr)
  rw [← Nat.succ_mul, ← Nat.le_div_iff_mul_le hh, ← Nat.div_lt_iff_lt_mul hh]
  omega

theorem HasShape.writeProduct {m : Mat K} {r c : ℕ} (hm : m.HasShape r c) (a b : Mat K) (place : ℕ × ℕ) :
    (Mat.writeProduct a b m place).HasShape r c := ⟨hm.rows, hm.cols⟩

theorem entry_writeProduct {a b m : Mat K} {place : ℕ × ℕ} {r c : ℕ} (hm : m.HasShape (a.rows * b.rows) (a.cols * b.cols))
    (hr : r < a.rows * b.rows) (hc : c < a.cols * b.cols) :
    (writeProduct a b m place).entry r c =
      if (r / b.rows, c / b.cols) = place then (a.kron b).entry r c else m.entry r c := by
  obtain ⟨i, j⟩ := place
  rw [writeProduct, writeBlock, entry_ofFn _ (hm.rows ▸ hr) (hm.cols ▸ hc), rows_ofFn, cols_ofFn]
  simp only [mem_block_iff hr, mem_block_iff hc, Prod.mk.injEq]
  refine if_ctx_congr Iff.rfl ?_ fun _ => rfl
  rintro ⟨rfl, rfl⟩
  rw [kron, entry_ofFn _ hr hc, ← Nat.mod_eq_sub_div_mul, ← Nat.mod_eq_sub_div_mul,
    entry_ofFn _ (mod_block_lt hr) (mod_block_lt hc)]

/-- Blocks written at any places: an entry is that of the product if its block is among them, and as before
otherwise. -/
theorem entry_foldl_writeProduct {a b m : Mat K} (places : List (ℕ × ℕ)) {r c : ℕ}
    (hm : m.HasShape (a.rows * b.rows) (a.cols * b.cols)) (hr : r < a.rows * b.rows) (hc : c < a.cols * b.cols) :
    (places.foldl (writeProduct a b) m).entry r c =
      if (r / b.rows, c / b.cols) ∈ places then (a.kron b).entry r c else m.entry r c := by
  induction places generalizing m with
  | nil => simp
  | cons place places ih =>
    rw [List.foldl_cons, ih (hm.writeProduct a b place), entry_writeProduct hm hr hc]
    by_cases hlater : (r / b.rows, c / b.cols) ∈ places <;> simp [hlater]

theorem hasShape_foldl_writeProduct {a b m : Mat K} {r c : ℕ} (places : List (ℕ × ℕ)) (hm : m.HasShape r c) :
    (places.foldl (writeProduct a b) m).HasShape r c := by
  induction places generalizing m with
  | nil => exact hm
  | cons place places ih => exact ih (hm.writeProduct a b place)

theorem kronInPlace_eq (a b : Mat K) : kronInPlace a b = a.kron b := by
  have hzero := hasShape_zero (K := K) (a.rows * b.rows) (a.cols * b.cols)
  have hshape := hasShape_foldl_writeProduct (a := a) (b := b) (List.range a.rows ×ˢ List.range a.cols) hzero
  refine Mat.ext hshape.rows hshape.cols fun r c hr hc => ?_
  have hr : r < a.rows * b.rows := hshape.rows ▸ hr
  have hc : c < a.cols * b.cols := hshape.cols ▸ hc
  have hplace : (r / b.rows, c / b.cols) ∈ List.range a.rows ×ˢ List.range a.cols :=
    List.mem_product.2 ⟨List.mem_range.2 (div_block_lt hr), List.mem_range.2 (div_block_lt hc)⟩
  rw [kronInPlace, entry_foldl_writeProduct _ hzero hr hc, if_pos hplace]

end Writing

/-! ### Algebra -/

theorem toMatrix_kron [MulZeroClass K] {r c r' c' : ℕ} {a b : Mat K} (ha : a.HasShape r c) (hb : b.HasShape r' c') :
    (a.kron b).toMatrix (r * r') (c * c') =
      (a.toMatrix r c ⊗ₖ b.toMatrix r' c').submatrix finProdFinEquiv.symm finProdFinEquiv.symm := by
  ext i j
  exact entry_kron ha hb i.isLt j.isLt

theorem identity_kron_identity [MulZeroOneClass K] (m n : ℕ) :
    (identity m : Mat K).kron (identity n) = identity (m * n) := by
  refine ((hasShape_identity m).kron (hasShape_identity n)).ext (hasShape_identity (m * n)) ?_
  rw [toMatrix_kron (hasShape_identity m) (hasShape_identity n), toMatrix_identity, toMatrix_identity, toMatrix_identity,
    one_kronecker_one, submatrix_one_equiv]

/-- The mixed product: blocks are multiplied like entries. -/
theorem kron_mul_kron [CommSemiring K] {a b c d : Mat K} (hac : a.cols = c.rows) (hbd : b.cols = d.rows) :
    (a.kron b).mul (c.kron d) = (a.mul c).kron (b.mul d) := by
  have ha : a.HasShape a.rows a.cols := ⟨rfl, rfl⟩
  have hb : b.HasShape b.rows b.cols := ⟨rfl, rfl⟩
  have hc : c.HasShape a.cols c.cols := ⟨hac.symm, rfl⟩
  have hd : d.HasShape b.cols d.cols := ⟨hbd.symm, rfl⟩
  refine ((ha.kron hb).mul (hc.kron hd)).ext ((ha.mul hc).kron (hb.mul hd)) ?_
  rw [toMatrix_mul (ha.kron hb) (hc.kron hd), toMatrix_kron ha hb, toMatrix_kron hc hd,
    toMatrix_kron (ha.mul hc) (hb.mul hd), toMatrix_mul ha hc, toMatrix_mul hb hd, mul_kronecker_mul, submatrix_mul_equiv]

theorem kron_assoc [Zero K] [Semigroup K] (a b c : Mat K) : (a.kron b).kron c = a.kron (b.kron c) := by
  refine eq_kron_iff.2 ⟨Nat.mul_assoc .., Nat.mul_assoc .., ?_⟩
  intro i j p q hi hj (hp : p < b.rows * c.rows) (hq : q < b.cols * c.cols)
  -- a place in a block of blocks is a place in one of its blocks
  have hrow : i * (b.kron c).rows + p = (i * b.rows + p / c.rows) * c.rows + p % c.rows := by
    rw [Nat.add_mul, Nat.mul_assoc, Nat.add_assoc, Nat.div_add_mod']
    rfl
  have hcol : j * (b.kron c).cols + q = (j * b.cols + q / c.cols) * c.cols + q % c.cols := by
    rw [Nat.add_mul, Nat.mul_assoc, Nat.add_assoc, Nat.div_add_mod']
    rfl
  have hbc : (b.kron c).entry p q = b.entry (p / c.rows) (q / c.cols) * c.entry (p % c.rows) (q % c.cols) :=
    entry_ofFn _ hp hq
  have hpb := div_block_lt hp
  have hqb := div_block_lt hq
  rw [hrow, hcol, entry_kron_block (a := a.kron b) (index_lt hi hpb) (index_lt hj hqb) (mod_block_lt hp)
    (mod_block_lt hq), entry_kron_block hi hj hpb hqb, hbc, mul_assoc]

theorem identity_one_kron [MulZeroOneClass K] (a : Mat K) : (identity 1).kron a = a := by
  have ha : a.HasShape a.rows a.cols := ⟨rfl, rfl⟩
  refine Mat.ext (Nat.one_mul _) (Nat.one_mul _) fun r c (hr : r < 1 * a.rows) (hc : c < 1 * a.cols) => ?_
  rw [entry_kron (hasShape_identity 1) ha hr hc]
  rw [Nat.one_mul] at hr hc
  rw [Nat.div_eq_of_lt hr, Nat.div_eq_of_lt hc, Nat.mod_eq_of_lt hr, Nat.mod_eq_of_lt hc, identity,
    entry_ofFn _ Nat.one_pos Nat.one_pos, if_pos rfl, one_mul]

theorem kron_identity_one [MulZeroOneClass K] (a : Mat K) : a.kron (identity 1) = a := by
  have ha : a.HasShape a.rows a.cols := ⟨rfl, rfl⟩
  refine Mat.ext (Nat.mul_one _) (Nat.mul_one _) fun r c (hr : r < a.rows * 1) (hc : c < a.cols * 1) => ?_
  rw [entry_kron ha (hasShape_identity 1) hr hc, Nat.div_one, Nat.div_one, Nat.mod_one, Nat.mod_one, identity,
    entry_ofFn _ Nat.one_pos Nat.one_pos, if_pos rfl, mul_one]

theorem mul?_eq_some_iff [Zero K] [One K] [Add K] [Mul K] {a b m : Mat K} :
    a.mul? b = some m ↔ a.cols = b.rows ∧ m = a.mul b := by
  rw [mul?]
  split <;> simp_all [eq_comm]

/-- The Kronecker product is the matrix with the blocks `a i j * b`, also when it is written block by block. It is
associative, the one by one identity is its unit, identities multiply to identities, and it carries products of
matrices to products. -/
theorem kron_blocks_and_laws [CommSemiring K] :
    (∀ a b m : Mat K, m = a.kron b ↔ m.rows = a.rows * b.rows ∧ m.cols = a.cols * b.cols ∧
      ∀ i j p q, i < a.rows → j < a.cols → p < b.rows → q < b.cols →
        m.entry (i * b.rows + p) (j * b.cols + q) = a.entry i j * b.entry p q) ∧
    (∀ a b : Mat K, kronInPlace a b = a.kron b) ∧
    (∀ a b c : Mat K, (a.kron b).kron c = a.kron (b.kron c)) ∧
    (∀ a : Mat K, (identity 1).kron a = a ∧ a.kron (identity 1) = a) ∧
    (∀ m n : ℕ, (identity m : Mat K).kron (identity n) = identity (m * n)) ∧
    ∀ a b c d ac bd : Mat K, a.mul? c = some ac → b.mul? d = some bd →
      (a.kron b).mul? (c.kron d) = some (ac.kron bd) := by
  refine ⟨fun a b m => eq_kron_iff, kronInPlace_eq, kron_assoc, fun a => ⟨identity_one_kron a, kron_identity_one a⟩,
    identity_kron_identity, fun a b c d ac bd hac hbd => ?_⟩
  obtain ⟨hinner, rfl⟩ := mul?_eq_some_iff.1 hac
  obtain ⟨hinner', rfl⟩ := mul?_eq_some_iff.1 hbd
  exact mul?_eq_some_iff.2 ⟨congrArg₂ (· * ·) hinner hinner', (kron_mul_kron hinner hinner').symm⟩

/-- Rectangular factors, one of them without columns. -/
theorem kron_blocks_and_laws_rectangular :
    let a : Mat ℂ := ofFn 2 3 fun i j => i + j * Complex.I
    let b : Mat ℂ := ofFn 2 1 fun i _ => Complex.I - i
    let c : Mat ℂ := ofFn 3 0 fun i j => i * j
    let d : Mat ℂ := ofFn 1 2 fun _ j => j
    a.mul? c = some (a.mul c) ∧ b.mul? d = some (b.mul d) ∧
    (a.kron b).mul? (c.kron d) = some ((a.mul c).kron (b.mul d)) ∧
    (a.kron b).rows = 4 ∧ (a.kron b).cols = 3 ∧ (a.kron b).entry 3 2 = a.entry 1 2 * b.entry 1 0 := by
  intro a b c d
  have hac : a.mul? c = some (a.mul c) := if_pos rfl
  have hbd : b.mul? d = some (b.mul d) := if_pos rfl
  obtain ⟨hblocks, -, -, -, -, hmixed⟩ := kron_blocks_and_laws (K := ℂ)
  obtain ⟨hrows, hcols, hentry⟩ := (hblocks a b _).1 rfl
  exact ⟨hac, hbd, hmixed a b c d _ _ hac hbd, hrows, hcols,
    hentry 1 2 1 0 (by decide) (by decide) (by decide) (by decide)⟩

end Mat

end QubitDynamics
