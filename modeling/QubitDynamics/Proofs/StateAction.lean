import Mathlib.LinearAlgebra.Matrix.Trace
import Mathlib.LinearAlgebra.UnitaryGroup
import QubitDynamics.Proofs.InPlace
import QubitDynamics.Term.Product

/-! Operators acting on states. A gate that fits a register transforms every state
of the register by its operator `U`: a vector `ψ` becomes `U ψ` and a density
matrix `ρ` becomes `U ρ U†`. Transforming a pure state commutes with taking its
projector, which has the same probabilities and expectations. The operator of a
unitary matrix is unitary and keeps the norm. -/

namespace QubitDynamics

open Register Matrix

variable {K : Type} {n : ℕ}

/-! ### Amplitudes of a vector -/

theorem amplitudes_ofFn [Semiring K] (f : Fin (2 ^ n) → K) : amplitudes n id (Array.ofFn f) = f := by
  funext i
  simp [amplitudes, Array.getD_eq_getD_getElem?]

theorem ofFn_amplitudes [Semiring K] {v : Array K} (hv : v.size = 2 ^ n) : Array.ofFn (amplitudes n id v) = v := by
  refine Array.ext (by simp [hv]) fun i hi hi' => ?_
  simp [amplitudes, Array.getD_eq_getD_getElem?, hi']

namespace State

/-- States with the amplitudes or the matrix of `n` qubits. -/
def HasQubits (n : ℕ) : State K → Prop
  | vector v => v.size = 2 ^ n
  | density m => m.HasShape (2 ^ n) (2 ^ n)

/-- States of a register of `n` qubits. The dimension of a state is a word, so there are fewer than
sixty-four of them. -/
structure OnRegister (n : ℕ) (s : State K) : Prop where
  addressable : n < 64
  shape : s.HasQubits n

/-- The state that an operator on the register makes of a state. -/
noncomputable def transform (U : Matrix (Fin (2 ^ n)) (Fin (2 ^ n)) ℂ) : State ℂ → State ℂ
  | vector v => vector (Array.ofFn (U.mulVec (amplitudes n id v)))
  | density m => density (Mat.ofMatrix (U * m.toMatrix (2 ^ n) (2 ^ n) * Uᴴ))

variable {U V : Matrix (Fin (2 ^ n)) (Fin (2 ^ n)) ℂ} {s : State ℂ}

theorem hasQubits_transform (U : Matrix (Fin (2 ^ n)) (Fin (2 ^ n)) ℂ) (s : State ℂ) :
    (s.transform U).HasQubits n := by
  cases s with
  | vector v => exact Array.size_ofFn
  | density m => exact Mat.hasShape_ofMatrix _

theorem OnRegister.transform (hs : s.OnRegister n) (U : Matrix (Fin (2 ^ n)) (Fin (2 ^ n)) ℂ) :
    (s.transform U).OnRegister n := ⟨hs.addressable, hasQubits_transform U s⟩

theorem transform_one (hs : s.HasQubits n) : s.transform (1 : Matrix (Fin (2 ^ n)) (Fin (2 ^ n)) ℂ) = s := by
  cases s with
  | vector v => simp only [transform, one_mulVec, ofFn_amplitudes hs]
  | density m => simp only [transform, one_mul, conjTranspose_one, mul_one, Mat.ofMatrix_toMatrix hs]

/-- Operators act one after the other as their product does. -/
theorem transform_transform (U V : Matrix (Fin (2 ^ n)) (Fin (2 ^ n)) ℂ) (s : State ℂ) :
    (s.transform U).transform V = s.transform (V * U) := by
  cases s with
  | vector v => simp only [transform, amplitudes_ofFn, mulVec_mulVec]
  | density m => simp only [transform, Mat.toMatrix_ofMatrix, conjTranspose_mul, Matrix.mul_assoc]

/-! ### Projectors on pure states -/

theorem toDensity_vector {v : Array ℂ} (hv : v.size = 2 ^ n) :
    (vector v).toDensity =
      density (Mat.ofMatrix (vecMulVec (amplitudes n id v) (star (amplitudes n id v)))) := by
  refine congrArg density (Mat.HasShape.ext ⟨hv, hv⟩ (Mat.hasShape_ofMatrix _) ?_)
  rw [Mat.toMatrix_ofMatrix]
  funext i j
  exact Mat.entry_ofFn _ (by rw [hv]; exact i.isLt) (by rw [hv]; exact j.isLt)

/-- The projector on a transformed vector is the transformed projector. -/
theorem toDensity_transform (U : Matrix (Fin (2 ^ n)) (Fin (2 ^ n)) ℂ) {v : Array ℂ} (hv : v.size = 2 ^ n) :
    ((vector v).transform U).toDensity = (vector v).toDensity.transform U := by
  rw [toDensity_vector hv, transform, toDensity_vector Array.size_ofFn, transform, amplitudes_ofFn,
    Mat.toMatrix_ofMatrix, mul_vecMulVec, vecMulVec_mul, star_mulVec]

/-- A pure state and its projector have the same probabilities. -/
theorem probabilities_toDensity (v : Array ℂ) : (vector v).toDensity.probabilities = (vector v).probabilities := by
  refine List.ext_getElem (by simp [toDensity, probabilities]) fun i hi hi' => ?_
  have hv : i < v.size := by simpa [probabilities] using hi'
  simp only [toDensity, probabilities, List.getElem_map, List.getElem_range, Mat.entry_ofFn _ hv hv]
  simp [Array.getD_eq_getD_getElem?, hv, ComplexScalar.re, ComplexScalar.normSq, Complex.mul_conj]

theorem normSq_toDensity (v : Array ℂ) : (vector v).toDensity.normSq = (vector v).normSq := by
  rw [normSq, normSq, probabilities_toDensity]

/-- A pure state and its projector give every observable the same expectation. -/
theorem expectation_toDensity (o : Mat ℂ) (v : Array ℂ) :
    (vector v).toDensity.expectation o = (vector v).expectation o := by
  by_cases hshape : o.rows ≠ v.size ∨ o.cols ≠ v.size
  · exact (if_pos hshape).trans (if_pos hshape).symm
  · refine (if_neg hshape).trans ((congrArg Except.ok ?_).trans (if_neg hshape).symm)
    rw [not_or, not_not, not_not] at hshape
    have ho : o.HasShape v.size v.size := ⟨hshape.1, hshape.2⟩
    have hcolumn : (Mat.column v).HasShape v.size 1 := ⟨rfl, rfl⟩
    rw [Mat.trace, (ho.mul (Mat.hasShape_ofFn _ _ _)).rows, rangeSum_eq_sum, rangeSum_eq_sum]
    refine Finset.sum_congr rfl fun i _ => ?_
    rw [Mat.entry_mul ho (Mat.hasShape_ofFn _ _ _) i.isLt i.isLt, Mat.entry_mul ho hcolumn i.isLt Nat.one_pos,
      Finset.mul_sum]
    refine Finset.sum_congr rfl fun t _ => ?_
    rw [Mat.entry_ofFn _ t.isLt i.isLt, Mat.column, Mat.entry_ofFn _ t.isLt Nat.one_pos]
    ring

/-! ### Expectations -/

/-- The expectation of an operator: `ψ† A ψ` for a vector and the trace of `A ρ` for a density
matrix. -/
noncomputable def expect (A : Matrix (Fin (2 ^ n)) (Fin (2 ^ n)) ℂ) : State ℂ → ℂ
  | vector v => star (amplitudes n id v) ⬝ᵥ (A *ᵥ amplitudes n id v)
  | density m => (A * m.toMatrix (2 ^ n) (2 ^ n)).trace

theorem expect_zero (s : State ℂ) : s.expect (0 : Matrix (Fin (2 ^ n)) (Fin (2 ^ n)) ℂ) = 0 := by
  cases s <;> simp [expect]

theorem expect_add (A B : Matrix (Fin (2 ^ n)) (Fin (2 ^ n)) ℂ) (s : State ℂ) :
    s.expect (A + B) = s.expect A + s.expect B := by
  cases s with
  | vector v => rw [expect, add_mulVec, dotProduct_add]; rfl
  | density m => rw [expect, add_mul, trace_add]; rfl

theorem expect_sum (As : List (Matrix (Fin (2 ^ n)) (Fin (2 ^ n)) ℂ)) (s : State ℂ) :
    s.expect As.sum = (As.map s.expect).sum := by
  induction As with
  | nil => exact expect_zero s
  | cons A As ih => rw [List.sum_cons, expect_add, ih, List.map_cons, List.sum_cons]

/-- An observable of the dimension of the register has an expectation. -/
theorem expectation_eq_ok {o : Mat ℂ} (ho : o.HasShape (2 ^ n) (2 ^ n)) (hs : s.HasQubits n) :
    s.expectation o = .ok (s.expect (o.toMatrix (2 ^ n) (2 ^ n))) := by
  have hfits {d : ℕ} (hd : d = 2 ^ n) : ¬(o.rows ≠ d ∨ o.cols ≠ d) := by
    rw [ho.rows, ho.cols, hd]
    simp
  cases s with
  | vector v =>
    refine (if_neg (hfits hs)).trans (congrArg Except.ok ?_)
    have hcolumn : (Mat.column v).HasShape (2 ^ n) 1 := ⟨hs, rfl⟩
    rw [rangeSum_eq_sum, show v.size = 2 ^ n from hs]
    refine Finset.sum_congr rfl fun i _ => congrArg (star (v.getD i 0) * ·) ?_
    rw [Mat.entry_mul ho hcolumn i.isLt Nat.one_pos]
    refine Finset.sum_congr rfl fun t _ => congrArg (o.entry i t * ·) ?_
    exact Mat.entry_ofFn _ (hs.symm ▸ t.isLt) Nat.one_pos
  | density m =>
    refine (if_neg (hfits hs.rows)).trans (congrArg Except.ok ?_)
    rw [Mat.trace_eq (ho.mul hs), Mat.toMatrix_mul ho hs]
    rfl

theorem hasQubits_toDensity {v : Array ℂ} (hv : v.size = 2 ^ n) : (vector v).toDensity.HasQubits n := ⟨hv, hv⟩

theorem expect_toDensity (A : Matrix (Fin (2 ^ n)) (Fin (2 ^ n)) ℂ) {v : Array ℂ} (hv : v.size = 2 ^ n) :
    (vector v).toDensity.expect A = (vector v).expect A := by
  have hA := Mat.hasShape_ofMatrix A
  have hvector : (vector v).HasQubits n := hv
  have h := expectation_toDensity (Mat.ofMatrix A) v
  rw [expectation_eq_ok hA (hasQubits_toDensity hv), expectation_eq_ok hA hvector, Mat.toMatrix_ofMatrix] at h
  exact Except.ok.inj h

/-! ### Norms -/

/-- The norm of a density matrix is its trace. -/
theorem normSq_density {m : Mat ℂ} (hm : m.HasShape (2 ^ n) (2 ^ n)) :
    (density m).normSq = (m.toMatrix (2 ^ n) (2 ^ n)).trace.re := by
  rw [normSq, probabilities, List.foldl_map, foldl_range_eq_rangeSum, rangeSum_eq_sum, hm.rows, hm.cols, min_self,
    Matrix.trace, Complex.re_sum]
  rfl

/-- A unitary operator keeps the norm of every state. -/
theorem normSq_transform (hU : Uᴴ * U = 1) (hs : s.HasQubits n) : (s.transform U).normSq = s.normSq := by
  have hdensity {m : Mat ℂ} (hm : m.HasShape (2 ^ n) (2 ^ n)) :
      ((density m).transform U).normSq = (density m).normSq := by
    rw [transform, normSq_density (Mat.hasShape_ofMatrix _), Mat.toMatrix_ofMatrix, trace_mul_comm, ← Matrix.mul_assoc,
      hU, Matrix.one_mul, normSq_density hm]
  cases s with
  | vector v =>
    have himage : ((vector v).transform U).toDensity.normSq = ((vector v).transform U).normSq := normSq_toDensity _
    rw [← himage, toDensity_transform U hs, ← normSq_toDensity v, toDensity_vector hs]
    exact hdensity (Mat.hasShape_ofMatrix _)
  | density m => exact hdensity hs

end State

/-! ### Adjoints -/

namespace Register

variable {targets : List ℕ} {m : Mat ℂ}

theorem operator_conjTranspose (hm : m.HasShape (2 ^ targets.length) (2 ^ targets.length)) :
    operator n targets m.conjTranspose = (operator n targets m)ᴴ := by
  funext r c
  have hentry : m.conjTranspose.entry (subIndex n targets r) (subIndex n targets c) =
      star (m.entry (subIndex n targets c) (subIndex n targets r)) :=
    congrFun (congrFun (Mat.toMatrix_conjTranspose hm) ⟨_, subIndex_lt n targets r⟩) ⟨_, subIndex_lt n targets c⟩
  rw [conjTranspose_apply, operator_apply, operator_apply, hentry]
  by_cases hs : spectators n targets r = spectators n targets c
  · rw [if_pos hs, if_pos hs.symm]
  · rw [if_neg hs, if_neg (Ne.symm hs), star_zero]

/-- The operator of a unitary matrix is unitary. -/
theorem operator_mem_unitaryGroup (ht : Targets n targets)
    (hm : m.HasShape (2 ^ targets.length) (2 ^ targets.length))
    (hunitary : m.toMatrix _ _ ∈ unitaryGroup (Fin (2 ^ targets.length)) ℂ) :
    operator n targets m ∈ unitaryGroup (Fin (2 ^ n)) ℂ := by
  have hinverse : m.mul m.conjTranspose = .identity (2 ^ targets.length) := by
    refine (hm.mul hm.conjTranspose).ext (Mat.hasShape_identity _) ?_
    rw [Mat.toMatrix_mul hm hm.conjTranspose, Mat.toMatrix_conjTranspose hm, Mat.toMatrix_identity]
    exact mem_unitaryGroup_iff.1 hunitary
  rw [mem_unitaryGroup_iff, star_eq_conjTranspose, ← operator_conjTranspose hm,
    ← operator_mul ht hm hm.conjTranspose, hinverse, operator_identity ht]

/-- A matrix on distinct targets transforms the states of a register by its operator. -/
theorem apply_eq_ok (ht : Targets n targets) (hm : m.HasShape (2 ^ targets.length) (2 ^ targets.length)) {s : State ℂ}
    (hs : s.OnRegister n) : apply m targets s = .ok (s.transform (operator n targets m)) := by
  obtain ⟨hn, hs⟩ := hs
  have hk : targets.length < 64 := ht.length_le.trans_lt hn
  cases s with
  | vector v =>
    have ha : Addressing n id v.size := ⟨fun i hi => by rw [hs]; exact hi, fun i _ j _ h => h⟩
    have hsize : (applyInPlace m targets n id v).size = 2 ^ n := (size_applyInPlace ..).trans hs
    rw [apply_vector ht.lt hk hm hs, ← ofFn_amplitudes hsize, amplitudes_applyInPlace hn ht m ha]
    rfl
  | density rho =>
    have hE := hasShape_embedding m targets n
    rw [apply_density ht.lt hk hm hs.rows, two_sweeps_eq hn ht m hs]
    refine congrArg (fun m => Except.ok (State.density m)) ?_
    refine ((hE.mul hs).mul hE.conjTranspose).ext (Mat.hasShape_ofMatrix _) ?_
    rw [Mat.toMatrix_ofMatrix, Mat.toMatrix_mul (hE.mul hs) hE.conjTranspose, Mat.toMatrix_mul hE hs,
      Mat.toMatrix_conjTranspose hE]
    rfl

end Register

/-! ### Gates -/

namespace Gate

/-- Gates that act on distinct qubits of a register. -/
structure Fits (n : ℕ) (g : Gate K) : Prop where
  targets : Targets n g.targets
  shape : g.matrix.HasShape (2 ^ g.targets.length) (2 ^ g.targets.length)

def operator [Zero K] (n : ℕ) (g : Gate K) : Matrix (Fin (2 ^ n)) (Fin (2 ^ n)) K :=
  Register.operator n g.targets g.matrix

/-- A gate transforms the states of a register by its operator. -/
theorem Fits.apply_eq_ok {g : Gate ℂ} (hg : g.Fits n) {s : State ℂ} (hs : s.OnRegister n) :
    g.apply s = .ok (s.transform (g.operator n)) := by
  rw [Gate.apply, Register.apply_eq_ok hg.targets hg.shape hs]
  rfl

end Gate

end QubitDynamics
