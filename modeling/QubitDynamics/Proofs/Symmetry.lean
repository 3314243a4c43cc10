import QubitDynamics.Proofs.QuenchRun

/-! Symmetries of an evolution. Placing a matrix on some qubits of a register is a
homomorphism of algebras. What commutes with the image of a skew-Hermitian matrix
commutes with its powers, with the numerator and the denominator of the approximant
and hence with the quotient, so with the exponential as it is computed and not only
with the exponential itself. An operator that commutes with every merged term of a
Hamiltonian therefore commutes with every step under it, of either order, and its
expectation is the same in all records of a run. -/

namespace QubitDynamics

open Matrix Polynomial

variable {n : ℕ}

/-! ### Placing matrices on qubits -/

namespace Register

variable {targets : List ℕ}

/-- Placing matrices on the targets, as a linear map. -/
def placementLinear (n : ℕ) (targets : List ℕ) :
    Matrix (Fin (2 ^ targets.length)) (Fin (2 ^ targets.length)) ℂ →ₗ[ℂ] Matrix (Fin (2 ^ n)) (Fin (2 ^ n)) ℂ where
  toFun A := operator n targets (.ofMatrix A)
  map_add' A B := by rw [Mat.ofMatrix_add, operator_add (Mat.hasShape_ofMatrix A)]
  map_smul' k A := by rw [Mat.ofMatrix_smul, operator_scale (Mat.hasShape_ofMatrix A), RingHom.id_apply]

/-- Placing matrices on the targets, as a homomorphism of algebras. -/
def placement (ht : Targets n targets) :
    Matrix (Fin (2 ^ targets.length)) (Fin (2 ^ targets.length)) ℂ →ₐ[ℂ] Matrix (Fin (2 ^ n)) (Fin (2 ^ n)) ℂ :=
  .ofLinearMap (placementLinear n targets)
    (by rw [placementLinear, LinearMap.coe_mk, AddHom.coe_mk, Mat.ofMatrix_one, operator_identity ht])
    fun A B => by
      rw [placementLinear, LinearMap.coe_mk, AddHom.coe_mk, Mat.ofMatrix_mul,
        operator_mul ht (Mat.hasShape_ofMatrix A) (Mat.hasShape_ofMatrix B)]

theorem placement_toMatrix (ht : Targets n targets) {m : Mat ℂ}
    (hm : m.HasShape (2 ^ targets.length) (2 ^ targets.length)) :
    placement ht (m.toMatrix _ _) = operator n targets m :=
  congrArg (operator n targets) (Mat.ofMatrix_toMatrix hm)

end Register

/-! ### Commuting with an exponential -/

/-- What commutes with an invertible left factor and with the product commutes with the right factor. -/
theorem commute_of_isUnit_mul {M : Type} [Monoid M] {s d p : M} (hd : IsUnit d) (hsd : Commute s d)
    (hsdp : Commute s (d * p)) : Commute s p := by
  apply hd.mul_left_cancel
  calc d * (s * p) = s * (d * p) := by rw [← mul_assoc, ← hsd.eq, mul_assoc]
    _ = d * (p * s) := by rw [hsdp.eq, mul_assoc]

namespace Mat

variable {d : ℕ} {B : Type} [Ring B] [Algebra ℂ B] (φ : Matrix (Fin d) (Fin d) ℂ →ₐ[ℂ] B) {s : B} {a : Mat ℂ}

theorem commute_aeval {A : Matrix (Fin d) (Fin d) ℂ} (h : Commute s (φ A)) (p : ℂ[X]) : Commute s (φ (aeval A p)) := by
  rw [← aeval_algHom_apply]
  exact Algebra.commute_of_mem_adjoin_singleton_of_commute (aeval_mem_adjoin_singleton ℂ _) h

theorem commute_pade (ha : a.HasShape d d) (hskew : (a.toMatrix d d)ᴴ = -a.toMatrix d d)
    (h : Commute s (φ (a.toMatrix d d))) : Commute s (φ ((pade a).toMatrix d d)) := by
  have hunit := isUnit_denominator hskew
  refine commute_of_isUnit_mul (hunit.map φ) (commute_aeval φ h _) ?_
  rw [← map_mul, denominator_mul_pade (fun z => norm_le_zero_iff) ha hunit]
  exact commute_aeval φ h _

theorem commute_exponentialWith (k : ℕ) (ha : a.HasShape d d) (hskew : (a.toMatrix d d)ᴴ = -a.toMatrix d d)
    (h : Commute s (φ (a.toMatrix d d))) : Commute s (φ ((exponentialWith k a).toMatrix d d)) := by
  have hhalf : (a.scale (halfPower k)).HasShape d d := ha.scale _
  rw [exponentialWith, toMatrix_squareTimes k (hasShape_pade hhalf), map_pow]
  refine (commute_pade φ hhalf (conjTranspose_scale_halfPower k ha hskew) ?_).pow_right _
  rw [toMatrix_scale ha, map_smul]
  exact h.smul_right _

/-- What commutes with a skew-Hermitian matrix commutes with its exponential. -/
theorem commute_exponential (ha : a.HasShape d d) (hskew : (a.toMatrix d d)ᴴ = -a.toMatrix d d)
    (h : Commute s (φ (a.toMatrix d d))) : Commute s (φ (a.exponential.toMatrix d d)) := by
  unfold exponential
  split
  · rename_i hrows
    obtain rfl : d = 0 := ha.rows.symm.trans hrows
    rw [Subsingleton.elim ((zero 0 0 : Mat ℂ).toMatrix 0 0) 1, map_one]
    exact Commute.one_right s
  · rename_i hrows
    obtain rfl : d = 1 := ha.rows.symm.trans hrows
    have hscalar : (single (ComplexScalar.exp (a.entry 0 0)) : Mat ℂ).toMatrix 1 1 =
        algebraMap ℂ _ (ComplexScalar.exp (a.entry 0 0)) := by
      rw [single, toMatrix_ofFn]
      ext i j
      obtain rfl := Subsingleton.elim i j
      simp [algebraMap_matrix_apply]
    rw [hscalar, AlgHom.commutes]
    exact (Algebra.commutes _ s).symm
  · exact commute_exponentialWith φ _ ha hskew h

end Mat

/-! ### Commuting with a step -/

/-- What commutes with a Hermitian term commutes with its gate. -/
theorem Term.Fits.commute_expGate {t : Term ℂ} (ht : t.Fits n) (hherm : t.matrix.conjTranspose = t.matrix)
    {S : Matrix (Fin (2 ^ n)) (Fin (2 ^ n)) ℂ} (h : Commute S (t.operator n)) (x : ℝ) :
    Commute S ((t.expGate x).operator n) := by
  have hexponent := ht.shape.scale (ComplexScalar.ofParts 0 (-x) : ℂ)
  have hgate : (t.expGate x).operator n =
      Register.placement ht.targets ((t.exp x).toMatrix (2 ^ t.arity) (2 ^ t.arity)) :=
    (Register.placement_toMatrix ht.targets (ht.expGate x).shape).symm
  rw [hgate]
  refine Mat.commute_exponential _ hexponent (ht.conjTranspose_exponent hherm x) ?_
  rw [Register.placement_toMatrix ht.targets hexponent, Register.operator_scale ht.shape]
  exact h.smul_right _

theorem commute_sequence {gates : List (Gate ℂ)} {S : Matrix (Fin (2 ^ n)) (Fin (2 ^ n)) ℂ}
    (h : ∀ g ∈ gates, Commute S (g.operator n)) : Commute S (sequence n gates) := by
  induction gates with
  | nil => exact Commute.one_right S
  | cons g gates ih =>
    obtain ⟨hg, hgates⟩ := List.forall_mem_cons.1 h
    exact (ih hgates).mul_right hg

/-- What commutes with all terms of a Hamiltonian commutes with the sum of each cluster. -/
theorem Hamiltonian.commute_operatorSum {h : Hamiltonian ℂ} (hv : h.Valid)
    {S : Matrix (Fin (2 ^ n)) (Fin (2 ^ n)) ℂ} (hS : ∀ t ∈ h.terms, Commute S (t.operator n)) :
    ∀ c ∈ h.clusters, Commute S (c.operatorSum Weights.none n) := by
  intro c hc
  obtain ⟨ms, hterms, harr⟩ := h.arranged_clusters fun t ht => (hv.fits t ht).nodup
  refine Commute.list_sum_right _ _ fun A hA => ?_
  obtain ⟨m, hm, rfl⟩ := List.mem_map.1 hA
  rw [Cluster.weighted_none]
  exact hS m.term (hterms ▸ List.mem_map_of_mem (harr.mem_done hc hm))

/-- What commutes with the sum of each cluster of a Hamiltonian with Hermitian terms commutes with
every step. -/
theorem ProductFormula.commute_operator {h : Hamiltonian ℂ} (hv : h.Valid) (hsmall : Term.Small h.terms)
    (hherm : ∀ t ∈ h.terms, t.matrix.conjTranspose = t.matrix) {settings : Settings ℝ} {f : ProductFormula ℂ ℝ}
    (hf : prepare h settings = .ok f) {S : Matrix (Fin (2 ^ h.nqubits)) (Fin (2 ^ h.nqubits)) ℂ}
    (hS : ∀ c ∈ h.clusters, Commute S (c.operatorSum Weights.none h.nqubits)) :
    Commute S (f.operator h.nqubits) := by
  have hgates : ∀ g ∈ f.gates, Commute S (g.operator h.nqubits) := by
    obtain ⟨-, -, merged, hmerged, rfl⟩ := prepare_eq_ok_iff.1 hf
    obtain ⟨merged', hmerged', -, hfits, hsums⟩ := h.mergedTerms_eq_operatorSum hsmall hv.fits (R := ℝ)
    obtain rfl : merged = merged' := Except.ok.inj (hmerged.symm.trans hmerged')
    intro g hg
    obtain ⟨t, ht, rfl⟩ := List.mem_map.1 hg
    obtain ⟨c, hc, hsum⟩ := List.mem_map.1 (hsums ▸ List.mem_map_of_mem (f := Term.operator h.nqubits) ht)
    have hterm : Commute S (t.operator h.nqubits) := hsum ▸ hS c hc
    have hmatrix := Hamiltonian.conjTranspose_mergedTerms hsmall hv.fits hherm hmerged t ht
    exact (hfits t ht).commute_expGate hmatrix hterm _
  unfold operator
  cases f.settings.order with
  | first => exact commute_sequence hgates
  | second =>
    exact (commute_sequence fun g hg => hgates g (List.mem_reverse.1 hg)).mul_right (commute_sequence hgates)

/-! ### Conserved expectations -/

namespace State

variable {A U : Matrix (Fin (2 ^ n)) (Fin (2 ^ n)) ℂ}

/-- Transforming a state is transforming the observable. -/
theorem expect_transform (A U : Matrix (Fin (2 ^ n)) (Fin (2 ^ n)) ℂ) (s : State ℂ) :
    (s.transform U).expect A = s.expect (Uᴴ * A * U) := by
  cases s with
  | vector v =>
    simp only [transform, expect, amplitudes_ofFn]
    rw [star_mulVec, ← dotProduct_mulVec, mulVec_mulVec, mulVec_mulVec]
  | density m =>
    simp only [transform, expect, Mat.toMatrix_ofMatrix]
    rw [← Matrix.mul_assoc, trace_mul_comm, ← Matrix.mul_assoc, ← Matrix.mul_assoc]

theorem expect_neg (A : Matrix (Fin (2 ^ n)) (Fin (2 ^ n)) ℂ) (s : State ℂ) : s.expect (-A) = -s.expect A := by
  rw [eq_neg_iff_add_eq_zero, ← expect_add, neg_add_cancel, expect_zero]

/-- A unitary transformation keeps the expectation of what it commutes with. -/
theorem expect_transform_of_commute (hU : U ∈ unitaryGroup (Fin (2 ^ n)) ℂ) (h : Commute A U) (s : State ℂ) :
    (s.transform U).expect A = s.expect A := by
  rw [expect_transform, Matrix.mul_assoc, h.eq, ← Matrix.mul_assoc, ← star_eq_conjTranspose,
    mem_unitaryGroup_iff'.1 hU, Matrix.one_mul]

end State

/-- If all states that the steps make have records of some kind, a run shows and returns such records
only; it fails if and only if the total time has no number of steps. -/
theorem Quench.run_records {h : Hamiltonian ℂ} {settings : Settings ℝ} {q : Quench ℂ ℝ} {s : State ℂ} (hv : h.Valid)
    (hq : prepare h settings = .ok q) (hs : s.OnRegister h.nqubits) {P : Record ℝ → Prop}
    (hP : ∀ (k : ℕ) (time : ℝ), P (h.observed time (s.transform (q.formula.operator h.nqubits ^ k)))) :
    (∀ total k, q.formula.stepCount total = .ok k →
      ∃ (history : List (Record ℝ)) (final : State ℂ), history.length = k + 1 ∧
        history.head? = some (h.observed 0 s) ∧ (∀ r ∈ history, P r) ∧
        ∀ (m : Type → Type) [Monad m] [LawfulMonad m] (onStep : Record ℝ → m Unit),
          (q.run onStep s total).run = history.tail.forM onStep >>= fun _ => pure (.ok ⟨history, final⟩)) ∧
    ∀ total e, q.formula.stepCount total = .error e →
      ∀ (m : Type → Type) [Monad m] [LawfulMonad m] (onStep : Record ℝ → m Unit),
        (q.run onStep s total).run = pure (.error e) := by
  refine ⟨fun total k hk => ⟨history h q.formula k s, _, by simp [history], ?_, fun r hr => ?_, fun m _ _ onStep =>
    run_eq hv hq hs hk onStep⟩, fun total e he m _ _ onStep => run_of_stepCount_error he onStep s⟩
  · simp [history, List.head?_range, State.transform_one hs.shape]
  · obtain ⟨j, -, rfl⟩ := List.mem_map.1 hr
    exact hP j _

end QubitDynamics
