import QubitDynamics.Proofs.Reachability
import QubitDynamics.Proofs.StepOperator
import QubitDynamics.Proofs.WrittenOrder

/-! The action of a Hamiltonian on states. A dense term acts by its operator. A product
is applied occurrence by occurrence in written order, so the occurrence written first
acts first, which is the reverse of how operators are multiplied: on vectors it acts as
the product written backwards, and as its own matrix only where the order plays no
part. Of a density matrix each occurrence makes `M ρ M†`, but the coefficient of the
product multiplies the result once. -/

namespace QubitDynamics

open Register Matrix

variable {K R : Type} {n : ℕ}

/-! ### Products written backwards -/

/-- A dense term itself, and for a product the product of its occurrences in reverse. -/
def Term.reversed [Zero K] [One K] [Add K] [Mul K] [Zero R] [One R] [ComplexScalar K R] (t : Term K) :
    Except TermFault (Term K) :=
  match t.action with
  | .dense _ _ => .ok t
  | .product p => ofFactors p.coefficient (p.occurrences.reverse.map Occurrence.factor)

section

variable [CommSemiring K] [Zero R] [One R] [ComplexScalar K R]

/-- Occurrences are accepted as factors, of which the product is again that of the occurrences. -/
theorem Term.ofFactors_occurrences (c : K) {os : List (Occurrence K)} (hos : ∀ o ∈ os, o.Fits n) :
    ∃ t, ofFactors c (os.map Occurrence.factor) = .ok t ∧ t.Fits n ∧ t.operator n = c • Occurrence.written n os := by
  have hcs : (os.map Occurrence.factor).mapM Factor.contribution = .ok (os.map fun o => .operator o 1) := by
    rw [List.mapM_map]
    exact mapM_eq_ok_map fun o ho => Occurrence.contribution_factor (hos o ho).shape
  have hvalid : ∀ k ∈ os.map fun o => Contribution.operator o 1, k.Valid := by
    intro k hk
    obtain ⟨o, ho, rfl⟩ := List.mem_map.1 hk
    exact ⟨(hos o ho).shape, Nat.one_pos⟩
  obtain ⟨hsynced, hocc, hcoef⟩ := Product.foldl_absorb_spec hvalid (Product.synced_ofCoefficient c)
  generalize hp : (os.map fun o => Contribution.operator o 1).foldl Product.absorb (.ofCoefficient c) = p
    at hsynced hocc hcoef
  have hoccurrences : p.occurrences = os := by
    rw [hocc, List.flatMap_map]
    exact List.flatMap_singleton' os
  have hcoefficient : p.coefficient = c := by
    rw [hcoef, List.map_map, List.prod_eq_one, mul_one]
    · rfl
    · intro x hx
      obtain ⟨o, -, rfl⟩ := List.mem_map.1 hx
      rfl
  have hlt : ∀ q ∈ p.qubits, q < n := by
    intro q hq
    obtain ⟨o, ho, rfl⟩ := hsynced.exists_occurrence hq
    exact (hos o (hoccurrences ▸ ho)).lt
  refine ⟨⟨.product p, none⟩, ?_, ⟨hsynced.toValid.wellFormed none, hlt⟩, ?_⟩
  · rw [ofFactors, Product.ofFactors, hcs, ← hp]
    rfl
  · rw [hsynced.operator_eq none hlt, hcoefficient, hoccurrences]

end

/-! ### What a term does to states -/

namespace Term

/-- Terms on a register of `n` qubits whose forms agree if they are products. -/
structure Acts [CommSemiring K] (n : ℕ) (t : Term K) : Prop extends t.Fits n where
  synced : ∀ p, t.product? = some p → p.Synced

/-- The operator by which a term acts on vectors: the occurrences of a product act in written order. -/
def effect [CommSemiring K] (n : ℕ) (t : Term K) : Matrix (Fin (2 ^ n)) (Fin (2 ^ n)) K :=
  match t.action with
  | .dense qubits m => Register.operator n qubits m
  | .product p => p.coefficient • Occurrence.written n p.occurrences.reverse

/-- What a term makes of a density matrix. The coefficient of a product is applied once. -/
def conjugation (n : ℕ) (ρ : Matrix (Fin (2 ^ n)) (Fin (2 ^ n)) ℂ) (t : Term ℂ) :
    Matrix (Fin (2 ^ n)) (Fin (2 ^ n)) ℂ :=
  match t.action with
  | .dense qubits m => Register.operator n qubits m * ρ * (Register.operator n qubits m)ᴴ
  | .product p =>
    p.coefficient • (Occurrence.written n p.occurrences.reverse * ρ * (Occurrence.written n p.occurrences.reverse)ᴴ)

/-- A term written backwards has the operator by which the term acts. -/
theorem Acts.reversed_eq_ok [CommSemiring K] [Zero R] [One R] [ComplexScalar K R] {t : Term K} (h : t.Acts n) :
    ∃ r, t.reversed = .ok r ∧ r.Fits n ∧ r.operator n = t.effect n := by
  obtain ⟨_ | p, owner⟩ := t
  · exact ⟨_, rfl, h.toFits, rfl⟩
  · refine ofFactors_occurrences p.coefficient fun o ho => ?_
    exact (h.synced p rfl).fits h.lt o (List.mem_reverse.1 ho)

end Term

theorem sequence_gates (n : ℕ) (os : List (Occurrence ℂ)) :
    sequence n (os.map fun o => ⟨o.matrix, [o.qubit]⟩) = Occurrence.written n os.reverse := by
  induction os with
  | nil => rfl
  | cons o os ih =>
    rw [List.map_cons, sequence, ih, List.reverse_cons, Occurrence.written_append, Occurrence.written_cons]
    exact congrArg _ (mul_one _).symm

/-- Occurrences that are applied one after the other act as their product in reverse. -/
theorem Product.Synced.apply_eq_ok {p : Product ℂ} (h : p.Synced) (hlt : ∀ q ∈ p.qubits, q < n) {s : State ℂ}
    (hs : s.OnRegister n) :
    p.apply s = .ok ((s.transform (Occurrence.written n p.occurrences.reverse)).scale p.coefficient) := by
  have hgates : ∀ g ∈ p.occurrences.map fun o => (⟨o.matrix, [o.qubit]⟩ : Gate ℂ), g.Fits n := by
    intro g hg
    obtain ⟨o, ho, rfl⟩ := List.mem_map.1 hg
    exact ⟨(h.fits hlt o ho).targets, (h.fits hlt o ho).shape⟩
  have hfold := mapError_eq_ok.1 (applyGates_eq_ok hgates hs)
  rw [List.foldlM_map, sequence_gates] at hfold
  rw [Product.apply, hfold]
  rfl

namespace Term

variable {t : Term ℂ}

theorem Acts.apply_vector (h : t.Acts n) {v : Array ℂ} (hs : (State.vector v).OnRegister n) :
    t.apply (.vector v) = .ok (.vector (Array.ofFn (t.effect n *ᵥ amplitudes n id v))) := by
  obtain ⟨_ | p, owner⟩ := t
  · exact Gate.Fits.apply_eq_ok ⟨h.targets, h.shape⟩ hs
  · refine ((h.synced p rfl).apply_eq_ok h.lt hs).trans ?_
    rw [State.transform, State.scale, Array.map_ofFn, effect, smul_mulVec]
    refine congrArg (fun f => Except.ok (State.vector (Array.ofFn f))) (funext fun i => mul_comm _ _)

theorem Acts.apply_density (h : t.Acts n) {m : Mat ℂ} (hs : (State.density m).OnRegister n) :
    t.apply (.density m) = .ok (.density (Mat.ofMatrix (t.conjugation n (m.toMatrix (2 ^ n) (2 ^ n))))) := by
  obtain ⟨_ | p, owner⟩ := t
  · exact Gate.Fits.apply_eq_ok ⟨h.targets, h.shape⟩ hs
  · refine ((h.synced p rfl).apply_eq_ok h.lt hs).trans ?_
    exact congrArg (fun m => Except.ok (State.density m)) (Mat.ofMatrix_smul p.coefficient _).symm

end Term

/-! ### Sums -/

/-- A Hamiltonian sums what its terms make of a state, for every kind of states that are added as the elements
of `V` are. -/
theorem Hamiltonian.apply_eq_sum {V : Type} [AddMonoid V] {wrap : V → State ℂ}
    (hadd : ∀ x y, (wrap x).add (wrap y) = .ok (wrap (x + y))) {h : Hamiltonian ℂ} {s : State ℂ}
    (hzero : s.cleared = wrap 0) {f : Term ℂ → V} (hf : ∀ t ∈ h.terms, t.apply s = .ok (wrap (f t))) :
    h.apply s = (.ok (wrap (h.terms.map f).sum) : Except (DynamicsError ℝ) _) := by
  have hstep : ∀ t ∈ h.terms, ∀ x, (do
      let part ← (t.apply s).mapError DynamicsError.term
      ((wrap x).add part).mapError DynamicsError.state) =
        (.ok (wrap (x + f t)) : Except (DynamicsError ℝ) _) := by
    intro t ht x
    rw [hf t ht]
    simp only [Except.mapError, bind, Except.bind, hadd]
  rw [apply, hzero, foldlM_wrap_eq_sum hstep, zero_add]

theorem State.add_vector (f g : Fin (2 ^ n) → ℂ) :
    (vector (Array.ofFn f)).add (vector (Array.ofFn g)) = .ok (vector (Array.ofFn (f + g))) := by
  have hdim : (vector (Array.ofFn f)).dim = (vector (Array.ofFn g)).dim := by simp [dim]
  refine (if_neg (not_not.2 hdim)).trans (congrArg (Except.ok ∘ vector) ?_)
  refine Array.ext (by simp) fun i hi hi' => ?_
  have hi : i < 2 ^ n := by simpa using hi'
  simp [Array.getD_eq_getD_getElem?, hi]

theorem State.add_density (A B : Matrix (Fin (2 ^ n)) (Fin (2 ^ n)) ℂ) :
    (density (Mat.ofMatrix A)).add (density (Mat.ofMatrix B)) = .ok (density (Mat.ofMatrix (A + B))) := by
  rw [Mat.ofMatrix_add]
  exact if_neg (not_not.2 rfl)

theorem State.cleared_vector {v : Array ℂ} (hv : v.size = 2 ^ n) :
    (vector v).cleared = vector (Array.ofFn (0 : Fin (2 ^ n) → ℂ)) := by
  rw [cleared, ofAmplitudes, hv]
  rfl

theorem State.cleared_density {m : Mat ℂ} (hm : m.HasShape (2 ^ n) (2 ^ n)) :
    (density m).cleared = density (Mat.ofMatrix (0 : Matrix (Fin (2 ^ n)) (Fin (2 ^ n)) ℂ)) := by
  rw [cleared, hm.rows, Mat.ofMatrix_zero]

theorem State.apply_hamiltonian_vector {h : Hamiltonian ℂ} (hacts : ∀ t ∈ h.terms, t.Acts n) {v : Array ℂ}
    (hs : (State.vector v).OnRegister n) :
    h.apply (.vector v) =
      (.ok (.vector (Array.ofFn ((h.terms.map (Term.effect n)).sum *ᵥ amplitudes n id v))) :
        Except (DynamicsError ℝ) _) := by
  have hsum := map_list_sum (mulVec.addMonoidHomLeft (amplitudes n id v)) (h.terms.map (Term.effect n))
  rw [List.map_map] at hsum
  refine (Hamiltonian.apply_eq_sum add_vector (cleared_vector hs.shape) fun t ht =>
    (hacts t ht).apply_vector hs).trans ?_
  exact congrArg (fun f => Except.ok (State.vector (Array.ofFn f))) hsum.symm

theorem State.apply_hamiltonian_density {h : Hamiltonian ℂ} (hacts : ∀ t ∈ h.terms, t.Acts n) {m : Mat ℂ}
    (hs : (State.density m).OnRegister n) :
    h.apply (.density m) =
      (.ok (.density (Mat.ofMatrix (h.terms.map (Term.conjugation n (m.toMatrix (2 ^ n) (2 ^ n)))).sum)) :
        Except (DynamicsError ℝ) _) :=
  Hamiltonian.apply_eq_sum add_density (cleared_density hs.shape) fun t ht => (hacts t ht).apply_density hs

/-- The terms written backwards have a matrix, by which the terms act on vectors. -/
theorem Hamiltonian.matrixOfSum_reversed (hn : n < 64) {terms : List (Term ℂ)} (hacts : ∀ t ∈ terms, t.Acts n) :
    ∃ (reversed : List (Term ℂ)) (backwards : Mat ℂ), terms.mapM Term.reversed = .ok reversed ∧
      matrixOfSum reversed n = (.ok backwards : Except (DynamicsError ℝ) _) ∧
      backwards.HasShape (2 ^ n) (2 ^ n) ∧
      backwards.toMatrix (2 ^ n) (2 ^ n) = (terms.map (Term.effect n)).sum := by
  have : Nonempty (Term ℂ) := ⟨⟨.dense [] (.identity 1), none⟩⟩
  choose! back hback hfits hoperator using fun t ht => (hacts t ht).reversed_eq_ok
  have hall : ∀ r ∈ terms.map back, r.Fits n := by
    intro r hr
    obtain ⟨t, ht, rfl⟩ := List.mem_map.1 hr
    exact hfits t ht
  obtain ⟨backwards, hmatrix, hshape, hsum⟩ := matrixOfSum_eq_ok (R := ℝ) hn hall
  refine ⟨_, backwards, mapM_eq_ok_map hback, hmatrix, hshape, ?_⟩
  rw [hsum, List.map_map]
  exact congrArg List.sum (List.map_congr_left hoperator)

/-! ### Products whose order plays no part -/

/-- Products in which the matrices on each qubit commute. -/
def Product.CommutesLocally [Zero K] [One K] [Add K] [Mul K] (p : Product K) : Prop :=
  ∀ o ∈ p.occurrences, ∀ u ∈ p.occurrences, o.qubit = u.qubit → o.matrix.mul u.matrix = u.matrix.mul o.matrix

theorem Occurrence.Fits.commute [CommSemiring K] {o u : Occurrence K} (ho : o.Fits n) (hu : u.Fits n)
    (h : o.qubit = u.qubit → o.matrix.mul u.matrix = u.matrix.mul o.matrix) :
    Commute (o.operator n) (u.operator n) := by
  by_cases hq : o.qubit = u.qubit
  · rw [Commute, SemiconjBy, operator, operator, ← hq, ← operator_mul ho.targets ho.shape hu.shape, h hq,
      operator_mul ho.targets hu.shape ho.shape]
  · have ht : Targets n ([o.qubit] ++ [u.qubit]) := ⟨by simp [ho.lt, hu.lt], by simp [hq]⟩
    exact operator_commute ht ho.shape hu.shape

theorem Product.CommutesLocally.written_reverse [CommSemiring K] {p : Product K} (h : p.CommutesLocally)
    (hfits : ∀ o ∈ p.occurrences, o.Fits n) :
    Occurrence.written n p.occurrences.reverse = Occurrence.written n p.occurrences := by
  refine List.Perm.prod_eq' ((List.reverse_perm _).map _) (List.pairwise_map.2 ?_)
  refine List.pairwise_of_forall_mem_list fun o ho u hu => ?_
  rw [List.mem_reverse] at ho hu
  exact (hfits o ho).commute (hfits u hu) (h o ho u hu)

theorem Term.Acts.effect_eq [CommSemiring K] {t : Term K} (h : t.Acts n)
    (hcommutes : ∀ p, t.product? = some p → p.CommutesLocally) : t.effect n = t.operator n := by
  obtain ⟨_ | p, owner⟩ := t
  · rfl
  · rw [(h.synced p rfl).operator_eq owner h.lt, ← (hcommutes p rfl).written_reverse ((h.synced p rfl).fits h.lt)]
    rfl

/-! ### Reachable Hamiltonians -/

theorem Term.kept_synced [CommSemiring K] [Zero R] [One R] [ComplexScalar K R] :
    Term.Kept fun t : Term K => ∀ p, t.product? = some p → p.Synced where
  ofValue h p hp := by
    obtain ⟨_, _, rfl, -⟩ := ofValue_cases h
    cases hp
  ofFactors h p hp := by
    obtain ⟨p', hp', hsynced, -⟩ := Product.ofFactors_spec h
    rwa [Option.some.inj (hp.symm.trans hp')]
  scaled {t} h k p hp := by
    obtain ⟨_ | p', owner⟩ := t
    · cases hp
    · cases hp
      exact (h p' rfl).scaled k
  withOwner h _ := h
  merge _ _ h p hp := by
    obtain ⟨w, -, rfl⟩ := merge_cases h
    cases hp

theorem Reachable.acts [CommSemiring K] [Zero R] [One R] [Sub R] [ComplexScalar K R] {h : Hamiltonian K}
    (hh : Reachable (.hamiltonian h)) (hn : h.nqubits ≤ n) : ∀ t ∈ h.terms, t.Acts n := fun t ht =>
  { toWellFormed := (hh.sound t ht).toWellFormed
    lt := fun q hq => (hh.lt_nqubits t ht q hq).trans_le hn
    synced := hh.forall_of_kept Term.kept_synced t ht }

/-- A reachable Hamiltonian applies to every state of a register that holds its qubits, which are fewer than
sixty-four since the dimension of the state is a word. On vectors it acts as the
matrix of the sum in which every product is written backwards, hence as its own matrix if in each product the matrices
on each qubit commute. Of a density matrix `ρ` its terms make `M ρ M†`, for a product times the coefficient once. -/
theorem Reachable.apply_eq_reversed_mul {h : Hamiltonian ℂ} (hh : Reachable (.hamiltonian h)) (hn : h.nqubits ≤ n)
    (hsmall : n < 64) :
    ∃ (reversed : List (Term ℂ)) (wide : Hamiltonian ℂ) (backwards full : Mat ℂ),
      h.terms.mapM Term.reversed = .ok reversed ∧
      Hamiltonian.matrixOfSum reversed n = (.ok backwards : Except (DynamicsError ℝ) _) ∧
      h.widen n = (.ok wide : Except (DynamicsError ℝ) _) ∧ wide.matrix = (.ok full : Except (DynamicsError ℝ) _) ∧
      (∀ psi : Array ℂ, psi.size = 2 ^ n → ∃ phi : Array ℂ,
        h.apply (.vector psi) = (.ok (.vector phi) : Except (DynamicsError ℝ) _) ∧
        Mat.column phi = backwards.mul (.column psi) ∧
        ((∀ t ∈ h.terms, ∀ p, t.product? = some p → p.CommutesLocally) → Mat.column phi = full.mul (.column psi))) ∧
      ∀ rho : Mat ℂ, rho.HasShape (2 ^ n) (2 ^ n) → ∃ sigma : Mat ℂ,
        h.apply (.density rho) = (.ok (.density sigma) : Except (DynamicsError ℝ) _) ∧
        sigma.HasShape (2 ^ n) (2 ^ n) ∧
        sigma.toMatrix (2 ^ n) (2 ^ n) = (h.terms.map (Term.conjugation n (rho.toMatrix (2 ^ n) (2 ^ n)))).sum := by
  have hacts := hh.acts hn
  obtain ⟨reversed, backwards, hreversed, hbackwards, hshape, hsum⟩ := Hamiltonian.matrixOfSum_reversed hsmall hacts
  obtain ⟨full, hfull, hfullShape, hfullSum⟩ :=
    Hamiltonian.matrixOfSum_eq_ok (R := ℝ) hsmall fun t ht => (hacts t ht).toFits
  refine ⟨reversed, _, backwards, full, hreversed, hbackwards, Hamiltonian.widen_eq_ok hn, hfull, ?_, ?_⟩
  · intro psi hpsi
    have hcolumn {m : Mat ℂ} (hm : m.HasShape (2 ^ n) (2 ^ n))
        (hmatrix : m.toMatrix (2 ^ n) (2 ^ n) = (h.terms.map (Term.effect n)).sum) :
        Mat.column (Array.ofFn ((h.terms.map (Term.effect n)).sum *ᵥ amplitudes n id psi)) = m.mul (.column psi) :=
      column_eq_mul hm Array.size_ofFn hpsi (by rw [amplitudes_ofFn, hmatrix])
    refine ⟨_, State.apply_hamiltonian_vector hacts ⟨hsmall, hpsi⟩, hcolumn hshape hsum, fun hcommutes => ?_⟩
    refine hcolumn hfullShape (hfullSum.trans (congrArg List.sum (List.map_congr_left fun t ht => ?_)))
    exact ((hacts t ht).effect_eq (hcommutes t ht)).symm
  · intro rho hrho
    exact ⟨_, State.apply_hamiltonian_density hacts ⟨hsmall, hrho⟩, Mat.hasShape_ofMatrix _, Mat.toMatrix_ofMatrix _⟩

/-- A product whose order matters, next to a dense term and on a larger register, and a product whose order does
not matter. -/
theorem Reachable.apply_eq_reversed_mul_pauli :
    let lower : Term ℂ := ⟨.dense [1] (.ofFn 2 2 fun r c => if c < r then 1 else 0), none⟩
    let psi : Array ℂ := #[1, 0, 0, 0, 0, 0, 0, Complex.I]
    ∃ flip back turn : Term ℂ, Term.ofFactors 2 [.symbol (.pauli .x 0), .symbol (.pauli .y 0)] = .ok flip ∧
      Term.ofFactors 2 [.symbol (.pauli .y 0), .symbol (.pauli .x 0)] = .ok back ∧
      Term.ofFactors 1 [.symbol (.pauli .x 2), .symbol (.pauli .z 0), .symbol (.pauli .x 2)] = .ok turn ∧
      (∃ (backwards : Mat ℂ) (phi : Array ℂ),
        Hamiltonian.matrixOfSum [back, lower.withOwner ⟨0⟩] 3 = (.ok backwards : Except (DynamicsError ℝ) _) ∧
        (Hamiltonian.ofTerms ⟨0⟩ [flip, lower]).apply (.vector psi) =
          (.ok (.vector phi) : Except (DynamicsError ℝ) _) ∧
        Mat.column phi = backwards.mul (.column psi)) ∧
      ∃ (full : Mat ℂ) (phi : Array ℂ),
        (Hamiltonian.ofTerms ⟨0⟩ [turn]).matrix = (.ok full : Except (DynamicsError ℝ) _) ∧
        (Hamiltonian.ofTerms ⟨0⟩ [turn]).apply (.vector psi) = (.ok (.vector phi) : Except (DynamicsError ℝ) _) ∧
        Mat.column phi = full.mul (.column psi) := by
  intro lower psi
  have hlower : Reachable (.term lower) :=
    .ofValue (show Term.ofValue (.tensor lower.matrix.toTensor) [1] = .ok lower from rfl)
  obtain ⟨flip, back, hflip, hback, hreversed, hflipQubits⟩ : ∃ flip back : Term ℂ,
      Term.ofFactors 2 [.symbol (.pauli .x 0), .symbol (.pauli .y 0)] = .ok flip ∧
      Term.ofFactors 2 [.symbol (.pauli .y 0), .symbol (.pauli .x 0)] = .ok back ∧
      (flip.withOwner ⟨0⟩).reversed = .ok back ∧ flip.qubits = [0] := ⟨_, _, rfl, rfl, rfl, rfl⟩
  obtain ⟨turn, p, hturn, hproduct, hocc, hturnQubits⟩ : ∃ (turn : Term ℂ) (p : Product ℂ),
      Term.ofFactors 1 [.symbol (.pauli .x 2), .symbol (.pauli .z 0), .symbol (.pauli .x 2)] = .ok turn ∧
      (turn.withOwner ⟨0⟩).product? = some p ∧
      p.occurrences = [⟨"X2", 2, Pauli.x.matrix⟩, ⟨"Z0", 0, Pauli.z.matrix⟩, ⟨"X2", 2, Pauli.x.matrix⟩] ∧
      turn.qubits = [0, 2] := ⟨_, _, rfl, rfl, rfl, rfl⟩
  have hsum : Reachable (.hamiltonian (.ofTerms ⟨0⟩ [flip, lower])) :=
    .ofTerms (List.forall_mem_cons.2 ⟨.ofFactors hflip, by simpa using hlower⟩) ⟨0⟩
  have hsumSize : (Hamiltonian.ofTerms ⟨0⟩ [flip, lower]).nqubits ≤ 3 :=
    Hamiltonian.registerSize_le (by simp [hflipQubits, show lower.qubits = [1] from rfl])
  obtain ⟨reversed, _, backwards, _, hlist, hbackwards, -, -, hvector, -⟩ :=
    hsum.apply_eq_reversed_mul hsumSize (by decide)
  obtain ⟨phi, happly, hphi, -⟩ := hvector psi rfl
  have hone : Reachable (.hamiltonian (.ofTerms ⟨0⟩ [turn])) := .ofTerms (by simpa using .ofFactors hturn) ⟨0⟩
  have honeSize : (Hamiltonian.ofTerms ⟨0⟩ [turn]).nqubits = 3 := by
    simp [Hamiltonian.ofTerms, Hamiltonian.registerSize, hturnQubits]
  obtain ⟨_, wide, _, full, -, -, hwide, hfull, hvector, -⟩ := hone.apply_eq_reversed_mul honeSize.le (by decide)
  obtain ⟨chi, happly', -, hcommuting⟩ := hvector psi rfl
  have hreversedList : (Hamiltonian.ofTerms ⟨0⟩ [flip, lower]).terms.mapM Term.reversed =
      .ok [back, lower.withOwner ⟨0⟩] := by
    rw [Hamiltonian.ofTerms, List.map_cons, List.mapM_cons, hreversed]
    rfl
  obtain rfl := Except.ok.inj (hreversedList.symm.trans hlist)
  obtain rfl : Hamiltonian.ofTerms ⟨0⟩ [turn] = wide := by
    rw [Hamiltonian.widen_eq_ok honeSize.le, ← honeSize] at hwide
    exact Except.ok.inj hwide
  have hcommutes : ∀ t ∈ (Hamiltonian.ofTerms ⟨0⟩ [turn]).terms, ∀ p, t.product? = some p → p.CommutesLocally := by
    intro t ht p' hp'
    obtain rfl := List.mem_singleton.1 ht
    obtain rfl := Option.some.inj (hproduct.symm.trans hp')
    simp [Product.CommutesLocally, hocc]
  exact ⟨flip, back, turn, hflip, hback, hturn, ⟨backwards, phi, hbackwards, happly, hphi⟩,
    full, chi, hfull, happly', hcommuting hcommutes⟩

end QubitDynamics
