import QubitDynamics.Hamiltonian.Chain
import QubitDynamics.Proofs.ProductMatrix

/-! Terms of Pauli operators. A product of Pauli operators is never refused as a term. It
acts exactly on the qubits of its operators, each once, however often they are repeated. -/

namespace QubitDynamics

open Register

variable {n : ℕ}

theorem Pauli.hasShape_matrix (p : Pauli) : (p.matrix : Mat ℂ).HasShape 2 2 := by cases p <;> exact ⟨rfl, rfl⟩

namespace Chain

noncomputable def pauliContribution (x : Pauli × ℕ) : Contribution ℂ :=
  .operator ⟨x.1.letter ++ toString (x.2 : ℤ), x.2, x.1.matrix⟩ 1

theorem contribution_pauli (x : Pauli × ℕ) :
    (Factor.symbol (Symbol.pauli x.1 x.2)).contribution = .ok (pauliContribution x) :=
  Occurrence.contribution_factor (o := ⟨x.1.letter ++ toString (x.2 : ℤ), x.2, x.1.matrix⟩) x.1.hasShape_matrix

/-- The term of a coefficient and Pauli operators. -/
noncomputable def pauliProduct (c : ℝ) (ps : List (Pauli × ℕ)) : Term ℂ :=
  ⟨.product ((ps.map pauliContribution).foldl Product.absorb (.ofCoefficient (c : ℂ))), none⟩

theorem mapM_contribution_pauli (ps : List (Pauli × ℕ)) :
    (ps.map fun x => Factor.symbol (Symbol.pauli x.1 x.2)).mapM Factor.contribution =
      .ok (ps.map pauliContribution) := by
  rw [List.mapM_map]
  exact mapM_eq_ok_map fun x _ => contribution_pauli x

theorem ofFactors_pauli (c : ℝ) (ps : List (Pauli × ℕ)) :
    Term.ofFactors (c : ℂ) (ps.map fun x => .symbol (.pauli x.1 x.2)) = .ok (pauliProduct c ps) := by
  rw [Term.ofFactors, Product.ofFactors, mapM_contribution_pauli]
  rfl

/-- Terms of Pauli operators are never refused. -/
theorem pauliTerm_eq_ok (c : ℝ) (ps : List (Pauli × ℕ)) : pauliTerm c ps = .ok (pauliProduct c ps) :=
  congrArg (Except.mapError DynamicsError.term) (ofFactors_pauli c ps)

theorem wellFormed_pauliProduct (c : ℝ) (ps : List (Pauli × ℕ)) : (pauliProduct c ps).WellFormed := by
  obtain ⟨-, -, hwf, -⟩ := Term.ofFactors_eq_ok (ofFactors_pauli c ps)
  exact hwf

theorem mem_qubits_pauliProduct {c : ℝ} {ps : List (Pauli × ℕ)} {q : ℕ} :
    q ∈ (pauliProduct c ps).qubits ↔ ∃ x ∈ ps, x.2 = q := by
  refine Product.mem_qubits_foldl_absorb.trans ((or_iff_left List.not_mem_nil).trans ?_)
  simp [pauliContribution, Contribution.qubits, eq_comm]

theorem arity_pauliProduct_le (c : ℝ) (ps : List (Pauli × ℕ)) : (pauliProduct c ps).arity ≤ ps.length := by
  have hsub : (pauliProduct c ps).qubits ⊆ ps.map Prod.snd := by
    intro q hq
    obtain ⟨x, hx, rfl⟩ := mem_qubits_pauliProduct.1 hq
    exact List.mem_map_of_mem hx
  have hlength := ((wellFormed_pauliProduct c ps).nodup.subperm hsub).length_le
  rwa [List.length_map] at hlength

theorem fits_pauliProduct (c : ℝ) {ps : List (Pauli × ℕ)} (hlt : ∀ x ∈ ps, x.2 < n) : (pauliProduct c ps).Fits n where
  toWellFormed := wellFormed_pauliProduct c ps
  lt q hq := by
    obtain ⟨x, hx, rfl⟩ := mem_qubits_pauliProduct.1 hq
    exact hlt x hx

/-! ### Both ends of sixty-five qubits -/

end Chain

end QubitDynamics
