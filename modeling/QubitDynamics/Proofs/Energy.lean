import QubitDynamics.Proofs.QuenchRun
import QubitDynamics.Proofs.Reachability

/-! Energies. The energy of a state is summed over the merged terms of a Hamiltonian,
each embedded in the register. It is the expectation of the matrix of the whole
Hamiltonian, in which no terms are merged, so it depends on the sum of the terms and
not on how they were clustered. In particular their order plays no part. -/

namespace QubitDynamics

open Register Matrix

namespace Hamiltonian

variable {h : Hamiltonian ℂ} {s : State ℂ} {terms : List (Term ℂ)}

/-- Two sums of terms on the same register have the same energy if they have the same operator. -/
theorem expectation_congr (hterms : ∀ t ∈ h.terms, t.Fits h.nqubits) (hs : s.OnRegister h.nqubits)
    (hfits : ∀ t ∈ terms, t.Fits h.nqubits) (hsum : (terms.map (Term.operator h.nqubits)).sum = h.operator)
    (owner : OwnerId) : expectation ⟨owner, h.nqubits, terms⟩ s = h.expectation s := by
  rw [expectation_eq_ok_of_fits hterms hs, ← hsum]
  exact expectation_eq_ok_of_fits hfits hs

/-- The terms in any order make the same operator. -/
theorem sum_operator_of_perm (hperm : terms.Perm h.terms) :
    (terms.map (Term.operator h.nqubits)).sum = h.operator := (hperm.map _).sum_eq

/-- A Hamiltonian can be built again from its terms in any order, and has the same energies. -/
theorem exists_widen_ofTerms (hterms : ∀ t ∈ h.terms, t.Fits h.nqubits) (hperm : terms.Perm h.terms)
    (owner : OwnerId) :
    ∃ wide, (ofTerms owner terms).widen h.nqubits = (.ok wide : Except (DynamicsError ℝ) _) ∧
      ∀ s : State ℂ, s.OnRegister h.nqubits → wide.expectation s = h.expectation s := by
  have hfits : ∀ t ∈ terms, t.Fits h.nqubits := fun t ht => hterms t (hperm.mem_iff.1 ht)
  have hsize : (ofTerms owner terms).nqubits ≤ h.nqubits := registerSize_le fun t ht => (hfits t ht).lt
  refine ⟨_, widen_eq_ok hsize, fun s hs => expectation_congr hterms hs (fits_ofTerms hfits owner) ?_ owner⟩
  rw [map_terms_ofTerms owner fun _ => rfl]
  exact sum_operator_of_perm hperm

end Hamiltonian

/-- Every state of a register whose dimension is a word has an energy: the real part of `ψ† H ψ` for a vector and of
the trace of `H ρ` for a density matrix, where `H` is the matrix of the Hamiltonian. It stays the same for every
order of the terms, also if the Hamiltonian is built again from them. -/
theorem Reachable.energy_of_matrix {h : Hamiltonian ℂ} (hh : Reachable (.hamiltonian h)) (hn : h.nqubits < 64) :
    ∃ full : Mat ℂ, h.matrix = (.ok full : Except (DynamicsError ℝ) _) ∧
      full.HasShape (2 ^ h.nqubits) (2 ^ h.nqubits) ∧
      (∀ psi : Array ℂ, psi.size = 2 ^ h.nqubits →
        h.expectation (.vector psi) =
          .ok (star (amplitudes h.nqubits id psi) ⬝ᵥ
            (full.toMatrix (2 ^ h.nqubits) (2 ^ h.nqubits) *ᵥ amplitudes h.nqubits id psi)).re) ∧
      (∀ rho : Mat ℂ, rho.HasShape (2 ^ h.nqubits) (2 ^ h.nqubits) →
        h.expectation (.density rho) =
          .ok (full.toMatrix (2 ^ h.nqubits) (2 ^ h.nqubits) * rho.toMatrix (2 ^ h.nqubits) (2 ^ h.nqubits)).trace.re) ∧
      ∀ terms : List (Term ℂ), terms.Perm h.terms → ∀ owner : OwnerId,
        (∀ s : State ℂ, s.OnRegister h.nqubits →
          Hamiltonian.expectation ⟨owner, h.nqubits, terms⟩ s = h.expectation s) ∧
        ∃ wide, (Hamiltonian.ofTerms owner terms).widen h.nqubits = (.ok wide : Except (DynamicsError ℝ) _) ∧
          ∀ s : State ℂ, s.OnRegister h.nqubits → wide.expectation s = h.expectation s := by
  obtain ⟨full, hfull, hshape, hmatrix⟩ := Hamiltonian.matrixOfSum_eq_ok hn hh.fits (R := ℝ)
  have henergy {s : State ℂ} (hs : s.OnRegister h.nqubits) :
      h.expectation s = .ok (s.expect (full.toMatrix (2 ^ h.nqubits) (2 ^ h.nqubits))).re := by
    rw [hmatrix]
    exact Hamiltonian.expectation_eq_ok_of_fits hh.fits hs
  refine ⟨full, hfull, hshape, fun psi hpsi => henergy (s := .vector psi) ⟨hn, hpsi⟩,
    fun rho hrho => henergy (s := .density rho) ⟨hn, hrho⟩, fun terms hperm owner => ⟨fun s hs => ?_, ?_⟩⟩
  · exact Hamiltonian.expectation_congr hh.fits hs (fun t ht => hh.fits t (hperm.mem_iff.1 ht))
      (Hamiltonian.sum_operator_of_perm hperm) owner
  · exact Hamiltonian.exists_widen_ofTerms hh.fits hperm owner

/-- A product inside a pair with its qubits in descending order, a repeated term and a constant, on a
register with an unused qubit. -/
theorem Reachable.energy_of_matrix_pair :
    let pair : Term ℂ := ⟨.dense [2, 0] (.ofFn 4 4 fun r c => r + 2 * c * Complex.I), none⟩
    let flip : Term ℂ := ⟨.product ((Product.ofCoefficient 3).absorb (.operator ⟨"X0", 0, Pauli.x.matrix⟩ 1)), none⟩
    let shift : Term ℂ := ⟨.dense [] (.single Complex.I), none⟩
    let psi : Array ℂ := Array.ofFn fun i : Fin 16 => i + Complex.I
    ∃ (h again : Hamiltonian ℂ) (full : Mat ℂ),
      (Hamiltonian.ofTerms ⟨7⟩ [shift, flip, pair, flip]).widen 4 = (.ok h : Except (DynamicsError ℝ) _) ∧
      Reachable (.hamiltonian h) ∧ h.matrix = (.ok full : Except (DynamicsError ℝ) _) ∧
      h.expectation (.vector psi) =
        .ok (star (amplitudes 4 id psi) ⬝ᵥ (full.toMatrix (2 ^ 4) (2 ^ 4) *ᵥ amplitudes 4 id psi)).re ∧
      h.expectation (.density (.identity 16)) =
        .ok (full.toMatrix (2 ^ 4) (2 ^ 4) * (Mat.identity 16).toMatrix (2 ^ 4) (2 ^ 4)).trace.re ∧
      (Hamiltonian.ofTerms ⟨8⟩ h.terms.reverse).widen 4 = (.ok again : Except (DynamicsError ℝ) _) ∧
      again.expectation (.vector psi) = h.expectation (.vector psi) := by
  intro pair flip shift psi
  have hpair : Reachable (.term pair) :=
    .ofValue (show Term.ofValue (.tensor pair.matrix.toTensor) [2, 0] = .ok pair from rfl)
  have hflip : Reachable (.term flip) :=
    .ofFactors (show Term.ofFactors 3 [.symbol (.pauli .x 0)] = .ok flip from rfl)
  have hshift : Reachable (.term shift) :=
    .ofValue (show Term.ofValue (.scalar Complex.I) [] = .ok shift from rfl)
  have hterms : ∀ t ∈ [shift, flip, pair, flip], Reachable (.term t) := by simp [hpair, hflip, hshift]
  have hwiden : (Hamiltonian.ofTerms ⟨7⟩ [shift, flip, pair, flip]).widen 4 =
      (.ok ⟨⟨7⟩, 4, [shift, flip, pair, flip].map (·.withOwner ⟨7⟩)⟩ : Except (DynamicsError ℝ) _) :=
    Hamiltonian.widen_eq_ok (by decide)
  have hh := (Reachable.ofTerms hterms ⟨7⟩).widen hwiden
  obtain ⟨full, hfull, -, hvector, hdensity, hperm⟩ := hh.energy_of_matrix (show 4 < 64 by decide)
  obtain ⟨-, again, hagain, hsame⟩ := hperm _ (List.reverse_perm _) ⟨8⟩
  exact ⟨_, again, full, hwiden, hh, hfull, hvector psi (by simp [psi]), hdensity (.identity 16) ⟨rfl, rfl⟩, hagain,
    hsame (.vector psi) ⟨show 4 < 64 by decide, show psi.size = 2 ^ 4 by simp [psi]⟩⟩

end QubitDynamics
