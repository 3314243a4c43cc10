import QubitDynamics.Proofs.Magnetization

/-! The matrices of chains in closed form. An `X` flips the bit of its qubit, a `Z` is
diagonal with the spin of its qubit, and of the two exchange terms of a bond `YY` is
`XX` times the negated product of the spins, so both cancel where the spins are equal.
A sum over the bonds of a chain is a sum over the pairs of neighbours on a ring, each
taken once; these pairs are also the qubit sets of the clusters, since every single
qubit lies in one of them. -/

namespace QubitDynamics

open Register Matrix

variable {n : ℕ}

/-! ### Flipped bits and spins -/

namespace Register

/-- The qubits at which two indices have different bits. -/
def flips (n r c : ℕ) : Finset ℕ := (Finset.range n).filter fun q => bit n r q ≠ bit n c q

end Register

namespace Pauli

variable {q a b : ℕ}

end Pauli

/-! ### Neighbours on a ring -/

namespace Chain

namespace Spans

variable {specs : List (ℝ × List (Pauli × ℕ))}

/-- If the products reach equally large sets of qubits and all lie in one of these sets, there is one
cluster for each of them. -/
theorem clusters_eq (id : OwnerId) {sets : Finset (Finset ℕ)} {k : ℕ}
    (hsets : ∀ s ∈ sets, s.card = k ∧ ∃ x ∈ specs, (x.2.map Prod.snd).toFinset = s)
    (hcover : ∀ x ∈ specs, ∃ s ∈ sets, (x.2.map Prod.snd).toFinset ⊆ s) :
    ((pauliSum id specs).clusters.map Cluster.qubitSet).Nodup ∧
      ((pauliSum id specs).clusters.map Cluster.qubitSet).toFinset = sets := by
  obtain ⟨ms, hterms, harr⟩ := (pauliSum id specs).arranged_clusters fun t ht =>
    ((valid_pauliSum id specs).fits t ht).nodup
  have hmem {s : Finset ℕ} : s ∈ Cluster.qubitSets ms ↔ ∃ x ∈ specs, (x.2.map Prod.snd).toFinset = s := by
    have hmap : ms.map (·.term.qubitSet) = specs.map fun x => (x.2.map Prod.snd).toFinset := by
      rw [show ms.map (·.term.qubitSet) = (ms.map Member.term).map Term.qubitSet by rw [List.map_map]; rfl, hterms,
        pauliSum, Hamiltonian.map_terms_ofTerms id (fun _ => rfl), List.map_map]
      exact List.map_congr_left fun x _ => qubitSet_pauliProduct x.1 x.2
    rw [Cluster.qubitSets, hmap, List.mem_toFinset, List.mem_map]
  refine ⟨harr.nodup_qubitSets, ?_⟩
  rw [harr.toFinset_qubitSets]
  ext s
  rw [Cluster.mem_maximalSets]
  constructor
  · rintro ⟨hs, hmax⟩
    obtain ⟨x, hx, rfl⟩ := hmem.1 hs
    obtain ⟨t, ht, hsub⟩ := hcover x hx
    rw [hmax t (hmem.2 (hsets t ht).2) hsub]
    exact ht
  · intro hs
    refine ⟨hmem.2 (hsets s hs).2, fun t ht hst => ?_⟩
    obtain ⟨x, hx, rfl⟩ := hmem.1 ht
    obtain ⟨u, hu, htu⟩ := hcover x hx
    have hsu : s = u := Finset.eq_of_subset_of_card_le (hst.trans htu) (by rw [(hsets u hu).1, (hsets s hs).1])
    exact hst.antisymm (hsu ▸ htu)

end Spans

end Chain

namespace Chain

end Chain

end QubitDynamics
