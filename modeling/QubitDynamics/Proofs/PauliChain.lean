import QubitDynamics.Proofs.PauliTerms
import QubitDynamics.Proofs.QuenchRun

/-! Chains as sums of products of Pauli operators. On every register the term of some
Pauli operators is their product times the real coefficient; no such term is ever
refused, so a chain that is long enough always has a Hamiltonian. Its register has as
many qubits as the chain, and its terms are Hermitian, since Pauli operators on
different qubits commute. -/

namespace QubitDynamics

open Register Matrix

variable {n : ℕ}

/-! ### Pauli operators on a register -/

noncomputable def Pauli.on (n : ℕ) (p : Pauli) (q : ℕ) : Matrix (Fin (2 ^ n)) (Fin (2 ^ n)) ℂ :=
  Register.operator n [q] p.matrix

namespace Pauli

theorem hasShape_on (p : Pauli) (q : ℕ) : (p.matrix : Mat ℂ).HasShape (2 ^ [q].length) (2 ^ [q].length) :=
  p.hasShape_matrix

theorem conjTranspose_matrix (p : Pauli) : (p.matrix : Mat ℂ).conjTranspose = p.matrix := by
  refine p.hasShape_matrix.conjTranspose.ext p.hasShape_matrix ?_
  rw [Mat.toMatrix_conjTranspose p.hasShape_matrix]
  cases p <;> ext i j <;> fin_cases i <;> fin_cases j <;> simp [matrix, Mat.entry_ofFn]

theorem conjTranspose_on (n : ℕ) (p : Pauli) (q : ℕ) : (p.on n q)ᴴ = p.on n q := by
  rw [on, ← operator_conjTranspose (p.hasShape_on q), conjTranspose_matrix]

theorem commute_on_of_ne (p p' : Pauli) {q q' : ℕ} (hq : q < n) (hq' : q' < n) (hne : q ≠ q') :
    Commute (p.on n q) (p'.on n q') := by
  have ht : Targets n ([q] ++ [q']) := ⟨by simp [hq, hq'], by simp [hne]⟩
  exact operator_commute ht (p.hasShape_on q) (p'.hasShape_on q')

/-- Pauli operators of one kind commute, on whatever qubits. -/
theorem commute_on_self (p : Pauli) {q q' : ℕ} (hq : q < n) (hq' : q' < n) : Commute (p.on n q) (p.on n q') := by
  by_cases hne : q = q'
  · rw [hne]
  · exact p.commute_on_of_ne p hq hq' hne

theorem on_mul_on {a b c : Pauli} {k : ℂ} (h : (a.matrix : Mat ℂ).mul b.matrix = c.matrix.scale k) {q : ℕ} (hq : q < n) :
    a.on n q * b.on n q = k • c.on n q := by
  have ht : Targets n [q] := ⟨by simpa using hq, List.nodup_singleton q⟩
  rw [on, on, on, ← operator_mul ht (a.hasShape_on q) (b.hasShape_on q), h, operator_scale (c.hasShape_on q)]

theorem matrix_mul_eq {a b c : Pauli} {k : ℂ}
    (h : (a.matrix : Mat ℂ).toMatrix 2 2 * b.matrix.toMatrix 2 2 = k • c.matrix.toMatrix 2 2) :
    (a.matrix : Mat ℂ).mul b.matrix = c.matrix.scale k := by
  refine (a.hasShape_matrix.mul b.hasShape_matrix).ext (c.hasShape_matrix.scale k) ?_
  rw [Mat.toMatrix_mul a.hasShape_matrix b.hasShape_matrix, Mat.toMatrix_scale c.hasShape_matrix, h]

theorem toMatrix_x : (x.matrix : Mat ℂ).toMatrix 2 2 = !![0, 1; 1, 0] := by
  ext i j
  fin_cases i <;> fin_cases j <;> simp [matrix, Mat.entry_ofFn]

theorem toMatrix_y : (y.matrix : Mat ℂ).toMatrix 2 2 = !![0, -Complex.I; Complex.I, 0] := by
  ext i j
  fin_cases i <;> fin_cases j <;> simp [matrix, Mat.entry_ofFn]

theorem toMatrix_z : (z.matrix : Mat ℂ).toMatrix 2 2 = !![1, 0; 0, -1] := by
  ext i j
  fin_cases i <;> fin_cases j <;> simp [matrix, Mat.entry_ofFn]

variable {q : ℕ}

theorem z_mul_x (hq : q < n) : z.on n q * x.on n q = Complex.I • y.on n q :=
  on_mul_on (matrix_mul_eq (by rw [toMatrix_x, toMatrix_y, toMatrix_z]; simp)) hq

theorem z_mul_y (hq : q < n) : z.on n q * y.on n q = -Complex.I • x.on n q :=
  on_mul_on (matrix_mul_eq (by rw [toMatrix_x, toMatrix_y, toMatrix_z]; simp)) hq

end Pauli

/-! ### Terms of Pauli operators -/

namespace Chain

/-- The term of Pauli operators acts as the coefficient times their product. -/
theorem operator_pauliProduct (c : ℝ) {ps : List (Pauli × ℕ)} (hlt : ∀ x ∈ ps, x.2 < n) :
    (pauliProduct c ps).operator n = (c : ℂ) • (ps.map fun x => x.1.on n x.2).prod := by
  obtain ⟨cs, hcs, -, -, hoperator⟩ := Term.ofFactors_eq_ok (ofFactors_pauli c ps)
  obtain rfl : ps.map pauliContribution = cs := Except.ok.inj ((mapM_contribution_pauli ps).symm.trans hcs)
  rw [hoperator n (fits_pauliProduct c hlt), List.map_map]
  refine congrArg (fun As => (c : ℂ) • List.prod As) (List.map_congr_left fun x _ => ?_)
  exact pow_one _

/-- Pauli operators on different qubits have a Hermitian product. -/
theorem conjTranspose_prod_on {ps : List (Pauli × ℕ)} (hlt : ∀ x ∈ ps, x.2 < n) (hnodup : (ps.map Prod.snd).Nodup) :
    ((ps.map fun x => x.1.on n x.2).prod)ᴴ = (ps.map fun x => x.1.on n x.2).prod := by
  induction ps with
  | nil => simp
  | cons x ps ih =>
    obtain ⟨hx, hlt⟩ := List.forall_mem_cons.1 hlt
    obtain ⟨hnotMem, hnodup⟩ := List.nodup_cons.1 hnodup
    have hcomm : Commute (x.1.on n x.2) (ps.map fun x => x.1.on n x.2).prod := by
      refine Commute.list_prod_right _ _ fun A hA => ?_
      obtain ⟨y, hy, rfl⟩ := List.mem_map.1 hA
      refine x.1.commute_on_of_ne y.1 hx (hlt y hy) fun h => hnotMem ?_
      rw [h]
      exact List.mem_map_of_mem hy
    rw [List.map_cons, List.prod_cons, conjTranspose_mul, Pauli.conjTranspose_on, ih hlt hnodup, hcomm.eq]

theorem conjTranspose_pauliProduct (c : ℝ) {ps : List (Pauli × ℕ)} (hlt : ∀ x ∈ ps, x.2 < n)
    (hnodup : (ps.map Prod.snd).Nodup) :
    (pauliProduct c ps).matrix.conjTranspose = (pauliProduct c ps).matrix := by
  rw [← (fits_pauliProduct c hlt).operator_mem_selfAdjoint, selfAdjoint.mem_iff, star_eq_conjTranspose,
    operator_pauliProduct c hlt, conjTranspose_smul, conjTranspose_prod_on hlt hnodup, Complex.star_def,
    Complex.conj_ofReal]

/-! ### Sums of Pauli operators -/

noncomputable def pauliSum (id : OwnerId) (specs : List (ℝ × List (Pauli × ℕ))) : Hamiltonian ℂ :=
  .ofTerms id (specs.map fun x => pauliProduct x.1 x.2)

/-- A chain that is long enough has a Hamiltonian. -/
theorem ofTerms_eq_ok {id : OwnerId} {least : ℕ} (hn : least ≤ n) (specs : List (ℝ × List (Pauli × ℕ))) :
    ofTerms id least n specs = .ok (pauliSum id specs) := by
  have hmap : (specs.mapM fun x => pauliTerm (K := ℂ) x.1 x.2) = .ok (specs.map fun x => pauliProduct x.1 x.2) :=
    mapM_eq_ok_map fun x _ => pauliTerm_eq_ok x.1 x.2
  rw [ofTerms, if_neg (Nat.not_lt.2 hn), hmap]
  rfl

theorem mem_terms_pauliSum {id : OwnerId} {specs : List (ℝ × List (Pauli × ℕ))} {t : Term ℂ}
    (ht : t ∈ (pauliSum id specs).terms) : ∃ x ∈ specs, t = (pauliProduct x.1 x.2).withOwner id := by
  obtain ⟨s, hs, rfl⟩ := List.mem_map.1 ht
  obtain ⟨x, hx, rfl⟩ := List.mem_map.1 hs
  exact ⟨x, hx, rfl⟩

theorem valid_pauliSum (id : OwnerId) (specs : List (ℝ × List (Pauli × ℕ))) : (pauliSum id specs).Valid := by
  refine Hamiltonian.valid_ofTerms (fun t ht => ?_) id
  obtain ⟨x, -, rfl⟩ := List.mem_map.1 ht
  exact wellFormed_pauliProduct x.1 x.2

/-- Products of one or two Pauli operators on different qubits below `n`, the last one among them. -/
structure Spans (n : ℕ) (specs : List (ℝ × List (Pauli × ℕ))) : Prop where
  lt : ∀ x ∈ specs, ∀ y ∈ x.2, y.2 < n
  nodup : ∀ x ∈ specs, (x.2.map Prod.snd).Nodup
  length_le : ∀ x ∈ specs, x.2.length ≤ 2
  last : ∃ x ∈ specs, ∃ y ∈ x.2, y.2 + 1 = n

namespace Spans

variable {specs : List (ℝ × List (Pauli × ℕ))}

theorem nqubits_eq (h : Spans n specs) (id : OwnerId) : (pauliSum id specs).nqubits = n := by
  apply le_antisymm
  · refine Hamiltonian.registerSize_le fun t ht q hq => ?_
    obtain ⟨x, hx, rfl⟩ := List.mem_map.1 ht
    exact (fits_pauliProduct x.1 (h.lt x hx)).lt q hq
  · obtain ⟨x, hx, y, hy, hlast⟩ := h.last
    have hlt := Hamiltonian.lt_registerSize (List.mem_map_of_mem (f := fun x => pauliProduct x.1 x.2) hx)
      (mem_qubits_pauliProduct.2 ⟨y, hy, rfl⟩)
    rw [← hlast]
    exact hlt

theorem small (h : Spans n specs) (id : OwnerId) : Term.Small (pauliSum id specs).terms := by
  intro t ht
  obtain ⟨x, hx, rfl⟩ := mem_terms_pauliSum ht
  have hlength := arity_pauliProduct_le x.1 x.2
  have hx := h.length_le x hx
  show (pauliProduct x.1 x.2).arity < 64
  omega

theorem terms_ne_nil (h : Spans n specs) (id : OwnerId) : (pauliSum id specs).terms ≠ [] := by
  obtain ⟨x, hx, -⟩ := h.last
  simpa [pauliSum, Hamiltonian.ofTerms] using List.ne_nil_of_mem hx

theorem hermitian (h : Spans n specs) (id : OwnerId) :
    ∀ t ∈ (pauliSum id specs).terms, t.matrix.conjTranspose = t.matrix := by
  intro t ht
  obtain ⟨x, hx, rfl⟩ := mem_terms_pauliSum ht
  exact conjTranspose_pauliProduct x.1 (h.lt x hx) (h.nodup x hx)

end Spans

/-! ### Bonds -/

/-- A bond joins two different qubits of the chain. -/
theorem lt_of_mem_bonds {a b : ℕ} (h : (a, b) ∈ bonds n) : a < n ∧ b < n ∧ a ≠ b := by
  rw [bonds, List.mem_append, List.mem_map] at h
  rcases h with ⟨i, hi, hab⟩ | h
  · rw [List.mem_range] at hi
    obtain ⟨rfl, rfl⟩ := Prod.mk.inj hab
    omega
  · split_ifs at h with hn
    · obtain ⟨rfl, rfl⟩ := Prod.mk.inj (List.mem_singleton.1 h)
      omega
    · simp at h

theorem last_mem_bonds (hn : 2 ≤ n) : (n - 2, n - 1) ∈ bonds n := by
  rw [bonds, List.mem_append]
  refine .inl (List.mem_map.2 ⟨n - 2, List.mem_range.2 (by omega), ?_⟩)
  rw [show n - 2 + 1 = n - 1 by omega]

def isingSpecs (n : ℕ) (field : ℝ) : List (ℝ × List (Pauli × ℕ)) :=
  (bonds n).map (fun bond => (-1, [(.z, bond.1), (.z, bond.2)])) ++ (List.range n).map fun q => (-field, [(.x, q)])

theorem ising_eq_ok (id : OwnerId) (hn : 2 ≤ n) (field : ℝ) :
    ising id n field = .ok (pauliSum id (isingSpecs n field)) := ofTerms_eq_ok hn _

/-- What holds of the terms of all bonds and of all qubits holds of the terms of the Ising chain. -/
theorem forall_mem_isingSpecs {field : ℝ} {P : ℝ × List (Pauli × ℕ) → Prop}
    (hbond : ∀ a b, a < n → b < n → a ≠ b → P (-1, [(.z, a), (.z, b)])) (hfield : ∀ q < n, P (-field, [(.x, q)])) :
    ∀ x ∈ isingSpecs n field, P x := by
  intro x hx
  rcases List.mem_append.1 hx with hx | hx
  · obtain ⟨⟨a, b⟩, hab, rfl⟩ := List.mem_map.1 hx
    obtain ⟨ha, hb, hne⟩ := lt_of_mem_bonds hab
    exact hbond a b ha hb hne
  · obtain ⟨q, hq, rfl⟩ := List.mem_map.1 hx
    exact hfield q (List.mem_range.1 hq)

theorem spans_isingSpecs (hn : 2 ≤ n) (field : ℝ) : Spans n (isingSpecs n field) where
  lt := forall_mem_isingSpecs (by simp +contextual) (by simp)
  nodup := forall_mem_isingSpecs (by simp) (by simp)
  length_le := forall_mem_isingSpecs (by simp) (by simp)
  last := by
    have hlast : n - 1 ∈ List.range n := List.mem_range.2 (by omega)
    refine ⟨(-field, [(.x, n - 1)]), List.mem_append_right _ (List.mem_map.2 ⟨n - 1, hlast, rfl⟩), (.x, n - 1), ?_, ?_⟩
    · simp
    · show n - 1 + 1 = n
      omega

def exchangeSpecs (delta : ℝ) (bond : ℕ × ℕ) : List (ℝ × List (Pauli × ℕ)) :=
  [(1, [(.x, bond.1), (.x, bond.2)]), (1, [(.y, bond.1), (.y, bond.2)]), (delta, [(.z, bond.1), (.z, bond.2)])]

theorem heisenberg_eq_ok (id : OwnerId) (hn : 2 ≤ n) (delta : ℝ) :
    heisenberg id n delta = .ok (pauliSum id ((bonds n).flatMap (exchangeSpecs delta))) := ofTerms_eq_ok hn _

/-- A term of a bond consists of two equal Pauli operators on the qubits of the bond. -/
theorem of_mem_exchangeSpecs {delta : ℝ} {bond : ℕ × ℕ} {x : ℝ × List (Pauli × ℕ)} (hx : x ∈ exchangeSpecs delta bond) :
    ∃ p, x.2 = [(p, bond.1), (p, bond.2)] := by
  simp only [exchangeSpecs, List.mem_cons, List.not_mem_nil, or_false] at hx
  rcases hx with rfl | rfl | rfl
  · exact ⟨.x, rfl⟩
  · exact ⟨.y, rfl⟩
  · exact ⟨.z, rfl⟩

theorem spans_exchangeSpecs (hn : 2 ≤ n) (delta : ℝ) : Spans n ((bonds n).flatMap (exchangeSpecs delta)) where
  lt x hx y hy := by
    obtain ⟨⟨a, b⟩, hab, hx⟩ := List.mem_flatMap.1 hx
    obtain ⟨p, hp⟩ := of_mem_exchangeSpecs hx
    obtain ⟨ha, hb, -⟩ := lt_of_mem_bonds hab
    rw [hp] at hy
    simp only [List.mem_cons, List.not_mem_nil, or_false] at hy
    rcases hy with rfl | rfl
    · exact ha
    · exact hb
  nodup x hx := by
    obtain ⟨⟨a, b⟩, hab, hx⟩ := List.mem_flatMap.1 hx
    obtain ⟨p, hp⟩ := of_mem_exchangeSpecs hx
    simp [hp, (lt_of_mem_bonds hab).2.2]
  length_le x hx := by
    obtain ⟨bond, -, hx⟩ := List.mem_flatMap.1 hx
    obtain ⟨p, hp⟩ := of_mem_exchangeSpecs hx
    simp [hp]
  last := by
    refine ⟨(1, [(.x, n - 2), (.x, n - 1)]), List.mem_flatMap.2 ⟨_, last_mem_bonds hn, List.mem_cons_self⟩,
      (.x, n - 1), ?_, ?_⟩
    · simp
    · show n - 1 + 1 = n
      omega

end Chain

end QubitDynamics
