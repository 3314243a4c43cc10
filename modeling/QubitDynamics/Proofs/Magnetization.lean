import Mathlib.LinearAlgebra.Matrix.Permutation
import QubitDynamics.Proofs.Compilation
import QubitDynamics.Proofs.PauliChain
import QubitDynamics.Proofs.Symmetry

/-! The magnetization of chains. In the Heisenberg chain the three terms of a bond
fall into one cluster, since all terms act on two qubits and clusters hold all terms
on theirs; their sum commutes with the total `Z`, so the magnetization along `Z`
never changes. In the Ising chain every term commutes with the complement of all
qubits, under which each `Z` changes its sign; a state that is even or odd under the
complement stays so, and its magnetization along `Z` is zero. -/

namespace QubitDynamics

open Register Matrix

variable {n : ℕ}

/-! ### Total operators -/

/-- The sum over all qubits of a Pauli operator. -/
noncomputable def Pauli.total (n : ℕ) (p : Pauli) : Matrix (Fin (2 ^ n)) (Fin (2 ^ n)) ℂ :=
  ∑ q ∈ Finset.range n, p.on n q

theorem State.magnetization_eq_total (n : ℕ) (p : Pauli) (s : State ℂ) :
    s.magnetization n p = (s.expect (p.total n)).re / n := by
  have htotal : p.total n = ((List.range n).map (p.on n)).sum := rfl
  rw [htotal, expect_sum, List.map_map, ← Complex.reLm_coe, map_list_sum, List.map_map]
  rfl

namespace Pauli

variable {a b : ℕ}

noncomputable def exchange (n a b : ℕ) : Matrix (Fin (2 ^ n)) (Fin (2 ^ n)) ℂ :=
  x.on n a * x.on n b + y.on n a * y.on n b

/-- The exchange terms of a bond only reach states in which the `Z` of its qubits cancel. -/
theorem add_mul_exchange (ha : a < n) (hb : b < n) (hne : a ≠ b) : (z.on n a + z.on n b) * exchange n a b = 0 := by
  have hxx : z.on n a * (x.on n a * x.on n b) = Complex.I • (y.on n a * x.on n b) := by
    rw [← mul_assoc, z_mul_x ha, smul_mul_assoc]
  have hyy : z.on n a * (y.on n a * y.on n b) = -Complex.I • (x.on n a * y.on n b) := by
    rw [← mul_assoc, z_mul_y ha, smul_mul_assoc]
  have hxx' : z.on n b * (x.on n a * x.on n b) = Complex.I • (x.on n a * y.on n b) := by
    rw [(commute_on_of_ne z x hb ha hne.symm).left_comm, z_mul_x hb, mul_smul_comm]
  have hyy' : z.on n b * (y.on n a * y.on n b) = -Complex.I • (y.on n a * x.on n b) := by
    rw [(commute_on_of_ne z y hb ha hne.symm).left_comm, z_mul_y hb, mul_smul_comm]
  rw [exchange, add_mul, mul_add, mul_add, hxx, hyy, hxx', hyy', neg_smul, neg_smul]
  abel

theorem conjTranspose_exchange (ha : a < n) (hb : b < n) (hne : a ≠ b) : (exchange n a b)ᴴ = exchange n a b := by
  rw [exchange, conjTranspose_add, conjTranspose_mul, conjTranspose_mul, conjTranspose_on, conjTranspose_on,
    conjTranspose_on, conjTranspose_on, (commute_on_of_ne x x ha hb hne).eq, (commute_on_of_ne y y ha hb hne).eq]

/-- The exchange terms of a bond together commute with the total `Z`. -/
theorem commute_total_exchange (ha : a < n) (hb : b < n) (hne : a ≠ b) : Commute (z.total n) (exchange n a b) := by
  have hpair : Commute (z.on n a + z.on n b) (exchange n a b) := by
    have hzero := add_mul_exchange ha hb hne
    have hzero' := congrArg conjTranspose hzero
    rw [conjTranspose_mul, conjTranspose_add, conjTranspose_on, conjTranspose_on, conjTranspose_exchange ha hb hne,
      conjTranspose_zero] at hzero'
    rw [Commute, SemiconjBy, hzero, hzero']
  have hrest : ∀ q ∈ ((Finset.range n).erase a).erase b, Commute (z.on n q) (exchange n a b) := by
    intro q hq
    obtain ⟨hqb, hq⟩ := Finset.mem_erase.1 hq
    obtain ⟨hqa, hq⟩ := Finset.mem_erase.1 hq
    have hq := Finset.mem_range.1 hq
    exact ((commute_on_of_ne z x hq ha hqa).mul_right (commute_on_of_ne z x hq hb hqb)).add_right
      ((commute_on_of_ne z y hq ha hqa).mul_right (commute_on_of_ne z y hq hb hqb))
  have hmem : b ∈ (Finset.range n).erase a := Finset.mem_erase.2 ⟨hne.symm, Finset.mem_range.2 hb⟩
  have hsplit : z.total n = z.on n a + z.on n b + ∑ q ∈ ((Finset.range n).erase a).erase b, z.on n q := by
    rw [total, ← Finset.add_sum_erase _ _ (Finset.mem_range.2 ha), ← Finset.add_sum_erase _ _ hmem, add_assoc]
  rw [hsplit]
  exact hpair.add_left (Commute.sum_left _ _ _ hrest)

theorem commute_total_zz (ha : a < n) (hb : b < n) : Commute (z.total n) (z.on n a * z.on n b) := by
  refine Commute.sum_left _ _ _ fun q hq => ?_
  have hq := Finset.mem_range.1 hq
  exact (commute_on_self z hq ha).mul_right (commute_on_self z hq hb)

end Pauli

/-! ### The Heisenberg chain -/

namespace Chain

/-- A chain can be quenched. Its steps are unitary and commute with whatever all clusters commute with. -/
theorem Spans.exists_quench {specs : List (ℝ × List (Pauli × ℕ))} (h : Spans n specs) (id : OwnerId)
    {settings : Settings ℝ} (hsettings : settings.validate = .ok ()) :
    ∃ q : Quench ℂ ℝ, Quench.prepare (pauliSum id specs) settings = .ok q ∧
      q.formula.operator (pauliSum id specs).nqubits ∈ unitaryGroup (Fin (2 ^ (pauliSum id specs).nqubits)) ℂ ∧
      ∀ S, (∀ c ∈ (pauliSum id specs).clusters, Commute S (c.operatorSum Weights.none (pauliSum id specs).nqubits)) →
        Commute S (q.formula.operator (pauliSum id specs).nqubits) := by
  have hv := valid_pauliSum id specs
  have hsmall := h.small id
  obtain ⟨f, hf⟩ := ProductFormula.exists_prepare_eq_ok hv hsmall (h.terms_ne_nil id) hsettings
  exact ⟨_, Quench.prepare_eq_ok_iff.2 ⟨f, hf, rfl⟩,
    ProductFormula.operator_mem_unitaryGroup hv hsmall (h.hermitian id) hf,
    fun S hS => ProductFormula.commute_operator hv hsmall (h.hermitian id) hf hS⟩

theorem qubitSet_pauliProduct (c : ℝ) (ps : List (Pauli × ℕ)) :
    (pauliProduct c ps).qubitSet = (ps.map Prod.snd).toFinset := by
  ext q
  rw [Term.qubitSet, List.mem_toFinset, mem_qubits_pauliProduct, List.mem_toFinset, List.mem_map]

noncomputable def bondTerms (id : OwnerId) (delta : ℝ) (bond : ℕ × ℕ) : List (Term ℂ) :=
  (exchangeSpecs delta bond).map fun x => (pauliProduct x.1 x.2).withOwner id

theorem terms_heisenberg (id : OwnerId) (n : ℕ) (delta : ℝ) :
    (pauliSum id ((bonds n).flatMap (exchangeSpecs delta))).terms = (bonds n).flatMap (bondTerms id delta) := by
  show (((bonds n).flatMap (exchangeSpecs delta)).map fun x => pauliProduct x.1 x.2).map (·.withOwner id) = _
  rw [List.map_map, List.map_flatMap]
  rfl

theorem qubitSet_of_mem_bondTerms {id : OwnerId} {delta : ℝ} {bond : ℕ × ℕ} {t : Term ℂ}
    (ht : t ∈ bondTerms id delta bond) : t.qubitSet = {bond.1, bond.2} := by
  obtain ⟨x, hx, rfl⟩ := List.mem_map.1 ht
  obtain ⟨p, hp⟩ := of_mem_exchangeSpecs hx
  have hset : ((pauliProduct x.1 x.2).withOwner id).qubitSet = (x.2.map Prod.snd).toFinset :=
    qubitSet_pauliProduct x.1 x.2
  rw [hset, hp]
  simp

/-- The terms of a bond together commute with the total `Z`. -/
theorem commute_total_bondTerms (id : OwnerId) (delta : ℝ) {bond : ℕ × ℕ} (h₁ : bond.1 < n) (h₂ : bond.2 < n)
    (hne : bond.1 ≠ bond.2) :
    Commute (Pauli.z.total n) ((bondTerms id delta bond).map (Term.operator n)).sum := by
  have hterm (c : ℝ) (p : Pauli) :
      ((pauliProduct c [(p, bond.1), (p, bond.2)]).withOwner id).operator n =
        (c : ℂ) • (p.on n bond.1 * p.on n bond.2) := by
    have hlt : ∀ y ∈ [(p, bond.1), (p, bond.2)], y.2 < n := by simp [h₁, h₂]
    refine (operator_pauliProduct c hlt).trans ?_
    simp
  have hsum : ((bondTerms id delta bond).map (Term.operator n)).sum =
      Pauli.exchange n bond.1 bond.2 + (delta : ℂ) • (Pauli.z.on n bond.1 * Pauli.z.on n bond.2) := by
    simp only [bondTerms, exchangeSpecs, List.map_cons, List.map_nil, List.sum_cons, List.sum_nil, hterm, add_zero,
      Complex.ofReal_one, one_smul, Pauli.exchange, add_assoc]
  rw [hsum]
  exact (Pauli.commute_total_exchange h₁ h₂ hne).add_right ((Pauli.commute_total_zz h₁ h₂).smul_right _)

/-- In every cluster of the Heisenberg chain the terms of a bond come together, so each cluster
commutes with the total `Z`. -/
theorem commute_total_cluster (id : OwnerId) (delta : ℝ) {m : ℕ} (hm : m ≤ n) :
    ∀ c ∈ (pauliSum id ((bonds m).flatMap (exchangeSpecs delta))).clusters,
      Commute (Pauli.z.total n) (c.operatorSum Weights.none n) := by
  intro c hc
  -- terms on equally many qubits only nest if they act on the same ones
  have hcard : ∀ t ∈ (pauliSum id ((bonds m).flatMap (exchangeSpecs delta))).terms, t.qubitSet.card = 2 := by
    intro t ht
    rw [terms_heisenberg] at ht
    obtain ⟨bond, hbond, ht⟩ := List.mem_flatMap.1 ht
    rw [qubitSet_of_mem_bondTerms ht]
    exact Finset.card_pair (lt_of_mem_bonds hbond).2.2
  rw [Hamiltonian.operatorSum_eq_filter _ (fun t ht => ((valid_pauliSum id _).fits t ht).nodup) hcard hc n,
    terms_heisenberg, List.filter_flatMap, List.map_flatMap, List.flatMap_def, List.sum_flatten]
  refine Commute.list_sum_right _ _ fun A hA => ?_
  rw [List.map_map] at hA
  obtain ⟨bond, hbond, rfl⟩ := List.mem_map.1 hA
  obtain ⟨h₁, h₂, hne⟩ := lt_of_mem_bonds hbond
  -- a cluster has all terms of a bond or none, as they act on the same qubits
  by_cases hset : ({bond.1, bond.2} : Finset ℕ) = c.qubitSet
  · have hall : (bondTerms id delta bond).filter (·.qubitSet = c.qubitSet) = bondTerms id delta bond :=
      List.filter_eq_self.2 fun t ht => by simpa [qubitSet_of_mem_bondTerms ht] using hset
    simp only [Function.comp_apply, hall]
    exact commute_total_bondTerms id delta (h₁.trans_le hm) (h₂.trans_le hm) hne
  · have hnone : (bondTerms id delta bond).filter (·.qubitSet = c.qubitSet) = [] :=
      List.filter_eq_nil_iff.2 fun t ht => by simpa [qubitSet_of_mem_bondTerms ht] using hset
    simp only [Function.comp_apply, hnone]
    exact Commute.zero_right _

end Chain

/-- A step of the Heisenberg chain conserves the magnetization along `Z`, in every state and for every
anisotropy, time step and order: all records of a run have the one of the initial record. -/
theorem Quench.magnetizationZ_heisenberg (id : OwnerId) (n : ℕ) (hn : 2 ≤ n) (delta : ℝ) (settings : Settings ℝ)
    (hsettings : settings.validate = .ok ()) :
    ∃ (h : Hamiltonian ℂ) (q : Quench ℂ ℝ), Chain.heisenberg id n delta = .ok h ∧ h.nqubits = n ∧
      prepare h settings = .ok q ∧ ∀ s : State ℂ, s.OnRegister n → ∃ first : Record ℝ, q.record 0 s = .ok first ∧
        (∀ total k, q.formula.stepCount total = .ok k →
          ∃ (history : List (Record ℝ)) (final : State ℂ), history.length = k + 1 ∧ history.head? = some first ∧
            (∀ r ∈ history, r.magnetizationZ = first.magnetizationZ) ∧
            ∀ (m : Type → Type) [Monad m] [LawfulMonad m] (onStep : Record ℝ → m Unit),
              (q.run onStep s total).run = history.tail.forM onStep >>= fun _ => pure (.ok ⟨history, final⟩)) ∧
        ∀ total e, q.formula.stepCount total = .error e →
          ∀ (m : Type → Type) [Monad m] [LawfulMonad m] (onStep : Record ℝ → m Unit),
            (q.run onStep s total).run = pure (.error e) := by
  have hspans := Chain.spans_exchangeSpecs hn delta
  have hv := Chain.valid_pauliSum id ((Chain.bonds n).flatMap (Chain.exchangeSpecs delta))
  have hnqubits := hspans.nqubits_eq id
  obtain ⟨q, hq, hunitary, hsymmetry⟩ := hspans.exists_quench id hsettings
  have hcommute := hsymmetry _ (Chain.commute_total_cluster id delta hnqubits.ge)
  refine ⟨_, q, Chain.heisenberg_eq_ok id hn delta, hnqubits, hq, fun s hs => ?_⟩
  rw [← hnqubits] at hs
  refine ⟨_, record_eq_ok hv hq 0 hs, run_records hv hq hs fun k time => ?_⟩
  show State.magnetization _ _ _ = State.magnetization _ _ _
  rw [State.magnetization_eq_total, State.magnetization_eq_total,
    State.expect_transform_of_commute (pow_mem hunitary k) (hcommute.pow_right k)]

/-- A mixed state on three qubits that is neither Hermitian nor of trace one, and three steps. -/
theorem Quench.magnetizationZ_heisenberg_ring :
    let settings : Settings ℝ := ⟨1 / 3, .first⟩
    let rho : State ℂ := .density (.ofFn 8 8 fun r c => r + 2 * c * Complex.I)
    settings.validate = .ok () ∧ rho.OnRegister 3 ∧
      ∃ (h : Hamiltonian ℂ) (q : Quench ℂ ℝ) (first : Record ℝ) (history : List (Record ℝ)) (final : State ℂ),
        Chain.heisenberg ⟨7⟩ 3 (-2) = .ok h ∧ prepare h settings = .ok q ∧ q.record 0 rho = .ok first ∧
        history.length = 4 ∧ (∀ r ∈ history, r.magnetizationZ = first.magnetizationZ) ∧
        ∀ (m : Type → Type) [Monad m] [LawfulMonad m] (onStep : Record ℝ → m Unit),
          (q.run onStep rho 1).run = history.tail.forM onStep >>= fun _ => pure (.ok ⟨history, final⟩) := by
  intro settings rho
  have hsettings : settings.validate = .ok () := Settings.validate_eq_ok_iff.2 (by norm_num [settings])
  have hrho : rho.OnRegister 3 := ⟨by decide, Mat.hasShape_ofFn _ _ _⟩
  obtain ⟨h, q, hh, -, hq, hstates⟩ := magnetizationZ_heisenberg ⟨7⟩ 3 (by norm_num) (-2) settings hsettings
  obtain ⟨first, hfirst, hruns, -⟩ := hstates rho hrho
  have hcount : q.formula.stepCount 1 = .ok 3 := by
    rw [stepCount_eq hq]
    exact stepCount_eq_ok one_pos (by decide) (by decide) (by norm_num [settings]) (by norm_num [settings])
  obtain ⟨history, final, hlength, -, hsame, hrun⟩ := hruns 1 3 hcount
  exact ⟨hsettings, hrho, h, q, first, history, final, hh, hq, hfirst, hlength, hsame, hrun⟩

/-! ### The complement of all qubits -/

/-- The operator that complements every bit of an index. -/
noncomputable def complement (n : ℕ) : Matrix (Fin (2 ^ n)) (Fin (2 ^ n)) ℂ := Equiv.Perm.permMatrix ℂ Fin.revPerm

theorem complement_mul (A : Matrix (Fin (2 ^ n)) (Fin (2 ^ n)) ℂ) : complement n * A = A.submatrix Fin.rev id :=
  PEquiv.toMatrix_toPEquiv_mul _ A

theorem mul_complement (A : Matrix (Fin (2 ^ n)) (Fin (2 ^ n)) ℂ) : A * complement n = A.submatrix id Fin.rev :=
  PEquiv.mul_toMatrix_toPEquiv A _

theorem complement_mul_self (n : ℕ) : complement n * complement n = 1 := by
  rw [complement_mul]
  ext r c
  simp [complement, Matrix.one_apply, PEquiv.toMatrix_apply, Equiv.toPEquiv_apply]

theorem conjTranspose_complement (n : ℕ) : (complement n)ᴴ = complement n := by
  rw [complement, conjTranspose_permMatrix]
  rfl

theorem complement_mulVec (v : Fin (2 ^ n) → ℂ) : complement n *ᵥ v = v ∘ Fin.rev := permMatrix_mulVec _

/-- The bits of the complement of an index. -/
theorem bit_rev (r : Fin (2 ^ n)) {q : ℕ} (hq : q < n) : bit n r.rev q = !bit n r q := by
  have hplace : place n q < n := by
    unfold place
    omega
  rw [bit, bit, Fin.val_rev, Nat.testBit_two_pow_sub_succ r.isLt, decide_eq_true hplace, Bool.true_and]

namespace Pauli

/-- Complementing row and column of a Pauli matrix gives it back, up to a sign. -/
theorem on_rev {p : Pauli} {k : ℂ}
    (h : ∀ i j : Bool, p.matrix.entry (!i).toNat (!j).toNat = k * p.matrix.entry i.toNat j.toNat) {q : ℕ} (hq : q < n)
    (r c : Fin (2 ^ n)) : p.on n q r.rev c.rev = k * p.on n q r c := by
  have hothers : (∀ i < n, i ≠ q → bit n r.rev i = bit n c.rev i) ↔ ∀ i < n, i ≠ q → bit n r i = bit n c i := by
    refine forall₂_congr fun i hi => ?_
    rw [bit_rev r hi, bit_rev c hi, Bool.not_inj_iff]
  simp only [on, operator_singleton hq, siteOperator, of_apply, hothers, bit_rev _ hq, h, mul_ite, mul_zero]

theorem complement_mul_on {p : Pauli} {k : ℂ}
    (h : ∀ i j : Bool, p.matrix.entry (!i).toNat (!j).toNat = k * p.matrix.entry i.toNat j.toNat) {q : ℕ}
    (hq : q < n) : complement n * p.on n q = k • (p.on n q * complement n) := by
  rw [complement_mul, mul_complement]
  ext r c
  have hrev := on_rev h hq r c.rev
  rwa [Fin.rev_rev] at hrev

/-- The complement commutes with every `X`. -/
theorem commute_complement_x {q : ℕ} (hq : q < n) : Commute (complement n) (x.on n q) := by
  have hentry (i j : Bool) : (x.matrix : Mat ℂ).entry (!i).toNat (!j).toNat = 1 * x.matrix.entry i.toNat j.toNat := by
    cases i <;> cases j <;> simp [matrix, Mat.entry_ofFn]
  rw [Commute, SemiconjBy, complement_mul_on hentry hq, one_smul]

/-- Under the complement every `Z` changes its sign. -/
theorem complement_mul_z {q : ℕ} (hq : q < n) : complement n * z.on n q = -(z.on n q * complement n) := by
  have hentry (i j : Bool) : (z.matrix : Mat ℂ).entry (!i).toNat (!j).toNat = -1 * z.matrix.entry i.toNat j.toNat := by
    cases i <;> cases j <;> simp [matrix, Mat.entry_ofFn]
  rw [complement_mul_on hentry hq, neg_one_smul]

theorem complement_mul_total_z (n : ℕ) : complement n * z.total n = -(z.total n * complement n) := by
  rw [total, Finset.mul_sum, Finset.sum_mul, ← Finset.sum_neg_distrib]
  exact Finset.sum_congr rfl fun q hq => complement_mul_z (Finset.mem_range.1 hq)

theorem commute_complement_zz {a b : ℕ} (ha : a < n) (hb : b < n) :
    Commute (complement n) (z.on n a * z.on n b) := by
  rw [Commute, SemiconjBy, ← mul_assoc, complement_mul_z ha, neg_mul, mul_assoc, complement_mul_z hb, mul_neg, neg_neg,
    mul_assoc]

end Pauli

/-! ### The Ising chain -/

/-- Every term of the Ising chain commutes with the complement: an `X` does, and so do two `Z`. -/
theorem Chain.commute_complement_ising (id : OwnerId) (field : ℝ) {m : ℕ} (hm : m ≤ n) :
    ∀ t ∈ (pauliSum id (isingSpecs m field)).terms, Commute (complement n) (t.operator n) := by
  intro t ht
  obtain ⟨x, hx, rfl⟩ := mem_terms_pauliSum ht
  refine forall_mem_isingSpecs (n := m) (P := fun x => Commute (complement n) ((pauliProduct x.1 x.2).operator n))
    (fun a b ha hb _ => ?_) (fun q hq => ?_) x hx
  · have ha := ha.trans_le hm
    have hb := hb.trans_le hm
    rw [operator_pauliProduct _ (by simp [ha, hb])]
    refine Commute.smul_right ?_ _
    simpa using Pauli.commute_complement_zz ha hb
  · have hq := hq.trans_le hm
    rw [operator_pauliProduct _ (by simp [hq])]
    refine Commute.smul_right ?_ _
    simpa using Pauli.commute_complement_x hq

/-- A vector that is even or odd under complementing all bits, as an eigenvector. -/
theorem complement_mulVec_of_parity {v : Array ℂ} {e : ℂ} (h : ∀ i < 2 ^ n, v.getD (2 ^ n - 1 - i) 0 = e * v.getD i 0) :
    complement n *ᵥ amplitudes n id v = e • amplitudes n id v := by
  rw [complement_mulVec]
  funext i
  show v.getD i.rev 0 = e * v.getD i 0
  rw [Fin.val_rev, ← h i i.isLt, Nat.sub_sub, Nat.add_comm]

namespace State

variable {v : Array ℂ} {e : ℂ}

/-- What commutes with the complement keeps its eigenvectors. -/
theorem complement_mulVec_transform (hv : complement n *ᵥ amplitudes n id v = e • amplitudes n id v)
    {U : Matrix (Fin (2 ^ n)) (Fin (2 ^ n)) ℂ} (hU : Commute (complement n) U) :
    complement n *ᵥ amplitudes n id (Array.ofFn (U *ᵥ amplitudes n id v)) =
      e • amplitudes n id (Array.ofFn (U *ᵥ amplitudes n id v)) := by
  rw [amplitudes_ofFn, mulVec_mulVec, hU.eq, ← mulVec_mulVec, hv, mulVec_smul]

/-- What changes its sign under the complement has no expectation in a state that keeps its own up to
a phase. -/
theorem expect_eq_zero_of_complement (he : star e * e = 1)
    (hv : complement n *ᵥ amplitudes n id v = e • amplitudes n id v) {A : Matrix (Fin (2 ^ n)) (Fin (2 ^ n)) ℂ}
    (hA : complement n * A = -(A * complement n)) : (vector v).expect A = 0 := by
  have hsame : ((vector v).transform (complement n)).expect A = (vector v).expect A := by
    simp only [transform, expect, amplitudes_ofFn]
    rw [hv, mulVec_smul, star_smul, smul_dotProduct, dotProduct_smul, smul_smul, he, one_smul]
  have hflip : ((vector v).transform (complement n)).expect A = -(vector v).expect A := by
    rw [expect_transform, conjTranspose_complement, hA, neg_mul, mul_assoc, complement_mul_self, mul_one, expect_neg]
  exact self_eq_neg.1 (hsame.symm.trans hflip)

/-- A state that is even or odd under the complement has no magnetization along `Z`. -/
theorem magnetization_eq_zero (he : star e * e = 1)
    (hv : complement n *ᵥ amplitudes n id v = e • amplitudes n id v) : (vector v).magnetization n .z = 0 := by
  rw [magnetization_eq_total, expect_eq_zero_of_complement he hv (Pauli.complement_mul_total_z n), Complex.zero_re,
    zero_div]

end State

/-- In the Ising chain a state vector that is even or odd under complementing all bits has no
magnetization along `Z`, and never gets one: in all records of a run it is zero, for every field, time
step, order and total time. -/
theorem Quench.magnetizationZ_ising (id : OwnerId) (n : ℕ) (hn : 2 ≤ n) (field : ℝ) (settings : Settings ℝ)
    (hsettings : settings.validate = .ok ()) :
    ∃ (h : Hamiltonian ℂ) (q : Quench ℂ ℝ), Chain.ising id n field = .ok h ∧ h.nqubits = n ∧
      prepare h settings = .ok q ∧ ∀ (psi : Array ℂ) (parity : ℂ), (State.vector psi).OnRegister n →
        parity = 1 ∨ parity = -1 → (∀ i < 2 ^ n, psi.getD (2 ^ n - 1 - i) 0 = parity * psi.getD i 0) →
        (∀ total k, q.formula.stepCount total = .ok k →
          ∃ (history : List (Record ℝ)) (final : State ℂ), history.length = k + 1 ∧
            (∀ r ∈ history, r.magnetizationZ = 0) ∧
            ∀ (m : Type → Type) [Monad m] [LawfulMonad m] (onStep : Record ℝ → m Unit),
              (q.run onStep (.vector psi) total).run =
                history.tail.forM onStep >>= fun _ => pure (.ok ⟨history, final⟩)) ∧
        ∀ total e, q.formula.stepCount total = .error e →
          ∀ (m : Type → Type) [Monad m] [LawfulMonad m] (onStep : Record ℝ → m Unit),
            (q.run onStep (.vector psi) total).run = pure (.error e) := by
  have hspans := Chain.spans_isingSpecs hn field
  have hv := Chain.valid_pauliSum id (Chain.isingSpecs n field)
  have hnqubits := hspans.nqubits_eq id
  obtain ⟨q, hq, -, hsymmetry⟩ := hspans.exists_quench id hsettings
  have hcommute := hsymmetry _ (Hamiltonian.commute_operatorSum hv
    (Chain.commute_complement_ising id field hnqubits.ge))
  refine ⟨_, q, Chain.ising_eq_ok id hn field, hnqubits, hq, fun psi parity hs hsign hparity => ?_⟩
  rw [← hnqubits] at hs hparity
  have hphase : star parity * parity = 1 := by
    rcases hsign with rfl | rfl <;> simp
  have heigen := complement_mulVec_of_parity hparity
  obtain ⟨hok, herror⟩ := run_records (P := fun r => r.magnetizationZ = 0) hv hq hs fun k time =>
    State.magnetization_eq_zero hphase (State.complement_mulVec_transform heigen (hcommute.pow_right k))
  refine ⟨fun total k hk => ?_, herror⟩
  obtain ⟨history, final, hlength, -, hzero, hrun⟩ := hok total k hk
  exact ⟨history, final, hlength, hzero, hrun⟩

/-- Four steps of second order from an odd state on three qubits. -/
theorem Quench.magnetizationZ_ising_odd :
    let settings : Settings ℝ := ⟨1 / 4, .second⟩
    let psi : Array ℂ := #[1, 0, Complex.I, 2, -2, -Complex.I, 0, -1]
    settings.validate = .ok () ∧ (∀ i < 8, psi.getD (7 - i) 0 = -1 * psi.getD i 0) ∧
      ∃ (h : Hamiltonian ℂ) (q : Quench ℂ ℝ) (history : List (Record ℝ)) (final : State ℂ),
        Chain.ising ⟨7⟩ 3 (1 / 2) = .ok h ∧ prepare h settings = .ok q ∧
        history.length = 5 ∧ (∀ r ∈ history, r.magnetizationZ = 0) ∧
        ∀ (m : Type → Type) [Monad m] [LawfulMonad m] (onStep : Record ℝ → m Unit),
          (q.run onStep (.vector psi) 1).run = history.tail.forM onStep >>= fun _ => pure (.ok ⟨history, final⟩) := by
  intro settings psi
  have hsettings : settings.validate = .ok () := Settings.validate_eq_ok_iff.2 (by norm_num [settings])
  have hodd : ∀ i < 8, psi.getD (7 - i) 0 = -1 * psi.getD i 0 := by
    intro i hi
    interval_cases i <;> simp [psi]
  obtain ⟨h, q, hh, -, hq, hstates⟩ := magnetizationZ_ising ⟨7⟩ 3 (by norm_num) (1 / 2) settings hsettings
  obtain ⟨hruns, -⟩ := hstates psi (-1) ⟨by decide, rfl⟩ (Or.inr rfl) hodd
  have hcount : q.formula.stepCount 1 = .ok 4 := by
    rw [stepCount_eq hq]
    exact stepCount_eq_ok one_pos (by decide) (by decide) (by norm_num [settings]) (by norm_num [settings])
  obtain ⟨history, final, hlength, hzero, hrun⟩ := hruns 1 4 hcount
  exact ⟨hsettings, hodd, h, q, history, final, hh, hq, hlength, hzero, hrun⟩

end QubitDynamics
