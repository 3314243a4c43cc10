import Mathlib.Analysis.Complex.ExponentialBounds
import QubitDynamics.Proofs.EmbeddedAlgebra
import QubitDynamics.Proofs.Halving
import QubitDynamics.Proofs.Symmetry

/-! Exponentials of embedded matrices. Embedding is a homomorphism of algebras, so it
maps numerator and denominator of the approximant to those of the embedded matrix, and
the quotient to the quotient. It also keeps the norm: every column of an embedding has
the moduli of one column of the matrix. Both matrices are therefore halved and squared
equally often, and exponentiating before or after embedding is the same, although the
two run on matrices of different size and swap different rows. If the terms of a
Hamiltonian form one cluster that acts on a qubit, a step of first order is then the
exponential of the whole Hamiltonian. Constants act on no qubit of the register: their
gate is the exponential of a number, which the approximant of the whole matrix misses. -/

namespace QubitDynamics

open Register

/-! ### Homomorphisms -/

namespace Mat

open Polynomial

variable {d e : ℕ} (φ : Matrix (Fin d) (Fin d) ℂ →ₐ[ℂ] Matrix (Fin e) (Fin e) ℂ) {a b : Mat ℂ}

theorem toMatrix_pade_map (ha : a.HasShape d d) (hb : b.HasShape e e) (hab : b.toMatrix e e = φ (a.toMatrix d d))
    (hunit : IsUnit (aeval (a.toMatrix d d) (denominator ℂ))) :
    (pade b).toMatrix e e = φ ((pade a).toMatrix d d) := by
  have hunit' : IsUnit (aeval (b.toMatrix e e) (denominator ℂ)) := by
    rw [hab, aeval_algHom_apply]
    exact hunit.map φ
  -- both solve the equation of the quotient at the image
  apply hunit'.mul_left_cancel
  rw [denominator_mul_pade ComplexScalar.abs_le_zero_iff hb hunit', hab, aeval_algHom_apply, aeval_algHom_apply,
    ← map_mul, denominator_mul_pade ComplexScalar.abs_le_zero_iff ha hunit]

/-- A homomorphism that keeps the norm of a matrix maps its exponential to that of the image. -/
theorem toMatrix_exponential_map (ha : a.HasShape d d) (hb : b.HasShape e e)
    (hab : b.toMatrix e e = φ (a.toMatrix d d)) (hnorm : (b.oneNorm : ℝ) = a.oneNorm) (hd : 2 ≤ d) (he : 2 ≤ e) :
    b.exponential.toMatrix e e = φ (a.exponential.toMatrix d d) := by
  have hhalved : (b.scale (halfPower a.squarings)).toMatrix e e =
      φ ((a.scale (halfPower a.squarings)).toMatrix d d) := by
    rw [toMatrix_scale hb, toMatrix_scale ha, hab, map_smul]
  rw [toMatrix_exponential hb he, toMatrix_exponential ha hd, squarings_eq_of_oneNorm hnorm, map_pow,
    toMatrix_pade_map φ (ha.scale _) (hb.scale _) hhalved (isUnit_denominator_halved ha)]

end Mat

/-! ### Embeddings -/

namespace Register

variable {n : ℕ} {targets : List ℕ} {a : Mat ℂ}

/-- A column of an embedding has the moduli of one column of the matrix. -/
theorem columnSum_embedding (ht : Targets n targets) (ha : a.HasShape (2 ^ targets.length) (2 ^ targets.length))
    {c : ℕ} (hc : c < 2 ^ n) : (embedding a targets n).columnSum c = a.columnSum (subIndex n targets c) := by
  have hentry (r : Fin (2 ^ n)) : ‖(embedding a targets n).entry r c‖ =
      if spectators n targets c = spectators n targets r then
        ‖a.entry (subIndex n targets r) (subIndex n targets c)‖ else 0 := by
    rw [entry_embedding a targets r.isLt hc]
    by_cases hs : spectators n targets r = spectators n targets c
    · rw [if_pos hs, if_pos hs.symm]
    · rw [if_neg hs, if_neg (Ne.symm hs), norm_zero]
  rw [Mat.columnSum_eq (hasShape_embedding a targets n), Mat.columnSum_eq ha]
  simp only [hentry]
  rw [sum_spectators_eq ht hc fun r => ‖a.entry (subIndex n targets r) (subIndex n targets c)‖]
  exact Finset.sum_congr rfl fun s _ => by rw [subIndex_fill ht c s.isLt]

theorem oneNorm_embedding (ht : Targets n targets) (ha : a.HasShape (2 ^ targets.length) (2 ^ targets.length)) :
    ((embedding a targets n).oneNorm : ℝ) = a.oneNorm := by
  refine Mat.oneNorm_eq_of_columnSum (hasShape_embedding a targets n) ha (fun c hc => ?_) fun s hs => ?_
  · exact ⟨subIndex n targets c, subIndex_lt n targets c, columnSum_embedding ht ha hc⟩
  · have hfill := fill_lt ht (Nat.two_pow_pos n) s
    refine ⟨fill n targets 0 s, hfill, ?_⟩
    rw [columnSum_embedding ht ha hfill, subIndex_fill ht 0 hs]

/-- Exponentiating and embedding can be exchanged, on at least one target. -/
theorem exponential_embedding (ht : Targets n targets) (hne : targets ≠ [])
    (ha : a.HasShape (2 ^ targets.length) (2 ^ targets.length)) :
    (embedding a targets n).exponential = embedding a.exponential targets n := by
  obtain ⟨q, hq⟩ := List.exists_mem_of_ne_nil targets hne
  have hd : 2 ≤ 2 ^ targets.length := Nat.le_self_pow (List.length_pos_of_mem hq).ne' 2
  have he : 2 ≤ 2 ^ n := Nat.le_self_pow (Nat.ne_zero_of_lt (ht.lt q hq)) 2
  have hE := hasShape_embedding a targets n
  have himage : (embedding a targets n).toMatrix (2 ^ n) (2 ^ n) = placement ht (a.toMatrix _ _) :=
    (placement_toMatrix ht ha).symm
  refine (embedding_eq (Mat.hasShape_exponential hE) ?_).symm
  rw [Mat.toMatrix_exponential_map (placement ht) ha hE himage (oneNorm_embedding ht ha) hd he,
    placement_toMatrix ht (Mat.hasShape_exponential ha)]

end Register

/-! ### Multiples of the identity -/

namespace Mat

open Polynomial

theorem oneNorm_scalar_le {d : ℕ} {z : ℂ} {x : ℝ} (hz : ‖z‖ ≤ x) : ((identity d).scale z).oneNorm ≤ x := by
  have hid := hasShape_identity (K := ℂ) d
  refine (oneNorm_le_iff (hid.scale z)).2 ⟨(norm_nonneg z).trans hz, fun j hj => ?_⟩
  have hcolumn : (identity d : Mat ℂ).columnSum j = 1 := by
    rw [columnSum_eq hid, Finset.sum_eq_single (⟨j, hj⟩ : Fin d)]
    · simp [identity, entry_ofFn _ hj hj]
    · intro i _ hi
      have hne : (i : ℕ) ≠ j := fun h => hi (Fin.ext h)
      simp [identity, entry_ofFn _ i.isLt hj, hne]
    · simp
  rwa [columnSum_scale hid z hj, hcolumn, mul_one]

/-- The exponential of a small multiple of the identity is the approximant at the number. -/
theorem denominator_mul_exponential_scalar {d : ℕ} (hd : 2 ≤ d) {z : ℂ} (hz : ‖z‖ ≤ 537 / 100) :
    (denominator ℂ).eval z • ((identity d).scale z).exponential.toMatrix d d =
      algebraMap ℂ (Matrix (Fin d) (Fin d) ℂ) ((numerator ℂ).eval z) := by
  have hid := hasShape_identity (K := ℂ) d
  have hsquarings : ((identity d).scale z).squarings = 0 := by
    have hnorm := oneNorm_scalar_le (d := d) hz
    simp only [squarings, ofDecimal_eq, toReal_radius, if_neg (not_lt.2 hnorm)]
  have hscalar : (((identity d).scale z).scale (halfPower 0)).toMatrix d d = algebraMap ℂ _ z := by
    rw [toMatrix_scale (hid.scale z), toMatrix_scale hid, toMatrix_identity, halfPower, one_smul,
      Algebra.algebraMap_eq_smul_one]
  have hunit := isUnit_denominator_halved (hid.scale z)
  have hpade := denominator_mul_pade ComplexScalar.abs_le_zero_iff ((hid.scale z).scale _) hunit
  rw [hsquarings, hscalar, aeval_algebraMap_apply, aeval_algebraMap_apply, coe_aeval_eq_eval] at hpade
  rw [toMatrix_exponential (hid.scale z) hd, hsquarings, pow_zero, pow_one, Algebra.smul_def, hpade]

/-- The approximant misses the exponential of five. -/
theorem denominator_mul_exp_five_ne : (denominator ℂ).eval 5 * Complex.exp 5 ≠ (numerator ℂ).eval 5 := by
  have hden : (denominator ℂ).eval 5 = ((4694681775823125 : ℝ) : ℂ) := by
    simp only [denominator, parityPart, Finset.sum_range_succ, Finset.sum_range_zero, eval_sub, eval_add, eval_zero,
      eval_monomial, padeCoefficients, List.getD_cons_zero, List.getD_cons_succ, Nat.reduceMul, Nat.reduceAdd]
    norm_num
  have hnum : (numerator ℂ).eval 5 = ((696752553331204375 : ℝ) : ℂ) := by
    simp only [numerator, parityPart, Finset.sum_range_succ, Finset.sum_range_zero, eval_add, eval_zero,
      eval_monomial, padeCoefficients, List.getD_cons_zero, List.getD_cons_succ, Nat.reduceMul, Nat.reduceAdd]
    norm_num
  have hexp : Complex.exp 5 = ((Real.exp 1 ^ 5 : ℝ) : ℂ) := by
    rw [← Real.exp_nat_mul]
    norm_num
  have hle : Real.exp 1 ≤ 363916618873 / 133877442384 + 1 / 10 ^ 20 := by
    have hnear := (abs_sub_le_iff.1 Real.exp_one_near_20).1
    linarith
  have hlt : 4694681775823125 * Real.exp 1 ^ 5 < 696752553331204375 := by
    calc 4694681775823125 * Real.exp 1 ^ 5
        ≤ 4694681775823125 * (363916618873 / 133877442384 + 1 / 10 ^ 20) ^ 5 := by gcongr
      _ < 696752553331204375 := by norm_num
  rw [hden, hnum, hexp, ← Complex.ofReal_mul]
  exact fun h => hlt.ne (Complex.ofReal_injective h)

theorem entry_mul_column_first {m : Mat ℂ} (hm : m.HasShape 2 2) : (m.mul (column #[1, 0])).entry 0 0 = m.entry 0 0 := by
  have hcolumn : (column #[1, 0] : Mat ℂ).HasShape 2 1 := ⟨rfl, rfl⟩
  rw [entry_mul hm hcolumn two_pos one_pos, Fin.sum_univ_two]
  simp [column, entry_ofFn]

end Mat

/-! ### One cluster -/

namespace Hamiltonian

variable {h : Hamiltonian ℂ} {c : Cluster ℕ ℂ}

/-- A term is inside the only cluster. -/
theorem qubitSet_subset_parent (hv : h.Valid) (hc : h.clusters = [c]) {t : Term ℂ} (ht : t ∈ h.terms) :
    t.qubitSet ⊆ c.parent.term.qubitSet := by
  obtain ⟨ms, hterms, harr⟩ := h.arranged_clusters fun t ht => (hv.fits t ht).nodup
  rw [hc] at harr
  rw [← hterms] at ht
  obtain ⟨m, hm, rfl⟩ := List.mem_map.1 ht
  have hmem : m ∈ c.members := by simpa using harr.perm.mem_iff.2 hm
  have hnested := harr.nested c (List.mem_singleton_self c)
  rw [← hnested.support]
  exact hnested.qubitSet_subset hmem

theorem parent_mem_terms (hv : h.Valid) (hc : h.clusters = [c]) : c.parent.term ∈ h.terms := by
  obtain ⟨ms, hterms, harr⟩ := h.arranged_clusters fun t ht => (hv.fits t ht).nodup
  rw [← hterms]
  exact List.mem_map_of_mem (harr.mem_done (by rw [hc]; exact List.mem_singleton_self c) List.mem_cons_self)

/-- The only cluster acts on no qubit if all terms are constants. -/
theorem parent_qubits_eq_nil_iff (hv : h.Valid) (hc : h.clusters = [c]) :
    c.parent.term.qubits = [] ↔ registerSize h.terms = 0 := by
  constructor
  · intro hnil
    refine Nat.le_zero.1 (registerSize_le fun t ht q hq => ?_)
    have hparent := qubitSet_subset_parent hv hc ht (List.mem_toFinset.2 hq)
    rw [Term.qubitSet, hnil] at hparent
    exact absurd hparent (Finset.notMem_empty q)
  · intro hsize
    refine List.eq_nil_iff_forall_not_mem.2 fun q hq => ?_
    have hlt := lt_registerSize (parent_mem_terms hv hc) hq
    omega

/-- The terms of a Hamiltonian with one cluster merge into one term, whose embedding is the matrix of the
Hamiltonian. -/
theorem mergedTerms_of_one_cluster (hv : h.Valid) (hn : h.nqubits < 64) (hone : h.clusters.length = 1) :
    h.terms ≠ [] ∧ ∃ t : Term ℂ, h.mergedTerms (R := ℝ) = .ok [t] ∧ t.Fits h.nqubits ∧
      (t.qubits = [] ↔ registerSize h.terms = 0) ∧ h.matrix (R := ℝ) = .ok (t.embedded h.nqubits) := by
  obtain ⟨c, hc⟩ := List.length_eq_one_iff.1 hone
  obtain ⟨merged, hmerged, hqubits, hfits, hsum⟩ := h.mergedTerms_eq_ok (Term.small_of_fits hn hv.fits) hv.fits (R := ℝ)
  obtain ⟨full, hfull, hshape, hfullsum⟩ := matrixOfSum_eq_ok hn hv.fits (R := ℝ)
  rw [hc, List.map_singleton] at hqubits
  obtain ⟨t, rfl, ht⟩ := List.map_eq_singleton_iff.1 hqubits
  rw [List.map_singleton, List.sum_singleton, ← hfullsum] at hsum
  refine ⟨List.ne_nil_of_mem (parent_mem_terms hv hc), t, hmerged, hfits t (List.mem_singleton_self t), ?_, ?_⟩
  · rw [ht]
    exact parent_qubits_eq_nil_iff hv hc
  · rw [Hamiltonian.matrix, hfull, Term.embedded, embedding_eq hshape hsum]

end Hamiltonian

namespace Term

variable {n : ℕ} {t : Term ℂ}

theorem exp_eq (t : Term ℂ) (x : ℝ) : t.exp x = (t.matrix.scale (-Complex.I * x)).exponential := by
  have hscalar : (ComplexScalar.ofParts 0 (-x) : ℂ) = -Complex.I * x := by
    apply Complex.ext <;> simp [ComplexScalar.ofParts]
  rw [Term.exp, hscalar]

/-- The gate of a term that acts on a qubit is the exponential of the whole embedded term. -/
theorem Fits.operator_expGate (ht : t.Fits n) (hne : t.qubits ≠ []) (x : ℝ) :
    (t.expGate x).operator n = ((t.embedded n).scale (-Complex.I * x)).exponential.toMatrix (2 ^ n) (2 ^ n) := by
  rw [Term.embedded, ← embedding_scale ht.shape, exponential_embedding ht.targets hne (ht.shape.scale _), ← exp_eq]
  rfl

theorem embedded_constant (hnil : t.qubits = []) :
    t.embedded n = (Mat.identity (2 ^ n)).scale (t.matrix.entry 0 0) := by
  have hone := Mat.hasShape_identity (K := ℂ) (2 ^ n)
  rw [Term.embedded, hnil]
  refine embedding_eq (hone.scale _) ?_
  rw [operator_nil, Mat.toMatrix_scale hone, Mat.toMatrix_identity]

theorem scale_embedded_constant (hnil : t.qubits = []) (z : ℂ) :
    (t.embedded n).scale z = (Mat.identity (2 ^ n)).scale (z * t.matrix.entry 0 0) := by
  have hone := Mat.hasShape_identity (K := ℂ) (2 ^ n)
  rw [embedded_constant hnil]
  refine ((hone.scale _).scale _).ext (hone.scale _) ?_
  rw [Mat.toMatrix_scale (hone.scale _), Mat.toMatrix_scale hone, Mat.toMatrix_scale hone, smul_smul]

/-- The gate of a constant is the exponential of a number. -/
theorem Fits.operator_expGate_constant (ht : t.Fits n) (hnil : t.qubits = []) (x : ℝ) :
    (t.expGate x).operator n = ((Mat.identity (2 ^ n)).scale
      (Complex.exp (-Complex.I * x * t.matrix.entry 0 0))).toMatrix (2 ^ n) (2 ^ n) := by
  have hshape : t.matrix.HasShape 1 1 := by simpa [Term.arity, hnil] using ht.shape
  have hentry : (t.matrix.scale (-Complex.I * x)).entry 0 0 = -Complex.I * x * t.matrix.entry 0 0 :=
    congrFun (congrFun (Mat.toMatrix_scale hshape (-Complex.I * x)) 0) 0
  have hexp : (t.exp x).entry 0 0 = Complex.exp (-Complex.I * x * t.matrix.entry 0 0) := by
    rw [exp_eq, Mat.exponential_eq_single (hshape.scale _), hentry]
    exact Mat.entry_ofFn _ Nat.one_pos Nat.one_pos
  rw [Gate.operator, Term.expGate, hnil, operator_nil, hexp, Mat.toMatrix_scale (Mat.hasShape_identity _),
    Mat.toMatrix_identity]

end Term

/-- Terms that form one cluster step by one gate, whose term has the matrix of the whole Hamiltonian. A vector is
multiplied by every stored matrix that the gate acts as. -/
theorem ProductFormula.step_of_one_cluster {h : Hamiltonian ℂ} (hv : h.Valid) (hn : h.nqubits < 64)
    (hone : h.clusters.length = 1) {dt : ℝ} (hdt : 0 < dt) :
    ∃ (t : Term ℂ) (f : ProductFormula ℂ ℝ), h.mergedTerms (R := ℝ) = .ok [t] ∧ prepare h ⟨dt, .first⟩ = .ok f ∧
      h.matrix (R := ℝ) = .ok (t.embedded h.nqubits) ∧ t.Fits h.nqubits ∧
      (t.qubits = [] ↔ Hamiltonian.registerSize h.terms = 0) ∧
      ∀ psi : Array ℂ, psi.size = 2 ^ h.nqubits → ∃ phi : Array ℂ, f.step (.vector psi) = .ok (.vector phi) ∧
        ∀ m : Mat ℂ, m.HasShape (2 ^ h.nqubits) (2 ^ h.nqubits) →
          (t.expGate dt).operator h.nqubits = m.toMatrix (2 ^ h.nqubits) (2 ^ h.nqubits) →
          Mat.column phi = m.mul (Mat.column psi) := by
  obtain ⟨hne, t, hmerged, ht, hnil, hfull⟩ := Hamiltonian.mergedTerms_of_one_cluster hv hn hone
  have hsettings : (⟨dt, .first⟩ : Settings ℝ).validate = .ok () := Settings.validate_eq_ok_iff.2 hdt
  have hf := prepare_eq_ok_iff.2 ⟨hsettings, hne, [t], hmerged, rfl⟩
  refine ⟨t, _, hmerged, hf, hfull, ht, hnil, fun psi hpsi => ?_⟩
  have hgates : ∀ g ∈ [t.expGate dt], g.Fits h.nqubits := List.forall_mem_singleton.2 (ht.expGate dt)
  refine ⟨_, step_eq_ok hgates ⟨hn, hpsi⟩, fun m hm hgate => column_eq_mul hm Array.size_ofFn hpsi ?_⟩
  have hsequence : sequence h.nqubits [t.expGate dt] = (t.expGate dt).operator h.nqubits := one_mul _
  rw [amplitudes_ofFn, ← hgate, ← hsequence]
  rfl

/-- On fewer than sixty-four qubits exponentiating and embedding on distinct targets can be exchanged. Hence a step of
first order multiplies by the exponential of the whole Hamiltonian if its terms form one cluster and act on a qubit.
Constants alone act on none, on any register: their gate is the exponential of a number, without the approximant. -/
theorem embed_exponential :
    (∀ (n : ℕ) (targets : List ℕ), n < 64 → Targets n targets → targets ≠ [] →
      ∀ a : Mat ℂ, a.HasShape (2 ^ targets.length) (2 ^ targets.length) →
        ∃ full : Mat ℂ, embed a targets n = .ok full ∧ embed a.exponential targets n = .ok full.exponential) ∧
    ∀ h : Hamiltonian ℂ, h.Valid → h.nqubits < 64 → h.clusters.length = 1 → ∀ dt : ℝ, 0 < dt →
      ∃ (f : ProductFormula ℂ ℝ) (full : Mat ℂ),
        ProductFormula.prepare h ⟨dt, .first⟩ = .ok f ∧ h.matrix (R := ℝ) = .ok full ∧
          ∀ psi : Array ℂ, psi.size = 2 ^ h.nqubits → ∃ phi : Array ℂ,
            f.step (.vector psi) = .ok (.vector phi) ∧
              (0 < Hamiltonian.registerSize h.terms →
                Mat.column phi = (full.scale (-Complex.I * dt)).exponential.mul (Mat.column psi)) ∧
              (Hamiltonian.registerSize h.terms = 0 → ∃ k : ℂ, full = (Mat.identity (2 ^ h.nqubits)).scale k ∧
                Mat.column phi = ((Mat.identity (2 ^ h.nqubits)).scale
                  (Complex.exp (-Complex.I * dt * k))).mul (Mat.column psi)) := by
  constructor
  · intro n targets hn ht hne a ha
    refine ⟨_, ht.embed_eq hn ha, ?_⟩
    rw [ht.embed_eq hn (Mat.hasShape_exponential ha), exponential_embedding ht hne ha]
  · intro h hv hn hone dt hdt
    obtain ⟨t, f, -, hf, hfull, ht, hnil, hstep⟩ := ProductFormula.step_of_one_cluster hv hn hone hdt
    refine ⟨f, _, hf, hfull, fun psi hpsi => ?_⟩
    obtain ⟨phi, hphi, hcolumn⟩ := hstep psi hpsi
    refine ⟨phi, hphi, fun hsize => ?_, fun hsize => ⟨t.matrix.entry 0 0, ?_, ?_⟩⟩
    · have hqubit : t.qubits ≠ [] := fun hnone => hsize.ne' (hnil.1 hnone)
      exact hcolumn _ (Mat.hasShape_exponential ((hasShape_embedding _ _ _).scale _)) (ht.operator_expGate hqubit dt)
    · exact Term.embedded_constant (hnil.2 hsize)
    · exact hcolumn _ ((Mat.hasShape_identity _).scale _) (ht.operator_expGate_constant (hnil.2 hsize) dt)

/-- A pair of qubits, last one first, with a term on one of them and a constant, on a register of four. -/
theorem embed_exponential_pair :
    let part (d : ℕ) : Mat ℂ := .ofFn d d fun r c => 3 * r + c * Complex.I
    let terms : List (Term ℂ) :=
      [⟨.dense [] (part 1), none⟩, ⟨.dense [0] (part 2), none⟩, ⟨.dense [2, 0] (part 4), none⟩]
    let h : Hamiltonian ℂ := { Hamiltonian.ofTerms ⟨7⟩ terms with nqubits := 4 }
    let psi : Array ℂ := Array.ofFn fun i : Fin (2 ^ 4) => i * Complex.I
    (part 4).HasShape 4 4 ∧ Targets 4 [2, 0] ∧ h.Valid ∧ h.nqubits < 64 ∧ h.clusters.length = 1 ∧
      0 < Hamiltonian.registerSize h.terms ∧
      (∃ full : Mat ℂ, embed (part 4) [2, 0] 4 = .ok full ∧
        embed (part 4).exponential [2, 0] 4 = .ok full.exponential) ∧
      ∃ (f : ProductFormula ℂ ℝ) (full : Mat ℂ) (phi : Array ℂ),
        ProductFormula.prepare h ⟨1 / 4, .first⟩ = .ok f ∧ h.matrix (R := ℝ) = .ok full ∧
          f.step (.vector psi) = .ok (.vector phi) ∧
            Mat.column phi = (full.scale (-Complex.I * (1 / 4 : ℝ))).exponential.mul (Mat.column psi) := by
  intro part terms h psi
  have hshape (d : ℕ) : (part d).HasShape d d := ⟨rfl, rfl⟩
  have ht : Targets 4 [2, 0] := ⟨by decide, by decide⟩
  have hwf : ∀ t ∈ terms, t.WellFormed := by
    simp only [terms, List.forall_mem_cons]
    exact ⟨⟨by decide, hshape 1⟩, ⟨by decide, hshape 2⟩, ⟨by decide, hshape 4⟩, by simp⟩
  have hv : h.Valid := (Hamiltonian.valid_ofTerms hwf ⟨7⟩).widen (Hamiltonian.widen_eq_ok (R := ℝ) (by decide))
  have hn : h.nqubits < 64 := by decide
  have hone : h.clusters.length = 1 := rfl
  have hsize : 0 < Hamiltonian.registerSize h.terms := by decide
  have hpsi : psi.size = 2 ^ 4 := Array.size_ofFn
  obtain ⟨hembed, hstep⟩ := embed_exponential
  obtain ⟨f, full, hf, hfull, hsteps⟩ := hstep h hv hn hone (1 / 4) (by norm_num)
  obtain ⟨phi, hphi, hcolumn, -⟩ := hsteps psi hpsi
  exact ⟨hshape 4, ht, hv, hn, hone, hsize, hembed 4 [2, 0] (by decide) ht (by decide) (part 4) (hshape 4), f, full,
    phi, hf, hfull, hphi, hcolumn hsize⟩

/-- A constant on one qubit, where the matrix of its gate is not the exponential of the whole matrix. -/
theorem step_constant_ne_exponential :
    let shift : Term ℂ := ⟨.dense [] (.single (5 * Complex.I)), none⟩
    ∃ (h : Hamiltonian ℂ) (f : ProductFormula ℂ ℝ) (full : Mat ℂ) (phi : Array ℂ),
      (Hamiltonian.ofTerms ⟨7⟩ [shift]).widen 1 = (.ok h : Except (DynamicsError ℝ) _) ∧ h.Valid ∧ h.nqubits = 1 ∧
      h.clusters.length = 1 ∧ ProductFormula.prepare h ⟨1, .first⟩ = .ok f ∧ h.matrix (R := ℝ) = .ok full ∧
      f.step (.vector #[1, 0]) = .ok (.vector phi) ∧
      Mat.column phi ≠ (full.scale (-Complex.I * (1 : ℝ))).exponential.mul (Mat.column #[1, 0]) := by
  intro shift
  have hshift : shift.WellFormed := ⟨by decide, rfl, rfl⟩
  have hwiden : (Hamiltonian.ofTerms ⟨7⟩ [shift]).widen 1 =
      (.ok ⟨⟨7⟩, 1, [shift.withOwner ⟨7⟩]⟩ : Except (DynamicsError ℝ) _) := Hamiltonian.widen_eq_ok (by decide)
  have hv := (Hamiltonian.valid_ofTerms (by simpa using hshift) ⟨7⟩).widen hwiden
  obtain ⟨t, f, hmerged, hf, hfull, ht, -, hstep⟩ :=
    ProductFormula.step_of_one_cluster hv (by decide) rfl (one_pos : (0 : ℝ) < 1)
  obtain rfl : shift.withOwner ⟨7⟩ = t := by
    have hone : Hamiltonian.mergedTerms (R := ℝ) ⟨⟨7⟩, 1, [shift.withOwner ⟨7⟩]⟩ = .ok [shift.withOwner ⟨7⟩] := rfl
    simpa using Except.ok.inj (hone.symm.trans hmerged)
  obtain ⟨phi, hphi, hcolumn⟩ := hstep #[1, 0] rfl
  refine ⟨_, f, _, phi, hwiden, hv, rfl, rfl, hf, hfull, hphi, fun hwhole => ?_⟩
  have hid := Mat.hasShape_identity (K := ℂ) 2
  have hfive : -Complex.I * (1 : ℝ) * (shift.withOwner ⟨7⟩).matrix.entry 0 0 = 5 := by
    have hentry : (shift.withOwner ⟨7⟩).matrix.entry 0 0 = 5 * Complex.I :=
      Mat.entry_ofFn (fun _ _ => 5 * Complex.I) one_pos one_pos
    rw [hentry, Complex.ofReal_one]
    linear_combination -5 * Complex.I_mul_I
  -- the gate multiplies by the exponential of five, the matrix by its approximant
  have hgate := hcolumn _ (hid.scale _) (ht.operator_expGate_constant rfl 1)
  rw [hgate, Term.scale_embedded_constant rfl, hfive] at hwhole
  have hnumber : Complex.exp 5 = ((Mat.identity 2).scale (5 : ℂ)).exponential.entry 0 0 := by
    calc Complex.exp 5 = ((Mat.identity 2).scale (Complex.exp 5)).entry 0 0 := by
          simp [Mat.scale, Mat.identity, Mat.entry_ofFn]
      _ = (((Mat.identity 2).scale (Complex.exp 5)).mul (Mat.column #[1, 0])).entry 0 0 :=
          (Mat.entry_mul_column_first (hid.scale _)).symm
      _ = (((Mat.identity 2).scale (5 : ℂ)).exponential.mul (Mat.column #[1, 0])).entry 0 0 :=
          congrArg (Mat.entry · 0 0) hwhole
      _ = ((Mat.identity 2).scale (5 : ℂ)).exponential.entry 0 0 :=
          Mat.entry_mul_column_first (Mat.hasShape_exponential (hid.scale _))
  have happroximant := congrFun (congrFun (Mat.denominator_mul_exponential_scalar le_rfl (z := 5) (by norm_num)) 0) 0
  refine Mat.denominator_mul_exp_five_ne ?_
  rw [hnumber]
  simpa [Matrix.algebraMap_matrix_apply] using happroximant

end QubitDynamics
