import QubitDynamics.Evolution.ProductFormula
import QubitDynamics.Proofs.Approximant
import QubitDynamics.Proofs.Merging
import QubitDynamics.Proofs.StateAction

/-! Steps of a product formula as operators. Gates that act one after the other have
the product of their operators, the first gate standing rightmost. A product formula
can be prepared for every Hamiltonian with a term and every admissible time step; all
its gates then fit the register, so that a step never fails, and `k` steps transform
a state by the `k`-th power of one operator. If the terms of the Hamiltonian are
Hermitian, so are its merged terms. All gates are then unitary, and so is every power
of the operator: no number of steps changes the norm of a state. -/

namespace QubitDynamics

open Matrix

variable {n : ℕ}

/-! ### Durations -/

theorem Settings.isDuration_iff {x : ℝ} : Settings.isDuration x = true ↔ 0 < x := by
  simp [Settings.isDuration, RealScalar.isFinite]

theorem Settings.validate_eq_ok_iff {settings : Settings ℝ} : settings.validate = .ok () ↔ 0 < settings.dt := by
  simp [Settings.validate, isDuration_iff]

/-- The number of steps is the rounded quotient, unless that is zero or the total no duration. -/
theorem stepCount_eq_ok_iff {R : Type} [Zero R] [Div R] [LT R] [DecidableLT R] [RealScalar R] {total dt : R} {n : ℕ} :
    stepCount total dt = .ok n ↔
      Settings.isDuration total = true ∧ n ≠ 0 ∧ RealScalar.roundNat (total / dt) = n := by
  unfold stepCount
  by_cases htotal : Settings.isDuration total = true
  · cases hround : RealScalar.roundNat (total / dt) with
    | zero => simp [htotal, eq_comm]
    | succ k =>
      simp only [htotal, Bool.not_true, Bool.false_eq_true, if_false, Except.ok.injEq, true_and]
      omega
  · simp [htotal]

/-- A total time within half a step of `n` steps takes `n` steps. -/
theorem stepCount_eq_ok {total dt : ℝ} {n : ℕ} (htotal : 0 < total) (hn : n ≠ 0) (hword : n < UInt64.size)
    (hlow : n ≤ total / dt + 1 / 2) (hhigh : total / dt + 1 / 2 < n + 1) : stepCount total dt = .ok n := by
  have hfloor : ⌊total / dt + 1 / 2⌋₊ = n := (Nat.floor_eq_iff' hn).2 ⟨hlow, hhigh⟩
  refine stepCount_eq_ok_iff.2 ⟨Settings.isDuration_iff.2 htotal, hn, ?_⟩
  show min ⌊total / dt + 1 / 2⌋₊ (UInt64.size - 1) = n
  rw [hfloor]
  omega

/-! ### Gates in a row -/

/-- The operator of gates that act one after the other. -/
noncomputable def sequence (n : ℕ) : List (Gate ℂ) → Matrix (Fin (2 ^ n)) (Fin (2 ^ n)) ℂ
  | [] => 1
  | g :: gates => sequence n gates * g.operator n

theorem applyGates_eq_ok {gates : List (Gate ℂ)} (hgates : ∀ g ∈ gates, g.Fits n) {s : State ℂ}
    (hs : s.OnRegister n) : applyGates (R := ℝ) gates s = .ok (s.transform (sequence n gates)) := by
  induction gates generalizing s with
  | nil => rw [sequence, State.transform_one hs.shape]; rfl
  | cons g gates ih =>
    rw [applyGates, List.foldlM_cons, (hgates g List.mem_cons_self).apply_eq_ok hs, sequence,
      ← State.transform_transform]
    exact ih (fun g' hg' => hgates g' (List.mem_cons_of_mem g hg')) (hs.transform _)

theorem sequence_mem_unitaryGroup {gates : List (Gate ℂ)}
    (hgates : ∀ g ∈ gates, g.operator n ∈ unitaryGroup (Fin (2 ^ n)) ℂ) :
    sequence n gates ∈ unitaryGroup (Fin (2 ^ n)) ℂ := by
  induction gates with
  | nil => exact one_mem _
  | cons g gates ih =>
    exact mul_mem (ih fun g' hg' => hgates g' (List.mem_cons_of_mem g hg')) (hgates g List.mem_cons_self)

/-! ### Steps -/

namespace ProductFormula

noncomputable def operator (n : ℕ) (f : ProductFormula ℂ ℝ) : Matrix (Fin (2 ^ n)) (Fin (2 ^ n)) ℂ :=
  match f.settings.order with
  | .first => sequence n f.gates
  | .second => sequence n f.gates.reverse * sequence n f.gates

variable {f : ProductFormula ℂ ℝ} {s : State ℂ}

theorem step_eq_ok (hf : ∀ g ∈ f.gates, g.Fits n) (hs : s.OnRegister n) :
    f.step s = .ok (s.transform (f.operator n)) := by
  unfold step operator
  cases f.settings.order with
  | first => exact applyGates_eq_ok hf hs
  | second =>
    have hreverse : ∀ g ∈ f.gates.reverse, g.Fits n := fun g hg => hf g (List.mem_reverse.1 hg)
    rw [applyGates_eq_ok hf hs, ← State.transform_transform]
    exact applyGates_eq_ok hreverse (hs.transform _)

/-- After `k` steps a state has been transformed by the `k`-th power of the operator of one step. -/
theorem steps_eq_ok (hf : ∀ g ∈ f.gates, g.Fits n) (hs : s.OnRegister n) (k : ℕ) :
    f.steps k s = .ok (s.transform (f.operator n ^ k)) := by
  induction k generalizing s with
  | zero => rw [steps, pow_zero, State.transform_one hs.shape]
  | succ k ih =>
    rw [steps, step_eq_ok hf hs, pow_succ, ← State.transform_transform]
    exact ih (hs.transform _)

end ProductFormula

/-! ### Preparation -/

/-- How long a gate of one step acts. -/
noncomputable def Settings.slice (settings : Settings ℝ) : ℝ :=
  match settings.order with
  | .first => settings.dt
  | .second => settings.dt / (2 : ℕ)

section

variable {K R : Type} [Zero K] [One K] [Add K] [Sub K] [Mul K] [Div K] [NatCast K] [ComplexScalar K R]
variable [Zero R] [Add R] [Neg R] [Div R] [LT R] [DecidableLT R] [LE R] [DecidableLE R] [RealScalar R]

theorem Term.Fits.expGate {t : Term K} (ht : t.Fits n) (x : R) : (t.expGate x).Fits n where
  targets := ht.targets
  shape := Mat.hasShape_exponential (ht.shape.scale _)

end

namespace ProductFormula

variable {h : Hamiltonian ℂ} {settings : Settings ℝ} {f : ProductFormula ℂ ℝ}

theorem prepare_eq_ok_iff : prepare h settings = .ok f ↔
    settings.validate = .ok () ∧ h.terms ≠ [] ∧ ∃ merged, h.mergedTerms (R := ℝ) = .ok merged ∧
      f = ⟨h.nqubits, settings, merged.map (·.expGate settings.slice)⟩ := by
  unfold prepare
  cases hsettings : settings.validate with
  | error e => simp [bind, Except.bind]
  | ok u =>
    cases hempty : h.terms.isEmpty with
    | true => simp_all [bind, Except.bind, throw, throwThe, MonadExceptOf.throw]
    | false =>
      have hne : h.terms ≠ [] := by simpa using hempty
      cases hmerged : h.mergedTerms (R := ℝ) with
      | error e => simp [bind, Except.bind]
      | ok merged =>
        simp only [bind, Except.bind, pure, Except.pure, Except.ok.injEq, ne_eq, hne, not_false_eq_true, true_and,
          exists_eq_left', Bool.false_eq_true, if_false]
        exact eq_comm

/-- A valid Hamiltonian with small terms, and at least one, has a product formula. -/
theorem exists_prepare_eq_ok (hv : h.Valid) (hsmall : Term.Small h.terms) (hne : h.terms ≠ [])
    (hsettings : settings.validate = .ok ()) : ∃ f, prepare h settings = .ok f := by
  obtain ⟨merged, hmerged, -⟩ := h.mergedTerms_eq_operatorSum hsmall hv.fits (R := ℝ)
  exact ⟨_, prepare_eq_ok_iff.2 ⟨hsettings, hne, merged, hmerged, rfl⟩⟩

/-- The gates of a product formula fit the register. -/
theorem fits_gates (hv : h.Valid) (hsmall : Term.Small h.terms) (hf : prepare h settings = .ok f) :
    ∀ g ∈ f.gates, g.Fits h.nqubits := by
  obtain ⟨-, -, merged, hmerged, rfl⟩ := prepare_eq_ok_iff.1 hf
  intro g hg
  obtain ⟨t, ht, rfl⟩ := List.mem_map.1 hg
  exact (h.operator_of_mem_mergedTerms hsmall hv.fits hmerged ht).1.expGate _

end ProductFormula

/-! ### Hermitian terms -/

namespace Term

variable {t : Term ℂ}

theorem Fits.operator_mem_selfAdjoint (ht : t.Fits n) :
    t.operator n ∈ selfAdjoint (Matrix (Fin (2 ^ n)) (Fin (2 ^ n)) ℂ) ↔ t.matrix.conjTranspose = t.matrix := by
  rw [selfAdjoint.mem_iff, star_eq_conjTranspose, operator, ← Register.operator_conjTranspose ht.shape]
  exact ⟨Register.operator_injective ht.targets ht.shape.conjTranspose ht.shape, congrArg _⟩

/-- The exponent of the gate of a Hermitian term is skew-Hermitian. -/
theorem WellFormed.conjTranspose_exponent (ht : t.WellFormed) (hherm : t.matrix.conjTranspose = t.matrix) (x : ℝ) :
    ((t.matrix.scale (ComplexScalar.ofParts 0 (-x))).toMatrix (2 ^ t.arity) (2 ^ t.arity))ᴴ =
      -(t.matrix.scale (ComplexScalar.ofParts 0 (-x))).toMatrix (2 ^ t.arity) (2 ^ t.arity) := by
  have hstar : star (ComplexScalar.ofParts 0 (-x) : ℂ) = -ComplexScalar.ofParts 0 (-x) := by
    apply Complex.ext <;> simp [ComplexScalar.ofParts]
  rw [Mat.toMatrix_scale ht.shape, conjTranspose_smul, ← Mat.toMatrix_conjTranspose ht.shape, hherm, hstar, neg_smul]

/-- The exponential of a Hermitian term is unitary. -/
theorem WellFormed.exp_mem_unitaryGroup (ht : t.WellFormed) (hherm : t.matrix.conjTranspose = t.matrix) (x : ℝ) :
    (t.exp x).toMatrix (2 ^ t.arity) (2 ^ t.arity) ∈ unitaryGroup (Fin (2 ^ t.arity)) ℂ :=
  Mat.exponential_mem_unitaryGroup (ht.shape.scale _) (ht.conjTranspose_exponent hherm x)

end Term

/-- Merging keeps terms Hermitian. -/
theorem Hamiltonian.conjTranspose_mergedTerms {h : Hamiltonian ℂ} (hsmall : Term.Small h.terms)
    (hfits : ∀ t ∈ h.terms, t.Fits n)
    (hherm : ∀ t ∈ h.terms, t.matrix.conjTranspose = t.matrix) {merged : List (Term ℂ)}
    (hmerged : h.mergedTerms (R := ℝ) = .ok merged) : ∀ t ∈ merged, t.matrix.conjTranspose = t.matrix := by
  intro t ht
  obtain ⟨htfits, parts, hparts, hsum⟩ := h.operator_of_mem_mergedTerms hsmall hfits hmerged ht
  rw [← htfits.operator_mem_selfAdjoint, hsum]
  refine list_sum_mem fun A hA => ?_
  obtain ⟨u, hu, rfl⟩ := List.mem_map.1 hA
  exact (hfits u (hparts hu)).operator_mem_selfAdjoint.2 (hherm u (hparts hu))

namespace ProductFormula

/-- The step of a Hamiltonian with Hermitian terms is unitary. -/
theorem operator_mem_unitaryGroup {h : Hamiltonian ℂ} (hv : h.Valid) (hsmall : Term.Small h.terms)
    (hherm : ∀ t ∈ h.terms, t.matrix.conjTranspose = t.matrix) {settings : Settings ℝ} {f : ProductFormula ℂ ℝ}
    (hf : prepare h settings = .ok f) : f.operator h.nqubits ∈ unitaryGroup (Fin (2 ^ h.nqubits)) ℂ := by
  have hgates : ∀ g ∈ f.gates, g.operator h.nqubits ∈ unitaryGroup (Fin (2 ^ h.nqubits)) ℂ := by
    obtain ⟨-, -, merged, hmerged, rfl⟩ := prepare_eq_ok_iff.1 hf
    intro g hg
    obtain ⟨t, ht, rfl⟩ := List.mem_map.1 hg
    have hfits := (h.operator_of_mem_mergedTerms hsmall hv.fits hmerged ht).1
    refine Register.operator_mem_unitaryGroup hfits.targets (hfits.expGate _).shape ?_
    exact hfits.exp_mem_unitaryGroup (Hamiltonian.conjTranspose_mergedTerms hsmall hv.fits hherm hmerged t ht) _
  unfold operator
  cases f.settings.order with
  | first => exact sequence_mem_unitaryGroup hgates
  | second =>
    refine mul_mem (sequence_mem_unitaryGroup fun g hg => hgates g ?_) (sequence_mem_unitaryGroup hgates)
    exact List.mem_reverse.1 hg

/-- Under a Hamiltonian with Hermitian terms, on a register that has states, every number of steps keeps the norm of
every state: the squared norm of a vector, the trace of a density matrix. -/
theorem normSq_steps (h : Hamiltonian ℂ) (hv : h.Valid) (hn : h.nqubits < 64) (hne : h.terms ≠ [])
    (hherm : ∀ t ∈ h.terms, t.matrix.conjTranspose = t.matrix) (settings : Settings ℝ)
    (hsettings : settings.validate = .ok ()) :
    ∃ f : ProductFormula ℂ ℝ, prepare h settings = .ok f ∧
      ∀ s : State ℂ, s.OnRegister h.nqubits → ∀ k : ℕ,
        ∃ s' : State ℂ, f.steps k s = .ok s' ∧ s'.OnRegister h.nqubits ∧ s'.normSq = s.normSq := by
  have hsmall := Term.small_of_fits hn hv.fits
  obtain ⟨f, hf⟩ := exists_prepare_eq_ok hv hsmall hne hsettings
  refine ⟨f, hf, fun s hs k => ?_⟩
  refine ⟨_, steps_eq_ok (fits_gates hv hsmall hf) hs k, hs.transform _, State.normSq_transform ?_ hs.shape⟩
  exact mem_unitaryGroup_iff'.1 (pow_mem (operator_mem_unitaryGroup hv hsmall hherm hf) k)

/-- A constant, a one-qubit term and a pair in descending order, with a qubit that no term acts on. -/
theorem normSq_steps_widened :
    let hermitian (d : ℕ) : Mat ℂ := .ofFn d d fun r c => (1 + r + c) + (r - c) * Complex.I
    let terms : List (Term ℂ) :=
      [⟨.dense [] (hermitian 1), none⟩, ⟨.dense [0] (hermitian 2), none⟩, ⟨.dense [2, 0] (hermitian 4), none⟩]
    let h : Hamiltonian ℂ := { Hamiltonian.ofTerms ⟨7⟩ terms with nqubits := 4 }
    let settings : Settings ℝ := ⟨1 / 4, .second⟩
    h.Valid ∧ h.nqubits < 64 ∧ h.terms ≠ [] ∧ (∀ t ∈ h.terms, t.matrix.conjTranspose = t.matrix) ∧
      settings.validate = .ok () ∧ ∃ f : ProductFormula ℂ ℝ, prepare h settings = .ok f ∧
        ∀ s : State ℂ, s.OnRegister h.nqubits → ∀ k : ℕ,
          ∃ s' : State ℂ, f.steps k s = .ok s' ∧ s'.OnRegister h.nqubits ∧ s'.normSq = s.normSq := by
  intro hermitian terms h settings
  have hshape (d : ℕ) : (hermitian d).HasShape d d := ⟨rfl, rfl⟩
  have hself (d : ℕ) : (hermitian d).conjTranspose = hermitian d := by
    refine (hshape d).conjTranspose.ext (hshape d) ?_
    rw [Mat.toMatrix_conjTranspose (hshape d), Mat.toMatrix_ofFn]
    ext r c
    simp only [conjTranspose_apply, of_apply, star_add, star_sub, star_mul', star_one, star_natCast, Complex.star_def,
      Complex.conj_I]
    ring
  have hwf : ∀ t ∈ terms, t.WellFormed := by
    simp only [terms, List.forall_mem_cons]
    exact ⟨⟨by decide, hshape 1⟩, ⟨by decide, hshape 2⟩, ⟨by decide, hshape 4⟩, by simp⟩
  have hv : h.Valid := (Hamiltonian.valid_ofTerms hwf ⟨7⟩).widen (Hamiltonian.widen_eq_ok (R := ℝ) (by decide))
  have hne : h.terms ≠ [] := by simp [h, terms, Hamiltonian.ofTerms]
  have hherm : ∀ t ∈ h.terms, t.matrix.conjTranspose = t.matrix := by
    simp only [h, terms, Hamiltonian.ofTerms, List.map_cons, List.map_nil, List.forall_mem_cons]
    exact ⟨hself 1, hself 2, hself 4, by simp⟩
  have hsettings : settings.validate = .ok () := Settings.validate_eq_ok_iff.2 (by norm_num [settings])
  have hn : h.nqubits < 64 := by decide
  exact ⟨hv, hn, hne, hherm, hsettings, normSq_steps h hv hn hne hherm settings hsettings⟩

end ProductFormula

end QubitDynamics
