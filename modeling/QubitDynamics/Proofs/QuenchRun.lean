import QubitDynamics.Evolution.Quench
import QubitDynamics.Proofs.PauliTerms
import QubitDynamics.Proofs.StepOperator

/-! Quenches step by step. Energy and magnetizations are the expectations of fixed
operators, so that every state of the register has a record. A run follows the
states that the steps make of its initial state: it hands the record of each of them
to its observer, in order, and returns all of them with the last state. Since steps
are operators, the projector on a pure state stays the projector on the evolved
state, and a run from it keeps exactly the same records. -/

namespace QubitDynamics

open Register Matrix

/-! ### Energies and magnetizations -/

namespace Hamiltonian

def operator (h : Hamiltonian ℂ) : Matrix (Fin (2 ^ h.nqubits)) (Fin (2 ^ h.nqubits)) ℂ :=
  (h.terms.map (Term.operator h.nqubits)).sum

/-- The energy of a state is the expectation of the operator, whoever owns the terms. -/
theorem expectation_eq_ok_of_fits {h : Hamiltonian ℂ} (hterms : ∀ t ∈ h.terms, t.Fits h.nqubits) {s : State ℂ}
    (hs : s.OnRegister h.nqubits) : h.expectation s = .ok (s.expect h.operator).re := by
  have hsmall := Term.small_of_fits hs.addressable hterms
  obtain ⟨merged, hmerged, -, hfits, hsum⟩ := h.mergedTerms_eq_ok hsmall hterms (R := ℝ)
  have hpart : ∀ t ∈ merged, ∀ energy : ℂ, (do
      let full ← (embed t.matrix t.qubits h.nqubits).mapError DynamicsError.state
      let part ← (s.expectation full).mapError DynamicsError.state
      return energy + part : Except (DynamicsError ℝ) ℂ) = .ok (energy + s.expect (t.operator h.nqubits)) := by
    intro t ht energy
    have hexpect := State.expectation_eq_ok (hasShape_embedding t.matrix t.qubits h.nqubits) hs.shape
    simp only [(hfits t ht).embed_eq hs.addressable, Term.embedded, Except.mapError, bind, Except.bind, hexpect]
    rfl
  rw [expectation, hmerged, operator, ← hsum, State.expect_sum, List.map_map]
  refine (congrArg (· >>= fun energy => pure energy.re) (foldlM_eq_sum hpart 0)).trans ?_
  rw [zero_add]
  rfl

/-- The energy of a state is the expectation of the Hamiltonian. -/
theorem expectation_eq_ok {h : Hamiltonian ℂ} (hv : h.Valid) {s : State ℂ} (hs : s.OnRegister h.nqubits) :
    h.expectation s = .ok (s.expect h.operator).re := expectation_eq_ok_of_fits hv.fits hs

end Hamiltonian

/-- The mean over all qubits of the expectations of a Pauli operator. -/
noncomputable def State.magnetization (n : ℕ) (p : Pauli) (s : State ℂ) : ℝ :=
  ((List.range n).map fun q => (s.expect (Register.operator n [q] p.matrix)).re).sum / n

namespace Quench

noncomputable def siteMatrices (p : Pauli) (n : ℕ) : List (Mat ℂ) :=
  (List.range n).map fun q => fullMatrix p.matrix [q] n

theorem sites_eq_ok (p : Pauli) (n : ℕ) : sites (R := ℝ) p n = .ok (siteMatrices p n) := by
  have hembed : ∀ q ∈ List.range n, embed (p.matrix : Mat ℂ) [q] n = .ok (fullMatrix p.matrix [q] n) := by
    intro q hq
    exact embed_eq_fullMatrix (by simpa using hq) (by simp) p.hasShape_matrix
  rw [sites, mapM_eq_ok_map hembed]
  rfl

theorem siteMatrices_eq (p : Pauli) {n : ℕ} (hn : n < 64) :
    siteMatrices p n = (List.range n).map fun q => embedding p.matrix [q] n :=
  List.map_congr_left fun _ _ => fullMatrix_eq_embedding hn (by simp) _

theorem mean_eq_ok (p : Pauli) {n : ℕ} {s : State ℂ} (hs : s.OnRegister n) :
    mean (R := ℝ) (siteMatrices p n) s = .ok (s.magnetization n p) := by
  rw [siteMatrices_eq p hs.addressable]
  have hpart : ∀ o ∈ (List.range n).map fun q => embedding (p.matrix : Mat ℂ) [q] n, ∀ total : ℝ, (do
      return total + ComplexScalar.re (← (s.expectation o).mapError DynamicsError.state) :
        Except (DynamicsError ℝ) ℝ) = .ok (total + (s.expect (o.toMatrix (2 ^ n) (2 ^ n))).re) := by
    intro o ho total
    obtain ⟨q, -, rfl⟩ := List.mem_map.1 ho
    rw [State.expectation_eq_ok (hasShape_embedding _ _ _) hs.shape]
    rfl
  unfold mean
  split
  · rename_i hempty
    obtain rfl : n = 0 := by simpa using hempty
    simp [State.magnetization]
  · refine (congrArg (· >>= fun total => pure (total / _)) (foldlM_eq_sum hpart 0)).trans ?_
    rw [zero_add, List.map_map, List.length_map, List.length_range]
    rfl

end Quench

noncomputable def Hamiltonian.observed (h : Hamiltonian ℂ) (time : ℝ) (s : State ℂ) : Record ℝ where
  time := time
  energy := (s.expect h.operator).re
  magnetizationZ := s.magnetization h.nqubits .z
  magnetizationX := s.magnetization h.nqubits .x

/-- A pure state and its projector have the same record. -/
theorem Hamiltonian.observed_toDensity (h : Hamiltonian ℂ) (time : ℝ) {v : Array ℂ} (hv : v.size = 2 ^ h.nqubits) :
    h.observed time (State.vector v).toDensity = h.observed time (State.vector v) := by
  simp only [observed, State.magnetization, State.expect_toDensity _ hv]

namespace Quench

variable {h : Hamiltonian ℂ} {settings : Settings ℝ} {q : Quench ℂ ℝ} {s : State ℂ}

theorem prepare_eq_ok_iff : prepare h settings = .ok q ↔
    ∃ f, ProductFormula.prepare h settings = .ok f ∧
      q = ⟨h, f, siteMatrices .z h.nqubits, siteMatrices .x h.nqubits⟩ := by
  unfold prepare
  cases ProductFormula.prepare h settings with
  | error e => simp [bind, Except.bind]
  | ok f =>
    simp only [sites_eq_ok, bind, Except.bind, pure, Except.pure, Except.ok.injEq, exists_eq_left']
    exact eq_comm

/-- Every state of the register has a record. -/
theorem record_eq_ok (hv : h.Valid) (hq : prepare h settings = .ok q) (time : ℝ) (hs : s.OnRegister h.nqubits) :
    q.record time s = .ok (h.observed time s) := by
  obtain ⟨f, -, rfl⟩ := prepare_eq_ok_iff.1 hq
  simp only [record, Hamiltonian.expectation_eq_ok hv hs, mean_eq_ok _ hs]
  rfl

theorem stepCount_eq (hq : prepare h settings = .ok q) (total : ℝ) :
    q.formula.stepCount total = stepCount total settings.dt := by
  obtain ⟨f, hf, rfl⟩ := prepare_eq_ok_iff.1 hq
  obtain ⟨-, -, merged, -, rfl⟩ := ProductFormula.prepare_eq_ok_iff.1 hf
  rfl

/-! ### Runs -/

section Run

variable {K R : Type} [Zero K] [One K] [Add K] [Mul K] [ComplexScalar K R]
variable [Zero R] [Add R] [Mul R] [Div R] [NatCast R]

/-- The states that the steps make of the first one, and the records of all of them. -/
structure Follows (q : Quench K R) (states : ℕ → State K) (records : ℕ → Record R) : Prop where
  step : ∀ j, q.formula.step (states j) = .ok (states (j + 1))
  first : q.record 0 (states 0) = .ok (records 0)
  record : ∀ j, q.record ((j + 1 : ℕ) * q.formula.settings.dt) (states (j + 1)) = .ok (records (j + 1))

variable {q : Quench K R} {states : ℕ → State K} {records : ℕ → Record R} {m : Type → Type} [Monad m]
  [LawfulMonad m]

theorem run_mk_pure_bind {ε α β : Type} (a : α) (f : α → ExceptT ε m β) :
    (ExceptT.mk (pure (Except.ok a)) >>= f).run = (f a).run := by
  simp [ExceptT.run_bind]

theorem run_mk_pure_error_bind {ε α β : Type} (e : ε) (f : α → ExceptT ε m β) :
    (ExceptT.mk (pure (Except.error e)) >>= f).run = pure (.error e) := by
  simp [ExceptT.run_bind]

/-- The remaining steps hand their records to the observer one after the other. -/
theorem Follows.continueRun (h : q.Follows states records) (onStep : Record R → m Unit) (k n : ℕ)
    (history : List (Record R)) :
    (q.continueRun onStep k n history (states k)).run =
      ((List.range' (k + 1) n).map records).forM onStep >>= fun _ =>
        pure (.ok ⟨history ++ (List.range' (k + 1) n).map records, states (k + n)⟩) := by
  induction n generalizing k history with
  | zero => simp [Quench.continueRun]
  | succ n ih =>
    simp only [Quench.continueRun, continueRun.liftExcept, h.step, run_mk_pure_bind, h.record]
    -- what is left observes the new record and goes on from the next state
    refine (ExceptT.run_bind_lift _ _).trans ?_
    simp only [ih, List.range'_succ, List.map_cons, List.forM_eq_forM, List.forM_cons, bind_assoc, List.append_assoc,
      List.singleton_append, Nat.add_right_comm k 1 n, ← Nat.add_assoc k n 1]
    rfl

variable [LT R] [DecidableLT R] [RealScalar R]

/-- A run of `n` steps observes `n` new records and returns `n + 1` records with the last state. -/
theorem Follows.run (h : q.Follows states records) {total : R} {n : ℕ} (hn : q.formula.stepCount total = .ok n)
    (onStep : Record R → m Unit) :
    (q.run onStep (states 0) total).run =
      ((List.range (n + 1)).map records).tail.forM onStep >>= fun _ =>
        pure (.ok ⟨(List.range (n + 1)).map records, states n⟩) := by
  have hrange : List.range (n + 1) = 0 :: List.range' 1 n := by
    rw [List.range_eq_range', List.range'_succ]
  simp only [Quench.run, hn, run_mk_pure_bind, h.first, h.continueRun, hrange, List.map_cons, List.tail_cons,
    List.singleton_append, Nat.zero_add]

theorem run_of_stepCount_error {total : R} {e : DynamicsError R} (he : q.formula.stepCount total = .error e)
    (onStep : Record R → m Unit) (s : State K) : (q.run onStep s total).run = pure (.error e) := by
  rw [Quench.run, he, run_mk_pure_error_bind]

end Run

/-- The records of a state and of what `n` steps make of it. -/
noncomputable def history (h : Hamiltonian ℂ) (f : ProductFormula ℂ ℝ) (n : ℕ) (s : State ℂ) : List (Record ℝ) :=
  (List.range (n + 1)).map fun j : ℕ => h.observed (j * f.settings.dt) (s.transform (f.operator h.nqubits ^ j))

theorem history_toDensity (h : Hamiltonian ℂ) (f : ProductFormula ℂ ℝ) (n : ℕ) {v : Array ℂ}
    (hv : v.size = 2 ^ h.nqubits) : history h f n (State.vector v).toDensity = history h f n (State.vector v) := by
  refine List.map_congr_left fun j _ => ?_
  rw [← State.toDensity_transform _ hv]
  exact h.observed_toDensity _ Array.size_ofFn

/-- The powers of one operator follow a run. -/
theorem follows_transform (hv : h.Valid) (hq : prepare h settings = .ok q) (hs : s.OnRegister h.nqubits) :
    q.Follows (fun j => s.transform (q.formula.operator h.nqubits ^ j))
      fun j => h.observed (j * q.formula.settings.dt) (s.transform (q.formula.operator h.nqubits ^ j)) := by
  obtain ⟨f, hf, hqf⟩ := prepare_eq_ok_iff.1 hq
  have hformula : q.formula = f := by rw [hqf]
  have hfits := ProductFormula.fits_gates hv (Term.small_of_fits hs.addressable hv.fits) hf
  refine ⟨fun j => ?_, ?_, fun j => ?_⟩
  · rw [hformula, ProductFormula.step_eq_ok hfits (hs.transform _), State.transform_transform, pow_succ']
  · rw [record_eq_ok hv hq 0 (hs.transform _), Nat.cast_zero, zero_mul]
  · exact record_eq_ok hv hq _ (hs.transform _)

/-- What a run observes and returns. -/
theorem run_eq {m : Type → Type} [Monad m] [LawfulMonad m] (hv : h.Valid) (hq : prepare h settings = .ok q)
    (hs : s.OnRegister h.nqubits) {total : ℝ} {n : ℕ} (hn : q.formula.stepCount total = .ok n)
    (onStep : Record ℝ → m Unit) :
    (q.run onStep s total).run = (history h q.formula n s).tail.forM onStep >>= fun _ =>
      pure (.ok ⟨history h q.formula n s, s.transform (q.formula.operator h.nqubits ^ n)⟩) := by
  have hrun := (follows_transform hv hq hs).run hn onStep
  rwa [pow_zero, State.transform_one hs.shape] at hrun

/-- The projector on a pure state evolves as the pure state does, on a register whose dimension is a word. After any
number of steps it is the projector on the evolved state, with the same probabilities, norm and energy; and a run from
it shows its observer the same records, returns the same history and fails for the same total times. -/
theorem run_toDensity (h : Hamiltonian ℂ) (hv : h.Valid) (hn : h.nqubits < 64) (hne : h.terms ≠ [])
    (settings : Settings ℝ) (hsettings : settings.validate = .ok ()) :
    ∃ q : Quench ℂ ℝ, prepare h settings = .ok q ∧ ProductFormula.prepare h settings = .ok q.formula ∧
      ∀ psi : Array ℂ, psi.size = 2 ^ h.nqubits → ∃ phi : ℕ → Array ℂ,
        (∀ k, q.formula.steps k (.vector psi) = .ok (.vector (phi k)) ∧
          q.formula.steps k (State.vector psi).toDensity = .ok (State.vector (phi k)).toDensity ∧
          (State.vector (phi k)).toDensity.probabilities = (State.vector (phi k)).probabilities ∧
          (State.vector (phi k)).toDensity.normSq = (State.vector (phi k)).normSq ∧
          ∃ energy, h.expectation (.vector (phi k)) = .ok energy ∧
            h.expectation (State.vector (phi k)).toDensity = .ok energy) ∧
        (∀ total n, q.formula.stepCount total = .ok n → ∃ history : List (Record ℝ), history.length = n + 1 ∧
          ∀ (m : Type → Type) [Monad m] [LawfulMonad m] (onStep : Record ℝ → m Unit),
            (q.run onStep (.vector psi) total).run =
              history.tail.forM onStep >>= (fun _ => pure (.ok ⟨history, .vector (phi n)⟩)) ∧
            (q.run onStep (State.vector psi).toDensity total).run =
              history.tail.forM onStep >>= (fun _ => pure (.ok ⟨history, (State.vector (phi n)).toDensity⟩))) ∧
        ∀ total e, q.formula.stepCount total = .error e →
          ∀ (m : Type → Type) [Monad m] [LawfulMonad m] (onStep : Record ℝ → m Unit),
            (q.run onStep (.vector psi) total).run = pure (.error e) ∧
            (q.run onStep (State.vector psi).toDensity total).run = pure (.error e) := by
  have hsmall := Term.small_of_fits hn hv.fits
  obtain ⟨f, hf⟩ := ProductFormula.exists_prepare_eq_ok hv hsmall hne hsettings
  have hq := prepare_eq_ok_iff.2 ⟨f, hf, rfl⟩
  have hfits := ProductFormula.fits_gates hv hsmall hf
  refine ⟨_, hq, hf, fun psi hpsi => ?_⟩
  have hvector : (State.vector psi).OnRegister h.nqubits := ⟨hn, hpsi⟩
  have hdensity : (State.vector psi).toDensity.OnRegister h.nqubits := ⟨hn, State.hasQubits_toDensity hpsi⟩
  let phi (k : ℕ) : Array ℂ := Array.ofFn ((f.operator h.nqubits ^ k) *ᵥ amplitudes h.nqubits id psi)
  have hphi (k : ℕ) : (phi k).size = 2 ^ h.nqubits := Array.size_ofFn
  have hprojector (k : ℕ) :
      (State.vector psi).toDensity.transform (f.operator h.nqubits ^ k) = (State.vector (phi k)).toDensity :=
    (State.toDensity_transform _ hpsi).symm
  refine ⟨phi, fun k => ⟨ProductFormula.steps_eq_ok hfits hvector k, ?_, State.probabilities_toDensity _,
    State.normSq_toDensity _, _, Hamiltonian.expectation_eq_ok hv ⟨hn, hphi k⟩, ?_⟩, fun total n hcount => ?_, ?_⟩
  · rw [ProductFormula.steps_eq_ok hfits hdensity k, hprojector]
  · rw [Hamiltonian.expectation_eq_ok hv ⟨hn, State.hasQubits_toDensity (hphi k)⟩, State.expect_toDensity _ (hphi k)]
  · refine ⟨history h f n (.vector psi), by simp [history],
      fun m _ _ onStep => ⟨run_eq hv hq hvector hcount onStep, ?_⟩⟩
    rw [run_eq hv hq hdensity hcount onStep, history_toDensity h f n hpsi, hprojector]
  · intro total e he m _ _ onStep
    exact ⟨run_of_stepCount_error he onStep _, run_of_stepCount_error he onStep _⟩

/-- Four steps of second order under a Hamiltonian that is not Hermitian. -/
theorem run_toDensity_lossy :
    let flip : Term ℂ := ⟨.product ((Product.ofCoefficient 3).absorb (.operator ⟨"X1", 1, Pauli.x.matrix⟩ 1)), none⟩
    let pair : Term ℂ := ⟨.dense [2, 0] (.ofFn 4 4 fun r c => r + 2 * c * Complex.I), none⟩
    let h : Hamiltonian ℂ := .ofTerms ⟨7⟩ [flip, pair]
    let settings : Settings ℝ := ⟨1 / 4, .second⟩
    let psi : Array ℂ := Array.ofFn fun i : Fin 8 => i + Complex.I
    h.Valid ∧ h.nqubits < 64 ∧ h.terms ≠ [] ∧ settings.validate = .ok () ∧
      ∃ (q : Quench ℂ ℝ) (phi : ℕ → Array ℂ) (history : List (Record ℝ)), prepare h settings = .ok q ∧
        (∀ k, q.formula.steps k (.vector psi) = .ok (.vector (phi k)) ∧
          q.formula.steps k (State.vector psi).toDensity = .ok (State.vector (phi k)).toDensity) ∧
        history.length = 5 ∧
        ∀ (m : Type → Type) [Monad m] [LawfulMonad m] (onStep : Record ℝ → m Unit),
          (q.run onStep (.vector psi) 1).run =
            history.tail.forM onStep >>= (fun _ => pure (.ok ⟨history, .vector (phi 4)⟩)) ∧
          (q.run onStep (State.vector psi).toDensity 1).run =
            history.tail.forM onStep >>= (fun _ => pure (.ok ⟨history, (State.vector (phi 4)).toDensity⟩)) := by
  intro flip pair h settings psi
  have hflip : flip.WellFormed := ⟨List.nodup_singleton 1, rfl, rfl⟩
  have hpair : pair.WellFormed := ⟨by decide, rfl, rfl⟩
  have hv : h.Valid := Hamiltonian.valid_ofTerms (by simp [hflip, hpair]) _
  have hn : h.nqubits < 64 := by decide
  have hne : h.terms ≠ [] := by simp [h, Hamiltonian.ofTerms]
  have hsettings : settings.validate = .ok () := Settings.validate_eq_ok_iff.2 (by norm_num [settings])
  obtain ⟨q, hq, hf, hrun⟩ := run_toDensity h hv hn hne settings hsettings
  obtain ⟨phi, hsteps, hok, -⟩ := hrun psi Array.size_ofFn
  have hcount : q.formula.stepCount 1 = .ok 4 := by
    obtain ⟨-, -, merged, -, hformula⟩ := ProductFormula.prepare_eq_ok_iff.1 hf
    rw [hformula]
    exact stepCount_eq_ok one_pos (by decide) (by decide) (by norm_num) (by norm_num)
  obtain ⟨history, hlength, hhistory⟩ := hok 1 4 hcount
  exact ⟨hv, hn, hne, hsettings, q, phi, history, hq, fun k => ⟨(hsteps k).1, (hsteps k).2.1⟩, hlength, hhistory⟩

end Quench

end QubitDynamics
