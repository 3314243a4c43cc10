import QubitDynamics.Proofs.QuenchRun
import QubitDynamics.Proofs.Reachability

/-! Histories of quenches. A run and an evolution drive the same steps by two loops of
their own. Both stay together: a step keeps the states of a register, every state of
the register has a record, and so a run follows the states that single steps make of
the first one, up to the state that the evolution ends in. Only shapes matter for this,
not the values of scalars, so that rounded scalars are included. -/

namespace QubitDynamics

open Register

variable {K R : Type} {n : ℕ}

/-! ### Merged terms -/

section

variable [Zero K] [One K] [Add K] [Mul K]

theorem Term.qubits_of_merge {t child merged : Term K} (h : t.merge child = .ok merged) : merged.qubits = t.qubits := by
  obtain ⟨w, -, rfl⟩ := merge_cases h
  rfl

/-- A cluster collapses to a term on the qubits of its parent. -/
theorem Cluster.qubits_of_collapse {ι : Type} {w : Weights K} {c : Cluster ι K} {t : Term K}
    (h : c.collapse w = .ok t) : t.qubits = c.parent.term.qubits := by
  unfold collapse at h
  rw [← qubits_weighted w c.parent.term]
  -- every merge keeps the qubits of the accumulator, whatever it started from
  generalize weighted w c.parent.term = acc at h ⊢
  generalize c.rest = rest at h
  induction rest generalizing acc with
  | nil =>
    cases h
    rfl
  | cons m rest ih =>
    rw [List.foldlM_cons] at h
    obtain ⟨next, hnext, h⟩ := exists_of_bind_eq_ok h
    rw [ih next h, Term.qubits_of_merge hnext]

variable [Zero R] [One R] [Sub R] [ComplexScalar K R]

/-- The merged terms of a reachable Hamiltonian fit its register. -/
theorem Reachable.fits_mergedTerms {h : Hamiltonian K} (hh : Reachable (R := R) (.hamiltonian h))
    {merged : List (Term K)} (hmerged : h.mergedTerms = (.ok merged : Except (DynamicsError R) _)) :
    ∀ t ∈ merged, t.Fits h.nqubits := by
  intro t ht
  -- the shape comes from soundness, and the qubits are those of the parent, which is a term of the sum
  have hsound : t.Sound := Hamiltonian.forall_mergedTerms Term.kept_sound hh.sound hmerged t ht
  obtain ⟨c, hc, hcollapse⟩ := exists_of_mapM_eq_ok (mapError_eq_ok.1 hmerged) t ht
  rw [Cluster.fst_merged (Cluster.memo_partition _ c hc)] at hcollapse
  obtain ⟨ms, hterms, harr⟩ := h.arranged_clusters fun t ht => (hh.fits t ht).nodup
  have hparent : c.parent.term ∈ h.terms := hterms ▸ List.mem_map_of_mem (harr.mem_done hc List.mem_cons_self)
  refine ⟨hsound.toWellFormed, fun q hq => ?_⟩
  rw [Cluster.qubits_of_collapse hcollapse] at hq
  exact (hh.fits _ hparent).lt q hq

end

/-! ### Steps -/

section

variable [Zero K] [Add K] [Mul K] [ComplexScalar K R]

/-- A gate on a register keeps its states. -/
theorem Gate.Fits.exists_apply {g : Gate K} (hg : g.Fits n) {s : State K} (hs : s.OnRegister n) :
    ∃ s', g.apply s = .ok s' ∧ s'.OnRegister n := by
  obtain ⟨hn, hs⟩ := hs
  have hk := hg.targets.length_le.trans_lt hn
  cases s with
  | vector v =>
    rw [Gate.apply, apply_vector hg.targets.lt hk hg.shape hs]
    exact ⟨_, rfl, hn, (size_applyInPlace _ _ _ _ v).trans hs⟩
  | density rho =>
    rw [Gate.apply, apply_density hg.targets.lt hk hg.shape hs.rows]
    have honce := (hasShape_applyToColumns g.matrix g.targets n hs).conjTranspose
    exact ⟨_, rfl, hn, (hasShape_applyToColumns g.matrix g.targets n honce).conjTranspose⟩

theorem exists_applyGates {gates : List (Gate K)} (hgates : ∀ g ∈ gates, g.Fits n) {s : State K} (hs : s.OnRegister n) :
    ∃ s', applyGates gates s = (.ok s' : Except (DynamicsError R) _) ∧ s'.OnRegister n := by
  obtain ⟨s', hs', hreg⟩ := exists_foldlM_eq_ok (P := State.OnRegister n)
    (fun g hg _ => (hgates g hg).exists_apply) hs
  exact ⟨s', congrArg (Except.mapError DynamicsError.term) hs', hreg⟩

namespace ProductFormula

variable {f : ProductFormula K R}

/-- A step keeps the states of the register. -/
theorem exists_step (hf : ∀ g ∈ f.gates, g.Fits n) {s : State K} (hs : s.OnRegister n) :
    ∃ s', f.step s = .ok s' ∧ s'.OnRegister n := by
  obtain ⟨s₁, h₁, hreg₁⟩ := exists_applyGates (R := R) hf hs
  unfold step
  cases f.settings.order with
  | first => exact ⟨s₁, h₁, hreg₁⟩
  | second =>
    obtain ⟨s₂, h₂, hreg₂⟩ := exists_applyGates (R := R) (fun g hg => hf g (List.mem_reverse.1 hg)) hreg₁
    rw [h₁]
    exact ⟨s₂, h₂, hreg₂⟩

/-- The states that single steps make of a state, one after the other. -/
theorem exists_states (hf : ∀ g ∈ f.gates, g.Fits n) {s : State K} (hs : s.OnRegister n) :
    ∃ states : ℕ → State K, states 0 = s ∧ (∀ k, (states k).OnRegister n) ∧
      ∀ k, f.step (states k) = .ok (states (k + 1)) := by
  have : Nonempty (State K) := ⟨s⟩
  -- elsewhere a step may fail, so a successor is chosen on the register only
  choose! next hnext hreg using fun (s : State K) (hs : s.OnRegister n) => exists_step hf hs
  have hstates (k : ℕ) : (next^[k] s).OnRegister n := by
    induction k with
    | zero => exact hs
    | succ k ih =>
      rw [Function.iterate_succ_apply']
      exact hreg _ ih
  refine ⟨fun k => next^[k] s, rfl, hstates, fun k => ?_⟩
  simp only [Function.iterate_succ_apply']
  exact hnext _ (hstates k)

/-- A number of steps leads to the state of that number. -/
theorem steps_of_step {states : ℕ → State K} (h : ∀ k, f.step (states k) = .ok (states (k + 1))) (j n : ℕ) :
    f.steps n (states j) = .ok (states (j + n)) := by
  induction n generalizing j with
  | zero => rfl
  | succ n ih =>
    rw [steps, h j]
    exact (ih (j + 1)).trans (by rw [Nat.add_right_comm, Nat.add_assoc])

end ProductFormula

end

/-! ### Records -/

theorem State.HasQubits.dim_eq {s : State K} (hs : s.HasQubits n) : s.dim = 2 ^ n := by
  cases s with
  | vector v => exact hs
  | density rho => exact hs.rows

section

variable [Zero K] [One K] [Add K] [Mul K] [ComplexScalar K R] {s : State K}

theorem State.exists_expectation {o : Mat K} (ho : o.HasShape (2 ^ n) (2 ^ n)) (hs : s.HasQubits n) :
    ∃ e, s.expectation o = .ok e := by
  unfold expectation
  rw [if_neg (by simp [ho.rows, ho.cols, hs.dim_eq])]
  cases s <;> exact ⟨_, rfl⟩

/-- Every state of the register has an energy. -/
theorem Hamiltonian.exists_expectation {h : Hamiltonian K} {merged : List (Term K)}
    (hmerged : h.mergedTerms = (.ok merged : Except (DynamicsError R) _)) (hfits : ∀ t ∈ merged, t.Fits h.nqubits)
    (hs : s.OnRegister h.nqubits) : ∃ energy, h.expectation s = (.ok energy : Except (DynamicsError R) R) := by
  have hpart : ∀ t ∈ merged, ∀ energy : K, ∃ energy', (do
      let full ← (embed t.matrix t.qubits h.nqubits).mapError DynamicsError.state
      let part ← (s.expectation full).mapError DynamicsError.state
      return energy + part : Except (DynamicsError R) K) = .ok energy' := by
    intro t ht energy
    obtain ⟨part, hpart⟩ := State.exists_expectation (hasShape_embedding t.matrix t.qubits h.nqubits) hs.shape
    refine ⟨energy + part, ?_⟩
    simp only [(hfits t ht).embed_eq hs.addressable, Term.embedded, Except.mapError, bind, Except.bind, hpart]
    rfl
  obtain ⟨energy, henergy⟩ := exists_foldlM_of_forall hpart 0
  rw [expectation, hmerged]
  exact ⟨_, congrArg (· >>= fun energy => pure (ComplexScalar.re energy)) henergy⟩

namespace Quench

section

omit [Add K] [Mul K]

variable [Neg K] [Zero R] [One R]

theorem hasShape_of_mem_sites (hn : n < 64) {p : Pauli} {os : List (Mat K)}
    (hos : sites p n = (.ok os : Except (DynamicsError R) _)) : ∀ o ∈ os, o.HasShape (2 ^ n) (2 ^ n) := by
  intro o ho
  obtain ⟨q, -, hq⟩ := exists_of_mapM_eq_ok (mapError_eq_ok.1 hos) o ho
  obtain ⟨-, -, hq⟩ := exists_of_bind_eq_ok hq
  cases hq
  rw [fullMatrix_eq_embedding hn (by simp)]
  exact hasShape_embedding _ _ _

end

variable [Zero R] [Add R] [Div R] [NatCast R]

/-- Observables of the register have a mean in each of its states. -/
theorem exists_mean {os : List (Mat K)} (hos : ∀ o ∈ os, o.HasShape (2 ^ n) (2 ^ n)) (hs : s.OnRegister n) :
    ∃ m, mean os s = (.ok m : Except (DynamicsError R) R) := by
  have hpart : ∀ o ∈ os, ∀ total : R, ∃ total', (do
      return total + ComplexScalar.re (← (s.expectation o).mapError DynamicsError.state) :
        Except (DynamicsError R) R) = .ok total' := by
    intro o ho total
    obtain ⟨part, hpart⟩ := State.exists_expectation (hos o ho) hs.shape
    rw [hpart]
    exact ⟨_, rfl⟩
  obtain ⟨total, htotal⟩ := exists_foldlM_of_forall hpart 0
  unfold mean
  split
  · exact ⟨0, rfl⟩
  · exact ⟨_, congrArg (· >>= fun total => pure (total / (os.length : R))) htotal⟩

end Quench

end

/-! ### Runs -/

section

variable [Zero K] [One K] [Add K] [Sub K] [Mul K] [Div K] [NatCast K] [ComplexScalar K R]
variable [Zero R] [Add R] [Neg R] [Div R] [NatCast R] [LT R] [DecidableLT R] [LE R] [DecidableLE R] [RealScalar R]
variable {h : Hamiltonian K} {settings : Settings R}

/-- The gates of a product formula are made of the merged terms. -/
theorem ProductFormula.of_prepare {f : ProductFormula K R} (hf : prepare h settings = .ok f) :
    f.settings = settings ∧ ∃ (merged : List (Term K)) (slice : R),
      h.mergedTerms = (.ok merged : Except (DynamicsError R) _) ∧ f.gates = merged.map (·.expGate slice) := by
  unfold prepare at hf
  obtain ⟨-, -, hf⟩ := exists_of_bind_eq_ok hf
  dsimp only at hf
  by_cases hempty : h.terms.isEmpty
  · rw [if_pos hempty] at hf
    cases hf
  · rw [if_neg hempty] at hf
    obtain ⟨merged, hmerged, hf⟩ := exists_of_bind_eq_ok hf
    cases hf
    exact ⟨rfl, merged, _, hmerged, rfl⟩

variable [Neg K] [One R]

/-- A record holds the energy of a state and the means over all qubits of `Z` and of `X`. -/
structure Record.Describes (h : Hamiltonian K) (s : State K) (r : Record R) : Prop where
  energy : h.expectation s = .ok r.energy
  magnetizationZ : ∃ os : List (Mat K), Quench.sites .z h.nqubits = (.ok os : Except (DynamicsError R) _) ∧
    Quench.mean os s = (.ok r.magnetizationZ : Except (DynamicsError R) R)
  magnetizationX : ∃ os : List (Mat K), Quench.sites .x h.nqubits = (.ok os : Except (DynamicsError R) _) ∧
    Quench.mean os s = (.ok r.magnetizationX : Except (DynamicsError R) R)

namespace Quench

variable {q : Quench K R}

theorem of_prepare (hq : prepare h settings = .ok q) :
    ProductFormula.prepare h settings = .ok q.formula ∧ q.hamiltonian = h ∧
      sites .z h.nqubits = (.ok q.zSites : Except (DynamicsError R) _) ∧
      sites .x h.nqubits = (.ok q.xSites : Except (DynamicsError R) _) := by
  obtain ⟨f, hf, hq⟩ := exists_of_bind_eq_ok hq
  obtain ⟨zs, hz, hq⟩ := exists_of_bind_eq_ok hq
  obtain ⟨xs, hx, hq⟩ := exists_of_bind_eq_ok hq
  cases hq
  exact ⟨hf, rfl, hz, hx⟩

variable [Sub R]

/-- Every state of the register has a record. -/
theorem exists_record (hh : Reachable (R := R) (.hamiltonian h)) (hq : prepare h settings = .ok q) (time : R)
    {s : State K} (hs : s.OnRegister h.nqubits) :
    ∃ r, q.record time s = .ok r ∧ r.time = time ∧ r.Describes h s := by
  obtain ⟨hf, hhamiltonian, hz, hx⟩ := of_prepare hq
  obtain ⟨-, merged, slice, hmerged, -⟩ := ProductFormula.of_prepare hf
  obtain ⟨energy, henergy⟩ := Hamiltonian.exists_expectation hmerged (hh.fits_mergedTerms hmerged) hs
  obtain ⟨z, hmeanZ⟩ := exists_mean (R := R) (hasShape_of_mem_sites hs.addressable hz) hs
  obtain ⟨x, hmeanX⟩ := exists_mean (R := R) (hasShape_of_mem_sites hs.addressable hx) hs
  refine ⟨⟨time, energy, z, x⟩, ?_, rfl, henergy, ⟨_, hz, hmeanZ⟩, _, hx, hmeanX⟩
  rw [record, hhamiltonian, henergy, hmeanZ, hmeanX]
  rfl

variable [Mul R]

/-- Steps and records of a quench follow each other from every state of the register. -/
theorem exists_follows (hh : Reachable (R := R) (.hamiltonian h)) (hq : prepare h settings = .ok q) {s : State K}
    (hs : s.OnRegister h.nqubits) :
    ∃ (states : ℕ → State K) (records : ℕ → Record R), states 0 = s ∧ q.Follows states records ∧
      ∀ k, (records k).time = (if k = 0 then 0 else k * settings.dt) ∧ (records k).Describes h (states k) := by
  obtain ⟨hf, -⟩ := of_prepare hq
  obtain ⟨hsettings, merged, slice, hmerged, hgates⟩ := ProductFormula.of_prepare hf
  have hfits : ∀ g ∈ q.formula.gates, g.Fits h.nqubits := by
    rw [hgates]
    intro g hg
    obtain ⟨t, ht, rfl⟩ := List.mem_map.1 hg
    exact (hh.fits_mergedTerms hmerged t ht).expGate slice
  obtain ⟨states, hfirst, hreg, hstep⟩ := ProductFormula.exists_states hfits hs
  choose records hrecord htime hdescribes using fun k : ℕ =>
    exists_record hh hq (if k = 0 then 0 else k * settings.dt) (hreg k)
  refine ⟨states, records, hfirst, ⟨hstep, hrecord 0, fun j => ?_⟩, fun k => ⟨htime k, hdescribes k⟩⟩
  rw [hsettings]
  exact hrecord (j + 1)

/-- From every state of the register a run and an evolution go through the same states. The history of a run has the
records of all of them at their times, the observer sees every record but the first, in order, and the run ends in
the state that the evolution ends in. If the total time is refused, both fail alike and nothing is observed. -/
theorem run_in_step_with_evolve (hh : Reachable (R := R) (.hamiltonian h)) (hq : prepare h settings = .ok q)
    (s : State K) :
    ProductFormula.prepare h settings = .ok q.formula ∧
    (s.OnRegister h.nqubits → ∃ states : ℕ → State K, states 0 = s ∧
      (∀ k, q.formula.step (states k) = .ok (states (k + 1))) ∧
      ∀ total n, q.formula.stepCount total = .ok n → q.formula.evolve s total = .ok (states n) ∧
        ∃ history : List (Record R), history.length = n + 1 ∧
          (∀ (k : ℕ) (r : Record R), history[k]? = some r →
            r.time = (if k = 0 then 0 else k * settings.dt) ∧ r.Describes h (states k)) ∧
          ∀ (m : Type → Type) [Monad m] [LawfulMonad m] (onStep : Record R → m Unit),
            (q.run onStep s total).run = history.tail.forM onStep >>= fun _ => pure (.ok ⟨history, states n⟩)) ∧
    ∀ total e, q.formula.stepCount total = .error e → q.formula.evolve s total = .error e ∧
      ∀ (m : Type → Type) [Monad m] [LawfulMonad m] (onStep : Record R → m Unit),
        (q.run onStep s total).run = pure (.error e) := by
  refine ⟨(of_prepare hq).1, fun hs => ?_, fun total e he => ⟨?_, fun m _ _ onStep => ?_⟩⟩
  · obtain ⟨states, records, rfl, hfollows, hrecords⟩ := exists_follows hh hq hs
    refine ⟨states, rfl, hfollows.step, fun total n hn => ⟨?_, (List.range (n + 1)).map records, by simp, ?_, ?_⟩⟩
    · rw [ProductFormula.evolve, hn]
      exact (ProductFormula.steps_of_step hfollows.step 0 n).trans (by rw [Nat.zero_add])
    · intro k r hr
      obtain ⟨hk, rfl⟩ := List.getElem?_eq_some_iff.1 hr
      simpa using hrecords k
    · exact fun m _ _ onStep => hfollows.run hn onStep
  · rw [ProductFormula.evolve, he]
    rfl
  · exact run_of_stepCount_error he onStep s

end Quench

end

/-- Four steps of second order under a Hamiltonian that is not Hermitian, and a total time that is refused. -/
theorem Quench.run_in_step_with_evolve_lossy :
    let flip : Term ℂ := ⟨.product ((Product.ofCoefficient 3).absorb (.operator ⟨"X1", 1, Pauli.x.matrix⟩ 1)), none⟩
    let pair : Term ℂ := ⟨.dense [2, 0] (.ofFn 4 4 fun r c => r + 2 * c * Complex.I), none⟩
    let h : Hamiltonian ℂ := .ofTerms ⟨7⟩ [flip, pair]
    let settings : Settings ℝ := ⟨1 / 4, .second⟩
    let psi : State ℂ := .vector (Array.ofFn fun i : Fin 8 => i + Complex.I)
    Reachable (R := ℝ) (.hamiltonian h) ∧ psi.OnRegister h.nqubits ∧
      ∃ (q : Quench ℂ ℝ) (states : ℕ → State ℂ) (history : List (Record ℝ)), prepare h settings = .ok q ∧
        states 0 = psi ∧ (∀ k, q.formula.step (states k) = .ok (states (k + 1))) ∧
        q.formula.evolve psi 1 = .ok (states 4) ∧ history.length = 5 ∧
        (∀ r, history[3]? = some r → r.time = 3 / 4 ∧ r.Describes h (states 3)) ∧
        ∀ (m : Type → Type) [Monad m] [LawfulMonad m] (onStep : Record ℝ → m Unit),
          (q.run onStep psi 1).run = history.tail.forM onStep >>= (fun _ => pure (.ok ⟨history, states 4⟩)) ∧
          (q.run onStep psi 0).run = pure (.error (.badTimeStep 0)) := by
  intro flip pair h settings psi
  have hflip : Reachable (R := ℝ) (.term flip) :=
    .ofFactors (show Term.ofFactors 3 [.symbol (.pauli .x 1)] = .ok flip from rfl)
  have hpair : Reachable (R := ℝ) (.term pair) :=
    .ofValue (show Term.ofValue (.tensor pair.matrix.toTensor) [2, 0] = .ok pair from rfl)
  have hh : Reachable (R := ℝ) (.hamiltonian h) := .ofTerms (by simp [hflip, hpair]) ⟨7⟩
  have hpsi : psi.OnRegister h.nqubits := ⟨by decide, Array.size_ofFn⟩
  have hv : h.Valid := Hamiltonian.valid_ofTerms (by simp [hflip.sound.toWellFormed, hpair.sound.toWellFormed]) _
  have hsettings : settings.validate = .ok () := Settings.validate_eq_ok_iff.2 (by norm_num [settings])
  have hsmall := Term.small_of_fits hpsi.addressable hv.fits
  obtain ⟨f, hf⟩ := ProductFormula.exists_prepare_eq_ok hv hsmall (by simp [h, Hamiltonian.ofTerms]) hsettings
  have hq := prepare_eq_ok_iff.2 ⟨f, hf, rfl⟩
  obtain ⟨-, hok, herror⟩ := run_in_step_with_evolve hh hq psi
  have hcount (total : ℝ) : f.stepCount total = stepCount total (1 / 4) := stepCount_eq hq total
  have hfour : f.stepCount 1 = .ok 4 := by
    rw [hcount]
    exact stepCount_eq_ok one_pos (by decide) (by decide) (by norm_num) (by norm_num)
  have hzero : f.stepCount 0 = .error (.badTimeStep 0) := by
    rw [hcount]
    exact if_pos (by simp [Settings.isDuration])
  obtain ⟨states, hfirst, hstep, hruns⟩ := hok hpsi
  obtain ⟨hevolve, history, hlength, hrecords, hrun⟩ := hruns 1 4 hfour
  refine ⟨hh, hpsi, _, states, history, hq, hfirst, hstep, hevolve, hlength, fun r hr => ?_, fun m _ _ onStep =>
    ⟨hrun m onStep, (herror 0 _ hzero).2 m onStep⟩⟩
  obtain ⟨htime, hdescribes⟩ := hrecords 3 r hr
  refine ⟨htime.trans ?_, hdescribes⟩
  norm_num [settings]

end QubitDynamics
