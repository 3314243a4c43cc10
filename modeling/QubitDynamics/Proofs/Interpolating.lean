import QubitDynamics.Evolution.Interpolation
import QubitDynamics.Proofs.StepOperator

/-! Interpolation at a fixed parameter. The terms of both Hamiltonians are gathered
into clusters once, whatever mixture of the two a cluster holds; collapsing a
cluster weights each member by its owner. The collapsed terms therefore add up to
the blend `(1 - s) · start + s · final` of the two matrices. Weighting the terms
first and clustering them afterwards gives the same clusters in the same order,
since only qubits decide about clusters; so under a constant schedule an
interpolation evolves as the product formula of the weighted terms does. -/

namespace QubitDynamics

open Register

variable {K R : Type}

/-! ### Lengths of steps -/

/-- Numbers in which the equal steps that fill a total time are durations again. -/
def StepsAreDurations (R : Type) [Zero R] [Div R] [LT R] [DecidableLT R] [NatCast R] [RealScalar R] : Prop :=
  ∀ (total dt : R) (n : ℕ), Settings.isDuration dt = true → stepCount total dt = .ok n →
    Settings.isDuration (total / (n : R)) = true

theorem stepsAreDurations_real : StepsAreDurations ℝ := by
  intro total dt n _ hn
  obtain ⟨htotal, hpos, -⟩ := stepCount_eq_ok_iff.1 hn
  rw [Settings.isDuration_iff] at htotal ⊢
  exact div_pos htotal (Nat.cast_pos.2 (Nat.pos_of_ne_zero hpos))

namespace Interpolation

/-! ### Weights by owner -/

section Weights

variable [Zero R] [One R] [Sub R] [ComplexScalar K R] [Zero K] [Mul K] {p : Interpolation K}

theorem weighted_final (s : R) {t : Term K} (ht : t.owner = some p.final.id) :
    Cluster.weighted (p.weights s) t = t.scaled (ComplexScalar.ofReal s) := by
  simp [Cluster.weighted, weights, ht]

theorem weighted_start (hids : p.start.id ≠ p.final.id) (s : R) {t : Term K} (ht : t.owner = some p.start.id) :
    Cluster.weighted (p.weights s) t = t.scaled (ComplexScalar.ofReal (1 - s)) := by
  simp [Cluster.weighted, weights, ht, hids]

end Weights

/-! ### The members of both sides -/

theorem map_term_members (side : Side) (h : Hamiltonian K) : (members side h).map Member.term = h.terms := by
  rw [members, List.map_map]
  exact List.zipIdx_map_fst 0 h.terms

theorem term_mem {side : Side} {h : Hamiltonian K} {m : Member (Side × ℕ) K} (hm : m ∈ members side h) :
    m.term ∈ h.terms := by
  rw [← map_term_members side h]
  exact List.mem_map_of_mem hm

/-- Two Hamiltonians on one register can be interpolated unless both are empty. -/
theorem between_eq_ok {start final : Hamiltonian K} (hn : start.nqubits = final.nqubits)
    (hne : ¬(start.terms = [] ∧ final.terms = [])) :
    between start final = (.ok ⟨start, final, Cluster.partition (members .start start ++ members .final final)⟩ :
      Except (DynamicsError R) _) := by
  have hterms : (start.terms.isEmpty && final.terms.isEmpty) = false := by
    rw [Bool.eq_false_iff]
    simpa using hne
  simp only [between, hn, ne_eq, not_true_eq_false, if_false, hterms, Bool.false_eq_true]

theorem between_cases {start final : Hamiltonian K} {p : Interpolation K}
    (hp : between start final = (.ok p : Except (DynamicsError R) _)) :
    ¬(start.terms = [] ∧ final.terms = []) ∧ p.start = start ∧ p.final = final ∧
      p.clusters = Cluster.partition (members .start start ++ members .final final) := by
  unfold between at hp
  split_ifs at hp with hn hne
  cases hp
  exact ⟨by simpa using hne, rfl, rfl, rfl⟩

/-! ### Blended matrices -/

section Blend

variable {start final : Hamiltonian ℂ}

/-- The weighted operators of both sides add up to a blend. -/
theorem sum_weighted_operator {p : Interpolation ℂ} (hstart : p.start.Valid) (hfinal : p.final.Valid)
    (hids : p.start.id ≠ p.final.id) (s : ℝ) (n : ℕ) :
    ((members .start p.start ++ members .final p.final).map fun m =>
        (Cluster.weighted (p.weights s) m.term).operator n).sum =
      ((1 - s : ℝ) : ℂ) • (p.start.terms.map (Term.operator n)).sum +
        (s : ℂ) • (p.final.terms.map (Term.operator n)).sum := by
  have hside (side : Side) (h : Hamiltonian ℂ) (k : ℂ)
      (hk : ∀ t ∈ h.terms, (Cluster.weighted (p.weights s) t).operator n = k • t.operator n) :
      ((members side h).map fun m => (Cluster.weighted (p.weights s) m.term).operator n).sum =
        k • (h.terms.map (Term.operator n)).sum := by
    rw [List.smul_sum, List.map_map, ← map_term_members side h, List.map_map]
    exact congrArg List.sum (List.map_congr_left fun m hm => hk m.term (term_mem hm))
  rw [List.map_append, List.sum_append]
  congr 1
  · refine hside .start p.start _ fun t ht => ?_
    rw [weighted_start hids s (hstart.owned t ht)]
    exact Term.operator_scaled (hstart.fits t ht).toWellFormed n _
  · refine hside .final p.final _ fun t ht => ?_
    rw [weighted_final s (hfinal.owned t ht)]
    exact Term.operator_scaled (hfinal.fits t ht).toWellFormed n _

/-- The clusters of two valid Hamiltonians collapse to terms that add up to a blend. -/
theorem mergedTerms_eq_ok (hstart : start.Valid) (hfinal : final.Valid) (hn : start.nqubits = final.nqubits)
    (hsmall : start.nqubits < 64) (hids : start.id ≠ final.id) (s : ℝ) :
    ∃ merged, mergedTerms ⟨start, final, Cluster.partition (members .start start ++ members .final final)⟩ s =
        .ok merged ∧
      (∀ t ∈ merged, t.Fits start.nqubits) ∧
      (merged.map (Term.operator start.nqubits)).sum =
        ((1 - s : ℝ) : ℂ) • (start.terms.map (Term.operator start.nqubits)).sum +
          (s : ℂ) • (final.terms.map (Term.operator start.nqubits)).sum := by
  have hfits : ∀ m ∈ members .start start ++ members .final final, m.term.Fits start.nqubits := by
    intro m hm
    rcases List.mem_append.1 hm with hm | hm
    · exact hstart.fits m.term (term_mem hm)
    · rw [hn]
      exact hfinal.fits m.term (term_mem hm)
  have harr := Cluster.arranged_partition _ fun m hm => (hfits m hm).nodup
  have hmembers : ∀ m ∈ (Cluster.partition _).flatMap Cluster.members, m.term.Fits start.nqubits := fun m hm =>
    hfits m (harr.perm.mem_iff.1 hm)
  obtain ⟨merged, hmap, -, hmerged, hsums⟩ := Cluster.mapM_collapse_eq_ok _ _ harr.nested
    (fun m hm => (hmembers m hm).arity_lt hsmall) hmembers
  refine ⟨merged, congrArg (Except.mapError DynamicsError.term) hmap, hmerged, ?_⟩
  rw [hsums, Cluster.sum_operatorSum, (harr.perm.map _).sum_eq]
  exact sum_weighted_operator (p := ⟨start, final, _⟩) hstart hfinal hids s start.nqubits

end Blend

/-! ### A constant schedule -/

/-- Interpolations whose sides are told apart by the owners of their terms. -/
structure Separated (p : Interpolation K) : Prop where
  ids : p.start.id ≠ p.final.id
  start_owned : ∀ t ∈ p.start.terms, t.owner = some p.start.id
  final_owned : ∀ t ∈ p.final.terms, t.owner = some p.final.id
  clusters_eq : p.clusters = Cluster.partition (members .start p.start ++ members .final p.final)

section Constant

variable [Zero K] [Mul K] [Zero R] [One R] [Sub R] [ComplexScalar K R]

/-- The Hamiltonian of the terms of both sides, each weighted as at `s`. -/
def blend (id : OwnerId) (start final : Hamiltonian K) (s : R) : Hamiltonian K :=
  .ofTerms id (start.terms.map (Term.scaled (ComplexScalar.ofReal (1 - s))) ++
    final.terms.map (Term.scaled (ComplexScalar.ofReal s)))

/-- A member of an interpolation as it stands in the blended sum. -/
def summand (id : OwnerId) (p : Interpolation K) (s : R) (m : Member (Side × ℕ) K) : Member ℕ K :=
  ⟨match m.label with
    | (.start, i) => i
    | (.final, i) => i + p.start.terms.length,
   (Cluster.weighted (p.weights s) m.term).withOwner id⟩

variable {p : Interpolation K} {s : R} {id : OwnerId}

theorem map_summand (h : p.Separated) :
    (members .start p.start ++ members .final p.final).map (summand id p s) =
      (blend id p.start p.final s).terms.zipIdx.map fun (t, i) => ⟨i, t⟩ := by
  simp only [blend, Hamiltonian.ofTerms, List.map_append, List.map_map, List.zipIdx_append, List.zipIdx_map, members,
    List.length_map, Nat.zero_add]
  congr 1
  · refine List.map_congr_left fun x hx => ?_
    simp only [Function.comp_apply, summand, weighted_start h.ids s (h.start_owned x.1 (List.fst_mem_of_mem_zipIdx hx))]
    rfl
  · rw [← Nat.add_zero p.start.terms.length, ← List.map_snd_add_zipIdx_eq_zipIdx, List.map_map]
    refine List.map_congr_left fun x hx => ?_
    simp only [Function.comp_apply, summand, weighted_final s (h.final_owned x.1 (List.fst_mem_of_mem_zipIdx hx))]
    rfl

/-- The clusters of an interpolation are those of the blended sum, with other members. -/
theorem clusters_blend (h : p.Separated) :
    (blend id p.start p.final s).clusters = p.clusters.map (Cluster.mapMembers (summand id p s)) := by
  rw [Hamiltonian.clusters, ← map_summand h, h.clusters_eq]
  exact Cluster.partition_map (fun m => Cluster.qubits_weighted _ m.term) _

variable [One K] [Add K]

/-- The merged terms of an interpolation at `s` act as those of the blended sum. -/
theorem map_action_mergedTerms (h : p.Separated) :
    ((blend id p.start p.final s).mergedTerms (R := R)).map (List.map Term.action) =
      (p.mergedTerms s).map (List.map Term.action) := by
  have hmerged : (blend id p.start p.final s).clusters.mapM (fun c => c.merged.1) =
      p.clusters.mapM fun c => (c.mapMembers (summand id p s)).collapse Weights.none := by
    rw [Hamiltonian.clusters, Cluster.mapM_merged_partition]
    exact (congrArg _ (clusters_blend h)).trans (List.mapM_map ..)
  rw [Hamiltonian.mergedTerms, hmerged, mergedTerms, map_mapError, map_mapError, mapM_map_eq, mapM_map_eq]
  refine congrArg _ (mapM_congr fun c _ => ?_)
  exact Cluster.map_action_collapse (fun m => rfl) c

variable [Sub K] [Div K] [NatCast K] [Add R] [Neg R] [Div R] [LT R] [DecidableLT R] [LE R] [DecidableLE R]
variable [RealScalar R]

def gatesAt (p : Interpolation K) (x s : R) : Except (DynamicsError R) (List (Gate K)) :=
  (p.mergedTerms s).map (List.map (·.expGate x))

theorem step_eq (x : R) (state : State K) :
    p.step x s state = p.gatesAt x s >>= fun gates => applyGates gates state := by
  rw [step, gatesAt]
  cases p.mergedTerms s <;> rfl

/-- The gates at `s` are those of a first order step under the blended sum. -/
theorem gatesAt_eq (h : p.Separated) (id : OwnerId) (x : R) :
    p.gatesAt x s = ((blend id p.start p.final s).mergedTerms (R := R)).map (List.map (·.expGate x)) := by
  -- a gate is made from what its term does, not from whose term it is
  have hfactor (ts : Except (DynamicsError R) (List (Term K))) :
      ts.map (List.map (·.expGate x)) =
        (ts.map (List.map Term.action)).map (List.map fun a => (⟨a, none⟩ : Term K).expGate x) := by
    cases ts with
    | error e => rfl
    | ok ts =>
      refine congrArg Except.ok ?_
      rw [List.map_map]
      rfl
  rw [gatesAt, hfactor, hfactor, map_action_mergedTerms h]

variable [NatCast R]

theorem prepare_blend (h : p.Separated) (hne : ¬(p.start.terms = [] ∧ p.final.terms = [])) {x : R}
    (hx : Settings.isDuration x = true) :
    ProductFormula.prepare (blend id p.start p.final s) ⟨x, .first⟩ =
      (p.gatesAt x s).map (ProductFormula.mk (blend id p.start p.final s).nqubits ⟨x, .first⟩) := by
  have hterms : (blend id p.start p.final s).terms.isEmpty = false := by
    rw [Bool.eq_false_iff]
    simpa [blend, Hamiltonian.ofTerms] using hne
  simp only [ProductFormula.prepare, Settings.validate, hx, hterms, gatesAt_eq h id]
  cases (blend id p.start p.final s).mergedTerms (R := R) <;> rfl

/-- With a constant schedule every step applies the same gates. -/
theorem steps_const {total : R} {n : ℕ} {gates : List (Gate K)} (hgates : p.gatesAt (total / (n : R)) s = .ok gates)
    (width remaining : ℕ) (state : State K) :
    p.steps (fun _ => s) total n remaining state =
      (ProductFormula.mk width ⟨total / (n : R), .first⟩ gates).steps remaining state := by
  induction remaining generalizing state with
  | zero => rfl
  | succ remaining ih =>
    simp only [steps, step_eq, hgates, ProductFormula.steps, ProductFormula.step, ih]
    rfl

/-- Under a constant schedule an interpolation evolves a state as the first order product formula
of the weighted terms does, with steps of the same length; if one of them fails, both do. -/
theorem evolve_const_eq_steps (hR : StepsAreDurations R) (start final : Hamiltonian K) (hids : start.id ≠ final.id)
    (hstart : ∀ t ∈ start.terms, t.owner = some start.id) (hfinal : ∀ t ∈ final.terms, t.owner = some final.id)
    (p : Interpolation K) (hp : between start final = (.ok p : Except (DynamicsError R) _)) (id : OwnerId)
    (s total dt : R) (hdt : Settings.isDuration dt = true) (n : ℕ) (hn : stepCount total dt = .ok n)
    (state : State K) :
    p.evolve state (fun _ => s) total dt =
      ProductFormula.prepare (blend id start final s) ⟨total / (n : R), .first⟩ >>= fun f => f.steps n state := by
  obtain ⟨hne, rfl, rfl, hclusters⟩ := between_cases hp
  have hsep : p.Separated := ⟨hids, hstart, hfinal, hclusters⟩
  have hevolve : p.evolve state (fun _ => s) total dt = p.steps (fun _ => s) total n n state := by
    simp only [evolve, hdt, hn]
    rfl
  rw [hevolve, prepare_blend hsep hne (hR total dt n hdt hn)]
  cases hgates : p.gatesAt (total / (n : R)) s with
  | ok gates => exact steps_const hgates _ n state
  | error e =>
    obtain ⟨k, rfl⟩ := Nat.exists_eq_succ_of_ne_zero (stepCount_eq_ok_iff.1 hn).2.1
    rw [steps, step_eq, hgates]
    rfl

end Constant

/-- Four steps at one third between two Hamiltonians of three qubits. -/
theorem evolve_const_eq_steps_third :
    let flip (q : ℕ) : Term ℂ :=
      ⟨.product ((Product.ofCoefficient 3).absorb (.operator ⟨"X", q, Pauli.x.matrix⟩ 1)), none⟩
    let pair (q q' : ℕ) : Term ℂ := ⟨.dense [q, q'] (.ofFn 4 4 fun r c => r + 2 * c * Complex.I), none⟩
    let start : Hamiltonian ℂ := .ofTerms ⟨4⟩ [flip 1, pair 2 0]
    let final : Hamiltonian ℂ := .ofTerms ⟨9⟩ [flip 0, pair 1 2]
    ∃ p : Interpolation ℂ, between start final = (.ok p : Except (DynamicsError ℝ) _) ∧
      stepCount (1 : ℝ) (1 / 4) = .ok 4 ∧
      p.evolve (State.zero 3) (fun _ => 1 / 3) (1 : ℝ) (1 / 4) =
        ProductFormula.prepare (blend ⟨12⟩ start final (1 / 3 : ℝ)) ⟨1 / ((4 : ℕ) : ℝ), .first⟩ >>=
          fun f => f.steps 4 (State.zero 3) := by
  intro flip pair start final
  have hne : ¬(start.terms = [] ∧ final.terms = []) := by simp [start, Hamiltonian.ofTerms]
  have hcount : stepCount (1 : ℝ) (1 / 4) = .ok 4 :=
    stepCount_eq_ok one_pos (by decide) (by decide) (by norm_num) (by norm_num)
  refine ⟨_, between_eq_ok rfl hne, hcount, ?_⟩
  exact evolve_const_eq_steps stepsAreDurations_real start final (by decide) (Hamiltonian.owned_ofTerms _ _)
    (Hamiltonian.owned_ofTerms _ _) _ (between_eq_ok rfl hne) ⟨12⟩ _ _ _ (Settings.isDuration_iff.2 (by norm_num)) 4
    hcount _

end Interpolation

end QubitDynamics
