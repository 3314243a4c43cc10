import QubitDynamics.Proofs.Scaling

/-! Which factors a product takes. A factor is admissible or not by itself: the
imaginary unit always is, a scalar if its exponent is in range, and an operator if it
is a two by two matrix on a qubit to a power that can be written out. What is wrong
with any other factor is said by grounds of refusal, of which the first one in a fixed
order is reported. A product of factors exists if and only if all of them are
admissible, and otherwise is refused because of the first that is not. -/

namespace QubitDynamics

variable {K R : Type}

/-! ### Admissible factors -/

namespace Factor

/-- The symbol that a factor repeats, and how often. -/
def repeated? : Factor K → Option (Symbol K × ℤ)
  | symbol s => some (s, 1)
  | power s e => some (s, e)
  | imaginaryUnit => none
  | unread _ => none

/-- Factors that can stand in a product. The qubit of a scalar plays no part. -/
inductive Admissible : Factor K → Prop where
  | imaginaryUnit : Admissible imaginaryUnit
  | scalar {f : Factor K} {s : Symbol K} {e : ℤ} {z : K} (hf : f.repeated? = some (s, e)) (hz : s.value = .scalar z)
      (hpos : 1 ≤ e) (hlt : e < 2 ^ 32) : Admissible f
  | operator {f : Factor K} {s : Symbol K} {e : ℤ} {t : Tensor K} (hf : f.repeated? = some (s, e))
      (ht : s.value = .tensor t) (hshape : t.shape = [2, 2]) (hqubit : 0 ≤ s.qubit) (hpos : 1 ≤ e) (hle : e ≤ 4096) :
      Admissible f

end Factor

inductive Ground where
  | unreadable | scalarExponent | notOperator | dimension | operatorExponent | negativeQubit

namespace Ground

/-- The place of a ground in the order in which they count. -/
def rank : Ground → ℕ
  | unreadable => 0
  | scalarExponent => 1
  | notOperator => 2
  | dimension => 3
  | operatorExponent => 4
  | negativeQubit => 5

/-- A ground applies to a factor and has it refused with a fault. No ground looks at the others. -/
inductive Refuses : Ground → Factor K → TermFault → Prop where
  | unread (text : String) : Refuses unreadable (.unread text) (.unreadableFactor text)
  | exponent {s : Symbol K} {e : ℤ} (he : e < 1) :
      Refuses unreadable (.power s e) (.unreadableFactor (Factor.power s e).text)
  | scalarExponent {f : Factor K} {s : Symbol K} {e : ℤ} {z : K} (hf : f.repeated? = some (s, e))
      (hz : s.value = .scalar z) (he : 2 ^ 32 ≤ e) : Refuses scalarExponent f (.unreadableFactor f.text)
  | notOperator {f : Factor K} {s : Symbol K} {e : ℤ} {t : Tensor K} (hf : f.repeated? = some (s, e))
      (ht : s.value = .tensor t) (hshape : ∀ d, d ≠ 0 → t.shape ≠ [d, d]) :
      Refuses notOperator f (.notOperator t.shape)
  | dimension {f : Factor K} {s : Symbol K} {e : ℤ} {t : Tensor K} {d : ℕ} (hf : f.repeated? = some (s, e))
      (ht : s.value = .tensor t) (hshape : t.shape = [d, d]) (hd : d ≠ 2) :
      Refuses dimension f (.dimensionMismatch d 1)
  | operatorExponent {f : Factor K} {s : Symbol K} {e : ℤ} {t : Tensor K} (hf : f.repeated? = some (s, e))
      (ht : s.value = .tensor t) (he : 4096 < e) : Refuses operatorExponent f (.unreadableFactor f.text)
  | negativeQubit {f : Factor K} {s : Symbol K} {e : ℤ} {t : Tensor K} (hf : f.repeated? = some (s, e))
      (ht : s.value = .tensor t) (hqubit : s.qubit < 0) : Refuses negativeQubit f (.invalidQubit s.qubit)

theorem rank_injective : Function.Injective rank := by
  intro g g' h
  cases g <;> cases g' <;> first | rfl | cases h

end Ground

/-- The fault of the first ground that applies to a factor. -/
def Factor.Refused (f : Factor K) (e : TermFault) : Prop :=
  ∃ g : Ground, g.Refuses f e ∧ ∀ g' : Ground, ∀ e', g'.Refuses f e' → g.rank ≤ g'.rank

namespace Ground.Refuses

variable {g : Ground} {f : Factor K} {fault : TermFault} {s : Symbol K} {e : ℤ}

/-- Only one ground applies to scalars to a positive power. -/
theorem of_scalar (h : g.Refuses f fault) (hf : f.repeated? = some (s, e)) (hpos : 1 ≤ e) {z : K}
    (hz : s.value = .scalar z) : g = .scalarExponent ∧ 2 ^ 32 ≤ e ∧ fault = .unreadableFactor f.text := by
  cases h with
  | unread text => cases hf
  | exponent he =>
    cases hf
    omega
  | scalarExponent hf' hz' he =>
    cases hf.symm.trans hf'
    exact ⟨rfl, he, rfl⟩
  | notOperator hf' ht _ | dimension hf' ht _ _ | operatorExponent hf' ht _ | negativeQubit hf' ht _ =>
    cases hf.symm.trans hf'
    cases hz.symm.trans ht

/-- Four grounds apply to tensors to a positive power. -/
theorem of_tensor (h : g.Refuses f fault) (hf : f.repeated? = some (s, e)) (hpos : 1 ≤ e) {t : Tensor K}
    (ht : s.value = .tensor t) :
    (g = .notOperator ∧ (∀ d, d ≠ 0 → t.shape ≠ [d, d]) ∧ fault = .notOperator t.shape) ∨
      (g = .dimension ∧ ∃ d, t.shape = [d, d] ∧ d ≠ 2 ∧ fault = .dimensionMismatch d 1) ∨
      (g = .operatorExponent ∧ 4096 < e ∧ fault = .unreadableFactor f.text) ∨
      (g = .negativeQubit ∧ s.qubit < 0 ∧ fault = .invalidQubit s.qubit) := by
  cases h with
  | unread text => cases hf
  | exponent he =>
    cases hf
    omega
  | scalarExponent hf' hz _ =>
    cases hf.symm.trans hf'
    cases ht.symm.trans hz
  | notOperator hf' ht' hshape =>
    cases hf.symm.trans hf'
    cases ht.symm.trans ht'
    exact .inl ⟨rfl, hshape, rfl⟩
  | dimension hf' ht' hshape hd =>
    cases hf.symm.trans hf'
    cases ht.symm.trans ht'
    exact .inr (.inl ⟨rfl, _, hshape, hd, rfl⟩)
  | operatorExponent hf' _ he =>
    cases hf.symm.trans hf'
    exact .inr (.inr (.inl ⟨rfl, he, rfl⟩))
  | negativeQubit hf' _ hqubit =>
    cases hf.symm.trans hf'
    exact .inr (.inr (.inr ⟨rfl, hqubit, rfl⟩))

theorem fault_unique {fault' : TermFault} (h : g.Refuses f fault) (h' : g.Refuses f fault') : fault = fault' := by
  cases h with
  | unread text =>
    cases h'
    rfl
  | exponent he =>
    cases h'
    rfl
  | scalarExponent hf _ _ =>
    cases h'
    rfl
  | notOperator hf ht _ =>
    cases h' with
    | notOperator hf' ht' _ =>
      cases hf.symm.trans hf'
      cases ht.symm.trans ht'
      rfl
  | dimension hf ht hshape _ =>
    cases h' with
    | dimension hf' ht' hshape' _ =>
      cases hf.symm.trans hf'
      cases ht.symm.trans ht'
      cases hshape.symm.trans hshape'
      rfl
  | operatorExponent hf _ _ =>
    cases h'
    rfl
  | negativeQubit hf _ _ =>
    cases h' with
    | negativeQubit hf' _ _ =>
      cases hf.symm.trans hf'
      rfl

end Ground.Refuses

/-- No ground applies to an admissible factor. -/
theorem Factor.Admissible.not_refuses {f : Factor K} (h : f.Admissible) (g : Ground) (fault : TermFault) :
    ¬ g.Refuses f fault := by
  intro hg
  cases h with
  | imaginaryUnit =>
    cases hg with
    | scalarExponent hf | notOperator hf | dimension hf | operatorExponent hf | negativeQubit hf => cases hf
  | scalar hf hz hpos hlt =>
    obtain ⟨-, he, -⟩ := hg.of_scalar hf hpos hz
    omega
  | operator hf ht hshape hqubit hpos hle =>
    rcases hg.of_tensor hf hpos ht with ⟨-, hshape', -⟩ | ⟨-, d, hshape', hd, -⟩ | ⟨-, he, -⟩ | ⟨-, hnegative, -⟩
    · exact hshape' 2 (by decide) hshape
    · cases hshape.symm.trans hshape'
      exact hd rfl
    · omega
    · omega

theorem Factor.Refused.not_admissible {f : Factor K} {fault : TermFault} (h : f.Refused fault) : ¬ f.Admissible := by
  obtain ⟨g, hg, -⟩ := h
  exact fun hf => hf.not_refuses g fault hg

/-- Only one fault is reported. -/
theorem Factor.Refused.unique {f : Factor K} {fault fault' : TermFault} (h : f.Refused fault) (h' : f.Refused fault') :
    fault = fault' := by
  obtain ⟨g, hg, hfirst⟩ := h
  obtain ⟨g', hg', hfirst'⟩ := h'
  obtain rfl : g = g' := Ground.rank_injective (le_antisymm (hfirst g' _ hg') (hfirst' g _ hg))
  exact hg.fault_unique hg'

/-! ### What a symbol to a power contributes -/

theorem Tensor.isOperator_iff {t : Tensor K} : t.isOperator = true ↔ ∃ d, d ≠ 0 ∧ t.shape = [d, d] := by
  obtain ⟨shape, data, hsize⟩ := t
  rcases shape with _ | ⟨rows, _ | ⟨cols, _ | ⟨x, rest⟩⟩⟩
  · simp [isOperator]
  · simp [isOperator]
  · simp only [isOperator, Bool.and_eq_true, decide_eq_true_eq]
    constructor
    · rintro ⟨rfl, hd⟩
      exact ⟨rows, hd, rfl⟩
    · rintro ⟨d, hd, h⟩
      cases h
      exact ⟨rfl, hd⟩
  · simp [isOperator]

theorem Tensor.exists_toMat? {t : Tensor K} {rows cols : ℕ} (h : t.shape = [rows, cols]) :
    ∃ m, t.toMat? = some m ∧ m.HasShape rows cols := by
  obtain ⟨shape, data, hsize⟩ := t
  cases h
  exact ⟨_, rfl, rfl, rfl⟩

section

variable [One K] [Mul K]

theorem Symbol.contribution_scalar {s : Symbol K} {z : K} (hz : s.value = .scalar z) (p : ℕ) (text : String) :
    s.contribution p text =
      if 2 ^ 32 ≤ p then .error (.unreadableFactor text) else .ok (.scalar (scalarPower z p)) := by
  rw [contribution, hz]
  rfl

theorem Symbol.contribution_notOperator {s : Symbol K} {t : Tensor K} (ht : s.value = .tensor t)
    (hshape : ∀ d, d ≠ 0 → t.shape ≠ [d, d]) (p : ℕ) (text : String) :
    s.contribution p text = .error (.notOperator t.shape) := by
  have hop : ¬ t.isOperator = true := fun h => by
    obtain ⟨d, hd, hsquare⟩ := Tensor.isOperator_iff.1 h
    exact hshape d hd hsquare
  rw [contribution, ht]
  exact if_pos (by simpa using hop)

theorem Symbol.contribution_square {s : Symbol K} {t : Tensor K} (ht : s.value = .tensor t) {d : ℕ} (hd : d ≠ 0)
    (hshape : t.shape = [d, d]) (p : ℕ) (text : String) :
    ∃ m, s.contribution p text =
      if d ≠ 2 then .error (.dimensionMismatch d 1)
      else if 4096 < p then .error (.unreadableFactor text)
      else if s.qubit < 0 then .error (.invalidQubit s.qubit)
      else .ok (.operator ⟨s.name, s.qubit.toNat, m⟩ p) := by
  obtain ⟨m, hm, hrows, -⟩ := Tensor.exists_toMat? hshape
  have hop := Tensor.isOperator_iff.2 ⟨d, hd, hshape⟩
  refine ⟨m, ?_⟩
  simp only [contribution, ht, hop, hm, hrows, Bool.not_true, Bool.false_eq_true, if_false]
  rfl

variable [Zero R] [One R] [ComplexScalar K R]

theorem Factor.contribution_of_repeated {f : Factor K} {s : Symbol K} {e : ℤ} (hf : f.repeated? = some (s, e)) :
    f.contribution = if e < 1 then .error (.unreadableFactor f.text) else s.contribution e.toNat f.text := by
  cases f with
  | symbol s' =>
    cases hf
    rfl
  | power s' e' =>
    cases hf
    rfl
  | imaginaryUnit => cases hf
  | unread text => cases hf

namespace Factor

/-- A factor is admissible and contributes to a product, or is refused on the first ground that applies. -/
def Judged (f : Factor K) : Prop :=
  (f.Admissible ∧ ∃ c, f.contribution = .ok c) ∨ ∃ fault, f.Refused fault ∧ f.contribution = .error fault

section

variable {f : Factor K} {s : Symbol K} {e : ℤ}

theorem judged_scalar (hf : f.repeated? = some (s, e)) (hpos : 1 ≤ e) {z : K} (hz : s.value = .scalar z) :
    f.Judged := by
  rw [Judged, contribution_of_repeated hf, if_neg (by omega), Symbol.contribution_scalar hz]
  by_cases hlt : e < 2 ^ 32
  · exact .inl ⟨.scalar hf hz hpos hlt, _, if_neg (by omega)⟩
  · refine .inr ⟨_, ⟨_, .scalarExponent hf hz (by omega), fun g' fault' h => ?_⟩, if_pos (by omega)⟩
    obtain ⟨rfl, -⟩ := h.of_scalar hf hpos hz
    exact le_rfl

theorem judged_tensor (hf : f.repeated? = some (s, e)) (hpos : 1 ≤ e) {t : Tensor K} (ht : s.value = .tensor t) :
    f.Judged := by
  rw [Judged, contribution_of_repeated hf, if_neg (by omega)]
  by_cases hoperator : ∃ d, d ≠ 0 ∧ t.shape = [d, d]
  · obtain ⟨d, hd, hshape⟩ := hoperator
    obtain ⟨m, hm⟩ := Symbol.contribution_square ht hd hshape e.toNat f.text
    have hgrounds {g : Ground} {fault : TermFault} (h : g.Refuses f fault) :
        (g = .dimension ∧ d ≠ 2) ∨ (g = .operatorExponent ∧ 4096 < e) ∨ (g = .negativeQubit ∧ s.qubit < 0) := by
      rcases h.of_tensor hf hpos ht with ⟨-, hshape', -⟩ | ⟨hg, d', hshape', hd', -⟩ | ⟨hg, he, -⟩ | ⟨hg, hqubit, -⟩
      · exact absurd hshape (hshape' d hd)
      · cases hshape.symm.trans hshape'
        exact .inl ⟨hg, hd'⟩
      · exact .inr (.inl ⟨hg, he⟩)
      · exact .inr (.inr ⟨hg, hqubit⟩)
    rw [hm]
    split_ifs with htwo hlimit hqubit
    · refine .inr ⟨_, ⟨_, .dimension hf ht hshape htwo, fun g' fault' h => ?_⟩, rfl⟩
      rcases hgrounds h with ⟨rfl, -⟩ | ⟨rfl, -⟩ | ⟨rfl, -⟩ <;> decide
    · refine .inr ⟨_, ⟨_, .operatorExponent hf ht (by omega), fun g' fault' h => ?_⟩, rfl⟩
      rcases hgrounds h with ⟨-, hd'⟩ | ⟨rfl, -⟩ | ⟨rfl, -⟩
      · exact absurd hd' htwo
      · decide
      · decide
    · refine .inr ⟨_, ⟨_, .negativeQubit hf ht hqubit, fun g' fault' h => ?_⟩, rfl⟩
      rcases hgrounds h with ⟨-, hd'⟩ | ⟨-, he⟩ | ⟨rfl, -⟩
      · exact absurd hd' htwo
      · omega
      · decide
    · rw [not_not] at htwo
      subst htwo
      exact .inl ⟨.operator hf ht hshape (by omega) hpos (by omega), _, rfl⟩
  · have hshape : ∀ d, d ≠ 0 → t.shape ≠ [d, d] := fun d hd hs => hoperator ⟨d, hd, hs⟩
    refine .inr ⟨_, ⟨_, .notOperator hf ht hshape, fun g' fault' h => ?_⟩,
      Symbol.contribution_notOperator ht hshape _ _⟩
    rcases h.of_tensor hf hpos ht with ⟨rfl, -⟩ | ⟨rfl, -⟩ | ⟨rfl, -⟩ | ⟨rfl, -⟩ <;> decide

end

theorem judged (f : Factor K) : f.Judged := by
  have hunreadable {g : Ground} : Ground.unreadable.rank ≤ g.rank := Nat.zero_le _
  have hsymbol {s : Symbol K} {e : ℤ} (hf : f.repeated? = some (s, e)) (hpos : 1 ≤ e) : f.Judged := by
    cases hvalue : s.value with
    | scalar z => exact judged_scalar hf hpos hvalue
    | tensor t => exact judged_tensor hf hpos hvalue
  cases f with
  | symbol s => exact hsymbol rfl le_rfl
  | power s e =>
    by_cases hpos : 1 ≤ e
    · exact hsymbol rfl hpos
    · have he : e < 1 := by omega
      exact .inr ⟨_, ⟨_, .exponent he, fun _ _ _ => hunreadable⟩, if_pos he⟩
  | imaginaryUnit => exact .inl ⟨.imaginaryUnit, _, rfl⟩
  | unread text => exact .inr ⟨_, ⟨_, .unread text, fun _ _ _ => hunreadable⟩, rfl⟩

theorem exists_contribution_iff {f : Factor K} : (∃ c, f.contribution = .ok c) ↔ f.Admissible := by
  rcases f.judged with ⟨hf, hc⟩ | ⟨fault, hrefused, hfault⟩
  · exact iff_of_true hc hf
  · refine iff_of_false ?_ hrefused.not_admissible
    rintro ⟨c, hc⟩
    cases hc.symm.trans hfault

theorem contribution_eq_error_iff {f : Factor K} {fault : TermFault} :
    f.contribution = .error fault ↔ f.Refused fault := by
  rcases f.judged with ⟨hf, c, hc⟩ | ⟨fault', hrefused, hfault⟩
  · refine iff_of_false ?_ fun hrefused => hrefused.not_admissible hf
    intro hfault
    cases hc.symm.trans hfault
  · constructor
    · intro h
      cases hfault.symm.trans h
      exact hrefused
    · intro h
      rw [hfault, h.unique hrefused]

end Factor

end

/-! ### Products of factors -/

section

variable [Zero K] [One K] [Add K] [Mul K] [Zero R] [One R] [ComplexScalar K R]

theorem Term.ofFactors_eq_map (k : K) (fs : List (Factor K)) :
    ofFactors k fs = (fs.mapM Factor.contribution).map fun cs =>
      ⟨.product (cs.foldl Product.absorb (.ofCoefficient k)), none⟩ := by
  rw [ofFactors, Product.ofFactors]
  cases fs.mapM Factor.contribution <;> rfl

/-- A product is made of all admissible factors. -/
theorem Term.exists_ofFactors_iff {k : K} {fs : List (Factor K)} :
    (∃ t, ofFactors k fs = .ok t) ↔ ∀ f ∈ fs, f.Admissible := by
  have hmap : (∃ t, ofFactors k fs = .ok t) ↔ ∃ cs, fs.mapM Factor.contribution = .ok cs := by
    rw [ofFactors_eq_map]
    cases fs.mapM Factor.contribution <;> simp [Except.map]
  simp only [hmap, exists_mapM_eq_ok_iff, Factor.exists_contribution_iff]

/-- A product is refused because of the first factor that is not admissible. -/
theorem Term.ofFactors_eq_error_iff {k : K} {fs : List (Factor K)} {fault : TermFault} :
    ofFactors k fs = .error fault ↔
      ∃ (before after : List (Factor K)) (f : Factor K), fs = before ++ f :: after ∧
        (∀ x ∈ before, x.Admissible) ∧ ¬ f.Admissible ∧ f.Refused fault := by
  have hmap : ofFactors k fs = .error fault ↔ fs.mapM Factor.contribution = .error fault := by
    rw [ofFactors_eq_map]
    cases fs.mapM Factor.contribution <;> simp [Except.map]
  have hrefused {f : Factor K} : f.Refused fault ↔ ¬ f.Admissible ∧ f.Refused fault :=
    (and_iff_right_of_imp Factor.Refused.not_admissible).symm
  simp only [hmap, mapM_eq_error_iff, Factor.exists_contribution_iff, Factor.contribution_eq_error_iff, ← hrefused]

end

/-! ### The coefficient of a product -/

namespace Factor

def isImaginaryUnit : Factor K → Bool
  | imaginaryUnit => true
  | _ => false

def scalarPower? [Monoid K] (f : Factor K) : Option K :=
  f.repeated?.bind fun (s, e) =>
    match s.value with
    | .scalar z => some (z ^ e.toNat)
    | .tensor _ => none

variable [CommSemiring K] [Zero R] [One R] [ComplexScalar K R]

/-- A factor is an imaginary unit, a power of a scalar, or leaves the coefficient alone. -/
theorem foldedScalar_mul (f : Factor K) (units : ℕ) (zs : List K) :
    f.foldedScalar * (ComplexScalar.unit ^ units * zs.prod) =
      ComplexScalar.unit ^ (units + if f.isImaginaryUnit then 1 else 0) * (f.scalarPower?.toList ++ zs).prod := by
  have hsymbol {s : Symbol K} {e : ℤ} (hf : f.repeated? = some (s, e)) (hunit : f.isImaginaryUnit = false)
      (hfolded : f.foldedScalar = s.foldedScalar e.toNat) :
      f.foldedScalar * (ComplexScalar.unit ^ units * zs.prod) =
        ComplexScalar.unit ^ (units + if f.isImaginaryUnit then 1 else 0) * (f.scalarPower?.toList ++ zs).prod := by
    cases hvalue : s.value with
    | scalar z =>
      have hpower : f.scalarPower? = some (z ^ e.toNat) := by simp [scalarPower?, hf, hvalue]
      rw [hfolded, hunit, hpower, Symbol.foldedScalar, hvalue]
      simp [mul_left_comm]
    | tensor t =>
      have hpower : f.scalarPower? = none := by simp [scalarPower?, hf, hvalue]
      rw [hfolded, hunit, hpower, Symbol.foldedScalar, hvalue]
      simp
  cases f with
  | symbol s => exact hsymbol rfl rfl rfl
  | power s e => exact hsymbol rfl rfl rfl
  | imaginaryUnit =>
    show ComplexScalar.unit * (ComplexScalar.unit ^ units * zs.prod) = ComplexScalar.unit ^ (units + 1) * zs.prod
    rw [pow_succ', mul_assoc]
  | unread text => exact one_mul _

/-- Imaginary units and powers of scalars are gathered in the coefficient. -/
theorem prod_foldedScalar (fs : List (Factor K)) :
    (fs.map foldedScalar).prod =
      ComplexScalar.unit ^ fs.countP isImaginaryUnit * (fs.filterMap scalarPower?).prod := by
  rw [List.filterMap_eq_flatMap_toList]
  induction fs with
  | nil => simp
  | cons f fs ih => rw [List.map_cons, List.prod_cons, ih, foldedScalar_mul, List.countP_cons, List.flatMap_cons]

end Factor

/-- Whatever the scalars are, factors make a product if and only if each of them is admissible, and otherwise
the first one that is not is refused on the first ground that applies to it. With exact scalars the coefficient is
the given one times a power of the imaginary unit and the powers of all scalars, and each operator occurs as often
as its exponent says, in the order of the factors. -/
theorem Term.ofFactors_admissible_or_refused :
    (∀ {K R : Type} [Zero K] [One K] [Add K] [Mul K] [Zero R] [One R] [ComplexScalar K R]
        (k : K) (fs : List (Factor K)),
      ((∃ t, ofFactors k fs = .ok t) ↔ ∀ f ∈ fs, f.Admissible) ∧
      ∀ fault, ofFactors k fs = .error fault ↔
        ∃ (before after : List (Factor K)) (f : Factor K), fs = before ++ f :: after ∧
          (∀ x ∈ before, x.Admissible) ∧ ¬ f.Admissible ∧ f.Refused fault) ∧
    ∀ {K R : Type} [CommSemiring K] [Zero R] [One R] [ComplexScalar K R] (k : K) (fs : List (Factor K)) (t : Term K),
      ofFactors k fs = .ok t → ∃ p, t.product? = some p ∧
        p.coefficient = k * ComplexScalar.unit ^ fs.countP Factor.isImaginaryUnit *
          (fs.filterMap Factor.scalarPower?).prod ∧
        p.occurrences = fs.flatMap Factor.occurrences := by
  refine ⟨fun k fs => ⟨exists_ofFactors_iff, fun fault => ofFactors_eq_error_iff⟩, fun k fs t ht => ?_⟩
  obtain ⟨p, hp, -, hoccurrences, hcoefficient⟩ := Product.ofFactors_spec ht
  refine ⟨p, hp, ?_, hoccurrences⟩
  rw [hcoefficient, Factor.prod_foldedScalar, mul_assoc]

/-- A scalar on a negative qubit among accepted factors, and a factor to which three grounds apply before one that
cannot be read. -/
theorem Term.ofFactors_admissible_or_refused_mixed :
    let g : Factor ℂ := .power ⟨"g", -1, .scalar 3⟩ 2
    let flips : Factor ℂ := .power (.pauli .x 1) 2
    let wide : Factor ℂ := .power ⟨"m", -2, .tensor (Mat.identity 3).toTensor⟩ 5000
    (∃ t p, ofFactors 2 [g, .imaginaryUnit, flips] = .ok t ∧ t.product? = some p ∧ p.coefficient = 18 * Complex.I ∧
      p.occurrences = List.replicate 2 ⟨"X1", 1, Pauli.x.matrix⟩) ∧
    ofFactors 2 [g, wide, .unread "?"] = .error (.dimensionMismatch 3 1) := by
  intro g flips wide
  have hg : g.Admissible := .scalar rfl rfl (by norm_num) (by norm_num)
  have hflips : flips.Admissible := .operator rfl rfl rfl (by decide) (by norm_num) (by norm_num)
  have hwide : wide.Refused (.dimensionMismatch 3 1) := by
    refine ⟨_, .dimension rfl rfl rfl (by decide), fun g' fault' h => ?_⟩
    rcases h.of_tensor rfl (by norm_num) rfl with ⟨-, hshape, -⟩ | ⟨rfl, -⟩ | ⟨rfl, -⟩ | ⟨rfl, -⟩
    · exact absurd rfl (hshape 3 (by decide))
    · decide
    · decide
    · decide
  obtain ⟨hany, hexact⟩ := ofFactors_admissible_or_refused
  constructor
  · have hall : ∀ f ∈ [g, .imaginaryUnit, flips], f.Admissible := by simp [hg, hflips, Factor.Admissible.imaginaryUnit]
    obtain ⟨t, ht⟩ := (hany (2 : ℂ) _).1.2 hall
    obtain ⟨p, hp, hcoefficient, hoccurrences⟩ := hexact _ _ t ht
    have hunits : [g, .imaginaryUnit, flips].countP Factor.isImaginaryUnit = 1 := rfl
    have hscalars : [g, .imaginaryUnit, flips].filterMap Factor.scalarPower? = [3 ^ 2] := rfl
    refine ⟨t, p, ht, hp, ?_, hoccurrences⟩
    rw [hcoefficient, hunits, hscalars, pow_one, unit_eq_I, List.prod_singleton]
    ring
  · exact ((hany (2 : ℂ) [g, wide, .unread "?"]).2 _).2
      ⟨[g], [.unread "?"], wide, rfl, by simpa using hg, hwide.not_admissible, hwide⟩

end QubitDynamics
