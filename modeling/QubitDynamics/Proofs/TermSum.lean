import QubitDynamics.Hamiltonian.Basic
import QubitDynamics.Proofs.ExactScalar
import QubitDynamics.Proofs.InPlace
import QubitDynamics.Proofs.Loops

/-! Sums of terms on a register. A term is well formed when its qubits are distinct
and its matrix has their dimension; it then has an operator on every register that
holds its qubits. The register of a Hamiltonian holds the qubits of all its terms,
and the matrix of the Hamiltonian there is the sum of their operators. -/

namespace QubitDynamics

open Register

variable {K R : Type}

theorem Tensor.toMat?_of_isOperator {t : Tensor K} (h : t.isOperator = true) :
    ∃ m, t.toMat? = some m ∧ m.rows = m.cols := by
  obtain ⟨shape, data, hsize⟩ := t
  rcases shape with _ | ⟨rows, _ | ⟨cols, _ | ⟨x, rest⟩⟩⟩
  · simp [isOperator] at h
  · simp [isOperator] at h
  · simp only [isOperator, Bool.and_eq_true, decide_eq_true_eq] at h
    exact ⟨_, rfl, h.1⟩
  · simp [isOperator] at h

theorem nodup_of_checkQubits_go {qubits : List ℤ} {seen targets : List ℕ} (hseen : seen.Nodup)
    (h : checkQubits.go seen qubits = .ok targets) : targets.Nodup := by
  induction qubits generalizing seen with
  | nil =>
    cases h
    exact hseen
  | cons q qubits ih =>
    rw [checkQubits.go] at h
    split_ifs at h with hnegative hmem
    exact ih (hseen.append (List.nodup_singleton _) (List.disjoint_singleton.2 hmem)) h

namespace Term

/-- Terms whose qubits are distinct and whose matrix has their dimension. -/
structure WellFormed (t : Term K) : Prop where
  nodup : t.qubits.Nodup
  shape : t.matrix.HasShape (2 ^ t.arity) (2 ^ t.arity)

/-- A well-formed term on a register of `n` qubits. -/
structure Fits (n : ℕ) (t : Term K) : Prop extends t.WellFormed where
  lt : ∀ q ∈ t.qubits, q < n

def operator [Zero K] (n : ℕ) (t : Term K) : Matrix (Fin (2 ^ n)) (Fin (2 ^ n)) K :=
  Register.operator n t.qubits t.matrix

/-- A dense term is only accepted if it is well formed. -/
theorem ofValue_cases {value : Value K} {qubits : List ℤ} {t : Term K} (h : ofValue value qubits = .ok t) :
    ∃ targets m, t = ⟨.dense targets m, none⟩ ∧ t.WellFormed := by
  unfold ofValue at h
  cases hqubits : checkQubits qubits with
  | error e => simp [hqubits, bind, Except.bind] at h
  | ok targets =>
    have hnodup := nodup_of_checkQubits_go List.nodup_nil hqubits
    have hdense {m : Mat K} (hsquare : m.rows = m.cols) (hrows : ¬m.rows ≠ 2 ^ targets.length) :
        (⟨.dense targets m, none⟩ : Term K).WellFormed :=
      ⟨hnodup, not_not.1 hrows, hsquare ▸ not_not.1 hrows⟩
    cases value with
    | scalar z =>
      simp only [hqubits, bind, Except.bind, pure, Except.pure] at h
      split_ifs at h with hrows
      cases h
      exact ⟨targets, _, rfl, hdense rfl hrows⟩
    | tensor a =>
      by_cases hop : a.isOperator = true
      · obtain ⟨m, hm, hsquare⟩ := Tensor.toMat?_of_isOperator hop
        simp only [hqubits, hop, hm, Bool.not_true, Bool.false_eq_true, if_false, bind, Except.bind, pure,
          Except.pure] at h
        split_ifs at h with hrows
        cases h
        exact ⟨targets, m, rfl, hdense hsquare hrows⟩
      · simp [hqubits, hop, bind, Except.bind] at h

theorem Fits.targets {n : ℕ} {t : Term K} (h : t.Fits n) : Targets n t.qubits := ⟨h.lt, h.nodup⟩

theorem Fits.withOwner {n : ℕ} {t : Term K} (h : t.Fits n) (id : OwnerId) : (t.withOwner id).Fits n :=
  ⟨⟨h.nodup, h.shape⟩, h.lt⟩

theorem qubits_scaled [Zero K] [Mul K] (k : K) (t : Term K) : (t.scaled k).qubits = t.qubits := by
  rcases t with ⟨_ | _, _⟩ <;> rfl

theorem matrix_scaled [Zero K] [Mul K] (k : K) (t : Term K) : (t.scaled k).matrix = t.matrix.scale k := by
  rcases t with ⟨_ | _, _⟩ <;> rfl

theorem WellFormed.scaled [Zero K] [Mul K] {t : Term K} (h : t.WellFormed) (k : K) : (t.scaled k).WellFormed where
  nodup := by rw [qubits_scaled]; exact h.nodup
  shape := by rw [matrix_scaled, arity, qubits_scaled]; exact h.shape.scale k

theorem operator_scaled [CommSemiring K] {t : Term K} (h : t.WellFormed) (n : ℕ) (k : K) :
    (t.scaled k).operator n = k • t.operator n := by
  rw [operator, qubits_scaled, matrix_scaled]
  exact operator_scale h.shape k

/-! ### Sums of embedded terms -/

variable {n : ℕ} {terms : List (Term K)}

def embedded [Zero K] (n : ℕ) (t : Term K) : Mat K := embedding t.matrix t.qubits n

theorem Fits.embed_eq [Zero K] {t : Term K} (h : t.Fits n) (hn : n < 64) :
    embed t.matrix t.qubits n = .ok (t.embedded n) := h.targets.embed_eq hn h.shape

/-- Terms that can be merged: the dimension of the qubits of each is a word. -/
def Small (terms : List (Term K)) : Prop := ∀ t ∈ terms, t.arity < 64

theorem Fits.arity_lt {t : Term K} (h : t.Fits n) (hn : n < 64) : t.arity < 64 := h.targets.length_le.trans_lt hn

theorem small_of_fits (hn : n < 64) (h : ∀ t ∈ terms, t.Fits n) : Small terms := fun t ht => (h t ht).arity_lt hn

/-- A sum of embedded terms has the sum of their operators. -/
theorem foldl_add_embedded [AddCommMonoid K] (terms : List (Term K)) {total : Mat K}
    (h : total.HasShape (2 ^ n) (2 ^ n)) :
    ((terms.map (embedded n)).foldl Mat.add total).HasShape (2 ^ n) (2 ^ n) ∧
      ((terms.map (embedded n)).foldl Mat.add total).toMatrix (2 ^ n) (2 ^ n) =
        total.toMatrix (2 ^ n) (2 ^ n) + (terms.map (operator n)).sum := by
  induction terms generalizing total with
  | nil => simpa using h
  | cons t terms ih =>
    obtain ⟨hshape, hsum⟩ := ih (h.add (t.embedded n))
    rw [List.map_cons, List.foldl_cons, List.map_cons, List.sum_cons]
    refine ⟨hshape, ?_⟩
    rw [hsum, Mat.toMatrix_add h, add_assoc]
    rfl

end Term

/-! ### The matrix of a Hamiltonian -/

namespace Hamiltonian

variable {n : ℕ} {terms : List (Term K)}

/-- The register of a sum is not larger than one that holds the qubits of every term. -/
theorem registerSize_le (h : ∀ t ∈ terms, ∀ q ∈ t.qubits, q < n) : registerSize terms ≤ n := by
  refine foldl_max_le_iff.2 ⟨Nat.zero_le n, fun q hq => ?_⟩
  obtain ⟨t, ht, hq⟩ := List.mem_flatMap.1 hq
  exact h t ht q hq

/-- The register of a sum holds the qubits of every term. -/
theorem lt_registerSize {t : Term K} (ht : t ∈ terms) {q : ℕ} (hq : q ∈ t.qubits) : q < registerSize terms :=
  (foldl_max_le_iff.1 le_rfl).2 q (List.mem_flatMap.2 ⟨t, ht, hq⟩)

theorem fits_of_registerSize_le (h : ∀ t ∈ terms, t.WellFormed) (hn : registerSize terms ≤ n) :
    ∀ t ∈ terms, t.Fits n := fun t ht => ⟨h t ht, fun _ hq => (lt_registerSize ht hq).trans_le hn⟩

theorem fits_ofTerms (h : ∀ t ∈ terms, t.Fits n) (id : OwnerId) : ∀ t ∈ (ofTerms id terms).terms, t.Fits n := by
  intro t ht
  obtain ⟨s, hs, rfl⟩ := List.mem_map.1 ht
  exact (h s hs).withOwner id

/-- Hamiltonians whose terms fit the register and are marked with its identity. -/
structure Valid (h : Hamiltonian K) : Prop where
  fits : ∀ t ∈ h.terms, t.Fits h.nqubits
  owned : ∀ t ∈ h.terms, t.owner = some h.id

theorem owned_ofTerms (id : OwnerId) (terms : List (Term K)) :
    ∀ t ∈ (ofTerms id terms).terms, t.owner = some (ofTerms id terms).id := by
  intro t ht
  obtain ⟨s, -, rfl⟩ := List.mem_map.1 ht
  rfl

/-- A sum of well-formed terms is a valid Hamiltonian. -/
theorem valid_ofTerms (h : ∀ t ∈ terms, t.WellFormed) (id : OwnerId) : (ofTerms id terms).Valid where
  fits := fits_ofTerms (fits_of_registerSize_le h le_rfl) id
  owned := owned_ofTerms id terms

/-- Owners play no part in what a term does. -/
theorem map_terms_ofTerms {β : Type} {f : Term K → β} (id : OwnerId) (hf : ∀ t, f (t.withOwner id) = f t)
    (terms : List (Term K)) : (ofTerms id terms).terms.map f = terms.map f := by
  rw [ofTerms, List.map_map]
  exact List.map_congr_left fun t _ => hf t

theorem widen_eq_ok {h : Hamiltonian K} (hn : h.nqubits ≤ n) :
    h.widen n = (.ok { h with nqubits := n } : Except (DynamicsError R) _) := if_neg (by omega)

/-- A valid Hamiltonian stays valid on a larger register. -/
theorem Valid.widen {h wide : Hamiltonian K} (hv : h.Valid)
    (hw : h.widen n = (.ok wide : Except (DynamicsError R) _)) : wide.Valid := by
  unfold Hamiltonian.widen at hw
  split_ifs at hw with hn
  cases hw
  exact ⟨fun t ht => ⟨(hv.fits t ht).toWellFormed, fun q hq => ((hv.fits t ht).lt q hq).trans_le (not_lt.1 hn)⟩,
    hv.owned⟩

/-- The matrix of a sum of terms is the sum of their matrices, on a register of any size. -/
theorem matrixOfSum_eq_fullMatrix [Zero K] [Add K] (hsmall : Term.Small terms) (h : ∀ t ∈ terms, t.Fits n) :
    matrixOfSum terms n = (.ok ((terms.map fun t => fullMatrix t.matrix t.qubits n).foldl Mat.add
      (.zero (dimension n) (dimension n))) : Except (DynamicsError R) _) := by
  rw [matrixOfSum]
  generalize (Mat.zero (dimension n) (dimension n) : Mat K) = total
  induction terms generalizing total with
  | nil => rfl
  | cons t terms ih =>
    have ht := h t List.mem_cons_self
    have hfind : t.qubits.find? (n ≤ ·) = none :=
      List.find?_eq_none.2 fun q hq => by simpa using ht.lt q hq
    rw [List.foldlM_cons, List.map_cons, List.foldl_cons, hfind,
      embed_eq_fullMatrix ht.lt (hsmall t List.mem_cons_self) ht.shape]
    exact ih (fun s hs => hsmall s (List.mem_cons_of_mem t hs)) (fun s hs => h s (List.mem_cons_of_mem t hs)) _

/-- The matrix of a sum of terms is the sum of their embeddings. -/
theorem matrixOfSum_eq [AddCommMonoid K] (hn : n < 64) (h : ∀ t ∈ terms, t.Fits n) :
    matrixOfSum terms n =
      (.ok ((terms.map (Term.embedded n)).foldl Mat.add (.zero (2 ^ n) (2 ^ n))) : Except (DynamicsError R) _) := by
  have hembedded : (terms.map fun t => fullMatrix t.matrix t.qubits n) = terms.map (Term.embedded n) :=
    List.map_congr_left fun t ht => fullMatrix_eq_embedding hn ((h t ht).arity_lt hn).le t.matrix
  rw [matrixOfSum_eq_fullMatrix (Term.small_of_fits hn h) h, dimension_eq hn, hembedded]

/-- A sum of terms has a matrix, which is the sum of their operators. -/
theorem matrixOfSum_eq_ok [AddCommMonoid K] (hn : n < 64) (h : ∀ t ∈ terms, t.Fits n) :
    ∃ full : Mat K, matrixOfSum terms n = (.ok full : Except (DynamicsError R) _) ∧
      full.HasShape (2 ^ n) (2 ^ n) ∧ full.toMatrix (2 ^ n) (2 ^ n) = (terms.map (Term.operator n)).sum := by
  obtain ⟨hshape, hsum⟩ := Term.foldl_add_embedded terms (Mat.hasShape_zero (K := K) (2 ^ n) (2 ^ n))
  refine ⟨_, matrixOfSum_eq hn h, hshape, ?_⟩
  rw [hsum, Mat.toMatrix_zero, zero_add]

end Hamiltonian

end QubitDynamics
