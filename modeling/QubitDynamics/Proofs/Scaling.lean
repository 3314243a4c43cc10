import QubitDynamics.Proofs.ProductMatrix

/-! The three forms in which a product is kept: its occurrences in written order, its
local matrices by qubit, and its matrix. A factor extends the first two together;
a multiple keeps both and multiplies the matrix that is already there; reading the
matrix stores it. In whatever order a product is scaled and read, the local matrices
on a qubit stay its occurrences there, and the matrix stays the one assembled from
the coefficient and the local matrices. -/

namespace QubitDynamics

variable {K R : Type}

/-! ### Local matrices by qubit -/

namespace Locals

def on (ls : Locals K) (q : ℕ) : List (Mat K) := (ls.lookup q).getD []

theorem on_cons_self (q : ℕ) (ms : List (Mat K)) (ls : Locals K) : on ((q, ms) :: ls) q = ms := by
  rw [on, List.lookup_cons_self, Option.getD_some]

theorem on_cons_of_ne {p q : ℕ} (h : q ≠ p) (ms : List (Mat K)) (ls : Locals K) : on ((p, ms) :: ls) q = on ls q := by
  rw [on, List.lookup_cons, beq_false_of_ne h]
  rfl

theorem on_of_notMem {ls : Locals K} {q : ℕ} (h : q ∉ ls.map Prod.fst) : on ls q = [] := by
  have hnone : ls.lookup q = none := by
    rw [List.lookup_eq_none_iff]
    intro e he
    have hne : q ≠ e.1 := fun hq => h (hq ▸ List.mem_map_of_mem he)
    simpa using hne
  rw [on, hnone, Option.getD_none]

/-- Matrices are added at the end of the list of their qubit, and no other list changes. -/
theorem on_extend {ls : Locals K} (h : (ls.map Prod.fst).Pairwise (· < ·)) (p : ℕ) (ms : List (Mat K)) (q : ℕ) :
    on (extend p ms ls) q = if q = p then on ls q ++ ms else on ls q := by
  induction ls with
  | nil =>
    rw [extend]
    split_ifs with hq
    · rw [hq, on_cons_self]
      rfl
    · exact on_cons_of_ne hq ms []
  | cons e ls ih =>
    obtain ⟨x, xs⟩ := e
    obtain ⟨hx, hls⟩ := List.pairwise_cons.1 h
    unfold extend
    split_ifs with hlt hq heq hq hq
    · -- a new qubit, below all others
      have hnew : q ∉ ((x, xs) :: ls).map Prod.fst := by
        intro hmem
        rcases List.mem_cons.1 hmem with hmem | hmem
        · omega
        · have := hx q hmem
          omega
      rw [on_of_notMem hnew, hq, on_cons_self]
      rfl
    · exact on_cons_of_ne hq ms _
    · have hqx : q = x := by omega
      rw [hqx, on_cons_self, on_cons_self]
    · have hqx : q ≠ x := by omega
      rw [on_cons_of_ne hqx, on_cons_of_ne hqx]
    · have hqx : q ≠ x := by omega
      rw [on_cons_of_ne hqx, on_cons_of_ne hqx, ih hls, if_pos hq]
    · by_cases hqx : q = x
      · rw [hqx, on_cons_self, on_cons_self]
      · rw [on_cons_of_ne hqx, on_cons_of_ne hqx, ih hls, if_neg hq]

end Locals

/-! ### What factors fold into -/

section

variable [CommSemiring K]

/-- The scalar that the power `s ^ e` multiplies a coefficient by. -/
def Symbol.foldedScalar (s : Symbol K) (e : ℕ) : K :=
  match s.value with
  | .scalar z => z ^ e
  | .tensor _ => 1

/-- The power `s ^ e` written out. -/
def Symbol.occurrences (s : Symbol K) (e : ℕ) : List (Occurrence K) :=
  match s.value with
  | .scalar _ => []
  | .tensor t => match t.toMat? with
    | none => []
    | some m => List.replicate e ⟨s.name, s.qubit.toNat, m⟩

def Factor.foldedScalar [Zero R] [One R] [ComplexScalar K R] : Factor K → K
  | symbol s => s.foldedScalar 1
  | power s e => s.foldedScalar e.toNat
  | imaginaryUnit => ComplexScalar.unit
  | unread _ => 1

def Factor.occurrences : Factor K → List (Occurrence K)
  | symbol s => s.occurrences 1
  | power s e => s.occurrences e.toNat
  | imaginaryUnit => []
  | unread _ => []

def Contribution.foldedScalar : Contribution K → K
  | scalar z => z
  | operator _ _ => 1

def Contribution.occurrences : Contribution K → List (Occurrence K)
  | scalar _ => []
  | operator o count => List.replicate count o

theorem Symbol.of_contribution {s : Symbol K} {e : ℕ} {text : String} {c : Contribution K}
    (h : s.contribution e text = .ok c) : c.foldedScalar = s.foldedScalar e ∧ c.occurrences = s.occurrences e := by
  rcases Symbol.contribution_cases h with ⟨z, hvalue, rfl⟩ | ⟨t, m, hvalue, hm, -, -, rfl⟩
  · rw [foldedScalar, occurrences, hvalue]
    exact ⟨scalarPower_eq z e, rfl⟩
  · rw [foldedScalar, occurrences, hvalue]
    simp only [hm]
    exact ⟨rfl, rfl⟩

theorem Factor.of_contribution [Zero R] [One R] [ComplexScalar K R] {f : Factor K} {c : Contribution K}
    (h : f.contribution = .ok c) : c.foldedScalar = f.foldedScalar ∧ c.occurrences = f.occurrences := by
  rcases Factor.contribution_cases h with ⟨rfl, rfl⟩ | ⟨s, rfl, hs⟩ | ⟨s, e, rfl, -, hs⟩
  · exact ⟨rfl, rfl⟩
  · exact Symbol.of_contribution hs
  · exact Symbol.of_contribution hs

end

/-! ### Multiples of an assembled matrix -/

section

variable [CommSemiring K]

theorem Mat.kron_scale (a b : Mat K) (k : K) : (a.scale k).kron b = (a.kron b).scale k := by
  refine Mat.ext rfl rfl fun i j hi hj => ?_
  have hi : i < a.rows * b.rows := hi
  have hj : j < a.cols * b.cols := hj
  have hrow : i / b.rows < a.rows := Nat.div_lt_of_lt_mul (Nat.mul_comm a.rows b.rows ▸ hi)
  have hcol : j / b.cols < a.cols := Nat.div_lt_of_lt_mul (Nat.mul_comm a.cols b.cols ▸ hj)
  have hshape (m : Mat K) : m.HasShape m.rows m.cols := ⟨rfl, rfl⟩
  rw [Mat.entry_kron ((hshape a).scale k) (hshape b) hi hj, (hshape a).entry_scale k hrow hcol,
    (hshape (a.kron b)).entry_scale k hi hj, Mat.entry_kron (hshape a) (hshape b) hi hj, mul_right_comm]

namespace Product

theorem join_scale (acc : Mat K) (e : ℕ × List (Mat K)) (k : K) : join (acc.scale k) e = (join acc e).scale k := by
  obtain ⟨q, _ | ⟨m, ms⟩⟩ := e
  · rfl
  · exact Mat.kron_scale acc _ k

theorem foldl_join_scale (ls : Locals K) (acc : Mat K) (k : K) :
    ls.foldl join (acc.scale k) = (ls.foldl join acc).scale k := by
  induction ls generalizing acc with
  | nil => rfl
  | cons e ls ih => rw [List.foldl_cons, List.foldl_cons, join_scale, ih]

/-- A multiple of the coefficient gives that multiple of the assembled matrix. -/
theorem assemble_mul (c k : K) (ls : Locals K) : assemble (c * k) ls = (assemble c ls).scale k := by
  have hsingle : Mat.single (c * k) = (Mat.single c).scale k := by
    refine Mat.ext rfl rfl fun i j hi hj => ?_
    have hi : i < 1 := hi
    have hj : j < 1 := hj
    have hshape : (Mat.single c).HasShape 1 1 := ⟨rfl, rfl⟩
    rw [hshape.entry_scale k hi hj, Mat.single, Mat.single, Mat.entry_ofFn _ hi hj, Mat.entry_ofFn _ hi hj]
  show ls.foldl join (Mat.single (c * k)) = _
  rw [hsingle]
  exact foldl_join_scale ls _ k

/-! ### Products whose forms agree -/

/-- The local matrices of a product are its occurrences, qubit by qubit, and its matrix is assembled
from them. -/
structure Synced (p : Product K) : Prop extends p.Valid where
  perQubit : ∀ q, p.locals.on q = (p.occurrences.filter (·.qubit = q)).map (·.matrix)

theorem synced_ofCoefficient (k : K) : (ofCoefficient k).Synced where
  toValid := valid_ofCoefficient k
  perQubit _ := rfl

theorem Synced.absorb {p : Product K} (h : p.Synced) {c : Contribution K} (hc : c.Valid) : (p.absorb c).Synced where
  toValid := h.toValid.absorb hc
  perQubit q := by
    cases c with
    | scalar z => exact h.perQubit q
    | operator o count =>
      show (Locals.extend o.qubit (List.replicate count o.matrix) p.locals).on q =
        ((p.occurrences ++ List.replicate count o).filter (·.qubit = q)).map (·.matrix)
      rw [Locals.on_extend h.locals.ascending, List.filter_append, List.map_append, h.perQubit]
      split_ifs with hq
      · rw [List.filter_replicate_of_pos (by simpa using hq.symm), List.map_replicate]
      · rw [List.filter_replicate_of_neg (by simpa using Ne.symm hq), List.map_nil, List.append_nil]

theorem Synced.scaled {p : Product K} (h : p.Synced) (k : K) : (p.scaled k).Synced where
  locals := h.locals
  matrix := by
    show p.matrix.get.scale k = assemble (p.coefficient * k) p.locals
    rw [h.matrix, assemble_mul]
  perQubit := h.perQubit

/-- What the product of some contributions keeps of them. -/
theorem foldl_absorb_spec {cs : List (Contribution K)} (hcs : ∀ c ∈ cs, c.Valid) {p : Product K} (h : p.Synced) :
    (cs.foldl absorb p).Synced ∧
      (cs.foldl absorb p).occurrences = p.occurrences ++ cs.flatMap Contribution.occurrences ∧
      (cs.foldl absorb p).coefficient = p.coefficient * (cs.map Contribution.foldedScalar).prod := by
  induction cs generalizing p with
  | nil => simpa using h
  | cons c cs ih =>
    obtain ⟨hc, hcs⟩ := List.forall_mem_cons.1 hcs
    have hoccurrences : (p.absorb c).occurrences = p.occurrences ++ c.occurrences := by
      cases c with
      | scalar z => exact (List.append_nil _).symm
      | operator o count => rfl
    have hcoefficient : (p.absorb c).coefficient = p.coefficient * c.foldedScalar := by
      cases c with
      | scalar z => rfl
      | operator o count => exact (mul_one _).symm
    obtain ⟨hsynced, hocc, hcoef⟩ := ih hcs (h.absorb hc)
    refine ⟨hsynced, ?_, ?_⟩
    · rw [List.foldl_cons, hocc, hoccurrences, List.append_assoc, List.flatMap_cons]
    · rw [List.foldl_cons, hcoef, hcoefficient, mul_assoc, List.map_cons, List.prod_cons]

/-- The product of some factors, in terms of the factors. -/
theorem ofFactors_spec [Zero R] [One R] [ComplexScalar K R] {k : K} {fs : List (Factor K)} {t : Term K}
    (h : Term.ofFactors k fs = .ok t) :
    ∃ p, t.product? = some p ∧ p.Synced ∧ p.occurrences = fs.flatMap Factor.occurrences ∧
      p.coefficient = k * (fs.map Factor.foldedScalar).prod := by
  obtain ⟨cs, hcs, hvalid, rfl⟩ := Term.ofFactors_cases h
  obtain ⟨hsynced, hocc, hcoef⟩ := foldl_absorb_spec hvalid (synced_ofCoefficient k)
  refine ⟨_, rfl, hsynced, ?_, ?_⟩
  · rw [hocc, List.flatMap_def, List.flatMap_def,
      map_of_mapM_eq_ok hcs fun f c hf => (Factor.of_contribution hf).2]
    rfl
  · rw [hcoef, map_of_mapM_eq_ok hcs fun f c hf => (Factor.of_contribution hf).1]
    rfl

end Product

end

/-! ### Scaling and reading -/

def Product.forced (p : Product K) : Product K := { p with matrix := Thunk.pure p.matrix.get }

namespace Term

/-- What is done with a term: it is replaced by a multiple, or its matrix is read. -/
inductive Use (K : Type) where
  | scale (k : K)
  | read

def Use.scalar? : Use K → Option K
  | scale k => some k
  | read => none

/-- The term after its matrix was read. -/
def forced (t : Term K) : Term K :=
  match t.action with
  | .dense _ _ => t
  | .product p => { t with action := .product p.forced }

theorem forced_eq (t : Term K) : t.forced = t := by
  obtain ⟨_ | p, owner⟩ := t
  · rfl
  · rfl

/-- The term after some uses, and the matrices that were read. -/
def uses [Zero K] [Mul K] : Term K → List (Use K) → Term K × List (Mat K)
  | t, [] => (t, [])
  | t, .scale k :: us => (t.scaled k).uses us
  | t, .read :: us => ((t.forced.uses us).1, t.matrix :: (t.forced.uses us).2)

/-- The coefficients that a term of coefficient `c` has at each reading. -/
def coefficientsRead [Mul K] : K → List (Use K) → List K
  | _, [] => []
  | c, .scale k :: us => coefficientsRead (c * k) us
  | c, .read :: us => c :: coefficientsRead c us

theorem product?_scaled [Zero K] [Mul K] {t : Term K} {p : Product K} (h : t.product? = some p) (k : K) :
    (t.scaled k).product? = some (p.scaled k) := by
  obtain ⟨_ | q, owner⟩ := t
  · cases h
  · cases h
    rfl

theorem of_product? {t : Term K} {p : Product K} (h : t.product? = some p) :
    t.qubits = p.qubits ∧ t.matrix = p.matrix.get := by
  obtain ⟨_ | q, owner⟩ := t
  · cases h
  · cases h
    exact ⟨rfl, rfl⟩

variable [CommSemiring K]

/-- Uses of a product keep its forms in agreement and touch only the coefficient. -/
theorem uses_of_synced (us : List (Use K)) {t : Term K} {p : Product K} (ht : t.product? = some p) (h : p.Synced) :
    ∃ p', (t.uses us).1.product? = some p' ∧ p'.Synced ∧ p'.occurrences = p.occurrences ∧ p'.locals = p.locals ∧
      p'.coefficient = p.coefficient * (us.filterMap Use.scalar?).prod ∧
      (t.uses us).2 = (coefficientsRead p.coefficient us).map (Product.assemble · p.locals) := by
  induction us generalizing t p with
  | nil => exact ⟨p, ht, h, rfl, rfl, (mul_one _).symm, rfl⟩
  | cons u us ih =>
    cases u with
    | scale k =>
      obtain ⟨p', hp', hsynced, hocc, hlocals, hcoef, hread⟩ := ih (product?_scaled ht k) (h.scaled k)
      have hscalars : (Use.scale k :: us).filterMap Use.scalar? = k :: us.filterMap Use.scalar? := rfl
      refine ⟨p', hp', hsynced, hocc, hlocals, ?_, hread⟩
      rw [hcoef, hscalars, List.prod_cons, ← mul_assoc]
      rfl
    | read =>
      obtain ⟨p', hp', hsynced, hocc, hlocals, hcoef, hread⟩ := ih ht h
      rw [uses, forced_eq]
      refine ⟨p', hp', hsynced, hocc, hlocals, hcoef, ?_⟩
      rw [coefficientsRead, List.map_cons, hread, (of_product? ht).2, h.matrix]

variable [Zero R] [One R] [ComplexScalar K R]

/-- However a product of factors is scaled and read: its occurrences are those of the factors; the local
matrices on a qubit are its occurrences there in order; the qubits ascend, each with at least one matrix, all
two by two; the coefficient is that of the factors times the scalars; and the matrix, whenever it is read, is
assembled from the coefficient and the local matrices. -/
theorem uses_ofFactors {k : K} {fs : List (Factor K)} {t : Term K} (h : ofFactors k fs = .ok t) (us : List (Use K)) :
    ∃ p, (t.uses us).1.product? = some p ∧
      p.occurrences = fs.flatMap Factor.occurrences ∧
      (∀ q, (p.locals.lookup q).getD [] = (p.occurrences.filter (·.qubit = q)).map (·.matrix)) ∧
      (t.uses us).1.qubits = p.locals.map Prod.fst ∧ (p.locals.map Prod.fst).Pairwise (· < ·) ∧
      (∀ e ∈ p.locals, e.2 ≠ [] ∧ ∀ m ∈ e.2, m.HasShape 2 2) ∧
      p.coefficient = k * (fs.map Factor.foldedScalar).prod * (us.filterMap Use.scalar?).prod ∧
      (t.uses us).1.matrix = Product.assemble p.coefficient p.locals ∧
      (t.uses us).2 =
        (coefficientsRead (k * (fs.map Factor.foldedScalar).prod) us).map (Product.assemble · p.locals) := by
  obtain ⟨p, hp, hsynced, hocc, hcoef⟩ := Product.ofFactors_spec h
  obtain ⟨p', hp', hsynced', hocc', hlocals, hcoef', hread⟩ := uses_of_synced us hp hsynced
  obtain ⟨hqubits, hmatrix⟩ := of_product? hp'
  rw [hcoef, ← hlocals] at hread
  exact ⟨p', hp', hocc'.trans hocc, hsynced'.perQubit, hqubits, hsynced'.locals.ascending,
    fun e he => ⟨hsynced'.locals.nonempty e he, hsynced'.locals.shape e he⟩, by rw [hcoef', hcoef],
    hmatrix.trans hsynced'.matrix, hread⟩

end Term

/-- Operators on two qubits in mixed order with a power, an imaginary unit and a power of a scalar, read
before and after it is scaled. -/
theorem Term.uses_ofFactors_mixed :
    let fs : List (Factor ℂ) := [.symbol (.pauli .x 1), .imaginaryUnit, .power (.pauli .z 0) 2,
      .power ⟨"g", -1, .scalar 3⟩ 2, .symbol (.pauli .y 1)]
    ∃ t p, Term.ofFactors 2 fs = .ok t ∧ (t.uses [.read, .scale 5, .read]).1.product? = some p ∧
      (p.locals.lookup 1).getD [] = [Pauli.x.matrix, Pauli.y.matrix] ∧
      (p.locals.lookup 0).getD [] = [Pauli.z.matrix, Pauli.z.matrix] ∧
      (t.uses [.read, .scale 5, .read]).1.matrix = Product.assemble (90 * Complex.I) p.locals ∧
      (t.uses [.read, .scale 5, .read]).2 =
        [Product.assemble (18 * Complex.I) p.locals, Product.assemble (90 * Complex.I) p.locals] := by
  intro fs
  obtain ⟨t, ht⟩ : ∃ t, Term.ofFactors 2 fs = .ok t := ⟨_, rfl⟩
  obtain ⟨p, hp, hocc, hlocals, -, -, -, hcoef, hmatrix, hread⟩ := Term.uses_ofFactors ht [.read, .scale 5, .read]
  have hfolded : 2 * (fs.map Factor.foldedScalar).prod = 18 * Complex.I := by
    have hexponent : (2 : ℤ).toNat = 2 := rfl
    simp only [fs, List.map_cons, List.map_nil, List.prod_cons, List.prod_nil, Factor.foldedScalar, Symbol.foldedScalar,
      Symbol.pauli, unit_eq_I, hexponent]
    ring
  have hscaled : 18 * Complex.I * 5 = 90 * Complex.I := by ring
  have hscalars : ([.read, .scale 5, .read] : List (Term.Use ℂ)).filterMap Term.Use.scalar? = [5] := rfl
  rw [hfolded, hscalars, List.prod_singleton, hscaled] at hcoef
  refine ⟨t, p, ht, hp, ?_, ?_, by rw [hmatrix, hcoef], ?_⟩
  · rw [hlocals, hocc]
    rfl
  · rw [hlocals, hocc]
    rfl
  · rw [hread, hfolded, Term.coefficientsRead, Term.coefficientsRead, Term.coefficientsRead, Term.coefficientsRead,
      hscaled]
    rfl

end QubitDynamics
