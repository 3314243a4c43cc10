import Mathlib.Algebra.BigOperators.Group.List.Basic
import QubitDynamics.Proofs.Loops
import QubitDynamics.Proofs.TermSum

/-! The matrix of a product of one-qubit symbols. A product is written in one order
and assembled in another: its local matrices are gathered by qubit and joined by
Kronecker products. Operators on different qubits commute and those on one qubit
keep their order, so on every register the assembled matrix acts as the
coefficient times the factors in written order. -/

namespace QubitDynamics

open Register

variable {K R : Type} {n : ℕ}

/-! ### Local matrices -/

/-- The product of operators on one qubit of a register. -/
def onQubit [Semiring K] (n q : ℕ) (ms : List (Mat K)) : Matrix (Fin (2 ^ n)) (Fin (2 ^ n)) K :=
  (ms.map (Register.operator n [q])).prod

namespace Locals

/-- Local matrices by strictly ascending qubits: at least one for each qubit, all two by two. -/
structure Valid (ls : Locals K) : Prop where
  ascending : (ls.map Prod.fst).Pairwise (· < ·)
  nonempty : ∀ e ∈ ls, e.2 ≠ []
  shape : ∀ e ∈ ls, ∀ m ∈ e.2, m.HasShape 2 2

/-- The product of all local matrices on a register, qubit after qubit. -/
def operator [Semiring K] (n : ℕ) (ls : Locals K) : Matrix (Fin (2 ^ n)) (Fin (2 ^ n)) K :=
  (ls.map fun e => onQubit n e.1 e.2).prod

theorem Valid.of_cons {e : ℕ × List (Mat K)} {ls : Locals K} (h : Valid (e :: ls)) : Valid ls where
  ascending := (List.pairwise_cons.1 h.ascending).2
  nonempty e' he := h.nonempty e' (List.mem_cons_of_mem e he)
  shape e' he := h.shape e' (List.mem_cons_of_mem e he)

theorem Valid.cons {q : ℕ} {ms : List (Mat K)} {ls : Locals K} (h : Valid ls) (hq : ∀ p ∈ ls.map Prod.fst, q < p)
    (hms : ms ≠ []) (hshape : ∀ m ∈ ms, m.HasShape 2 2) : Valid ((q, ms) :: ls) where
  ascending := List.pairwise_cons.2 ⟨hq, h.ascending⟩
  nonempty := List.forall_mem_cons.2 ⟨hms, h.nonempty⟩
  shape := List.forall_mem_cons.2 ⟨hshape, h.shape⟩

theorem mem_keys_extend {q p : ℕ} {ms : List (Mat K)} {ls : Locals K} :
    p ∈ (extend q ms ls).map Prod.fst ↔ p = q ∨ p ∈ ls.map Prod.fst := by
  induction ls with
  | nil => simp [extend]
  | cons e ls ih =>
    obtain ⟨x, xs⟩ := e
    unfold extend
    split_ifs with hlt heq
    · simp
    · simp [heq]
    · simp only [List.map_cons, List.mem_cons, ih]
      tauto

theorem Valid.extend {q : ℕ} {ms : List (Mat K)} {ls : Locals K} (h : Valid ls) (hms : ms ≠ [])
    (hshape : ∀ m ∈ ms, m.HasShape 2 2) : Valid (Locals.extend q ms ls) := by
  induction ls with
  | nil => exact h.cons (by simp) hms hshape
  | cons e ls ih =>
    obtain ⟨p, ps⟩ := e
    have hp : ∀ x ∈ ls.map Prod.fst, p < x := (List.pairwise_cons.1 h.ascending).1
    have hps := h.shape (p, ps) List.mem_cons_self
    unfold Locals.extend
    split_ifs with hlt heq
    · refine h.cons (fun x hx => ?_) hms hshape
      rcases List.mem_cons.1 hx with rfl | hx
      · exact hlt
      · exact hlt.trans (hp x hx)
    · refine h.of_cons.cons hp (by simp [hms]) fun m hm => ?_
      rcases List.mem_append.1 hm with hm | hm
      · exact hps m hm
      · exact hshape m hm
    · refine (ih h.of_cons).cons (fun x hx => ?_) (h.nonempty _ List.mem_cons_self) hps
      rcases mem_keys_extend.1 hx with rfl | hx
      · omega
      · exact hp x hx

theorem hasShape_foldl_mul [Zero K] [One K] [Add K] [Mul K] (ms : List (Mat K)) {m : Mat K} (hm : m.HasShape 2 2)
    (hms : ∀ m ∈ ms, m.HasShape 2 2) : (ms.foldl Mat.mul m).HasShape 2 2 := by
  induction ms generalizing m with
  | nil => exact hm
  | cons x ms ih => exact ih (hm.mul (hms x List.mem_cons_self)) fun y hy => hms y (List.mem_cons_of_mem x hy)

section

variable [CommSemiring K]

theorem commute_onQubit {p q : ℕ} (hp : p < n) (hq : q < n) (hne : p ≠ q) {ms ps : List (Mat K)}
    (hms : ∀ m ∈ ms, m.HasShape 2 2) (hps : ∀ m ∈ ps, m.HasShape 2 2) :
    Commute (onQubit n q ms) (onQubit n p ps) := by
  have ht : Targets n ([q] ++ [p]) := ⟨by simp [hp, hq], by simp [hne.symm]⟩
  refine Commute.list_prod_left _ _ fun a ha => Commute.list_prod_right _ _ fun b hb => ?_
  obtain ⟨m, hm, rfl⟩ := List.mem_map.1 ha
  obtain ⟨m', hm', rfl⟩ := List.mem_map.1 hb
  exact operator_commute ht (hms m hm) (hps m' hm')

/-- Matrices on a qubit commute with all local matrices on other qubits. -/
theorem commute_operator {q : ℕ} (hq : q < n) {ls : Locals K} (h : Valid ls)
    (hlt : ∀ p ∈ ls.map Prod.fst, p < n) (hne : ∀ p ∈ ls.map Prod.fst, p ≠ q) {ms : List (Mat K)}
    (hms : ∀ m ∈ ms, m.HasShape 2 2) : Commute (onQubit n q ms) (operator n ls) := by
  refine Commute.list_prod_right _ _ fun a ha => ?_
  obtain ⟨e, he, rfl⟩ := List.mem_map.1 ha
  have hkey := List.mem_map_of_mem (f := Prod.fst) he
  exact commute_onQubit (hlt _ hkey) hq (hne _ hkey) hms (h.shape e he)

/-- Matrices added to a qubit act after everything that is there, whatever its qubit. -/
theorem operator_extend {q : ℕ} (hq : q < n) {ls : Locals K} (h : Valid ls)
    (hlt : ∀ p ∈ ls.map Prod.fst, p < n) {ms : List (Mat K)} (hms : ∀ m ∈ ms, m.HasShape 2 2) :
    operator n (extend q ms ls) = operator n ls * onQubit n q ms := by
  induction ls with
  | nil => simp [extend, operator]
  | cons e ls ih =>
    obtain ⟨p, ps⟩ := e
    have hp : ∀ x ∈ ls.map Prod.fst, p < x := (List.pairwise_cons.1 h.ascending).1
    have htail : ∀ x ∈ ls.map Prod.fst, x < n := fun x hx => hlt x (List.mem_cons_of_mem p hx)
    unfold extend
    split_ifs with hqp heq
    · -- the matrices move from the front past all the others
      have hne : ∀ x ∈ (((p, ps) :: ls : Locals K).map Prod.fst), x ≠ q := by
        intro x hx
        rcases List.mem_cons.1 hx with rfl | hx
        · exact hqp.ne'
        · exact (hqp.trans (hp x hx)).ne'
      exact (commute_operator hq h hlt hne hms).eq
    · subst heq
      have hcomm := commute_operator hq h.of_cons htail (fun x hx => (hp x hx).ne') hms
      have hhead : onQubit n q (ps ++ ms) = onQubit n q ps * onQubit n q ms := by
        simp only [onQubit, List.map_append, List.prod_append]
      simp only [operator, List.map_cons, List.prod_cons] at hcomm ⊢
      rw [hhead, mul_assoc, mul_assoc, hcomm.eq]
    · simp only [operator, List.map_cons, List.prod_cons] at ih ⊢
      rw [ih h.of_cons htail, mul_assoc]

/-- The matrices on one qubit, multiplied in order. -/
theorem operator_foldl_mul {q : ℕ} (hq : q < n) (ms : List (Mat K)) {m : Mat K} (hm : m.HasShape 2 2)
    (hms : ∀ m ∈ ms, m.HasShape 2 2) :
    Register.operator n [q] (ms.foldl Mat.mul m) = onQubit n q (m :: ms) := by
  induction ms generalizing m with
  | nil => simp [onQubit]
  | cons x ms ih =>
    have hx := hms x List.mem_cons_self
    have ht : Targets n [q] := ⟨by simp [hq], by simp⟩
    rw [List.foldl_cons, ih (hm.mul hx) fun y hy => hms y (List.mem_cons_of_mem x hy)]
    simp only [onQubit, List.map_cons, List.prod_cons]
    rw [operator_mul ht hm hx, mul_assoc]

end

end Locals

/-! ### Assembling a matrix -/

namespace Product

section

variable [Zero K] [One K] [Add K] [Mul K]

/-- The Kronecker product of a matrix with the product of the local matrices of one qubit. -/
def join (acc : Mat K) (e : ℕ × List (Mat K)) : Mat K :=
  match e.2 with
  | [] => acc
  | m :: ms => acc.kron (ms.foldl Mat.mul m)

theorem hasShape_join {ts : List ℕ} {acc : Mat K} (hacc : acc.HasShape (2 ^ ts.length) (2 ^ ts.length)) {q : ℕ}
    {ms : List (Mat K)} (hne : ms ≠ []) (hms : ∀ m ∈ ms, m.HasShape 2 2) :
    (join acc (q, ms)).HasShape (2 ^ (ts ++ [q]).length) (2 ^ (ts ++ [q]).length) := by
  obtain ⟨m, ms, rfl⟩ := List.exists_cons_of_ne_nil hne
  obtain ⟨hm, hms⟩ := List.forall_mem_cons.1 hms
  rw [List.length_append, Nat.pow_add]
  exact hacc.kron (Locals.hasShape_foldl_mul ms hm hms)

theorem hasShape_foldl_join {ls : Locals K} (h : ls.Valid) {ts : List ℕ} {acc : Mat K}
    (hacc : acc.HasShape (2 ^ ts.length) (2 ^ ts.length)) :
    (ls.foldl join acc).HasShape (2 ^ (ts ++ ls.map Prod.fst).length) (2 ^ (ts ++ ls.map Prod.fst).length) := by
  induction ls generalizing ts acc with
  | nil => simpa using hacc
  | cons e ls ih =>
    obtain ⟨q, ms⟩ := e
    have hstep := hasShape_join hacc (q := q) (h.nonempty _ List.mem_cons_self) (h.shape _ List.mem_cons_self)
    rw [List.map_cons, List.append_cons]
    exact ih h.of_cons hstep

theorem hasShape_assemble (k : K) {ls : Locals K} (h : ls.Valid) :
    (assemble k ls).HasShape (2 ^ (ls.map Prod.fst).length) (2 ^ (ls.map Prod.fst).length) := by
  have hsingle : (Mat.single k).HasShape (2 ^ ([] : List ℕ).length) (2 ^ ([] : List ℕ).length) := ⟨rfl, rfl⟩
  exact hasShape_foldl_join h hsingle

end

variable [CommSemiring K]

theorem operator_join {ts : List ℕ} {acc : Mat K} (hacc : acc.HasShape (2 ^ ts.length) (2 ^ ts.length)) {q : ℕ}
    (ht : Targets n (ts ++ [q])) {ms : List (Mat K)} (hne : ms ≠ []) (hms : ∀ m ∈ ms, m.HasShape 2 2) :
    Register.operator n (ts ++ [q]) (join acc (q, ms)) = Register.operator n ts acc * onQubit n q ms := by
  obtain ⟨m, ms, rfl⟩ := List.exists_cons_of_ne_nil hne
  obtain ⟨hm, hms⟩ := List.forall_mem_cons.1 hms
  have hq : q < n := ht.lt q (by simp)
  rw [← Locals.operator_foldl_mul hq ms hm hms]
  exact operator_kron ht hacc (Locals.hasShape_foldl_mul ms hm hms)

/-- Joining local matrices to a matrix on the targets `ts` multiplies their operators. -/
theorem operator_foldl_join {ls : Locals K} (h : ls.Valid) {ts : List ℕ} {acc : Mat K}
    (hacc : acc.HasShape (2 ^ ts.length) (2 ^ ts.length)) (ht : Targets n (ts ++ ls.map Prod.fst)) :
    Register.operator n (ts ++ ls.map Prod.fst) (ls.foldl join acc) =
      Register.operator n ts acc * ls.operator n := by
  induction ls generalizing ts acc with
  | nil => simp [Locals.operator]
  | cons e ls ih =>
    obtain ⟨q, ms⟩ := e
    have hne := h.nonempty _ List.mem_cons_self
    have hms := h.shape _ List.mem_cons_self
    rw [List.map_cons, List.append_cons] at ht ⊢
    rw [List.foldl_cons, ih h.of_cons (hasShape_join hacc hne hms) ht, operator_join hacc ht.append_left hne hms,
      mul_assoc]
    rfl

/-- The assembled matrix acts as the coefficient times the local matrices. -/
theorem operator_assemble (k : K) {ls : Locals K} (h : ls.Valid) (hlt : ∀ q ∈ ls.map Prod.fst, q < n) :
    Register.operator n (ls.map Prod.fst) (assemble k ls) = k • ls.operator n := by
  have ht : Targets n ([] ++ ls.map Prod.fst) := ⟨hlt, h.ascending.imp fun h => h.ne⟩
  have hjoin := operator_foldl_join h (Mat.hasShape_ofFn 1 1 fun _ _ => k) ht
  rw [List.nil_append, operator_nil, Mat.entry_ofFn _ Nat.one_pos Nat.one_pos, smul_mul_assoc, one_mul] at hjoin
  exact hjoin

end Product

/-! ### Products of contributions -/

namespace Contribution

/-- Contributions of at least one occurrence of a two by two matrix. -/
def Valid : Contribution K → Prop
  | scalar _ => True
  | operator o count => o.matrix.HasShape 2 2 ∧ 0 < count

def qubits : Contribution K → List ℕ
  | scalar _ => []
  | operator o _ => [o.qubit]

/-- The operator that a contribution multiplies a product by. -/
def onRegister [CommSemiring K] (n : ℕ) : Contribution K → Matrix (Fin (2 ^ n)) (Fin (2 ^ n)) K
  | scalar z => z • 1
  | operator o count => Register.operator n [o.qubit] o.matrix ^ count

end Contribution

namespace Product

/-- Products whose matrix is the one of their coefficient and local matrices. -/
structure Valid [Zero K] [One K] [Add K] [Mul K] (p : Product K) : Prop where
  locals : p.locals.Valid
  matrix : p.matrix.get = assemble p.coefficient p.locals

section

variable [Zero K] [One K] [Add K] [Mul K]

theorem valid_ofCoefficient (k : K) : (ofCoefficient k).Valid :=
  ⟨⟨.nil, by simp [ofCoefficient], by simp [ofCoefficient]⟩, rfl⟩

theorem Valid.absorb {p : Product K} (h : p.Valid) {c : Contribution K} (hc : c.Valid) : (p.absorb c).Valid := by
  cases c with
  | scalar z => exact ⟨h.locals, rfl⟩
  | operator o count =>
    obtain ⟨hshape, hcount⟩ := hc
    refine ⟨h.locals.extend ?_ ?_, rfl⟩
    · simpa using hcount.ne'
    · intro m hm
      rwa [(List.mem_replicate.1 hm).2]

theorem mem_qubits_absorb {p : Product K} {c : Contribution K} {q : ℕ} :
    q ∈ (p.absorb c).qubits ↔ q ∈ c.qubits ∨ q ∈ p.qubits := by
  cases c with
  | scalar z => simp [absorb, qubits, Contribution.qubits]
  | operator o count => simpa [absorb, qubits, Contribution.qubits] using Locals.mem_keys_extend

theorem valid_foldl_absorb {cs : List (Contribution K)} (hcs : ∀ c ∈ cs, c.Valid) {p : Product K} (h : p.Valid) :
    (cs.foldl absorb p).Valid := by
  induction cs generalizing p with
  | nil => exact h
  | cons c cs ih =>
    obtain ⟨hc, hcs⟩ := List.forall_mem_cons.1 hcs
    exact ih hcs (h.absorb hc)

theorem mem_qubits_foldl_absorb {cs : List (Contribution K)} {p : Product K} {q : ℕ} :
    q ∈ (cs.foldl absorb p).qubits ↔ (∃ c ∈ cs, q ∈ c.qubits) ∨ q ∈ p.qubits := by
  induction cs generalizing p with
  | nil => simp
  | cons c cs ih =>
    rw [List.foldl_cons, ih, mem_qubits_absorb, List.exists_mem_cons_iff, or_left_comm, or_assoc]

end

variable [CommSemiring K]

/-- The coefficient times the local matrices on a register. -/
def onRegister (n : ℕ) (p : Product K) : Matrix (Fin (2 ^ n)) (Fin (2 ^ n)) K := p.coefficient • p.locals.operator n

theorem onRegister_ofCoefficient (n : ℕ) (k : K) : (ofCoefficient k).onRegister n = k • 1 := rfl

/-- A product with one more factor acts as the product and then the factor. -/
theorem onRegister_absorb {p : Product K} (h : p.Valid) (hlt : ∀ q ∈ p.qubits, q < n) {c : Contribution K}
    (hc : c.Valid) (hq : ∀ q ∈ c.qubits, q < n) : (p.absorb c).onRegister n = p.onRegister n * c.onRegister n := by
  cases c with
  | scalar z =>
    simp only [absorb, onRegister, Contribution.onRegister]
    rw [mul_smul_comm, mul_one, smul_smul, mul_comm z]
  | operator o count =>
    have hms : ∀ m ∈ List.replicate count o.matrix, m.HasShape 2 2 := fun m hm => by
      rw [(List.mem_replicate.1 hm).2]
      exact hc.1
    have hpow : onQubit n o.qubit (List.replicate count o.matrix) = Register.operator n [o.qubit] o.matrix ^ count := by
      rw [onQubit, List.map_replicate, List.prod_replicate]
    simp only [absorb, onRegister, Contribution.onRegister]
    rw [Locals.operator_extend (hq o.qubit List.mem_cons_self) h.locals hlt hms, hpow, smul_mul_assoc]

/-- The product of some contributions acts as these in written order. -/
theorem onRegister_foldl_absorb {cs : List (Contribution K)} (hcs : ∀ c ∈ cs, c.Valid) {p : Product K} (h : p.Valid)
    (hlt : ∀ q ∈ (cs.foldl absorb p).qubits, q < n) :
    (cs.foldl absorb p).onRegister n = p.onRegister n * (cs.map (Contribution.onRegister n)).prod := by
  induction cs generalizing p with
  | nil => simp
  | cons c cs ih =>
    obtain ⟨hc, hcs⟩ := List.forall_mem_cons.1 hcs
    have hp : ∀ q ∈ p.qubits, q < n := fun q hq =>
      hlt q (mem_qubits_foldl_absorb.2 (.inr hq))
    have hcq : ∀ q ∈ c.qubits, q < n := fun q hq =>
      hlt q (mem_qubits_foldl_absorb.2 (.inl ⟨c, List.mem_cons_self, hq⟩))
    rw [List.foldl_cons, ih hcs (h.absorb hc) hlt, onRegister_absorb h hp hc hcq, List.map_cons, List.prod_cons,
      mul_assoc]

end Product

/-! ### Powers of scalars -/

section

variable [CommSemiring K]

/-- The number with the given binary digits, least significant first. -/
def digitsValue : List Bool → ℕ
  | [] => 0
  | d :: ds => d.toNat + 2 * digitsValue ds

theorem digitsValue_range (p k : ℕ) : digitsValue ((List.range k).map p.testBit) = p % 2 ^ k := by
  induction k generalizing p with
  | zero => simp [digitsValue, Nat.mod_one]
  | succ k ih =>
    have htail : ((List.range k).map Nat.succ).map p.testBit = (List.range k).map (p / 2).testBit := by
      rw [List.map_map]
      exact List.map_congr_left fun i _ => Nat.testBit_succ p i
    rw [List.range_succ_eq_map, List.map_cons, htail, digitsValue, ih, Nat.pow_succ', Nat.mod_mul, Nat.testBit_zero]
    rcases Nat.mod_two_eq_zero_or_one p with h | h <;> simp [h]

theorem digitsValue_binaryDigits (p : ℕ) : digitsValue (binaryDigits p) = p := by
  rw [binaryDigits, digitsValue_range, Nat.mod_eq_of_lt Nat.lt_log2_self]

theorem multiplySquares_eq (acc base : K) (ds : List Bool) :
    multiplySquares acc base ds = acc * (base * base) ^ digitsValue ds := by
  induction ds generalizing acc base with
  | nil => simp [multiplySquares, digitsValue]
  | cons d ds ih =>
    rw [multiplySquares, ih, digitsValue, pow_add, pow_mul, ← pow_two (base * base)]
    cases d <;> simp [mul_assoc]

theorem powerOfDigits_eq (base : K) (ds : List Bool) : powerOfDigits base ds = base ^ digitsValue ds := by
  induction ds generalizing base with
  | nil => rw [powerOfDigits, digitsValue, pow_zero]
  | cons d ds ih =>
    cases d with
    | false => rw [powerOfDigits, ih, digitsValue, Bool.toNat_false, Nat.zero_add, pow_mul, pow_two]
    | true => rw [powerOfDigits, multiplySquares_eq, digitsValue, Bool.toNat_true, pow_add, pow_one, pow_mul, pow_two]

theorem scalarPower_eq (base : K) (p : ℕ) : scalarPower base p = base ^ p := by
  rw [scalarPower, powerOfDigits_eq, digitsValue_binaryDigits]

end

/-! ### Terms of factors -/

section

variable [One K] [Mul K]

/-- What a symbol to a power can contribute. -/
theorem Symbol.contribution_cases {s : Symbol K} {p : ℕ} {text : String} {c : Contribution K}
    (h : s.contribution p text = .ok c) :
    (∃ z, s.value = .scalar z ∧ c = .scalar (scalarPower z p)) ∨
      ∃ t m, s.value = .tensor t ∧ t.toMat? = some m ∧ m.HasShape 2 2 ∧ 0 ≤ s.qubit ∧
        c = .operator ⟨s.name, s.qubit.toNat, m⟩ p := by
  unfold Symbol.contribution at h
  cases hv : s.value with
  | scalar z =>
    simp only [hv] at h
    split at h
    · cases h
    · cases h
      exact .inl ⟨z, rfl, rfl⟩
  | tensor t =>
    simp only [hv] at h
    by_cases hop : t.isOperator = true
    · obtain ⟨m, hm, hsquare⟩ := Tensor.toMat?_of_isOperator hop
      simp only [hop, hm, Bool.not_true, Bool.false_eq_true, if_false] at h
      split_ifs at h with hrows hlimit hqubit
      cases h
      have hrows : m.rows = 2 := not_not.1 hrows
      exact .inr ⟨t, m, rfl, hm, ⟨hrows, hsquare ▸ hrows⟩, not_lt.1 hqubit, rfl⟩
    · simp [hop] at h

variable [Zero R] [One R] [ComplexScalar K R]

/-- What a factor can contribute: the imaginary unit, or a symbol to a positive power. -/
theorem Factor.contribution_cases {f : Factor K} {c : Contribution K} (h : f.contribution = .ok c) :
    (f = .imaginaryUnit ∧ c = .scalar ComplexScalar.unit) ∨
      (∃ s, f = .symbol s ∧ s.contribution 1 f.text = .ok c) ∨
      ∃ s e, f = .power s e ∧ 1 ≤ e ∧ s.contribution e.toNat f.text = .ok c := by
  cases f with
  | symbol s => exact .inr (.inl ⟨s, rfl, h⟩)
  | power s e =>
    simp only [contribution] at h
    split_ifs at h with he
    exact .inr (.inr ⟨s, e, rfl, by omega, h⟩)
  | imaginaryUnit =>
    cases h
    exact .inl ⟨rfl, rfl⟩
  | unread t => cases h

theorem Factor.valid_contribution {f : Factor K} {c : Contribution K} (h : f.contribution = .ok c) : c.Valid := by
  have hsymbol {s : Symbol K} {p : ℕ} (hp : 0 < p) {text : String} (h : s.contribution p text = .ok c) : c.Valid := by
    rcases Symbol.contribution_cases h with ⟨z, -, rfl⟩ | ⟨t, m, -, -, hm, -, rfl⟩
    · trivial
    · exact ⟨hm, hp⟩
  rcases Factor.contribution_cases h with ⟨-, rfl⟩ | ⟨s, -, hs⟩ | ⟨s, e, -, he, hs⟩
  · trivial
  · exact hsymbol Nat.one_pos hs
  · exact hsymbol (by omega) hs

def Occurrence.factor (o : Occurrence K) : Factor K := .symbol ⟨o.name, o.qubit, .tensor o.matrix.toTensor⟩

theorem Occurrence.contribution_factor {o : Occurrence K} (h : o.matrix.HasShape 2 2) :
    o.factor.contribution = .ok (.operator o 1) := by
  have hoperator : o.matrix.toTensor.isOperator = true := by simp [Mat.toTensor, Tensor.isOperator, h.rows, h.cols]
  have hread : o.matrix.toTensor.toMat? = some o.matrix := rfl
  simp [factor, Factor.contribution, Symbol.contribution, hoperator, hread, h.rows, operatorPowerLimit]

end

section

variable [Zero K] [One K] [Add K] [Mul K]

theorem Product.Valid.wellFormed {p : Product K} (h : p.Valid) (owner : Option OwnerId) :
    (⟨.product p, owner⟩ : Term K).WellFormed where
  nodup := h.locals.ascending.imp fun h => h.ne
  shape := by
    show p.matrix.get.HasShape _ _
    rw [h.matrix]
    exact hasShape_assemble _ h.locals

/-- A term of factors is the product of their contributions. -/
theorem Term.ofFactors_cases [Zero R] [One R] [ComplexScalar K R] {k : K} {fs : List (Factor K)} {t : Term K}
    (h : Term.ofFactors k fs = .ok t) :
    ∃ cs, fs.mapM Factor.contribution = .ok cs ∧ (∀ c ∈ cs, c.Valid) ∧
      t = ⟨.product (cs.foldl Product.absorb (.ofCoefficient k)), none⟩ := by
  unfold Term.ofFactors Product.ofFactors at h
  cases hcs : fs.mapM Factor.contribution with
  | error e => simp [hcs, bind, Except.bind] at h
  | ok cs =>
    simp only [hcs, bind, Except.bind, pure, Except.pure, Except.ok.injEq] at h
    refine ⟨cs, rfl, fun c hc => ?_, h.symm⟩
    obtain ⟨f, -, hf⟩ := exists_of_mapM_eq_ok hcs c hc
    exact Factor.valid_contribution hf

end

section

variable [CommSemiring K]

theorem Product.Valid.operator_eq {p : Product K} (h : p.Valid) (owner : Option OwnerId)
    (hlt : ∀ q ∈ p.qubits, q < n) : (⟨.product p, owner⟩ : Term K).operator n = p.onRegister n := by
  show Register.operator n p.qubits p.matrix.get = _
  rw [h.matrix]
  exact operator_assemble p.coefficient h.locals hlt

/-- A term of factors is well formed and acts as its coefficient times its factors in order. -/
theorem Term.ofFactors_eq_ok [Zero R] [One R] [ComplexScalar K R] {k : K} {fs : List (Factor K)} {t : Term K}
    (h : Term.ofFactors k fs = .ok t) :
    ∃ cs, fs.mapM Factor.contribution = .ok cs ∧ t.WellFormed ∧
      (∀ q, q ∈ t.qubits ↔ ∃ c ∈ cs, q ∈ c.qubits) ∧
      ∀ n, t.Fits n → t.operator n = k • (cs.map (Contribution.onRegister n)).prod := by
  obtain ⟨cs, hcs, hvalid, rfl⟩ := Term.ofFactors_cases h
  have hstart := Product.valid_ofCoefficient k
  have hp := Product.valid_foldl_absorb hvalid hstart
  refine ⟨cs, hcs, hp.wellFormed none, fun q => ?_, fun n hn => ?_⟩
  · exact Product.mem_qubits_foldl_absorb.trans (or_iff_left List.not_mem_nil)
  · rw [hp.operator_eq none hn.lt, Product.onRegister_foldl_absorb hvalid hstart hn.lt,
      Product.onRegister_ofCoefficient, smul_mul_assoc, one_mul]

end

end QubitDynamics
