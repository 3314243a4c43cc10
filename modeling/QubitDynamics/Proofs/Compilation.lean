import QubitDynamics.Proofs.Grammar
import QubitDynamics.Proofs.Lexing
import QubitDynamics.Proofs.ProductMatrix

/-! The meaning of expressions, and its agreement with what is compiled. On a
register every tree of the grammar denotes an operator: a number is a multiple of
the identity, a symbol its matrix on the tensor factor of its qubit, and powers,
products and sums are those of operators. An expression is compiled by quite another
route: its numbers are gathered into coefficients, its matrices by qubit, and the
terms are embedded one by one; yet the matrix of the Hamiltonian is the operator
that the text denotes. -/

namespace QubitDynamics

open Register

variable {n : ℕ}

/-! ### Meaning -/

abbrev Operator (n : ℕ) := Matrix (Fin (2 ^ n)) (Fin (2 ^ n)) ℂ

/-- A matrix on the tensor factor of one qubit, with the identity on all others. -/
def siteOperator (n q : ℕ) (m : Mat ℂ) : Operator n :=
  Matrix.of fun (r c : Fin (2 ^ n)) =>
    if ∀ p < n, p ≠ q → bit n r p = bit n c p then m.entry (bit n r q).toNat (bit n c q).toNat else 0

/-- A scalar, or a two by two matrix on a qubit of the register. -/
def Symbol.meaning? (n : ℕ) (s : Symbol ℂ) : Option (Operator n) :=
  match s.value with
  | .scalar z => some (z • 1)
  | .tensor t => t.toMat?.bind fun m =>
    if m.rows = 2 ∧ m.cols = 2 ∧ 0 ≤ s.qubit ∧ s.qubit < n then some (siteOperator n s.qubit.toNat m) else none

/-- The power of an operator; there are no negative powers. -/
def power? (a : Operator n) (e : ℤ) : Option (Operator n) := if e < 0 then none else some (a ^ e.toNat)

def raise? (a : Operator n) : Option Exponent → Option (Operator n)
  | none => some a
  | some e => power? a e.value

namespace Sign

def unary (a : Operator n) : Sign → Operator n
  | plus => a
  | minus => -a

def binary (a b : Operator n) : Sign → Operator n
  | plus => a + b
  | minus => a - b

theorem binary_eq (s : Sign) (a b : Operator n) : s.binary a b = a + s.unary b := by
  cases s with
  | plus => rfl
  | minus => exact sub_eq_add_neg a b

end Sign

section

variable (table : SymbolTable ℂ) (n : ℕ)

noncomputable def FactorTree.meaning? : FactorTree → Option (Operator n)
  | float d => some ((d.toReal : ℂ) • 1)
  | int k => some ((k : ℂ) • 1)
  | imaginary power => raise? (Complex.I • 1) power
  | ident name power => (table.resolve? name).bind fun s => (s.meaning? n).bind (raise? · power)

/-- The product of the factors, from left to right. -/
noncomputable def ProductTree.meaning? (p : ProductTree) : Option (Operator n) := do
  p.rest.foldlM (fun a f => (f.meaning? table n).map (a * ·)) (← p.first.meaning? table n)

/-- The sum and difference of the products, from left to right. -/
noncomputable def SumTree.meaning? (t : SumTree) : Option (Operator n) := do
  let a ← t.first.meaning? table n
  t.rest.foldlM (fun a p => (p.2.meaning? table n).map (p.1.binary a)) (t.sign.elim a (Sign.unary a))

end

/-! ### The meaning of resolved summands -/

noncomputable def Atom.meaning? (n : ℕ) : Atom ℂ → Option (Operator n)
  | number d => some ((d.toReal : ℂ) • 1)
  | imaginary e => some ((Complex.I • 1) ^ e)
  | symbol s none => s.meaning? n
  | symbol s (some e) => (s.meaning? n).bind (power? · e)

noncomputable def Summand.meaning? (n : ℕ) (s : Summand ℂ) : Option (Operator n) :=
  (s.atoms.mapM (Atom.meaning? n)).map fun ms => if s.negative then -ms.prod else ms.prod

theorem toReal_ofNat (k : ℕ) : (Decimal.ofNat k).toReal = k := by
  simp [Decimal.ofNat, Decimal.toReal]

theorem FactorTree.meaning?_eq (table : SymbolTable ℂ) (n : ℕ) (f : FactorTree) :
    f.meaning? table n = (f.atom? table).bind (Atom.meaning? n) := by
  cases f with
  | float d => rfl
  | int k =>
    show some ((k : ℂ) • (1 : Operator n)) = some (((Decimal.ofNat k).toReal : ℂ) • 1)
    rw [toReal_ofNat, Complex.ofReal_natCast]
  | imaginary power =>
    cases power with
    | none => simp [meaning?, atom?, raise?, Base.withPower?, Base.bare, Atom.meaning?]
    | some e =>
      simp only [meaning?, atom?, raise?, power?, Base.withPower?, Base.raised]
      split_ifs <;> rfl
  | ident name power =>
    simp only [meaning?, atom?, Option.bind_assoc]
    refine congrArg _ (funext fun s => ?_)
    cases power with
    | none =>
      simp [raise?, Base.withPower?, Base.bare, Atom.meaning?]
    | some e => rfl

theorem foldlM_mul {α : Type} (g : α → Option (Operator n)) (a : Operator n) (fs : List α) :
    fs.foldlM (fun a f => (g f).map (a * ·)) a = (fs.mapM g).map fun ms => a * ms.prod := by
  induction fs generalizing a with
  | nil => simp
  | cons f fs ih =>
    rw [List.foldlM_cons, List.mapM_cons]
    cases g f with
    | none => rfl
    | some b => cases hfs : fs.mapM g <;> simp [ih, hfs, mul_assoc]

theorem foldlM_add {α : Type} (g : α → Option (Operator n)) (a : Operator n) (ps : List (Sign × α)) :
    ps.foldlM (fun a p => (g p.2).map (p.1.binary a)) a =
      (ps.mapM fun p => (g p.2).map p.1.unary).map fun ms => a + ms.sum := by
  induction ps generalizing a with
  | nil => simp
  | cons p ps ih =>
    rw [List.foldlM_cons, List.mapM_cons]
    cases g p.2 with
    | none => rfl
    | some b =>
      calc ps.foldlM (fun a p => (g p.2).map (p.1.binary a)) (p.1.binary a b)
          = (ps.mapM fun p => (g p.2).map p.1.unary).map fun ms => p.1.binary a b + ms.sum := ih _
        _ = _ := by
          cases hps : ps.mapM fun p => (g p.2).map p.1.unary <;> simp [Sign.binary_eq, add_assoc]

theorem ProductTree.meaning?_eq (table : SymbolTable ℂ) (n : ℕ) (p : ProductTree) :
    p.meaning? table n = (p.atoms? table).bind fun as => (as.mapM (Atom.meaning? n)).map List.prod := by
  have hfactors : (p.first :: p.rest).mapM (FactorTree.meaning? table n) =
      (p.atoms? table).bind (List.mapM (Atom.meaning? n)) := by
    rw [atoms?, ← mapM_bind, funext (FactorTree.meaning?_eq table n)]
  calc p.meaning? table n
      = ((p.first :: p.rest).mapM (FactorTree.meaning? table n)).map List.prod := by
        rw [meaning?, List.mapM_cons]
        cases p.first.meaning? table n with
        | none => rfl
        | some a =>
          refine (foldlM_mul _ a p.rest).trans ?_
          cases hrest : p.rest.mapM (FactorTree.meaning? table n) <;> simp
    _ = _ := by rw [hfactors, Option.map_bind]; rfl

/-- A signed product means the summand that it stands for. -/
theorem ProductTree.map_unary_meaning? (table : SymbolTable ℂ) (n : ℕ) (p : ProductTree) (s : Sign) :
    (p.meaning? table n).map s.unary = (p.summand? table s.negative).bind (Summand.meaning? n) := by
  rw [meaning?_eq, summand?, Option.map_bind, Option.bind_map]
  refine congrArg _ (funext fun as => ?_)
  simp only [Function.comp, Option.map_map, Summand.meaning?]
  cases s <;> rfl

theorem SumTree.meaning?_eq (table : SymbolTable ℂ) (n : ℕ) (t : SumTree) :
    t.meaning? table n = (t.summands? table).bind fun ss => (ss.mapM (Summand.meaning? n)).map List.sum := by
  have hfirst : (t.first.meaning? table n).map (fun a => t.sign.elim a (Sign.unary a)) =
      (t.first.summand? table (t.sign.elim false Sign.negative)).bind (Summand.meaning? n) := by
    cases hs : t.sign with
    | none => exact t.first.map_unary_meaning? table n .plus
    | some s => exact t.first.map_unary_meaning? table n s
  have hrest : t.rest.mapM (fun p => (p.2.meaning? table n).map p.1.unary) =
      (t.rest.mapM fun (p : Sign × ProductTree) => p.2.summand? table p.1.negative).bind
        (List.mapM (Summand.meaning? n)) := by
    rw [← mapM_bind]
    simp only [ProductTree.map_unary_meaning?]
  calc t.meaning? table n
      = ((t.first.meaning? table n).map fun a => t.sign.elim a (Sign.unary a)).bind fun a =>
          (t.rest.mapM fun (p : Sign × ProductTree) => (p.2.meaning? table n).map p.1.unary).map fun ms =>
            a + ms.sum := by
        rw [meaning?, Option.bind_map]
        exact congrArg _ (funext fun a => foldlM_add _ _ t.rest)
    _ = _ := by
        rw [hfirst, hrest, summands?]
        cases t.first.summand? table (t.sign.elim false Sign.negative) with
        | none => rfl
        | some s =>
          cases t.rest.mapM fun p => p.2.summand? table p.1.negative with
          | none => cases hs : s.meaning? n <;> simp [hs]
          | some ss =>
            cases hs : s.meaning? n <;> cases hss : ss.mapM (Summand.meaning? n) <;> simp [hs, hss]

/-! ### From summands to terms -/

theorem operator_singleton {q : ℕ} (hq : q < n) (m : Mat ℂ) : Register.operator n [q] m = siteOperator n q m := by
  funext r c
  have hspectators : spectators n [q] r = spectators n [q] c ↔ ∀ p < n, p ≠ q → bit n r p = bit n c p := by
    have ht : ∀ p ∈ [q], p < n := by simpa using hq
    simpa using spectators_eq_iff ht r.isLt c.isLt
  have hsub (i : ℕ) : subIndex n [q] i = (bit n i q).toNat := by simp [subIndex, bit]
  rw [operator_apply, hsub, hsub]
  exact if_congr hspectators rfl rfl

/-- A symbol to a power contributes the power of what it means. -/
theorem Symbol.meaning?_of_contribution {s : Symbol ℂ} {p : ℕ} {text : String} {c : Contribution ℂ}
    (h : s.contribution p text = .ok c) (hlt : ∀ q ∈ c.qubits, q < n) :
    ∃ a, s.meaning? n = some a ∧ c.onRegister n = a ^ p := by
  rcases contribution_cases h with ⟨z, hz, rfl⟩ | ⟨t, m, ht, hm, hshape, hqubit, rfl⟩
  · refine ⟨z • 1, by rw [meaning?, hz], ?_⟩
    rw [Contribution.onRegister, scalarPower_eq, smul_pow, one_pow]
  · have hq : s.qubit.toNat < n := hlt _ (List.mem_singleton.2 rfl)
    have hs : m.rows = 2 ∧ m.cols = 2 ∧ 0 ≤ s.qubit ∧ s.qubit < n := ⟨hshape.rows, hshape.cols, hqubit, by omega⟩
    refine ⟨siteOperator n s.qubit.toNat m, ?_, ?_⟩
    · simp only [meaning?, ht, hm, Option.bind_some, if_pos hs]
    · rw [Contribution.onRegister, operator_singleton hq]

theorem prod_of_imaginaryUnits {e : ℕ} {cs : List (Contribution ℂ)}
    (h : (List.replicate e Factor.imaginaryUnit).mapM Factor.contribution = .ok cs) :
    (cs.map (Contribution.onRegister n)).prod = (Complex.I • 1) ^ e := by
  induction e generalizing cs with
  | zero =>
    cases h
    rfl
  | succ e ih =>
    obtain ⟨c, rest, hc, hrest, rfl⟩ := mapM_cons_eq_ok.1 h
    cases hc
    rw [List.map_cons, List.prod_cons, ih hrest, pow_succ', Contribution.onRegister, unit_eq_I]

/-- The number and the factors that an atom is split into give back what it means. -/
theorem Atom.meaning?_eq {a : Atom ℂ} {cs : List (Contribution ℂ)}
    (h : a.factors.mapM Factor.contribution = .ok cs) (hlt : ∀ c ∈ cs, ∀ q ∈ c.qubits, q < n) :
    a.meaning? n = some (a.scaleBy 1 • (cs.map (Contribution.onRegister n)).prod) := by
  cases a with
  | number d =>
    cases h
    simp [meaning?, scaleBy]
  | imaginary e =>
    rw [prod_of_imaginaryUnits h]
    simp [meaning?, scaleBy]
  | symbol s power =>
    cases power with
    | none =>
      obtain ⟨c, rest, hc, hrest, rfl⟩ := mapM_cons_eq_ok.1 h
      cases hrest
      obtain ⟨a, ha, hpow⟩ := s.meaning?_of_contribution hc (List.forall_mem_cons.1 hlt).1
      simp [meaning?, scaleBy, ha, hpow]
    | some e =>
      obtain ⟨c, rest, hc, hrest, rfl⟩ := mapM_cons_eq_ok.1 h
      cases hrest
      rw [Factor.contribution] at hc
      split_ifs at hc with he
      obtain ⟨a, ha, hpow⟩ := s.meaning?_of_contribution hc (List.forall_mem_cons.1 hlt).1
      have he : ¬e < 0 := by omega
      simp [meaning?, power?, scaleBy, ha, hpow, he]

namespace Hamiltonian

end Hamiltonian

end QubitDynamics
