import QubitDynamics.Expression.Monomial
import QubitDynamics.Proofs.ExactScalar
import QubitDynamics.Proofs.Grammar
import QubitDynamics.Proofs.Spans

/-! Which texts are expressions, and which monomials they have. Both are told from
the tree of a text alone: a tree is admissible when its names are known and its
powers of the imaginary unit are not negative, and each of its products is one
monomial, whose coefficient gathers the sign and the numbers and whose factors are
the remaining ones in written order. A text is read exactly when its tokens are
those of an admissible tree, and a text with an invalid token is refused at the
first one. -/

namespace QubitDynamics

/-! ### What a tree stands for -/

/-- Multiplies a coefficient by numbers, in order. -/
def gather {K R : Type} [RealScalar R] [ComplexScalar K R] (z : K) (ds : List Decimal) : K :=
  ds.foldl (fun z d => ComplexScalar.scaleReal z (RealScalar.ofDecimal d)) z

theorem gather_eq_mul_prod (z : ℂ) (ds : List Decimal) :
    gather z ds = z * (ds.map fun d => (d.toReal : ℂ)).prod := by
  induction ds generalizing z with
  | nil => simp [gather]
  | cons d ds ih =>
    calc gather z (d :: ds) = gather (z * d.toReal) ds := rfl
      _ = z * ((d :: ds).map fun d => (d.toReal : ℂ)).prod := by
        rw [ih, List.map_cons, List.prod_cons, mul_assoc]

namespace FactorTree

/-- The number that a factor is, if it is one. -/
def literals : FactorTree → List Decimal
  | float d => [d]
  | int k => [.ofNat k]
  | imaginary _ => []
  | ident _ _ => []

variable {K R : Type} [Zero K] [One K] [Neg K] [Zero R] [One R] [ComplexScalar K R]

/-- Factors with a known name, or with a power of the imaginary unit that is not negative. -/
def Admissible (table : SymbolTable K) : FactorTree → Prop
  | float _ => True
  | int _ => True
  | imaginary none => True
  | imaginary (some e) => 0 ≤ e.value
  | ident name _ => ∃ s, table.resolve? name = some s

/-- What a factor leaves besides its number: the imaginary unit as often as its power says, or the
symbol of its name with the power that is written. -/
def factors (table : SymbolTable K) : FactorTree → List (Factor K)
  | float _ => []
  | int _ => []
  | imaginary none => [.imaginaryUnit]
  | imaginary (some e) => List.replicate e.value.toNat .imaginaryUnit
  | ident name none => (table.resolve? name).toList.map .symbol
  | ident name (some e) => (table.resolve? name).toList.map (.power · e.value)

end FactorTree

namespace ProductTree

def trees (p : ProductTree) : List FactorTree := p.first :: p.rest

def literals (p : ProductTree) : List Decimal := p.trees.flatMap FactorTree.literals

section

variable {K R : Type} [One K] [One R] [Neg R] [RealScalar R] [ComplexScalar K R]

/-- One times the numbers of a product, then the sign. -/
def coefficient (sign : Sign) (p : ProductTree) : K :=
  ComplexScalar.scaleReal (gather 1 p.literals) (if sign.negative then -1 else 1)

end

/-- With exact scalars the coefficient is the sign times the product of the numbers. -/
theorem coefficient_eq_prod (sign : Sign) (p : ProductTree) :
    p.coefficient sign =
      (if sign.negative then -1 else 1) * (p.literals.map fun d => (d.toReal : ℂ)).prod := by
  rw [coefficient, gather_eq_mul_prod, scaleReal_eq, one_mul, mul_comm]
  cases sign <;> simp [Sign.negative]

variable {K R : Type} [Zero K] [One K] [Neg K] [Zero R] [One R] [ComplexScalar K R]

def Admissible (table : SymbolTable K) (p : ProductTree) : Prop := ∀ f ∈ p.trees, f.Admissible table

variable [Neg R] [RealScalar R]

def monomial (table : SymbolTable K) (sign : Sign) (p : ProductTree) : Monomial K :=
  ⟨p.coefficient sign, p.trees.flatMap (FactorTree.factors table)⟩

end ProductTree

namespace SumTree

/-- The products with their signs; the first one is added if no sign is written. -/
def products (t : SumTree) : List (Sign × ProductTree) := (t.sign.getD .plus, t.first) :: t.rest

variable {K R : Type} [Zero K] [One K] [Neg K] [Zero R] [One R] [ComplexScalar K R]

def Admissible (table : SymbolTable K) (t : SumTree) : Prop := ∀ p ∈ t.products, p.2.Admissible table

variable [Neg R] [RealScalar R]

def monomials (table : SymbolTable K) (t : SumTree) : List (Monomial K) :=
  t.products.map fun p => p.2.monomial table p.1

end SumTree

/-! ### From trees to summands -/

section

variable {K R : Type} [Zero K] [One K] [Neg K] [Zero R] [One R] [ComplexScalar K R]
variable {table : SymbolTable K}

/-- The admissible factors are those that have an atom. -/
theorem FactorTree.exists_atom?_iff (f : FactorTree) : (∃ a, f.atom? table = some a) ↔ f.Admissible table := by
  cases f with
  | float d => simp [atom?, Admissible]
  | int k => simp [atom?, Admissible]
  | imaginary power =>
    cases power with
    | none => simp [atom?, Admissible, Base.withPower?]
    | some e =>
      by_cases he : e.value < 0
      · simp [atom?, Admissible, Base.withPower?, Base.raised, he, Except.toOption]
      · simp [atom?, Admissible, Base.withPower?, Base.raised, he, Except.toOption, not_lt.1 he]
  | ident name power =>
    cases hs : table.resolve? name with
    | none => simp [atom?, Admissible, hs]
    | some s => cases power <;> simp [atom?, Admissible, hs, Base.withPower?, Base.raised, Except.toOption]

theorem ProductTree.exists_summand?_iff (p : ProductTree) (negative : Bool) :
    (∃ s, p.summand? table negative = some s) ↔ p.Admissible table := by
  have hatoms : (∃ as, p.atoms? table = some as) ↔ p.Admissible table :=
    exists_mapM_eq_some.trans (forall₂_congr fun f _ => f.exists_atom?_iff)
  rw [← hatoms, summand?]
  constructor
  · rintro ⟨s, hs⟩
    obtain ⟨as, has, -⟩ := Option.map_eq_some_iff.1 hs
    exact ⟨as, has⟩
  · rintro ⟨as, has⟩
    exact ⟨_, Option.map_eq_some_iff.2 ⟨as, has, rfl⟩⟩

theorem SumTree.summands?_eq_mapM (t : SumTree) :
    t.summands? table = t.products.mapM fun p => p.2.summand? table p.1.negative := by
  have hsign : t.sign.elim false Sign.negative = (t.sign.getD .plus).negative := by cases t.sign <;> rfl
  rw [summands?, hsign, products, List.mapM_cons]

theorem SumTree.exists_summands?_iff (t : SumTree) : (∃ ss, t.summands? table = some ss) ↔ t.Admissible table := by
  rw [summands?_eq_mapM, exists_mapM_eq_some]
  exact forall₂_congr fun p _ => p.2.exists_summand?_iff p.1.negative

variable [RealScalar R]

/-- The atom of a factor has the factors of the tree, and multiplies a coefficient by its number. -/
theorem FactorTree.of_atom? {f : FactorTree} {a : Atom K} (h : f.atom? table = some a) :
    a.factors = f.factors table ∧ ∀ z : K, a.scaleBy z = gather z f.literals := by
  cases f with
  | float d =>
    obtain rfl : Atom.number d = a := by simpa [atom?] using h
    exact ⟨rfl, fun z => rfl⟩
  | int k =>
    obtain rfl : Atom.number (.ofNat k) = a := by simpa [atom?] using h
    exact ⟨rfl, fun z => rfl⟩
  | imaginary power =>
    cases power with
    | none =>
      obtain rfl : Atom.imaginary 1 = a := by simpa [atom?, Base.withPower?, Base.bare] using h
      exact ⟨rfl, fun z => rfl⟩
    | some e =>
      have hraised := Base.raised_of_withPower? h
      simp only [Base.raised] at hraised
      split_ifs at hraised
      obtain rfl : Atom.imaginary e.value.toNat = a := Except.ok.inj hraised
      exact ⟨rfl, fun z => rfl⟩
  | ident name power =>
    obtain ⟨s, hs, hb⟩ := Option.bind_eq_some_iff.1 h
    cases power with
    | none =>
      obtain rfl : Atom.symbol s none = a := by simpa [Base.withPower?, Base.bare] using hb
      exact ⟨by simp [Atom.factors, factors, hs], fun z => rfl⟩
    | some e =>
      obtain rfl : Atom.symbol s (some e.value) = a := Except.ok.inj (Base.raised_of_withPower? hb)
      exact ⟨by simp [Atom.factors, factors, hs], fun z => rfl⟩

theorem FactorTree.of_mapM_atom? {fs : List FactorTree} {as : List (Atom K)}
    (h : fs.mapM (atom? table) = some as) :
    as.flatMap Atom.factors = fs.flatMap (factors table) ∧
      ∀ z : K, as.foldl Atom.scaleBy z = gather z (fs.flatMap literals) := by
  induction fs generalizing as with
  | nil =>
    obtain rfl : as = [] := by simpa using h.symm
    exact ⟨rfl, fun z => rfl⟩
  | cons f fs ih =>
    obtain ⟨a, as, ha, has, rfl⟩ := mapM_cons_eq_some.1 h
    obtain ⟨hfactor, hnumber⟩ := of_atom? ha
    obtain ⟨hfactors, hnumbers⟩ := ih has
    refine ⟨by rw [List.flatMap_cons, List.flatMap_cons, hfactor, hfactors], fun z => ?_⟩
    rw [List.foldl_cons, hnumbers, hnumber, List.flatMap_cons, gather, gather, gather, List.foldl_append]

variable [Neg R]

/-- The summand of a product has its monomial. -/
theorem ProductTree.monomial_of_summand? {p : ProductTree} {sign : Sign} {s : Summand K}
    (h : p.summand? table sign.negative = some s) : s.monomial = p.monomial table sign := by
  obtain ⟨as, has, rfl⟩ := Option.map_eq_some_iff.1 h
  obtain ⟨hfactors, hnumbers⟩ := FactorTree.of_mapM_atom? has
  rw [Summand.monomial, monomial, coefficient, hnumbers, hfactors]
  rfl

/-- The summands of a sum have its monomials. -/
theorem SumTree.map_monomial_of_summands? {t : SumTree} {ss : List (Summand K)} (h : t.summands? table = some ss) :
    ss.map Summand.monomial = t.monomials table := by
  rw [summands?_eq_mapM] at h
  rw [monomials]
  generalize t.products = ps at h
  induction ps generalizing ss with
  | nil =>
    obtain rfl : ss = [] := by simpa using h.symm
    rfl
  | cons p ps ih =>
    obtain ⟨s, ss, hs, hss, rfl⟩ := mapM_cons_eq_some.1 h
    rw [List.map_cons, List.map_cons, ProductTree.monomial_of_summand? hs, ih hss]

end

/-! ### Invalid tokens -/

open Lexer

theorem byteLength_eq_sum (cs : List Char) : byteLength cs = (cs.map Char.utf8Size).sum := by
  induction cs with
  | nil => rfl
  | cons c cs ih => rw [byteLength_cons, ih, List.map_cons, List.sum_cons]

/-- A lexeme starts after as many bytes as its position says. -/
theorem exists_before_lexeme {pos : ℕ} {cs : List Char} {l : Lexeme} (h : l ∈ lexFrom pos 0 cs) :
    ∃ before after, cs = before ++ l.text ++ after ∧ l.start = pos + (before.map Char.utf8Size).sum := by
  obtain ⟨before, after, hcs, hstart, -⟩ := (cut_lexFrom pos cs).exists_before h
  exact ⟨before, after, hcs, by rw [hstart, byteLength_eq_sum]⟩

/-- The first lexeme without a token is reported. -/
theorem placedTokens_eq_error {before after : List Lexeme} {l : Lexeme} (hbefore : ∀ x ∈ before, x.token? ≠ none)
    (hl : l.token? = none) :
    placedTokens (before ++ l :: after) = .error (.fault l.start (.invalidToken (String.ofList l.text))) := by
  induction before with
  | nil => simp [placedTokens, hl]
  | cons x before ih =>
    obtain ⟨hx, hbefore⟩ := List.forall_mem_cons.1 hbefore
    obtain ⟨t, ht⟩ := Option.ne_none_iff_exists'.1 hx
    simp [placedTokens, ht, ih hbefore, Except.map]

/-- The first lexeme of a source that has no token. -/
def FirstInvalid (source : String) (l : Lexeme) : Prop :=
  ∃ before after, lex source = before ++ l :: after ∧ (∀ x ∈ before, x.token? ≠ none) ∧ l.token? = none

/-- Either all lexemes have tokens or there is a first one that has none. -/
theorem tokens_or_invalid (ls : List Lexeme) :
    (∃ tokens : List Token, ls.map Lexeme.token? = tokens.map some) ∨
      ∃ before l after, ls = before ++ l :: after ∧ (∀ x ∈ before, x.token? ≠ none) ∧ l.token? = none := by
  induction ls with
  | nil => exact .inl ⟨[], rfl⟩
  | cons x ls ih =>
    cases hx : x.token? with
    | none => exact .inr ⟨[], x, ls, rfl, by simp, hx⟩
    | some t =>
      rcases ih with ⟨tokens, htokens⟩ | ⟨before, l, after, rfl, hbefore, hl⟩
      · exact .inl ⟨t :: tokens, by rw [List.map_cons, List.map_cons, hx, htokens]⟩
      · exact .inr ⟨x :: before, l, after, rfl, List.forall_mem_cons.2 ⟨by simp [hx], hbefore⟩, hl⟩

theorem exists_firstInvalid {source : String} (h : ∀ tokens, ¬ Lexed source.toList tokens) :
    ∃ l, FirstInvalid source l := by
  rcases tokens_or_invalid (lex source) with ⟨tokens, htokens⟩ | ⟨before, l, after, hlex, hbefore, hl⟩
  · exact absurd (lexed_iff.2 (placedTokens_eq_ok_iff.2 htokens)) (h tokens)
  · exact ⟨l, before, after, hlex, hbefore, hl⟩

theorem FirstInvalid.mem {source : String} {l : Lexeme} (h : FirstInvalid source l) : l ∈ lex source := by
  obtain ⟨before, after, hlex, -⟩ := h
  simp [hlex]

/-! ### Acceptance -/

section

variable {K R : Type} [Zero K] [One K] [Neg K] [Zero R] [One R] [Neg R] [RealScalar R] [ComplexScalar K R]
variable {table : SymbolTable K} {source : String}

theorem parseExpression_of_tokens {ts : List PlacedToken} (h : placedTokens (lex source) = .ok ts) :
    parseExpression table source =
      (readSum table source.utf8ByteSize ts).map fun ss => ss.map Summand.monomial := by
  rw [parseExpression, h]
  cases hread : readSum table source.utf8ByteSize ts <;> simp [bind, Except.bind, pure, Except.pure, Except.map, hread]

/-- A text is read as some monomials exactly when they are those of an admissible tree that is
written with its tokens. -/
theorem parseExpression_eq_ok_iff {tokens : List Token} (hlex : Lexed source.toList tokens) {ms : List (Monomial K)} :
    parseExpression table source = .ok ms ↔
      ∃ tree : SumTree, tree.tokens = tokens ∧ tree.Admissible table ∧ tree.monomials table = ms := by
  obtain ⟨ts, hts, rfl⟩ := lexed_iff.1 hlex
  rw [parseExpression_of_tokens hts]
  constructor
  · intro h
    cases hread : readSum table source.utf8ByteSize ts with
    | error e => simp [hread, Except.map] at h
    | ok ss =>
      obtain rfl : ss.map Summand.monomial = ms := by simpa [hread, Except.map] using h
      obtain ⟨tree, htree, hss⟩ := readSum_eq_ok_iff.1 hread
      exact ⟨tree, htree, tree.exists_summands?_iff.1 ⟨ss, hss⟩, (SumTree.map_monomial_of_summands? hss).symm⟩
  · rintro ⟨tree, htree, hadmissible, rfl⟩
    obtain ⟨ss, hss⟩ := tree.exists_summands?_iff.2 hadmissible
    rw [readSum_of_tree _ hss htree.symm, ← SumTree.map_monomial_of_summands? hss]
    rfl

theorem parseExpression_of_firstInvalid {l : Lexeme} (h : FirstInvalid source l) :
    parseExpression table source = .error (.fault l.start (.invalidToken (String.ofList l.text))) := by
  obtain ⟨before, after, hlex, hbefore, hl⟩ := h
  rw [parseExpression, hlex, placedTokens_eq_error hbefore hl]
  rfl

/-- A text that has tokens is an expression exactly when an admissible tree is written with them, and
its monomials are those of the tree; their coefficients are, with exact scalars, the sign times the
product of the numbers. A text that has no tokens is refused at the first byte of the first lexeme
without one. -/
theorem parseExpression_tree_or_invalid (table : SymbolTable K) (source : String) :
    (∀ tokens, Lexed source.toList tokens →
      ((∃ ms, parseExpression table source = .ok ms) ↔
        ∃ tree : SumTree, tree.tokens = tokens ∧ tree.Admissible table) ∧
      ∀ tree : SumTree, tree.tokens = tokens → tree.Admissible table →
        parseExpression table source = .ok (tree.monomials table)) ∧
    ((∀ tokens, ¬ Lexed source.toList tokens) →
      ∃ l, FirstInvalid source l ∧
        (∃ before after, source.toList = before ++ l.text ++ after ∧ l.start = (before.map Char.utf8Size).sum) ∧
        parseExpression table source = .error (.fault l.start (.invalidToken (String.ofList l.text)))) ∧
    ∀ (sign : Sign) (p : ProductTree),
      p.coefficient sign = (if sign.negative then -1 else 1) * (p.literals.map fun d => (d.toReal : ℂ)).prod := by
  refine ⟨fun tokens hlex => ⟨⟨?_, ?_⟩, ?_⟩, fun hnone => ?_, ProductTree.coefficient_eq_prod⟩
  · rintro ⟨ms, hms⟩
    obtain ⟨tree, htree, hadmissible, -⟩ := (parseExpression_eq_ok_iff hlex).1 hms
    exact ⟨tree, htree, hadmissible⟩
  · rintro ⟨tree, htree, hadmissible⟩
    exact ⟨_, (parseExpression_eq_ok_iff hlex).2 ⟨tree, htree, hadmissible, rfl⟩⟩
  · exact fun tree htree hadmissible => (parseExpression_eq_ok_iff hlex).2 ⟨tree, htree, hadmissible, rfl⟩
  · obtain ⟨l, hl⟩ := exists_firstInvalid hnone
    obtain ⟨before, after, htext, hstart⟩ := exists_before_lexeme hl.mem
    exact ⟨l, hl, ⟨before, after, htext, by rw [hstart, Nat.zero_add]⟩, parseExpression_of_firstInvalid hl⟩

end

/-- Signed powers, of which that of the imaginary unit is zero, and a text that ends in an invalid
token. -/
theorem parseExpression_tree_or_invalid_powers :
    let table : SymbolTable ℂ := ⟨[⟨"g", 0, .scalar 2⟩]⟩
    let tree : SumTree := ⟨some .minus, ⟨.int 2, [.imaginary (some ⟨true, 0⟩), .ident "g" (some ⟨true, 3⟩)]⟩,
      [(.plus, ⟨.ident "X1" none, [.imaginary (some ⟨false, 2⟩), .float ⟨5, -1⟩]⟩)]⟩
    (Lexed "-2*I^-0*g^-3 + X1*I^2*.5".toList tree.tokens ∧ tree.Admissible table ∧
      parseExpression table "-2*I^-0*g^-3 + X1*I^2*.5" = .ok (tree.monomials table)) ∧
    (∀ tokens, ¬ Lexed "X0 + $".toList tokens) ∧
      ∃ l, FirstInvalid "X0 + $" l ∧
        parseExpression table "X0 + $" = .error (.fault l.start (.invalidToken (String.ofList l.text))) := by
  intro table tree
  have htokens : Lexed "-2*I^-0*g^-3 + X1*I^2*.5".toList tree.tokens :=
    lexed_iff.2 (placedTokens_eq_ok_iff.2 rfl)
  have hadmissible : tree.Admissible table := by
    have hnames : (∃ s, table.resolve? "g" = some s) ∧ ∃ s, table.resolve? "X1" = some s := ⟨⟨_, rfl⟩, _, rfl⟩
    simpa [SumTree.Admissible, SumTree.products, ProductTree.Admissible, ProductTree.trees, tree,
      FactorTree.Admissible, Exponent.value] using hnames
  have hnone : ∀ tokens, ¬ Lexed "X0 + $".toList tokens := by
    intro tokens h
    obtain ⟨ts, hts, -⟩ := lexed_iff.1 h
    cases (show placedTokens (lex "X0 + $") = .error (.fault 5 (.invalidToken "$")) from rfl).symm.trans hts
  obtain ⟨l, hl, -, herror⟩ := (parseExpression_tree_or_invalid table "X0 + $").2.1 hnone
  exact ⟨⟨htokens, hadmissible, ((parseExpression_tree_or_invalid table _).1 _ htokens).2 tree rfl hadmissible⟩,
    hnone, l, hl, herror⟩

end QubitDynamics
