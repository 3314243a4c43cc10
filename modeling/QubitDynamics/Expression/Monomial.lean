import QubitDynamics.Expression.Reader

/-! Monomials: a coefficient times an ordered list of factors. The numbers of a
product and its sign make the coefficient; everything else stays a factor, in the
order in which it is written. -/

namespace QubitDynamics

/-- A product with its numbers gathered into a coefficient. -/
structure Monomial (K : Type) where
  coefficient : K
  factors : List (Factor K)
  deriving DecidableEq

variable {K R : Type}

/-- The factors that an atom stands for; a number is part of the coefficient instead. -/
def Atom.factors : Atom K → List (Factor K)
  | number _ => []
  | imaginary e => List.replicate e .imaginaryUnit
  | symbol s none => [.symbol s]
  | symbol s (some e) => [.power s e]

section

variable [Zero K] [One K] [Neg K] [Zero R] [One R] [Neg R] [RealScalar R] [ComplexScalar K R]

/-- Multiplies a coefficient by the number that an atom is, if it is one. -/
def Atom.scaleBy (z : K) : Atom K → K
  | number d => ComplexScalar.scaleReal z (RealScalar.ofDecimal d)
  | _ => z

/-- The monomial of a summand: one times its numbers in order, then the sign. -/
def Summand.monomial (s : Summand K) : Monomial K :=
  let z := s.atoms.foldl Atom.scaleBy 1
  ⟨ComplexScalar.scaleReal z (if s.negative then -1 else 1), s.atoms.flatMap Atom.factors⟩

def parseExpression (table : SymbolTable K) (source : String) :
    Except ExpressionError (List (Monomial K)) := do
  let ts ← placedTokens (lex source)
  let summands ← readSum table source.utf8ByteSize ts
  return summands.map Summand.monomial

end

end QubitDynamics
