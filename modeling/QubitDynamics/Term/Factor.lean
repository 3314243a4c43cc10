import QubitDynamics.Linear.Tensor
import QubitDynamics.Term.Fault

/-! Symbols and the factors of a product. A symbol names a scalar or a one-qubit
operator; a factor is a symbol, a power of one, the imaginary unit, or a text
that could not be read. -/

namespace QubitDynamics

inductive Pauli where
  | x | y | z
  deriving DecidableEq, Repr

def Pauli.letter : Pauli → String
  | .x => "X"
  | .y => "Y"
  | .z => "Z"

def Pauli.matrix {K R : Type} [Zero K] [One K] [Neg K] [Zero R] [One R] [ComplexScalar K R] (p : Pauli) :
    Mat K :=
  let i : K := ComplexScalar.unit
  match p with
  | .x => Mat.ofFn 2 2 fun r c => if r = c then 0 else 1
  | .y => Mat.ofFn 2 2 fun r c => if r = c then 0 else if r < c then -i else i
  | .z => Mat.ofFn 2 2 fun r c => if r ≠ c then 0 else if r = 0 then 1 else -1

inductive Value (K : Type) where
  | scalar (z : K)
  | tensor (t : Tensor K)
  deriving DecidableEq

def Value.isScalar {K : Type} : Value K → Bool
  | scalar _ => true
  | tensor _ => false

/-- A tensor that is square, of rank two and not empty. -/
def Value.isOperator {K : Type} : Value K → Bool
  | scalar _ => false
  | tensor t => t.isOperator

/-- A name with a qubit and a value. The qubit is checked when the symbol is used. -/
structure Symbol (K : Type) where
  name : String
  qubit : Int
  value : Value K
  deriving DecidableEq

/-- The Pauli operator on a qubit, named by its letter and the qubit. -/
def Symbol.pauli {K R : Type} [Zero K] [One K] [Neg K] [Zero R] [One R] [ComplexScalar K R]
    (p : Pauli) (qubit : Int) : Symbol K :=
  ⟨p.letter ++ toString qubit, qubit, .tensor p.matrix.toTensor⟩

inductive Factor (K : Type) where
  | symbol (s : Symbol K)
  | power (s : Symbol K) (exponent : Int)
  | imaginaryUnit
  | unread (text : String)
  deriving DecidableEq

namespace Factor

variable {K R : Type}

def text : Factor K → String
  | symbol s => s.name
  | power s e => s.name ++ "^" ++ toString e
  | imaginaryUnit => "I"
  | unread t => t

end Factor

/-- One symbol of a written-out product: its name, qubit and matrix. -/
structure Occurrence (K : Type) where
  name : String
  qubit : Nat
  matrix : Mat K
  deriving DecidableEq

/-- What a factor adds to a product: a scalar for the coefficient, or `count` occurrences of
one symbol. -/
inductive Contribution (K : Type) where
  | scalar (z : K)
  | operator (occurrence : Occurrence K) (count : Nat)
  deriving DecidableEq

section

variable {K R : Type}

/-- The binary digits of a number, least significant first. -/
def binaryDigits (p : Nat) : List Bool := (List.range (p.log2 + 1)).map p.testBit

/-- Multiplies `acc` by those powers `base ^ 2, base ^ 4, base ^ 8, …` whose digit is set. -/
def multiplySquares [Mul K] (acc base : K) : List Bool → K
  | [] => acc
  | digit :: digits =>
    let square := base * base
    multiplySquares (if digit then acc * square else acc) square digits

/-- The power of `base` with the given binary digits. Low digits that are not set square the
base; the first set digit starts the product. -/
def powerOfDigits [One K] [Mul K] (base : K) : List Bool → K
  | [] => 1
  | false :: digits => powerOfDigits (base * base) digits
  | true :: digits => multiplySquares base base digits

def scalarPower [One K] [Mul K] (base : K) (p : Nat) : K := powerOfDigits base (binaryDigits p)

def operatorPowerLimit : Nat := 4096

/-- The contribution of `s ^ p`, where `text` is how the factor is written. -/
def Symbol.contribution [One K] [Mul K] (s : Symbol K) (p : Nat) (text : String) :
    Except TermFault (Contribution K) :=
  match s.value with
  | .scalar z =>
    if 1 <<< 32 ≤ p then .error (.unreadableFactor text) else .ok (.scalar (scalarPower z p))
  | .tensor t =>
    if !t.isOperator then .error (.notOperator t.shape)
    else match t.toMat? with
      | none => .error .incompatibleShapes
      | some m =>
        if m.rows ≠ 2 then .error (.dimensionMismatch m.rows 1)
        else if operatorPowerLimit < p then .error (.unreadableFactor text)
        else if s.qubit < 0 then .error (.invalidQubit s.qubit)
        else .ok (.operator ⟨s.name, s.qubit.toNat, m⟩ p)

/-- The contribution of a factor. Exponents are positive. -/
def Factor.contribution [One K] [Mul K] [Zero R] [One R] [ComplexScalar K R] (f : Factor K) :
    Except TermFault (Contribution K) :=
  match f with
  | .symbol s => s.contribution 1 f.text
  | .power s e =>
    if e < 1 then .error (.unreadableFactor f.text) else s.contribution e.toNat f.text
  | .imaginaryUnit => .ok (.scalar ComplexScalar.unit)
  | .unread _ => .error (.unreadableFactor f.text)

end

end QubitDynamics
