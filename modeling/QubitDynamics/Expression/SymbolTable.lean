import QubitDynamics.Term.Factor

/-! Names of symbols in expressions. A table holds the symbols that were added to
it; besides, the letters X, Y and Z followed by a qubit number name the Pauli
operators. Added symbols come first. -/

namespace QubitDynamics

/-- Symbols with distinct names. -/
structure SymbolTable (K : Type) where
  symbols : List (Symbol K)

namespace SymbolTable

variable {K R : Type}

def empty : SymbolTable K := ⟨[]⟩

/-- Puts a symbol in the place of the one with its name, or at the end. -/
def insertInto (s : Symbol K) : List (Symbol K) → List (Symbol K)
  | [] => [s]
  | t :: ts => if t.name = s.name then s :: ts else t :: insertInto s ts

def insert (table : SymbolTable K) (s : Symbol K) : SymbolTable K :=
  ⟨insertInto s table.symbols⟩

def size (table : SymbolTable K) : Nat := table.symbols.length

def pauliOfLetter? : Char → Option Pauli
  | 'X' => some .x
  | 'Y' => some .y
  | 'Z' => some .z
  | _ => none

/-- The Pauli operator that a name spells. The qubit number may have leading zeros and lies
below `2 ^ 63`. -/
def builtin? (name : String) : Option (Pauli × Nat) :=
  match name.toList with
  | [] => none
  | c :: digits => do
    let p ← pauliOfLetter? c
    if digits.isEmpty || !digits.all Char.isDigit then none
    else
      let q := Decimal.ofDigits digits
      if q < 1 <<< 63 then some (p, q) else none

variable [Zero K] [One K] [Neg K] [Zero R] [One R] [ComplexScalar K R]

def resolve? (table : SymbolTable K) (name : String) : Option (Symbol K) :=
  match table.symbols.find? (·.name = name) with
  | some s => some s
  | none => (builtin? name).map fun (p, q) => .pauli p q

end SymbolTable

end QubitDynamics
