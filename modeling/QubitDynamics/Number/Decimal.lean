/-! Decimal numerals: whole and fractional digits with an optional exponent.
A numeral is kept as the exact number it denotes; rounding to a machine number
is left to the type that receives it. -/

namespace QubitDynamics

/-- The number `digits · 10 ^ exponent`. -/
structure Decimal where
  digits : Nat
  exponent : Int
  deriving DecidableEq, Repr

namespace Decimal

def ofNat (n : Nat) : Decimal := ⟨n, 0⟩

/-- The number that a row of decimal digits denotes, most significant digit first. -/
def ofDigits (cs : List Char) : Nat :=
  cs.foldl (fun n c => 10 * n + (c.toNat - '0'.toNat)) 0

/-- An optional sign followed by at least one digit. -/
def readInt? : List Char → Option Int
  | '-' :: cs => (readNat? cs).map fun n => -Int.ofNat n
  | '+' :: cs => (readNat? cs).map Int.ofNat
  | cs => (readNat? cs).map Int.ofNat
where
  readNat? (cs : List Char) : Option Nat :=
    if cs.isEmpty || !cs.all Char.isDigit then none else some (ofDigits cs)

/-- What may follow the digits of a numeral: nothing, or `e` or `E` and an integer. -/
def readExponent? : List Char → Option Int
  | [] => some 0
  | c :: cs => if c = 'e' ∨ c = 'E' then readInt? cs else none

/-- Reads an unsigned numeral: digits with at most one point among them and at least one
digit in all, then an optional exponent. -/
def read? (cs : List Char) : Option Decimal :=
  let whole := cs.takeWhile Char.isDigit
  match cs.dropWhile Char.isDigit with
  | '.' :: rest =>
    let fraction := rest.takeWhile Char.isDigit
    if whole.isEmpty && fraction.isEmpty then none
    else (readExponent? (rest.dropWhile Char.isDigit)).map fun e =>
      ⟨ofDigits (whole ++ fraction), e - fraction.length⟩
  | rest =>
    if whole.isEmpty then none
    else (readExponent? rest).map fun e => ⟨ofDigits whole, e⟩

/-- The numeral written out with a point and without an exponent. -/
def positional (d : Decimal) : String :=
  let text := Nat.toDigits 10 d.digits
  match d.exponent with
  | .ofNat e => String.ofList (text ++ List.replicate e '0')
  | .negSucc e =>
    let places := e + 1
    let padded := List.replicate (places + 1 - text.length) '0' ++ text
    String.ofList (padded.take (padded.length - places) ++ '.' :: padded.drop (padded.length - places))

end Decimal

end QubitDynamics
