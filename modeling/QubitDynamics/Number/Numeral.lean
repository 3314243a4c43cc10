import QubitDynamics.Number.Binary

/-! Numerals as they are written, and their short reading. The short reading
keeps as many digits as fit a word of sixty-four bits and scales their double by
a power of ten with a single rounding, or with two below the least power that a
double can hold. It can differ from the nearest double in the last places. -/

namespace QubitDynamics

/-- An unsigned numeral: the digits before and after the point, and the power of ten. -/
structure Numeral where
  whole : List Char
  fraction : List Char
  exponent : Int
  deriving DecidableEq, Repr

namespace Numeral

def toDecimal (n : Numeral) : Decimal :=
  ⟨Decimal.ofDigits (n.whole ++ n.fraction), n.exponent - n.fraction.length⟩

/-- Appends digits to a number while it stays below `2 ^ 64`, and returns it with the digits
from the first one on that does not fit. -/
def fillWord (word : Nat) : List Char → Nat × List Char
  | [] => (word, [])
  | c :: cs =>
    let next := 10 * word + (c.toNat - '0'.toNat)
    if next < 1 <<< 64 then fillWord next cs else (word, c :: cs)

/-- The digits that fit a word. Digits before the point that do not fit count as zeros. The
digits after it are tried again from the first one on, and those that do not fit are dropped. -/
def leading (n : Numeral) : Decimal :=
  let (word, zeros) := fillWord 0 n.whole
  let (word, dropped) := fillWord word n.fraction
  ⟨word, n.exponent + zeros.length - (n.fraction.length - dropped.length : Nat)⟩

end Numeral

def powerOfTen (e : Nat) : Float := (Decimal.mk 1 e).toFloat

/-- The digits as a double, multiplied or divided by a power of ten as a double. The largest
such power is `10 ^ 308`. A number that comes out infinite has no reading. -/
def Decimal.scaled? (d : Decimal) : Option Float :=
  let x := Binary.nearest d.digits 1
  match d.exponent with
  | .ofNat e =>
    if d.digits = 0 then some x
    else if 308 < e then none
    else
      let y := x * powerOfTen e
      if y.isInf then none else some y
  | .negSucc e =>
    let places := e + 1
    if places ≤ 308 then some (x / powerOfTen places)
    else if places ≤ 616 then some (x / powerOfTen 308 / powerOfTen (places - 308))
    else some (Binary.nearest 0 1)

def Numeral.toFloat? (n : Numeral) : Option Float := n.leading.scaled?

end QubitDynamics
