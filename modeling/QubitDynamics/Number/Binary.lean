import QubitDynamics.Number.Decimal

/-! Double precision numbers seen through their bits. A finite number is a sign
and a magnitude `mantissa · 2 ^ exponent`; the nearest double to a quotient of
natural numbers is found exactly, a half going to the even mantissa. -/

namespace QubitDynamics.Binary

/-- The number `mantissa · 2 ^ exponent`. -/
structure Magnitude where
  mantissa : Nat
  exponent : Int
  deriving DecidableEq, Repr

/-- What a bit pattern stands for, its sign aside. -/
inductive Reading where
  | finite (magnitude : Magnitude)
  | infinite
  | notANumber
  deriving DecidableEq, Repr

def isNegative (x : Float) : Bool := 1 <<< 63 ≤ x.toBits.toNat

/-- Eleven exponent bits above fifty-two fraction bits; the lowest exponent has no hidden bit. -/
def reading (x : Float) : Reading :=
  let bits := x.toBits.toNat
  let e : Nat := (bits >>> 52) % (1 <<< 11)
  let f : Nat := bits % (1 <<< 52)
  if e = 2047 then if f = 0 then .infinite else .notANumber
  else if e = 0 then .finite ⟨f, -1074⟩
  else .finite ⟨(1 <<< 52) + f, Int.ofNat e - 1075⟩

def infinity : Float := Float.ofBits (UInt64.ofNat (2047 <<< 52))

def notANumber : Float := Float.ofBits (UInt64.ofNat (4095 <<< 51))

/-- The quotient rounded to the nearest natural number, a half going to the even one. -/
def roundDiv (num den : Nat) : Nat :=
  let q := num / den
  let r := num % den
  if 2 * r < den then q
  else if den < 2 * r then q + 1
  else q + q % 2

/-- A quotient with a factor `2 ^ e` or `10 ^ e` moved to the side that keeps both parts whole. -/
def shifted (base num den : Nat) (e : Int) : Nat × Nat :=
  (num * Nat.pow base e.toNat, den * Nat.pow base (-e).toNat)

/-- The exponent `e` with `2 ^ e ≤ num / den < 2 ^ (e + 1)`, for positive `num` and `den`. -/
def floorLog2 (num den : Nat) : Int :=
  let e : Int := Int.ofNat num.log2 - Int.ofNat den.log2
  let (n, d) := shifted 2 num den (-e)
  if d ≤ n then e else e - 1

/-- The nearest double to `num / den`. Mantissas keep fifty-three bits above the least
exponent, and a quotient beyond the largest double gives infinity. -/
def nearest (num den : Nat) : Float :=
  if num = 0 then Float.ofBits 0
  else
    let q := max (-1074) (floorLog2 num den - 52)
    let (n, d) := shifted 2 num den (-q)
    Float.ofBits (UInt64.ofNat (min (((q + 1074).toNat <<< 52) + roundDiv n d) (2047 <<< 52)))

end Binary

/-- The nearest double. Exponents that put the number beyond every double, or below half the
least one, are not expanded. -/
def Decimal.toFloat (d : Decimal) : Float :=
  if d.digits = 0 ∨ d.exponent + d.digits.log2 + 1 < -400 then Float.ofBits 0
  else if 400 < d.exponent then Binary.infinity
  else
    let (n, k) := Binary.shifted 10 d.digits 1 d.exponent
    Binary.nearest n k

end QubitDynamics
