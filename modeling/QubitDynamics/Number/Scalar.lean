import QubitDynamics.Number.Binary

/-! Scalars. Everything that is computed with matrices and states is written for
an arbitrary type of complex scalars `K` over an arbitrary type of reals `R`, so
that one definition serves both for exact reasoning and for double precision.
The field operations come from the usual classes of arithmetic; the two classes
here add what they leave out. -/

namespace QubitDynamics

/-- Real scalars: reading decimals, rounding and the few functions that evolution calls. -/
class RealScalar (R : Type) where
  ofDecimal : Decimal → R
  sqrt : R → R
  isFinite : R → Bool
  /-- The nearest natural number, a half going away from zero; at most the largest word. -/
  roundNat : R → Nat
  /-- The least `s` with `x ≤ 2 ^ s`, for `x` above one. -/
  ceilLog2 : R → Nat

/-- Complex scalars `K` over the reals `R`. -/
class ComplexScalar (K : Type) (R : outParam Type) where
  /-- The number with the given real and imaginary part. -/
  ofParts : R → R → K
  re : K → R
  conj : K → K
  /-- The product with a real number, part by part. -/
  scaleReal : K → R → K
  abs : K → R
  normSq : K → R
  exp : K → K

def ComplexScalar.ofReal {K R : Type} [ComplexScalar K R] [Zero R] (x : R) : K :=
  ComplexScalar.ofParts x 0

def ComplexScalar.unit {K R : Type} [ComplexScalar K R] [Zero R] [One R] : K :=
  ComplexScalar.ofParts 0 1

structure Cartesian (R : Type) where
  re : R
  im : R
  deriving DecidableEq, Repr

namespace Cartesian

variable {R : Type}

instance [Zero R] : Zero (Cartesian R) := ⟨⟨0, 0⟩⟩

instance [Zero R] [One R] : One (Cartesian R) := ⟨⟨1, 0⟩⟩

instance [Zero R] [NatCast R] : NatCast (Cartesian R) := ⟨fun n => ⟨n, 0⟩⟩

instance [Add R] : Add (Cartesian R) := ⟨fun a b => ⟨a.re + b.re, a.im + b.im⟩⟩

instance [Sub R] : Sub (Cartesian R) := ⟨fun a b => ⟨a.re - b.re, a.im - b.im⟩⟩

instance [Neg R] : Neg (Cartesian R) := ⟨fun a => ⟨-a.re, -a.im⟩⟩

instance [Add R] [Sub R] [Mul R] : Mul (Cartesian R) :=
  ⟨fun a b => ⟨a.re * b.re - a.im * b.im, a.re * b.im + a.im * b.re⟩⟩

def normSq [Add R] [Mul R] (a : Cartesian R) : R := a.re * a.re + a.im * a.im

/-- Division multiplies by the conjugate and divides both parts by the squared modulus. -/
instance [Add R] [Sub R] [Mul R] [Div R] : Div (Cartesian R) :=
  ⟨fun a b => ⟨(a.re * b.re + a.im * b.im) / b.normSq, (a.im * b.re - a.re * b.im) / b.normSq⟩⟩

end Cartesian

/-! ### Double precision -/

instance natCastFloat : NatCast Float := ⟨Float.ofNat⟩

instance : RealScalar Float where
  ofDecimal := Decimal.toFloat
  sqrt := Float.sqrt
  isFinite := Float.isFinite
  roundNat x := x.round.toUInt64.toNat
  ceilLog2 x := x.log2.ceil.toUInt64.toNat

/-- The length of the vector `(x, y)`, scaled so that squares do not overflow. -/
def floatHypot (x y : Float) : Float :=
  let (a, b) := if x.abs < y.abs then (y.abs, x.abs) else (x.abs, y.abs)
  if a.isInf || b.isInf then Binary.infinity
  else if a == 0 then a + b
  else a * (1 + (b / a) * (b / a)).sqrt

/-- `e ^ re · (cos im + i sin im)`. An infinite or undefined real part fixes the value before
the angle is looked at. -/
def Cartesian.floatExp (z : Cartesian Float) : Cartesian Float :=
  if z.re.isInf && z.re < 0 && !z.im.isFinite then ⟨0, 0⟩
  else if z.re.isInf && 0 < z.re && (z.im == 0 || !z.im.isFinite) then
    ⟨z.re, if z.im.isInf then z.im - z.im else z.im⟩
  else if z.re.isNaN && z.im == 0 then z
  else ⟨z.re.exp * z.im.cos, z.re.exp * z.im.sin⟩

instance : ComplexScalar (Cartesian Float) Float where
  ofParts := Cartesian.mk
  re := Cartesian.re
  conj z := ⟨z.re, -z.im⟩
  scaleReal z x := ⟨z.re * x, z.im * x⟩
  abs z := floatHypot z.re z.im
  normSq := Cartesian.normSq
  exp := Cartesian.floatExp

end QubitDynamics
