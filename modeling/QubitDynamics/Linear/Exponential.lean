import QubitDynamics.Linear.Solve

/-! The matrix exponential by scaling and squaring. The matrix is halved until
its norm is small, the diagonal rational approximant of degree thirteen is
evaluated at it, and the result is squared as often as the matrix was halved. -/

namespace QubitDynamics.Mat

variable {K R : Type}
variable [Zero K] [One K] [Add K] [Sub K] [Mul K] [Div K] [NatCast K] [ComplexScalar K R]
variable [Zero R] [Add R] [Div R] [LT R] [DecidableLT R] [LE R] [DecidableLE R] [RealScalar R]

/-- Coefficients of the numerator of the approximant, constant term first. The denominator has
the same ones with alternating signs. -/
def padeCoefficients : List Nat :=
  [64764752532480000, 32382376266240000, 7771770303897600, 1187353796428800, 129060195264000,
    10559470521600, 670442572800, 33522128640, 1323241920, 40840800, 960960, 16380, 182, 1]

/-- The polynomial `c 0 + c 1 · x + ⋯ + c 6 · x ^ 6` at `x = a2`, whose square and cube are
`a4` and `a6`. Powers above the cube are split off as one product with the cube. -/
def sexticAt (a2 a4 a6 : Mat K) (c : Nat → K) : Mat K :=
  let high := ((a6.scale (c 6)).add (a4.scale (c 5))).add (a2.scale (c 4))
  ((((high.mul a6).add (a6.scale (c 3))).add (a4.scale (c 2))).add (a2.scale (c 1))).add
    ((identity a2.rows).scale (c 0))

/-- The odd and the even part of the numerator at `a`. -/
def padeParts (a : Mat K) : Mat K × Mat K :=
  let b (k : Nat) : K := (padeCoefficients.getD k 0 : Nat)
  let a2 := a.mul a
  let a4 := a2.mul a2
  let a6 := a2.mul a4
  (a.mul (sexticAt a2 a4 a6 fun k => b (2 * k + 1)), sexticAt a2 a4 a6 fun k => b (2 * k))

/-- The rational approximant of degree thirteen at `a`. -/
def pade (a : Mat K) : Mat K :=
  let (u, v) := padeParts a
  solve (v.sub u) (v.add u)

/-- The scalar `2 ^ -s`. -/
def halfPower : Nat → K
  | 0 => 1
  | s + 1 => halfPower s * (1 / (2 : Nat))

/-- The matrix squared `s` times over. -/
def squareTimes : Nat → Mat K → Mat K
  | 0, m => m
  | s + 1, m => squareTimes s (m.mul m)

/-- The approximant of the exponential with `s` halvings and as many squarings. -/
def exponentialWith (s : Nat) (a : Mat K) : Mat K :=
  squareTimes s (pade (a.scale (halfPower s)))

/-- The largest column sum of moduli. -/
def oneNorm (a : Mat K) : R :=
  (List.range a.cols).foldl (fun best j =>
    let sum := rangeSum a.rows fun i => ComplexScalar.abs (a.entry i j)
    if best < sum then sum else best) 0

/-- The number of halvings that bring the norm to at most `5.37`. -/
def squarings (a : Mat K) : Nat :=
  let bound : R := RealScalar.ofDecimal ⟨537, -2⟩
  if bound < a.oneNorm then RealScalar.ceilLog2 (a.oneNorm / bound) else 0

/-- The exponential of a square matrix. A matrix with one row takes the exponential of its
scalar. -/
def exponential (a : Mat K) : Mat K :=
  match a.rows with
  | 0 => zero 0 0
  | 1 => single (ComplexScalar.exp (a.entry 0 0))
  | _ => exponentialWith a.squarings a

def exponential? (a : Mat K) : Option (Mat K) :=
  if a.rows = 0 ∨ a.rows = 1 ∧ 0 < a.cols ∨ a.rows = a.cols then some a.exponential else none

end QubitDynamics.Mat
