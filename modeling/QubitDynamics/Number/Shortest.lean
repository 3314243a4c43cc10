import QubitDynamics.Number.Binary

/-! The shortest decimal text of a double. All numbers that round to a given
double form an interval around it. The text shows the decimal of that interval
on the coarsest grid `10 ^ k` that meets it; of two such neighbours the nearer
is shown, and the upper one in a tie. -/

namespace QubitDynamics.Binary

/-- The interval of numbers that round to a magnitude, as numerators over `den`. The ends
belong to it when `closed` holds. -/
structure Interval where
  low : Nat
  value : Nat
  high : Nat
  den : Nat
  closed : Bool

/-- Half the gap to either neighbour; the gap below a power of two is half as wide. -/
def Magnitude.interval (m : Magnitude) : Interval :=
  let gap := if m.mantissa = 1 <<< 52 ∧ -1074 < m.exponent then 1 else 2
  let up := 1 <<< (m.exponent - 2).toNat
  { low := (4 * m.mantissa - gap) * up
    value := 4 * m.mantissa * up
    high := (4 * m.mantissa + 2) * up
    den := 1 <<< (2 - m.exponent).toNat
    closed := m.mantissa % 2 = 0 }

/-- The point `c` of the grid `10 ^ k` lies in the interval. -/
def Interval.contains (i : Interval) (c : Nat) (k : Int) : Bool :=
  let (point, scale) := shifted 10 (c * i.den) 1 k
  if i.closed then i.low * scale ≤ point && point ≤ i.high * scale
  else i.low * scale < point && point < i.high * scale

/-- The point of the grid `10 ^ k` that stands for the interval, if one lies in it. -/
def Interval.onGrid (i : Interval) (k : Int) : Option Decimal :=
  let (unit, scale) := shifted 10 i.den 1 k
  let c := i.value * scale / unit
  let below := i.contains c k
  let above := i.contains (c + 1) k
  let upperNearer := unit ≤ 2 * (i.value * scale - c * unit)
  if above && (!below || upperNearer) then some ⟨c + 1, k⟩
  else if below then some ⟨c, k⟩
  else none

/-- Tries grids from `10 ^ k` downwards. -/
def Interval.coarsest (i : Interval) (k : Int) : Nat → Decimal
  | 0 => ⟨i.value / i.den, 0⟩
  | fuel + 1 => (i.onGrid k).getD (i.coarsest (k - 1) fuel)

/-- The shortest decimal that reads back as the magnitude. The first grid lies above the
magnitude, and seventeen digits always suffice. -/
def Magnitude.shortest (m : Magnitude) : Decimal :=
  if m.mantissa = 0 then ⟨0, 0⟩
  else
    let bits := Int.ofNat m.mantissa.log2 + m.exponent + 1
    m.interval.coarsest (bits * 30103 / 100000 + 1) 24

end QubitDynamics.Binary
