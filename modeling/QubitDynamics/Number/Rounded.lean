import QubitDynamics.Number.Binary

/-! Rounded texts of doubles for reports. Numbers below a thousand are shown
with at most eight places, larger ones with at most ten significant digits and
an exponent. Closing zeros are left out. -/

namespace QubitDynamics.Rounded

def trimZeros (cs : List Char) : List Char :=
  (cs.reverse.dropWhile (· = '0')).reverse

/-- The text of `units / 10 ^ 8`. -/
def places (units : Nat) : String :=
  let fraction := trimZeros (List.replicate (8 - (Nat.toDigits 10 (units % Nat.pow 10 8)).length) '0' ++
    Nat.toDigits 10 (units % Nat.pow 10 8))
  let whole := Nat.toDigits 10 (units / Nat.pow 10 8)
  String.ofList (if fraction.isEmpty then whole else whole ++ '.' :: fraction)

/-- Ten significant digits of a magnitude at or above one, with their exponent. The digits are
rounded from the exact value, a half going to the even digit. -/
def significant (m : Binary.Magnitude) : Nat × Nat :=
  let (n, d) := Binary.shifted 2 m.mantissa 1 m.exponent
  let e := (Nat.toDigits 10 (n / d)).length - 1
  let c := if 9 ≤ e then Binary.roundDiv n (d * Nat.pow 10 (e - 9)) else Binary.roundDiv (n * Nat.pow 10 (9 - e)) d
  if c = Nat.pow 10 10 then (Nat.pow 10 9, e + 1) else (c, e)

/-- Digits `d.ddd` with an exponent. -/
def scientific (m : Binary.Magnitude) : String :=
  let (c, e) := significant m
  match trimZeros (Nat.toDigits 10 c) with
  | [] => "0"
  | [c] => String.ofList [c] ++ "e" ++ toString e
  | c :: cs => String.ofList (c :: '.' :: cs) ++ "e" ++ toString e

def text? (x : Float) : Option String :=
  match Binary.reading x with
  | .finite m =>
    let sign (shown : Bool) := if Binary.isNegative x && shown then "-" else ""
    if x.abs < 1000 then
      let units := (x.abs * 1e8).round.toUInt64.toNat
      some (sign (units != 0) ++ places units)
    else some (sign true ++ scientific m)
  | _ => none

end QubitDynamics.Rounded
