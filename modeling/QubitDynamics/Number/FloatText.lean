import QubitDynamics.Number.Shortest

/-! Texts of doubles. A number is written with its shortest digits and never with an
exponent; it is read from any numeral, and from the words for the numbers that
have none. -/

namespace QubitDynamics

/-- The text of a double: shortest digits without an exponent, and a sign on negative zero. -/
def floatText (x : Float) : String :=
  let sign := if Binary.isNegative x then "-" else ""
  match Binary.reading x with
  | .notANumber => "NaN"
  | .infinite => sign ++ "inf"
  | .finite m => sign ++ m.shortest.positional

/-- Reads a number: an optional sign, then a numeral, an infinity or the word for no number,
letters in either case. -/
def parseFloat? (text : List Char) : Option Float :=
  match text with
  | '-' :: cs => (unsigned? cs).map fun x => -x
  | '+' :: cs => unsigned? cs
  | cs => unsigned? cs
where
  unsigned? (cs : List Char) : Option Float :=
    let word := String.ofList (cs.map Char.toLower)
    if word = "inf" ∨ word = "infinity" then some Binary.infinity
    else if word = "nan" then some Binary.notANumber
    else (Decimal.read? cs).map Decimal.toFloat

end QubitDynamics
