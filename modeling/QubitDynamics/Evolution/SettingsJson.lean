import QubitDynamics.Evolution.Settings
import QubitDynamics.Json

/-! Settings in JSON: an object with the fields `dt` and `order`, each given once and
others ignored, or an array of the two values. -/

namespace QubitDynamics

/-- A number by the short reading of its numeral, unless it is too large for a double. -/
def Json.toFloat? : Json → Option Float
  | .number negative n => n.toFloat?.map fun x => if negative then -x else x
  | _ => none

/-- The name of an order, alone or as the only key of an object with value null. -/
def Json.toSplitOrder? : Json → Option SplitOrder
  | .string (some s) => SplitOrder.ofName? s
  | .object [(some s, .null)] => SplitOrder.ofName? s
  | _ => none

/-- The value of a field that is given exactly once. -/
def Json.field? (key : String) (fields : List (Option String × Json)) : Option Json :=
  match fields.filter (·.1 = some key) with
  | [(_, v)] => some v
  | _ => none

def Settings.ofJson? : Json → Option (Settings Float)
  | .object fields => do
    if fields.any (·.1.isNone) then none
    let dt ← (← Json.field? "dt" fields).toFloat?
    let order ← (← Json.field? "order" fields).toSplitOrder?
    return ⟨dt, order⟩
  | .array [dt, order] => do return ⟨← dt.toFloat?, ← order.toSplitOrder?⟩
  | _ => none

def Settings.readJson? (text : String) : Option (Settings Float) := do
  Settings.ofJson? (← Json.read? text)

end QubitDynamics
