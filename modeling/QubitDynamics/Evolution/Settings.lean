import QubitDynamics.Hamiltonian.Basic
import QubitDynamics.Text.Blank

/-! Settings of an evolution: the time step and the order of the product formula.
They can be given as texts; a text that cannot be read leaves the setting at its
default. -/

namespace QubitDynamics

inductive SplitOrder where
  | first
  | second
  deriving DecidableEq, Repr

namespace SplitOrder

def name : SplitOrder → String
  | first => "first"
  | second => "second"

def ofName? (s : String) : Option SplitOrder :=
  if s = "first" then some .first else if s = "second" then some .second else none

/-- Reads an order from its number or its name, letters in either case. What is left of a text
that names no order is the error. -/
def parse (text : String) : Except String SplitOrder :=
  let word := String.ofList ((Blank.trim text.toList).map Char.toLower)
  if word = "1" ∨ word = "first" then .ok .first
  else if word = "2" ∨ word = "second" then .ok .second
  else .error word

def unknownText (word : String) : String := "unknown Trotter order '" ++ word ++ "'"

end SplitOrder

/-- The time step of one slice and the order of the formula. -/
structure Settings (R : Type) where
  dt : R
  order : SplitOrder
  deriving DecidableEq, Repr

namespace Settings

variable {R : Type} [RealScalar R]

/-- First order with a step of one tenth. -/
protected def default : Settings R := ⟨RealScalar.ofDecimal ⟨1, -1⟩, .first⟩

/-- Durations of steps and of evolutions are positive and finite. -/
def isDuration [Zero R] [LT R] [DecidableLT R] (t : R) : Bool := RealScalar.isFinite t && 0 < t

def validate [Zero R] [LT R] [DecidableLT R] (s : Settings R) : Except (DynamicsError R) Unit :=
  if isDuration s.dt then .ok () else .error (.badTimeStep s.dt)

/-- The default settings with those changes that can be read. -/
def ofTexts (dt? order? : Option String) : Settings Float :=
  let dt := dt?.bind fun text => parseFloat? (Blank.trim text.toList)
  let order := order?.bind fun text => (SplitOrder.parse text).toOption
  let base : Settings Float := Settings.default
  ⟨dt.getD base.dt, order.getD base.order⟩

/-- The settings are the default ones, numbers being compared as numbers. -/
def isDefault (s : Settings Float) : Bool :=
  let base : Settings Float := Settings.default
  s.dt == base.dt && s.order == base.order

end Settings

end QubitDynamics
