import QubitDynamics.Expression.SymbolTable
import QubitDynamics.Expression.Token

/-! Expressions: sums of products, such as `-1.0*Z0*Z1 + 2*I*Y1^2`.

    sum     := sign? product (('+' | '-') product)*
    product := atom ('*' atom)*
    atom    := number | 'I' power? | ident power?
    power   := '^' '-'? int

Tokens are read one at a time, and reading stops at the first token that cannot
continue a sum. Names are looked up as they are met. -/

namespace QubitDynamics

inductive ParseFault where
  | invalidToken (text : String)
  | emptyExpression
  | expectedSign (found : Token)
  | expectedFactor (found : Option Token)
  | exponentNotInteger
  | negativeImaginaryPower
  deriving DecidableEq, Repr

def ParseFault.message : ParseFault → String
  | invalidToken text => invalidTokenText text
  | emptyExpression => "empty expression"
  | expectedSign found => "expected '+' or '-', found '" ++ found.text ++ "'"
  | expectedFactor (some found) => "expected a factor, found '" ++ found.text ++ "'"
  | expectedFactor none => "expected a factor, found end of input"
  | exponentNotInteger => "exponent must be an integer"
  | negativeImaginaryPower => "negative power of I"

inductive ExpressionError where
  | fault (position : Nat) (cause : ParseFault)
  | unknownSymbol (name : String)
  deriving DecidableEq, Repr

/-- A factor as it is written. An exponent of a symbol is kept even if it is negative. -/
inductive Atom (K : Type) where
  | number (value : Decimal)
  | imaginary (exponent : Nat)
  | symbol (s : Symbol K) (exponent : Option Int)
  deriving DecidableEq

/-- A product with the sign before it. -/
structure Summand (K : Type) where
  negative : Bool
  atoms : List (Atom K)
  deriving DecidableEq

/-- A token with the byte at which it starts. -/
structure PlacedToken where
  token : Token
  start : Nat
  deriving DecidableEq, Repr

/-- What can be raised to a power: the imaginary unit at its place in the source, or a symbol. -/
inductive Base (K : Type) where
  | imaginary (start : Nat)
  | symbol (s : Symbol K)
  deriving DecidableEq

/-- How far the current product has been read. -/
inductive Phase (K : Type) where
  /-- Nothing yet; a sign or an atom may follow. -/
  | start
  /-- A sign or a star; an atom has to follow. -/
  | atom
  /-- A base; a power may follow. -/
  | base (b : Base K)
  /-- A base and `^`; an exponent has to follow. -/
  | caret (b : Base K)
  /-- A base and `^-`; the digits of the exponent have to follow. -/
  | caretMinus (b : Base K)
  /-- A whole atom; a star, a sign or the end may follow. -/
  | joint
  deriving DecidableEq

/-- The summands that are complete, and the sign and atoms of the current one. -/
structure Reader (K : Type) where
  summands : List (Summand K)
  negative : Bool
  atoms : List (Atom K)
  phase : Phase K
  deriving DecidableEq

namespace Base

variable {K : Type}

def bare : Base K → Atom K
  | imaginary _ => .imaginary 1
  | symbol s => .symbol s none

/-- The base with an exponent. The imaginary unit has no negative powers. -/
def raised (e : Int) : Base K → Except ExpressionError (Atom K)
  | imaginary start =>
    if e < 0 then .error (.fault start .negativeImaginaryPower) else .ok (.imaginary e.toNat)
  | symbol s => .ok (.symbol s (some e))

end Base

namespace Reader

variable {K R : Type}

def start : Reader K := ⟨[], false, [], .start⟩

def push (r : Reader K) (a : Atom K) : Reader K :=
  { r with atoms := r.atoms ++ [a], phase := .joint }

def close (r : Reader K) : List (Summand K) := r.summands ++ [⟨r.negative, r.atoms⟩]

/-- A token after a whole atom. -/
def afterAtom (r : Reader K) (t : PlacedToken) : Except ExpressionError (Reader K) :=
  match t.token with
  | .star => .ok { r with phase := .atom }
  | .plus => .ok ⟨r.close, false, [], .atom⟩
  | .minus => .ok ⟨r.close, true, [], .atom⟩
  | found => .error (.fault t.start (.expectedSign found))

section

variable [Zero K] [One K] [Neg K] [Zero R] [One R] [ComplexScalar K R]

/-- The first token of an atom. -/
def atom (table : SymbolTable K) (r : Reader K) (t : PlacedToken) : Except ExpressionError (Reader K) :=
  match t.token with
  | .float d => .ok (r.push (.number d))
  | .int n => .ok (r.push (.number (.ofNat n)))
  | .imaginaryUnit => .ok { r with phase := .base (.imaginary t.start) }
  | .ident name =>
    match table.resolve? name with
    | none => .error (.unknownSymbol name)
    | some s => .ok { r with phase := .base (.symbol s) }
  | found => .error (.fault t.start (.expectedFactor (some found)))

def step (table : SymbolTable K) (r : Reader K) (t : PlacedToken) : Except ExpressionError (Reader K) :=
  match r.phase with
  | .start =>
    match t.token with
    | .plus => .ok { r with phase := .atom }
    | .minus => .ok { r with negative := true, phase := .atom }
    | _ => r.atom table t
  | .atom => r.atom table t
  | .base b =>
    match t.token with
    | .power => .ok { r with phase := .caret b }
    | _ => (r.push b.bare).afterAtom t
  | .caret b =>
    match t.token with
    | .minus => .ok { r with phase := .caretMinus b }
    | .int n => (b.raised n).map r.push
    | _ => .error (.fault t.start .exponentNotInteger)
  | .caretMinus b =>
    match t.token with
    | .int n => (b.raised (-n)).map r.push
    | _ => .error (.fault t.start .exponentNotInteger)
  | .joint => r.afterAtom t

end

/-- The summands at the end of the source, which lies at byte `stop`. -/
def finish (stop : Nat) (r : Reader K) : Except ExpressionError (List (Summand K)) :=
  match r.phase with
  | .start => .error (.fault stop .emptyExpression)
  | .atom => .error (.fault stop (.expectedFactor none))
  | .base b => .ok (r.push b.bare).close
  | .caret _ => .error (.fault stop .exponentNotInteger)
  | .caretMinus _ => .error (.fault stop .exponentNotInteger)
  | .joint => .ok r.close

end Reader

/-- The tokens of a source, unless some lexeme has none. -/
def placedTokens : List Lexeme → Except ExpressionError (List PlacedToken)
  | [] => .ok []
  | l :: ls =>
    match l.token? with
    | none => .error (.fault l.start (.invalidToken (String.ofList l.text)))
    | some t => (placedTokens ls).map (⟨t, l.start⟩ :: ·)

def readSum {K R : Type} [Zero K] [One K] [Neg K] [Zero R] [One R] [ComplexScalar K R]
    (table : SymbolTable K) (stop : Nat) (ts : List PlacedToken) : Except ExpressionError (List (Summand K)) := do
  (← ts.foldlM (Reader.step table) Reader.start).finish stop

end QubitDynamics
