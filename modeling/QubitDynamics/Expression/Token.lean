import QubitDynamics.Number.FloatText

/-! Tokens of Hamiltonian expressions. At every position the longest token is
taken; blanks separate tokens, and a character that begins no token is a lexeme
of its own without a token. Positions count bytes of UTF-8. -/

namespace QubitDynamics

inductive Token where
  | imaginaryUnit
  | float (value : Decimal)
  | int (value : Nat)
  | ident (name : String)
  | plus
  | minus
  | star
  | power
  deriving DecidableEq, Repr

def Token.text : Token → String
  | imaginaryUnit => "I"
  | float d => floatText d.toFloat
  | int n => toString n
  | ident name => name
  | plus => "+"
  | minus => "-"
  | star => "*"
  | power => "^"

/-- A piece of the source from byte `start` up to byte `stop`. It has no token when it is not a
valid lexeme. -/
structure Lexeme where
  token? : Option Token
  text : List Char
  start : Nat
  stop : Nat
  deriving DecidableEq, Repr

namespace Lexer

def isBlank (c : Char) : Bool := c = ' ' || c = '\t' || c = '\r' || c = '\n'

def isIdentStart (c : Char) : Bool := c.isAlpha || c = '_'

def isIdentRest (c : Char) : Bool := c.isAlphanum || c = '_'

def digitCount (cs : List Char) : Nat := (cs.takeWhile Char.isDigit).length

/-- The length of an exponent at the front: `e` or `E`, an optional sign, and digits. Without
digits there is no exponent. -/
def exponentLength : List Char → Nat
  | [] => 0
  | c :: cs =>
    if c = 'e' ∨ c = 'E' then
      let sign := match cs with
        | s :: _ => if s = '+' ∨ s = '-' then 1 else 0
        | [] => 0
      match digitCount (cs.drop sign) with
      | 0 => 0
      | n + 1 => 1 + sign + (n + 1)
    else 0

/-- The integer literals are those below `2 ^ 63`. -/
def intToken (text : List Char) : Option Token :=
  let n := Decimal.ofDigits text
  if n < 1 <<< 63 then some (.int n) else none

def floatToken (text : List Char) : Option Token := (Decimal.read? text).map .float

def identToken (text : List Char) : Token :=
  if text = ['I'] then .imaginaryUnit else .ident (String.ofList text)

/-- The lexeme that begins with `c`: its token, and how many of the following characters belong
to it. -/
def scan (c : Char) (cs : List Char) : Option Token × Nat :=
  if c.isDigit then
    let whole := digitCount cs
    match cs.drop whole with
    | '.' :: rest =>
      let fraction := digitCount rest
      let k := whole + 1 + fraction + exponentLength (rest.drop fraction)
      (floatToken (c :: cs.take k), k)
    | rest =>
      let e := exponentLength rest
      if e = 0 then (intToken (c :: cs.take whole), whole)
      else (floatToken (c :: cs.take (whole + e)), whole + e)
  else if c = '.' then
    let fraction := digitCount cs
    if fraction = 0 then (none, 0)
    else
      let k := fraction + exponentLength (cs.drop fraction)
      (floatToken (c :: cs.take k), k)
  else if isIdentStart c then
    let k := (cs.takeWhile isIdentRest).length
    (some (identToken (c :: cs.take k)), k)
  else match c with
    | '+' => (some .plus, 0)
    | '-' => (some .minus, 0)
    | '^' => (some .power, 0)
    | '*' => if cs.head? = some '*' then (some .power, 1) else (some .star, 0)
    | _ => (none, 0)

def byteLength (cs : List Char) : Nat := cs.foldr (·.utf8Size + ·) 0

/-- The lexemes from byte `pos` on, after `skip` characters that belong to the lexeme before. -/
def lexFrom (pos skip : Nat) : List Char → List Lexeme
  | [] => []
  | c :: cs =>
    match skip with
    | k + 1 => lexFrom (pos + c.utf8Size) k cs
    | 0 =>
      if isBlank c then lexFrom (pos + c.utf8Size) 0 cs
      else
        let (token?, k) := scan c cs
        let text := c :: cs.take k
        ⟨token?, text, pos, pos + byteLength text⟩ :: lexFrom (pos + c.utf8Size) k cs

end Lexer

def lex (source : String) : List Lexeme := Lexer.lexFrom 0 0 source.toList

def invalidTokenText (text : String) : String := "Invalid token: '" ++ text ++ "'"

end QubitDynamics
