import Caret.Arithmetic.Token

/-!
The value of an arithmetic text: sums of products of signed numbers and parentheses, worked out
from left to right while reading, so that the first fault in the text is the one reported.
-/

namespace Caret.Arithmetic

open Text

inductive Error where
  | unexpectedCharacter (pos : Nat)
  | unexpectedEnd (pos : Nat)
  | unclosed (pos : Nat)
  | divisionByZero (pos : Nat)
  | invalidNumber (literal : String)
deriving DecidableEq

def Error.message : Error → String
  | unexpectedCharacter pos => "unexpected character at " ++ toString pos
  | unexpectedEnd pos => "unexpected end of expression at " ++ toString pos
  | unclosed pos => "expected ')' at " ++ toString pos
  | divisionByZero pos => "division by zero at " ++ toString pos
  | invalidNumber literal => "invalid number \"" ++ literal ++ "\""

def natOfDigits (digits : List Char) : Nat :=
  digits.foldl (fun n c => 10 * n + (c.toNat - '0'.toNat)) 0

def number? (literal : String) : Option Float :=
  let digits := literal.toList
  let whole := digits.takeWhile Char.isDigit
  match digits.dropWhile Char.isDigit with
  | [] => if whole.isEmpty then none else some (.ofScientific (natOfDigits whole) true 0)
  | _ :: decimals =>
    if decimals.all Char.isDigit ∧ !(whole ++ decimals).isEmpty then
      some (.ofScientific (natOfDigits (whole ++ decimals)) true decimals.length)
    else none

inductive Joint where
  | times | over | floorOver
deriving DecidableEq

def Joint.apply (value : Float) (pos : Nat) (factor : Float) : Joint → Except Error Float
  | .times => .ok (value * factor)
  | .over => if factor == 0 then .error (.divisionByZero pos) else .ok (value / factor)
  | .floorOver =>
    if factor == 0 then .error (.divisionByZero pos) else .ok (value / factor).floor

def negate : Nat → Float → Float
  | 0, value => value
  | n + 1, value => negate n (-value)

structure Pending where
  sum : Option (Float × Bool) := none
  product : Option (Float × Joint) := none
  minuses : Nat := 0

namespace Pending

def factor (p : Pending) (value : Float) (pos : Nat) : Except Error Float :=
  let value := negate p.minuses value
  match p.product with
  | none => .ok value
  | some (before, joint) => joint.apply before pos value

def total (p : Pending) (term : Float) : Float :=
  match p.sum with
  | none => term
  | some (before, true) => before - term
  | some (before, false) => before + term

end Pending

/-- Works through the tokens of a text that ends at `stop`. After a factor, `term` is the product
it completes; `outer` holds what stands before each open parenthesis, innermost first. -/
def run (stop : Nat) : List Token → Option Float → Pending → List Pending → Except Error Float
  | [], none, _, _ => .error (.unexpectedEnd stop)
  | [], some term, p, [] => .ok (p.total term)
  | [], some _, _, _ :: _ => .error (.unclosed stop)
  | t :: rest, none, p, outer =>
    match t.symbol with
    | .plus => run stop rest none p outer
    | .minus => run stop rest none { p with minuses := p.minuses + 1 } outer
    | .openParen => run stop rest none {} (p :: outer)
    | .number literal =>
      match number? literal with
      | none => .error (.invalidNumber literal)
      | some value => do run stop rest (some (← p.factor value t.stop)) p outer
    | _ => .error (.unexpectedCharacter t.start)
  | t :: rest, some term, p, outer =>
    let joined (joint : Joint) : Pending := { sum := p.sum, product := some (term, joint) }
    match t.symbol, outer with
    | .times, _ => run stop rest none (joined .times) outer
    | .over, _ => run stop rest none (joined .over) outer
    | .floorOver, _ => run stop rest none (joined .floorOver) outer
    | .plus, _ => run stop rest none { sum := some (p.total term, false) } outer
    | .minus, _ => run stop rest none { sum := some (p.total term, true) } outer
    | .closeParen, o :: outer => do
      run stop rest (some (← o.factor (p.total term) t.stop)) o outer
    | _, [] => .error (.unexpectedCharacter t.start)
    | _, _ :: _ => .error (.unclosed t.start)

def evaluate (code : Bytes) : Except Error Float :=
  run code.size (tokensFrom code 0) none {} []

end Caret.Arithmetic
