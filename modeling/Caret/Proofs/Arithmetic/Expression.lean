import Caret.Arithmetic.Extract
import Caret.Proofs.Text.Written

namespace Caret.Arithmetic

open Text

abbrev Gap := Stretch isSpace

structure Digits extends Stretch Char.isDigit where
  nonempty : text ≠ ""

inductive Literal where
  | integer (digits : Digits)
  | decimal (whole : Stretch Char.isDigit) (decimals : Digits)

mutual

inductive Expression where
  | term (t : Term)
  | sum (e : Expression) (before : Gap) (minus : Bool) (after : Gap) (t : Term)

inductive Term where
  | factor (f : Factor)
  | product (t : Term) (before : Gap) (joint : Joint) (after : Gap) (f : Factor)

inductive Factor where
  | signed (minus : Bool) (after : Gap) (f : Factor)
  | parens (before : Gap) (e : Expression) (after : Gap)
  | literal (l : Literal)

end

def signChar (minus : Bool) : Char := if minus then '-' else '+'

def Joint.char : Joint → Char
  | .times => '*'
  | .over => '/'
  | .floorOver => '\\'

def Literal.text : Literal → String
  | integer digits => digits.text
  | decimal whole decimals => whole.text ++ .singleton '.' ++ decimals.text

mutual

def Expression.text : Expression → String
  | .term t => t.text
  | .sum e before minus after t =>
    e.text ++ before.text ++ .singleton (signChar minus) ++ after.text ++ t.text

def Term.text : Term → String
  | .factor f => f.text
  | .product t before joint after f =>
    t.text ++ before.text ++ .singleton joint.char ++ after.text ++ f.text

def Factor.text : Factor → String
  | .signed minus after f => .singleton (signChar minus) ++ after.text ++ f.text
  | .parens before e after =>
    .singleton '(' ++ before.text ++ e.text ++ after.text ++ .singleton ')'
  | .literal l => l.text

end

def Literal.value : Literal → Float
  | integer digits => .ofScientific (natOfDigits digits.text.toList) true 0
  | decimal whole decimals =>
    .ofScientific (natOfDigits (whole.text.toList ++ decimals.text.toList)) true
      decimals.text.toList.length

def Joint.value? (a b : Float) : Joint → Option Float
  | .times => some (a * b)
  | .over => if b == 0 then none else some (a / b)
  | .floorOver => if b == 0 then none else some (a / b).floor

mutual

def Expression.value? : Expression → Option Float
  | .term t => t.value?
  | .sum e _ minus _ t => do
    let a ← e.value?
    let b ← t.value?
    return if minus then a - b else a + b

def Term.value? : Term → Option Float
  | .factor f => f.value?
  | .product t _ joint _ f => do
    let a ← t.value?
    let b ← f.value?
    joint.value? a b

def Factor.value? : Factor → Option Float
  | .signed minus _ f => f.value?.map fun a => if minus then -a else a
  | .parens _ e _ => e.value?
  | .literal l => some l.value

end

end Caret.Arithmetic
