import Caret.Text.Bytes

namespace Caret.Arithmetic

open Text

inductive Symbol where
  | number (literal : String)
  | plus | minus | times | over
  | floorOver
  | openParen | closeParen | other
deriving DecidableEq

structure Token where
  symbol : Symbol
  start : Nat
  stop : Nat
deriving DecidableEq

def isNumberChar (c : Char) : Bool := c.isDigit || c == '.'

def Symbol.ofChar : Char → Symbol
  | '+' => .plus
  | '-' => .minus
  | '*' => .times
  | '/' => .over
  | '\\' => .floorOver
  | '(' => .openParen
  | ')' => .closeParen
  | _ => .other

def tokenAt (code : Bytes) (i : Nat) : Token :=
  if test isNumberChar code i then
    let stop := skip isNumberChar code code.size i
    ⟨.number (read code ⟨i, stop⟩), i, stop⟩
  else ⟨((at? code i).map Symbol.ofChar).getD .other, i, i + 1⟩

def tokensFrom (code : Bytes) (i : Nat) : List Token :=
  let start := skip isBlank code code.size i
  if start < code.size then
    let t := tokenAt code start
    t :: tokensFrom code (max (start + 1) t.stop)
  else []
termination_by code.size - i
decreasing_by
  have := le_skip isBlank code code.size i
  omega

end Caret.Arithmetic
