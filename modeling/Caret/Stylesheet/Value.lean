import Caret.Stylesheet.Token

namespace Caret.Stylesheet

open Text

def isSeparator (c : Char) : Bool := c == ',' || c == '/' || isBlank c

/-- The parts from `i` on, with `depth` parentheses open and a part begun at `start`. -/
def splitFrom (code : Bytes) (stop i depth : Nat) (start : Option Nat) : List Span :=
  if i < stop then
    match at? code i with
    | none => splitFrom code stop (i + 1) depth (start <|> some i)
    | some c =>
      if isQuote c then
        splitFrom code stop (max (i + 1) (quotedEnd c code stop (i + 1))) depth (start <|> some i)
      else if c = '(' then splitFrom code stop (i + 1) (depth + 1) (start <|> some i)
      else if c = ')' then splitFrom code stop (i + 1) (depth - 1) start
      else if isSeparator c ∧ depth = 0 then
        (start.map (⟨·, i⟩ : Nat → Span)).toList ++ splitFrom code stop (i + 1) depth none
      else splitFrom code stop (i + 1) depth (start <|> some i)
  else (start.map (⟨·, stop⟩ : Nat → Span)).toList
termination_by stop - i
decreasing_by all_goals omega

def splitValue (code : Bytes) (value : Span) : List Span :=
  splitFrom code (min value.stop code.size) value.start 0 none

end Caret.Stylesheet
