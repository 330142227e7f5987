import Caret.Text.Bytes

/-!
Stylesheet text cut into comments, quoted strings and single bytes. The cut does not depend on
what the pieces mean, so the structure of a stylesheet is a fold over its tokens.
-/

namespace Caret.Stylesheet

open Text

inductive Token.Kind where
  | comment | quoted | blank | openParen | closeParen | colon | semicolon | openBrace
  | closeBrace | other
deriving DecidableEq

structure Token where
  kind : Token.Kind
  span : Span
deriving DecidableEq

def Token.Kind.ofChar (c : Char) : Token.Kind :=
  if isBlank c then .blank
  else match c with
    | '(' => .openParen
    | ')' => .closeParen
    | ':' => .colon
    | ';' => .semicolon
    | '{' => .openBrace
    | '}' => .closeBrace
    | _ => .other

/-- The offset past the closing quote of a string whose inside begins at `i`, at most `stop`;
a backslash hides the byte after it. -/
def quotedEnd (quote : Char) (code : Bytes) (stop i : Nat) : Nat :=
  if i < stop then
    if test (· == '\\') code i then quotedEnd quote code stop (i + 2)
    else if test (· == quote) code i then i + 1
    else quotedEnd quote code stop (i + 1)
  else stop
termination_by stop - i
decreasing_by all_goals omega

theorem quotedEnd_le (quote : Char) (code : Bytes) (stop i : Nat) :
    quotedEnd quote code stop i ≤ stop := by
  fun_induction quotedEnd quote code stop i <;> omega

/-- The token that begins at `i`. A comment begins even where `stop` parts its two first bytes. -/
def tokenAt (code : Bytes) (stop i : Nat) : Token :=
  match at? code i with
  | none => ⟨.other, ⟨i, i + 1⟩⟩
  | some c =>
    if c = '/' ∧ test (· == '*') code (i + 1) then
      ⟨.comment, ⟨i, max (i + 1) (past "*/" code stop (i + 2))⟩⟩
    else if isQuote c then ⟨.quoted, ⟨i, max (i + 1) (quotedEnd c code stop (i + 1))⟩⟩
    else ⟨.ofChar c, ⟨i, i + 1⟩⟩

theorem lt_stop_tokenAt (code : Bytes) (stop i : Nat) : i < (tokenAt code stop i).span.stop := by
  unfold tokenAt
  split
  · exact Nat.lt_succ_self i
  · split
    · exact Nat.lt_of_lt_of_le (Nat.lt_succ_self i) (Nat.le_max_left _ _)
    · split
      · exact Nat.lt_of_lt_of_le (Nat.lt_succ_self i) (Nat.le_max_left _ _)
      · exact Nat.lt_succ_self i

def tokens (code : Bytes) (stop i : Nat) : List Token :=
  if i < stop then tokenAt code stop i :: tokens code stop (tokenAt code stop i).span.stop
  else []
termination_by stop - i
decreasing_by
  have := lt_stop_tokenAt code stop i
  omega

end Caret.Stylesheet
