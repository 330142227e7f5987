import Caret.Arithmetic.Decimal
import Caret.Arithmetic.Evaluate
import Caret.Text.Line

namespace Caret.Arithmetic

open Text

structure Options where
  lookAhead : Bool := true
  spaces : Bool := true
deriving DecidableEq

def isSpace (c : Char) : Bool := c == ' ' || c == '\t'

theorem isSpace_iff {c : Char} : isSpace c = true ↔ c = ' ' ∨ c = '\t' := by
  simp [isSpace]

def isOperator (c : Char) : Bool := c == '+' || c == '-' || c == '*' || c == '/' || c == '\\'

theorem isOperator_iff {c : Char} :
    isOperator c = true ↔ c = '+' ∨ c = '-' ∨ c = '*' ∨ c = '/' ∨ c = '\\' := by
  simp [isOperator, or_assoc]

def pastParens (spaces : Bool) (line : Bytes) (pos : Nat) : Nat :=
  let next := if spaces then skip isSpace line line.size pos else pos
  if next < line.size ∧ test (· == ')') line next then
    pastParens spaces line (max (pos + 1) (next + 1))
  else pos
termination_by line.size - pos
decreasing_by
  have h : pos ≤ next := by
    show pos ≤ if spaces then skip isSpace line line.size pos else pos
    split
    · exact le_skip isSpace line line.size pos
    · exact Nat.le_refl pos
  omega

def numberStart (line : Bytes) (cursor : Nat) : Nat :=
  let whole := skipBack Char.isDigit line 0 cursor
  if 0 < whole ∧ whole < cursor ∧ test (· == '.') line (whole - 1) then
    skipBack Char.isDigit line 0 (whole - 1)
  else whole

/-- Goes back from `cursor` over numbers, operators and parentheses, of which `depth` wait for the
one that opens them; gives where that ends and how many still wait. -/
def goBack (spaces : Bool) (line : Bytes) (cursor depth : Nat) : Nat × Nat :=
  if _h : cursor = 0 then (0, depth)
  else
    let start := numberStart line cursor
    if start < cursor then goBack spaces line start depth
    else match at? line (cursor - 1) with
      | none => (cursor, depth)
      | some c =>
        if c = ')' then goBack spaces line (cursor - 1) (depth + 1)
        else if c = '(' then
          if depth = 0 then (cursor, depth) else goBack spaces line (cursor - 1) (depth - 1)
        else if (spaces && isSpace c) || isOperator c then goBack spaces line (cursor - 1) depth
        else (cursor, depth)
termination_by cursor
decreasing_by all_goals omega

/-- The span of the expression that ends at an offset of a line, without spaces before it. -/
def extract? (options : Options) (line : Bytes) (pos : Nat) : Option Span :=
  let pos := clamp line pos
  let stop := if options.lookAhead ∧ test (· == ')') line pos then
      pastParens options.spaces line (pos + 1)
    else pos
  let (start, depth) := goBack options.spaces line stop 0
  if start = stop ∨ depth ≠ 0 then none else some ⟨skip isSpace line stop start, stop⟩

structure Evaluation where
  span : Span
  value : Float
  snippet : String

def evaluateAt? (options : Options) (code : Bytes) (pos : Nat) : Option Evaluation := do
  guard (isBoundary code pos)
  let line := lineSpan code pos
  let found ← extract? options (cut code line) (pos - line.start)
  let span := found.shift line.start
  match evaluate (cut code span) with
  | .ok value => if value.isFinite then some ⟨span, value, render 4 value⟩ else none
  | .error _ => none

end Caret.Arithmetic
