import Caret.Text.Line
import Caret.Text.Width

namespace Caret.Text

def advance (w : Widths) : List Char → Nat → Nat → Nat
  | [], offset, _ => offset
  | _ :: _, offset, 0 => offset
  | c :: rest, offset, column => advance w rest (offset + c.utf8Size) (column - w.char c)

/-- The offset at a line and column; columns past the end of the line mean its end. -/
def offsetAt (w : Widths) (code : Bytes) (line column : Nat) : Option Nat := do
  let start ← (lineStarts code)[line]?
  let span := lineSpan code start
  return advance w (read code span).toList span.start column

def positionOf (w : Widths) (code : Bytes) (pos : Nat) : Nat × Nat :=
  let pos := clamp code pos
  let start := (lineSpan code pos).start
  (lineNumber code pos, w.text (read code ⟨start, max pos start⟩))

end Caret.Text
