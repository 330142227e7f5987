namespace Caret.Text

/-- How many columns a display takes for a character by itself, if it has a width, and for a text.
A text need not be as wide as its characters together. -/
structure Widths where
  char? : Char → Option Nat
  text : String → Nat

def Widths.char (w : Widths) (c : Char) : Nat := (w.char? c).getD 1

end Caret.Text
