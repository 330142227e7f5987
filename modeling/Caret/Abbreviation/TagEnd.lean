import Caret.Markup.Tag
import Caret.Text.Word
import Caret.Text.Words

namespace Caret.Abbreviation

open Text

def isTagNameChar (c : Char) : Bool := isWord c || c == ':' || c == '.' || c == '-'

/-- Whether the text between angle brackets makes a tag: a slash or not, a name, and then nothing,
a slash, or white space and anything. -/
def isTagInside (inside : List Char) : Bool :=
  match (if inside.head? = some '/' then inside.tail else inside) with
  | [] => false
  | c :: rest =>
    c.isAlpha &&
      match rest.dropWhile isTagNameChar with
      | [] => true
      | d :: more => isSpace d || (d == '/' && more.isEmpty)

def isUnbracketed (c : Char) : Bool := c != '<' && c != '>'

theorem isUnbracketed_iff {c : Char} : isUnbracketed c = true ↔ c ≠ '<' ∧ c ≠ '>' := by
  simp [isUnbracketed]

def endsTag (line : Bytes) (cursor : Nat) : Bool :=
  let start := skipBack isUnbracketed line 0 (cursor - 1)
  test (· == '>') line (cursor - 1) && 0 < start && test (· == '<') line (start - 1) &&
    isTagInside (read line ⟨start, cursor - 1⟩).toList

end Caret.Abbreviation
