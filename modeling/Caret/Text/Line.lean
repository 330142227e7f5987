import Caret.Text.Bytes

namespace Caret.Text

def lineSpan (code : Bytes) (pos : Nat) : Span :=
  let pos := clamp code pos
  let start := skipBack (· != '\n') code 0 pos
  let stop := skip (· != '\n') code code.size pos
  if start < stop ∧ test (· == '\r') code (stop - 1) then ⟨start, stop - 1⟩ else ⟨start, stop⟩

def lineStarts (code : Bytes) : List Nat :=
  0 :: ((List.range code.size).filter (test (· == '\n') code)).map (· + 1)

def lineNumber (code : Bytes) (pos : Nat) : Nat :=
  (List.range (clamp code pos)).countP (test (· == '\n') code)

end Caret.Text
