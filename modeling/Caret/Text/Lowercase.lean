import Caret.Text.Lowercase.Ranges
import Caret.Text.Ranges

namespace Caret.Text.Lowercase

def isCased (c : Char) : Bool := c.isAlpha || isIn cased c

def isIgnorable (c : Char) : Bool := isIn ignorable c

def char (c : Char) : Char :=
  if c.toNat < 0x80 then c.toLower
  else
    match shifts.find? fun (first, last, step, _) =>
      first ≤ c.toNat && c.toNat ≤ last && (c.toNat - first) % step == 0 with
    | some (_, _, _, shift) => .ofNat (c.toNat + shift).toNat
    | none => c

def meetsCased (s : List Char) : Bool := (s.dropWhile isIgnorable).head?.any isCased

/-- Lower case of what remains of a word whose characters so far are `seen`, last first. A capital
sigma that ends a word becomes a final one. -/
def chars (seen : List Char) : List Char → List Char
  | [] => []
  | c :: rest =>
    let form : List Char :=
      if c = '\u03A3' then [if meetsCased seen && !meetsCased rest then '\u03C2' else '\u03C3']
      else if c = '\u0130' then ['i', '\u0307']
      else [char c]
    form ++ chars (c :: seen) rest

end Lowercase

def lowercase (s : String) : String := .ofList (Lowercase.chars [] s.toList)

end Caret.Text
