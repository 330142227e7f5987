import Caret.Text.Bytes

/-!
The tags of markup text in the order in which they stand. Comments, character data sections,
processing instructions and declarations are passed over; in HTML, so is what stands inside
`script` and `style`.
-/

namespace Caret.Markup

open Text

def voidElements : List String :=
  ["area", "base", "br", "col", "embed", "hr", "img", "input", "link", "meta", "param", "source",
    "track", "wbr"]

def rawTextElements : List String := ["script", "style"]

inductive Tag.Kind where
  | opening | closing | selfClosing
deriving DecidableEq

structure Tag where
  name : String
  kind : Tag.Kind
  span : Span
deriving DecidableEq

def isNameChar (c : Char) : Bool :=
  c.isAlphanum || c == ':' || c == '_' || c == '.' || c == '-'

def nameEnd (code : Bytes) (i : Nat) : Nat := skip isNameChar code code.size i

def bracesEnd (code : Bytes) (depth i : Nat) : Nat :=
  if i < code.size then
    if test (· == '{') code i then bracesEnd code (depth + 1) (i + 1)
    else if test (· == '}') code i then
      if depth ≤ 1 then i + 1 else bracesEnd code (depth - 1) (i + 1)
    else bracesEnd code depth (i + 1)
  else code.size
termination_by code.size - i
decreasing_by all_goals omega

def valueEnd (code : Bytes) (i : Nat) : Nat :=
  match at? code i with
  | some '{' => bracesEnd code 1 (i + 1)
  | some '"' => past "\"" code code.size (i + 1)
  | some '\'' => past "'" code code.size (i + 1)
  | _ => i + 1

def beginsValue (c : Char) : Bool := isQuote c || c == '{'

/-- The offset past an opening tag whose name has been read up to `i`, and whether the tag closes
itself. A tag that meets `<` or the end of the text is none. -/
def openingEnd? (code : Bytes) (i : Nat) : Option (Nat × Bool) :=
  if i < code.size then
    if test (· == '>') code i then some (i + 1, false)
    else if test (· == '/') code i ∧ test (· == '>') code (i + 1) then some (i + 2, true)
    else if test beginsValue code i then openingEnd? code (max (i + 1) (valueEnd code i))
    else if test (· == '<') code i then none
    else openingEnd? code (i + 1)
  else none
termination_by code.size - i
decreasing_by all_goals omega

def standsAt (code : Bytes) (word : String) (i : Nat) : Bool :=
  holdsAt code code.size (bytes word).toList i

def skippedEnd? (code : Bytes) (i : Nat) : Option Nat :=
  if standsAt code "<!--" i then some (past "-->" code code.size (i + 4))
  else if standsAt code "<![CDATA[" i then some (past "]]>" code code.size (i + 9))
  else if standsAt code "<?" i then some (past "?>" code code.size (i + 2))
  else if standsAt code "<!" i then some (past ">" code code.size (i + 2))
  else none

def closingTag? (code : Bytes) (i : Nat) : Option Tag :=
  if test (· == '/') code (i + 1) ∧ test Char.isAlpha code (i + 2) then
    let stop := nameEnd code (i + 2)
    some ⟨read code ⟨i + 2, stop⟩, .closing, ⟨i, past ">" code code.size stop⟩⟩
  else none

def openingTag? (code : Bytes) (xml : Bool) (i : Nat) : Option Tag :=
  if test Char.isAlpha code (i + 1) then
    let stop := nameEnd code (i + 1)
    let name := read code ⟨i + 1, stop⟩
    (openingEnd? code stop).map fun (tagEnd, closed) =>
      let kind : Tag.Kind :=
        if closed || (!xml && voidElements.contains (lower name)) then .selfClosing else .opening
      ⟨name, kind, ⟨i, tagEnd⟩⟩
  else none

/-- Where scanning goes on after a tag: past it, or at the closing tag of raw text. -/
def resume (code : Bytes) (xml : Bool) (tag : Tag) : Nat :=
  let name := lower tag.name
  if tag.kind = .opening ∧ !xml ∧ rawTextElements.contains name then
    let folded := code.map fun b => (Char.ofUInt8 b).toLower.toUInt8
    (find (bytes ("</" ++ name)).toList folded code.size tag.span.stop).getD code.size
  else tag.span.stop

/-- The tag that begins at `i`, if one does, and where scanning goes on. -/
def scanAt (code : Bytes) (xml : Bool) (i : Nat) : Option Tag × Nat :=
  if test (· == '<') code i then
    match skippedEnd? code i with
    | some next => (none, next)
    | none =>
      match closingTag? code i with
      | some tag => (some tag, tag.span.stop)
      | none =>
        match openingTag? code xml i with
        | some tag => (some tag, resume code xml tag)
        | none => (none, i + 1)
  else (none, i + 1)

def tagsFrom (code : Bytes) (xml : Bool) (i : Nat) : List Tag :=
  if i < code.size then
    match scanAt code xml i with
    | (tag?, next) => tag?.toList ++ tagsFrom code xml (max (i + 1) next)
  else []
termination_by code.size - i
decreasing_by omega

def tags (code : Bytes) (xml : Bool) : List Tag := tagsFrom code xml 0

end Caret.Markup
