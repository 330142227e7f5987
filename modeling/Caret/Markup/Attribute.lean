import Caret.Markup.Tag

namespace Caret.Markup

open Text

structure Attribute where
  name : Span
  value : Option Span
deriving DecidableEq

namespace Attribute

def span (a : Attribute) : Span := .between a.name.start (a.value.elim a.name.stop (·.stop))

def unquoted (code : Bytes) (value : Span) : Span :=
  match at? (bytes (read code value)) 0 with
  | some q =>
    if isQuote q then
      if 1 < value.size ∧ test (· == q) code (value.stop - 1) then
        .between (value.start + 1) (value.stop - 1)
      else .between (value.start + 1) value.stop
    else value
  | none => value

def inside (code : Bytes) (a : Attribute) : Option Span := a.value.map (unquoted code)

end Attribute

def attributeNameEnd (code : Bytes) (limit i : Nat) : Nat :=
  if test (· == '{') code i then min limit (valueEnd code i)
  else skip (fun c => !isBlank c && c != '=' && c != '>' && c != '/') code limit i

def attributeValueEnd (code : Bytes) (limit i : Nat) : Nat :=
  if i < limit ∧ test beginsValue code i then min limit (valueEnd code i)
  else skip (fun c => !isBlank c && c != '>') code limit i

def attributeValue? (code : Bytes) (limit i : Nat) : Option Span :=
  let equals := skip isBlank code limit i
  if equals < limit ∧ test (· == '=') code equals then
    let start := skip isBlank code limit (equals + 1)
    some ⟨start, attributeValueEnd code limit start⟩
  else none

def isBetween (c : Char) : Bool := isBlank c || c == '/'

/-- The attributes from `i` up to `limit` or the first `>` outside a value. -/
def attributesFrom (code : Bytes) (limit i : Nat) : List Attribute :=
  if i < limit then
    if test isBetween code i then attributesFrom code limit (i + 1)
    else if test (· == '>') code i then []
    else
      let stop := attributeNameEnd code limit i
      if stop ≤ i then attributesFrom code limit (i + 1)
      else
        let a : Attribute := ⟨⟨i, stop⟩, attributeValue? code limit stop⟩
        a :: attributesFrom code limit (max (i + 1) (a.value.elim stop (·.stop)))
  else []
termination_by limit - i
decreasing_by all_goals omega

def attributes (code : Bytes) (opening : Span) : List Attribute :=
  attributesFrom code (min opening.stop code.size) (nameEnd code (opening.start + 1))

end Caret.Markup
