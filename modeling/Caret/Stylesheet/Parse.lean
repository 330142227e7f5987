import Caret.Stylesheet.Basic
import Caret.Stylesheet.Token

/-!
The rules and declarations of stylesheet text. Nothing is refused: a rule that is never closed
runs to the end, and a closing brace without a rule is passed over.
-/

namespace Caret.Stylesheet

open Text

structure Draft where
  sheet : Stylesheet := {}
  opened : List Nat := []
  item : Option Nat := none
  colon : Option Nat := none
  depth : Nat := 0

namespace Draft

def beginItem (d : Draft) (i : Nat) : Draft := { d with item := d.item <|> some i }

def endItem (d : Draft) : Draft := { d with item := none, colon := none }

/-- Name and value of a declaration that covers `content`, whose item begins at `start`. Without a
colon only an at-rule has a value, which begins after its first word. -/
def nameAndValue (code : Bytes) (start : Nat) (content : Span) : Option Nat → Span × Span
  | some colon =>
    (trim code (.between start colon), trim code (.between (colon + 1) content.stop))
  | none =>
    let word := skip (!isBlank ·) code content.stop content.start
    if test (· == '@') code content.start ∧ isBoundary code content.stop ∧ word < content.stop then
      (⟨content.start, word⟩, trim code ⟨word, content.stop⟩)
    else (content, .empty content.stop)

def addDeclaration (code : Bytes) (d : Draft) (stop : Nat) (terminator : Option Nat) : Draft :=
  match d.item with
  | none => d
  | some start =>
    let content := trim code (.between start stop)
    if content.isEmpty then d
    else
      let (name, value) := nameAndValue code start content d.colon
      let declaration : Declaration :=
        { name, value, terminator
          span := .between content.start (terminator.elim content.stop (· + 1))
          colon := d.colon
          parent := d.opened.head? }
      { d with sheet.declarations := d.sheet.declarations.push declaration }

def openRule (code : Bytes) (d : Draft) (brace : Nat) : Draft :=
  let selector := trim code (.between (d.item.getD brace) brace)
  let rule : Rule :=
    { selector
      body := .empty (brace + 1)
      span := .between selector.start (brace + 1)
      closed := false
      parent := d.opened.head? }
  { d with
    sheet.rules := d.sheet.rules.push rule
    opened := d.sheet.rules.size :: d.opened }

def closeRule (d : Draft) (brace : Nat) : Draft :=
  match d.opened with
  | [] => d
  | i :: rest =>
    { d with
      sheet.rules := d.sheet.rules.modify i fun r =>
        { r with body.stop := brace, span.stop := brace + 1, closed := true }
      opened := rest }

/-- Reads one more token. Inside parentheses only parentheses and strings have a meaning. -/
def absorb (code : Bytes) (d : Draft) (t : Token) : Draft :=
  let i := t.span.start
  match t.kind with
  | .comment => { d with sheet.comments := d.sheet.comments.push t.span }
  | .blank => d
  | .quoted | .other => d.beginItem i
  | .openParen => { d.beginItem i with depth := d.depth + 1 }
  | .closeParen => { d with depth := d.depth - 1 }
  | .colon =>
    let e := d.beginItem i
    if d.depth = 0 ∧ d.colon = none ∧ d.item.any (· < i) then { e with colon := some i } else e
  | .semicolon =>
    if d.depth = 0 then (d.addDeclaration code i (some i)).endItem else d.beginItem i
  | .openBrace => if d.depth = 0 then (d.openRule code i).endItem else d.beginItem i
  | .closeBrace =>
    if d.depth = 0 then ((d.addDeclaration code i none).endItem).closeRule i else d.beginItem i

/-- Ends the text at `stop`. A last item counts as a declaration inside a rule or where the text
is a list of declarations; open rules end with the text. -/
def finish (code : Bytes) (isInline : Bool) (d : Draft) (stop : Nat) : Stylesheet :=
  let d := if isInline ∨ d.opened ≠ [] then d.addDeclaration code stop none else d
  let rules := d.opened.foldl
    (fun rules i => rules.modify i fun r => { r with body.stop := stop, span.stop := stop })
    d.sheet.rules
  { d.sheet with rules }

end Draft

def parseRegion (code : Bytes) (region : Span) (isInline : Bool) : Stylesheet :=
  let stop := min region.stop code.size
  ((tokens code stop region.start).foldl (Draft.absorb code) {}).finish code isInline stop

def parse (code : Bytes) : Stylesheet := parseRegion code ⟨0, code.size⟩ false

end Caret.Stylesheet
