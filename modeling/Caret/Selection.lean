import Caret.Markup.Attribute
import Caret.Stylesheet.Parse
import Caret.Stylesheet.Value

namespace Caret

open Text

structure Selection where
  span : Span
  ranges : List Span
deriving DecidableEq

/-- The item to select from `pos`: the last that begins before it, or the first that ends after. -/
def pick {α : Type} (span : α → Span) (previous : Bool) (pos : Nat) (items : List α) : Option α :=
  if previous then (items.filter fun a => (span a).start < pos).getLast?
  else items.find? fun a => pos < (span a).stop

namespace Markup

def words (code : Bytes) (stop i : Nat) : List Span :=
  let start := skip isBlank code stop i
  if start < stop then
    let next := max (start + 1) (skip (!isBlank ·) code stop start)
    ⟨start, next⟩ :: words code stop next
  else []
termination_by stop - i
decreasing_by
  have := le_skip isBlank code stop i
  omega

def attributeRanges (code : Bytes) (a : Attribute) : List Span :=
  a.span :: match a.inside code with
    | none => []
    | some value =>
      if value.isEmpty then []
      else
        let classes := if lower (read code a.name) = "class" then words code value.stop value.start
          else []
        value :: if 1 < classes.length then classes else []

def selectTag (code : Bytes) (tag : Tag) : Selection :=
  let name := tag.span.start + 1
  ⟨tag.span, ⟨name, name + tag.name.utf8ByteSize⟩ ::
    (attributes code tag.span).flatMap (attributeRanges code)⟩

def select (code : Bytes) (previous : Bool) (pos : Nat) : Option Selection :=
  let opening := (tags code false).filter (·.kind ≠ .closing)
  (pick Tag.span previous (clamp code pos) opening).map (selectTag code)

end Markup

namespace Stylesheet

def itemSpan (code : Bytes) : Node → Span
  | .rule _ r => trim code r.selector
  | .declaration _ d => d.span

def selectNode (code : Bytes) (n : Node) : Selection :=
  let span := itemSpan code n
  match n with
  | .rule .. => ⟨span, [span]⟩
  | .declaration _ d =>
    let parts := splitValue code d.value
    ⟨span, span :: d.value :: if 1 < parts.length then parts else []⟩

def select (code : Bytes) (previous : Bool) (pos : Nat) : Option Selection :=
  (pick (itemSpan code) previous (clamp code pos) (parse code).items).map (selectNode code)

end Stylesheet

end Caret
