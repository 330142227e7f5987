import Caret.Markup.Tag

/-!
Elements: opening tags paired with the tags that close them. A closing tag closes the nearest open
element of its name; those opened after that one stay unclosed.
-/

namespace Caret.Markup

open Text

structure Element where
  name : String
  opening : Span
  closing : Option Span
deriving DecidableEq

namespace Element

def outer (e : Element) : Span := .between e.opening.start (e.closing.elim e.opening.stop (·.stop))

def inner (e : Element) : Option Span := e.closing.map fun c => .between e.opening.stop c.start

end Element

def sameName (xml : Bool) (a b : String) : Bool :=
  if xml then a == b else lower a == lower b

/-- Elements found so far and the indices of those still open, innermost first. -/
structure Pairing where
  elements : Array Element := #[]
  opened : List Nat := []

def Pairing.add (xml : Bool) (p : Pairing) (tag : Tag) : Pairing :=
  let begun : Array Element := p.elements.push ⟨tag.name, tag.span, none⟩
  match tag.kind with
  | .opening => ⟨begun, p.elements.size :: p.opened⟩
  | .selfClosing => ⟨begun, p.opened⟩
  | .closing =>
    let matching i := p.elements[i]?.any fun e => sameName xml e.name tag.name
    match p.opened.dropWhile (!matching ·) with
    | [] => p
    | i :: rest => ⟨p.elements.modify i fun e => { e with closing := some tag.span }, rest⟩

def elements (code : Bytes) (xml : Bool) : List Element :=
  ((tags code xml).foldl (Pairing.add xml) {}).elements.toList

def enclosing (elements : List Element) (pos : Nat) : List Element :=
  (elements.filter (·.outer.surrounds pos)).mergeSort fun a b => a.outer.size ≤ b.outer.size

def innermost? (code : Bytes) (xml : Bool) (pos : Nat) : Option Element :=
  (enclosing (elements code xml) pos).head?

end Caret.Markup
