import Caret.Span

namespace Caret

namespace Stylesheet

structure Rule where
  selector : Span
  body : Span
  span : Span
  closed : Bool
  parent : Option Nat
deriving DecidableEq

structure Declaration where
  name : Span
  value : Span
  span : Span
  colon : Option Nat
  terminator : Option Nat
  parent : Option Nat
deriving DecidableEq

end Stylesheet

structure Stylesheet where
  rules : Array Stylesheet.Rule := #[]
  declarations : Array Stylesheet.Declaration := #[]
  comments : Array Span := #[]
deriving DecidableEq

namespace Stylesheet

inductive Node where
  | rule (index : Nat) (r : Rule)
  | declaration (index : Nat) (d : Declaration)
deriving DecidableEq

namespace Node

def span : Node → Span
  | rule _ r => r.span
  | declaration _ d => d.span

def parent : Node → Option Nat
  | rule _ r => r.parent
  | declaration _ d => d.parent

end Node

def ruleNodes (s : Stylesheet) : List Node := s.rules.toList.zipIdx.map fun p => .rule p.2 p.1

def declarationNodes (s : Stylesheet) : List Node :=
  s.declarations.toList.zipIdx.map fun p => .declaration p.2 p.1

def items (s : Stylesheet) : List Node :=
  (s.ruleNodes ++ s.declarationNodes).mergeSort fun a b => a.span.start ≤ b.span.start

def children (s : Stylesheet) (parent : Option Nat) : List Node :=
  s.items.filter fun n => n.parent == parent

def enclosing (s : Stylesheet) (pos : Nat) : List (Rule × Nat) :=
  (s.rules.toList.zipIdx.filter fun p => p.1.span.touches pos).mergeSort
    fun a b => a.1.span.size ≤ b.1.span.size

def declarationAt (s : Stylesheet) (pos : Nat) : Option (Declaration × Nat) :=
  s.declarations.toList.zipIdx.find? fun p => p.1.span.touches pos

inductive Place where
  | selector
  | property
deriving DecidableEq

structure Surrounding where
  place : Place
  span : Span
  body : Span
deriving DecidableEq

def innermost? (s : Stylesheet) (pos : Nat) : Option Surrounding :=
  let ofRule (r : Rule) : Surrounding := ⟨.selector, r.span, r.body⟩
  let ofDeclaration (d : Declaration) : Surrounding := ⟨.property, d.span, d.value⟩
  match s.declarationAt pos, (s.enclosing pos).head? with
  | some (d, _), some (r, _) =>
    some (if r.span.size < d.span.size then ofRule r else ofDeclaration d)
  | some (d, _), none => some (ofDeclaration d)
  | none, some (r, _) => some (ofRule r)
  | none, none => none

end Stylesheet

end Caret
