import Caret.Text.Words

/-!
Scopes name what a character is, by a stack of dotted names, outermost first; selectors ask for
scopes. A selector is a list of alternatives, each a path of names to be met in order.
-/

namespace Caret.Scope

def nameMatches (name atom : List Char) : Bool := name == atom || (atom ++ ['.']).isPrefixOf name

/-- The names of a path are met in this order among those of the stack. -/
def pathMatches : List (List Char) → List (List Char) → Bool
  | [], _ => true
  | _ :: _, [] => false
  | atom :: path, name :: names =>
    if nameMatches name atom then pathMatches path names else pathMatches (atom :: path) names

structure Selector where
  alternatives : List (List (List Char))
deriving DecidableEq

def Selector.parse (text : String) : Selector :=
  ⟨((Text.splitAt (· == ',') text.toList).map Text.words).filter (· ≠ [])⟩

def Selector.matches (s : Selector) (scope : String) : Bool :=
  s.alternatives.any fun path => pathMatches path (Text.words scope.toList)

def isSelectedBy (scope selector : String) : Bool := (Selector.parse selector).matches scope

end Caret.Scope
