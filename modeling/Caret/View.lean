import Caret.Language
import Caret.Scope
import Caret.Text.Bytes

namespace Caret

structure View where
  code : Bytes
  classify : Nat → Option Classification
  scopeName : Nat → String
  extractScope : Nat → Span

def View.isSelected (v : View) (pos : Nat) (selector : String) : Bool :=
  Scope.isSelectedBy (v.scopeName pos) selector

end Caret
