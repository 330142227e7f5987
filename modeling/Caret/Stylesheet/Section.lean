import Caret.Stylesheet.Parse
import Caret.Stylesheet.Value

namespace Caret.Stylesheet

structure Property where
  name : Span
  value : Span
  parts : List Span
deriving DecidableEq

structure Section where
  span : Span
  body : Span
  properties : List Property
deriving DecidableEq

def Property.ofDeclaration (code : Bytes) (d : Declaration) : Property :=
  ⟨d.name, d.value, splitValue code d.value⟩

def sectionAt (code : Bytes) (pos : Nat) : Option Section :=
  let sheet := parse code
  (sheet.enclosing (Text.clamp code pos)).head?.map fun p =>
    { span := p.1.span
      body := p.1.body
      properties := (sheet.children (some p.2)).filterMap fun
        | .declaration _ d => some (Property.ofDeclaration code d)
        | .rule .. => none }

end Caret.Stylesheet
