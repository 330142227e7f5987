import Caret.Markup.Attribute
import Caret.Markup.Element
import Caret.View

namespace Caret

open Text

structure EnclosingTag where
  name : String
  attributes : List (String × Option String)
  opening : Span
  closing : Option Span
deriving DecidableEq

inductive Surroundings where
  | tag (t : EnclosingTag)
  | property (name : String)
deriving DecidableEq

structure Context where
  kind : Kind := .markup
  language : String := "html"
  isInline : Bool := false
  jsx : Bool := false
  xml : Bool := false
  marker : Option String := none
  lookAhead : Bool := true
  surroundings : Option Surroundings := none
deriving DecidableEq

def unquote (value : String) : String :=
  match value.toList with
  | q :: rest =>
    if isQuote q then .ofList (if rest.getLast? = some q then rest.dropLast else rest) else value
  | [] => value

def assign (name : String) (value : Option String) :
    List (String × Option String) → List (String × Option String)
  | [] => [(name, value)]
  | (n, v) :: rest => if n = name then (n, value) :: rest else (n, v) :: assign name value rest

def enclosingTag? (code : Bytes) (xml : Bool) (pos : Nat) : Option EnclosingTag :=
  (Markup.innermost? code xml pos).map fun e =>
    { name := e.name
      attributes := (Markup.attributes code e.opening).foldl
        (fun found a => assign (read code a.name) (a.value.map (unquote <| read code ·)) found) []
      opening := e.opening
      closing := e.closing }

def EnclosingTag.attribute? (t : EnclosingTag) (name : String) : Option (Option String) :=
  t.attributes.lookup name

namespace View

/-- The property name met on the way back from `start`, scope by scope, unless a selector or the
space between declarations comes first. -/
def propertyBefore? (v : View) : Nat → Option String
  | 0 => none
  | probe + 1 =>
    if v.isSelected probe "section.property-list" || v.isSelected probe "meta.selector" then none
    else
      let scope := v.extractScope probe
      if v.isSelected probe "meta.property-name" then some (read v.code scope)
      else v.propertyBefore? (min scope.start probe)
termination_by start => start

def property? (v : View) (pos : Nat) : Option String :=
  if v.isSelected pos "meta.property-value" then v.propertyBefore? (v.extractScope pos).start
  else none

def unclassified : Classification :=
  { language := "html", kind := .markup, html := true, xml := false, jsx := false,
    isInline := false }

def surroundings? (v : View) (c : Classification) (pos : Nat) : Option Surroundings :=
  match c.kind with
  | .stylesheet => (v.property? pos).map .property
  | .markup => if c.html then (enclosingTag? v.code c.xml pos).map .tag else none

/-- The context at an offset; only with `deep` does it say what surrounds the offset. -/
def resolve (v : View) (pos : Nat) (deep : Bool) : Context :=
  let c := (v.classify pos).getD unclassified
  { kind := c.kind
    language := c.language
    isInline := c.isInline
    jsx := c.jsx
    xml := c.xml
    marker := if c.jsx then some "<" else none
    surroundings := if deep then v.surroundings? c pos else none }

end View

end Caret
