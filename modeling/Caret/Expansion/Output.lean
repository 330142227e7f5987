import Caret.Context

namespace Caret.Expansion

inductive FieldStyle where
  | snippet
  | preview
deriving DecidableEq

def FieldStyle.render (index : Nat) (placeholder : String) : FieldStyle → String
  | preview => placeholder
  | snippet =>
    "$\x7b" ++ toString index ++ (if placeholder = "" then "" else ":" ++ placeholder) ++ "\x7d"

inductive TextStyle where
  | escape
  | verbatim
deriving DecidableEq

def escapeDollars : List Char → List Char
  | [] => []
  | c :: rest => if c = '$' then '\\' :: '$' :: escapeDollars rest else c :: escapeDollars rest

def TextStyle.apply (text : String) : TextStyle → String
  | escape => .ofList (escapeDollars text.toList)
  | verbatim => text

structure Output where
  field : FieldStyle
  text : TextStyle
  format : Bool
deriving DecidableEq

structure Config where
  context : Context := {}
  preview : Bool := false
  field : Option FieldStyle := none
  text : Option TextStyle := none
  format : Option Bool := none

def Config.output (c : Config) : Output :=
  { field := c.field.getD (if c.preview then .preview else .snippet)
    text := c.text.getD .escape
    format := c.format.getD (!c.context.isInline) }

end Caret.Expansion
