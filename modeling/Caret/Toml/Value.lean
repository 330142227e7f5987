namespace Caret.Toml

inductive Value where
  | string (text : String)
  | integer (n : Int)
  | float (x : Float)
  | boolean (b : Bool)
  | datetime (text : String)
  | array (items : List Value)
  | table (entries : List (String × Value))

abbrev Table := List (String × Value)

abbrev Reader := String → Except String Table

def Table.get? (t : Table) (key : String) : Option Value := t.lookup key

end Caret.Toml
