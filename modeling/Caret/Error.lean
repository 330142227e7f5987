namespace Caret

inductive FileError where
  | missing
  | permission
  | notDirectory
  | directory
  | nameTooLong
  | notText
  | other (message : String)
deriving DecidableEq

def FileError.message : FileError → String
  | missing => "No such file or directory (os error 2)"
  | permission => "Permission denied (os error 13)"
  | notDirectory => "Not a directory (os error 20)"
  | directory => "Is a directory (os error 21)"
  | nameTooLong => "File name too long (os error 36)"
  | notText => "stream did not contain valid UTF-8"
  | other message => message

inductive Error where
  | file (e : FileError)
  | settings (message : String)
  | malformedAbbreviation (pos : Nat) (message : String)
  | malformedExpression (message : String)
  | engine (message : String)
  | plain (message : String)
deriving DecidableEq

namespace Error

def message : Error → String
  | file e => "I/O error: " ++ e.message
  | settings text => "Invalid settings: " ++ text
  | malformedAbbreviation pos text =>
    "Invalid abbreviation at " ++ toString pos ++ ": " ++ text
  | malformedExpression text => "Invalid expression: " ++ text
  | engine text => "Expansion failed: " ++ text
  | plain text => text

def isMalformed : Error → Bool
  | malformedAbbreviation .. | malformedExpression _ => true
  | _ => false

end Error

end Caret
