import Caret.Error
import Caret.Text.Words

namespace Caret

structure Files where
  read : String → Except FileError ByteArray
  isThere : String → Bool

namespace Files

def text (files : Files) (path : String) : Except Error String :=
  match files.read path with
  | .error e => .error (.file e)
  | .ok content =>
    match String.fromUTF8? content with
    | some text => .ok text
    | none => .error (.file .notText)

end Files

structure Folder where
  files : List (String × ByteArray) := []

namespace Folder

inductive Place where
  | file (content : ByteArray)
  | folder
  | error (e : FileError)

def outside (parts : List String) : Place :=
  if parts.all ["", ".", ".."].contains then .folder else .error .missing

def walk (f : Folder) (folder : List String) : List String → Place
  | [] => .folder
  | part :: rest =>
    if part = "" ∨ part = "." then walk f folder rest
    else if part = ".." then
      if folder = [] then outside rest else walk f folder.dropLast rest
    else if 255 < part.utf8ByteSize then .error .nameTooLong
    else
      let inside := folder ++ [part]
      let name := "/".intercalate inside
      match f.files.lookup name with
      | some content => if rest = [] then .file content else .error .notDirectory
      | none =>
        if f.files.any fun p => (name ++ "/").isPrefixOf p.1 then walk f inside rest
        else .error .missing

def find (f : Folder) (path : String) : Place :=
  if path.toList.contains '\x00' then
    .error (.other "file name contained an unexpected NUL byte")
  else if path = "" then .error .missing
  else if 4095 < path.utf8ByteSize then .error .nameTooLong
  else
    let parts := (Text.splitAt (· == '/') path.toList).map .ofList
    if parts.head? = some "" then outside parts else walk f [] parts

def toFiles (f : Folder) : Files where
  read path := match f.find path with
    | .file content => .ok content
    | .folder => .error .directory
    | .error e => .error e
  isThere path := match f.find path with
    | .file _ | .folder => true
    | .error _ => false

end Folder

end Caret
