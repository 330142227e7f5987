import Caret.Files
import Caret.Toml.Value

namespace Caret

structure Settings where
  table : Toml.Table := []

namespace Settings

def parse (reader : Toml.Reader) (text : String) : Except Error Settings :=
  match reader text with
  | .ok table => .ok ⟨table⟩
  | .error message => .error (.settings message)

def get? (s : Settings) (key : String) : Option Toml.Value := s.table.get? key

def config (s : Settings) : Toml.Table :=
  match s.get? "config" with
  | some (.table entries) => entries
  | _ => []

def ofFile (reader : Toml.Reader) (files : Files) (path : String) : Except Error Settings := do
  parse reader (← files.text path)

def load (reader : Toml.Reader) (files : Files) (path : Option String) : Settings :=
  match path with
  | none => {}
  | some path => if files.isThere path then ((ofFile reader files path).toOption).getD {} else {}

end Settings

end Caret
