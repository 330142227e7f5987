import Caret.Text.Lowercase
import Caret.Text.Words

namespace Caret

inductive Kind where
  | markup | stylesheet
deriving DecidableEq, Inhabited

structure Language where
  name : String
  kind : Kind
  extensions : List String := []
  html : Bool := false
  xml : Bool := false
  jsx : Bool := false
deriving DecidableEq

structure Classification where
  language : String
  kind : Kind
  html : Bool
  xml : Bool
  jsx : Bool
  isInline : Bool
deriving DecidableEq

namespace Language

def withExtensions (l : Language) (more : List String) : Language :=
  { l with extensions := l.extensions ++ more }

def withHtml (l : Language) : Language := { l with html := true }

def withXml (l : Language) : Language := { l with html := true, xml := true }

def withJsx (l : Language) : Language := { l with html := true, jsx := true }

def classification (l : Language) (isInline : Bool) : Classification :=
  { language := l.name, kind := l.kind, html := l.html, xml := l.xml, jsx := l.jsx, isInline }

def builtin : List Language :=
  [{ name := "html", kind := .markup, extensions := ["html", "htm", "shtml"], html := true },
    { name := "xhtml", kind := .markup, extensions := ["xhtml"], html := true },
    { name := "vue", kind := .markup, extensions := ["vue"], html := true },
    withXml { name := "xml", kind := .markup, extensions := ["xml", "svg", "plist"] },
    withXml { name := "xsl", kind := .markup, extensions := ["xsl", "xslt"] },
    withJsx { name := "jsx", kind := .markup, extensions := ["jsx", "tsx"] },
    { name := "haml", kind := .markup, extensions := ["haml"] },
    { name := "pug", kind := .markup, extensions := ["pug", "jade"] },
    { name := "slim", kind := .markup, extensions := ["slim"] },
    { name := "css", kind := .stylesheet, extensions := ["css"] },
    { name := "scss", kind := .stylesheet, extensions := ["scss"] },
    { name := "sass", kind := .stylesheet, extensions := ["sass"] },
    { name := "less", kind := .stylesheet, extensions := ["less"] },
    { name := "sss", kind := .stylesheet, extensions := ["sss"] },
    { name := "stylus", kind := .stylesheet, extensions := ["styl"] }]

/-- The extension of the last part of a path: what follows the last dot, unless that dot is the
first character. A trailing slash and parts that are a single dot do not count. -/
def extension? (path : String) : Option String := do
  let parts := (Text.splitAt (· == '/') path.toList).filter fun part => part ≠ [] ∧ part ≠ ['.']
  let name ← parts.getLast?
  let pieces := Text.splitAt (· == '.') name
  if pieces.length < 2 ∨ name = ['.', '.'] ∨ pieces.dropLast = [[]] then none
  else pieces.getLast?.map .ofList

end Language

/-- The known languages, and for each extension the name of the language that was last to claim it,
whether or not that language has been replaced since. -/
structure Registry where
  languages : List Language := []
  claims : List (String × String) := []

namespace Registry

def add (r : Registry) (l : Language) : Registry where
  languages := l :: r.languages.filter (·.name != l.name)
  claims := l.extensions.foldl (fun claims e => (Text.lowercase e, l.name) :: claims) r.claims

def ofList (ls : List Language) : Registry := ls.foldl add {}

def builtin : Registry := ofList Language.builtin

def named (r : Registry) (name : String) : Option Language :=
  r.languages.find? fun l => l.name == name

def get? (r : Registry) (name : String) : Option Language := r.named (Text.lowercase name)

def detect? (r : Registry) (file : String) : Option Language := do
  let extension := Text.lowercase (← Language.extension? file)
  r.named (← r.claims.lookup extension)

def names (r : Registry) : List String := (r.languages.map (·.name)).mergeSort fun a b => a ≤ b

def html (r : Registry) : Language :=
  (r.get? "html").getD { name := "html", kind := .markup, html := true }

def getOrHtml (r : Registry) (name : String) : Language := (r.get? name).getD r.html

end Registry

end Caret
