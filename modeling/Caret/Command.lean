import Caret.Abbreviation.Extract
import Caret.Arithmetic.Extract
import Caret.Balance
import Caret.Document
import Caret.Files
import Caret.Selection
import Caret.Stylesheet.Section
import Caret.Text.Position

namespace Caret

open Text

inductive Command where
  | context | extract | balanceIn | balanceOut | nextItem | prevItem | enclosingRule | math
deriving DecidableEq

namespace Command

def ofName? : String → Option Command
  | "context" => some .context
  | "extract" => some .extract
  | "balance-in" => some .balanceIn
  | "balance-out" => some .balanceOut
  | "next-item" => some .nextItem
  | "prev-item" => some .prevItem
  | "section" => some .enclosingRule
  | "math" => some .math
  | _ => none

structure Question where
  command : Command
  file : String
  position : String
  language : Option String
  properties : Bool
deriving DecidableEq

inductive Invocation where
  | help
  | version
  | run (q : Question)
deriving DecidableEq

structure Arguments where
  words : List String := []
  language : Option String := none
  properties : Bool := false

def Arguments.question (a : Arguments) : Except Error Invocation :=
  match a.words with
  | [position, file, name] =>
    match ofName? name with
    | some command => .ok (.run ⟨command, file, position, a.language, a.properties⟩)
    | none => .error (.plain ("unknown command: " ++ name))
  | _ => .error (.plain "expected <COMMAND> <FILE> <POSITION> (see --help)")

def isOption (arg : String) : Bool := arg.toList.head? == some '-' && 1 < arg.utf8ByteSize

def readArguments (a : Arguments) : List String → Except Error Invocation
  | [] => a.question
  | arg :: rest =>
    if arg = "--help" ∨ arg = "-h" then .ok .help
    else if arg = "--version" ∨ arg = "-V" then .ok .version
    else if arg = "--syntax" then
      match rest with
      | [] => .error (.plain "--syntax needs a value")
      | name :: rest => readArguments { a with language := some name } rest
    else if arg = "--properties" then readArguments { a with properties := true } rest
    else if isOption arg then .error (.plain ("unknown option: " ++ arg))
    else readArguments { a with words := arg :: a.words } rest

def number? (text : String) : Option Nat :=
  let digits := match text.toList with
    | '+' :: rest => rest
    | cs => cs
  if digits ≠ [] ∧ digits.all Char.isDigit then
    some (Arithmetic.natOfDigits digits) |>.filter (· < 1 <<< 64)
  else none

def position? (w : Widths) (code : Bytes) (position : String) : Option Nat :=
  let cs := position.toList
  match cs.dropWhile (· != ':') with
  | [] => number? position
  | _ :: column => do
    let line ← number? (.ofList (cs.takeWhile (· != ':')))
    let column ← number? (.ofList column)
    guard (line ≠ 0)
    offsetAt w code (line - 1) column

def renderPosition (w : Widths) (code : Bytes) (pos : Nat) : String :=
  let (line, column) := positionOf w code pos
  toString (line + 1) ++ ":" ++ toString column

def contextLines (c : Context) : List String :=
  ["syntax: " ++ c.language,
    "type: " ++ (match c.kind with | .markup => "markup" | .stylesheet => "stylesheet"),
    "inline: " ++ toString c.isInline] ++
  (if c.jsx then ["jsx: true"] else []) ++
  (if c.xml then ["xml: true"] else []) ++
  match c.surroundings with
  | none => []
  | some (.property name) => ["property: " ++ name]
  | some (.tag t) =>
    ("tag: " ++ t.name ++ " " ++ t.opening.render) ::
      t.attributes.map fun (name, value) =>
        "  " ++ name ++ (value.elim "" fun v => "=" ++ v)

def matchLines (w : Widths) (code : Bytes) : Option Abbreviation.Match → List String
  | none => ["no abbreviation"]
  | some m =>
    [m.abbreviation,
      "start: " ++ toString m.start ++ " location: " ++ toString m.location ++
        " end: " ++ toString m.stop,
      "at: " ++ renderPosition w code m.start]

def selectionLines (code : Bytes) (s : Selection) : List String :=
  s.span.render :: s.ranges.map fun r => "  " ++ r.render ++ " " ++ read code r

def sectionLines (code : Bytes) (properties : Bool) (s : Stylesheet.Section) : List String :=
  s.span.render ::
    if properties then
      s.properties.map fun p => "  " ++ read code p.name ++ ": " ++ read code p.value
    else []

def mathLines (e : Arithmetic.Evaluation) : List String := [e.snippet, e.span.render]

def answer (w : Widths) (d : Document) (command : Command) (properties : Bool) (pos : Nat) :
    Except Error (List String) :=
  let code := d.code
  let balance (direction : Direction) : List Span :=
    match d.language.kind with
    | .markup => Markup.balance code d.language.xml direction (clamp code pos)
    | .stylesheet => Stylesheet.balance code direction (clamp code pos)
  let select (previous : Bool) : Option Selection :=
    match d.language.kind with
    | .markup => Markup.select code previous pos
    | .stylesheet => Stylesheet.select code previous pos
  match command with
  | .context => .ok (contextLines (d.view.resolve pos true))
  | .extract => do
    let found ← Abbreviation.extract d.view (.offset pos) none
    return matchLines w code (found.map (·.1))
  | .balanceIn => .ok ((balance .inward).map Span.render)
  | .balanceOut => .ok ((balance .outward).map Span.render)
  | .nextItem => .ok ((select false).elim [] (selectionLines code))
  | .prevItem => .ok ((select true).elim [] (selectionLines code))
  | .enclosingRule => .ok ((Stylesheet.sectionAt code pos).elim [] (sectionLines code properties))
  | .math => .ok ((Arithmetic.evaluateAt? {} code pos).elim [] mathLines)

def openDocument (files : Files) (q : Question) : Except Error Document := do
  let registry := Registry.builtin
  let code := bytes (← files.text q.file)
  match q.language with
  | none => return .ofText code ((registry.detect? q.file).getD registry.html)
  | some name =>
    match registry.get? name with
    | some language => return .ofText code language
    | none => .error (.plain ("unknown syntax: " ++ name))

def ask (w : Widths) (files : Files) (q : Question) : Except Error (List String) := do
  let d ← openDocument files q
  match position? w d.code q.position with
  | some pos => answer w d q.command q.properties pos
  | none => .error (.plain ("invalid position: " ++ q.position))

def versionLine : String := "emmet-bridge 0.1.0"

def helpLines : List String :=
  [versionLine ++ " - Emmet editor commands for a file",
    "",
    "Usage: emmet-bridge <COMMAND> <FILE> <POSITION> [OPTIONS]",
    "",
    "Commands:",
    "  context        Syntax and enclosing tag or CSS property",
    "  extract        Abbreviation ending at the position",
    "  balance-in     Spans to shrink the selection through",
    "  balance-out    Spans to grow the selection through",
    "  next-item      Next tag or CSS item",
    "  prev-item      Previous tag or CSS item",
    "  section        CSS rule around the position",
    "  math           Evaluate the expression ending at the position",
    "",
    "POSITION is a byte offset or LINE:COLUMN (line from 1, column from 0)",
    "",
    "Options:",
    "  --syntax NAME  Syntax to use instead of detecting by extension",
    "  --properties   List declarations for `section`",
    "  -h, --help     Show this help message",
    "  -V, --version  Show version information",
    "",
    "Set RUST_LOG=emmet_bridge=debug for diagnostics"]

structure Outcome where
  status : Nat
  output : String
  errors : String
deriving DecidableEq

def unlines (lines : List String) : String := String.join (lines.map (· ++ "\n"))

def run (w : Widths) (files : Files) (args : List String) : Outcome :=
  let lines : Except Error (List String) := do
    match ← readArguments {} args with
    | .help => return helpLines
    | .version => return [versionLine]
    | .run q => ask w files q
  match lines with
  | .ok lines => ⟨0, unlines lines, ""⟩
  | .error e => ⟨if e.isMalformed then 2 else 1, "", "Error: " ++ e.message ++ "\n"⟩

end Command

end Caret
