import Caret.Markup.Attribute
import Caret.Markup.Element
import Caret.Stylesheet.Parse
import Caret.View

/-!
A text with its language. Stylesheets, also those inside HTML, are cut into scoped runs, so that a
document can be asked everything that a view answers.
-/

namespace Caret

open Text

structure ScopedRun where
  span : Span
  scope : String
deriving DecidableEq

structure Embedding where
  span : Span
  isInline : Bool
deriving DecidableEq

structure Document where
  code : Bytes
  language : Language
  embeddings : List Embedding
  runs : List ScopedRun
  bodies : List Span

namespace Document

def baseScope (l : Language) : String :=
  match l.kind with
  | .stylesheet => "source." ++ l.name
  | .markup => if l.name = "html" then "text.html.basic" else "text." ++ l.name

def embeddedScope (l : Language) : String := baseScope l ++ " source.css.embedded.html"

def hasEmbeddings (l : Language) : Bool := l.kind == .markup && l.html && !l.xml && !l.jsx

def elementEmbeddings (code : Bytes) (e : Markup.Element) : List Embedding :=
  let inside := if lower e.name = "style" then e.inner.toList.map (⟨·, false⟩) else []
  let values := (Markup.attributes code e.opening).filterMap fun a => do
    let value ← a.value
    if lower (read code a.name) = "style" ∧ test isQuote (bytes (read code value)) 0 then
      some (Markup.Attribute.unquoted code value)
    else none
  inside ++ values.map (⟨·, true⟩)

def findEmbeddings (code : Bytes) : List Embedding :=
  ((Markup.elements code false).flatMap (elementEmbeddings code)).mergeSort
    fun a b => a.span.start ≤ b.span.start

def ruleRuns (r : Stylesheet.Rule) : List (Span × String) :=
  [(r.selector, "meta.selector.css"),
    (⟨r.body.start - 1, r.body.start⟩,
      "section.property-list.css punctuation.section.property-list.begin.css")] ++
  if r.closed then
    [(⟨r.body.stop, r.body.stop + 1⟩,
      "section.property-list.css punctuation.section.property-list.end.css")]
  else []

def declarationRuns (d : Stylesheet.Declaration) : List (Span × String) :=
  let stop := d.terminator.getD d.value.stop
  let value := "meta.declaration.css meta.property-value.css"
  (d.name, "meta.declaration.css meta.property-name.css") ::
    (match d.colon with
      | some colon =>
        [(.between d.name.stop colon, "meta.declaration.css"),
          (⟨colon, colon + 1⟩, value ++ " punctuation.separator.key-value.css"),
          (.between (colon + 1) stop, value)]
      | none => [(.between d.value.start stop, value)]) ++
    d.terminator.toList.map fun t =>
      (⟨t, t + 1⟩, value ++ " punctuation.terminator.rule.css")

def stylesheetRuns (base : String) (s : Stylesheet) : List ScopedRun :=
  let parts := s.comments.toList.map (·, "comment.block.css") ++
    s.rules.toList.flatMap ruleRuns ++ s.declarations.toList.flatMap declarationRuns
  (parts.filter (!·.1.isEmpty)).map fun p => ⟨p.1, base ++ " " ++ p.2⟩

def ofText (code : Bytes) (l : Language) : Document :=
  let embedded := if hasEmbeddings l then findEmbeddings code else []
  let sheets : List (String × Stylesheet) :=
    if l.kind = .stylesheet then [(baseScope l, Stylesheet.parse code)]
    else embedded.map fun e => (embeddedScope l, Stylesheet.parseRegion code e.span e.isInline)
  let runs := sheets.flatMap fun p => stylesheetRuns p.1 p.2
  { code
    language := l
    embeddings := embedded
    runs := runs.mergeSort fun a b =>
      a.span.start < b.span.start || (a.span.start == b.span.start && b.span.stop ≤ a.span.stop)
    bodies := sheets.flatMap fun p => p.2.rules.toList.map (·.body) }

def runAt (d : Document) (pos : Nat) : Option ScopedRun :=
  (d.runs.filter (·.span.contains pos)).foldl
    (fun best run => match best with
      | some b => if run.span.size < b.span.size then some run else best
      | none => some run) none

def embeddingAt (d : Document) (pos : Nat) : Option Embedding :=
  d.embeddings.find? (·.span.touches pos)

def css : Language := { name := "css", kind := .stylesheet }

def classify (d : Document) (pos : Nat) : Classification :=
  match d.embeddingAt (clamp d.code pos) with
  | some e => css.classification e.isInline
  | none => d.language.classification false

def scopeName (d : Document) (pos : Nat) : String :=
  match d.runAt pos with
  | some run => run.scope
  | none =>
    let inBody := d.bodies.any (·.contains pos)
    let list := " section.property-list.css"
    match d.language.kind, (d.embeddingAt pos).isSome with
    | .stylesheet, _ => if inBody then baseScope d.language ++ list else baseScope d.language
    | .markup, true =>
      if inBody then embeddedScope d.language ++ list else embeddedScope d.language
    | .markup, false => baseScope d.language

/-- The run around an offset, or the gap between runs. -/
def extractScope (d : Document) (pos : Nat) : Span :=
  match d.runAt pos with
  | some run => run.span
  | none =>
    let start := ((d.runs.map (·.span.stop)).filter (· ≤ pos)).max?.getD 0
    let stop := ((d.runs.map (·.span.start)).filter (pos < ·)).min?.getD d.code.size
    ⟨start, max stop start⟩

def view (d : Document) : View :=
  { code := d.code
    classify := fun pos => some (d.classify pos)
    scopeName := d.scopeName
    extractScope := d.extractScope }

end Document

end Caret
