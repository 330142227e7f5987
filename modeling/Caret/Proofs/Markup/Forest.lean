import Caret.Markup.Attribute
import Caret.Markup.Element
import Caret.Proofs.Text.Written

namespace Caret.Markup

open Text

structure TagName where
  text : String
  first : text.toList.head?.any Char.isAlpha = true
  all : ∀ c ∈ text.toList, isNameChar c = true

structure ElementName (xml : Bool) extends TagName where
  html : xml = false → lower text ∉ voidElements ∧ lower text ∉ rawTextElements

def isItemChar (c : Char) : Bool :=
  !isBlank c && !isQuote c && c != '=' && c != '/' && c != '<' && c != '>' && c != '{'

structure ItemName extends Stretch isItemChar where
  nonempty : text ≠ ""

structure Parting extends Stretch isBlank where
  nonempty : text ≠ ""

structure Quoted where
  quote : Char
  quotes : isQuote quote = true
  inside : String
  clear : quote ∉ inside.toList

def Quoted.text (v : Quoted) : String := .singleton v.quote ++ v.inside ++ .singleton v.quote

inductive Items where
  | done
  | bare (before : Parting) (name : ItemName) (rest : Items)
  | valued (before : Parting) (name : ItemName) (gap gap' : Blanks) (value : Quoted) (rest : Items)

namespace Items

def text : Items → String
  | done => ""
  | bare before name rest => before.text ++ name.text ++ rest.text
  | valued before name gap gap' value rest =>
    before.text ++ name.text ++ gap.text ++ .singleton '=' ++ gap'.text ++ value.text ++ rest.text

def values : Items → List (String × Option String)
  | done => []
  | bare _ name rest => (name.text, none) :: rest.values
  | valued _ name _ _ value rest => (name.text, some value.text) :: rest.values

def attributes (i : Nat) : Items → List Attribute
  | done => []
  | bare before name rest =>
    let start := i + (bytes before.text).size
    let stop := start + (bytes name.text).size
    ⟨⟨start, stop⟩, none⟩ :: rest.attributes stop
  | valued before name gap gap' value rest =>
    let start := i + (bytes before.text).size
    let equals := start + (bytes name.text).size + (bytes gap.text).size
    let first := equals + 1 + (bytes gap'.text).size
    let stop := first + (bytes value.text).size
    ⟨⟨start, start + (bytes name.text).size⟩, some ⟨first, stop⟩⟩ :: rest.attributes stop

end Items

inductive Forest (xml : Bool) where
  | done
  | text (content : Stretch (· != '<')) (rest : Forest xml)
  | element (name : ElementName xml) (items : Items) (inside rest : Forest xml)
  | closed (name : ElementName xml) (items : Items) (rest : Forest xml)

namespace Forest

variable {xml : Bool}

def written : Forest xml → String
  | done => ""
  | text content rest => content.text ++ rest.written
  | element name items inside rest =>
    .singleton '<' ++ name.text ++ items.text ++ .singleton '>' ++ inside.written ++
      .singleton '<' ++ .singleton '/' ++ name.text ++ .singleton '>' ++ rest.written
  | closed name items rest =>
    .singleton '<' ++ name.text ++ items.text ++ .singleton '/' ++ .singleton '>' ++ rest.written

def nodes (i : Nat) : Forest xml → List (Element × List Attribute)
  | done => []
  | text content rest => rest.nodes (i + (bytes content.text).size)
  | element name items inside rest =>
    let first := i + 1 + (bytes name.text).size
    let stop := first + (bytes items.text).size + 1
    let closing := stop + (bytes inside.written).size
    let stop' := closing + 2 + (bytes name.text).size + 1
    (⟨name.text, ⟨i, stop⟩, some ⟨closing, stop'⟩⟩, items.attributes first) ::
      (inside.nodes stop ++ rest.nodes stop')
  | closed name items rest =>
    let first := i + 1 + (bytes name.text).size
    let stop := first + (bytes items.text).size + 2
    (⟨name.text, ⟨i, stop⟩, none⟩, items.attributes first) :: rest.nodes stop

def tags (i : Nat) : Forest xml → List Tag
  | done => []
  | text content rest => rest.tags (i + (bytes content.text).size)
  | element name items inside rest =>
    let stop := i + 1 + (bytes name.text).size + (bytes items.text).size + 1
    let closing := stop + (bytes inside.written).size
    let stop' := closing + 2 + (bytes name.text).size + 1
    ⟨name.text, .opening, ⟨i, stop⟩⟩ ::
      (inside.tags stop ++ ⟨name.text, .closing, ⟨closing, stop'⟩⟩ :: rest.tags stop')
  | closed name items rest =>
    let stop := i + 1 + (bytes name.text).size + (bytes items.text).size + 2
    ⟨name.text, .selfClosing, ⟨i, stop⟩⟩ :: rest.tags stop

def values : Forest xml → List (List (String × Option String))
  | done => []
  | text _ rest => rest.values
  | element _ items inside rest => items.values :: (inside.values ++ rest.values)
  | closed _ items rest => items.values :: rest.values

section parts

variable {code : Bytes} {i : Nat} (name : ElementName xml) (items : Items) (inside rest : Forest xml)

theorem size_element : (bytes (element name items inside rest).written).size =
    1 + (bytes name.text).size + (bytes items.text).size + 1 + (bytes inside.written).size + 2 +
      (bytes name.text).size + 1 + (bytes rest.written).size := by
  simp only [written, size_bytes_append, size_bytes_singleton (c := '<') (by decide),
    size_bytes_singleton (c := '/') (by decide), size_bytes_singleton (c := '>') (by decide)]

theorem written_element : Written code i (element name items inside rest).written ↔
    let first := i + 1 + (bytes name.text).size
    let stop := first + (bytes items.text).size + 1
    let closing := stop + (bytes inside.written).size
    let last := closing + 2 + (bytes name.text).size
    at? code i = some '<' ∧ Written code (i + 1) name.text ∧ Written code first items.text ∧
      at? code (first + (bytes items.text).size) = some '>' ∧ Written code stop inside.written ∧
      at? code closing = some '<' ∧ at? code (closing + 1) = some '/' ∧
      Written code (closing + 2) name.text ∧ at? code last = some '>' ∧
      Written code (last + 1) rest.written := by
  simp only [written, written_append, size_bytes_append, size_bytes_singleton (c := '<') (by decide),
    size_bytes_singleton (c := '/') (by decide), size_bytes_singleton (c := '>') (by decide),
    written_singleton (c := '<') (by decide), written_singleton (c := '/') (by decide),
    written_singleton (c := '>') (by decide), ← Nat.add_assoc, and_assoc]

theorem size_closed : (bytes (closed name items rest).written).size =
    1 + (bytes name.text).size + (bytes items.text).size + 2 + (bytes rest.written).size := by
  simp only [written, size_bytes_append, size_bytes_singleton (c := '<') (by decide),
    size_bytes_singleton (c := '/') (by decide), size_bytes_singleton (c := '>') (by decide)]

theorem written_closed : Written code i (closed name items rest).written ↔
    let first := i + 1 + (bytes name.text).size
    let slash := first + (bytes items.text).size
    at? code i = some '<' ∧ Written code (i + 1) name.text ∧ Written code first items.text ∧
      at? code slash = some '/' ∧ at? code (slash + 1) = some '>' ∧
      Written code (slash + 2) rest.written := by
  simp only [written, written_append, size_bytes_append, size_bytes_singleton (c := '<') (by decide),
    size_bytes_singleton (c := '/') (by decide), size_bytes_singleton (c := '>') (by decide),
    written_singleton (c := '<') (by decide), written_singleton (c := '/') (by decide),
    written_singleton (c := '>') (by decide), ← Nat.add_assoc, and_assoc]

end parts

end Forest

end Caret.Markup
