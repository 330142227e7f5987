import Caret.Proofs.Text.Written
import Caret.Stylesheet.Parse

namespace Caret.Stylesheet

open Text

def isOrdinary (within : Bool) (c : Char) : Bool :=
  !isQuote c && c != '(' && c != ')' && (within || (c != '{' && c != '}' && c != ';'))

inductive Balanced : Bool → List Char → Prop
  | nil {within : Bool} : Balanced within []
  | ordinary {within : Bool} {c : Char} {rest : List Char} (hc : isOrdinary within c = true)
      (hr : Balanced within rest) : Balanced within (c :: rest)
  | quoted {within : Bool} {quote : Char} {inside rest : List Char} (hq : isQuote quote = true)
      (hi : ∀ c ∈ inside, c ≠ quote ∧ c ≠ '\\') (hr : Balanced within rest) :
      Balanced within (quote :: (inside ++ quote :: rest))
  | parens {within : Bool} {inside rest : List Char} (hi : Balanced true inside)
      (hr : Balanced within rest) : Balanced within ('(' :: (inside ++ ')' :: rest))

structure Piece where
  text : String
  first : text.toList.head?.any (!isBlank ·) = true
  last : text.toList.getLast?.any (!isBlank ·) = true
  uncommented : ¬['/', '*'] <:+: text.toList

structure Phrase extends Piece where
  balanced : Balanced false text.toList

structure Name extends Piece where
  plain : ∀ c ∈ text.toList, isOrdinary false c = true ∧ c ≠ ':'

inductive Items where
  | done (gap : Blanks)
  | rule (before : Blanks) (selector : Phrase) (gap : Blanks) (inside rest : Items)
  | declaration (before : Blanks) (name : Name) (gap gap' : Blanks) (value : Phrase)
      (gap'' : Blanks) (rest : Items)

namespace Items

def text : Items → String
  | done gap => gap.text
  | rule before selector gap inside rest =>
    before.text ++ selector.text ++ gap.text ++ .singleton '{' ++ inside.text ++ .singleton '}' ++
      rest.text
  | declaration before name gap gap' value gap'' rest =>
    before.text ++ name.text ++ gap.text ++ .singleton ':' ++ gap'.text ++ value.text ++
      gap''.text ++ .singleton ';' ++ rest.text

def selectors : Items → List String
  | done _ => []
  | rule _ selector _ inside rest => selector.text :: (inside.selectors ++ rest.selectors)
  | declaration _ _ _ _ _ _ rest => rest.selectors

def properties : Items → List (String × String)
  | done _ => []
  | rule _ _ _ inside rest => inside.properties ++ rest.properties
  | declaration _ name _ _ value _ rest => (name.text, value.text) :: rest.properties

def rules (i count : Nat) (parent : Option Nat) : Items → List Rule
  | done _ => []
  | rule before selector gap inside rest =>
    let start := i + (bytes before.text).size
    let brace := start + (bytes selector.text).size + (bytes gap.text).size
    let close := brace + 1 + (bytes inside.text).size
    { selector := ⟨start, start + (bytes selector.text).size⟩
      body := ⟨brace + 1, close⟩
      span := ⟨start, close + 1⟩
      closed := true
      parent } ::
      (inside.rules (brace + 1) (count + 1) (some count) ++
        rest.rules (close + 1) (count + 1 + inside.selectors.length) parent)
  | declaration before name gap gap' value gap'' rest =>
    let colon := i + (bytes before.text).size + (bytes name.text).size + (bytes gap.text).size
    let semicolon :=
      colon + 1 + (bytes gap'.text).size + (bytes value.text).size + (bytes gap''.text).size
    rest.rules (semicolon + 1) count parent

def declarations (i count : Nat) (parent : Option Nat) : Items → List Declaration
  | done _ => []
  | rule before selector gap inside rest =>
    let start := i + (bytes before.text).size
    let brace := start + (bytes selector.text).size + (bytes gap.text).size
    let close := brace + 1 + (bytes inside.text).size
    inside.declarations (brace + 1) (count + 1) (some count) ++
      rest.declarations (close + 1) (count + 1 + inside.selectors.length) parent
  | declaration before name gap gap' value gap'' rest =>
    let start := i + (bytes before.text).size
    let colon := start + (bytes name.text).size + (bytes gap.text).size
    let first := colon + 1 + (bytes gap'.text).size
    let semicolon := first + (bytes value.text).size + (bytes gap''.text).size
    { name := ⟨start, start + (bytes name.text).size⟩
      value := ⟨first, first + (bytes value.text).size⟩
      span := ⟨start, semicolon + 1⟩
      colon := some colon
      terminator := some semicolon
      parent } :: rest.declarations (semicolon + 1) count parent

section parts

variable {code : Bytes} {i : Nat} (before gap gap' gap'' : Blanks) (selector value : Phrase)
  (name : Name) (inside rest : Items)

theorem size_rule : (bytes (rule before selector gap inside rest).text).size =
    (bytes before.text).size + (bytes selector.text).size + (bytes gap.text).size + 1 +
      (bytes inside.text).size + 1 + (bytes rest.text).size := by
  simp only [text, size_bytes_append, size_bytes_singleton (c := '{') (by decide),
    size_bytes_singleton (c := '}') (by decide)]

theorem written_rule : Written code i (rule before selector gap inside rest).text ↔
    let start := i + (bytes before.text).size
    let brace := start + (bytes selector.text).size + (bytes gap.text).size
    let close := brace + 1 + (bytes inside.text).size
    Written code i before.text ∧ Written code start selector.text ∧
      Written code (start + (bytes selector.text).size) gap.text ∧ at? code brace = some '{' ∧
      Written code (brace + 1) inside.text ∧ at? code close = some '}' ∧
      Written code (close + 1) rest.text := by
  simp only [text, written_append, size_bytes_append, written_singleton (c := '{') (by decide),
    written_singleton (c := '}') (by decide), size_bytes_singleton (c := '{') (by decide),
    size_bytes_singleton (c := '}') (by decide), ← Nat.add_assoc, and_assoc]

theorem size_declaration : (bytes (declaration before name gap gap' value gap'' rest).text).size =
    (bytes before.text).size + (bytes name.text).size + (bytes gap.text).size + 1 +
      (bytes gap'.text).size + (bytes value.text).size + (bytes gap''.text).size + 1 +
      (bytes rest.text).size := by
  simp only [text, size_bytes_append, size_bytes_singleton (c := ':') (by decide),
    size_bytes_singleton (c := ';') (by decide)]

theorem written_declaration : Written code i (declaration before name gap gap' value gap'' rest).text ↔
    let start := i + (bytes before.text).size
    let colon := start + (bytes name.text).size + (bytes gap.text).size
    let first := colon + 1 + (bytes gap'.text).size
    let semicolon := first + (bytes value.text).size + (bytes gap''.text).size
    Written code i before.text ∧ Written code start name.text ∧
      Written code (start + (bytes name.text).size) gap.text ∧ at? code colon = some ':' ∧
      Written code (colon + 1) gap'.text ∧ Written code first value.text ∧
      Written code (first + (bytes value.text).size) gap''.text ∧ at? code semicolon = some ';' ∧
      Written code (semicolon + 1) rest.text := by
  simp only [text, written_append, size_bytes_append, written_singleton (c := ':') (by decide),
    written_singleton (c := ';') (by decide), size_bytes_singleton (c := ':') (by decide),
    size_bytes_singleton (c := ';') (by decide), ← Nat.add_assoc, and_assoc]

end parts

theorem length_rules (t : Items) (i count : Nat) (parent : Option Nat) :
    (t.rules i count parent).length = t.selectors.length := by
  induction t generalizing i count parent with
  | done gap => rfl
  | rule before selector gap inside rest ihi ihr =>
    simp only [rules, selectors, List.length_cons, List.length_append, ihi, ihr]
  | declaration before name gap gap' value gap'' rest ih => exact ih ..

end Items

section edges

variable {code : Bytes} {i j k : Nat} (p : Piece)

theorem Piece.text_ne_empty : p.text ≠ "" := by
  intro h
  have hfirst := p.first
  simp [h] at hfirst

theorem Piece.size_pos : 0 < (bytes p.text).size := size_bytes_pos p.text_ne_empty

theorem Piece.test_first (h : Written code i p.text) : Text.test isBlank code i = false := by
  obtain ⟨c, hc, hb⟩ := (Option.any_eq_true _ _).mp p.first
  rw [h.test_first (fun _ => isBlank_ascii) hc]
  simpa using hb

theorem Piece.test_last (h : Written code i p.text) :
    Text.test isBlank code (i + (bytes p.text).size - 1) = false := by
  obtain ⟨c, hc, hb⟩ := (Option.any_eq_true _ _).mp p.last
  rw [h.test_last (fun _ => isBlank_ascii) hc]
  simpa using hb

theorem Piece.trim_eq (h : Written code j p.text) (hij : i ≤ j)
    (hk : j + (bytes p.text).size ≤ k) (hs : k ≤ code.size)
    (hbefore : ∀ n, i ≤ n → n < j → Text.test isBlank code n = true)
    (hafter : ∀ n, j + (bytes p.text).size ≤ n → n < k → Text.test isBlank code n = true) :
    trim code ⟨i, k⟩ = ⟨j, j + (bytes p.text).size⟩ := by
  have hpos := p.size_pos
  apply Text.trim_eq hs hij _ hk hbefore (p.test_first h) (p.test_last h) hafter
  omega

end edges

end Caret.Stylesheet
