import Caret.Abbreviation.TagEnd
import Caret.Error
import Caret.Language

/-!
The abbreviation that ends at an offset of a line, found from there backwards. Groups in brackets
belong to it whole, with any blanks inside them.
-/

namespace Caret.Abbreviation

open Text

/-- An abbreviation where it was found: `start` takes in the marker before it, if one was asked
for, `location` is where the abbreviation itself begins. -/
structure Match where
  abbreviation : String
  start : Nat
  location : Nat
  stop : Nat
deriving DecidableEq

namespace Match

def span (m : Match) : Span := .between m.start m.stop

def shift (m : Match) (n : Nat) : Match :=
  { m with start := m.start + n, location := m.location + n, stop := m.stop + n }

end Match

structure Options where
  kind : Kind := .markup
  lookAhead : Bool := true
  marker : Option String := none
deriving DecidableEq

structure Mismatch where
  pos : Nat
  opening : Char
  closing : Char
deriving DecidableEq

def Mismatch.error (m : Mismatch) : Error :=
  .malformedAbbreviation m.pos
    ("'" ++ m.opening.toString ++ "' does not match '" ++ m.closing.toString ++ "'")

def isClosing (kind : Kind) (c : Char) : Bool :=
  c == ')' || (kind == .markup && (c == ']' || c == '}'))

def isOpening (kind : Kind) (c : Char) : Bool :=
  c == '(' || (kind == .markup && (c == '[' || c == '{'))

def partner : Char → Option Char
  | ')' => some '('
  | ']' => some '['
  | '}' => some '{'
  | _ => none

def isAbbreviationChar (c : Char) : Bool := c.isAlphanum || "#.*:$-_!@%^+>/".toList.contains c

def isJoint (c : Char) : Bool := c == '*' || c == '+' || c == '>' || c == '^'

def pastAutoClosed (kind : Kind) (line : Bytes) (pos : Nat) : Nat :=
  skip (isClosing kind) line line.size (if test isQuote line pos then pos + 1 else pos)

/-- Where the group begins whose inside ends at the given offset; quoted text in it is passed
over, and a quote without its partner ends the search. -/
def groupStart? (opening : Char) (line : Bytes) : Nat → Option Nat
  | 0 => none
  | i + 1 =>
    match at? line i with
    | none => none
    | some c =>
      if c = opening then some i
      else if isQuote c then
        let quote := skipBack (· != c) line 0 i
        if 0 < quote then groupStart? opening line (quote - 1) else none
      else groupStart? opening line i
termination_by i => i
decreasing_by
  · have : quote ≤ i := skipBack_le _ line 0 i
    omega
  · omega

theorem groupStart?_lt {opening : Char} {line : Bytes} {i j : Nat}
    (h : groupStart? opening line i = some j) : j < i := by
  fun_induction groupStart? opening line i with
  | case1 => simp at h
  | case2 => simp at h
  | case3 => simp_all
  | case4 i c _ _ _ quote _ ih =>
    have hq : quote ≤ i := skipBack_le _ line 0 i
    have hj : j < quote - 1 := ih h
    omega
  | case5 => simp at h
  | case6 i c _ _ _ ih => exact Nat.lt_succ_of_lt (ih h)

def groupBefore? (line : Bytes) (cursor : Nat) : Option Nat :=
  match at? line (cursor - 1) with
  | some ']' => groupStart? '[' line (cursor - 1)
  | some '}' => groupStart? '{' line (cursor - 1)
  | _ => none

theorem groupBefore?_lt {line : Bytes} {cursor j : Nat}
    (h : groupBefore? line cursor = some j) : j < cursor := by
  unfold groupBefore? at h
  split at h
  · exact Nat.lt_of_lt_of_le (groupStart?_lt h) (Nat.sub_le _ _)
  · exact Nat.lt_of_lt_of_le (groupStart?_lt h) (Nat.sub_le _ _)
  · simp at h

def pastMarker? (marker : List UInt8) (line : Bytes) (cursor : Nat) : Option Nat :=
  if cursor = 0 then none
  else
    match h : groupBefore? line cursor with
    | some start => pastMarker? marker line start
    | none =>
      if marker.length ≤ cursor ∧ holdsAt line cursor marker (cursor - marker.length) then
        some cursor
      else pastMarker? marker line (cursor - 1)
termination_by cursor
decreasing_by
  · exact groupBefore?_lt h
  · omega

/-- The groups that wait for their opening brackets, the innermost first, once the character at an
offset is taken in; none where it cannot be. In braces all but braces is text. -/
def step (kind : Kind) (line : Bytes) (groups : List Char) (i : Nat) (c : Char) :
    Except Mismatch (Option (List Char)) :=
  if groups.contains '}' && c == '}' then .ok (some (c :: groups))
  else if groups.contains '}' && c != '{' then .ok (some groups)
  else if isClosing kind c then .ok (some (c :: groups))
  else if isOpening kind c then
    match groups with
    | [] => .ok none
    | closing :: rest =>
      if partner closing = some c then .ok (some rest) else .error ⟨i, c, closing⟩
  else if groups.contains ']' || groups.contains ')' then .ok (some groups)
  else if endsTag line (i + 1) || !isAbbreviationChar c then .ok none
  else .ok (some groups)

/-- Goes back from an offset, not past `start`, over all that can belong to an abbreviation; the
groups are those still without their opening brackets. -/
def goBack (kind : Kind) (line : Bytes) (start : Nat) :
    Nat → List Char → Except Mismatch (Nat × List Char)
  | 0, groups => .ok (0, groups)
  | i + 1, groups =>
    if i < start then .ok (i + 1, groups)
    else
      match at? line i with
      | none => .ok (i + 1, groups)
      | some c =>
        match step kind line groups i c with
        | .error e => .error e
        | .ok none => .ok (i + 1, groups)
        | .ok (some more) => goBack kind line start i more

def Options.word (options : Options) : List UInt8 := (bytes (options.marker.getD "")).toList

def origin (options : Options) (line : Bytes) (pos : Nat) : Nat :=
  if options.lookAhead then pastAutoClosed options.kind line (clamp line pos) else clamp line pos

def limit? (options : Options) (line : Bytes) (pos : Nat) : Option Nat :=
  if options.word.isEmpty then some 0 else pastMarker? options.word line pos

/-- The longest abbreviation that ends at an offset of a line, without joints at its start. -/
def scan (options : Options) (line : Bytes) (pos : Nat) : Except Mismatch (Option Match) :=
  let pos := origin options line pos
  match limit? options line pos with
  | none => .ok none
  | some start =>
    match goBack options.kind line start pos [] with
    | .error e => .error e
    | .ok (cursor, groups) =>
      let location := skip isJoint line pos cursor
      if groups.isEmpty ∧ location < pos then
        .ok (some
          { abbreviation := read line ⟨location, pos⟩
            start := if options.word.isEmpty then location else start - options.word.length
            location
            stop := pos })
      else .ok none

end Caret.Abbreviation
