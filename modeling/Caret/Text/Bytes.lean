import Caret.Span

/-!
Texts as arrays of UTF-8 bytes. Syntax is told apart by ASCII bytes alone, so a byte is looked at
as the character of its value; bytes of longer characters lie above all of ASCII.
-/

namespace Caret

abbrev Bytes := Array UInt8

namespace Text

def bytes (text : String) : Bytes := text.toUTF8.data

def at? (code : Bytes) (i : Nat) : Option Char := code[i]?.map Char.ofUInt8

def test (p : Char → Bool) (code : Bytes) (i : Nat) : Bool := (at? code i).any p

def isBlank (c : Char) : Bool :=
  c == ' ' || c == '\t' || c == '\n' || c == '\x0c' || c == '\r'

theorem isBlank_iff {c : Char} :
    isBlank c = true ↔ c = ' ' ∨ c = '\t' ∨ c = '\n' ∨ c = '\x0c' ∨ c = '\r' := by
  simp [isBlank, or_assoc]

def isQuote (c : Char) : Bool := c == '"' || c == '\''

theorem isQuote_iff {c : Char} : isQuote c = true ↔ c = '"' ∨ c = '\'' := by
  simp [isQuote]

/-- The first offset from `i` on whose byte does not satisfy `p`, but at most `stop`. -/
def skip (p : Char → Bool) (code : Bytes) (stop i : Nat) : Nat :=
  if i < stop ∧ test p code i then skip p code stop (i + 1) else i
termination_by stop - i
decreasing_by omega

def skipBack (p : Char → Bool) (code : Bytes) (start : Nat) : Nat → Nat
  | 0 => 0
  | i + 1 => if start ≤ i ∧ test p code i then skipBack p code start i else i + 1

theorem le_skip (p : Char → Bool) (code : Bytes) (stop i : Nat) : i ≤ skip p code stop i := by
  fun_induction skip p code stop i with
  | case1 i h ih => omega
  | case2 => omega

theorem skip_le (p : Char → Bool) (code : Bytes) {stop i : Nat} (h : i ≤ stop) :
    skip p code stop i ≤ stop := by
  fun_induction skip p code stop i with
  | case1 i hi ih => exact ih hi.1
  | case2 => exact h

theorem lt_skip {p : Char → Bool} {code : Bytes} {stop i : Nat} (h : i < stop)
    (hp : test p code i) : i < skip p code stop i := by
  rw [skip, if_pos ⟨h, hp⟩]
  exact le_skip p code stop (i + 1)

theorem skipBack_le (p : Char → Bool) (code : Bytes) (start i : Nat) :
    skipBack p code start i ≤ i := by
  induction i with
  | zero => exact Nat.le_refl 0
  | succ i ih =>
    unfold skipBack
    split
    · exact Nat.le_succ_of_le ih
    · exact Nat.le_refl _

def holdsAt (code : Bytes) (stop : Nat) : List UInt8 → Nat → Bool
  | [], _ => true
  | b :: rest, i => i < stop && code[i]? == some b && holdsAt code stop rest (i + 1)

def find (word : List UInt8) (code : Bytes) (stop i : Nat) : Option Nat :=
  if i < stop then
    if holdsAt code stop word i then some i else find word code stop (i + 1)
  else none
termination_by stop - i
decreasing_by omega

theorem le_of_find {word : List UInt8} {code : Bytes} {stop i p : Nat}
    (h : find word code stop i = some p) : i ≤ p := by
  fun_induction find word code stop i with
  | case1 => simp_all
  | case2 i _ _ ih => exact Nat.le_of_succ_le (ih h)
  | case3 => simp at h

def past (word : String) (code : Bytes) (stop i : Nat) : Nat :=
  let w := (bytes word).toList
  (find w code stop i).elim stop (· + w.length)

def isBoundary (code : Bytes) (i : Nat) : Bool :=
  i = 0 || i = code.size || code[i]?.any fun b => b < 0x80 || 0xC0 ≤ b

def lastBoundary (code : Bytes) : Nat → Nat
  | 0 => 0
  | i + 1 => if isBoundary code (i + 1) then i + 1 else lastBoundary code i

def clamp (code : Bytes) (i : Nat) : Nat :=
  if code.size ≤ i then code.size else lastBoundary code i

def cut (code : Bytes) (s : Span) : Bytes := code.extract s.start s.stop

/-- The text of a span; empty if the span leaves the text or splits a character. -/
def read (code : Bytes) (s : Span) : String :=
  if s.stop ≤ code.size then (String.fromUTF8? ⟨cut code s⟩).getD "" else ""

def trim (code : Bytes) (s : Span) : Span :=
  let stop := min s.stop code.size
  let start := skip isBlank code stop (min s.start code.size)
  ⟨start, skipBack isBlank code start stop⟩

def lower (word : String) : String := word.map Char.toLower

end Text

end Caret
