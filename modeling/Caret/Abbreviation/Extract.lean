import Caret.Abbreviation.Scan
import Caret.Context
import Caret.Text.Line

namespace Caret.Abbreviation

open Text

inductive Location where
  | offset (pos : Nat)
  | range (span : Span)
deriving DecidableEq

abbrev Scanner := Options → Bytes → Nat → Except Error (Option Match)

def Options.ofContext (c : Context) : Options :=
  { kind := c.kind, lookAhead := c.lookAhead, marker := c.marker }

structure Request where
  region : Span
  pos : Nat
  context : Context

namespace Request

def place (code : Bytes) : Location → Span × Nat
  | .offset pos => (lineSpan code pos, clamp code pos)
  | .range s =>
    let region : Span := .between (clamp code s.start) (clamp code s.stop)
    (region, region.stop)

def of (v : View) (location : Location) (context : Option Context) : Request :=
  let (region, pos) := place v.code location
  let c := context.getD (v.resolve pos false)
  ⟨region, pos, if c.kind = .stylesheet then { c with lookAhead := false } else c⟩

def column (r : Request) : Nat := r.pos - r.region.start

def run (r : Request) (scanner : Scanner) (code : Bytes) :
    Except Error (Option (Match × Context)) :=
  match scanner (Options.ofContext r.context) (cut code r.region) r.column with
  | .ok found => .ok (found.map fun m => (m.shift r.region.start, r.context))
  | .error (.malformedAbbreviation pos message) =>
    .error (.malformedAbbreviation (pos + r.region.start) message)
  | .error e => .error e

end Request

def scanner : Scanner := fun options line pos => (scan options line pos).mapError Mismatch.error

def extract (v : View) (location : Location) (context : Option Context) :
    Except Error (Option (Match × Context)) :=
  (Request.of v location context).run scanner v.code

end Caret.Abbreviation
