import Caret.Markup.Element
import Caret.Stylesheet.Parse

namespace Caret

inductive Direction where
  | inward
  | outward
deriving DecidableEq

namespace Markup

def elementSpans (keep : Span → Bool) (e : Element) : List Span :=
  e.outer :: (e.inner.filter fun s => !s.isEmpty && keep s).toList

def chain (elements : List Element) (pos : Nat) : List Span :=
  (enclosing elements pos).reverse.flatMap (elementSpans (·.touches pos))

def firstChildren : List Element → Option Span → Nat → List Element
  | [], _, _ => []
  | _ :: _, none, _ => []
  | e :: rest, some area, start =>
    if start ≤ e.opening.start ∧ area.covers e.outer then
      e :: firstChildren rest e.inner e.opening.stop
    else firstChildren rest (some area) start

def balance (code : Bytes) (xml : Bool) (direction : Direction) (pos : Nat) : List Span :=
  let all := elements code xml
  match direction with
  | .outward => (chain all pos).reverse.eraseReps
  | .inward =>
    let area := match (enclosing all pos).head? with
      | some e => e.inner
      | none => some ⟨0, code.size⟩
    (chain all pos ++ (firstChildren all area pos).flatMap (elementSpans fun _ => true)).eraseReps

end Markup

namespace Stylesheet

def nodeSpans (code : Bytes) (keep : Span → Bool) (n : Node) : List Span :=
  let inside := match n with
    | .rule _ r => Text.trim code r.body
    | .declaration _ d => d.value
  n.span :: (if !inside.isEmpty && keep inside then [inside] else [])

def around (s : Stylesheet) (pos : Nat) : List Node :=
  ((s.declarationAt pos).map fun p => Node.declaration p.2 p.1).toList ++
    (s.enclosing pos).map fun p => .rule p.2 p.1

def chain (code : Bytes) (s : Stylesheet) (pos : Nat) : List Span :=
  ((s.around pos).flatMap fun n => (nodeSpans code (·.touches pos) n).reverse).eraseReps

def firstChildren : List Node → Option Nat → Nat → List Node
  | [], _, _ => []
  | n :: rest, parent, start =>
    if n.parent = parent ∧ start ≤ n.span.start then
      n :: match n with
        | .rule i r => firstChildren rest (some i) r.body.start
        | .declaration .. => []
    else firstChildren rest parent start

def balance (code : Bytes) (direction : Direction) (pos : Nat) : List Span :=
  let s := parse code
  let spans := chain code s pos
  match direction with
  | .outward => spans
  | .inward =>
    if (s.declarationAt pos).isSome then spans.reverse
    else
      let parent := (s.enclosing pos).head?.map (·.2)
      let below := (firstChildren s.items parent pos).flatMap (nodeSpans code fun _ => true)
      (spans.reverse ++ below).eraseReps

end Stylesheet

end Caret
