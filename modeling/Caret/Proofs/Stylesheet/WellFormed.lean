import Caret.Proofs.Text.Skip
import Caret.Stylesheet.Basic

namespace Caret.Stylesheet

open Text

structure Rule.Formed (code : Bytes) (stop : Nat) (r : Rule) : Prop where
  span_start : r.span.start = r.selector.start
  selector_le : r.selector.start ≤ r.selector.stop
  selector_lt : r.selector.stop < r.body.start
  body_le : r.body.start ≤ r.body.stop
  opening : at? code (r.body.start - 1) = some '{'
  of_closed : r.closed = true → at? code r.body.stop = some '}' ∧ r.span.stop = r.body.stop + 1
  of_unclosed : r.closed = false → r.span.stop = stop ∧ r.body.stop = stop

structure Declaration.Formed (code : Bytes) (d : Declaration) : Prop where
  name_lt : d.name.start < d.name.stop
  name_inside : d.span.covers d.name
  value_le : d.value.start ≤ d.value.stop
  value_inside : d.span.covers d.value
  colon : ∀ c, d.colon = some c → at? code c = some ':' ∧ d.name.stop ≤ c ∧ c < d.value.start
  terminator : ∀ t, d.terminator = some t → at? code t = some ';' ∧ d.span.stop = t + 1

/-- `parent` is the rule that covers `span` with its body and no rule inside of which does. -/
structure Innermost (rules : Array Rule) (span : Span) (parent : Option Nat) : Prop where
  none_iff : parent = none ↔ ∀ r ∈ rules, ¬ r.body.covers span
  covers : ∀ p, parent = some p → ∃ r, rules[p]? = some r ∧ r.body.covers span ∧
    ∀ (i : Nat) (q : Rule), rules[i]? = some q → q.body.covers span → i ≠ p → q.body.covers r.span

structure WellFormed (code : Bytes) (stop : Nat) (s : Stylesheet) : Prop where
  rules : ∀ r ∈ s.rules, r.Formed code stop
  declarations : ∀ d ∈ s.declarations, d.Formed code
  declarations_ordered : s.declarations.toList.Pairwise fun c d => c.span.stop ≤ d.span.start
  comments : ∀ c ∈ s.comments, c.start < c.stop
  comments_ordered : s.comments.toList.Pairwise fun c d => c.stop ≤ d.start
  rules_laminar : s.rules.toList.Pairwise fun r q =>
    r.body.covers q.span ∨ r.span.stop ≤ q.span.start
  declarations_laminar : ∀ r ∈ s.rules, ∀ d ∈ s.declarations,
    r.body.covers d.span ∨ r.span.stop ≤ d.span.start ∨ d.span.stop ≤ r.span.start
  rule_parent : ∀ r ∈ s.rules, Innermost s.rules r.span r.parent
  declaration_parent : ∀ d ∈ s.declarations, Innermost s.rules d.span d.parent

end Caret.Stylesheet
