import Caret.Scope

namespace Caret

namespace Text

theorem splitAt_eq_splitOnP (p : Char → Bool) (text : List Char) :
    splitAt p text = text.splitOnP p := by
  induction text with
  | nil => rfl
  | cons c text ih =>
    rw [splitAt, List.splitOnP_cons_eq_if_modifyHead, ih]
    by_cases hc : p c = true
    · rw [if_pos hc, if_pos hc]
    · rw [if_neg hc, if_neg hc]
      cases h : text.splitOnP p with
      | nil => exact absurd h (List.splitOnP_ne_nil p text)
      | cons piece pieces => rfl

theorem words_append (a b : List Char) : words (a ++ ' ' :: b) = words a ++ words b := by
  rw [words, splitAt_eq_splitOnP, List.splitOnP_append_cons a b rfl, List.filter_append, words,
    words, splitAt_eq_splitOnP, splitAt_eq_splitOnP]

end Text

namespace Scope

open Text

variable {selector : String} {atom : List Char}

theorem pathMatches_singleton (atom : List Char) (names : List (List Char)) :
    pathMatches [atom] names = names.any (nameMatches · atom) := by
  induction names with
  | nil => rfl
  | cons name names ih =>
    rw [pathMatches, List.any_cons, ← ih]
    cases nameMatches name atom <;> simp [pathMatches]

theorem isSelectedBy_eq (h : Selector.parse selector = ⟨[[atom]]⟩) (scope : String) :
    isSelectedBy scope selector = (words scope.toList).any (nameMatches · atom) := by
  simp [isSelectedBy, h, Selector.matches, pathMatches_singleton]

theorem isSelectedBy_append (h : Selector.parse selector = ⟨[[atom]]⟩) (outer inner : String) :
    isSelectedBy (outer ++ " " ++ inner) selector =
      (isSelectedBy outer selector || isSelectedBy inner selector) := by
  have hwords : (outer ++ " " ++ inner).toList = outer.toList ++ ' ' :: inner.toList := by
    simp [String.append_assoc]
  simp only [isSelectedBy_eq h, hwords, words_append, List.any_append]

end Scope

end Caret
