import Caret.Proofs.Scope
import Mathlib.Data.List.Forall2
import Mathlib.Data.List.OfFn
import Mathlib.Order.Monotone.Defs

/-!
A selector matches a stack of scopes if the names of one of its alternatives have places on the
stack, each further in than the one before. Taking for each name the first place that is left never
spoils what comes after it, so the places need not be searched for.
-/

namespace Caret

namespace Text

theorem splitAt_eq_splitOn (c : Char) (text : List Char) :
    splitAt (· == c) text = text.splitOn c :=
  splitAt_eq_splitOnP (· == c) text

theorem intercalate_append_cons {l : List (List Char)} (hl : l ≠ []) (sep s : List Char)
    (m : List (List Char)) :
    sep.intercalate (l ++ s :: m) = sep.intercalate l ++ sep ++ sep.intercalate (s :: m) := by
  induction l with
  | nil => contradiction
  | cons a l ih =>
    cases l with
    | nil => rw [List.singleton_append, List.intercalate_cons_cons, List.intercalate_singleton]
    | cons b l =>
      simp only [List.cons_append, List.intercalate_cons_cons] at ih ⊢
      rw [ih (List.cons_ne_nil b l)]
      simp only [List.append_assoc]

end Text

namespace Scope

open Text

variable {path names wider : List (List Char)} {name atom : List Char}

def segments (name : List Char) : List (List Char) := name.splitOn '.'

theorem segments_append (a b : List Char) : segments (a ++ '.' :: b) = segments a ++ segments b :=
  List.splitOn_append_cons_self a b

theorem intercalate_segments (name : List Char) : ['.'].intercalate (segments name) = name :=
  List.intercalate_splitOn '.'

theorem segments_ne_nil (name : List Char) : segments name ≠ [] := List.splitOn_ne_nil '.' name

def Asks (atom name : List Char) : Prop := segments atom <+: segments name

theorem nameMatches_iff : nameMatches name atom = true ↔ Asks atom name := by
  rw [nameMatches, Bool.or_eq_true, beq_iff_eq, List.isPrefixOf_iff_prefix]
  constructor
  · intro h
    rcases h with rfl | ⟨rest, rfl⟩
    · exact List.prefix_refl (segments name)
    · rw [Asks, List.append_assoc, List.singleton_append, segments_append]
      exact List.prefix_append _ _
  · rintro ⟨more, hmore⟩
    have hname : ['.'].intercalate (segments atom ++ more) = name := by
      rw [hmore, intercalate_segments]
    cases more with
    | nil =>
      rw [List.append_nil, intercalate_segments] at hname
      exact .inl hname.symm
    | cons s more =>
      rw [intercalate_append_cons (segments_ne_nil atom), intercalate_segments] at hname
      exact .inr ⟨_, hname⟩

/-- The names of the path have places on the stack, each further in than the one before. -/
def Placed (path names : List (List Char)) : Prop :=
  ∃ place : Fin path.length → Fin names.length,
    StrictMono place ∧ ∀ i, Asks path[i] names[place i]

theorem tail_of_cons (h : List.SublistForall₂ Asks (atom :: path) names) :
    List.SublistForall₂ Asks path names := by
  rw [List.sublistForall₂_iff] at h ⊢
  obtain ⟨chosen, hasks, hsub⟩ := h
  cases hasks with
  | cons _ hrest => exact ⟨_, hrest, (List.sublist_cons_self _ _).trans hsub⟩

theorem pathMatches_iff : pathMatches path names = true ↔ List.SublistForall₂ Asks path names := by
  induction names generalizing path with
  | nil =>
    cases path with
    | nil => exact iff_of_true rfl .nil
    | cons atom path => exact iff_of_false Bool.false_ne_true nofun
  | cons name names ih =>
    cases path with
    | nil => exact iff_of_true rfl .nil
    | cons atom path =>
      rw [pathMatches]
      by_cases hname : nameMatches name atom = true
      · rw [if_pos hname, ih]
        constructor
        · exact .cons (nameMatches_iff.mp hname)
        · intro h
          cases h with
          | cons _ hrest => exact hrest
          -- a place further in would do for `atom`, but the first one leaves more to the rest
          | cons_right hrest => exact tail_of_cons hrest
      · rw [if_neg hname, ih]
        constructor
        · exact .cons_right
        · intro h
          cases h with
          | cons hasks _ => exact absurd (nameMatches_iff.mpr hasks) hname
          | cons_right hrest => exact hrest

theorem sublistForall₂_iff_placed : List.SublistForall₂ Asks path names ↔ Placed path names := by
  rw [List.sublistForall₂_iff]
  constructor
  · rintro ⟨chosen, hasks, hsub⟩
    obtain ⟨places, rfl, hplaces⟩ := List.sublist_eq_map_getElem hsub
    obtain ⟨hlength, hasks⟩ := List.forall₂_iff_get.mp hasks
    rw [List.length_map] at hlength
    refine ⟨fun i => places[i], fun i j hij => ?_, fun i => ?_⟩
    · exact List.pairwise_iff_getElem.mp hplaces i j _ _ hij
    · simpa using hasks i i.isLt (by simp [← hlength])
  · rintro ⟨place, hmono, hasks⟩
    refine ⟨(List.ofFn place).map (names[·]), List.forall₂_iff_get.mpr ⟨by simp, ?_⟩, ?_⟩
    · intro i hi _
      simpa using hasks ⟨i, hi⟩
    · apply List.map_getElem_sublist
      exact List.pairwise_ofFn.mpr fun i j hij => hmono hij

theorem pathMatches_of_sublist (hsub : names.Sublist wider) (h : pathMatches path names = true) :
    pathMatches path wider = true := by
  rw [pathMatches_iff, List.sublistForall₂_iff] at h ⊢
  obtain ⟨chosen, hasks, hchosen⟩ := h
  exact ⟨chosen, hasks, hchosen.trans hsub⟩

theorem matches_iff_exists (selector scope : String) :
    (Selector.parse selector).matches scope = true ↔
      ∃ alternative ∈ selector.toList.splitOn ',', words alternative ≠ [] ∧
        pathMatches (words alternative) (words scope.toList) = true := by
  simp only [Selector.matches, Selector.parse, splitAt_eq_splitOn, List.any_eq_true,
    List.mem_filter, List.mem_map, decide_eq_true_eq]
  constructor
  · rintro ⟨_, ⟨⟨alternative, halternative, rfl⟩, hne⟩, h⟩
    exact ⟨alternative, halternative, hne, h⟩
  · rintro ⟨alternative, halternative, hne, h⟩
    exact ⟨_, ⟨⟨alternative, halternative, rfl⟩, hne⟩, h⟩

/-- A selector matches a stack of scopes exactly if one of its alternatives names something and has
its names placed on the stack; further names on the stack, wherever they stand, change no match. -/
theorem matches_iff_placed (selector scope : String) :
    ((Selector.parse selector).matches scope = true ↔
      ∃ alternative ∈ selector.toList.splitOn ',', words alternative ≠ [] ∧
        Placed (words alternative) (words scope.toList)) ∧
    ∀ wider : String, (words scope.toList).Sublist (words wider.toList) →
      (Selector.parse selector).matches scope = true →
        (Selector.parse selector).matches wider = true := by
  constructor
  · simp only [matches_iff_exists, pathMatches_iff, sublistForall₂_iff_placed]
  · intro wider hsub h
    rw [matches_iff_exists] at h ⊢
    obtain ⟨alternative, halternative, hne, hpath⟩ := h
    exact ⟨alternative, halternative, hne, pathMatches_of_sublist hsub hpath⟩

theorem matches_iff_placed_embedded :
    (words "source.css meta.selector.css".toList).Sublist
        (words "text.html source.css meta.rule.css meta.selector.css".toList) ∧
      (Selector.parse "comment, source meta.selector").matches
        "text.html source.css meta.rule.css meta.selector.css" = true := by
  have hsub : (words "source.css meta.selector.css".toList).Sublist
      (words "text.html source.css meta.rule.css meta.selector.css".toList) := by decide
  have h : (Selector.parse "comment, source meta.selector").matches
      "source.css meta.selector.css" = true := by decide
  exact ⟨hsub, (matches_iff_placed _ _).2 _ hsub h⟩

end Scope

end Caret
