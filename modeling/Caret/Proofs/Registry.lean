import Caret.Language
import Caret.Proofs.Sequence
import Mathlib.Data.List.Induction

namespace Caret

open Text

def Language.owns (l : Language) (extension : String) : Bool :=
  (l.extensions.map lowercase).contains (lowercase extension)

namespace Registry

variable {r : Registry} {l given : Language} {start before added : List Language}
  {name file extension : String}

theorem ofList_concat (added : List Language) (l : Language) :
    ofList (added ++ [l]) = (ofList added).add l := by
  simp [ofList]

/-- The registries that can be begun with, and the languages that make them up. -/
inductive Initial : Registry → List Language → Prop
  | empty : Initial {} []
  | builtin : Initial builtin Language.builtin

theorem Initial.foldl_add (hr : Initial r start) (added : List Language) :
    added.foldl add r = ofList (start ++ added) := by
  rw [ofList, List.foldl_append]
  cases hr <;> rfl

theorem named_add : (r.add l).named name = if l.name == name then some l else r.named name := by
  rw [named, add, List.find?_cons, List.find?_filter]
  cases h : l.name == name with
  | true => rfl
  | false =>
    have hother : (fun q : Language =>
        decide (((q.name != l.name) = true) ∧ (q.name == name) = true)) =
          fun q => q.name == name := by
      funext q
      by_cases hq : q.name = name
      · simp [hq, ne_comm.mp (beq_eq_false_iff_ne.mp h)]
      · simp [hq]
    rw [hother]
    rfl

theorem named_ofList (added : List Language) (name : String) :
    (ofList added).named name = added.findRev? (·.name == name) := by
  induction added using List.reverseRecOn with
  | nil => rfl
  | append_singleton added l ih => rw [ofList_concat, named_add, findRev?_concat, ih]

theorem lookup_foldl_claims (names : List String) (claims : List (String × String)) :
    (names.foldl (fun claims e => (lowercase e, name) :: claims) claims).lookup extension =
      if (names.map lowercase).contains extension then some name else claims.lookup extension := by
  induction names using List.reverseRecOn with
  | nil => rfl
  | append_singleton names e ih =>
    rw [List.foldl_append, List.foldl_cons, List.foldl_nil, List.lookup_cons, ih]
    by_cases h : extension = lowercase e
    · simp [h]
    · simp [beq_eq_false_iff_ne.mpr h, h]

theorem lookup_claims (added : List Language) (extension : String) :
    (ofList added).claims.lookup (lowercase extension) =
      (added.findRev? (·.owns extension)).map (·.name) := by
  induction added using List.reverseRecOn with
  | nil => rfl
  | append_singleton added l ih =>
    rw [ofList_concat, add, lookup_foldl_claims, ih, findRev?_concat]
    change (if l.owns extension then _ else _) = _
    split <;> rfl

theorem detect?_ofList (h : Language.extension? file = some extension) :
    (ofList added).detect? file = (added.findRev? (·.owns extension)).bind
      fun claimant => added.findRev? (·.name == claimant.name) := by
  simp only [detect?, h, bind, Option.bind_some, lookup_claims, Option.bind_map, named_ofList]
  rfl

/-- Names are looked up in lower case but kept as they are written, so what was last added under a
name, case aside, is found exactly if it is written in lower case itself. -/
theorem get?_added_iff (hr : Initial r start) (hadded : given ∈ start ++ added)
    (hname : lowercase name = lowercase given.name) :
    ∃ l, (start ++ added).findRev? (fun q => lowercase q.name == lowercase name) = some l ∧
      ((added.foldl add r).get? name = some l ↔ l.name = lowercase name) ∧
      (added.foldl add r).get? name = (start ++ added).findRev? (·.name == lowercase name) := by
  rw [hr.foldl_add]
  generalize start ++ added = added at hadded ⊢
  have hget : (ofList added).get? name = added.findRev? (·.name == lowercase name) :=
    named_ofList added (lowercase name)
  cases hl : added.findRev? (fun q => lowercase q.name == lowercase name) with
  | none =>
    have hother := findRev?_eq_none_iff.mp hl given hadded
    rw [hname, beq_self_eq_true] at hother
    contradiction
  | some l =>
    refine ⟨l, rfl, ⟨fun hfound => ?_, fun hlower => ?_⟩, hget⟩
    · rw [hget] at hfound
      exact eq_of_beq (findRev?_spec hfound).2
    · have hlast : (l.name == lowercase name) = true := by rw [hlower, beq_self_eq_true]
      obtain ⟨q, hq, rfl | hcase⟩ := findRev?_of_findRev? (q := fun q => q.name == lowercase name)
        hl hlast
      · rw [hget, hq]
      · -- a name that is the lower-case form of `name` is its own lower-case form, as `l` shows
        have hsame : q.name = l.name := (eq_of_beq (findRev?_spec hq).2).trans hlower.symm
        rw [hsame, (findRev?_spec hl).2] at hcase
        contradiction

theorem get?_added_twig : lowercase "TWIG" = lowercase "twig" ∧
    ([{ name := "twig", kind := .markup },
      { name := "twig", kind := .markup, html := true }].foldl add builtin).get? "TWIG" =
        some { name := "twig", kind := .markup, html := true } := by
  have hname : lowercase "TWIG" = lowercase "twig" := by decide
  obtain ⟨l, hl, hfound, -⟩ := @get?_added_iff builtin { name := "twig", kind := .markup }
    Language.builtin [{ name := "twig", kind := .markup },
      { name := "twig", kind := .markup, html := true }] "TWIG" .builtin (by decide) hname
  obtain rfl : { name := "twig", kind := .markup, html := true } = l :=
    Option.some.inj (Eq.trans (by decide) hl)
  exact ⟨hname, hfound.mpr (by decide)⟩

theorem get?_capital : ∃ given : Language, given.name = "Twig" ∧
    [given].findRev? (fun q => lowercase q.name == lowercase "Twig") = some given ∧
    (ofList [given]).get? "Twig" = none :=
  ⟨{ name := "Twig", kind := .markup }, by decide⟩

/-- A language that is found for a file has the extension of the file exactly if it was the last to
claim it. The language added last is found for all of its extensions. -/
theorem detect?_added (hr : Initial r start) (h : Language.extension? file = some extension) :
    (∀ l, (added.foldl add r).detect? file = some l →
      (l.owns extension = true ↔ (start ++ added).findRev? (·.owns extension) = some l)) ∧
    (∀ before l, start ++ added = before ++ [l] → l.owns extension = true →
      (added.foldl add r).detect? file = some l) ∧
    ((added.foldl add r).detect? file = none ↔
      ∀ l ∈ start ++ added, l.owns extension = false) := by
  rw [hr.foldl_add]
  generalize start ++ added = added
  refine ⟨fun l hl => ⟨fun howns => ?_, fun hlast => (findRev?_spec hlast).2⟩, ?_, ?_⟩
  · rw [detect?_ofList h] at hl
    obtain ⟨claimant, hclaimant, hl⟩ := Option.bind_eq_some_iff.mp hl
    obtain ⟨q, hq, heq⟩ := findRev?_of_findRev? (q := fun q => q.name == claimant.name)
      hclaimant (beq_self_eq_true _)
    obtain rfl := Option.some.inj (hl.symm.trans hq)
    rcases heq with rfl | hother
    · exact hclaimant
    · rw [howns] at hother
      contradiction
  · rintro before l rfl howns
    rw [detect?_ofList h, findRev?_concat, if_pos howns, Option.bind_some, findRev?_concat,
      if_pos (beq_self_eq_true l.name)]
  · rw [detect?_ofList h, ← findRev?_eq_none_iff]
    cases hclaimant : added.findRev? (·.owns extension) with
    | none => simp
    | some claimant =>
      obtain ⟨q, hq, -⟩ := findRev?_of_findRev? (q := fun q => q.name == claimant.name)
        hclaimant (beq_self_eq_true _)
      simp only [Option.bind_some, hq, reduceCtorEq]

theorem detect?_added_twig : Language.extension? "base.twig" = some "twig" ∧
    ([{ name := "html", kind := .markup, extensions := ["html", "twig"] },
      { name := "twig", kind := .markup, extensions := ["Twig"] }].foldl add builtin).detect?
        "base.twig" = some { name := "twig", kind := .markup, extensions := ["Twig"] } := by
  have hfile : Language.extension? "base.twig" = some "twig" := by decide
  exact ⟨hfile, (detect?_added .builtin hfile).2.1
    (Language.builtin ++ [{ name := "html", kind := .markup, extensions := ["html", "twig"] }]) _
    rfl (by decide)⟩

theorem detect?_replaced : ∃ old new : Language,
    (ofList [old, new]).detect? "base.twig" = some new ∧ new.owns "twig" = false :=
  ⟨{ name := "twig", kind := .markup, extensions := ["twig"] },
    { name := "twig", kind := .markup, extensions := ["tpl"] }, by decide⟩

end Registry

end Caret
