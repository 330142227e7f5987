import Caret.Proofs.Markup.Attribute
import Caret.Proofs.Markup.Surrounding
import Caret.Proofs.Text.Whole

namespace Caret.Markup

open Text

variable {text : String} {code : Bytes} {xml : Bool} {i limit : Nat} {t : Tag} {e : Element}

theorem tags_whole (ht : t ∈ tags (bytes text) xml) :
    at? (bytes text) t.span.start = some '<' ∧ Whole (bytes text) t.span := by
  obtain ⟨before, j, next, -, hscan⟩ := tagsFrom_split ht
  obtain ⟨hat, htag⟩ := scanAt_cases hscan
  obtain ⟨hstart, hlt, -⟩ := scanAt_bounds hscan
  rw [← hstart] at hat
  refine ⟨hat, (isBoundary_of_at? hat (by decide)).1, ?_⟩
  rcases htag with ⟨htag, -⟩ | ⟨htag, -⟩
  · unfold closingTag? at htag
    split at htag
    · obtain rfl := Option.some.inj htag
      exact isBoundary_past (b := 62) (by decide) (by decide) (isBoundary_size _) _
    · simp at htag
  · have hend := (isBoundary_of_at? (at?_openingTag? htag) (by decide)).2
    rwa [Nat.sub_add_cancel (Nat.zero_lt_of_lt hlt)] at hend

section elements

variable (he : e ∈ elements (bytes text) xml)
include he

theorem opening_whole :
    at? (bytes text) e.opening.start = some '<' ∧ Whole (bytes text) e.opening := by
  obtain ⟨t, ht, -, hspan, -⟩ := exists_opening he
  exact hspan ▸ tags_whole ht

theorem closing_whole {c : Span} (hc : e.closing = some c) : Whole (bytes text) c := by
  obtain ⟨t, ht, -, rfl, -⟩ := (elements_paired (bytes text) xml).closing e he c hc
  exact (tags_whole ht).2

theorem inner_whole {s : Span} (hs : e.inner = some s) : Whole (bytes text) s := by
  obtain ⟨c, hc, rfl⟩ := Option.map_eq_some_iff.mp hs
  exact Whole.between (opening_whole he).2.stop (closing_whole he hc).start

theorem surrounds_outer_clamp (pos : Nat) :
    e.outer.surrounds (clamp (bytes text) pos) = e.outer.surrounds pos := by
  obtain ⟨hat, hopening⟩ := opening_whole he
  rw [(elements_proper he).outer_eq.1]
  -- the first character of the element is one byte long
  refine surrounds_clamp (s := ⟨_, e.reach⟩) (isBoundary_of_at? hat (by decide)).2 ?_ pos
  unfold Element.reach
  cases hc : e.closing with
  | none => exact hopening.stop
  | some c => exact (closing_whole he hc).stop

end elements

theorem innermost?_clamp (text : String) (xml : Bool) (pos : Nat) :
    innermost? (bytes text) xml (clamp (bytes text) pos) = innermost? (bytes text) xml pos := by
  unfold innermost? enclosing
  rw [List.filter_congr fun e he => surrounds_outer_clamp he pos]

theorem isBoundary_bracesEnd (text : String) (depth i : Nat) :
    isBoundary (bytes text) (bracesEnd (bytes text) depth i) = true := by
  fun_induction bracesEnd (bytes text) depth i with
  | case1 _ _ _ _ ih => exact ih
  | case2 _ i _ _ hat _ => exact (isBoundary_of_at? (test_beq_iff.mp hat) (by decide)).2
  | case3 _ _ _ _ _ _ ih => exact ih
  | case4 _ _ _ _ _ ih => exact ih
  | case5 => exact isBoundary_size _

theorem isBoundary_valueEnd (h : test beginsValue (bytes text) i = true) :
    isBoundary (bytes text) (valueEnd (bytes text) i) = true := by
  have hsize := isBoundary_size (bytes text)
  unfold valueEnd
  split
  · exact isBoundary_bracesEnd text 1 _
  · exact isBoundary_past (b := 34) (by decide) (by decide) hsize _
  · exact isBoundary_past (b := 39) (by decide) (by decide) hsize _
  · next hbrace hdouble hsingle =>
    -- no other character begins a value
    obtain ⟨c, hc, hbegins⟩ := test_iff.mp h
    rcases beginsValue_cases hbegins with rfl | rfl | rfl
    · exact absurd hc hdouble
    · exact absurd hc hsingle
    · exact absurd hc hbrace

theorem isBoundary_attributeValueEnd (hlimit : isBoundary (bytes text) limit = true)
    (hi : i ≤ limit) :
    isBoundary (bytes text) (attributeValueEnd (bytes text) limit i) = true := by
  unfold attributeValueEnd
  split
  · next h => exact isBoundary_min hlimit (isBoundary_valueEnd h.2)
  · refine isBoundary_skip_of_not (fun c hc => ?_) hlimit hi
    simp only [Bool.and_eq_false_iff, Bool.not_eq_false', bne_eq_false_iff_eq] at hc
    rcases hc with hc | rfl
    · exact isBlank_ascii hc
    · decide

theorem attributeValue?_whole (hlimit : isBoundary (bytes text) limit = true) {value : Span}
    (h : attributeValue? (bytes text) limit i = some value) : Whole (bytes text) value := by
  simp only [attributeValue?] at h
  split at h
  · next hequals =>
    obtain rfl := Option.some.inj h
    have hafter := (isBoundary_of_at? (test_beq_iff.mp hequals.2) (by decide)).2
    exact ⟨isBoundary_skip (fun _ => isBlank_ascii) hafter,
      isBoundary_attributeValueEnd hlimit (skip_le _ _ hequals.1)⟩
  · simp at h

theorem value_whole {opening value : Span} (h : Whole (bytes text) opening) {a : Attribute}
    (ha : a ∈ attributes (bytes text) opening) (hv : a.value = some value) :
    Whole (bytes text) value := by
  have hlimit := isBoundary_min h.stop (isBoundary_size (bytes text))
  exact attributeValue?_whole hlimit ((read_of_mem ha).value_eq.symm.trans hv)

theorem unquoted_whole {value : Span} (h : Whole (bytes text) value) :
    Whole (bytes text) (Attribute.unquoted (bytes text) value) := by
  unfold Attribute.unquoted
  split
  · next q hq =>
    split
    · next hquote =>
      have hascii := isQuote_ascii hquote
      have hstart := (isBoundary_of_at? (at?_of_at?_read hq).1 hascii).2
      split
      · next hend =>
        obtain ⟨c, hc, hcq⟩ := test_iff.mp hend.2
        obtain rfl := eq_of_beq hcq
        exact Whole.between hstart (isBoundary_of_at? hc hascii).1
      · exact Whole.between hstart h.stop
    · exact h
  · exact h

end Caret.Markup
