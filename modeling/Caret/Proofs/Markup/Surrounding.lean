import Caret.Proofs.Markup.Pairing

namespace Caret.Markup

open Text

variable {code : Bytes} {xml : Bool} {pos : Nat} {e f : Element}

def Element.Nests (e f : Element) : Prop := ∃ s, e.inner = some s ∧ s.covers f.outer = true

structure Element.Proper (e : Element) : Prop where
  opening : e.opening.start < e.opening.stop
  closing : ∀ c, e.closing = some c → e.opening.stop ≤ c.start ∧ c.start < c.stop

theorem elements_proper (he : e ∈ elements code xml) : e.Proper := by
  have hp := elements_paired code xml
  have htags := (tags_ordered code xml).1
  constructor
  · obtain ⟨t, ht, -, hspan, -⟩ := exists_opening he
    exact hspan ▸ htags t ht
  · intro c hc
    obtain ⟨t, ht, -, rfl, hle, -⟩ := hp.closing e he c hc
    exact ⟨hle, htags t ht⟩

theorem Element.Proper.outer_eq (h : e.Proper) :
    e.outer = ⟨e.opening.start, e.reach⟩ ∧ e.opening.stop ≤ e.reach := by
  have hlt := h.opening
  have hle : e.opening.stop ≤ e.reach := by
    unfold Element.reach
    cases hc : e.closing with
    | none => exact Nat.le_refl _
    | some c =>
      have := h.closing c hc
      simp only [Option.elim_some]
      omega
  exact ⟨Span.between_of_le (by unfold Element.reach at hle; omega), hle⟩

theorem Element.Proper.inner_bounds (h : e.Proper) {s : Span} (hs : e.inner = some s) :
    e.outer.start < s.start ∧ s.start ≤ s.stop ∧ s.stop < e.outer.stop := by
  obtain ⟨c, hc, rfl⟩ := Option.map_eq_some_iff.mp hs
  obtain ⟨hle, hlt⟩ := h.closing c hc
  have ho := h.opening
  rw [h.outer_eq.1, Span.between_of_le hle]
  simp only [Element.reach, hc, Option.elim_some]
  omega

theorem Element.Proper.outer_covers_inner (h : e.Proper) {s : Span} (hs : e.inner = some s) :
    e.outer.covers s = true := by
  have := h.inner_bounds hs
  exact Span.covers_iff.mpr (by omega)

theorem Element.Nests.outer_covers (h : e.Nests f) (he : e.Proper) :
    e.outer.covers f.outer = true ∧ f.outer.size < e.outer.size := by
  obtain ⟨s, hs, hcov⟩ := h
  have hb := he.inner_bounds hs
  refine ⟨Span.covers_trans (he.outer_covers_inner hs) hcov, ?_⟩
  rw [Span.covers_iff] at hcov
  simp only [Span.size]
  omega

def surrounding (elements : List Element) (pos : Nat) : List Element :=
  elements.filter (·.outer.surrounds pos)

theorem mem_surrounding {l : List Element} :
    e ∈ surrounding l pos ↔ e ∈ l ∧ e.outer.surrounds pos = true := List.mem_filter

theorem surrounding_nested (code : Bytes) (xml : Bool) (pos : Nat) :
    (surrounding (elements code xml) pos).Pairwise Element.Nests := by
  have hlam := (elements_paired code xml).laminar.filter (·.outer.surrounds pos)
  refine List.Pairwise.imp_of_mem ?_ hlam
  intro e f he hf hef
  rcases hef with hn | hle
  · exact hn
  · have he' := Span.surrounds_iff.mp (List.mem_filter.mp he).2
    have hf' := Span.surrounds_iff.mp (List.mem_filter.mp hf).2
    omega

theorem enclosing_eq (code : Bytes) (xml : Bool) (pos : Nat) :
    enclosing (elements code xml) pos = (surrounding (elements code xml) pos).reverse := by
  have hsize : (surrounding (elements code xml) pos).Pairwise fun e f =>
      f.outer.size < e.outer.size :=
    List.Pairwise.imp_of_mem (fun he _ hn =>
      (hn.outer_covers (elements_proper (mem_surrounding.mp he).1)).2)
      (surrounding_nested code xml pos)
  have hsorted : (enclosing (elements code xml) pos).Pairwise fun e f =>
      e.outer.size ≤ f.outer.size :=
    pairwise_mergeSort_key (fun e : Element => e.outer.size) _
  have hperm : (enclosing (elements code xml) pos).Perm
      (surrounding (elements code xml) pos).reverse :=
    (List.mergeSort_perm _ _).trans (List.reverse_perm _).symm
  refine hperm.eq_of_pairwise ?_ hsorted ?_
  · intro e f he hf hef hfe
    refine eq_of_pairwise_ne (k := fun e : Element => e.outer.size)
      (hsize.imp fun h => Nat.ne_of_gt h) ?_ ?_ (Nat.le_antisymm hef hfe)
    · exact List.mem_reverse.mp (hperm.subset he)
    · exact List.mem_reverse.mp hf
  · exact List.pairwise_reverse.mpr (hsize.imp fun h => Nat.le_of_lt h)

theorem nests_last (hf : (surrounding (elements code xml) pos).getLast? = some f)
    (he : e ∈ surrounding (elements code xml) pos) : e = f ∨ e.Nests f := by
  obtain ⟨l, hl⟩ := List.getLast?_eq_some_iff.mp hf
  have hn := surrounding_nested code xml pos
  rw [hl] at hn he
  rcases List.mem_append.mp he with he | he
  · exact .inr ((List.pairwise_append.mp hn).2.2 e he f List.mem_cons_self)
  · exact .inl (List.mem_singleton.mp he)

theorem innermost?_eq (code : Bytes) (xml : Bool) (pos : Nat) :
    innermost? code xml pos = (surrounding (elements code xml) pos).getLast? := by
  rw [innermost?, enclosing_eq, List.head?_reverse]

theorem innermost?_eq_some_iff : innermost? code xml pos = some e ↔
    e ∈ elements code xml ∧ e.outer.surrounds pos = true ∧
      ∀ f ∈ elements code xml, f.outer.surrounds pos = true → f ≠ e →
        f.outer.covers e.outer = true ∧ f.outer ≠ e.outer := by
  rw [innermost?_eq]
  constructor
  · intro h
    obtain ⟨he, hs⟩ := mem_surrounding.mp (List.mem_of_getLast? h)
    refine ⟨he, hs, fun f hf hfs hne => ?_⟩
    rcases nests_last h (mem_surrounding.mpr ⟨hf, hfs⟩) with rfl | hn
    · exact absurd rfl hne
    · obtain ⟨hcov, hsize⟩ := hn.outer_covers (elements_proper hf)
      exact ⟨hcov, fun heq => Nat.lt_irrefl _ (heq ▸ hsize)⟩
  · rintro ⟨he, hs, hmin⟩
    have hmem := mem_surrounding.mpr ⟨he, hs⟩
    cases hlast : (surrounding (elements code xml) pos).getLast? with
    | none =>
      rw [List.getLast?_eq_none_iff.mp hlast] at hmem
      simp at hmem
    | some g =>
      obtain ⟨hg, hgs⟩ := mem_surrounding.mp (List.mem_of_getLast? hlast)
      rcases nests_last hlast hmem with rfl | hn
      · rfl
      · obtain ⟨hcov, hsize⟩ := hn.outer_covers (elements_proper he)
        have hne : g ≠ e := fun heq => Nat.lt_irrefl _ (heq ▸ hsize)
        obtain ⟨hcov', hne'⟩ := hmin g hg hgs hne
        exact absurd (Span.covers_antisymm hcov' hcov) hne'

theorem innermost?_eq_none_iff : innermost? code xml pos = none ↔
    ∀ e ∈ elements code xml, e.outer.surrounds pos = false := by
  rw [innermost?_eq, List.getLast?_eq_none_iff, surrounding, List.filter_eq_nil_iff]
  simp only [Bool.not_eq_true]

end Caret.Markup
