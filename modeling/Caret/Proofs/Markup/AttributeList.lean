import Caret.Proofs.Markup.Attribute

namespace Caret.Markup

open Text

variable {code : Bytes} {limit i : Nat} {a : Attribute} {as : List Attribute}

def attributeAt (code : Bytes) (limit i : Nat) : Attribute :=
  let stop := attributeNameEnd code limit i
  ⟨⟨i, stop⟩, attributeValue? code limit stop⟩

/-- The attributes are listed from `i` on in finitely many steps. Each passes over a gap or over a
character that no name begins with, or reads an attribute and goes on at its end. -/
inductive Listing (code : Bytes) (limit : Nat) : Nat → List Attribute → Prop
  | done {i : Nat} (hi : limit ≤ i) : Listing code limit i []
  | bracket {i : Nat} (hi : i < limit) (hgap : test isBetween code i = false)
    (hend : test (· == '>') code i = true) : Listing code limit i []
  | gap {i : Nat} {as : List Attribute} (hi : i < limit)
    (hgap : test isBetween code i = true) (rest : Listing code limit (i + 1) as) :
    Listing code limit i as
  | stray {i : Nat} {as : List Attribute} (hi : i < limit)
    (hgap : test isBetween code i = false) (hend : test (· == '>') code i = false)
    (hname : attributeNameEnd code limit i ≤ i) (rest : Listing code limit (i + 1) as) :
    Listing code limit i as
  | read {i : Nat} {as : List Attribute} (hi : i < limit)
    (hgap : test isBetween code i = false) (hend : test (· == '>') code i = false)
    (hname : i < attributeNameEnd code limit i)
    (rest : Listing code limit (attributeAt code limit i).span.stop as) :
    Listing code limit i (attributeAt code limit i :: as)

section listing

theorem attributeAt_read (hi : i < limit) (hgap : test isBetween code i = false)
    (hend : test (· == '>') code i = false) (hname : i < attributeNameEnd code limit i) :
    (attributeAt code limit i).Read code limit i :=
  ⟨Nat.le_refl i, hi, hgap, hend, hname, rfl, rfl⟩

theorem attributeAt_stop (hl : limit ≤ code.size)
    (h : (attributeAt code limit i).Read code limit i) :
    max (i + 1) ((attributeAt code limit i).value.elim (attributeNameEnd code limit i) (·.stop)) =
      (attributeAt code limit i).span.stop := by
  have hlt : i < (attributeAt code limit i).span.stop :=
    Nat.lt_of_lt_of_le h.lt_stop (h.bounds hl).2.1
  unfold Attribute.span Span.between at hlt ⊢
  simp only [attributeAt] at hlt ⊢
  omega

theorem Listing.eq (hl : limit ≤ code.size) (h : Listing code limit i as) :
    as = attributesFrom code limit i := by
  induction h with
  | done hi => rw [attributesFrom, if_neg (Nat.not_lt.mpr hi)]
  | bracket hi hgap hend =>
    rw [attributesFrom, if_pos hi, if_neg (Bool.eq_false_iff.mp hgap), if_pos hend]
  | gap hi hgap _ ih => rw [attributesFrom, if_pos hi, if_pos hgap, ih]
  | stray hi hgap hend hname _ ih =>
    rw [attributesFrom, if_pos hi, if_neg (Bool.eq_false_iff.mp hgap),
      if_neg (Bool.eq_false_iff.mp hend), ih]
    exact (if_pos hname).symm
  | read hi hgap hend hname _ ih =>
    rw [attributesFrom, if_pos hi, if_neg (Bool.eq_false_iff.mp hgap),
      if_neg (Bool.eq_false_iff.mp hend), ih,
      ← attributeAt_stop hl (attributeAt_read hi hgap hend hname)]
    exact (if_neg (Nat.not_le.mpr hname)).symm

theorem listing_attributesFrom (hl : limit ≤ code.size) (i : Nat) :
    Listing code limit i (attributesFrom code limit i) := by
  fun_induction attributesFrom code limit i with
  | case1 i hi hgap ih => exact .gap hi hgap ih
  | case2 i hi hgap hend => exact .bracket hi (Bool.eq_false_iff.mpr hgap) hend
  | case3 i hi hgap hend stop hstop ih =>
    exact .stray hi (Bool.eq_false_iff.mpr hgap) (Bool.eq_false_iff.mpr hend) hstop ih
  | case4 i hi hgap hend stop hstop a ih =>
    have hgap' := Bool.eq_false_iff.mpr hgap
    have hend' := Bool.eq_false_iff.mpr hend
    have hname := Nat.lt_of_not_le hstop
    refine .read hi hgap' hend' hname ?_
    rw [← attributeAt_stop hl (attributeAt_read hi hgap' hend' hname)]
    exact ih
  | case5 i hi => exact .done (Nat.le_of_not_lt hi)

theorem listing_iff (hl : limit ≤ code.size) :
    Listing code limit i as ↔ as = attributesFrom code limit i :=
  ⟨Listing.eq hl, fun h => h ▸ listing_attributesFrom hl i⟩

end listing

section shape

structure Attribute.WellFormed (code : Bytes) (a : Attribute) : Prop where
  span_eq : a.span = ⟨a.name.start, a.value.elim a.name.stop (·.stop)⟩
  name_lt : a.name.start < a.name.stop
  name_plain : at? code a.name.start ≠ some '{' → ∀ k, a.name.start ≤ k → k < a.name.stop →
    test (fun c => !isBlank c && c != '=' && c != '>' && c != '/') code k = true
  equals : ∀ v, a.value = some v → ∃ q, a.name.stop ≤ q ∧ q < v.start ∧ at? code q = some '=' ∧
    ∀ k, a.name.stop ≤ k → k < v.start → k ≠ q → test isBlank code k = true
  value_le : ∀ v, a.value = some v → v.start ≤ v.stop
  value_plain : ∀ v, a.value = some v → test beginsValue code v.start = false →
    ∀ k, v.start ≤ k → k < v.stop → test (fun c => !isBlank c && c != '>') code k = true

theorem attributeValue?_equals {v : Span} (hv : attributeValue? code limit i = some v) :
    ∃ q, i ≤ q ∧ q < v.start ∧ at? code q = some '=' ∧
      ∀ k, i ≤ k → k < v.start → k ≠ q → test isBlank code k = true := by
  simp only [attributeValue?] at hv
  split at hv
  · next hequals =>
    obtain rfl := Option.some.inj hv
    refine ⟨skip isBlank code limit i, le_skip .., le_skip .., test_beq_iff.mp hequals.2,
      fun k hik hk hne => ?_⟩
    rcases Nat.lt_or_gt_of_ne hne with hlt | hgt
    · exact test_of_lt_skip hik hlt
    · exact test_of_lt_skip hgt hk
  · simp at hv

theorem attributeValue?_plain {v : Span} (hv : attributeValue? code limit i = some v)
    (hb : test beginsValue code v.start = false) {k : Nat} (hk : v.start ≤ k) (hlt : k < v.stop) :
    test (fun c => !isBlank c && c != '>') code k = true := by
  simp only [attributeValue?] at hv
  split at hv
  · obtain rfl := Option.some.inj hv
    rw [attributeValueEnd, if_neg (by simp [hb])] at hlt
    exact test_of_lt_skip hk hlt
  · simp at hv

theorem Attribute.Read.wellFormed (h : a.Read code limit i) (hl : limit ≤ code.size) :
    a.WellFormed code := by
  obtain ⟨hstart, hname, -, hvalue⟩ := h.bounds hl
  refine ⟨?_, h.lt_stop, fun hbrace k hk hlt => ?_,
    fun v hv => attributeValue?_equals (h.value_eq.symm.trans hv), fun v hv => (hvalue v hv).2.1,
    fun v hv hb k => attributeValue?_plain (h.value_eq.symm.trans hv) hb⟩
  · have hlt := h.lt_stop
    cases hv : a.value with
    | none => rw [Attribute.span, hv, Option.elim_none, Span.between_of_le (Nat.le_of_lt hlt)]
    | some v =>
      obtain ⟨hafter, hle, -⟩ := hvalue v hv
      rw [Attribute.span, hv, Option.elim_some, Span.between_of_le (by omega)]
  · have hopen : ¬test (· == '{') code a.name.start = true := fun ht => hbrace (test_beq_iff.mp ht)
    rw [h.stop_eq, attributeNameEnd, if_neg hopen] at hlt
    exact test_of_lt_skip hk hlt

end shape

theorem attributes_wellFormed (code : Bytes) (opening : Span) :
    (∀ as, Listing code (min opening.stop code.size) (nameEnd code (opening.start + 1)) as ↔
      as = attributes code opening) ∧
    ((attributes code opening).Pairwise fun a b => a.span.stop ≤ b.span.start) ∧
    ∀ a ∈ attributes code opening, a.WellFormed code ∧ opening.start < a.span.start ∧
      a.span.start < a.span.stop ∧ a.span.stop ≤ min opening.stop code.size := by
  have hl := Nat.min_le_right opening.stop code.size
  refine ⟨fun as => listing_iff hl, attributesFrom_ordered code _ hl, fun a ha => ?_⟩
  have hread := read_of_mem ha
  obtain ⟨hstart, hname, hstop, -⟩ := hread.bounds hl
  have hfirst : opening.start + 1 ≤ nameEnd code (opening.start + 1) := le_skip ..
  have hfrom := hread.le_start
  have hlt := hread.lt_stop
  exact ⟨hread.wellFormed hl, by omega, by omega, hstop⟩

theorem attributes_wellFormed_unclosed :
    let code := bytes "<p =a b\n= 'c d>"
    attributes code ⟨0, 15⟩ = [⟨⟨4, 5⟩, none⟩, ⟨⟨6, 7⟩, some ⟨10, 15⟩⟩] ∧
      Attribute.WellFormed code ⟨⟨6, 7⟩, some ⟨10, 15⟩⟩ := by
  intro code
  have hlist : attributes code ⟨0, 15⟩ = [⟨⟨4, 5⟩, none⟩, ⟨⟨6, 7⟩, some ⟨10, 15⟩⟩] := by
    decide +kernel
  have ha : (⟨⟨6, 7⟩, some ⟨10, 15⟩⟩ : Attribute) ∈ attributes code ⟨0, 15⟩ := by
    rw [hlist]
    exact List.mem_cons_of_mem _ (List.mem_singleton_self _)
  exact ⟨hlist, ((attributes_wellFormed code ⟨0, 15⟩).2.2 _ ha).1⟩

end Caret.Markup
