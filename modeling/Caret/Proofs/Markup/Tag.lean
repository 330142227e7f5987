import Caret.Markup.Tag
import Caret.Proofs.Text.Skip

namespace Caret.Markup

open Text

variable {code : Bytes} {xml : Bool} {i : Nat}

theorem le_nameEnd (code : Bytes) (i : Nat) : i ≤ nameEnd code i := le_skip ..

theorem nameEnd_le (h : i ≤ code.size) : nameEnd code i ≤ code.size := skip_le _ _ h

theorem isNameChar_of_isAlpha {c : Char} (h : c.isAlpha = true) : isNameChar c = true := by
  simp [isNameChar, Char.isAlphanum, h]

theorem lt_nameEnd (h : test Char.isAlpha code i = true) : i < nameEnd code i := by
  obtain ⟨c, hc, hca⟩ := test_iff.mp h
  exact lt_skip (lt_size_of_at? hc) (by rw [test_of_at? hc, isNameChar_of_isAlpha hca])

theorem lt_size_of_test {p : Char → Bool} (h : test p code i = true) : i < code.size := by
  obtain ⟨c, hc, -⟩ := test_iff.mp h
  exact lt_size_of_at? hc

theorem openingEnd?_bounds {e : Nat} {closed : Bool} (h : openingEnd? code i = some (e, closed)) :
    i < e ∧ e ≤ code.size := by
  fun_induction openingEnd? code i with
  | case1 i hi hgt =>
    obtain ⟨rfl, -⟩ := Prod.mk.inj (Option.some.inj h)
    omega
  | case2 i hi _ hslash =>
    obtain ⟨rfl, -⟩ := Prod.mk.inj (Option.some.inj h)
    have := lt_size_of_test hslash.2
    omega
  | case3 i hi _ _ _ ih =>
    have := ih h
    omega
  | case4 => simp at h
  | case5 i hi _ _ _ _ ih =>
    have := ih h
    omega
  | case6 => simp at h

theorem closingTag?_bounds {t : Tag} (h : closingTag? code i = some t) :
    t.kind = .closing ∧ t.span.start = i ∧ i < t.span.stop := by
  unfold closingTag? at h
  split at h
  · next hs =>
    obtain rfl := Option.some.inj h
    refine ⟨rfl, rfl, ?_⟩
    have hlt := lt_size_of_test hs.2
    have hname := le_nameEnd code (i + 2)
    have hpast := le_past ">" code (nameEnd_le (Nat.le_of_lt hlt))
    simp only
    omega
  · simp at h

theorem openingTag?_spec {t : Tag} (h : openingTag? code xml i = some t) :
    t.span.start = i ∧ test Char.isAlpha code (i + 1) = true ∧
      t.name = read code ⟨i + 1, nameEnd code (i + 1)⟩ ∧
      ∃ closed, openingEnd? code (nameEnd code (i + 1)) = some (t.span.stop, closed) ∧
        t.kind = if closed || (!xml && voidElements.contains (lower t.name)) then .selfClosing
          else .opening := by
  unfold openingTag? at h
  split at h
  · next halpha =>
    obtain ⟨⟨e, closed⟩, he, rfl⟩ := Option.map_eq_some_iff.mp h
    exact ⟨rfl, halpha, rfl, closed, he, rfl⟩
  · simp at h

theorem openingTag?_bounds {t : Tag} (h : openingTag? code xml i = some t) :
    t.span.start = i ∧ i < t.span.stop ∧ t.span.stop ≤ code.size := by
  obtain ⟨hstart, -, -, closed, hend, -⟩ := openingTag?_spec h
  have hname := le_nameEnd code (i + 1)
  obtain ⟨hlt, hle⟩ := openingEnd?_bounds hend
  exact ⟨hstart, by omega, hle⟩

theorem le_resume {t : Tag} (h : t.span.stop ≤ code.size) : t.span.stop ≤ resume code xml t := by
  simp only [resume]
  split
  · cases hf : find (bytes ("</" ++ lower t.name)).toList
        (code.map fun b => (Char.ofUInt8 b).toLower.toUInt8) code.size t.span.stop with
    | none => exact h
    | some p => exact le_of_find hf
  · exact Nat.le_refl _

theorem scanAt_cases {t : Tag} {next : Nat} (h : scanAt code xml i = (some t, next)) :
    at? code i = some '<' ∧ ((closingTag? code i = some t ∧ next = t.span.stop) ∨
      (openingTag? code xml i = some t ∧ next = resume code xml t)) := by
  unfold scanAt at h
  split at h
  · next hat =>
    refine ⟨test_beq_iff.mp hat, ?_⟩
    split at h
    · simp at h
    · split at h
      · next tag htag =>
        obtain ⟨ht, rfl⟩ := Prod.mk.inj h
        obtain rfl := Option.some.inj ht
        exact .inl ⟨htag, rfl⟩
      · split at h
        · next tag htag =>
          obtain ⟨ht, rfl⟩ := Prod.mk.inj h
          obtain rfl := Option.some.inj ht
          exact .inr ⟨htag, rfl⟩
        · simp at h
  · simp at h

theorem scanAt_bounds {t : Tag} {next : Nat} (h : scanAt code xml i = (some t, next)) :
    t.span.start = i ∧ i < t.span.stop ∧ t.span.stop ≤ next := by
  rcases (scanAt_cases h).2 with ⟨htag, rfl⟩ | ⟨htag, rfl⟩
  · obtain ⟨-, hstart, hlt⟩ := closingTag?_bounds htag
    exact ⟨hstart, hlt, Nat.le_refl _⟩
  · obtain ⟨hstart, hlt, hle⟩ := openingTag?_bounds htag
    exact ⟨hstart, hlt, le_resume hle⟩

theorem tagsFrom_ordered (code : Bytes) (xml : Bool) (i : Nat) :
    (∀ t ∈ tagsFrom code xml i, i ≤ t.span.start ∧ t.span.start < t.span.stop) ∧
      (tagsFrom code xml i).Pairwise fun s t => s.span.stop ≤ t.span.start := by
  fun_induction tagsFrom code xml i with
  | case1 i hi tag? next hscan ih =>
    obtain ⟨hmem, hpair⟩ := ih
    have hrest : ∀ t ∈ tagsFrom code xml (max (i + 1) next),
        i ≤ t.span.start ∧ next ≤ t.span.start ∧ t.span.start < t.span.stop := by
      intro t ht
      have := hmem t ht
      omega
    cases tag? with
    | none => exact ⟨fun t ht => ⟨(hrest t ht).1, (hrest t ht).2.2⟩, hpair⟩
    | some t =>
      obtain ⟨hstart, hlt, hnext⟩ := scanAt_bounds hscan
      simp only [Option.toList_some, List.singleton_append, List.forall_mem_cons,
        List.pairwise_cons]
      refine ⟨⟨⟨Nat.le_of_eq hstart.symm, hstart ▸ hlt⟩, ?_⟩, ?_, hpair⟩
      · exact fun u hu => ⟨(hrest u hu).1, (hrest u hu).2.2⟩
      · exact fun u hu => Nat.le_trans hnext (hrest u hu).2.1
  | case2 => simp

theorem tags_ordered (code : Bytes) (xml : Bool) :
    (∀ t ∈ tags code xml, t.span.start < t.span.stop) ∧
      (tags code xml).Pairwise fun s t => s.span.stop ≤ t.span.start :=
  (tagsFrom_ordered code xml 0).imp_left fun h t ht => (h t ht).2

theorem tagsFrom_split {t : Tag} (h : t ∈ tagsFrom code xml i) : ∃ before j next,
    tagsFrom code xml i = before ++ t :: tagsFrom code xml next ∧
      scanAt code xml j = (some t, next) := by
  fun_induction tagsFrom code xml i with
  | case1 i hi tag? next hscan ih =>
    cases tag? with
    | none => exact ih h
    | some u =>
      have hbounds := scanAt_bounds hscan
      have hnext : max (i + 1) next = next := Nat.max_eq_right (by omega)
      rw [hnext] at h ih ⊢
      rcases List.mem_cons.mp h with rfl | h
      · exact ⟨[], i, next, rfl, hscan⟩
      · obtain ⟨before, j, next', heq, hscan'⟩ := ih h
        exact ⟨u :: before, j, next', by rw [heq]; rfl, hscan'⟩
  | case2 => simp at h

theorem resume_of_scanAt {t : Tag} {next : Nat} (h : scanAt code xml i = (some t, next))
    (ht : t.kind ≠ .closing) : openingTag? code xml i = some t ∧ next = resume code xml t := by
  rcases (scanAt_cases h).2 with ⟨htag, -⟩ | hopening
  · exact absurd (closingTag?_bounds htag).1 ht
  · exact hopening

theorem tags_resume {t : Tag} (ht : t ∈ tags code xml) (hk : t.kind ≠ .closing) :
    (∀ u ∈ tags code xml,
      u.span.stop ≤ t.span.stop ∨ u ∈ tagsFrom code xml (resume code xml t)) ∧
      ∀ u ∈ tagsFrom code xml (resume code xml t), u ∈ tags code xml := by
  obtain ⟨hproper, hpair⟩ := tags_ordered code xml
  have hlt := hproper t ht
  obtain ⟨before, j, next, hsplit, hscan⟩ := tagsFrom_split ht
  obtain ⟨-, rfl⟩ := resume_of_scanAt hscan hk
  rw [tags, hsplit] at hpair
  rw [tags, hsplit]
  refine ⟨fun u hu => ?_, fun u hu => List.mem_append_right _ (List.mem_cons_of_mem _ hu)⟩
  rcases List.mem_append.mp hu with hu | hu
  · have hle := (List.pairwise_append.mp hpair).2.2 u hu t List.mem_cons_self
    exact .inl (Nat.le_trans hle (Nat.le_of_lt hlt))
  · exact (List.mem_cons.mp hu).imp_left fun heq => Nat.le_of_eq (by rw [heq])

theorem at?_openingEnd? {e : Nat} {closed : Bool} (h : openingEnd? code i = some (e, closed)) :
    at? code (e - 1) = some '>' := by
  fun_induction openingEnd? code i with
  | case1 i hi hgt =>
    obtain ⟨rfl, -⟩ := Prod.mk.inj (Option.some.inj h)
    exact test_beq_iff.mp hgt
  | case2 i hi _ hslash =>
    obtain ⟨rfl, -⟩ := Prod.mk.inj (Option.some.inj h)
    exact test_beq_iff.mp hslash.2
  | case3 i hi _ _ _ ih => exact ih h
  | case4 => simp at h
  | case5 i hi _ _ _ _ ih => exact ih h
  | case6 => simp at h

theorem at?_openingTag? {t : Tag} (h : openingTag? code xml i = some t) :
    at? code (t.span.stop - 1) = some '>' := by
  obtain ⟨-, -, -, closed, hend, -⟩ := openingTag?_spec h
  exact at?_openingEnd? hend

theorem at?_edges {t : Tag} (ht : t ∈ tags code xml) (hk : t.kind ≠ .closing) :
    at? code t.span.start = some '<' ∧ at? code (t.span.stop - 1) = some '>' := by
  obtain ⟨before, j, next, -, hscan⟩ := tagsFrom_split ht
  obtain ⟨hopening, -⟩ := resume_of_scanAt hscan hk
  rw [(openingTag?_bounds hopening).1]
  exact ⟨(scanAt_cases hscan).1, at?_openingTag? hopening⟩

end Caret.Markup
