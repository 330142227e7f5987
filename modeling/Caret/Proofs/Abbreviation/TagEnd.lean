import Caret.Proofs.Abbreviation.WellBracketed
import Caret.Proofs.Text.Part

namespace Caret.Abbreviation

open Text

variable {kind : Kind} {line part : Bytes} {i a cursor : Nat} {c : Char} {rest text : List Char}

theorem eq_of_endsTag (h : endsTag line (i + 1) = true) (hc : at? line i = some c) : c = '>' := by
  simp only [endsTag, Nat.add_sub_cancel, test_of_at? hc, Bool.and_eq_true, beq_iff_eq] at h
  exact h.1.1.1

theorem endsTag_iff : endsTag line (i + 1) = true ↔
    at? line i = some '>' ∧ ∃ k, k < i ∧ at? line k = some '<' ∧
      (∀ j, k < j → j < i → test isUnbracketed line j = true) ∧
      isTagInside (read line ⟨k + 1, i⟩).toList = true := by
  have hle := skipBack_le isUnbracketed line 0 i
  simp only [endsTag, Nat.add_sub_cancel, Bool.and_eq_true, decide_eq_true_eq]
  constructor
  · rintro ⟨⟨⟨hend, hpos⟩, hbegin⟩, hinside⟩
    obtain ⟨c, hc, he⟩ := test_iff.mp hend
    obtain ⟨d, hd, he'⟩ := test_iff.mp hbegin
    obtain rfl := beq_iff_eq.mp he
    obtain rfl := beq_iff_eq.mp he'
    refine ⟨hc, _, by omega, hd, fun j hj hji => ?_, by rwa [Nat.sub_add_cancel hpos]⟩
    exact test_of_skipBack_le hji (Nat.le_of_pred_lt hj)
  · rintro ⟨hend, k, hk, hbegin, hbetween, hinside⟩
    have hstart : skipBack isUnbracketed line 0 i = k + 1 := by
      refine skipBack_eq hk hbetween fun _ => ?_
      rw [Nat.add_sub_cancel, test_of_at? hbegin]
      rfl
    rw [hstart, test_of_at? hend, Nat.add_sub_cancel, test_of_at? hbegin]
    exact ⟨⟨⟨rfl, Nat.succ_pos k⟩, rfl⟩, hinside⟩

theorem endsTag_of_part (h : PartAt part line a) (ht : endsTag part (i + 1) = true) :
    endsTag line (i + a + 1) = true := by
  obtain ⟨hend, k, hk, hbegin, hbetween, hinside⟩ := endsTag_iff.mp ht
  have hi := lt_size_of_at? hend
  have hread := h.read_add (s := ⟨k + 1, i⟩) (Nat.le_of_lt hi)
  rw [Span.shift, Nat.add_right_comm] at hread
  rw [← h.at?_add hi] at hend
  rw [← h.at?_add (Nat.lt_trans hk hi)] at hbegin
  refine endsTag_iff.mpr ⟨hend, k + a, Nat.add_lt_add_right hk a, hbegin, fun j hkj hji => ?_, ?_⟩
  · obtain ⟨j, rfl⟩ := Nat.exists_eq_add_of_le' (Nat.le_trans (Nat.le_add_left a k) (Nat.le_of_lt hkj))
    have hj : j < i := Nat.lt_of_add_lt_add_right hji
    rw [h.test_add (Nat.lt_trans hj hi)]
    exact hbetween j (Nat.lt_of_add_lt_add_right hkj) hj
  · rwa [hread]

theorem endsTag_initial (h : PartAt part line 0) (hi : i < part.size) :
    endsTag line (i + 1) = endsTag part (i + 1) := by
  have hstart : skipBack isUnbracketed line 0 i = skipBack isUnbracketed part 0 i :=
    h.skipBack_add (Nat.le_of_lt hi)
  have hle := skipBack_le isUnbracketed part 0 i
  have htest (p : Char → Bool) {j : Nat} (hj : j ≤ i) : test p line j = test p part j :=
    h.test_add (Nat.lt_of_le_of_lt hj hi)
  have hread (j : Nat) : read line ⟨j, i⟩ = read part ⟨j, i⟩ :=
    h.read_add (s := ⟨j, i⟩) (Nat.le_of_lt hi)
  simp only [endsTag, Nat.add_sub_cancel, hstart, hread, htest _ (Nat.le_refl i),
    htest _ (Nat.le_trans (Nat.sub_le _ 1) hle)]

theorem endsTag_behind {x : String} {k : Nat} (hk : at? line k = some '<')
    (hx : Stands line (k + 1) (encode x.toList))
    (hi : at? line (k + 1 + (bytes x).size) = some '>')
    (hr : read line ⟨k + 1, k + 1 + (bytes x).size⟩ = x) (hlt : '<' ∉ x.toList) :
    endsTag line (k + 1 + (bytes x).size + 1) = true ↔
      '>' ∉ x.toList ∧ isTagInside x.toList = true := by
  have hlen := length_encode x
  have hpos {j : Nat} (hkj : k < j) (hj : j < k + 1 + (bytes x).size) :
      ∃ c ∈ encode x.toList, at? line j = some c := by
    have h := hx.mem (k := j - (k + 1)) (by omega)
    rwa [Nat.add_sub_cancel' hkj] at h
  rw [endsTag_iff]
  constructor
  · rintro ⟨-, k', hk', hbegin, hbetween, hinside⟩
    obtain rfl : k' = k := by
      rcases Nat.lt_trichotomy k' k with h | h | h
      · have hp := hbetween k h (by omega)
        rw [test_of_at? hk] at hp
        contradiction
      · exact h
      · obtain ⟨c, hc, hat⟩ := hpos h hk'
        obtain rfl := Option.some.inj (hbegin.symm.trans hat)
        exact absurd ((mem_encode (by decide)).mp hc) hlt
    rw [hr] at hinside
    refine ⟨fun hgt => ?_, hinside⟩
    obtain ⟨j, hj, hat⟩ := hx.exists_of_mem ((mem_encode (by decide)).mpr hgt)
    have hp := hbetween (k' + 1 + j) (by omega) (by omega)
    rw [test_of_at? hat] at hp
    contradiction
  · rintro ⟨hgt, hinside⟩
    refine ⟨hi, k, by omega, hk, fun j hkj hj => ?_, by rwa [hr]⟩
    obtain ⟨c, hc, hat⟩ := hpos hkj hj
    have hne : c ≠ '<' ∧ c ≠ '>' := by
      constructor
      · rintro rfl
        exact hlt ((mem_encode (by decide)).mp hc)
      · rintro rfl
        exact hgt ((mem_encode (by decide)).mp hc)
    rw [test_of_at? hat]
    exact isUnbracketed_iff.mpr hne

theorem WellBracketed.of_cons (h : WellBracketed kind none (c :: text))
    (hc : isOpening .markup c = false) :
    isPlain kind none c = true ∧ WellBracketed kind none text := by
  generalize he : c :: text = whole at h
  cases h with
  | nil => simp at he
  | plain hp hr =>
    obtain ⟨rfl, rfl⟩ := List.cons.inj he
    exact ⟨hp, hr⟩
  | group _ hp _ _ _ =>
    obtain ⟨rfl, -⟩ := List.cons.inj he
    rcases partner_cases hp with ⟨-, rfl⟩ | ⟨-, rfl⟩ | ⟨-, rfl⟩ <;> simp [isOpening] at hc

theorem WellBracketed.of_append_unopened {u : List Char}
    (h : WellBracketed kind none (u ++ text)) (hu : ∀ c ∈ u, isOpening .markup c = false) :
    (∀ c ∈ u, isPlain kind none c = true) ∧ WellBracketed kind none text := by
  induction u with
  | nil => exact ⟨by simp, h⟩
  | cons c u ih =>
    obtain ⟨hc, hu⟩ := List.forall_mem_cons.mp hu
    obtain ⟨hp, hr⟩ := WellBracketed.of_cons h hc
    obtain ⟨hplain, hrest⟩ := ih hr hu
    exact ⟨List.forall_mem_cons.mpr ⟨hp, hplain⟩, hrest⟩

theorem not_isOpening_of {p : Char → Bool} (h : p c = true) (h₁ : p '(' = false)
    (h₂ : p '[' = false) (h₃ : p '{' = false) : isOpening .markup c = false := by
  refine Bool.eq_false_iff.mpr fun ho => ?_
  simp only [isOpening, Bool.or_eq_true, Bool.and_eq_true, beq_iff_eq] at ho
  rcases ho with rfl | ⟨-, rfl | rfl⟩ <;> simp_all

theorem not_isSpace_of_isAbbreviationChar (h : isAbbreviationChar c = true) :
    isSpace c = false := by
  have hall : ∀ n < 128, isAbbreviationChar (Char.ofNat n) = true →
      isSpace (Char.ofNat n) = false := by decide
  have hc := hall c.toNat (isAbbreviationChar_ascii h)
  rw [Char.ofNat_toNat] at hc
  exact hc h

theorem unopened_of_tagName {name : List Char} (hc : c.isAlpha = true)
    (hn : (match name.dropWhile isTagNameChar with
      | [] => true
      | d :: more => isSpace d || (d == '/' && more.isEmpty)) = true)
    (h : WellBracketed kind none (c :: (name ++ '>' :: rest))) :
    ∀ d ∈ c :: name, isOpening .markup d = false := by
  have hfirst := not_isOpening_of hc rfl rfl rfl
  have hname : ∀ d ∈ name.takeWhile isTagNameChar, isOpening .markup d = false := fun d hd =>
    not_isOpening_of (List.all_eq_true.mp List.all_takeWhile d hd) rfl rfl rfl
  refine List.forall_mem_cons.mpr ⟨hfirst, ?_⟩
  rw [← List.takeWhile_append_dropWhile (p := isTagNameChar) (l := name)] at h ⊢
  rw [List.append_assoc] at h
  obtain ⟨-, hrest⟩ := (h.of_cons hfirst).2.of_append_unopened hname
  cases hd : name.dropWhile isTagNameChar with
  | nil => simpa using hname
  | cons d more =>
    simp only [hd, Bool.or_eq_true, Bool.and_eq_true, beq_iff_eq, List.isEmpty_iff] at hn
    rcases hn with hspace | ⟨rfl, rfl⟩
    · rw [hd] at hrest
      have hplain := (hrest.of_cons (not_isOpening_of hspace rfl rfl rfl)).1
      rw [not_isSpace_of_isAbbreviationChar hplain] at hspace
      contradiction
    · intro e he
      rcases List.mem_append.mp he with he | he
      · exact hname e he
      · obtain rfl := List.mem_singleton.mp he
        rfl

theorem unopened_of_isTagInside {inside : List Char} (hi : isTagInside inside = true)
    (h : WellBracketed kind none (inside ++ '>' :: rest)) :
    ∀ c ∈ inside, isOpening .markup c = false := by
  have hbody {body : List Char} (hb : (match body with
      | [] => false
      | c :: more => c.isAlpha && match more.dropWhile isTagNameChar with
        | [] => true
        | d :: more => isSpace d || (d == '/' && more.isEmpty)) = true)
      (hw : WellBracketed kind none (body ++ '>' :: rest)) :
      ∀ c ∈ body, isOpening .markup c = false := by
    cases body with
    | nil => simp
    | cons c more =>
      rw [Bool.and_eq_true] at hb
      exact unopened_of_tagName hb.1 hb.2 hw
  unfold isTagInside at hi
  cases inside with
  | nil => simp
  | cons c more =>
    by_cases hc : c = '/'
    · subst hc
      exact List.forall_mem_cons.mpr ⟨rfl, hbody hi (h.of_cons rfl).2⟩
    · rw [if_neg (by simpa using hc)] at hi
      exact hbody hi h

theorem wellBracketed_of_isTagInside {inside : List Char} (hi : isTagInside inside = true)
    (h : WellBracketed kind none (inside ++ '>' :: rest)) :
    WellBracketed kind none inside ∧ WellBracketed kind none rest := by
  obtain ⟨hplain, hrest⟩ := h.of_append_unopened (unopened_of_isTagInside hi h)
  exact ⟨.of_forall hplain, (hrest.of_cons rfl).2⟩

end Caret.Abbreviation
