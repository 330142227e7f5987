import Caret.Context
import Caret.Proofs.Markup.Attribute
import Caret.Proofs.Text.Whole

namespace Caret

open Text

section unquote

variable {t : String} {c : Char}

theorem unquote_empty : unquote "" = "" := rfl

theorem unquote_of_not_isQuote (h : isQuote c = false) (t : String) :
    unquote (.singleton c ++ t) = .singleton c ++ t := by
  simp [unquote, h]

theorem unquote_open (h : isQuote c = true) (ht : t.toList.getLast? ≠ some c) :
    unquote (.singleton c ++ t) = t := by
  simp [unquote, h, ht]

theorem unquote_closed (h : isQuote c = true) (t : String) :
    unquote (.singleton c ++ (t ++ .singleton c)) = t := by
  simp [unquote, h]

end unquote

namespace Text

variable {code : Bytes} {v : Span}

theorem written_read (hle : v.start ≤ v.stop) (hs : v.stop ≤ code.size) :
    read code v = "" ∨ Written code v.start (read code v) ∧
      v.stop = v.start + (bytes (read code v)).size := by
  rcases bytes_read_cases code v with hcut | hempty
  · exact .inr (stands_of_cut hs hcut.symm hle)
  · exact .inl (size_bytes_eq_zero.mp (by rw [hempty]; rfl))

theorem Written.getLast?_iff {i : Nat} {t : String} {c : Char} (h : Written code i t)
    (hc : c.toNat < 128) :
    (0 < (bytes t).size ∧ Text.test (· == c) code (i + (bytes t).size - 1) = true) ↔
      t.toList.getLast? = some c := by
  cases hd : t.toList.getLast? with
  | none =>
    rw [List.getLast?_eq_none_iff, String.toList_eq_nil_iff] at hd
    simp [hd, bytes_empty]
  | some d =>
    have hne : t ≠ "" := fun hnil => by simp [hnil] at hd
    have hascii : ∀ e, (e == c) = true → e.toNat < 128 := fun e he => eq_of_beq he ▸ hc
    rw [h.test_last hascii hd, beq_iff_eq, Option.some.injEq]
    exact and_iff_right (size_bytes_pos hne)

end Text

namespace Markup

variable {code : Bytes} {v : Span} {t : String} {c : Char}

theorem unquoted_bounds (code : Bytes) {v : Span} (h : v.start ≤ v.stop) :
    v.start ≤ (Attribute.unquoted code v).start ∧
      (Attribute.unquoted code v).start ≤ (Attribute.unquoted code v).stop ∧
      (Attribute.unquoted code v).stop ≤ v.stop := by
  unfold Attribute.unquoted
  split
  · next q hq =>
    have hlt := (at?_of_at?_read hq).2
    split
    · split
      · next hclosed =>
        have hsize := hclosed.1
        simp only [Span.size] at hsize
        rw [Span.between_of_le (by omega)]
        simp only
        omega
      · rw [Span.between_of_le hlt]
        exact ⟨Nat.le_succ _, hlt, Nat.le_refl _⟩
    · exact ⟨Nat.le_refl _, h, Nat.le_refl _⟩
  · exact ⟨Nat.le_refl _, h, Nat.le_refl _⟩

theorem inside_bounds {limit i : Nat} {a : Attribute} (h : a.Read code limit i)
    (hl : limit ≤ code.size) {value : Span} (hv : a.inside code = some value) :
    a.span.start < value.start ∧ value.start ≤ value.stop ∧ value.stop ≤ a.span.stop := by
  obtain ⟨v, hv', rfl⟩ := Option.map_eq_some_iff.mp hv
  obtain ⟨hname, -, -, hvalue⟩ := h.bounds hl
  obtain ⟨hafter, hle, hstop⟩ := hvalue v hv'
  have hlt := h.lt_stop
  have hinside := unquoted_bounds code hle
  omega

theorem unquoted_of_not_test (h : test isQuote (bytes (read code v)) 0 = false) :
    Attribute.unquoted code v = v := by
  unfold Attribute.unquoted
  cases hat : at? (bytes (read code v)) 0 with
  | none => rfl
  | some q =>
    rw [test_of_at? hat] at h
    simp [h]

theorem unquoted_of_quote (hat : at? (bytes (read code v)) 0 = some c) (hq : isQuote c = true) :
    Attribute.unquoted code v =
      if 1 < v.size ∧ test (· == c) code (v.stop - 1) then
        .between (v.start + 1) (v.stop - 1)
      else .between (v.start + 1) v.stop := by
  simp [Attribute.unquoted, hat, hq]

theorem read_unquoted_quote (hq : isQuote c = true) (hread : read code v = .singleton c ++ t)
    (hw : Written code v.start (.singleton c ++ t))
    (hstop : v.stop = v.start + (bytes (.singleton c ++ t)).size) :
    read code (Attribute.unquoted code v) = unquote (.singleton c ++ t) := by
  have hc := isQuote_ascii hq
  have hat : at? (bytes (read code v)) 0 = some c := by
    rw [hread]
    exact (written_self _).at? (by simp) hc
  have hrest := (written_append.mp hw).2
  rw [size_bytes_singleton hc] at hrest
  rw [size_bytes_append, size_bytes_singleton hc, ← Nat.add_assoc] at hstop
  have hclosed : (1 < v.size ∧ test (· == c) code (v.stop - 1) = true) ↔
      t.toList.getLast? = some c := by
    rw [← hrest.getLast?_iff hc, ← hstop, Span.size]
    exact and_congr_left fun _ => by omega
  rw [unquoted_of_quote hat hq]
  by_cases hlast : t.toList.getLast? = some c
  · obtain ⟨u, hu⟩ := List.getLast?_eq_some_iff.mp hlast
    obtain rfl : t = .ofList u ++ .singleton c := by
      apply String.toList_inj.mp
      simp [hu]
    rw [size_bytes_append, size_bytes_singleton hc, ← Nat.add_assoc] at hstop
    rw [if_pos (hclosed.mpr hlast), unquote_closed hq, hstop, Nat.add_sub_cancel,
      Span.between_of_le (Nat.le_add_right _ _)]
    exact (written_append.mp hrest).1.read_eq
  · rw [if_neg fun h => hlast (hclosed.mp h), unquote_open hq hlast, hstop,
      Span.between_of_le (Nat.le_add_right _ _)]
    exact hrest.read_eq

theorem read_unquoted (hle : v.start ≤ v.stop) (hs : v.stop ≤ code.size) :
    read code (Attribute.unquoted code v) = unquote (read code v) := by
  rcases written_read hle hs with hempty | ⟨hw, hstop⟩
  -- a span that splits a character reads as nothing, and its bounds are then left as they are
  · rw [unquoted_of_not_test (by rw [hempty]; rfl), hempty, unquote_empty]
  · generalize hread : read code v = s at hw hstop
    cases hl : s.toList with
    | nil =>
      obtain rfl := String.toList_eq_nil_iff.mp hl
      rw [unquoted_of_not_test (by rw [hread]; rfl), hread, unquote_empty]
    | cons c rest =>
      obtain rfl : s = .singleton c ++ .ofList rest := by
        apply String.toList_inj.mp
        simp [hl]
      by_cases hq : isQuote c = true
      · exact read_unquoted_quote hq hread hw hstop
      · have hfirst : test isQuote (bytes (read code v)) 0 = false := by
          rw [hread, (written_self _).test_first (fun _ => isQuote_ascii) (c := c) (by simp)]
          exact Bool.eq_false_iff.mpr hq
        rw [unquoted_of_not_test hfirst, hread, unquote_of_not_isQuote (Bool.eq_false_iff.mpr hq)]

theorem read_inside (code : Bytes) (opening : Span) {a : Attribute}
    (ha : a ∈ attributes code opening) :
    (a.inside code).map (read code) = a.value.map (unquote <| read code ·) ∧
      (a.inside code = none ↔ a.value = none) ∧
      ∀ value, a.value = some value → ∃ inner, a.inside code = some inner ∧
        value.covers inner = true := by
  unfold Attribute.inside
  cases hv : a.value with
  | none => simp
  | some value =>
    obtain ⟨-, -, hlimit, hvalue⟩ := (read_of_mem ha).bounds (Nat.min_le_right _ _)
    obtain ⟨-, hle, hstop⟩ := hvalue value hv
    have hs : value.stop ≤ code.size := by omega
    obtain ⟨hfirst, -, hlast⟩ := unquoted_bounds code hle
    refine ⟨congrArg some (read_unquoted hle hs), by simp, ?_⟩
    rintro _ ⟨⟩
    exact ⟨_, rfl, Span.covers_iff.mpr ⟨hfirst, hlast⟩⟩

theorem read_inside_unclosed : ∃ a ∈ attributes (bytes "<p id=\"ü'>") ⟨0, 11⟩,
    a.value = some ⟨6, 11⟩ ∧ a.inside (bytes "<p id=\"ü'>") = some ⟨7, 11⟩ ∧
      (a.inside (bytes "<p id=\"ü'>")).map (read (bytes "<p id=\"ü'>")) = some "ü'>" := by
  have ha : (⟨⟨3, 5⟩, some ⟨6, 11⟩⟩ : Attribute) ∈ attributes (bytes "<p id=\"ü'>") ⟨0, 11⟩ := by
    decide +kernel
  have hvalue : unquote (read (bytes "<p id=\"ü'>") ⟨6, 11⟩) = "ü'>" := by decide +kernel
  refine ⟨_, ha, rfl, by decide +kernel, ?_⟩
  rw [(read_inside _ _ ha).1, ← hvalue]
  rfl

end Markup

end Caret
