import Caret.Proofs.Text.Skip

namespace Caret.Text

def Agree (code code' : Bytes) (i j : Nat) : Prop := ∀ k, i ≤ k → k < j → code'[k]? = code[k]?

variable {code code' : Bytes} {i j k stop stop' : Nat} {p : Char → Bool} {word : List UInt8}

theorem Agree.mono (h : Agree code code' i j) {i' j' : Nat} (hi : i ≤ i') (hj : j' ≤ j) :
    Agree code code' i' j' :=
  fun k hik hk => h k (Nat.le_trans hi hik) (Nat.lt_of_lt_of_le hk hj)

theorem at?_congr (h : code'[k]? = code[k]?) : at? code' k = at? code k := by
  rw [at?, h, at?]

theorem test_congr (h : code'[k]? = code[k]?) : test p code' k = test p code k := by
  rw [test, at?_congr h, test]

section search

theorem holdsAt_congr (h : Agree code code' i (min stop (i + word.length)))
    (hs : min stop' (i + word.length) = min stop (i + word.length)) :
    holdsAt code' stop' word i = holdsAt code stop word i := by
  induction word generalizing i with
  | nil => rfl
  | cons b rest ih =>
    rw [List.length_cons] at h hs
    rw [holdsAt, holdsAt]
    have hlt : i < stop' ↔ i < stop := by omega
    by_cases hi : i < stop
    · rw [ih (h.mono (Nat.le_succ i) (by omega)) (by omega), h i (Nat.le_refl i) (by omega)]
      simp [hlt]
    · simp [hlt, hi]

theorem find_congr (h : Agree code code' i ((find word code stop i).elim stop (· + word.length)))
    (hs : stop' = stop ∨ (find word code stop i).isSome = true ∧ stop ≤ stop') :
    find word code' stop' i = find word code stop i := by
  fun_induction find word code stop i with
  | case1 i hi hw =>
    have hle := holdsAt_length (Nat.le_of_lt hi) hw
    rw [Option.elim_some] at h
    rw [find, if_pos (by omega), if_pos]
    rw [← hw]
    exact holdsAt_congr (by rwa [Nat.min_eq_right hle]) (by omega)
  | case2 i hi hw ih =>
    have hend : min stop (i + word.length) ≤
        (find word code stop (i + 1)).elim stop (· + word.length) ∧
          (stop' = stop ∨ i + word.length ≤ stop ∧ stop ≤ stop') := by
      cases hfind : find word code stop (i + 1) with
      | none =>
        simp only [hfind, Option.isSome_none, Bool.false_eq_true, false_and, or_false] at hs
        exact ⟨Nat.min_le_left .., .inl hs⟩
      | some q =>
        have hq := le_of_find hfind
        have hle := (find_spec hfind).2
        simp only [Option.elim_some]
        omega
    have hsame : holdsAt code' stop' word i = holdsAt code stop word i :=
      holdsAt_congr (h.mono (Nat.le_refl i) hend.1) (by omega)
    rw [find, if_pos (by omega), if_neg (by rwa [hsame]), ih (h.mono (Nat.le_succ i) (Nat.le_refl _)) hs]
  | case3 i hi =>
    obtain rfl : stop' = stop := by simpa using hs
    rw [find, if_neg hi]

theorem past_congr {word : String} (h : Agree code code' i (past word code stop i))
    (hs : stop' = stop ∨ past word code stop i < stop ∧ stop ≤ stop') :
    past word code' stop' i = past word code stop i := by
  simp only [past] at h hs ⊢
  cases hfind : find (bytes word).toList code stop i with
  | none =>
    obtain rfl : stop' = stop := by simpa [hfind] using hs
    rw [find_congr h (.inl rfl), hfind]
  | some q =>
    rw [find_congr h (hs.imp_right fun hs => ⟨by simp [hfind], hs.2⟩), hfind]
    rfl

end search

section blanks

variable (hsize : code'.size = code.size)

theorem skip_congr (h : ∀ k, test p code' k = test p code k) :
    skip p code' stop i = skip p code stop i := by
  fun_induction skip p code stop i with
  | case1 i hi ih => rw [skip, if_pos ⟨hi.1, by rw [h, hi.2]⟩, ih]
  | case2 i hi => rw [skip, if_neg (by rwa [h])]

theorem skipBack_congr (h : ∀ k, test p code' k = test p code k) (start i : Nat) :
    skipBack p code' start i = skipBack p code start i := by
  induction i with
  | zero => rfl
  | succ i ih => rw [skipBack, skipBack, h, ih]

include hsize

theorem trim_congr (h : ∀ k, test isBlank code' k = test isBlank code k) (s : Span) :
    trim code' s = trim code s := by
  simp only [trim, hsize, skip_congr h, skipBack_congr h]

theorem test_not_congr (h : ∀ k, test p code' k = test p code k) (k : Nat) :
    test (!p ·) code' k = test (!p ·) code k := by
  rcases Nat.lt_or_ge k code.size with hk | hk
  · obtain ⟨c, hc⟩ := at?_of_lt hk
    obtain ⟨c', hc'⟩ := at?_of_lt (hsize ▸ hk)
    have hp := h k
    rw [test_of_at? hc, test_of_at? hc'] at hp
    rw [test_of_at? hc, test_of_at? hc', hp]
  · simp [test, at?, hk, hsize]

theorem isBoundary_congr (h : code'[k]? = code[k]?) : isBoundary code' k = isBoundary code k := by
  simp only [isBoundary, hsize, h]

end blanks

end Caret.Text
