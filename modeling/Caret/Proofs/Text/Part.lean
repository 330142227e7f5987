import Caret.Proofs.Text.Boundary

namespace Caret.Text

/-- A text stands in a longer one from `a` on, and no character is split at its ends. -/
structure PartAt (part code : Bytes) (a : Nat) : Prop where
  get : ∀ i, i < part.size → code[i + a]? = part[i]?
  size : part.size + a ≤ code.size
  first : isBoundary code a = true
  last : isBoundary code (part.size + a) = true

theorem partAt_bytes (l m r : String) : PartAt (bytes m) (bytes (l ++ m ++ r)) (bytes l).size where
  get i hi := by
    rw [bytes_append, bytes_append, Array.getElem?_append_left (by simp; omega), Nat.add_comm,
      Array.getElem?_append_right (Nat.le_add_right ..), Nat.add_sub_cancel_left]
  size := by
    rw [bytes_append, bytes_append, Array.size_append, Array.size_append]
    omega
  first := isBoundary_bytes.mpr ⟨l, m ++ r, String.append_assoc .., rfl⟩
  last := isBoundary_bytes.mpr ⟨l ++ m, r, rfl, by
    rw [bytes_append, Array.size_append, Nat.add_comm]⟩

theorem partAt_append (s t : String) : PartAt (bytes s) (bytes (s ++ t)) 0 := by
  have h := partAt_bytes "" s t
  rwa [String.empty_append] at h

theorem partAt_cut {text : String} {i j : Nat} (hij : i ≤ j)
    (hi : isBoundary (bytes text) i = true) (hj : isBoundary (bytes text) j = true) :
    PartAt (cut (bytes text) ⟨i, j⟩) (bytes text) i := by
  obtain ⟨l, part, r, rfl, rfl, rfl⟩ := exists_append_of_isBoundary hij hi hj
  rw [cut_bytes_append]
  exact partAt_bytes l part r

namespace PartAt

variable {part code : Bytes} {a i stop start : Nat} {p : Char → Bool} (h : PartAt part code a)
include h

theorem at?_add (hi : i < part.size) : at? code (i + a) = at? part i := by
  rw [at?, h.get i hi, at?]

theorem test_add (hi : i < part.size) : test p code (i + a) = test p part i := by
  rw [test, h.at?_add hi, test]

theorem isBoundary_add (hi : i ≤ part.size) : isBoundary code (i + a) = isBoundary part i := by
  rcases Nat.eq_or_lt_of_le hi with rfl | hlt
  · rw [h.last, isBoundary_size]
  · by_cases h0 : i = 0
    · subst h0
      rw [Nat.zero_add, h.first, isBoundary_zero]
    · have hsize := h.size
      have hend : i + a ≠ code.size := by omega
      simp [isBoundary, h.get i hlt, h0, hend, Nat.ne_of_lt hlt]

theorem skip_add (hs : stop ≤ part.size) :
    skip p code (stop + a) (i + a) = skip p part stop i + a := by
  fun_induction skip p part stop i with
  | case1 i hi ih =>
    rw [skip, if_pos ⟨by omega, by rw [h.test_add (by omega), hi.2]⟩, ← ih]
    congr 1
    omega
  | case2 i hi =>
    rw [skip, if_neg]
    rintro ⟨hlt, ht⟩
    rw [h.test_add (by omega)] at ht
    exact hi ⟨by omega, ht⟩

theorem skipBack_add (hi : i ≤ part.size) :
    skipBack p code (start + a) (i + a) = skipBack p part start i + a := by
  induction i with
  | zero =>
    rw [Nat.zero_add, skipBack, Nat.zero_add]
    cases a with
    | zero => rfl
    | succ a => exact if_neg fun hle => by omega
  | succ i ih =>
    rw [Nat.add_right_comm, skipBack, skipBack, h.test_add (by omega), ih (by omega)]
    simp only [Nat.add_le_add_iff_right]
    split
    · rfl
    · exact Nat.add_right_comm ..

theorem trim_add {s : Span} (hstart : s.start ≤ part.size) (hstop : s.stop ≤ part.size) :
    trim code (s.shift a) = (trim part s).shift a := by
  have hsize := h.size
  have hstart' : s.start + a ≤ code.size := by omega
  have hstop' : s.stop + a ≤ code.size := by omega
  simp only [trim, Span.shift, Nat.min_eq_left hstart, Nat.min_eq_left hstop,
    Nat.min_eq_left hstart', Nat.min_eq_left hstop', h.skip_add hstop, h.skipBack_add hstop]

theorem holdsAt_add (hs : stop ≤ part.size) (word : List UInt8) :
    holdsAt code (stop + a) word (i + a) = holdsAt part stop word i := by
  induction word generalizing i with
  | nil => rfl
  | cons b rest ih =>
    rw [holdsAt, holdsAt, Nat.add_right_comm, ih]
    by_cases hi : i < stop
    · rw [h.get i (by omega)]
      simp
    · simp [hi]

theorem find_add (hs : stop ≤ part.size) (word : List UInt8) :
    find word code (stop + a) (i + a) = (find word part stop i).map (· + a) := by
  fun_induction find word part stop i with
  | case1 i hi hw =>
    rw [find, if_pos (by omega), if_pos (by rw [h.holdsAt_add hs, hw])]
    rfl
  | case2 i hi hw ih =>
    rw [find, if_pos (by omega), if_neg (by rwa [h.holdsAt_add hs]), ← ih]
    congr 1
    omega
  | case3 i hi =>
    rw [find, if_neg (by omega)]
    rfl

theorem past_add (hs : stop ≤ part.size) (word : String) :
    past word code (stop + a) (i + a) = past word part stop i + a := by
  simp only [past, h.find_add hs]
  cases find (bytes word).toList part stop i with
  | none => rfl
  | some p => exact Nat.add_right_comm ..

theorem cut_add {s : Span} (hs : s.stop ≤ part.size) : cut code (s.shift a) = cut part s := by
  have hsize := h.size
  apply Array.ext_getElem?
  intro k
  have hle : s.stop + a ≤ code.size := by omega
  simp only [cut, Span.shift, Array.getElem?_extract, Nat.min_eq_left hs, Nat.min_eq_left hle,
    Nat.add_sub_add_right]
  split
  · rw [← h.get (s.start + k) (by omega)]
    congr 1
    omega
  · rfl

theorem read_add {s : Span} (hs : s.stop ≤ part.size) : read code (s.shift a) = read part s := by
  have hsize := h.size
  rw [read, read, if_pos hs, if_pos (by simp only [Span.shift]; omega), h.cut_add hs]

end PartAt

end Caret.Text
