import Caret.Proofs.Text.Lower

namespace Caret.Text

structure Whole (code : Bytes) (s : Span) : Prop where
  start : isBoundary code s.start = true
  stop : isBoundary code s.stop = true

variable {text : String} {code : Bytes} {s : Span} {i j stop : Nat}

theorem whole_self (code : Bytes) : Whole code ⟨0, code.size⟩ :=
  ⟨isBoundary_zero code, isBoundary_size code⟩

theorem le_clamp_iff (h : isBoundary code i = true) (pos : Nat) :
    i ≤ clamp code pos ↔ i ≤ pos :=
  ⟨fun hle => Nat.le_trans hle (clamp_le code pos), le_clamp h⟩

theorem Whole.contains_clamp (h : Whole code s) (pos : Nat) :
    s.contains (clamp code pos) = s.contains pos := by
  have hstart := le_clamp_iff h.start pos
  have hstop := le_clamp_iff h.stop pos
  rw [Bool.eq_iff_iff, Span.contains_iff, Span.contains_iff]
  omega

theorem surrounds_clamp (hnext : isBoundary code (s.start + 1) = true)
    (hstop : isBoundary code s.stop = true) (pos : Nat) :
    s.surrounds (clamp code pos) = s.surrounds pos := by
  have hnext := le_clamp_iff hnext pos
  have hstop := le_clamp_iff hstop pos
  rw [Bool.eq_iff_iff, Span.surrounds_iff, Span.surrounds_iff]
  omega

theorem isBoundary_min (hi : isBoundary code i = true) (hj : isBoundary code j = true) :
    isBoundary code (min i j) = true := by
  rw [Nat.min_def]
  split
  · exact hi
  · exact hj

theorem isBoundary_max (hi : isBoundary code i = true) (hj : isBoundary code j = true) :
    isBoundary code (max i j) = true := by
  rw [Nat.max_def]
  split
  · exact hj
  · exact hi

theorem Whole.between (hi : isBoundary code i = true) (hj : isBoundary code j = true) :
    Whole code (.between i j) := ⟨isBoundary_min hi hj, isBoundary_max hi hj⟩

theorem Whole.unit {c : Char} (h : at? (bytes text) i = some c) (hc : c.toNat < 128) :
    Whole (bytes text) ⟨i, i + 1⟩ :=
  ⟨(isBoundary_of_at? h hc).1, (isBoundary_of_at? h hc).2⟩

theorem Whole.trim (h : Whole (bytes text) s) : Whole (bytes text) (trim (bytes text) s) := by
  simp only [Text.trim, Nat.min_eq_left (le_size_of_isBoundary h.start),
    Nat.min_eq_left (le_size_of_isBoundary h.stop)]
  exact ⟨isBoundary_skip (fun _ => isBlank_ascii) h.start,
    isBoundary_skipBack (fun _ => isBlank_ascii) h.stop⟩

theorem isBoundary_past {word : String} {b : UInt8} (hb : (bytes word).toList.getLast? = some b)
    (hascii : b.toNat < 128) (hstop : isBoundary (bytes text) stop = true) (i : Nat) :
    isBoundary (bytes text) (past word (bytes text) stop i) = true := by
  dsimp only [past]
  cases hf : find (bytes word).toList (bytes text) stop i with
  | none => exact hstop
  | some p =>
    obtain ⟨hp, hle⟩ := find_spec hf
    rw [List.getLast?_eq_getElem?] at hb
    have hlt := (List.getElem?_eq_some_iff.mp hb).1
    have hend := (isBoundary_of_ascii ((holdsAt_iff hle).mp hp _ b hb) hascii).2
    have hlast : p + ((bytes word).toList.length - 1) + 1 = p + (bytes word).toList.length := by
      omega
    rwa [hlast] at hend

theorem bytes_of_fromUTF8? {b : Bytes} {s : String} (h : String.fromUTF8? ⟨b⟩ = some s) :
    bytes s = b := by
  unfold String.fromUTF8? at h
  split at h
  · obtain rfl := Option.some.inj h
    rfl
  · simp at h

theorem bytes_read_cases (code : Bytes) (s : Span) :
    bytes (read code s) = cut code s ∨ bytes (read code s) = #[] := by
  unfold read
  split
  · cases hread : String.fromUTF8? ⟨cut code s⟩ with
    | none => exact .inr rfl
    | some found => exact .inl (bytes_of_fromUTF8? hread)
  · exact .inr rfl

theorem at?_of_at?_read {c : Char} (h : at? (bytes (read code s)) 0 = some c) :
    at? code s.start = some c ∧ s.start < s.stop := by
  rcases bytes_read_cases code s with hcut | hempty
  · rw [hcut, at?, cut, Array.getElem?_extract] at h
    split at h
    · next hlt => exact ⟨h, by omega⟩
    · simp at h
  · simp [hempty, at?] at h

end Caret.Text
