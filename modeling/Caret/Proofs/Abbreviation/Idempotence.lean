import Caret.Proofs.Abbreviation.Completeness
import Caret.Proofs.Abbreviation.Soundness
import Caret.Proofs.Text.Written

namespace Caret.Abbreviation

open Text

variable {options again : Options} {text : String} {pos : Nat} {m : Match}

theorem goBack_abbreviation (h : scan options (bytes text) pos = .ok (some m)) :
    goBack options.kind (bytes m.abbreviation) 0 (bytes m.abbreviation).size [] = .ok (0, []) := by
  obtain ⟨start, cursor, hl, hg, hstop, hloc, -, -, -⟩ := scan_eq_some h
  have hsound := Match.sound h
  have hle := hsound.location_le
  have hs := hsound.stop_boundary
  rw [← hstop] at hl hg
  obtain ⟨hstart, -⟩ := goBack_rest hs (limit?_le hl) hg
  have hskip := le_skip isJoint (bytes text) m.stop cursor
  rw [← hloc] at hskip
  have hpart := partAt_cut hle hsound.location_boundary hs
  rw [← hsound.abbreviation_eq] at hpart
  obtain ⟨hstands, hsize⟩ := stands_of_cut hsound.stop_le hsound.abbreviation_eq.symm hle
  have hback := goBack_wellBracketed (wellBracketed_encode.mpr hsound.wellBracketed) .outside
    (written_self m.abbreviation) (Nat.zero_le 0)
  rw [length_encode, Nat.zero_add] at hback
  rcases hback with hpass | ⟨-, u, v, hparts, -⟩
  · exact hpass
  · -- a tag that ends in the abbreviation would have stopped the first scan
    obtain ⟨x, y, hxy, -, -, hy, htag⟩ := hparts.exists_append
    have htag' := endsTag_of_part hpart htag
    rw [Nat.zero_add, Nat.add_comm (bytes x).size] at htag'
    rw [hsize] at hg
    have hcursor := le_of_goBack hstands hxy hy htag' (Nat.le_trans hstart hskip) hg
    omega

/-- Extraction is idempotent: the text of a match, scanned from its end without a marker, is its
own match. -/
theorem scan_idempotent (h : scan options (bytes text) pos = .ok (some m))
    (hk : again.kind = options.kind) (hm : again.marker.getD "" = "") :
    scan again (bytes m.abbreviation) (bytes m.abbreviation).size =
      .ok (some ⟨m.abbreviation, 0, 0, (bytes m.abbreviation).size⟩) := by
  have hsound := Match.sound h
  obtain ⟨c, rest, hc, hjoint⟩ := hsound.begins
  have hne : m.abbreviation ≠ "" := by
    intro he
    simp [he] at hc
  have hword : again.word = [] := by
    rw [Options.word, hm]
    rfl
  have hlimit (pos : Nat) : limit? { again with lookAhead := false } (bytes m.abbreviation) pos =
      some 0 :=
    if_pos (List.isEmpty_iff.mpr hword)
  have hscan := scan_of_goBack (l := "") (r := "") { again with lookAhead := false } rfl hne
    (by simpa [hc] using hjoint) (hk ▸ hsound.wellBracketed)
    (by simpa using hlimit _) (by simpa [bytes_empty, hk] using goBack_abbreviation h)
  have hempty : Options.word { again with lookAhead := false } = [] := hword
  rw [scan_size]
  simpa [bytes_empty, hempty] using hscan

theorem scan_idempotent_marked :
    let found : Match := ⟨"a[<b>]>c", 3, 5, 13⟩
    scan { marker := some "<" } (bytes "é <+a[<b>]>c") 13 = .ok (some found) ∧
      scan {} (bytes found.abbreviation) (bytes found.abbreviation).size =
        .ok (some ⟨found.abbreviation, 0, 0, (bytes found.abbreviation).size⟩) := by
  have h : scan { marker := some "<" } (bytes "é <+a[<b>]>c") 13 =
      .ok (some ⟨"a[<b>]>c", 3, 5, 13⟩) := by
    with_unfolding_all rfl
  exact ⟨h, scan_idempotent h rfl rfl⟩

end Caret.Abbreviation
