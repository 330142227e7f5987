import Caret.Proofs.Abbreviation.Checked

namespace Caret.Abbreviation

open Text

variable {options : Options} {text : String} {m : Match} {pos : Nat}

structure Match.Sound (options : Options) (text : String) (m : Match) : Prop where
  start_le : m.start ≤ m.location
  location_le : m.location ≤ m.stop
  stop_le : m.stop ≤ (bytes text).size
  location_boundary : isBoundary (bytes text) m.location = true
  stop_boundary : isBoundary (bytes text) m.stop = true
  abbreviation_eq : bytes m.abbreviation = cut (bytes text) ⟨m.location, m.stop⟩
  begins : ∃ c rest, m.abbreviation.toList = c :: rest ∧ isJoint c = false
  wellBracketed : WellBracketed options.kind none m.abbreviation.toList
  marker : ∀ marker, options.marker = some marker →
    cut (bytes text) ⟨m.start, m.start + (bytes marker).size⟩ = bytes marker ∧
      m.start + (bytes marker).size ≤ m.location

theorem Match.sound (h : scan options (bytes text) pos = .ok (some m)) : m.Sound options text := by
  obtain ⟨start, cursor, hl, hg, hstop, hloc, hlt, habbr, hstart⟩ := scan_eq_some h
  have hs := isBoundary_origin options text pos
  rw [← hstop] at hl hg hs
  obtain ⟨hlimit, hcursor, -, hi, hw⟩ := goBack_rest hs (limit?_le hl) hg
  have hj := test_skip (hloc ▸ hlt)
  have hskip := le_skip isJoint (bytes text) m.stop cursor
  rw [← hloc] at hi hw hj hskip
  have hle := Nat.le_of_lt hlt
  obtain ⟨c, hc⟩ := at?_of_lt (Nat.lt_of_lt_of_le hlt (le_size_of_isBoundary hs))
  have hascii : c.toNat < 128 := by
    rw [units_cut_cons hc hlt] at hw
    exact hw.head_ascii
  have hmarker := marker_stands hl (Nat.le_trans hlimit hskip) hstart
  exact
    { start_le := hmarker.1
      location_le := hle
      stop_le := le_size_of_isBoundary hs
      location_boundary := hi
      stop_boundary := hs
      abbreviation_eq := by rw [habbr, bytes_read hle hi hs]
      begins := by
        obtain ⟨rest, hrest⟩ := toList_read_of_at? hlt hs hc hascii
        exact ⟨c, rest, habbr ▸ hrest, by rw [← hj, test_of_at? hc]⟩
      wellBracketed := by
        rw [← encode_read hle hi hs, ← habbr] at hw
        exact hw.of_encode
      marker := hmarker.2 }

theorem scan_sound (options : Options) (text : String) (pos : Nat) :
    Checked.scan options (bytes text) pos = some (scan options (bytes text) pos) ∧
      ∀ m, scan options (bytes text) pos = .ok (some m) → m.Sound options text :=
  ⟨Checked.scan_eq options text pos, fun _ => Match.sound⟩

theorem scan_sound_marked : ∃ m,
    scan { marker := some "<" } (bytes "é <+p{ü}*2") 12 = .ok (some m) ∧
      m.Sound { marker := some "<" } "é <+p{ü}*2" := by
  have h : scan { marker := some "<" } (bytes "é <+p{ü}*2") 12 =
      .ok (some ⟨"p{ü}*2", 3, 5, 12⟩) := by
    with_unfolding_all rfl
  exact ⟨_, h, (scan_sound { marker := some "<" } "é <+p{ü}*2" 12).2 _ h⟩

end Caret.Abbreviation
