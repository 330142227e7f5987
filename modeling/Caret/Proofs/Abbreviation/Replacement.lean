import Caret.Proofs.Abbreviation.Passage
import Caret.Proofs.Abbreviation.Soundness

namespace Caret.Abbreviation

open Text

variable {kind : Kind} {line : Bytes} {start cursor i : Nat} {options : Options} {m : Match}
  {pos : Nat} {text word a : String}

/-- A text that the scan goes back over, from its end to joints at its start: it is well bracketed,
and no complete tag ends in it outside of groups, but for one made of joints. -/
structure Clear (kind : Kind) (line : Bytes) (i : Nat) (text : String) : Prop where
  wellBracketed : WellBracketed kind none text.toList
  tags : ∀ x y : String, text = x ++ ">" ++ y → WellBracketed kind none x.toList →
    WellBracketed kind none y.toList → endsTag line (i + (bytes x).size + 1) = true →
    ∀ c ∈ x.toList, isJoint c = true

theorem clear_of_joints (hs : isBoundary (bytes text) i = true) (hle : start ≤ i)
    (hg : goBack kind (bytes text) start i [] = .ok (cursor, [])) {joints : String}
    (hj : ∀ c ∈ joints.toList, isJoint c = true)
    (hcut : cut (bytes text) ⟨start, skip isJoint (bytes text) i cursor⟩ = bytes joints) :
    ∃ rest, cut (bytes text) ⟨start, i⟩ = bytes rest ∧ Clear kind (bytes text) start rest := by
  obtain ⟨hcursor, hcursor', -, hlocation, hw⟩ := goBack_rest hs hle hg
  have hskip := le_skip isJoint (bytes text) i cursor
  have hskip' := skip_le isJoint (bytes text) hcursor'
  have htest := (exists_cut_eq_iff (fun _ => isJoint_ascii) (Nat.le_trans hcursor hskip)
    hlocation).mp ⟨joints, hj, hcut⟩
  rw [← encode_read hskip' hlocation hs, wellBracketed_encode] at hw
  have hrest : cut (bytes text) ⟨start, i⟩ =
      bytes (joints ++ read (bytes text) ⟨skip isJoint (bytes text) i cursor, i⟩) := by
    rw [bytes_append, bytes_read hskip' hlocation hs, ← hcut,
      cut_append (Nat.le_trans hcursor hskip) hskip']
  refine ⟨_, hrest, ?_, fun x y hxy hx hy htag => ?_⟩
  · rw [String.toList_append]
    exact hw.plain_append fun c hc => isPlain_of_isJoint (hj c hc)
  · obtain ⟨hst, hi⟩ := stands_of_cut (le_size_of_isBoundary hs) hrest hle
    rw [hi] at hg
    have hstop := le_of_goBack hst hxy hy htag (Nat.le_refl start) hg
    rw [hxy, encode_parts] at hst
    rw [← forall_encode_iff fun _ => isJoint_ascii]
    intro c hc
    obtain ⟨k, hk, hat⟩ := hst.left.exists_of_mem hc
    rw [length_encode] at hk
    have ht := htest (start + k) (Nat.le_add_right start k) (by omega)
    rwa [test_of_at? hat] at ht

theorem Clear.test_of_lt {rest : String} (h : Clear kind line start rest)
    (ht : Stands line start (encode rest.toList))
    (hg : goBack kind line start (start + (bytes rest).size) [] = .ok (cursor, []))
    {k : Nat} (hk : start ≤ k) (hkc : k < cursor) : test isJoint line k = true := by
  have hback := goBack_wellBracketed (wellBracketed_encode.mpr h.wellBracketed)
    .outside ht (Nat.le_refl start)
  rw [length_encode, hg, goBack_start] at hback
  rcases hback with hpass | ⟨-, u, v, hparts, hstop⟩
  · have := (Prod.mk.inj (Except.ok.inj hpass)).1
    omega
  · obtain ⟨x, y, rfl, hlen, hx, hy, htag⟩ := hparts.exists_append
    have hjoints := (forall_encode_iff fun _ => isJoint_ascii).mpr (h.tags x y rfl hx hy htag)
    have hend := (Prod.mk.inj (Except.ok.inj hstop)).1
    rw [encode_parts] at ht
    rcases Nat.lt_or_ge k (start + (bytes x).size) with hlt | hge
    · obtain ⟨c, hc, hat⟩ := ht.left.mem (k := k - start) (by rw [length_encode]; omega)
      rw [Nat.add_sub_cancel' hk] at hat
      rw [test_of_at? hat]
      exact hjoints c hc
    · have hat := ht.right.head
      rw [length_encode] at hat
      obtain rfl : k = start + (bytes x).size := by omega
      rw [test_of_at? hat]
      rfl

theorem joints_of_clear (hs : isBoundary (bytes text) i = true) (hle : start ≤ i)
    (hg : goBack kind (bytes text) start i [] = .ok (cursor, [])) {rest : String}
    (hrest : cut (bytes text) ⟨start, i⟩ = bytes rest) (h : Clear kind (bytes text) start rest) :
    ∃ joints : String, (∀ c ∈ joints.toList, isJoint c = true) ∧
      cut (bytes text) ⟨start, skip isJoint (bytes text) i cursor⟩ = bytes joints := by
  obtain ⟨hcursor, hcursor', -, hlocation, -⟩ := goBack_rest hs hle hg
  have hskip := le_skip isJoint (bytes text) i cursor
  obtain ⟨hst, hi⟩ := stands_of_cut (le_size_of_isBoundary hs) hrest hle
  rw [exists_cut_eq_iff (fun _ => isJoint_ascii) (Nat.le_trans hcursor hskip) hlocation]
  intro k hk hlt
  rcases Nat.lt_or_ge k cursor with hkc | hkc
  · rw [hi] at hg
    exact h.test_of_lt hst hg hk hkc
  · exact test_of_lt_skip hkc hlt

theorem isEmpty_word (hm : options.marker = some word) (hw : word ≠ "") :
    ¬options.word.isEmpty = true := by
  rw [word_eq hm, List.isEmpty_iff, Array.toList_eq_nil_iff]
  intro he
  refine hw (String.isEmpty_iff.mp ?_)
  rw [isEmpty_eq, he]
  rfl

/-- The text to replace is the marker, joints and the abbreviation, and nothing else, exactly if all
that follows the marker is clear. -/
theorem replaces_exactly_iff (h : scan options (bytes text) pos = .ok (some m))
    (hm : options.marker = some word) (hw : word ≠ "") :
    (∃ joints : String, (∀ c ∈ joints.toList, isJoint c = true) ∧
      cut (bytes text) m.span = bytes (word ++ joints ++ m.abbreviation)) ↔
    ∃ rest : String, cut (bytes text) m.span = bytes (word ++ rest) ∧
      Clear options.kind (bytes text) (m.start + (bytes word).size) rest := by
  obtain ⟨start, cursor, hl, hg, hstop, hloc, -, -, hstart⟩ := scan_eq_some h
  have hsound := Match.sound h
  have hempty := isEmpty_word hm hw
  have hs := isBoundary_origin options text pos
  rw [← hstop] at hl hg hs
  have hle := limit?_le hl
  have hlen := limit?_length hempty hl
  rw [if_neg hempty, word_eq hm, Array.length_toList] at hstart
  rw [word_eq hm, Array.length_toList] at hlen
  obtain ⟨hmarker, hbefore⟩ := hsound.marker word hm
  have hsum : m.start + (bytes word).size = start := by omega
  rw [hsum] at hmarker hbefore ⊢
  have hspan : cut (bytes text) m.span = bytes word ++ cut (bytes text) ⟨start, m.stop⟩ := by
    rw [Match.span, Span.between_of_le (by omega), ← hmarker, cut_append (by omega) hle]
  have hcut : cut (bytes text) ⟨start, m.stop⟩ =
      cut (bytes text) ⟨start, m.location⟩ ++ bytes m.abbreviation := by
    rw [hsound.abbreviation_eq, cut_append hbefore hsound.location_le]
  have hleft (x : String) : cut (bytes text) m.span = bytes (word ++ x ++ m.abbreviation) ↔
      cut (bytes text) ⟨start, m.location⟩ = bytes x := by
    rw [hspan, hcut, bytes_append, bytes_append, ← Array.append_assoc, Array.append_left_inj,
      Array.append_right_inj]
  have hright (x : String) : cut (bytes text) m.span = bytes (word ++ x) ↔
      cut (bytes text) ⟨start, m.stop⟩ = bytes x := by
    rw [hspan, bytes_append, Array.append_right_inj]
  simp only [hleft, hright, hloc]
  constructor
  · rintro ⟨joints, hj, hc⟩
    exact clear_of_joints hs hle hg hj hc
  · rintro ⟨rest, hc, hclear⟩
    exact joints_of_clear hs hle hg hc hclear

theorem replaces_exactly_marked : ∃ m,
    scan { marker := some "<" } (bytes "é <+p{ü}*2") 12 = .ok (some m) ∧
      ((∃ joints : String, (∀ c ∈ joints.toList, isJoint c = true) ∧
        cut (bytes "é <+p{ü}*2") m.span = bytes ("<" ++ joints ++ m.abbreviation)) ↔
      ∃ rest : String, cut (bytes "é <+p{ü}*2") m.span = bytes ("<" ++ rest) ∧
        Clear .markup (bytes "é <+p{ü}*2") (m.start + (bytes "<").size) rest) := by
  have h : scan { marker := some "<" } (bytes "é <+p{ü}*2") 12 =
      .ok (some ⟨"p{ü}*2", 3, 5, 12⟩) := by
    with_unfolding_all rfl
  exact ⟨_, h, replaces_exactly_iff h rfl (by decide)⟩

theorem replaces_more : ∃ m,
    scan { marker := some "<", lookAhead := false } (bytes "x < 3 && a") 10 = .ok (some m) ∧
      ¬∃ joints : String, (∀ c ∈ joints.toList, isJoint c = true) ∧
        cut (bytes "x < 3 && a") m.span = bytes ("<" ++ joints ++ m.abbreviation) := by
  have h : scan { marker := some "<", lookAhead := false } (bytes "x < 3 && a") 10 =
      .ok (some ⟨"a", 2, 9, 10⟩) := by
    with_unfolding_all rfl
  refine ⟨_, h, ?_⟩
  rintro ⟨joints, hj, hc⟩
  have hspan : cut (bytes "x < 3 && a") (Match.span ⟨"a", 2, 9, 10⟩) = bytes "< 3 && a" := by
    with_unfolding_all rfl
  rw [hspan] at hc
  have hbytes := congrArg units hc
  simp only [units_bytes, String.toList_append, encode_append] at hbytes
  have hmem : ' ' ∈ encode joints.toList := by
    have hblank : ' ' ∈ encode "<".toList ++ encode joints.toList ++ encode "a".toList := by
      rw [← hbytes]
      decide
    have hmarker : encode ['<'] = ['<'] := rfl
    have hlast : encode ['a'] = ['a'] := rfl
    simpa [hmarker, hlast] using hblank
  have hblank := (forall_encode_iff fun _ => isJoint_ascii).mpr hj ' ' hmem
  contradiction

end Caret.Abbreviation
