import Caret.Proofs.Abbreviation.Pending

namespace Caret.Abbreviation

open Text

variable {kind : Kind} {line : Bytes} {marker : List UInt8} {start stop cursor i : Nat}
  {groups more : List Char} {options : Options} {m : Match} {pos : Nat} {text : String}

theorem isBoundary_origin (options : Options) (text : String) (pos : Nat) :
    isBoundary (bytes text) (origin options (bytes text) pos) = true := by
  have hclamp := isBoundary_clamp (bytes text) pos
  unfold origin
  split
  · refine isBoundary_skip (fun c => isClosing_ascii) ?_
    split
    · next hq =>
      obtain ⟨c, hc, hcq⟩ := test_iff.mp hq
      exact (isBoundary_of_at? hc (isQuote_ascii hcq)).2
    · exact hclamp
  · exact hclamp

theorem origin_size (options : Options) (line : Bytes) : origin options line line.size = line.size := by
  have hclamp : clamp line line.size = line.size := if_pos (Nat.le_refl _)
  have htest (p : Char → Bool) : test p line line.size = false := by simp [test, at?]
  simp [origin, pastAutoClosed, hclamp, htest, skip_eq_self]

theorem scan_size (options : Options) (line : Bytes) :
    scan options line line.size = scan { options with lookAhead := false } line line.size := by
  simp only [scan, origin_size]
  rfl

theorem pastMarker?_spec (h : pastMarker? marker line cursor = some start) :
    start ≤ cursor ∧ marker.length ≤ start ∧
      holdsAt line start marker (start - marker.length) = true := by
  fun_induction pastMarker? marker line cursor with
  | case1 => simp at h
  | case2 cursor _ i hi ih =>
    obtain ⟨hle, hm⟩ := ih h
    exact ⟨Nat.le_trans hle (Nat.le_of_lt (groupBefore?_lt hi)), hm⟩
  | case3 cursor _ _ hm =>
    obtain rfl := Option.some.inj h
    exact ⟨Nat.le_refl _, hm⟩
  | case4 cursor _ _ _ ih =>
    obtain ⟨hle, hm⟩ := ih h
    exact ⟨Nat.le_trans hle (Nat.sub_le _ _), hm⟩

theorem limit?_le (h : limit? options line cursor = some start) :
    start ≤ cursor := by
  unfold limit? at h
  split at h
  · obtain rfl := Option.some.inj h
    exact Nat.zero_le _
  · exact (pastMarker?_spec h).1

theorem limit?_length (hw : ¬options.word.isEmpty = true)
    (h : limit? options line pos = some start) : options.word.length ≤ start := by
  rw [limit?, if_neg hw] at h
  exact (pastMarker?_spec h).2.1

theorem word_eq {word : String} (h : options.marker = some word) :
    options.word = (bytes word).toList := by
  simp [Options.word, h]

theorem limit?_marker {word : String} (h : options.marker = some word)
    (hw : ¬options.word.isEmpty = true) (hl : limit? options line pos = some start) :
    cut line ⟨start - (bytes word).size, start⟩ = bytes word := by
  have hle := limit?_length hw hl
  rw [limit?, if_neg hw] at hl
  have hcut := holdsAt_cut (pastMarker?_spec hl).2.2
  rw [Nat.sub_add_cancel hle, word_eq h, Array.length_toList] at hcut
  exact Array.toList_inj.mp hcut

theorem marker_stands {first location : Nat} (hl : limit? options line pos = some start)
    (hle : start ≤ location)
    (hf : first = if options.word.isEmpty then location else start - options.word.length) :
    first ≤ location ∧ ∀ word, options.marker = some word →
      cut line ⟨first, first + (bytes word).size⟩ = bytes word ∧
        first + (bytes word).size ≤ location := by
  by_cases hw : options.word.isEmpty = true
  · rw [if_pos hw] at hf
    refine ⟨Nat.le_of_eq hf, fun word h => ?_⟩
    rw [word_eq h, List.isEmpty_iff, Array.toList_eq_nil_iff] at hw
    rw [hw, hf]
    exact ⟨Array.extract_empty_of_stop_le_start (Nat.le_refl _), Nat.le_refl _⟩
  · rw [if_neg hw] at hf
    refine ⟨by omega, fun word h => ?_⟩
    have hlen := limit?_length hw hl
    have hcut := limit?_marker h hw hl
    rw [word_eq h, Array.length_toList] at hf hlen
    have hsum : first + (bytes word).size = start := by omega
    rw [hsum, hf]
    exact ⟨hcut, hle⟩

theorem goBack_pending (h : Pending kind groups (units (cut line ⟨i, stop⟩))) (hs : start ≤ i)
    (hi : i ≤ stop) (hg : goBack kind line start i groups = .ok (cursor, more)) :
    start ≤ cursor ∧ cursor ≤ i ∧ Pending kind more (units (cut line ⟨cursor, stop⟩)) := by
  induction i generalizing groups with
  | zero =>
    obtain ⟨rfl, rfl⟩ := Prod.mk.inj (Except.ok.inj hg)
    exact ⟨hs, Nat.le_refl _, h⟩
  | succ i ih =>
    have hstay : (Except.ok (i + 1, groups) : Except Mismatch _) = .ok (cursor, more) →
        start ≤ cursor ∧ cursor ≤ i + 1 ∧ Pending kind more (units (cut line ⟨cursor, stop⟩)) := by
      intro he
      obtain ⟨rfl, rfl⟩ := Prod.mk.inj (Except.ok.inj he)
      exact ⟨hs, Nat.le_refl _, h⟩
    unfold goBack at hg
    split at hg
    · exact hstay hg
    · next hlt =>
      split at hg
      · exact hstay hg
      · next c hc =>
        split at hg
        · simp at hg
        · exact hstay hg
        · next groups' hstep =>
          have h' := h.step hstep
          rw [← units_cut_cons hc hi] at h'
          obtain ⟨hs', hc', hp⟩ := ih h' (Nat.le_of_not_lt hlt) (Nat.le_of_succ_le hi) hg
          exact ⟨hs', Nat.le_succ_of_le hc', hp⟩

theorem wellBracketed_skip (h : WellBracketed kind none (units (cut line ⟨i, stop⟩))) :
    WellBracketed kind none (units (cut line ⟨skip isJoint line stop i, stop⟩)) := by
  fun_induction skip isJoint line stop i with
  | case1 i hi ih =>
    obtain ⟨c, hc, hj⟩ := test_iff.mp hi.2
    rw [units_cut_cons hc hi.1] at h
    exact ih (h.tail hj)
  | case2 => exact h

theorem isBoundary_of_wellBracketed (hi : i ≤ stop)
    (hs : isBoundary (bytes text) stop = true)
    (h : WellBracketed kind none (units (cut (bytes text) ⟨i, stop⟩))) :
    isBoundary (bytes text) i = true := by
  rcases Nat.lt_or_eq_of_le hi with hlt | rfl
  · obtain ⟨c, hc⟩ := at?_of_lt (Nat.lt_of_lt_of_le hlt (le_size_of_isBoundary hs))
    rw [units_cut_cons hc hlt] at h
    exact (isBoundary_of_at? hc h.head_ascii).1
  · exact hs

theorem goBack_rest (hp : isBoundary (bytes text) pos = true) (hs : start ≤ pos)
    (hg : goBack kind (bytes text) start pos [] = .ok (cursor, [])) :
    start ≤ cursor ∧ cursor ≤ pos ∧ isBoundary (bytes text) cursor = true ∧
      isBoundary (bytes text) (skip isJoint (bytes text) pos cursor) = true ∧
      WellBracketed kind none
        (units (cut (bytes text) ⟨skip isJoint (bytes text) pos cursor, pos⟩)) := by
  have hnil : Pending kind [] (units (cut (bytes text) ⟨pos, pos⟩)) := by
    rw [units_cut_self]
    exact .nil .nil
  obtain ⟨hstart, hle, hpend⟩ := goBack_pending hnil hs (Nat.le_refl _) hg
  cases hpend with
  | nil hw =>
    have hw' := wellBracketed_skip hw
    exact ⟨hstart, hle, isBoundary_of_wellBracketed hle hp hw,
      isBoundary_of_wellBracketed (skip_le _ _ hle) hp hw', hw'⟩

theorem scan_eq_some (h : scan options line pos = .ok (some m)) :
    ∃ start cursor, limit? options line (origin options line pos) = some start ∧
      goBack options.kind line start (origin options line pos) [] = .ok (cursor, []) ∧
      m.stop = origin options line pos ∧ m.location = skip isJoint line m.stop cursor ∧
      m.location < m.stop ∧ m.abbreviation = read line ⟨m.location, m.stop⟩ ∧
      m.start = if options.word.isEmpty then m.location else start - options.word.length := by
  simp only [scan] at h
  split at h
  · simp at h
  · next start hstart =>
    split at h
    · simp at h
    · next cursor groups hg =>
      split at h
      · next hm =>
        obtain rfl := Option.some.inj (Except.ok.inj h)
        rw [List.isEmpty_iff.mp hm.1] at hg
        exact ⟨start, cursor, hstart, hg, rfl, rfl, hm.2, rfl, rfl⟩
      · simp at h

end Caret.Abbreviation
