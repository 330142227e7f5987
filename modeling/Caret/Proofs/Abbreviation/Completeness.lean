import Caret.Proofs.Abbreviation.Passage

namespace Caret.Abbreviation

open Text

variable {kind : Kind} {line : Bytes} {start cursor i : Nat} {options : Options} {l a r : String}

theorem goBack_at_edge
    (h : ∀ k c, i = k + 1 → at? line k = some c →
      isAbbreviationChar c = false ∧ isClosing kind c = false) :
    goBack kind line 0 i [] = .ok (i, []) := by
  cases i with
  | zero => rfl
  | succ i =>
    cases hc : at? line i with
    | none => simp [goBack, hc]
    | some c =>
      obtain ⟨hplain, hclosing⟩ := h i c rfl hc
      refine goBack_of_none (Nat.zero_le i) hc ?_
      cases hopening : isOpening kind c <;> simp [step, hplain, hclosing, hopening]

theorem scan_of_goBack (options : Options) (hlook : options.lookAhead = false) (ha : a ≠ "")
    (hj : ∀ c ∈ a.toList.head?, isJoint c = false)
    (hw : WellBracketed options.kind none a.toList)
    (hl : limit? options (bytes (l ++ a ++ r)) ((bytes l).size + (bytes a).size) = some start)
    (hg : goBack options.kind (bytes (l ++ a ++ r)) start ((bytes l).size + (bytes a).size) [] =
      .ok ((bytes l).size, [])) :
    scan options (bytes (l ++ a ++ r)) ((bytes l).size + (bytes a).size) =
      .ok (some
        { abbreviation := a
          start := if options.word.isEmpty then (bytes l).size else start - options.word.length
          location := (bytes l).size
          stop := (bytes l).size + (bytes a).size }) := by
  have hbound : isBoundary (bytes (l ++ a ++ r)) ((bytes l).size + (bytes a).size) = true := by
    have h := isBoundary_append (l ++ a) r
    rwa [bytes_append l a, Array.size_append] at h
  have horigin : origin options (bytes (l ++ a ++ r)) ((bytes l).size + (bytes a).size) =
      (bytes l).size + (bytes a).size := by
    simp [origin, hlook, clamp_of_isBoundary hbound]
  obtain ⟨c, rest, hcr⟩ : ∃ c rest, a.toList = c :: rest := by
    cases hal : a.toList with
    | nil => exact absurd (String.toList_eq_nil_iff.mp hal) ha
    | cons c rest => exact ⟨c, rest, rfl⟩
  have hascii : c.toNat < 128 := by
    rw [hcr] at hw
    exact hw.head_ascii
  have hfirst : at? (bytes (l ++ a ++ r)) (bytes l).size = some c := by
    have hstands := stands_bytes l a r
    rw [hcr, encode_cons_of_lt hascii] at hstands
    exact hstands.head
  have hskip : skip isJoint (bytes (l ++ a ++ r)) ((bytes l).size + (bytes a).size)
      (bytes l).size = (bytes l).size := by
    refine skip_eq_self ?_
    rw [test_of_at? hfirst]
    exact hj c (by simp [hcr])
  have hsize : 0 < (bytes a).size := by
    rw [← length_encode, hcr, encode_cons_of_lt hascii]
    exact Nat.succ_pos _
  simp only [scan, horigin, hl, hg, hskip, read_bytes_append, List.isEmpty_nil, true_and]
  exact if_pos (Nat.lt_add_of_pos_right hsize)

theorem scan_complete (hw : WellBracketed kind none a.toList) (ha : a ≠ "")
    (hj : ∀ c ∈ a.toList.head?, isJoint c = false)
    (hl : ∀ c, at? (bytes l) ((bytes l).size - 1) = some c →
      isAbbreviationChar c = false ∧ isClosing kind c = false)
    (hlt : '<' ∉ l.toList) (hat : '<' ∉ a.toList) :
    scan { kind, lookAhead := false } (bytes (l ++ a ++ r)) ((bytes l).size + (bytes a).size) =
      .ok (some
        { abbreviation := a
          start := (bytes l).size
          location := (bytes l).size
          stop := (bytes l).size + (bytes a).size }) := by
  have hbefore {k : Nat} (hk : k < (bytes l).size + (bytes a).size) :
      at? (bytes (l ++ a ++ r)) k ≠ some '<' := by
    intro hc
    rw [bytes_append (l ++ a), at?_append_left (by simpa [bytes_append] using hk)] at hc
    have hmem := mem_of_at? (by decide) hc
    rw [String.toList_append] at hmem
    exact (List.mem_append.mp hmem).elim hlt hat
  have hedge : goBack kind (bytes (l ++ a ++ r)) 0 (bytes l).size [] =
      .ok ((bytes l).size, []) := by
    refine goBack_at_edge fun k c hk hc => hl c ?_
    rwa [bytes_append, bytes_append, Array.append_assoc, at?_append_left (by omega),
      ← Nat.sub_eq_of_eq_add hk] at hc
  have hback := goBack_wellBracketed (wellBracketed_encode.mpr hw)
    .outside (stands_bytes l a r) (Nat.zero_le _)
  rw [length_encode, hedge] at hback
  refine scan_of_goBack { kind, lookAhead := false } rfl ha hj hw rfl ?_
  rcases hback with hpass | ⟨-, u, v, hparts, -⟩
  · exact hpass
  · obtain ⟨-, k, hk, hc, -⟩ := endsTag_iff.mp hparts.ends
    have hlen := congrArg List.length hparts.eq
    rw [length_encode, List.length_append, List.length_cons] at hlen
    exact absurd hc (hbefore (by omega))

theorem scan_complete_braces :
    scan { kind := .markup, lookAhead := false } (bytes ("é (" ++ "p{ü)}*2" ++ "<b>"))
      ((bytes "é (").size + (bytes "p{ü)}*2").size) =
        .ok (some ⟨"p{ü)}*2", (bytes "é (").size, (bytes "é (").size,
          (bytes "é (").size + (bytes "p{ü)}*2").size⟩) := by
  have hinside : WellBracketed .markup (some '}') ['ü', ')'] := .plain rfl (.plain rfl .nil)
  have hrest : WellBracketed .markup none ['*', '2'] := .plain rfl (.plain rfl .nil)
  have hw : WellBracketed .markup none "p{ü)}*2".toList :=
    .plain rfl (.group rfl rfl (by simp) hinside hrest)
  have hlast : at? (bytes "é (") ((bytes "é (").size - 1) = some '(' := by
    with_unfolding_all rfl
  refine scan_complete hw (by decide) (by simp [isJoint]) (fun c hc => ?_) (by decide) (by decide)
  obtain rfl := Option.some.inj (hlast.symm.trans hc)
  decide

end Caret.Abbreviation
