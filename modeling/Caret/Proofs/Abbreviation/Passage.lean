import Caret.Proofs.Abbreviation.Scan
import Caret.Proofs.Abbreviation.TagEnd

namespace Caret.Abbreviation

open Text

variable {kind : Kind} {line : Bytes} {start cursor i : Nat} {within : Option Char}
  {groups more text u v : List Char} {opening closing c : Char} {a x y : String}

/-- The groups that wait for their opening brackets where text of a kind of place stands. -/
inductive Waiting (kind : Kind) : Option Char → List Char → Prop
  | outside : Waiting kind none []
  | inside {closing : Char} {groups : List Char} (hc : isClosing kind closing = true)
      (hb : '}' ∈ groups → closing = '}') : Waiting kind (some closing) (closing :: groups)

theorem Waiting.eq_brace (h : Waiting kind within groups) (hm : '}' ∈ groups) :
    within = some '}' := by
  cases h with
  | outside => simp at hm
  | inside hc hb =>
    rcases List.mem_cons.mp hm with rfl | hm
    · rfl
    · rw [hb hm]

theorem not_bracket_of_isAbbreviationChar (kind : Kind) (h : isAbbreviationChar c = true) :
    isClosing kind c = false ∧ isOpening kind c = false := by
  have hne (d : Char) (hd : isAbbreviationChar d = false) : (c == d) = false := by
    refine beq_false_of_ne ?_
    rintro rfl
    simp [h] at hd
  simp [isClosing, isOpening, hne '(' rfl, hne ')' rfl, hne '[' rfl, hne ']' rfl, hne '{' rfl,
    hne '}' rfl]

theorem step_plain (hw : Waiting kind within groups) (hc : isPlain kind within c = true)
    (ht : within = none → endsTag line (i + 1) = false) :
    step kind line groups i c = .ok (some groups) := by
  cases hw with
  | outside =>
    have hc' : isAbbreviationChar c = true := hc
    obtain ⟨hclosing, hopening⟩ := not_bracket_of_isAbbreviationChar kind hc'
    simp [step, hclosing, hopening, ht rfl, hc']
  | @inside closing groups hcl hb =>
    by_cases he : closing = '}'
    · subst he
      obtain ⟨hopen, hclose⟩ : c ≠ '{' ∧ c ≠ '}' := by simpa [isPlain] using hc
      simp [step, hopen, hclose]
    · rw [isPlain_some he] at hc
      obtain ⟨hopening, hclosing⟩ : isOpening kind c = false ∧ isClosing kind c = false := by
        simpa using hc
      have hm : (closing :: groups).contains '}' = false := by
        simp only [List.contains_eq_mem, decide_eq_false_iff_not, List.mem_cons, not_or]
        exact ⟨fun h => he h.symm, fun h => he (hb h)⟩
      have hin : ((closing :: groups).contains ']' || (closing :: groups).contains ')') = true := by
        rcases isClosing_cases hcl with rfl | rfl | rfl
        · simp
        · simp
        · contradiction
      simp only [step, hm, hclosing, hopening, hin, Bool.false_and, Bool.false_eq_true, if_false,
        if_true]

theorem step_closing (hc : isClosing kind closing = true) (hb : '}' ∈ groups → closing = '}') :
    step kind line groups i closing = .ok (some (closing :: groups)) := by
  by_cases hm : '}' ∈ groups
  · obtain rfl := hb hm
    simp [step, hm]
  · simp [step, hm, hc]

theorem step_opening (hc : isClosing kind closing = true) (hp : partner closing = some opening)
    (hb : '}' ∈ groups → closing = '}') :
    step kind line (closing :: groups) i opening = .ok (some groups) := by
  have hshape : opening ≠ '}' ∧ isClosing kind opening = false ∧ isOpening kind opening = true := by
    simp only [isClosing, Bool.or_eq_true, Bool.and_eq_true, beq_iff_eq] at hc
    rcases partner_cases hp with ⟨rfl, rfl⟩ | ⟨rfl, rfl⟩ | ⟨rfl, rfl⟩ <;>
      simp_all [isClosing, isOpening]
  have htext : ((closing :: groups).contains '}' && opening != '{') = false := by
    rcases partner_cases hp with ⟨rfl, rfl⟩ | ⟨rfl, rfl⟩ | ⟨rfl, rfl⟩
    · simpa using fun h => absurd (hb h) (by decide)
    · simpa using fun h => absurd (hb h) (by decide)
    · simp
  simp only [step, htext, hshape, hp, beq_false_of_ne hshape.1, Bool.and_false, Bool.false_eq_true,
    if_false, if_true]

theorem goBack_start : goBack kind line start start groups = .ok (start, groups) := by
  cases start with
  | zero => rfl
  | succ start => exact if_pos (Nat.lt_succ_self start)

theorem goBack_of_some (hs : start ≤ i) (hc : at? line i = some c)
    (h : step kind line groups i c = .ok (some more)) :
    goBack kind line start (i + 1) groups = goBack kind line start i more := by
  rw [goBack, if_neg (Nat.not_lt_of_le hs)]
  simp only [hc, h]

theorem goBack_of_none (hs : start ≤ i) (hc : at? line i = some c)
    (h : step kind line groups i c = .ok none) :
    goBack kind line start (i + 1) groups = .ok (i + 1, groups) := by
  rw [goBack, if_neg (Nat.not_lt_of_le hs)]
  simp only [hc, h]

theorem goBack_of_endsTag (hs : start ≤ i) (h : endsTag line (i + 1) = true)
    (hc : at? line i = some c) : goBack kind line start (i + 1) [] = .ok (i + 1, []) := by
  obtain rfl := eq_of_endsTag h hc
  refine goBack_of_none hs hc ?_
  cases kind <;> simp [step, isClosing, isOpening, h]

structure Parts (kind : Kind) (line : Bytes) (i : Nat) (text u v : List Char) : Prop where
  eq : text = u ++ '>' :: v
  before : WellBracketed kind none u
  behind : WellBracketed kind none v
  ends : endsTag line (i + u.length + 1) = true

theorem Parts.cons (h : Parts kind line (i + 1) text u v) (hc : isPlain kind none c = true) :
    Parts kind line i (c :: text) (c :: u) v where
  eq := by rw [h.eq, List.cons_append]
  before := .plain hc h.before
  behind := h.behind
  ends := by
    have hlen : i + (c :: u).length = i + 1 + u.length := by
      simp only [List.length_cons]
      omega
    rw [hlen]
    exact h.ends

theorem Parts.group {inside : List Char} {k : Nat} (h : Parts kind line (k + 1) text u v)
    (hk : k = i + 1 + inside.length) (hc : isClosing kind closing = true)
    (hp : partner closing = some opening) (hi : WellBracketed kind (some closing) inside) :
    Parts kind line i (opening :: (inside ++ closing :: text)) (opening :: (inside ++ closing :: u))
      v where
  eq := by simp [h.eq]
  before := .group hc hp (by simp) hi h.before
  behind := h.behind
  ends := by
    have hlen : i + (opening :: (inside ++ closing :: u)).length = k + 1 + u.length := by
      simp only [List.length_cons, List.length_append]
      omega
    rw [hlen]
    exact h.ends

theorem goBack_wellBracketed (h : WellBracketed kind within text) (hw : Waiting kind within groups)
    (ht : Stands line i text) (hs : start ≤ i) :
    goBack kind line start (i + text.length) groups = goBack kind line start i groups ∨
      within = none ∧ ∃ u v, Parts kind line i text u v ∧
        goBack kind line start (i + text.length) groups = .ok (i + u.length + 1, groups) := by
  -- the scan comes from the end of the text, so the rest is passed before what stands in front of it
  induction h generalizing groups i with
  | nil => exact .inl rfl
  | @plain within c rest hc hr ih =>
    have hlen : i + (c :: rest).length = i + 1 + rest.length := by
      simp only [List.length_cons]
      omega
    rw [hlen]
    rcases ih hw ht.tail (Nat.le_succ_of_le hs) with hpass | ⟨rfl, u, v, hparts, hstop⟩
    · rw [hpass]
      by_cases htag : within = none ∧ endsTag line (i + 1) = true
      · obtain ⟨rfl, htag⟩ := htag
        obtain rfl := eq_of_endsTag htag ht.head
        cases hw
        exact .inr ⟨rfl, [], rest, ⟨rfl, .nil, hr, htag⟩, goBack_of_endsTag hs htag ht.head⟩
      · refine .inl (goBack_of_some hs ht.head (step_plain hw hc fun hn => ?_))
        simpa [hn] using htag
    · refine .inr ⟨rfl, c :: u, v, hparts.cons hc, ?_⟩
      rw [hstop, List.length_cons]
      congr 2
      omega
  | @group within opening closing inside rest hc hp hb hi hr ihi ihr =>
    have hlen : i + (opening :: (inside ++ closing :: rest)).length =
        i + 1 + inside.length + 1 + rest.length := by
      simp only [List.length_cons, List.length_append]
      omega
    have hbrace : '}' ∈ groups → closing = '}' := fun hm => hb (hw.eq_brace hm)
    have hafter := ht.tail.right
    rw [hlen]
    rcases ihr hw hafter.tail (by omega) with hpass | ⟨rfl, u, v, hparts, hstop⟩
    · -- the closing bracket adds a group, which the opening one takes away
      have hin := ihi (.inside hc hbrace) ht.tail.left (Nat.le_succ_of_le hs)
      simp only [reduceCtorEq, false_and, or_false] at hin
      rw [hpass, goBack_of_some (by omega) hafter.head (step_closing hc hbrace), hin]
      exact .inl (goBack_of_some hs ht.head (step_opening hc hp hbrace))
    · refine .inr ⟨rfl, _, v, hparts.group rfl hc hp hi, ?_⟩
      rw [hstop]
      simp only [List.length_cons, List.length_append]
      congr 2
      omega

theorem encode_parts (x y : String) :
    encode (x ++ ">" ++ y).toList = encode x.toList ++ '>' :: encode y.toList := by
  rw [String.toList_append, String.toList_append, encode_append, encode_append, List.append_assoc]
  rfl

theorem Parts.exists_append (h : Parts kind line i (encode a.toList) u v) :
    ∃ x y : String, a = x ++ ">" ++ y ∧ u.length = (bytes x).size ∧
      WellBracketed kind none x.toList ∧ WellBracketed kind none y.toList ∧
      endsTag line (i + (bytes x).size + 1) = true := by
  obtain ⟨l₁, l₂, hl, rfl, rfl⟩ := encode_eq_append_cons (by decide) h.eq
  have hlen := length_encode (String.ofList l₁)
  rw [String.toList_ofList] at hlen
  refine ⟨.ofList l₁, .ofList l₂, ?_, hlen, ?_, ?_, hlen ▸ h.ends⟩
  · apply String.toList_inj.mp
    simp [hl]
  · rw [String.toList_ofList]
    exact wellBracketed_encode.mp h.before
  · rw [String.toList_ofList]
    exact wellBracketed_encode.mp h.behind

theorem le_of_goBack (ht : Stands line i (encode a.toList)) (ha : a = x ++ ">" ++ y)
    (hy : WellBracketed kind none y.toList)
    (htag : endsTag line (i + (bytes x).size + 1) = true) (hs : start ≤ i)
    (hg : goBack kind line start (i + (bytes a).size) [] = .ok (cursor, groups)) :
    i + (bytes x).size + 1 ≤ cursor := by
  subst ha
  rw [encode_parts] at ht
  have hbehind := ht.right
  rw [length_encode] at hbehind
  have hstop : i + (bytes (x ++ ">" ++ y)).size =
      i + (bytes x).size + 1 + (encode y.toList).length := by
    rw [length_encode, bytes_append, bytes_append, Array.size_append, Array.size_append]
    exact (Nat.add_assoc ..).symm.trans (by rw [← Nat.add_assoc]; rfl)
  rw [hstop] at hg
  have hle : start ≤ i + (bytes x).size + 1 := by omega
  rcases goBack_wellBracketed (wellBracketed_encode.mpr hy) .outside hbehind.tail hle with
    hpass | ⟨-, u, v, -, hrest⟩
  · rw [hpass, goBack_of_endsTag (by omega) htag hbehind.head] at hg
    exact Nat.le_of_eq (Prod.mk.inj (Except.ok.inj hg)).1
  · rw [hrest] at hg
    have := (Prod.mk.inj (Except.ok.inj hg)).1
    omega

end Caret.Abbreviation
