import Caret.Proofs.Abbreviation.Completeness
import Caret.Proofs.Abbreviation.Initial
import Caret.Proofs.Markup.Terminator
import Caret.Proofs.Text.Written

namespace Caret.Abbreviation

open Text Markup

variable {kind : Kind} {line : Bytes} {i cursor p e : Nat} {groups more : List Char} {c : Char}
  {t a : String}

section texts

def EndsInTag (t : String) : Prop :=
  ∃ l inside : String, t = l ++ "<" ++ inside ++ ">" ∧ '<' ∉ inside.toList ∧ '>' ∉ inside.toList ∧
    isTagInside inside.toList = true

theorem endsTag_append {l inside : String} (hlt : '<' ∉ inside.toList) :
    endsTag (bytes (l ++ "<" ++ inside ++ ">")) (bytes (l ++ "<" ++ inside ++ ">")).size = true ↔
      '>' ∉ inside.toList ∧ isTagInside inside.toList = true := by
  have hlen : (bytes (l ++ "<")).size = (bytes l).size + 1 := size_bytes_append l "<"
  have hsize : (bytes (l ++ "<" ++ inside ++ ">")).size =
      (bytes l).size + 1 + (bytes inside).size + 1 := by
    rw [size_bytes_append, size_bytes_append, hlen]
    rfl
  have hwritten := written_self (l ++ "<" ++ inside ++ ">")
  simp only [written_append, Nat.zero_add, hlen, size_bytes_append (l ++ "<")] at hwritten
  obtain ⟨⟨⟨-, hbegin⟩, hinside⟩, hend⟩ := hwritten
  have hread := read_bytes_append (l ++ "<") inside ">"
  rw [hlen] at hread
  rw [hsize]
  exact endsTag_behind (hbegin.at? rfl (by decide)) hinside (hend.at? rfl (by decide)) hread hlt

theorem endsTag_bytes_iff : endsTag (bytes t) (bytes t).size = true ↔ EndsInTag t := by
  constructor
  · intro h
    have hne : t ≠ "" := by
      rintro rfl
      simp [endsTag, bytes_empty, test, at?] at h
    obtain ⟨front, d, rfl⟩ := exists_append_singleton hne
    obtain rfl : d = '>' := by
      have hend := test_append_singleton (p := (· == '>'))
        (fun c hc => by rw [eq_of_beq hc]; decide) front d
      simp only [endsTag, hend, Bool.and_eq_true, beq_iff_eq] at h
      exact h.1.1.1
    have htag := h
    rw [size_bytes_append, size_bytes_singleton (by decide)] at htag
    obtain ⟨-, k, hk, hbegin, hbetween, -⟩ := endsTag_iff.mp htag
    rw [bytes_append, at?_append_left hk] at hbegin
    obtain ⟨l, inside, rfl, rfl⟩ := exists_append_of_at? (by decide) hbegin
    have hlt : '<' ∉ inside.toList := by
      intro hmem
      obtain ⟨j, hj, hat⟩ := (stands_bytes (l ++ .singleton '<') inside (.singleton '>')).exists_of_mem
        ((mem_encode (by decide)).mpr hmem)
      have hlen := size_bytes_singleton (c := '<') (by decide)
      rw [length_encode] at hj
      simp only [size_bytes_append, hlen] at hat hbetween
      have htest := hbetween ((bytes l).size + 1 + j) (by omega) (by omega)
      rw [test_of_at? hat] at htest
      contradiction
    exact ⟨l, inside, rfl, hlt, (endsTag_append hlt).mp h⟩
  · rintro ⟨l, inside, rfl, hlt, hgt, hinside⟩
    exact (endsTag_append hlt).mpr ⟨hgt, hinside⟩

theorem EndsInTag.exists_append (h : EndsInTag t) : ∃ x, x ≠ "" ∧ t = x ++ ">" := by
  obtain ⟨l, inside, rfl, -⟩ := h
  exact ⟨l ++ "<" ++ inside, by simp, rfl⟩

def EndsOutside (kind : Kind) (t : String) : Prop :=
  ∃ l c, t = l ++ .singleton c ∧ isAbbreviationChar c = false ∧ isClosing kind c = false

end texts

section rest

theorem step_nil_eq_none (h : step kind line [] i c = .ok none) : isClosing kind c = false ∧
    (endsTag line (i + 1) = true ∨ isAbbreviationChar c = false) := by
  cases hclosing : isClosing kind c with
  | true => simp [step, hclosing] at h
  | false =>
    refine ⟨rfl, ?_⟩
    cases hplain : isAbbreviationChar c with
    | false => exact .inr rfl
    | true =>
      have hopening := (not_bracket_of_isAbbreviationChar kind hplain).2
      simpa [step, hclosing, hopening, hplain] using h

theorem goBack_rests (hi : i ≤ line.size) (h : goBack kind line 0 i groups = .ok (cursor, more)) :
    cursor ≤ i ∧ (cursor = 0 ∨ ∃ c, at? line (cursor - 1) = some c ∧
      step kind line more (cursor - 1) c = .ok none) := by
  induction i generalizing groups with
  | zero =>
    obtain ⟨rfl, -⟩ := Prod.mk.inj (Except.ok.inj h)
    exact ⟨Nat.le_refl 0, .inl rfl⟩
  | succ i ih =>
    obtain ⟨c, hc⟩ := at?_of_lt hi
    rw [goBack, if_neg (Nat.not_lt_zero i)] at h
    simp only [hc] at h
    split at h
    · simp at h
    · next hstep =>
      obtain ⟨rfl, rfl⟩ := Prod.mk.inj (Except.ok.inj h)
      exact ⟨Nat.le_refl _, .inr ⟨c, hc, hstep⟩⟩
    · obtain ⟨hle, hrest⟩ := ih (Nat.le_of_succ_le hi) h
      exact ⟨Nat.le_succ_of_le hle, hrest⟩

/-- A text that the way back comes to rest behind. -/
inductive Barrier (kind : Kind) (t : String) : Prop
  | empty (h : t = "")
  | tag (h : EndsInTag t)
  | outside (h : EndsOutside kind t)

theorem Barrier.goBack_eq {l : String} (h : Barrier kind l) (r : String) :
    goBack kind (bytes (l ++ r)) 0 (bytes l).size [] = .ok ((bytes l).size, []) := by
  rw [goBack_initial (partAt_append l r) (Nat.le_refl _)]
  cases h with
  | empty h =>
    subst h
    rfl
  | tag h =>
    have htag := endsTag_bytes_iff.mpr h
    obtain ⟨x, -, rfl⟩ := h.exists_append
    have hsize : (bytes (x ++ ">")).size = (bytes x).size + 1 := size_bytes_append x ">"
    have hend := written_right x ">"
    rw [hsize] at htag ⊢
    exact goBack_of_endsTag (Nat.zero_le _) htag (hend.at? rfl (by decide))
  | outside h =>
    obtain ⟨front, c, rfl, hplain, hclosing⟩ := h
    refine goBack_at_edge fun k d hk hd => ?_
    obtain rfl : k = (bytes (front ++ .singleton c)).size - 1 := (Nat.sub_eq_of_eq_add hk).symm
    have hlast {p : Char → Bool} (hp : ∀ c, p c = true → c.toNat < 128) : p d = p c :=
      (test_of_at? hd).symm.trans (test_append_singleton hp front c)
    rw [hlast fun _ => isAbbreviationChar_ascii, hlast fun _ => isClosing_ascii]
    exact ⟨hplain, hclosing⟩

theorem barrier_of_step {l r : String} {d : Char}
    (hd : at? (bytes (l ++ r)) ((bytes l).size - 1) = some d)
    (hstep : step kind (bytes (l ++ r)) [] ((bytes l).size - 1) d = .ok none) : Barrier kind l := by
  by_cases hl : l = ""
  · exact .empty hl
  have hpos := size_bytes_pos hl
  have hlt : (bytes l).size - 1 < (bytes l).size := Nat.sub_one_lt_of_lt hpos
  obtain ⟨hclosing, hrest⟩ := step_nil_eq_none hstep
  rw [bytes_append, at?_append_left hlt] at hd
  rcases hrest with htag | hplain
  · rw [endsTag_initial (partAt_append l r) hlt, Nat.sub_add_cancel hpos] at htag
    exact .tag (endsTag_bytes_iff.mp htag)
  · obtain ⟨front, c, rfl⟩ := exists_append_singleton hl
    refine .outside ⟨front, c, rfl, ?_, ?_⟩
    · rw [← test_append_singleton (fun _ => isAbbreviationChar_ascii), test_of_at? hd, hplain]
    · rw [← test_append_singleton (fun _ => isClosing_ascii), test_of_at? hd, hclosing]

theorem goBack_joints_iff : (∃ cursor, goBack kind (bytes t) 0 (bytes t).size [] = .ok (cursor, []) ∧
      ∀ k, cursor ≤ k → k < (bytes t).size → test isJoint (bytes t) k = true) ↔
    ∃ l joints : String, t = l ++ joints ∧ (∀ c ∈ joints.toList, isJoint c = true) ∧
      Barrier kind l := by
  constructor
  · rintro ⟨cursor, hg, hjoints⟩
    obtain ⟨hle, hrest⟩ := goBack_rests (Nat.le_refl _) hg
    have hbound : isBoundary (bytes t) cursor = true := by
      rcases Nat.lt_or_eq_of_le hle with hlt | rfl
      · obtain ⟨c, hc, hj⟩ := test_iff.mp (hjoints cursor (Nat.le_refl _) hlt)
        exact (isBoundary_of_at? hc (isJoint_ascii hj)).1
      · exact isBoundary_size _
    obtain ⟨l, joints, rfl, rfl⟩ := isBoundary_bytes.mp hbound
    rw [size_bytes_append, ← (written_right l joints).forall_iff fun _ => isJoint_ascii] at hjoints
    refine ⟨l, joints, rfl, hjoints, ?_⟩
    rcases hrest with hzero | ⟨d, hd, hstep⟩
    · exact .empty (size_bytes_eq_zero.mp hzero)
    · exact barrier_of_step hd hstep
  · rintro ⟨l, joints, rfl, hj, hl⟩
    have hwritten := written_right l joints
    have htest := (hwritten.forall_iff fun _ => isJoint_ascii).mp hj
    have hplain : WellBracketed kind none joints.toList :=
      .of_forall fun c hc => isPlain_of_isJoint (hj c hc)
    have hback := goBack_wellBracketed (wellBracketed_encode.mpr hplain) .outside hwritten
      (Nat.zero_le _)
    rw [length_encode, ← size_bytes_append, hl.goBack_eq] at hback
    rw [size_bytes_append] at hback ⊢
    rcases hback with hpass | ⟨-, u, v, -, hstop⟩
    · exact ⟨_, hpass, htest⟩
    · exact ⟨_, hstop, fun k hk => htest k (by omega)⟩

end rest

section scan

variable {lookAhead : Bool}

theorem not_isJoint_of_isAlphanum (h : c.isAlphanum = true) : isJoint c = false := by
  refine Bool.eq_false_iff.mpr fun hj => ?_
  simp only [isJoint, Bool.or_eq_true, beq_iff_eq] at hj
  rcases hj with ((rfl | rfl) | rfl) | rfl <;> simp at h

theorem goBack_alphanum (hal : ∀ c ∈ a.toList, c.isAlphanum = true) :
    goBack kind (bytes (t ++ a)) 0 (bytes (t ++ a)).size [] =
      goBack kind (bytes t) 0 (bytes t).size [] := by
  have hplain : WellBracketed kind none a.toList := .of_forall fun c hc => by
    simp [isPlain, isAbbreviationChar, hal c hc]
  have hback := goBack_wellBracketed (wellBracketed_encode.mpr hplain) .outside
    (written_right t a) (Nat.zero_le _)
  rw [length_encode, ← size_bytes_append] at hback
  rcases hback with hpass | ⟨-, u, v, hparts, -⟩
  · rw [hpass, goBack_initial (partAt_append t a) (Nat.le_refl _)]
  · obtain ⟨x, y, rfl, -⟩ := hparts.exists_append
    have hgt := hal '>' (by simp)
    contradiction

theorem scan_behind_iff (ha : a ≠ "") (hal : ∀ c ∈ a.toList, c.isAlphanum = true) :
    scan { kind, lookAhead } (bytes (t ++ a)) (bytes (t ++ a)).size =
        .ok (some ⟨a, (bytes t).size, (bytes t).size, (bytes (t ++ a)).size⟩) ↔
      ∃ l joints : String, t = l ++ joints ∧ (∀ c ∈ joints.toList, isJoint c = true) ∧
        Barrier kind l := by
  have hpart := partAt_append t a
  have htest {k : Nat} (hk : k < (bytes t).size) :
      test isJoint (bytes (t ++ a)) k = test isJoint (bytes t) k := hpart.test_add hk
  rw [← goBack_joints_iff]
  constructor
  · intro h
    obtain ⟨start, cursor, hlimit, hg, -, hlocation, -⟩ := scan_eq_some h
    obtain rfl : 0 = start := Option.some.inj hlimit
    rw [origin_size] at hg
    refine ⟨cursor, (goBack_alphanum hal).symm.trans hg, fun k hk hlt => ?_⟩
    rw [← htest hlt]
    exact test_of_lt_skip hk (Nat.lt_of_lt_of_eq hlt hlocation)
  · rintro ⟨cursor, hg, hjoints⟩
    have hle := (goBack_rests (Nat.le_refl _) hg).1
    obtain ⟨c, hc⟩ : ∃ c, a.toList.head? = some c := by
      cases hl : a.toList with
      | nil => exact absurd (String.toList_eq_nil_iff.mp hl) ha
      | cons c rest => exact ⟨c, rfl⟩
    have hwritten := written_right t a
    have hfirst : test isJoint (bytes (t ++ a)) (bytes t).size = false :=
      (hwritten.test_first (fun _ => isJoint_ascii) hc).trans
        (not_isJoint_of_isAlphanum (hal c (List.mem_of_mem_head? hc)))
    have hskip : skip isJoint (bytes (t ++ a)) (bytes (t ++ a)).size cursor = (bytes t).size :=
      skip_eq hle hpart.size (fun k hk hlt => (htest hlt).trans (hjoints k hk hlt)) fun _ => hfirst
    have hread := hwritten.read_eq
    rw [← size_bytes_append] at hread
    have hlt : (bytes t).size < (bytes (t ++ a)).size := by
      rw [size_bytes_append]
      exact Nat.lt_add_of_pos_right (size_bytes_pos ha)
    have hlimit : limit? { kind, lookAhead } (bytes (t ++ a)) (bytes (t ++ a)).size = some 0 := rfl
    rw [← goBack_alphanum (a := a) hal] at hg
    simp only [scan, origin_size, hlimit, hg, hskip, hread]
    exact if_pos ⟨rfl, hlt⟩

end scan

section tags

theorem not_isJoint_of_closesValue (h : closesValue c = true) : isJoint c = false := by
  simp only [closesValue, Bool.or_eq_true, isQuote_iff, beq_iff_eq] at h
  rcases h with (rfl | rfl) | rfl <;> rfl

theorem last_of_joints {closed : Bool} (h : openingEnd? line i = some (e, closed)) (hip : i ≤ p)
    (hpe : p < e) (hp : at? line p = some '>')
    (hj : ∀ k, p ≤ k → k < e → test isJoint line k = true) : p + 1 = e := by
  obtain ⟨-, hlt, hle, hat⟩ := openingEnd?_spec h
  have hsize := (openingEnd?_bounds h).2
  rcases Nat.lt_or_ge p (terminatorOf e closed) with hbefore | hend
  · rcases openingEnd?_visits h hip hbefore with hvisit | ⟨q, -, hqp, hbegins, hin, hclosed⟩
    · have hends : openingEnd? line p = some (p + 1, false) := by
        rw [openingEnd?, if_pos (lt_size_of_at? hp), if_pos (by rw [test_of_at? hp]; rfl)]
      exact (Prod.mk.inj (Option.some.inj (hends.symm.trans hvisit))).1
    · -- a value with the bracket in it would be closed behind it, where only joints stand
      obtain ⟨-, hcloses⟩ := valueEnd_spec hbegins (by omega)
      obtain ⟨c, hc, hclosesValue⟩ := test_iff.mp hcloses
      have hjoint := hj (valueEnd line q - 1) (by omega) (by omega)
      rw [test_of_at? hc, not_isJoint_of_closesValue hclosesValue] at hjoint
      contradiction
  · cases closed with
    | false =>
      simp only [terminatorOf, Bool.false_eq_true, if_false] at hend
      omega
    | true =>
      have hne : p ≠ terminatorOf e true := by
        rintro rfl
        rw [hp] at hat
        contradiction
      omega

theorem joints_eq_empty {joints : String} {closed : Bool}
    (h : openingEnd? (bytes (t ++ joints)) (nameEnd (bytes (t ++ joints)) 1) =
      some ((bytes (t ++ joints)).size, closed))
    (ht : EndsInTag t) (hj : ∀ c ∈ joints.toList, isJoint c = true) : joints = "" := by
  obtain ⟨x, hx, rfl⟩ := ht.exists_append
  have hwritten := written_right x (">" ++ joints)
  rw [← String.append_assoc] at hwritten
  have hgt : at? (bytes (x ++ ">" ++ joints)) (bytes x).size = some '>' :=
    (written_bytes x ">" joints).at? rfl (by decide)
  have hname : nameEnd (bytes (x ++ ">" ++ joints)) 1 ≤ (bytes x).size :=
    skip_le_of_not (size_bytes_pos hx) (by rw [test_of_at? hgt]; rfl)
  have hsize : (bytes (x ++ ">" ++ joints)).size = (bytes x).size + (bytes (">" ++ joints)).size := by
    rw [String.append_assoc, size_bytes_append]
  have hsize' : (bytes (">" ++ joints)).size = 1 + (bytes joints).size := size_bytes_append ">" joints
  have hjoint : ∀ c ∈ (">" ++ joints).toList, isJoint c = true := by
    rw [String.toList_append]
    exact List.forall_mem_cons.mpr ⟨rfl, hj⟩
  have htest := (hwritten.forall_iff fun _ => isJoint_ascii).mp hjoint
  rw [← hsize] at htest
  have hlast := last_of_joints h hname (by omega) hgt htest
  exact size_bytes_eq_zero.mp (by omega)

/-- Letters and digits behind an opening tag are found alone exactly if the nearest angle brackets
hold a tag, or else the tag ends, but for joints, in a character outside of abbreviations. -/
theorem scan_behind_tag_iff {xml lookAhead : Bool} {tag : Tag} (ht : tag ∈ tags (bytes t) xml)
    (hk : tag.kind ≠ .closing) (hspan : tag.span = ⟨0, (bytes t).size⟩) (ha : a ≠ "")
    (hal : ∀ c ∈ a.toList, c.isAlphanum = true) :
    scan { kind, lookAhead } (bytes (t ++ a)) (bytes (t ++ a)).size =
        .ok (some ⟨a, (bytes t).size, (bytes t).size, (bytes (t ++ a)).size⟩) ↔
      EndsInTag t ∨ ∃ l joints : String, t = l ++ joints ∧
        (∀ c ∈ joints.toList, isJoint c = true) ∧ EndsOutside kind l := by
  obtain ⟨closed, hopening, -⟩ := exists_openingEnd? ht hk
  obtain ⟨hfirst, -⟩ := at?_edges ht hk
  simp only [hspan] at hopening hfirst
  rw [scan_behind_iff ha hal]
  constructor
  · rintro ⟨l, joints, rfl, hj, hl⟩
    cases hl with
    | empty h =>
      subst h
      rw [String.empty_append] at hfirst
      have hjoint := hj '<' (mem_of_at? (by decide) hfirst)
      contradiction
    | tag h =>
      obtain rfl := joints_eq_empty hopening h hj
      rw [String.append_empty]
      exact .inl h
    | outside h => exact .inr ⟨l, joints, rfl, hj, h⟩
  · rintro (h | ⟨l, joints, rfl, hj, h⟩)
    · exact ⟨t, "", by rw [String.append_empty], by simp, .tag h⟩
    · exact ⟨l, joints, rfl, hj, .outside h⟩

theorem scan_behind_tag_quoted :
    tags (bytes "<a title=\"é\">") false = [⟨"a", .opening, ⟨0, 14⟩⟩] ∧
      scan {} (bytes ("<a title=\"é\">" ++ "p2")) (bytes ("<a title=\"é\">" ++ "p2")).size =
        .ok (some ⟨"p2", 14, 14, 16⟩) := by
  have htags : tags (bytes "<a title=\"é\">") false = [⟨"a", .opening, ⟨0, 14⟩⟩] := by
    decide +kernel
  have ht : (⟨"a", .opening, ⟨0, 14⟩⟩ : Tag) ∈ tags (bytes "<a title=\"é\">") false := by
    rw [htags]
    exact List.mem_singleton_self _
  have hends : EndsInTag "<a title=\"é\">" :=
    ⟨"", "a title=\"é\"", by decide, by decide, by decide, by decide⟩
  exact ⟨htags, (scan_behind_tag_iff ht (by decide) (by decide) (by decide) (by simp)).mpr
    (.inl hends)⟩

/-- The scan stops at white space in the tag, since the nearest angle brackets before the cursor are
the one in quotes and the last. -/
theorem scan_not_behind_tag :
    tags (bytes "<a title=\"x > y\" disabled>") false = [⟨"a", .opening, ⟨0, 26⟩⟩] ∧
      (bytes "<a title=\"x > y\" disabled>").size = 26 ∧
      scan {} (bytes ("<a title=\"x > y\" disabled>" ++ "p")) 27 =
        .ok (some ⟨"disabled>p", 17, 17, 27⟩) := by
  refine ⟨by decide +kernel, by decide +kernel, ?_⟩
  with_unfolding_all rfl

end tags

end Caret.Abbreviation
