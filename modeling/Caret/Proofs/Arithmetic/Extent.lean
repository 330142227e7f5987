import Caret.Proofs.Arithmetic.Evaluation

namespace Caret.Arithmetic

open Text

variable {line : Bytes} {i cursor depth : Nat} {c : Char}

def Begins (line : Bytes) (i : Nat) : Prop := 0 < i → test isNumberChar line (i - 1) = false

theorem Begins.of_at? (h : at? line i = some c) (hc : isNumberChar c = false) :
    Begins line (i + 1) := by
  intro _
  rw [Nat.add_sub_cancel, test_of_at? h, hc]

theorem Begins.of_gap (g : Gap) (h : Written line i g.text) (hb : Begins line i) :
    Begins line (i + (bytes g.text).size) := by
  rcases Nat.eq_zero_or_pos (bytes g.text).size with h0 | hpos
  · rwa [h0]
  · intro _
    obtain ⟨c, hc, hs⟩ := test_iff.mp (g.test h (k := i + (bytes g.text).size - 1)
      (by omega) (by omega))
    rw [test_of_at? hc, not_isNumberChar_of_isSpace hs]

theorem not_isDigit_of_not_isNumberChar (h : test isNumberChar line i = false) :
    test Char.isDigit line i = false ∧ test (· == '.') line i = false := by
  refine ⟨Bool.eq_false_iff.mpr fun ht => ?_, Bool.eq_false_iff.mpr fun ht => ?_⟩
  all_goals
    obtain ⟨c, hc, hp⟩ := test_iff.mp ht
    rw [test_of_at? hc, isNumberChar, hp] at h
    simp at h

section numbers

theorem numberStart_of_not_isDigit (h : test Char.isDigit line i = false) :
    numberStart line (i + 1) = i + 1 := by
  have hskip : skipBack Char.isDigit line 0 (i + 1) = i + 1 := if_neg (by simp [h])
  simp [numberStart, hskip]

theorem Stretch.skipBack_digits (s : Stretch Char.isDigit) (h : Written line i s.text)
    (hi : 0 < i → test Char.isDigit line (i - 1) = false) :
    skipBack Char.isDigit line 0 (i + (bytes s.text).size) = i :=
  skipBack_eq (Nat.le_add_right ..)
    (fun _ hik hk => h.test ((forall_encode_iff fun _ => isDigit_ascii).mpr s.all) hik hk) hi

theorem Literal.numberStart_eq (l : Literal) (h : Written line i l.text) (hb : Begins line i) :
    numberStart line (i + (bytes l.text).size) = i := by
  have hbefore (hi : 0 < i) := not_isDigit_of_not_isNumberChar (hb hi)
  cases l with
  | integer digits =>
    have hskip := Stretch.skipBack_digits digits.toStretch h fun hi => (hbefore hi).1
    simp only [Literal.text, numberStart, hskip]
    refine if_neg ?_
    rintro ⟨hi, -, hdot⟩
    simp [(hbefore hi).2] at hdot
  | decimal whole decimals =>
    simp only [Literal.text, written_append, written_singleton (c := '.') (by decide),
      size_bytes_append, size_bytes_singleton (c := '.') (by decide), ← Nat.add_assoc] at h ⊢
    obtain ⟨⟨hwhole, hdot⟩, hdecimals⟩ := h
    have hpos := size_bytes_pos decimals.nonempty
    have hafter := Stretch.skipBack_digits decimals.toStretch hdecimals fun _ => by
      rw [Nat.add_sub_cancel, test_of_at? hdot]
      rfl
    have hstart := Stretch.skipBack_digits whole hwhole fun hi => (hbefore hi).1
    simp only [numberStart, hafter, Nat.add_sub_cancel, hstart]
    refine if_pos ⟨Nat.succ_pos _, Nat.lt_add_of_pos_right hpos, ?_⟩
    rw [test_of_at? hdot]
    rfl

end numbers

section steps

theorem goBack_of_at? (h : at? line i = some c) (hc : isNumberChar c = false) :
    goBack true line (i + 1) depth =
      if c = ')' then goBack true line i (depth + 1)
      else if c = '(' then if depth = 0 then (i + 1, depth) else goBack true line i (depth - 1)
      else if isSpace c || isOperator c then goBack true line i depth
      else (i + 1, depth) := by
  have hdigit : test Char.isDigit line i = false :=
    (not_isDigit_of_not_isNumberChar (by rw [test_of_at? h, hc])).1
  rw [goBack]
  simp [numberStart_of_not_isDigit hdigit, h]

theorem goBack_of_isTest (h : test (fun c => isSpace c || isOperator c) line i = true) :
    goBack true line (i + 1) depth = goBack true line i depth := by
  obtain ⟨c, hc, hp⟩ := test_iff.mp h
  have hplain : isNumberChar c = false ∧ c ≠ ')' ∧ c ≠ '(' := by
    rw [Bool.or_eq_true, isSpace_iff, isOperator_iff] at hp
    rcases hp with (rfl | rfl) | rfl | rfl | rfl | rfl | rfl <;> decide
  rw [goBack_of_at? hc hplain.1, if_neg hplain.2.1, if_neg hplain.2.2, if_pos hp]

theorem goBack_gap (g : Gap) (h : Written line i g.text) :
    goBack true line (i + (bytes g.text).size) depth = goBack true line i depth := by
  symm
  apply Written.eq_of_step (f := (goBack true line · depth)) h
    ((forall_encode_iff fun _ => isSpace_ascii).mpr g.all)
  intro k _ htest
  obtain ⟨c, hc, hs⟩ := test_iff.mp htest
  exact (goBack_of_isTest (by rw [test_of_at? hc, hs, Bool.true_or])).symm

theorem goBack_operator (h : at? line i = some c) (hc : isOperator c = true) :
    goBack true line (i + 1) depth = goBack true line i depth :=
  goBack_of_isTest (by rw [test_of_at? h, hc, Bool.or_true])

theorem goBack_literal (l : Literal) (h : Written line i l.text) (hb : Begins line i) :
    goBack true line (i + (bytes l.text).size) depth = goBack true line i depth := by
  have hpos := size_bytes_pos l.text_ne_empty
  rw [goBack, dif_neg (by omega)]
  simp only [l.numberStart_eq h hb]
  exact if_pos (Nat.lt_add_of_pos_right hpos)

end steps

theorem isOperator_signChar (minus : Bool) : isOperator (signChar minus) = true := by
  cases minus <;> rfl

theorem Joint.isOperator_char (joint : Joint) : isOperator joint.char = true := by
  cases joint <;> rfl

mutual

theorem Expression.goBack_eq (e : Expression) {i : Nat} (h : Written line i e.text)
    (hb : Begins line i) (depth : Nat) :
    goBack true line (i + (bytes e.text).size) depth = goBack true line i depth := by
  cases e with
  | term t => exact t.goBack_eq h hb depth
  | sum e before minus after t =>
    simp only [Expression.text, written_append, written_singleton (signChar_ascii minus),
      size_bytes_append, size_bytes_singleton (signChar_ascii minus), ← Nat.add_assoc] at h ⊢
    obtain ⟨⟨⟨⟨hleft, hbefore⟩, hsign⟩, hafter⟩, hright⟩ := h
    have hbegins := Begins.of_gap after hafter (.of_at? hsign (by cases minus <;> rfl))
    rw [t.goBack_eq hright hbegins, goBack_gap after hafter,
      goBack_operator hsign (isOperator_signChar minus), goBack_gap before hbefore,
      e.goBack_eq hleft hb]

theorem Term.goBack_eq (t : Term) {i : Nat} (h : Written line i t.text)
    (hb : Begins line i) (depth : Nat) :
    goBack true line (i + (bytes t.text).size) depth = goBack true line i depth := by
  cases t with
  | factor f => exact f.goBack_eq h hb depth
  | product t before joint after f =>
    simp only [Term.text, written_append, written_singleton joint.char_ascii,
      size_bytes_append, size_bytes_singleton joint.char_ascii, ← Nat.add_assoc] at h ⊢
    obtain ⟨⟨⟨⟨hleft, hbefore⟩, hjoint⟩, hafter⟩, hright⟩ := h
    have hbegins := Begins.of_gap after hafter (.of_at? hjoint (by cases joint <;> rfl))
    rw [f.goBack_eq hright hbegins, goBack_gap after hafter,
      goBack_operator hjoint joint.isOperator_char, goBack_gap before hbefore,
      t.goBack_eq hleft hb]

theorem Factor.goBack_eq (f : Factor) {i : Nat} (h : Written line i f.text)
    (hb : Begins line i) (depth : Nat) :
    goBack true line (i + (bytes f.text).size) depth = goBack true line i depth := by
  cases f with
  | signed minus after f =>
    simp only [Factor.text, written_append, written_singleton (signChar_ascii minus),
      size_bytes_append, size_bytes_singleton (signChar_ascii minus), ← Nat.add_assoc] at h ⊢
    obtain ⟨⟨hsign, hafter⟩, hf⟩ := h
    have hbegins := Begins.of_gap after hafter (.of_at? hsign (by cases minus <;> rfl))
    rw [f.goBack_eq hf hbegins, goBack_gap after hafter,
      goBack_operator hsign (isOperator_signChar minus)]
  | parens before e after =>
    simp only [Factor.text, written_append, written_singleton (c := '(') (by decide),
      written_singleton (c := ')') (by decide), size_bytes_append,
      size_bytes_singleton (c := '(') (by decide), size_bytes_singleton (c := ')') (by decide),
      ← Nat.add_assoc] at h ⊢
    obtain ⟨⟨⟨⟨hopen, hbefore⟩, hinside⟩, hafter⟩, hclose⟩ := h
    have hbegins := Begins.of_gap before hbefore (.of_at? hopen rfl)
    rw [goBack_of_at? hclose rfl, if_pos rfl, goBack_gap after hafter,
      e.goBack_eq hinside hbegins, goBack_gap before hbefore, goBack_of_at? hopen rfl,
      if_neg (by decide), if_pos rfl, if_neg (Nat.succ_ne_zero depth), Nat.add_sub_cancel]
  | literal l => exact goBack_literal l h hb

end

theorem extract?_size (options : Options) (line : Bytes) : extract? options line line.size =
    if (goBack options.spaces line line.size 0).1 = line.size ∨
        (goBack options.spaces line line.size 0).2 ≠ 0 then none
    else some ⟨skip isSpace line line.size (goBack options.spaces line line.size 0).1, line.size⟩ := by
  have hclamp : clamp line line.size = line.size := if_pos (Nat.le_refl _)
  have hend : test (· == ')') line line.size = false := by simp [test, at?]
  simp only [extract?, hclamp, hend, Bool.false_eq_true, and_false, if_false]

def isSolid (c : Char) : Bool := isNumberChar c || isOperator c || c == '(' || c == ')'

theorem isSolid_signChar (minus : Bool) : isSolid (signChar minus) = true := by
  cases minus <;> rfl

theorem Joint.isSolid_char (joint : Joint) : isSolid joint.char = true := by
  cases joint <;> rfl

mutual

theorem Expression.mem_text (e : Expression) :
    ∀ c ∈ e.text.toList, isSolid c = true ∨ isSpace c = true := by
  cases e with
  | term t => exact t.mem_text
  | sum e before minus after t =>
    simp only [Expression.text, String.toList_append, String.toList_singleton, List.forall_mem_append,
      List.forall_mem_singleton]
    exact ⟨⟨⟨⟨e.mem_text, fun c hc => .inr (before.all c hc)⟩, .inl (isSolid_signChar minus)⟩,
      fun c hc => .inr (after.all c hc)⟩, t.mem_text⟩

theorem Term.mem_text (t : Term) :
    ∀ c ∈ t.text.toList, isSolid c = true ∨ isSpace c = true := by
  cases t with
  | factor f => exact f.mem_text
  | product t before joint after f =>
    simp only [Term.text, String.toList_append, String.toList_singleton, List.forall_mem_append,
      List.forall_mem_singleton]
    exact ⟨⟨⟨⟨t.mem_text, fun c hc => .inr (before.all c hc)⟩, .inl joint.isSolid_char⟩,
      fun c hc => .inr (after.all c hc)⟩, f.mem_text⟩

theorem Factor.mem_text (f : Factor) :
    ∀ c ∈ f.text.toList, isSolid c = true ∨ isSpace c = true := by
  cases f with
  | signed minus after f =>
    simp only [Factor.text, String.toList_append, String.toList_singleton, List.forall_mem_append,
      List.forall_mem_singleton]
    exact ⟨⟨.inl (isSolid_signChar minus), fun c hc => .inr (after.all c hc)⟩, f.mem_text⟩
  | parens before e after =>
    simp only [Factor.text, String.toList_append, String.toList_singleton, List.forall_mem_append,
      List.forall_mem_singleton]
    exact ⟨⟨⟨⟨.inl rfl, fun c hc => .inr (before.all c hc)⟩, e.mem_text⟩,
      fun c hc => .inr (after.all c hc)⟩, .inl rfl⟩
  | literal l =>
    intro c hc
    exact .inl (by simp [isSolid, Literal.isNumberChar_of_mem c hc])

end

mutual

theorem Expression.head_text (e : Expression) :
    ∃ c, e.text.toList.head? = some c ∧ isSolid c = true := by
  cases e with
  | term t => exact t.head_text
  | sum e before minus after t =>
    obtain ⟨c, hc, hs⟩ := e.head_text
    exact ⟨c, by simp [Expression.text, hc], hs⟩

theorem Term.head_text (t : Term) : ∃ c, t.text.toList.head? = some c ∧ isSolid c = true := by
  cases t with
  | factor f => exact f.head_text
  | product t before joint after f =>
    obtain ⟨c, hc, hs⟩ := t.head_text
    exact ⟨c, by simp [Term.text, hc], hs⟩

theorem Factor.head_text (f : Factor) : ∃ c, f.text.toList.head? = some c ∧ isSolid c = true := by
  cases f with
  | signed minus after f =>
    exact ⟨signChar minus, by simp [Factor.text], isSolid_signChar minus⟩
  | parens before e after => exact ⟨'(', by simp [Factor.text], rfl⟩
  | literal l =>
    cases hl : l.text.toList with
    | nil => exact absurd (String.toList_eq_nil_iff.mp hl) l.text_ne_empty
    | cons c rest =>
      refine ⟨c, by simp [Factor.text, hl], ?_⟩
      simp [isSolid, Literal.isNumberChar_of_mem c (hl ▸ List.mem_cons_self)]

end

end Caret.Arithmetic
