import Caret.Proofs.Arithmetic.Extent

/-!
What going back passes over: numbers, operators and parentheses. Each parenthesis that waits for
the one that opens it parts two texts with no open parentheses, so that nothing waits exactly where
the whole text has none.
-/

namespace Caret.Arithmetic

open Text

variable {spaces : Bool} {depth i : Nat} {c : Char} {l u : List Char} {code : Bytes}

def isPlain (spaces : Bool) (c : Char) : Bool := (spaces && isSpace c) || isOperator c

def stepBack (spaces : Bool) (line : Bytes) (cursor depth : Nat) : Option (Nat × Nat) :=
  if cursor = 0 then none
  else if numberStart line cursor < cursor then some (numberStart line cursor, depth)
  else (at? line (cursor - 1)).bind fun c =>
    if c = ')' then some (cursor - 1, depth + 1)
    else if c = '(' then if depth = 0 then none else some (cursor - 1, depth - 1)
    else if isPlain spaces c then some (cursor - 1, depth)
    else none

/-- Texts of numbers, plain characters and pairs of parentheses. A number goes on as far as digits
and points do. -/
inductive Nested (spaces : Bool) : List Char → Prop
  | nil : Nested spaces []
  | literal {rest : List Char} (number : Literal)
      (hnext : ∀ c, rest.head? = some c → isNumberChar c = false) (hr : Nested spaces rest) :
      Nested spaces (number.text.toList ++ rest)
  | plain {c : Char} {rest : List Char} (hc : isPlain spaces c = true) (hr : Nested spaces rest) :
      Nested spaces (c :: rest)
  | parens {inside rest : List Char} (hi : Nested spaces inside) (hr : Nested spaces rest) :
      Nested spaces ('(' :: (inside ++ ')' :: rest))

inductive Waiting (spaces : Bool) : Nat → List Char → Prop
  | none {l : List Char} (h : Nested spaces l) : Waiting spaces 0 l
  | more {depth : Nat} {inside rest : List Char} (hi : Nested spaces inside)
      (hr : Waiting spaces depth rest) : Waiting spaces (depth + 1) (inside ++ ')' :: rest)

theorem Waiting.nested (h : Waiting spaces 0 l) : Nested spaces l := by
  cases h with
  | none h => exact h

theorem Waiting.append (h : Waiting spaces depth l)
    (hu : ∀ l, Nested spaces l → Nested spaces (u ++ l)) : Waiting spaces depth (u ++ l) := by
  cases h with
  | none h => exact .none (hu _ h)
  | more hi hr =>
    rw [← List.append_assoc]
    exact .more (hu _ hi) hr

theorem Waiting.literal (h : Waiting spaces depth l) (number : Literal)
    (hnext : ∀ c, l.head? = some c → isNumberChar c = false) :
    Waiting spaces depth (number.text.toList ++ l) := by
  cases h with
  | none h => exact .none (.literal number hnext h)
  | @more _ inside rest hi hr =>
    have hinside : ∀ c, inside.head? = some c → isNumberChar c = false := fun c hc =>
      hnext c (by rw [List.head?_append, hc, Option.some_or])
    rw [← List.append_assoc]
    exact .more (.literal number hinside hi) hr

theorem Waiting.close (h : Waiting spaces depth l) : Waiting spaces (depth + 1) (')' :: l) :=
  .more .nil h

theorem Waiting.opens (h : Waiting spaces (depth + 1) l) : Waiting spaces depth ('(' :: l) := by
  cases h with
  | @more _ inside rest hi hr =>
    have hput := hr.append (u := '(' :: (inside ++ [')'])) fun l h => by
      simpa using Nested.parens hi h
    simpa using hput

theorem exists_literal (h : numberStart code i < i) :
    ∃ number : Literal, Written code (numberStart code i) number.text ∧
      numberStart code i + (bytes number.text).size = i := by
  have hback {k : Nat} : ∃ s : Stretch Char.isDigit,
      Written code (skipBack Char.isDigit code 0 k) s.text ∧
        skipBack Char.isDigit code 0 k + (bytes s.text).size = k :=
    exists_stretch (fun _ => isDigit_ascii) (skipBack_le ..) fun m hm hk =>
      test_of_skipBack_le hk hm
  obtain ⟨digits, hdigits, hsize⟩ := hback (k := i)
  have hnonempty (hlt : skipBack Char.isDigit code 0 i < i) : digits.text ≠ "" := fun hempty => by
    rw [hempty, bytes_empty] at hsize
    exact absurd hsize (Nat.ne_of_lt hlt)
  by_cases hpoint : 0 < skipBack Char.isDigit code 0 i ∧ skipBack Char.isDigit code 0 i < i ∧
      test (· == '.') code (skipBack Char.isDigit code 0 i - 1) = true
  · have hstart : numberStart code i =
        skipBack Char.isDigit code 0 (skipBack Char.isDigit code 0 i - 1) := if_pos hpoint
    obtain ⟨hpos, hlt, hdot⟩ := hpoint
    obtain ⟨whole, hwhole, hsize'⟩ := hback (k := skipBack Char.isDigit code 0 i - 1)
    rw [test_beq_iff] at hdot
    refine ⟨.decimal whole ⟨digits, hnonempty hlt⟩, ?_, ?_⟩
    · rw [hstart, Literal.text, written_append, written_append, written_singleton (by decide),
        size_bytes_append, size_bytes_singleton (by decide), ← Nat.add_assoc, hsize',
        Nat.sub_add_cancel hpos]
      exact ⟨⟨hwhole, hdot⟩, hdigits⟩
    · rw [hstart, Literal.text, size_bytes_append, size_bytes_append,
        size_bytes_singleton (by decide), ← Nat.add_assoc, ← Nat.add_assoc, hsize',
        Nat.sub_add_cancel hpos, hsize]
  · have hstart : numberStart code i = skipBack Char.isDigit code 0 i := if_neg hpoint
    rw [hstart] at h ⊢
    exact ⟨.integer ⟨digits, hnonempty h⟩, hdigits, hsize⟩

theorem numberStart_numberStart (code : Bytes) (i : Nat) :
    numberStart code (numberStart code i) = numberStart code i := by
  obtain ⟨k, hk⟩ : ∃ k, numberStart code i = skipBack Char.isDigit code 0 k := by
    dsimp only [numberStart]
    split
    · exact ⟨_, rfl⟩
    · exact ⟨i, rfl⟩
  rcases Nat.eq_zero_or_pos (numberStart code i) with hzero | hpos
  · rw [hzero]
    rfl
  · have hdigit := test_skipBack (hk ▸ hpos)
    rw [← hk] at hdigit
    have hstart := numberStart_of_not_isDigit hdigit
    rwa [Nat.sub_add_cancel hpos] at hstart

theorem isPlain_ascii (h : isPlain spaces c = true) : c.toNat < 128 := by
  rw [isPlain, Bool.or_eq_true, Bool.and_eq_true] at h
  rcases h with ⟨-, h⟩ | h
  · exact isSpace_ascii h
  · exact isOperator_ascii h

theorem not_isNumberChar_of_isPlain (h : isPlain spaces c = true) : isNumberChar c = false := by
  rw [isPlain, Bool.or_eq_true, Bool.and_eq_true] at h
  rcases h with ⟨-, h⟩ | h
  · exact not_isNumberChar_of_isSpace h
  · rcases isOperator_iff.mp h with rfl | rfl | rfl | rfl | rfl <;> rfl

theorem stepBack_cases {cursor depth' : Nat}
    (h : stepBack spaces code cursor depth = some (i, depth')) :
    (i = numberStart code cursor ∧ i < cursor ∧ depth' = depth) ∨
      (i + 1 = cursor ∧ ∃ c, at? code i = some c ∧
        ((c = ')' ∧ depth' = depth + 1) ∨ (c = '(' ∧ depth' + 1 = depth) ∨
          (isPlain spaces c = true ∧ depth' = depth))) := by
  unfold stepBack at h
  split at h
  · simp at h
  · next hpos =>
    split at h
    · next hlt =>
      obtain ⟨rfl, rfl⟩ := Prod.mk.inj (Option.some.inj h)
      exact .inl ⟨rfl, hlt, rfl⟩
    · obtain ⟨c, hc, h⟩ := Option.bind_eq_some_iff.mp h
      have hcursor := Nat.sub_add_cancel (Nat.pos_of_ne_zero hpos)
      right
      split at h
      · next hclose =>
        obtain ⟨rfl, rfl⟩ := Prod.mk.inj (Option.some.inj h)
        exact ⟨hcursor, c, hc, .inl ⟨hclose, rfl⟩⟩
      · split at h
        · next hopen =>
          split at h
          · simp at h
          · next hdepth =>
            obtain ⟨rfl, rfl⟩ := Prod.mk.inj (Option.some.inj h)
            exact ⟨hcursor, c, hc, .inr (.inl ⟨hopen,
              Nat.sub_add_cancel (Nat.pos_of_ne_zero hdepth)⟩)⟩
        · split at h
          · next hplain =>
            obtain ⟨rfl, rfl⟩ := Prod.mk.inj (Option.some.inj h)
            exact ⟨hcursor, c, hc, .inr (.inr ⟨hplain, rfl⟩)⟩
          · simp at h

theorem goBack_eq (spaces : Bool) (code : Bytes) (cursor depth : Nat) :
    goBack spaces code cursor depth = (stepBack spaces code cursor depth).elim (cursor, depth)
      fun p => goBack spaces code p.1 p.2 := by
  rw [goBack, stepBack]
  by_cases hpos : cursor = 0
  · simp [hpos]
  rw [dif_neg hpos, if_neg hpos]
  by_cases hlt : numberStart code cursor < cursor
  · simp only [hlt, if_true, Option.elim_some]
  simp only [hlt, if_false]
  cases at? code (cursor - 1) with
  | none => rfl
  | some c =>
    by_cases hclose : c = ')'
    · simp [hclose]
    by_cases hopen : c = '('
    · by_cases hdepth : depth = 0 <;> simp [hopen, hdepth]
    by_cases hplain : isPlain spaces c = true
    · simp only [Option.bind_some, hclose, hopen, hplain, if_false, if_true, Option.elim_some]
      exact if_pos hplain
    · simp only [Option.bind_some, hclose, hopen, hplain, if_false]
      exact if_neg hplain

theorem stepBack_lt {cursor : Nat} {p : Nat × Nat} (h : stepBack spaces code cursor depth = some p) :
    p.1 < cursor := by
  rcases stepBack_cases h with ⟨-, hlt, -⟩ | ⟨hi, -⟩
  · exact hlt
  · exact Nat.lt_of_succ_le (Nat.le_of_eq hi)

theorem stepBack_induction {spaces : Bool} {code : Bytes} {motive : Nat → Nat → Prop}
    (step : ∀ cursor depth, (∀ p, stepBack spaces code cursor depth = some p → motive p.1 p.2) →
      motive cursor depth) (cursor depth : Nat) : motive cursor depth := by
  induction cursor using Nat.strongRecOn generalizing depth with
  | _ cursor ih => exact step cursor depth fun p hp => ih p.1 (stepBack_lt hp) p.2

theorem goBack_le (spaces : Bool) (code : Bytes) (cursor depth : Nat) :
    (goBack spaces code cursor depth).1 ≤ cursor := by
  induction cursor, depth using @stepBack_induction spaces code with
  | _ cursor depth ih =>
    rw [goBack_eq]
    cases hstep : stepBack spaces code cursor depth with
    | none => exact Nat.le_refl cursor
    | some p => exact Nat.le_trans (ih p hstep) (Nat.le_of_lt (stepBack_lt hstep))

def NumberEnds (code : Bytes) (cursor : Nat) (l : List Char) : Prop :=
  numberStart code cursor < cursor → ∀ c, l.head? = some c → isNumberChar c = false

theorem stepBack_written {cursor : Nat} {p : Nat × Nat}
    (h : stepBack spaces code cursor depth = some p) {t : String} (ht : Written code cursor t)
    (hends : NumberEnds code cursor t.toList) (hw : Waiting spaces depth t.toList) :
    ∃ t', Written code p.1 t' ∧ p.1 + (bytes t').size = cursor + (bytes t).size ∧
      NumberEnds code p.1 t'.toList ∧ Waiting spaces p.2 t'.toList := by
  obtain ⟨i, depth'⟩ := p
  rcases stepBack_cases h with ⟨rfl, hlt, rfl⟩ | ⟨rfl, c, hc, hkind⟩
  · obtain ⟨number, hnumber, hsize⟩ := exists_literal hlt
    refine ⟨number.text ++ t, written_append.mpr ⟨hnumber, hsize.symm ▸ ht⟩, ?_, ?_, ?_⟩
    · rw [size_bytes_append, ← Nat.add_assoc, hsize]
    · intro hlt'
      exact absurd hlt' (Nat.not_lt.mpr (Nat.le_of_eq (numberStart_numberStart ..).symm))
    · rw [String.toList_append]
      exact hw.literal number (hends hlt)
  · have hput (hascii : c.toNat < 128) := ht.singleton_append (Nat.succ_ne_zero i) hc hascii
    rw [Nat.add_sub_cancel] at hput
    -- the character that is read is the first of the text and part of no number
    have hfirst (hchar : isNumberChar c = false) : NumberEnds code i (c :: t.toList) := by
      rintro - _ ⟨⟩
      exact hchar
    rcases hkind with ⟨rfl, rfl⟩ | ⟨rfl, rfl⟩ | ⟨hplain, rfl⟩
    · obtain ⟨hwritten, hsize⟩ := hput (by decide)
      exact ⟨_, hwritten, hsize, by simpa using hfirst (by decide), by simpa using hw.close⟩
    · obtain ⟨hwritten, hsize⟩ := hput (by decide)
      exact ⟨_, hwritten, hsize, by simpa using hfirst (by decide), by simpa using hw.opens⟩
    · obtain ⟨hwritten, hsize⟩ := hput (isPlain_ascii hplain)
      exact ⟨_, hwritten, hsize, by simpa using hfirst (not_isNumberChar_of_isPlain hplain),
        by simpa using hw.append (u := [c]) fun _ => .plain hplain⟩

theorem goBack_written (spaces : Bool) (code : Bytes) (cursor depth : Nat) {t : String}
    (ht : Written code cursor t) (hends : NumberEnds code cursor t.toList)
    (hw : Waiting spaces depth t.toList) :
    ∃ t', Written code (goBack spaces code cursor depth).1 t' ∧
      (goBack spaces code cursor depth).1 + (bytes t').size = cursor + (bytes t).size ∧
      Waiting spaces (goBack spaces code cursor depth).2 t'.toList := by
  induction cursor, depth using @stepBack_induction spaces code generalizing t with
  | _ cursor depth ih =>
    rw [goBack_eq]
    cases hstep : stepBack spaces code cursor depth with
    | none => exact ⟨t, ht, rfl, hw⟩
    | some p =>
      obtain ⟨t', ht', hsize, hends', hw'⟩ := stepBack_written hstep ht hends hw
      rw [← hsize]
      exact ih p hstep ht' hends' hw'

end Caret.Arithmetic
