import Caret.Proofs.Text.Agreement
import Caret.Stylesheet.Token

namespace Caret.Stylesheet

open Text

variable {code : Bytes} {stop i : Nat}

theorem ofChar_blank {c : Char} : Token.Kind.ofChar c = .blank ↔ isBlank c = true := by
  unfold Token.Kind.ofChar
  split
  · simp [*]
  · split <;> simp [*]

theorem ofChar_ne_comment (c : Char) : Token.Kind.ofChar c ≠ .comment := by
  unfold Token.Kind.ofChar
  split
  · simp
  · split <;> simp

theorem isBlank_of_isQuote {c : Char} (h : isQuote c = true) : isBlank c = false := by
  rcases isQuote_iff.mp h with rfl | rfl <;> rfl

theorem ne_slash_of_isQuote {c : Char} (h : isQuote c = true) : c ≠ '/' := by
  rintro rfl
  exact absurd h (by decide)

def Token.Kind.char? : Token.Kind → Option Char
  | .openParen => some '('
  | .closeParen => some ')'
  | .colon => some ':'
  | .semicolon => some ';'
  | .openBrace => some '{'
  | .closeBrace => some '}'
  | .comment | .quoted | .blank | .other => none

theorem eq_of_char? {k : Token.Kind} {c d : Char} (h : Token.Kind.ofChar c = k)
    (hd : k.char? = some d) : c = d := by
  subst h
  unfold Token.Kind.ofChar at hd
  split at hd
  · simp [Token.Kind.char?] at hd
  · split at hd
    all_goals simp only [Token.Kind.char?, Option.some.injEq, reduceCtorEq] at hd
    all_goals exact hd

inductive Cut (code : Bytes) (stop i : Nat) : Token → Prop
  | nothing (h : at? code i = none) : Cut code stop i ⟨.other, ⟨i, i + 1⟩⟩
  | comment (h : at? code i = some '/') (hstar : at? code (i + 1) = some '*') :
      Cut code stop i ⟨.comment, ⟨i, max (i + 1) (past "*/" code stop (i + 2))⟩⟩
  | quoted {c : Char} (h : at? code i = some c) (hq : isQuote c = true) :
      Cut code stop i ⟨.quoted, ⟨i, max (i + 1) (quotedEnd c code stop (i + 1))⟩⟩
  | byte {c : Char} (h : at? code i = some c) (hq : isQuote c = false)
      (hc : c = '/' → at? code (i + 1) ≠ some '*') : Cut code stop i ⟨.ofChar c, ⟨i, i + 1⟩⟩

theorem tokenAt_cut (code : Bytes) (stop i : Nat) : Cut code stop i (tokenAt code stop i) := by
  unfold tokenAt
  split
  · next h => exact .nothing h
  · next c h =>
    split
    · next hopen =>
      obtain ⟨rfl, hstar⟩ := hopen
      exact .comment h (test_beq_iff.mp hstar)
    · next hopen =>
      split
      · next hq => exact .quoted h hq
      · next hq =>
        exact .byte h (Bool.eq_false_iff.mpr hq) fun hc hstar => hopen ⟨hc, test_beq_iff.mpr hstar⟩

theorem Cut.tokenAt_eq {t : Token} (h : Cut code stop i t) : tokenAt code stop i = t := by
  cases h with
  | nothing h => simp only [tokenAt, h]
  | comment h hstar => simp only [tokenAt, h, test_beq_iff.mpr hstar, and_self, if_true]
  | quoted h hq => simp only [tokenAt, h, ne_slash_of_isQuote hq, false_and, if_false, hq, if_true]
  | @byte c h hq hc =>
    have hcomment : ¬(c = '/' ∧ test (· == '*') code (i + 1)) :=
      fun hopen => hc hopen.1 (test_beq_iff.mp hopen.2)
    simp only [tokenAt, h, if_neg hcomment, hq, Bool.false_eq_true, if_false]

theorem tokenAt_start (code : Bytes) (stop i : Nat) : (tokenAt code stop i).span.start = i := by
  have hcut := tokenAt_cut code stop i
  generalize tokenAt code stop i = t at hcut ⊢
  cases hcut <;> rfl

theorem tokenAt_stop_le (code : Bytes) (h : i < stop) : (tokenAt code stop i).span.stop ≤ stop := by
  have hcut := tokenAt_cut code stop i
  generalize tokenAt code stop i = t at hcut ⊢
  cases hcut with
  | nothing => exact h
  | comment => exact Nat.max_le.mpr ⟨h, past_le ..⟩
  | quoted => exact Nat.max_le.mpr ⟨h, quotedEnd_le ..⟩
  | byte => exact h

theorem tokenAt_solid (hs : i < code.size) (hc : (tokenAt code stop i).kind ≠ .comment)
    (hb : (tokenAt code stop i).kind ≠ .blank) : test isBlank code i = false := by
  have hcut := tokenAt_cut code stop i
  generalize tokenAt code stop i = t at hcut hc hb
  cases hcut with
  | nothing h =>
    obtain ⟨c, hat⟩ := at?_of_lt hs
    simp [h] at hat
  | comment => exact absurd rfl hc
  | quoted h hq =>
    rw [test_of_at? h]
    exact isBlank_of_isQuote hq
  | byte h =>
    rw [test_of_at? h]
    exact Bool.eq_false_iff.mpr (mt ofChar_blank.mpr hb)

theorem tokenAt_comment (hk : (tokenAt code stop i).kind = .comment) : at? code i = some '/' ∧
    (tokenAt code stop i).span.stop = max (i + 1) (past "*/" code stop (i + 2)) := by
  have hcut := tokenAt_cut code stop i
  generalize tokenAt code stop i = t at hcut hk ⊢
  cases hcut with
  | nothing => simp at hk
  | comment h => exact ⟨h, rfl⟩
  | quoted => simp at hk
  | byte => exact absurd hk (ofChar_ne_comment _)

theorem tokenAt_char {k : Token.Kind} {d : Char} (hk : (tokenAt code stop i).kind = k)
    (hd : k.char? = some d) : at? code i = some d ∧ (tokenAt code stop i).span.stop = i + 1 := by
  have hcut := tokenAt_cut code stop i
  generalize tokenAt code stop i = t at hcut hk ⊢
  cases hcut with
  | byte h => exact ⟨h.trans (congrArg some (eq_of_char? hk hd)), rfl⟩
  | _ =>
    subst hk
    simp [Token.Kind.char?] at hd

theorem tokenAt_blank (hk : (tokenAt code stop i).kind = .blank) :
    test isBlank code i = true ∧ (tokenAt code stop i).span.stop = i + 1 := by
  have hcut := tokenAt_cut code stop i
  generalize tokenAt code stop i = t at hcut hk ⊢
  cases hcut with
  | byte h => exact ⟨(test_of_at? h).trans (ofChar_blank.mp hk), rfl⟩
  | _ => simp at hk

section strings

variable {quote : Char} {j : Nat}

inductive ClosesAt (quote : Char) (code : Bytes) : Nat → Nat → Prop
  | here {j : Nat} (h : at? code j = some quote) : ClosesAt quote code j j
  | hidden {i j : Nat} (h : at? code i = some '\\') (hr : ClosesAt quote code (i + 2) j) :
      ClosesAt quote code i j
  | other {i j : Nat} {c : Char} (h : at? code i = some c) (hc : c ≠ quote ∧ c ≠ '\\')
      (hr : ClosesAt quote code (i + 1) j) : ClosesAt quote code i j

theorem ClosesAt.le (h : ClosesAt quote code i j) : i ≤ j := by
  induction h with
  | here => exact Nat.le_refl _
  | hidden _ _ ih => omega
  | other _ _ _ ih => omega

theorem ClosesAt.quotedEnd_eq (h : ClosesAt quote code i j) (hq : isQuote quote = true)
    (hs : j < stop) : quotedEnd quote code stop i = j + 1 := by
  have hslash : (quote == '\\') = false := by
    refine beq_false_of_ne ?_
    rintro rfl
    exact absurd hq (by decide)
  induction h with
  | here h =>
    rw [quotedEnd, if_pos hs]
    simp [test_of_at? h, hslash]
  | hidden h hr ih =>
    have hle := hr.le
    rw [quotedEnd, if_pos (by omega), if_pos (test_beq_iff.mpr h), ih hs]
  | other h hc hr ih =>
    have hle := hr.le
    rw [quotedEnd, if_pos (by omega)]
    simp [test_of_at? h, hc, ih hs]

theorem tokenAt_of_closesAt (hq : isQuote quote = true) (hopen : at? code i = some quote)
    (hclose : ClosesAt quote code (i + 1) j) (hs : j < stop) :
    tokenAt code stop i = ⟨.quoted, ⟨i, j + 1⟩⟩ := by
  have hle := hclose.le
  rw [(Cut.quoted hopen hq).tokenAt_eq, hclose.quotedEnd_eq hq hs, Nat.max_eq_right (by omega)]

end strings

section agreement

variable {code' : Bytes} {stop' : Nat} {quote : Char}

theorem le_quotedEnd (quote : Char) (code : Bytes) (stop i : Nat) :
    min i stop ≤ quotedEnd quote code stop i := by
  fun_induction quotedEnd quote code stop i <;> omega

theorem quotedEnd_of_le {e : Nat} (h : quotedEnd quote code stop i ≤ e) (he : e ≤ stop) :
    quotedEnd quote code e i = quotedEnd quote code stop i := by
  fun_induction quotedEnd quote code stop i with
  | case1 i hi hslash ih =>
    have hle := le_quotedEnd quote code stop (i + 2)
    rw [quotedEnd, if_pos (by omega), if_pos hslash, ih h]
  | case2 i hi hslash hquote =>
    rw [quotedEnd, if_pos (Nat.lt_of_succ_le h), if_neg hslash, if_pos hquote]
  | case3 i hi hslash hquote ih =>
    have hle := le_quotedEnd quote code stop (i + 1)
    rw [quotedEnd, if_pos (by omega), if_neg hslash, if_neg hquote, ih h]
  | case4 i hi =>
    obtain rfl : e = stop := Nat.le_antisymm he h
    rw [quotedEnd, if_neg hi]

theorem quotedEnd_congr (h : Agree code code' i (quotedEnd quote code stop i))
    (hs : stop' = stop ∨ quotedEnd quote code stop i < stop ∧ stop ≤ stop') :
    quotedEnd quote code' stop' i = quotedEnd quote code stop i := by
  fun_induction quotedEnd quote code stop i with
  | case1 i hi hslash ih =>
    have hle := le_quotedEnd quote code stop (i + 2)
    rw [quotedEnd, if_pos (by omega), if_pos (by rwa [test_congr (h i (Nat.le_refl i) (by omega))])]
    exact ih (h.mono (by omega) (Nat.le_refl _)) hs
  | case2 i hi hslash hquote =>
    have hsame := h i (Nat.le_refl i) (Nat.lt_succ_self i)
    rw [quotedEnd, if_pos (by omega), if_neg (by rwa [test_congr hsame]),
      if_pos (by rwa [test_congr hsame])]
  | case3 i hi hslash hquote ih =>
    have hle := le_quotedEnd quote code stop (i + 1)
    have hsame := h i (Nat.le_refl i) (by omega)
    rw [quotedEnd, if_pos (by omega), if_neg (by rwa [test_congr hsame]),
      if_neg (by rwa [test_congr hsame])]
    exact ih (h.mono (by omega) (Nat.le_refl _)) hs
  | case4 i hi =>
    obtain rfl : stop' = stop := by omega
    rw [quotedEnd, if_neg hi]

theorem tokenAt_congr (h : Agree code code' i ((tokenAt code stop i).span.stop + 1))
    (hs : stop' = stop ∨ (tokenAt code stop i).span.stop < stop ∧ stop ≤ stop') :
    tokenAt code' stop' i = tokenAt code stop i := by
  have hlt := lt_stop_tokenAt code stop i
  have hat := at?_congr (h i (Nat.le_refl i) (by omega))
  have hnext := at?_congr (h (i + 1) (Nat.le_succ i) (by omega))
  have hcut := tokenAt_cut code stop i
  generalize tokenAt code stop i = t at hcut h hs hlt ⊢
  cases hcut with
  | nothing hfirst => exact (Cut.nothing (hat.trans hfirst)).tokenAt_eq
  | comment hfirst hstar =>
    dsimp only at h hs
    have hpast : past "*/" code' stop' (i + 2) = past "*/" code stop (i + 2) :=
      past_congr (h.mono (by omega) (by omega)) (by omega)
    rw [(Cut.comment (hat.trans hfirst) (hnext.trans hstar)).tokenAt_eq, hpast]
  | @quoted c hfirst hq =>
    dsimp only at h hs
    have hend : quotedEnd c code' stop' (i + 1) = quotedEnd c code stop (i + 1) :=
      quotedEnd_congr (h.mono (by omega) (by omega)) (by omega)
    rw [(Cut.quoted (hat.trans hfirst) hq).tokenAt_eq, hend]
  | byte hfirst hq hc =>
    exact (Cut.byte (hat.trans hfirst) hq fun hslash => hnext ▸ hc hslash).tokenAt_eq

end agreement

theorem mem_tokens {t : Token} (h : t ∈ tokens code stop i) :
    i ≤ t.span.start ∧ t.span.start < stop ∧ tokenAt code stop t.span.start = t := by
  fun_induction tokens code stop i with
  | case1 i hi ih =>
    have hlt := lt_stop_tokenAt code stop i
    rcases List.mem_cons.mp h with rfl | h
    · rw [tokenAt_start]
      exact ⟨Nat.le_refl i, hi, rfl⟩
    · obtain ⟨hle, hrest⟩ := ih h
      exact ⟨by omega, hrest⟩
  | case2 i hi => simp at h

theorem tokens_ordered (code : Bytes) (stop i : Nat) :
    (tokens code stop i).Pairwise fun t u => t.span.stop ≤ u.span.start := by
  fun_induction tokens code stop i with
  | case1 i hi ih => exact List.pairwise_cons.mpr ⟨fun t ht => (mem_tokens ht).1, ih⟩
  | case2 i hi => exact .nil

theorem tokens_of_le (h : stop ≤ i) : tokens code stop i = [] := by
  rw [tokens, if_neg (Nat.not_lt.mpr h)]

theorem foldl_tokens {α : Type} {f : α → Token → α} {P : Nat → α → Prop}
    (step : ∀ i a, i < stop → P i a → P (tokenAt code stop i).span.stop (f a (tokenAt code stop i)))
    {a : α} (h : P i a) (hi : i ≤ stop) : P stop ((tokens code stop i).foldl f a) := by
  fun_induction tokens code stop i generalizing a with
  | case1 i hlt ih => exact ih (step i a hlt h) (tokenAt_stop_le code hlt)
  | case2 i hge =>
    obtain rfl : i = stop := by omega
    exact h

end Caret.Stylesheet
