import Caret.Proofs.Stylesheet.Reading
import Caret.Proofs.Text.Written

namespace Caret.Stylesheet

open Text

variable {code code' : Bytes} {i stop : Nat} {t : Token} {inside : Span} {d : Draft}

inductive Token.Encloses (code : Bytes) : Token → Span → Prop
  | comment {i j : Nat} (hopen : at? code i = some '/' ∧ at? code (i + 1) = some '*')
      (hle : i + 2 ≤ j) (hclose : at? code j = some '*' ∧ at? code (j + 1) = some '/')
      (hfirst : ∀ k, i + 2 ≤ k → k < j → at? code k = some '*' → at? code (k + 1) ≠ some '/') :
      Encloses code ⟨.comment, ⟨i, j + 2⟩⟩ ⟨i + 2, j⟩
  | quoted {quote : Char} {i j : Nat} (hq : isQuote quote = true) (hopen : at? code i = some quote)
      (hclose : ClosesAt quote code (i + 1) j) : Encloses code ⟨.quoted, ⟨i, j + 1⟩⟩ ⟨i + 1, j⟩

/-- The texts have the same size and the same bytes outside of a span, and inside of it blanks at the
same places. -/
structure DifferWithin (code code' : Bytes) (inside : Span) : Prop where
  size : code'.size = code.size
  same : ∀ k, inside.contains k = false → code'[k]? = code[k]?
  blank : ∀ k, test isBlank code' k = test isBlank code k

section tokens

variable {j : Nat}

theorem holdsAt_closing (hj : j + 1 < stop) : holdsAt code stop (bytes "*/").toList j = true ↔
    at? code j = some '*' ∧ at? code (j + 1) = some '/' := by
  have hword : (bytes "*/").toList = [42, 47] := rfl
  have hunit (b : UInt8) (k : Nat) : code[k]? = some b ↔ at? code k = some (Char.ofUInt8 b) :=
    ⟨fun h => by rw [at?, h]; rfl, getElem?_of_at?⟩
  simp only [hword, holdsAt, Bool.and_true, Bool.and_eq_true, decide_eq_true_eq, beq_iff_eq, hunit,
    hj, Nat.lt_of_succ_lt hj, true_and]
  exact Iff.rfl

theorem past_closing (hle : i ≤ j) (hs : j + 1 < stop)
    (hclose : at? code j = some '*' ∧ at? code (j + 1) = some '/')
    (hfirst : ∀ k, i ≤ k → k < j → at? code k = some '*' → at? code (k + 1) ≠ some '/') :
    past "*/" code stop i = j + 2 := by
  have hfind : find (bytes "*/").toList code stop i = some j := by
    refine find_eq hle (Nat.lt_of_succ_lt hs) ((holdsAt_closing hs).mpr hclose) fun k hik hkj => ?_
    rw [Bool.eq_false_iff, ne_eq, holdsAt_closing (by omega)]
    exact fun hat => hfirst k hik hkj hat.1 hat.2
  simp only [past, hfind, Option.elim_some]
  rfl

theorem Token.Encloses.bounds (h : t.Encloses code inside) : t.span.start < inside.start ∧
    inside.start ≤ inside.stop ∧ inside.stop < t.span.stop := by
  cases h with
  | comment _ hle => simp only; omega
  | quoted _ _ hclose =>
    have := hclose.le
    simp only
    omega

theorem Token.Encloses.tokenAt_eq (h : t.Encloses code inside) (hs : t.span.stop ≤ stop) :
    tokenAt code stop t.span.start = t := by
  cases h with
  | comment hopen hle hclose hfirst =>
    have hpast := past_closing hle hs hclose hfirst
    rw [(Cut.comment hopen.1 hopen.2).tokenAt_eq, hpast, Nat.max_eq_right (by omega)]
  | quoted hq hopen hclose => exact tokenAt_of_closesAt hq hopen hclose hs

theorem DifferWithin.tokens_eq (h : DifferWithin code code' inside) (ht : t.Encloses code inside)
    (ht' : t.Encloses code' inside) (hs : t.span.stop ≤ stop)
    (hi : t ∈ tokens code stop i ∨ t.span.stop ≤ i) : tokens code' stop i = tokens code stop i := by
  obtain ⟨hfirst, -, hlast⟩ := ht.bounds
  have hagree {a b : Nat} (hab : b ≤ inside.start ∨ inside.stop ≤ a) : Agree code code' a b := by
    intro k hak hkb
    refine h.same k ?_
    rw [Bool.eq_false_iff, ne_eq, Span.contains_iff]
    omega
  fun_induction tokens code stop i with
  | case1 i hlt ih =>
    have hsame : tokenAt code' stop i = tokenAt code stop i ∧
        (t ∈ tokens code stop (tokenAt code stop i).span.stop ∨
          t.span.stop ≤ (tokenAt code stop i).span.stop) := by
      have hnext := lt_stop_tokenAt code stop i
      rcases hi with hi | hi
      · rcases List.mem_cons.mp hi with rfl | hrest
        · have htoken := ht'.tokenAt_eq hs
          rw [tokenAt_start] at htoken
          exact ⟨htoken, .inr (Nat.le_refl _)⟩
        · -- the token at `i` ends before the one that is closed begins
          have hbefore := (mem_tokens hrest).1
          exact ⟨tokenAt_congr (hagree (.inl (by omega))) (.inl rfl), .inl hrest⟩
      · exact ⟨tokenAt_congr (hagree (.inr (by omega))) (.inl rfl), .inr (by omega)⟩
    rw [tokens, if_pos hlt, hsame.1, ih hsame.2]
  | case2 i hge => rw [tokens, if_neg hge]

theorem Token.Encloses.not_contains (h : t.Encloses code inside) (ht : t ∈ tokens code stop i)
    {u : Token} (hu : u ∈ tokens code stop i) : inside.contains u.span.start = false := by
  obtain ⟨hfirst, -, hlast⟩ := h.bounds
  rw [Bool.eq_false_iff, ne_eq, Span.contains_iff]
  have hlt := lt_stop_tokenAt code stop u.span.start
  rw [(mem_tokens hu).2.2] at hlt
  rcases eq_or_rel_of_pairwise (tokens_ordered code stop i) ht hu with rfl | hle | hle <;> omega

end tokens

namespace Draft

theorem item_closeRule : (d.closeRule i).item = d.item := by
  unfold closeRule
  split <;> rfl

theorem item_absorb (code : Bytes) (d : Draft) (t : Token) :
    (d.absorb code t).item = d.item ∨
      (d.absorb code t).item = (d.beginItem t.span.start).item ∨ (d.absorb code t).item = none := by
  have hstep := absorbs (t := t) rfl code d
  generalize d.absorb code t = e at hstep ⊢
  cases hstep with
  | comment | blank | closeParen | colon => exact .inl rfl
  | item | openParen => exact .inr (.inl rfl)
  | semicolon | openBrace => exact .inr (.inr rfl)
  | closeBrace => exact .inr (.inr item_closeRule)

theorem absorb_congr
    (hadd : ∀ terminator, d.addDeclaration code' t.span.start terminator =
      d.addDeclaration code t.span.start terminator)
    (hopen : d.openRule code' t.span.start = d.openRule code t.span.start) :
    d.absorb code' t = d.absorb code t := by
  unfold absorb
  simp only [hadd, hopen]

end Draft

def Draft.Clear (inside : Span) (d : Draft) : Prop :=
  ∀ s, d.item = some s → inside.contains s = false

theorem Draft.Clear.absorb (h : d.Clear inside) (ht : inside.contains t.span.start = false) :
    (d.absorb code t).Clear inside := by
  intro s hs
  rcases item_absorb code d t with hitem | hitem | hitem
  · exact h s (hitem ▸ hs)
  · rw [hitem] at hs
    cases hi : d.item with
    | none =>
      obtain rfl : t.span.start = s := by simpa [beginItem, hi] using hs
      exact ht
    | some s' =>
      rw [beginItem_of_some hi] at hs
      exact h s hs
  · simp [hitem] at hs

namespace DifferWithin

variable (h : DifferWithin code code' inside)
include h

theorem nameAndValue_eq (start : Nat) {content : Span} (colon : Option Nat)
    (hfirst : inside.contains content.start = false)
    (hlast : isBoundary code' content.stop = isBoundary code content.stop) :
    Draft.nameAndValue code' start content colon = Draft.nameAndValue code start content colon := by
  cases colon with
  | some c => simp only [Draft.nameAndValue, trim_congr h.size h.blank]
  | none =>
    simp only [Draft.nameAndValue, trim_congr h.size h.blank,
      skip_congr (test_not_congr h.size h.blank), test_congr (h.same _ hfirst), hlast]

theorem addDeclaration_eq (hv : d.Valid code i) (hi : i ≤ code.size) (hd : d.Clear inside)
    (hpos : inside.contains i = false) (terminator : Option Nat) :
    d.addDeclaration code' i terminator = d.addDeclaration code i terminator := by
  cases hitem : d.item with
  | none => rw [Draft.addDeclaration_of_none hitem, Draft.addDeclaration_of_none hitem]
  | some s =>
    obtain ⟨hstart, -, hle, -⟩ := hv.content_spec hi hitem
    have hbetween := Span.between_of_le (Nat.le_of_lt (hv.item s hitem).1)
    have hlast : isBoundary code' (trim code ⟨s, i⟩).stop =
        isBoundary code (trim code ⟨s, i⟩).stop := by
      rcases Nat.eq_or_lt_of_le hle with heq | hlt
      · rw [heq]
        exact isBoundary_congr h.size (h.same i hpos)
      · have hblank := test_of_trim_stop_le (s := ⟨s, i⟩) hi hlt (Nat.le_refl _)
        rw [isBoundary_of_test (fun _ => isBlank_ascii) hblank,
          isBoundary_of_test (fun _ => isBlank_ascii) ((h.blank _).trans hblank)]
    have hnv := h.nameAndValue_eq s d.colon (hstart.symm ▸ hd s hitem) hlast
    simp only [Draft.addDeclaration, hitem, hbetween, trim_congr h.size h.blank, hnv]

theorem openRule_eq (d : Draft) (i : Nat) : d.openRule code' i = d.openRule code i := by
  simp only [Draft.openRule, trim_congr h.size h.blank]

theorem reading_eq (hfree : ∀ u ∈ tokens code stop i, inside.contains u.span.start = false)
    (hs : stop ≤ code.size) (hv : d.Valid code i) (hd : d.Clear inside) :
    (tokens code stop i).foldl (Draft.absorb code') d = d.reading code stop i ∧
      (d.reading code stop i).Clear inside := by
  unfold Draft.reading
  fun_induction tokens code stop i generalizing d with
  | case1 i hlt ih =>
    obtain ⟨hfirst, hrest⟩ := List.forall_mem_cons.mp hfree
    have hstart := tokenAt_start code stop i
    have habsorb : d.absorb code' (tokenAt code stop i) = d.absorb code (tokenAt code stop i) := by
      refine Draft.absorb_congr (fun terminator => ?_) (h.openRule_eq d _)
      rw [hstart] at hfirst ⊢
      exact h.addDeclaration_eq hv (by omega) hd hfirst terminator
    rw [List.foldl_cons, List.foldl_cons, habsorb]
    exact ih hrest (hv.absorb hlt hs) (hd.absorb hfirst)
  | case2 i hge => exact ⟨rfl, hd⟩

end DifferWithin

/-- Texts that differ only strictly inside of a comment or string that is closed at the same place in
both have the same structure. -/
theorem parse_opaque (h : DifferWithin code code' inside) (ht : t ∈ tokens code code.size 0)
    (hin : t.Encloses code inside) (hin' : t.Encloses code' inside) : parse code' = parse code := by
  have hstop : t.span.stop ≤ code.size := by
    obtain ⟨-, hlt, htoken⟩ := mem_tokens ht
    have hle := tokenAt_stop_le code hlt
    rwa [htoken] at hle
  have htokens := h.tokens_eq hin hin' hstop (.inl ht)
  have hvalid := (Draft.valid_empty code 0).absorb_tokens (Nat.zero_le _) (Nat.le_refl code.size)
  obtain ⟨hread, hclear⟩ := h.reading_eq (d := {}) (fun u hu => hin.not_contains ht hu)
    (Nat.le_refl code.size) (Draft.valid_empty code 0) (by simp [Draft.Clear])
  have hend : inside.contains code.size = false := by
    have hbounds := hin.bounds
    rw [Bool.eq_false_iff, ne_eq, Span.contains_iff]
    omega
  have hadd := h.addDeclaration_eq hvalid (Nat.le_refl _) hclear hend none
  unfold Draft.reading at hread hadd
  simp only [parse, parseRegion, Nat.min_self, h.size, htokens, hread, Draft.finish, hadd]

theorem parse_opaque_string :
    (DifferWithin (bytes "a\x7bb:'x'\x7d") (bytes "a\x7bb:'\x7d'\x7d") ⟨5, 6⟩ ∧
      ⟨.quoted, ⟨4, 7⟩⟩ ∈ tokens (bytes "a\x7bb:'x'\x7d") 8 0 ∧
      (⟨.quoted, ⟨4, 7⟩⟩ : Token).Encloses (bytes "a\x7bb:'x'\x7d") ⟨5, 6⟩ ∧
      (⟨.quoted, ⟨4, 7⟩⟩ : Token).Encloses (bytes "a\x7bb:'\x7d'\x7d") ⟨5, 6⟩) ∧
    parse (bytes "a\x7bb:'\x7d'\x7d") = parse (bytes "a\x7bb:'x'\x7d") := by
  have hdiffer : DifferWithin (bytes "a\x7bb:'x'\x7d") (bytes "a\x7bb:'\x7d'\x7d") ⟨5, 6⟩ := by
    have hwithin : ∀ k < 8,
        (Span.contains ⟨5, 6⟩ k = false →
          (bytes "a\x7bb:'\x7d'\x7d")[k]? = (bytes "a\x7bb:'x'\x7d")[k]?) ∧
        test isBlank (bytes "a\x7bb:'\x7d'\x7d") k =
          test isBlank (bytes "a\x7bb:'x'\x7d") k := by
      decide +kernel
    have hsize : (bytes "a\x7bb:'x'\x7d").size = 8 ∧
        (bytes "a\x7bb:'\x7d'\x7d").size = 8 := by
      decide +kernel
    refine ⟨hsize.2.trans hsize.1.symm, fun k hk => ?_, fun k => ?_⟩ <;>
      by_cases hlt : k < 8
    · exact (hwithin k hlt).1 hk
    · rw [Array.getElem?_eq_none (by omega), Array.getElem?_eq_none (by omega)]
    · exact (hwithin k hlt).2
    · simp only [test, at?]
      rw [Array.getElem?_eq_none (by omega), Array.getElem?_eq_none (by omega)]
  have htoken : ⟨.quoted, ⟨4, 7⟩⟩ ∈ tokens (bytes "a\x7bb:'x'\x7d") 8 0 := by
    decide +kernel
  have hbefore : (⟨.quoted, ⟨4, 7⟩⟩ : Token).Encloses (bytes "a\x7bb:'x'\x7d") ⟨5, 6⟩ := by
    refine .quoted (show isQuote '\'' = true by decide) (by decide +kernel) ?_
    refine .other (c := 'x') (by decide +kernel) (by decide) ?_
    exact .here (by decide +kernel)
  have hafter : (⟨.quoted, ⟨4, 7⟩⟩ : Token).Encloses (bytes "a\x7bb:'\x7d'\x7d") ⟨5, 6⟩ := by
    refine .quoted (show isQuote '\'' = true by decide) (by decide +kernel) ?_
    refine .other (c := '\x7d') (by decide +kernel) (by decide) ?_
    exact .here (by decide +kernel)
  exact ⟨⟨hdiffer, htoken, hbefore, hafter⟩, parse_opaque hdiffer htoken hbefore hafter⟩

end Caret.Stylesheet
