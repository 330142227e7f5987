import Caret.Proofs.Stylesheet.Shift

/-!
Regions of a text that are read as stylesheets. A region is read as its text is on its own, unless
that ends in a slash and a star follows the region: a comment is then found that does not begin in
the text alone.
-/

namespace Caret.Stylesheet

open Text

variable {part code : Bytes} {a i stop : Nat}

section comments

variable {d : Draft} {t : Token}

def commentSpans (l : List Token) : List Span := (l.filter (·.kind = .comment)).map (·.span)

theorem commentSpans_cons (t : Token) (l : List Token) : commentSpans (t :: l) =
    (if t.kind = .comment then [t.span] else []) ++ commentSpans l := by
  by_cases hk : t.kind = .comment <;> simp [commentSpans, hk]

namespace Draft

@[simp]
theorem comments_addDeclaration (terminator : Option Nat) :
    (d.addDeclaration code i terminator).sheet.comments = d.sheet.comments := by
  rcases addDeclaration_cases code d i terminator with h | ⟨e, -, h⟩ <;> rw [h]

@[simp]
theorem comments_closeRule : (d.closeRule i).sheet.comments = d.sheet.comments := by
  unfold closeRule
  split <;> rfl

theorem comments_absorb (code : Bytes) (d : Draft) (t : Token) :
    (d.absorb code t).sheet.comments.toList =
      d.sheet.comments.toList ++ if t.kind = .comment then [t.span] else [] := by
  have hstep := absorbs (t := t) rfl code d
  generalize d.absorb code t = e at hstep ⊢
  cases hstep with
  | comment hk => simp [hk]
  | item hc => simp [hc, beginItem]
  | blank hk | openParen hk | closeParen hk | colon hk => simp [hk, beginItem]
  | semicolon hk | openBrace hk | closeBrace hk => simp [hk, endItem, openRule]

theorem comments_reading (code : Bytes) (stop i : Nat) (d : Draft) :
    (d.reading code stop i).sheet.comments.toList =
      d.sheet.comments.toList ++ commentSpans (tokens code stop i) := by
  unfold reading
  induction tokens code stop i generalizing d with
  | nil => simp [commentSpans]
  | cons t l ih => rw [List.foldl_cons, ih, comments_absorb, commentSpans_cons, List.append_assoc]

theorem comments_finish (code : Bytes) (isInline : Bool) (d : Draft) (stop : Nat) :
    (d.finish code isInline stop).comments = d.sheet.comments := by
  simp only [finish]
  split
  · exact comments_addDeclaration none
  · rfl

end Draft

theorem comments_parseRegion (code : Bytes) (region : Span) (isInline : Bool) :
    (parseRegion code region isInline).comments.toList =
      commentSpans (tokens code (min region.stop code.size) region.start) := by
  have hread := Draft.comments_reading code (min region.stop code.size) region.start {}
  simpa [parseRegion, Draft.reading, Draft.comments_finish] using hread

end comments

section part

variable (h : PartAt part code a)
include h

theorem tokenAt_slash (hs : part.size = stop) (hslash : at? part i = some '/') (hlast : i + 1 = stop)
    (hstar : at? code (stop + a) = some '*') :
    tokenAt part stop i = ⟨.other, ⟨i, i + 1⟩⟩ ∧
      tokenAt code (stop + a) (i + a) = ⟨.comment, ⟨i + a, stop + a⟩⟩ := by
  have hend : at? part (i + 1) = none := by simp [at?, hlast, ← hs]
  have hat : at? code (i + a) = some '/' := by rw [h.at?_add (by omega), hslash]
  have hnext : at? code (i + a + 1) = some '*' := by
    rw [← hstar, ← hlast, Nat.add_right_comm]
  have hpast := past_le "*/" code (stop + a) (i + a + 2)
  constructor
  · exact (Cut.byte hslash rfl fun _ => by simp [hend]).tokenAt_eq
  · rw [(Cut.comment hat hnext).tokenAt_eq]
    simp only [Token.mk.injEq, Span.mk.injEq, true_and]
    omega

theorem length_commentSpans_add {t : Token} (hs : part.size = stop) (ht : t ∈ tokens part stop i)
    (hslash : at? part t.span.start = some '/') (hlast : t.span.start + 1 = stop)
    (hstar : at? code (stop + a) = some '*') :
    (commentSpans (tokens code (stop + a) (i + a))).length =
      (commentSpans (tokens part stop i)).length + 1 := by
  fun_induction tokens part stop i with
  | case1 i hlt ih =>
    have hnext : tokens code (stop + a) (i + a) = tokenAt code (stop + a) (i + a) ::
        tokens code (stop + a) (tokenAt code (stop + a) (i + a)).span.stop := by
      rw [tokens, if_pos (by omega)]
    rcases List.mem_cons.mp ht with rfl | ht
    · rw [tokenAt_start] at hslash hlast
      obtain ⟨hother, hcomment⟩ := tokenAt_slash h hs hslash hlast hstar
      rw [hnext, hother, hcomment, tokens_of_le (Nat.le_refl _), tokens_of_le (Nat.le_of_eq hlast.symm)]
      rfl
    · have hbefore : (tokenAt part stop i).span.stop < stop := by
        refine Nat.lt_of_not_le fun hle => ?_
        rw [tokens_of_le hle] at ht
        simp at ht
      have hstart := lt_stop_tokenAt part stop i
      have hshift : tokenAt code (stop + a) (i + a) = (tokenAt part stop i).shift a :=
        tokenAt_add h (fun _ hend => by omega) (by omega) (Nat.le_of_eq hs.symm)
      have hrest := ih ht
      rw [hnext, hshift, commentSpans_cons, commentSpans_cons]
      simp only [Token.shift, Span.shift_stop, List.length_append, hrest]
      by_cases hk : (tokenAt part stop i).kind = .comment <;> simp [hk, Nat.add_assoc]
  | case2 i hge => simp at ht

theorem parseRegion_add_iff (isInline : Bool) : parseRegion code ⟨a, part.size + a⟩ isInline =
    (parseRegion part ⟨0, part.size⟩ isInline).shift a ↔
      ¬(EndsInSlash part ∧ at? code (part.size + a) = some '*') := by
  refine ⟨?_, fun hpeek => parseRegion_add h hpeek isInline⟩
  rintro heq ⟨⟨t, ht, hslash, hlast⟩, hstar⟩
  have hmore := length_commentSpans_add h rfl ht hslash hlast hstar
  have hregion := comments_parseRegion code ⟨a, part.size + a⟩ isInline
  have hpart := comments_parseRegion part ⟨0, part.size⟩ isInline
  simp only [Nat.min_eq_left h.size, Nat.min_self] at hregion hpart
  rw [Nat.zero_add, ← hregion, ← hpart, heq] at hmore
  simp [shift] at hmore

end part

/-- A region is read as its text on its own, further on, exactly if no star follows a slash that ends
it outside of comments and strings. -/
theorem parseRegion_shift_iff {text : String} {a b : Nat} (hab : a ≤ b)
    (ha : isBoundary (bytes text) a = true) (hb : isBoundary (bytes text) b = true)
    (isInline : Bool) :
    let part := cut (bytes text) ⟨a, b⟩
    parseRegion (bytes text) ⟨a, b⟩ isInline = (parseRegion part ⟨0, b - a⟩ isInline).shift a ↔
      ¬(EndsInSlash part ∧ at? (bytes text) b = some '*') := by
  have hpart := partAt_cut hab ha hb
  have hsize : (cut (bytes text) ⟨a, b⟩).size = b - a := by
    have := le_size_of_isBoundary hb
    simp only [cut, Array.size_extract]
    omega
  have hiff := parseRegion_add_iff hpart isInline
  rwa [hsize, Nat.sub_add_cancel hab] at hiff

theorem parseRegion_shift_style :
    (2 ≤ 5 ∧ isBoundary (bytes "p\x7bb:c/*d*/\x7d") 2 = true ∧
      isBoundary (bytes "p\x7bb:c/*d*/\x7d") 5 = true) ∧
    parseRegion (bytes "p\x7bb:c/*d*/\x7d") ⟨2, 5⟩ true =
      (parseRegion (cut (bytes "p\x7bb:c/*d*/\x7d") ⟨2, 5⟩) ⟨0, 3⟩ true).shift 2 := by
  have hbounds : 2 ≤ 5 ∧ isBoundary (bytes "p\x7bb:c/*d*/\x7d") 2 = true ∧
      isBoundary (bytes "p\x7bb:c/*d*/\x7d") 5 = true := by
    decide +kernel
  obtain ⟨hab, ha, hb⟩ := hbounds
  refine ⟨⟨hab, ha, hb⟩, (parseRegion_shift_iff hab ha hb true).mpr ?_⟩
  rintro ⟨-, hstar⟩
  exact absurd hstar (by decide +kernel)

theorem parseRegion_not_shift :
    (parseRegion (cut (bytes "p\x7b/*d*/\x7d") ⟨2, 3⟩) ⟨0, 1⟩ true).shift 2 =
        { declarations := #[⟨⟨2, 3⟩, ⟨3, 3⟩, ⟨2, 3⟩, none, none, none⟩] } ∧
      parseRegion (bytes "p\x7b/*d*/\x7d") ⟨2, 3⟩ true = { comments := #[⟨2, 3⟩] } := by
  decide +kernel

end Caret.Stylesheet
