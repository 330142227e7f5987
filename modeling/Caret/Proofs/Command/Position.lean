import Caret.Command
import Caret.Proofs.Text.Position
import Mathlib.Algebra.Group.Nat.Defs

/-!
Positions printed and read back. A position is printed with the width of the line before it as one
text, and read back by the widths of its characters one by one.
-/

namespace Caret.Command

open Text

variable {w : Widths} {text : String} {code : Bytes} {line column n pos : Nat}

section numbers

theorem number?_toString (h : n < 2 ^ 64) : number? (toString n) = some n := by
  have hdigit : ∀ c ∈ Nat.toDigits 10 n, c.isDigit = true := fun c hc =>
    Nat.isDigit_of_mem_toDigits (by decide) (by decide) hc
  have hvalue : Arithmetic.natOfDigits (Nat.toDigits 10 n) = n := Nat.ofDigitChars_ten_toDigits
  have hplus : ∀ rest, Nat.toDigits 10 n ≠ '+' :: rest := fun rest hrest => by
    have hsign := hdigit '+' (by simp [hrest])
    contradiction
  rw [number?, Nat.toString_eq_ofList_toDigits, String.toList_ofList]
  split
  · next rest hrest => exact absurd hrest (hplus rest)
  · rw [if_pos ⟨Nat.toDigits_ne_nil, List.all_eq_true.mpr hdigit⟩, hvalue]
    simpa using h

theorem position?_append {l r : String} (hl : ∀ c ∈ l.toList, c ≠ ':') :
    position? w code (l ++ ":" ++ r) = (do
      let line ← number? l
      let column ← number? r
      guard (line ≠ 0)
      offsetAt w code (line - 1) column) := by
  have hall : ∀ c ∈ l.toList, (c != ':') = true := fun c hc => bne_iff_ne.mpr (hl c hc)
  have hlist : (l ++ ":" ++ r).toList = l.toList ++ ':' :: r.toList := by simp
  have hdrop : (l.toList ++ ':' :: r.toList).dropWhile (· != ':') = ':' :: r.toList := by
    rw [List.dropWhile_append_of_pos hall]
    rfl
  have htake : (l.toList ++ ':' :: r.toList).takeWhile (· != ':') = l.toList := by
    rw [List.takeWhile_append_of_pos hall]
    simp
  simp only [position?, hlist, hdrop, htake, String.ofList_toList]

theorem position?_toString (hline : line + 1 < 2 ^ 64) (hcolumn : column < 2 ^ 64) :
    position? w code (toString (line + 1) ++ ":" ++ toString column) =
      offsetAt w code line column := by
  have hcolon : ∀ c ∈ (toString (line + 1)).toList, c ≠ ':' := by
    intro c hc
    rw [Nat.toString_eq_ofList_toDigits, String.toList_ofList] at hc
    rintro rfl
    have hdigit := Nat.isDigit_of_mem_toDigits (by decide) (by decide) hc
    contradiction
  rw [position?_append hcolon, number?_toString hline, number?_toString hcolumn]
  rfl

end numbers

section readback

/-- The width of a text that fits in memory fits in a machine word. -/
def InWord (w : Widths) : Prop :=
  ∀ text : String, (bytes text).size < 2 ^ 63 → w.text text < 2 ^ 64

theorem renderPosition_eq (w : Widths) (hpos : isBoundary (bytes text) pos = true) :
    renderPosition w (bytes text) pos = toString (lineNumber (bytes text) pos + 1) ++ ":" ++
      toString (w.text (read (bytes text) ⟨(lineSpan (bytes text) pos).start, pos⟩)) := by
  obtain ⟨-, hle, -, -⟩ := lineSpan_boundary text pos
  rw [clamp_of_isBoundary hpos] at hle
  rw [renderPosition, positionOf, clamp_of_isBoundary hpos, Nat.max_eq_left hle]

theorem exists_readback (hw : InWord w) (hsize : (bytes text).size < 2 ^ 63)
    (hpos : isBoundary (bytes text) pos = true) :
    ∃ b, position? w (bytes text) (renderPosition w (bytes text) pos) = some b ∧
      FoundAt w (bytes text) (lineSpan (bytes text) pos)
        (w.text (read (bytes text) ⟨(lineSpan (bytes text) pos).start, pos⟩)) b := by
  obtain ⟨-, hle, hstart, -⟩ := lineSpan_boundary text pos
  rw [clamp_of_isBoundary hpos] at hle
  have hread := size_read hle hstart hpos
  have hend := le_size_of_isBoundary hpos
  have hcolumn := hw (read (bytes text) ⟨(lineSpan (bytes text) pos).start, pos⟩) (by omega)
  have hline : lineNumber (bytes text) pos ≤ (bytes text).size := by
    have hcount := List.countP_le_length
      (p := test (· == '\n') (bytes text)) (l := List.range (clamp (bytes text) pos))
    rw [List.length_range] at hcount
    exact Nat.le_trans hcount (le_size_of_isBoundary (isBoundary_clamp _ pos))
  rw [renderPosition_eq w hpos, position?_toString (by omega) hcolumn]
  exact offsetAt_lineNumber w text pos _

end readback

/-- A printed position is read back as an offset in the same line. It is the offset that was printed
exactly if the text before it in the line, taken as one, is wider than the characters up to each
earlier offset, and no wider than the characters up to this one unless the line ends there. Where
text and characters are of one width, nothing of width lies between what is read back and what was
printed. -/
theorem readback_iff (w : Widths) (hw : InWord w) (text : String)
    (hsize : (bytes text).size < 2 ^ 63) {pos : Nat} (hpos : isBoundary (bytes text) pos = true)
    (hstop : pos ≤ (lineSpan (bytes text) pos).stop) :
    let code := bytes text
    let line := lineSpan code pos
    let width := w.text (read code ⟨line.start, pos⟩)
    ∃ b, position? w code (renderPosition w code pos) = some b ∧ line.touches b = true ∧
      (b = pos ↔ (width ≤ columns w code line.start pos ∨ pos = line.stop) ∧
        ∀ b' < pos, line.start ≤ b' → isBoundary code b' = true →
          columns w code line.start b' < width) ∧
      (width = columns w code line.start pos →
        b ≤ pos ∧ columns w code line.start b = width) := by
  intro code line width
  obtain ⟨b, hread, hfound⟩ := exists_readback hw hsize hpos
  obtain ⟨-, hle, hstart, -⟩ := lineSpan_boundary text pos
  rw [clamp_of_isBoundary hpos] at hle
  refine ⟨b, hread, hfound.touches, ⟨?_, fun ⟨hreach, hbefore⟩ => ?_⟩, fun hwidth => ?_⟩
  · rintro rfl
    exact ⟨hfound.reaches, fun b' hlt hfrom hb' => hfound.first b' hb' hfrom hlt⟩
  · exact hfound.unique ⟨Span.touches_iff.mpr ⟨hle, hstop⟩, hpos, hreach,
      fun b' hb' hfrom hlt => hbefore b' hlt hfrom hb'⟩
  · have hb : b ≤ pos := Nat.le_of_not_lt fun hlt =>
      absurd (hfound.first pos hpos hle hlt) (Nat.not_lt.mpr (Nat.le_of_eq hwidth))
    refine ⟨hb, ?_⟩
    rcases hfound.reaches with hreach | hend
    · have hmono := columns_mono w hstart hfound.boundary hpos
        (Span.touches_iff.mp hfound.touches).1 hb
      exact Nat.le_antisymm (hwidth ▸ hmono) hreach
    · obtain rfl : b = pos := Nat.le_antisymm hb (hend ▸ hstop)
      exact hwidth.symm

section sample

theorem ofList_le {char? : Char → Option Nat} (hchar : ∀ c, (char? c).getD 1 ≤ 2)
    (l : List Char) : Widths.ofList char? l ≤ 2 * (bytes (.ofList l)).size := by
  induction l using Widths.ofList.induct with
  | case1 => exact Nat.zero_le _
  | case2 rest ih =>
    rw [Widths.ofList, size_bytes_cons, size_bytes_cons]
    have := Char.utf8Size_pos '\u2764'
    omega
  | case3 c rest _ ih =>
    rw [Widths.ofList, size_bytes_cons]
    · have := Char.utf8Size_pos c
      have := hchar c
      omega
    · assumption

theorem inWord_sample : InWord .sample := fun text hsize => by
  have hle : Widths.sample.text text ≤ 2 * (bytes (.ofList text.toList)).size :=
    ofList_le (fun c => by split_ifs <;> decide) text.toList
  rw [String.ofList_toList] at hle
  omega

end sample

theorem readback_iff_wide : InWord .sample ∧ (bytes "a\n你好x\r\n").size < 2 ^ 63 ∧
    isBoundary (bytes "a\n你好x\r\n") 5 = true ∧
    5 ≤ (lineSpan (bytes "a\n你好x\r\n") 5).stop ∧
    position? .sample (bytes "a\n你好x\r\n") (renderPosition .sample (bytes "a\n你好x\r\n") 5) =
      some 5 := by
  have hsize : (bytes "a\n你好x\r\n").size < 2 ^ 63 := by decide +kernel
  have hpos : isBoundary (bytes "a\n你好x\r\n") 5 = true := by decide +kernel
  have hstop : 5 ≤ (lineSpan (bytes "a\n你好x\r\n") 5).stop := by decide +kernel
  obtain ⟨b, hread, -, hiff, -⟩ :=
    readback_iff .sample inWord_sample "a\n你好x\r\n" hsize hpos hstop
  obtain rfl := hiff.mpr (by decide +kernel)
  exact ⟨inWord_sample, hsize, hpos, hstop, hread⟩

/-- A heart that is drawn as an emoji takes two columns and its characters together only one, so the
letter behind it is passed over. A mark of no width is left behind with what comes after it. -/
theorem readback_ne : InWord .sample ∧
    position? .sample (bytes "\u2764\ufe0fxy")
      (renderPosition .sample (bytes "\u2764\ufe0fxy") 6) = some 7 ∧
    isBoundary (bytes "\u2764\ufe0fxy") 6 = true ∧
    6 ≤ (lineSpan (bytes "\u2764\ufe0fxy") 6).stop ∧
    position? .sample (bytes "e\u0301x") (renderPosition .sample (bytes "e\u0301x") 3) = some 1 :=
  ⟨inWord_sample, by decide +kernel⟩

end Caret.Command
