import Caret.Proofs.Text.Boundary
import Caret.Text.Line

namespace Caret.Text

variable {text : String} {i : Nat}

theorem at?_lineStart {code : Bytes} (hi : i ≤ code.size)
    (h : 0 < skipBack (· != '\n') code 0 i) :
    at? code (skipBack (· != '\n') code 0 i - 1) = some '\n' := by
  have hle := Nat.le_trans (skipBack_le (· != '\n') code 0 i) hi
  exact at?_of_test_bne (Nat.lt_of_lt_of_le (Nat.sub_one_lt_of_lt h) hle) (test_skipBack h)

theorem at?_lineStop {code : Bytes} (h : skip (· != '\n') code code.size i < code.size) :
    at? code (skip (· != '\n') code code.size i) = some '\n' :=
  at?_of_test_bne h (test_skip h)

theorem isBoundary_lineStart (h : isBoundary (bytes text) i = true) :
    isBoundary (bytes text) (skipBack (· != '\n') (bytes text) 0 i) = true := by
  by_cases hpos : 0 < skipBack (· != '\n') (bytes text) 0 i
  · rw [← Nat.sub_add_cancel hpos]
    exact (isBoundary_of_at? (at?_lineStart (le_size_of_isBoundary h) hpos) (by decide)).2
  · exact isBoundary_iff.mpr (.inl (Nat.eq_zero_of_not_pos hpos))

theorem isBoundary_lineStop (h : isBoundary (bytes text) i = true) :
    isBoundary (bytes text) (skip (· != '\n') (bytes text) (bytes text).size i) = true := by
  refine isBoundary_skip_of_not (fun c hc => ?_) (isBoundary_size _) (le_size_of_isBoundary h)
  rw [bne_eq_false_iff_eq.mp hc]
  decide

theorem lineSpan_boundary (text : String) (pos : Nat) :
    (lineSpan (bytes text) pos).start ≤ (lineSpan (bytes text) pos).stop ∧
      (lineSpan (bytes text) pos).start ≤ clamp (bytes text) pos ∧
      isBoundary (bytes text) (lineSpan (bytes text) pos).start = true ∧
      isBoundary (bytes text) (lineSpan (bytes text) pos).stop = true := by
  have hclamp := isBoundary_clamp (bytes text) pos
  have hback := skipBack_le (· != '\n') (bytes text) 0 (clamp (bytes text) pos)
  have hskip := le_skip (· != '\n') (bytes text) (bytes text).size (clamp (bytes text) pos)
  have hstart := isBoundary_lineStart hclamp
  have hstop := isBoundary_lineStop hclamp
  simp only [lineSpan]
  split
  · next h =>
    obtain ⟨c, hc, hreturn⟩ := test_iff.mp h.2
    obtain rfl := eq_of_beq hreturn
    exact ⟨Nat.le_sub_one_of_lt h.1, hback, hstart, (isBoundary_of_at? hc (by decide)).1⟩
  · exact ⟨Nat.le_trans hback hskip, hback, hstart, hstop⟩

section around

variable {code : Bytes} {pos j k : Nat}

theorem lineSpan_start (code : Bytes) (pos : Nat) :
    (lineSpan code pos).start = skipBack (· != '\n') code 0 (clamp code pos) := by
  simp only [lineSpan]
  split <;> rfl

theorem lineSpan_start_le (code : Bytes) (pos : Nat) :
    (lineSpan code pos).start ≤ clamp code pos :=
  lineSpan_start code pos ▸ skipBack_le ..

theorem lineSpan_stop_cases (code : Bytes) (pos : Nat) :
    (lineSpan code pos).stop = skip (· != '\n') code code.size (clamp code pos) ∨
      (lineSpan code pos).stop + 1 = skip (· != '\n') code code.size (clamp code pos) ∧
        at? code (lineSpan code pos).stop = some '\r' := by
  simp only [lineSpan]
  split
  · next h =>
    right
    constructor
    · exact Nat.sub_add_cancel (Nat.zero_lt_of_lt h.1)
    · exact test_beq_iff.mp h.2
  · left
    rfl

theorem lineSpan_stop_le (code : Bytes) (pos : Nat) :
    (lineSpan code pos).stop ≤ skip (· != '\n') code code.size (clamp code pos) := by
  rcases lineSpan_stop_cases code pos with hstop | ⟨hstop, -⟩
  · exact Nat.le_of_eq hstop
  · exact hstop ▸ Nat.le_succ _

theorem test_lineSpan (hk : (lineSpan code pos).start ≤ k)
    (hlt : k < skip (· != '\n') code code.size (clamp code pos)) :
    test (· != '\n') code k = true := by
  rcases Nat.lt_or_ge k (clamp code pos) with hbefore | hafter
  · exact test_of_skipBack_le hbefore (lineSpan_start code pos ▸ hk)
  · exact test_of_lt_skip hafter hlt

theorem lineSpan_first (h : 0 < (lineSpan code pos).start) :
    at? code ((lineSpan code pos).start - 1) = some '\n' := by
  rw [lineSpan_start] at h ⊢
  exact at?_lineStart (le_size_of_isBoundary (isBoundary_clamp code pos)) h

theorem lineSpan_congr (hj : isBoundary code j = true) (hstart : (lineSpan code pos).start ≤ j)
    (hstop : j ≤ skip (· != '\n') code code.size (clamp code pos)) :
    lineSpan code j = lineSpan code pos := by
  have hback : skipBack (· != '\n') code 0 j = skipBack (· != '\n') code 0 (clamp code pos) := by
    rw [lineSpan_start] at hstart
    refine skipBack_eq hstart (fun k hk hlt => ?_) test_skipBack
    exact test_lineSpan (lineSpan_start code pos ▸ hk) (Nat.lt_of_lt_of_le hlt hstop)
  have hskip : skip (· != '\n') code code.size j =
      skip (· != '\n') code code.size (clamp code pos) := by
    refine skip_eq hstop (skip_le _ _ ?_) (fun k hk hlt => ?_) test_skip
    · exact le_size_of_isBoundary (isBoundary_clamp code pos)
    · exact test_lineSpan (Nat.le_trans hstart hk) hlt
  simp only [lineSpan, clamp_of_isBoundary hj, hback, hskip]

theorem lineSpan_self (h : isBoundary code (lineSpan code pos).start = true) :
    lineSpan code (lineSpan code pos).start = lineSpan code pos :=
  lineSpan_congr h (Nat.le_refl _) (Nat.le_trans (lineSpan_start_le code pos) (le_skip ..))

/-- A line begins at the start of the text or behind a line feed, and what follows it is a line
feed, with or without a carriage return before it, or at most a carriage return and the end. -/
structure IsLine (code : Bytes) (s : Span) : Prop where
  le : s.start ≤ s.stop
  boundary_start : isBoundary code s.start = true
  boundary_stop : isBoundary code s.stop = true
  unbroken : ∀ k, s.start ≤ k → k < s.stop → at? code k ≠ some '\n'
  first : s.start = 0 ∨ at? code (s.start - 1) = some '\n'
  last : s.stop = code.size ∨ at? code s.stop = some '\n' ∨
    at? code s.stop = some '\r' ∧ (at? code (s.stop + 1) = some '\n' ∨ s.stop + 1 = code.size)

theorem lineSpan_ending (code : Bytes) (pos : Nat) :
    (lineSpan code pos).stop = code.size ∨ at? code (lineSpan code pos).stop = some '\n' ∨
      at? code (lineSpan code pos).stop = some '\r' ∧
        (at? code ((lineSpan code pos).stop + 1) = some '\n' ∨
          (lineSpan code pos).stop + 1 = code.size) := by
  have hclamp := le_size_of_isBoundary (isBoundary_clamp code pos)
  have hend : skip (· != '\n') code code.size (clamp code pos) = code.size ∨
      at? code (skip (· != '\n') code code.size (clamp code pos)) = some '\n' :=
    (Nat.eq_or_lt_of_le (skip_le _ code hclamp)).imp_right at?_lineStop
  rcases lineSpan_stop_cases code pos with hstop | ⟨hstop, hreturn⟩
  · rw [hstop]
    exact hend.imp_right .inl
  · rw [hstop]
    exact .inr (.inr ⟨hreturn, hend.symm⟩)

theorem isLine_lineSpan (text : String) (pos : Nat) :
    IsLine (bytes text) (lineSpan (bytes text) pos) := by
  obtain ⟨hle, -, hstart, hstop⟩ := lineSpan_boundary text pos
  refine ⟨hle, hstart, hstop, fun k hk hlt hbreak => ?_, ?_, lineSpan_ending _ pos⟩
  · have hnone := test_lineSpan hk (Nat.lt_of_lt_of_le hlt (lineSpan_stop_le _ pos))
    rw [test_of_at? hbreak] at hnone
    contradiction
  · exact (Nat.eq_zero_or_pos _).imp_right lineSpan_first

theorem touches_lineSpan (code : Bytes) (pos : Nat) :
    (lineSpan code pos).touches (clamp code pos) = true ∨
      clamp code pos = (lineSpan code pos).stop + 1 ∧
        at? code (lineSpan code pos).stop = some '\r' := by
  have hstart := lineSpan_start_le code pos
  have hle := le_skip (· != '\n') code code.size (clamp code pos)
  rcases lineSpan_stop_cases code pos with hstop | ⟨hstop, hreturn⟩
  · left
    exact Span.touches_iff.mpr ⟨hstart, hstop ▸ hle⟩
  · rcases Nat.eq_or_lt_of_le hle with heq | hlt
    · right
      exact ⟨heq.trans hstop.symm, hreturn⟩
    · left
      exact Span.touches_iff.mpr ⟨hstart, by omega⟩

theorem lineSpan_eq_or_lt {i : Nat} (h : (lineSpan code i).start ≤ (lineSpan code j).start)
    (hj : isBoundary code (lineSpan code j).start = true) :
    lineSpan code j = lineSpan code i ∨ (lineSpan code i).stop < (lineSpan code j).start := by
  rcases Nat.lt_or_ge (skip (· != '\n') code code.size (clamp code i)) (lineSpan code j).start
    with hlt | hge
  · right
    exact Nat.lt_of_le_of_lt (lineSpan_stop_le code i) hlt
  · left
    rw [← lineSpan_self hj]
    exact lineSpan_congr hj h hge

end around

/-- Lines part the text: each offset is on the line that is looked up for it or right behind the
carriage return after it, all places in a line have that line, and two lines are the same or
apart. -/
theorem lineSpan_partition (text : String) (pos : Nat) :
    let code := bytes text
    let line := lineSpan code pos
    IsLine code line ∧
      (line.touches (clamp code pos) = true ∨
        clamp code pos = line.stop + 1 ∧ at? code line.stop = some '\r') ∧
      (∀ q, isBoundary code q = true → line.touches q = true → lineSpan code q = line) ∧
      ∀ q, lineSpan code q = line ∨ (lineSpan code q).stop < line.start ∨
        line.stop < (lineSpan code q).start := by
  have hline := isLine_lineSpan text pos
  refine ⟨hline, touches_lineSpan _ pos, fun q hq htouches => ?_, fun q => ?_⟩
  · obtain ⟨hstart, hstop⟩ := Span.touches_iff.mp htouches
    exact lineSpan_congr hq hstart (Nat.le_trans hstop (lineSpan_stop_le _ pos))
  · have hother := isLine_lineSpan text q
    rcases Nat.le_total (lineSpan (bytes text) pos).start (lineSpan (bytes text) q).start
      with hle | hle
    · exact (lineSpan_eq_or_lt hle hother.boundary_start).imp_right .inr
    · exact (lineSpan_eq_or_lt hle hline.boundary_start).imp Eq.symm .inl

theorem lineSpan_partition_crlf : lineSpan (bytes "\u00e9\r\nb") 3 = ⟨0, 2⟩ ∧
    at? (bytes "\u00e9\r\nb") 2 = some '\r' ∧ isBoundary (bytes "\u00e9\r\nb") 2 = true ∧
    lineSpan (bytes "\u00e9\r\nb") 2 = ⟨0, 2⟩ := by
  have hspan : lineSpan (bytes "\u00e9\r\nb") 3 = ⟨0, 2⟩ := by decide +kernel
  have hb : isBoundary (bytes "\u00e9\r\nb") 2 = true := by decide +kernel
  obtain ⟨-, hplace, hsame, -⟩ := lineSpan_partition "\u00e9\r\nb" 3
  rw [hspan] at hplace hsame
  exact ⟨hspan, (hplace.resolve_left (by decide +kernel)).2, hb, hsame 2 hb rfl⟩

end Caret.Text
