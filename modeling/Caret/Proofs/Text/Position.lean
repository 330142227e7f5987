import Caret.Proofs.Sequence
import Caret.Proofs.Text.Part
import Caret.Proofs.Text.Line
import Caret.Proofs.Text.Written
import Caret.Text.Position
import Mathlib.Algebra.GroupWithZero.Nat
import Mathlib.Order.Bounds.Basic

namespace Caret.Text

def columns (w : Widths) (code : Bytes) (i j : Nat) : Nat :=
  ((read code ⟨i, j⟩).toList.map w.char).sum

/-- The boundaries of a line at which `column` columns have gone by. -/
def reached (w : Widths) (code : Bytes) (line : Span) (column : Nat) : Set Nat :=
  {b | line.touches b = true ∧ isBoundary code b = true ∧ column ≤ columns w code line.start b}

section columns

variable {text : String} {s : Span}

theorem advance_eq (w : Widths) (l : List Char) (offset column : Nat) : ∃ u v, l = u ++ v ∧
    advance w l offset column = offset + (bytes (.ofList u)).size ∧
    (column ≤ (u.map w.char).sum ∨ v = []) ∧
    ∀ u' v', u = u' ++ v' → v' ≠ [] → (u'.map w.char).sum < column := by
  induction l generalizing offset column with
  | nil =>
    exact ⟨[], [], rfl, rfl, .inr rfl,
      fun u' v' h hv => absurd (List.nil_eq_append_iff.mp h).2 hv⟩
  | cons c rest ih =>
    cases column with
    | zero =>
      exact ⟨[], c :: rest, rfl, rfl, .inl (Nat.zero_le _),
        fun u' v' h hv => absurd (List.nil_eq_append_iff.mp h).2 hv⟩
    | succ column =>
      obtain ⟨u, v, rfl, hadvance, hreach, hbefore⟩ :=
        ih (offset + c.utf8Size) (column + 1 - w.char c)
      refine ⟨c :: u, v, rfl, ?_, ?_, fun u' v' h hv => ?_⟩
      · rw [advance, hadvance, size_bytes_cons, Nat.add_assoc]
        exact Nat.succ_ne_zero column
      · rw [List.map_cons, List.sum_cons]
        exact hreach.imp_left fun h => by omega
      · cases u' with
        | nil => exact Nat.succ_pos column
        | cons d u' =>
          obtain ⟨rfl, hu⟩ := List.cons.inj h
          have := hbefore u' v' hu hv
          rw [List.map_cons, List.sum_cons]
          omega

theorem columns_append (w : Widths) (l m r : String) :
    columns w (bytes (l ++ m ++ r)) (bytes l).size ((bytes l).size + (bytes m).size) =
      (m.toList.map w.char).sum := by
  rw [columns, read_bytes_append]

theorem exists_append_between (w : Widths) {l m r : String} {b : Nat}
    (hb : isBoundary (bytes (l ++ m ++ r)) b = true) (hl : (bytes l).size ≤ b)
    (hm : b ≤ (bytes l).size + (bytes m).size) :
    ∃ u v, m = u ++ v ∧ b = (bytes l).size + (bytes u).size ∧
      columns w (bytes (l ++ m ++ r)) (bytes l).size b = (u.toList.map w.char).sum := by
  obtain ⟨i, rfl⟩ := Nat.exists_eq_add_of_le hl
  have hi : i ≤ (bytes m).size := Nat.le_of_add_le_add_left hm
  rw [Nat.add_comm, (partAt_bytes l m r).isBoundary_add hi] at hb
  obtain ⟨u, v, rfl, rfl⟩ := isBoundary_bytes.mp hb
  refine ⟨u, v, rfl, rfl, ?_⟩
  have hassoc : l ++ (u ++ v) ++ r = l ++ u ++ (v ++ r) := by simp only [String.append_assoc]
  rw [hassoc, columns_append]

theorem advance_spec (w : Widths) (hle : s.start ≤ s.stop)
    (hstart : isBoundary (bytes text) s.start = true)
    (hstop : isBoundary (bytes text) s.stop = true) (column : Nat) :
    let b := advance w (read (bytes text) s).toList s.start column
    s.start ≤ b ∧ b ≤ s.stop ∧ isBoundary (bytes text) b = true ∧
      (column ≤ columns w (bytes text) s.start b ∨ b = s.stop) ∧
      ∀ b', isBoundary (bytes text) b' = true → s.start ≤ b' → b' < b →
        columns w (bytes text) s.start b' < column := by
  obtain ⟨i, j⟩ := s
  obtain ⟨l, m, r, rfl, rfl, rfl⟩ := exists_append_of_isBoundary hle hstart hstop
  obtain ⟨u, v, hm, hadvance, hreach, hbefore⟩ := advance_eq w m.toList (bytes l).size column
  obtain rfl : m = .ofList u ++ .ofList v := by
    rw [← String.ofList_append, ← hm, String.ofList_toList]
  rw [read_bytes_append, hadvance]
  have hassoc : l ++ (.ofList u ++ .ofList v) ++ r = l ++ .ofList u ++ (.ofList v ++ r) := by
    simp only [String.append_assoc]
  rw [hassoc, size_bytes_append]
  refine ⟨Nat.le_add_right .., Nat.add_le_add_left (Nat.le_add_right ..) _, ?_, ?_,
    fun b' hb hlb hlt => ?_⟩
  · exact Nat.add_comm _ _ ▸ (partAt_bytes ..).last
  · rw [columns_append, String.toList_ofList]
    exact hreach.imp_right fun hv => by simp [hv, bytes_empty]
  · obtain ⟨x, y, hx, rfl, hcolumns⟩ := exists_append_between w hb hlb (Nat.le_of_lt hlt)
    rw [hcolumns]
    refine hbefore x.toList y.toList ?_ fun hy => ?_
    · rw [← String.toList_append, ← hx, String.toList_ofList]
    · rw [hx, String.toList_eq_nil_iff.mp hy, String.append_empty] at hlt
      exact Nat.lt_irrefl _ hlt

end columns

section lines

variable {text : String} {code : Bytes} {n i k : Nat} {c : Char} {p : Char → Bool}

theorem countP_range (p : Char → Bool) (code : Bytes) (n : Nat) :
    (List.range n).countP (test p code) = ((units code).take n).countP p := by
  induction n with
  | zero => rfl
  | succ n ih =>
    rw [List.range_succ, List.countP_append, ih, List.take_add_one, List.countP_append,
      getElem?_units, List.countP_singleton, test]
    cases at? code n <;> simp

theorem countP_size (hc : c.toNat < 128) (text : String) :
    (List.range (bytes text).size).countP (test (· == c) (bytes text)) = text.toList.count c := by
  rw [countP_range, units_bytes, ← length_encode, List.take_length, ← count_encode hc]
  rfl

def breaksBefore (code : Bytes) (i : Nat) : Nat := (List.range i).countP (test (· == '\n') code)

theorem breaksBefore_succ (code : Bytes) (i : Nat) : breaksBefore code (i + 1) =
    breaksBefore code i + if test (· == '\n') code i then 1 else 0 := by
  rw [breaksBefore, List.range_succ, List.countP_append, List.countP_singleton, breaksBefore]

theorem breaksBefore_mono (hik : i ≤ k) : breaksBefore code i ≤ breaksBefore code k := by
  induction hik with
  | refl => exact Nat.le_refl _
  | step _ ih => exact Nat.le_trans ih (breaksBefore_succ code _ ▸ Nat.le_add_right ..)

theorem breaksBefore_eq (hik : i ≤ k)
    (h : ∀ j, i ≤ j → j < k → test (· != '\n') code j = true) :
    breaksBefore code k = breaksBefore code i := by
  induction hik with
  | refl => rfl
  | @step k hik ih =>
    have hnone := test_beq_of_bne (h k hik (Nat.lt_succ_self k))
    rw [breaksBefore_succ, ih fun j hj hlt => h j hj (Nat.lt_succ_of_lt hlt), hnone]
    rfl

theorem lineNumber_eq (h : isBoundary code i = true) : lineNumber code i = breaksBefore code i := by
  rw [lineNumber, clamp_of_isBoundary h, breaksBefore]

structure LineStart (code : Bytes) (n i : Nat) : Prop where
  le_size : i ≤ code.size
  first : i = 0 ∨ at? code (i - 1) = some '\n'
  breaks : breaksBefore code i = n

theorem lineStart_of_getElem? (h : (lineStarts code)[n]? = some i) : LineStart code n i := by
  cases n with
  | zero =>
    obtain rfl : 0 = i := Option.some.inj h
    exact ⟨Nat.zero_le _, .inl rfl, rfl⟩
  | succ n =>
    rw [lineStarts, List.getElem?_cons_succ, List.getElem?_map] at h
    obtain ⟨j, hj, rfl⟩ := Option.map_eq_some_iff.mp h
    obtain ⟨hbreak, hlt, hcount⟩ := countP_of_getElem?_filter hj
    refine ⟨hlt, .inr (test_beq_iff.mp hbreak), ?_⟩
    rw [breaksBefore_succ, breaksBefore, hcount, if_pos hbreak]

theorem lineStarts_getElem?_eq_none (text : String) :
    (lineStarts (bytes text))[n]? = none ↔ text.toList.count '\n' < n := by
  rw [List.getElem?_eq_none_iff, lineStarts, List.length_cons, List.length_map,
    ← List.countP_eq_length_filter, countP_size (by decide), Nat.succ_le_iff]

theorem LineStart.breaks_lt (h : LineStart code n i) (hki : k < i) : breaksBefore code k < n := by
  have hbreak := h.first.resolve_left (Nat.ne_of_gt (Nat.zero_lt_of_lt hki))
  have hlast := breaksBefore_succ code (i - 1)
  rw [Nat.sub_add_cancel (Nat.zero_lt_of_lt hki), if_pos (test_beq_iff.mpr hbreak), h.breaks]
    at hlast
  have hmono : breaksBefore code k ≤ breaksBefore code (i - 1) :=
    breaksBefore_mono (Nat.le_sub_one_of_lt hki)
  omega

theorem LineStart.unique (h : LineStart code n i) (h' : LineStart code n k) : i = k := by
  rcases Nat.lt_trichotomy i k with hlt | rfl | hlt
  · exact absurd (h'.breaks_lt hlt) (by rw [h.breaks]; exact Nat.lt_irrefl n)
  · rfl
  · exact absurd (h.breaks_lt hlt) (by rw [h'.breaks]; exact Nat.lt_irrefl n)

theorem LineStart.boundary (h : LineStart (bytes text) n i) : isBoundary (bytes text) i = true := by
  by_cases hi : i = 0
  · exact hi ▸ isBoundary_zero _
  · rw [← Nat.sub_add_cancel (Nat.pos_of_ne_zero hi)]
    exact (isBoundary_of_at? (h.first.resolve_left hi) (by decide)).2

theorem LineStart.span_start (h : LineStart (bytes text) n i) :
    (lineSpan (bytes text) i).start = i := by
  rw [lineSpan_start, clamp_of_isBoundary h.boundary]
  refine skipBack_eq (Nat.le_refl i) (fun k hk hlt => absurd hlt (Nat.not_lt.mpr hk)) fun hpos => ?_
  rw [test_of_at? (h.first.resolve_left (Nat.ne_of_gt hpos))]
  rfl

theorem lineStart_lineSpan (code : Bytes) (pos : Nat) :
    LineStart code (lineNumber code pos) (lineSpan code pos).start := by
  have hclamp := le_size_of_isBoundary (isBoundary_clamp code pos)
  have hle := lineSpan_start_le code pos
  refine ⟨Nat.le_trans hle hclamp, ?_, (breaksBefore_eq hle fun j hj hlt => ?_).symm⟩
  · exact (Nat.eq_zero_or_pos _).imp_right lineSpan_first
  · exact test_lineSpan hj (Nat.lt_of_lt_of_le hlt (le_skip ..))

theorem LineStart.number_eq (h : LineStart (bytes text) n i)
    (hk : isBoundary (bytes text) k = true) (hik : i ≤ k)
    (hstop : k ≤ (lineSpan (bytes text) i).stop) : lineNumber (bytes text) k = n := by
  rw [lineNumber_eq hk, ← h.breaks]
  refine breaksBefore_eq hik fun j hj hlt => test_lineSpan (h.span_start.symm ▸ hj) ?_
  exact Nat.lt_of_lt_of_le hlt (Nat.le_trans hstop (lineSpan_stop_le ..))

end lines

section lookup

variable {w : Widths} {text : String} {line column b : Nat}

theorem offsetAt_eq (w : Widths) (code : Bytes) (line column : Nat) : offsetAt w code line column =
    (lineStarts code)[line]?.map fun start =>
      advance w (read code (lineSpan code start)).toList (lineSpan code start).start column := by
  unfold offsetAt
  cases (lineStarts code)[line]? <;> rfl

theorem offsetAt_eq_none (w : Widths) (text : String) (line column : Nat) :
    offsetAt w (bytes text) line column = none ↔ text.toList.count '\n' < line := by
  rw [offsetAt_eq, Option.map_eq_none_iff, lineStarts_getElem?_eq_none]

structure FoundAt (w : Widths) (code : Bytes) (line : Span) (column b : Nat) : Prop where
  touches : line.touches b = true
  boundary : isBoundary code b = true
  reaches : column ≤ columns w code line.start b ∨ b = line.stop
  first : ∀ b', isBoundary code b' = true → line.start ≤ b' → b' < b →
    columns w code line.start b' < column

theorem exists_lineStart (h : offsetAt w (bytes text) line column = some b) :
    ∃ start, LineStart (bytes text) line start ∧
      FoundAt w (bytes text) (lineSpan (bytes text) start) column b := by
  rw [offsetAt_eq] at h
  obtain ⟨start, hstart, rfl⟩ := Option.map_eq_some_iff.mp h
  obtain ⟨hle, -, hfirst, hlast⟩ := lineSpan_boundary text start
  obtain ⟨hfrom, hto, hb, hreach, hbefore⟩ := advance_spec w hle hfirst hlast column
  exact ⟨start, lineStart_of_getElem? hstart, Span.touches_iff.mpr ⟨hfrom, hto⟩, hb, hreach, hbefore⟩

theorem FoundAt.isLeast {code : Bytes} {s : Span} (h : FoundAt w code s column b) :
    IsLeast (reached w code s column) b ∨ reached w code s column = ∅ ∧ b = s.stop := by
  have hmin : ∀ b' ∈ reached w code s column, b ≤ b' := fun b' ⟨htouches, hb', hcolumn⟩ =>
    Nat.le_of_not_lt fun hlt => absurd hcolumn
      (Nat.not_le.mpr (h.first b' hb' (Span.touches_iff.mp htouches).1 hlt))
  by_cases hreach : column ≤ columns w code s.start b
  · exact .inl ⟨⟨h.touches, h.boundary, hreach⟩, hmin⟩
  · have hstop := h.reaches.resolve_left hreach
    refine .inr ⟨Set.eq_empty_of_forall_notMem fun b' hb' => hreach ?_, hstop⟩
    obtain rfl : b' = b :=
      Nat.le_antisymm (hstop ▸ (Span.touches_iff.mp hb'.1).2) (hmin b' hb')
    exact hb'.2.2

theorem FoundAt.mono {code : Bytes} {s : Span} {column' b' : Nat} (h : FoundAt w code s column b)
    (h' : FoundAt w code s column' b') (hle : column ≤ column') : b ≤ b' := by
  refine Nat.le_of_not_lt fun hlt => ?_
  have hbefore := h.first b' h'.boundary (Span.touches_iff.mp h'.touches).1 hlt
  have hstop := (Span.touches_iff.mp h.touches).2
  rcases h'.reaches with hreach | hend
  · omega
  · omega

theorem FoundAt.unique {code : Bytes} {s : Span} {b' : Nat} (h : FoundAt w code s column b)
    (h' : FoundAt w code s column b') : b = b' :=
  Nat.le_antisymm (h.mono h' (Nat.le_refl _)) (h'.mono h (Nat.le_refl _))

theorem breaksBefore_le (text : String) {i : Nat} (hi : i ≤ (bytes text).size) :
    breaksBefore (bytes text) i ≤ text.toList.count '\n' := by
  rw [← countP_size (by decide)]
  exact breaksBefore_mono hi

theorem lineNumber_le (text : String) (pos : Nat) :
    lineNumber (bytes text) pos ≤ text.toList.count '\n' :=
  breaksBefore_le text (le_size_of_isBoundary (isBoundary_clamp _ pos))

theorem offsetAt_lineNumber (w : Widths) (text : String) (pos column : Nat) :
    ∃ b, offsetAt w (bytes text) (lineNumber (bytes text) pos) column = some b ∧
      FoundAt w (bytes text) (lineSpan (bytes text) pos) column b := by
  have hstart := lineStart_lineSpan (bytes text) pos
  cases hfound : offsetAt w (bytes text) (lineNumber (bytes text) pos) column with
  | none =>
    exact absurd ((offsetAt_eq_none ..).mp hfound) (Nat.not_lt.mpr (lineNumber_le text pos))
  | some b =>
    obtain ⟨start, hstart', hb⟩ := exists_lineStart hfound
    obtain rfl := hstart.unique hstart'
    rw [lineSpan_self hstart.boundary] at hb
    exact ⟨b, rfl, hb⟩

theorem columns_mono (w : Widths) {i j k : Nat} (hi : isBoundary (bytes text) i = true)
    (hj : isBoundary (bytes text) j = true) (hk : isBoundary (bytes text) k = true) (hij : i ≤ j)
    (hjk : j ≤ k) : columns w (bytes text) i j ≤ columns w (bytes text) i k := by
  obtain ⟨l, m, r, rfl, rfl, rfl⟩ := exists_append_of_isBoundary (Nat.le_trans hij hjk) hi hk
  obtain ⟨u, v, rfl, rfl, hcolumns⟩ := exists_append_between w hj hij hjk
  rw [hcolumns, columns_append, String.toList_append, List.map_append, List.sum_append]
  exact Nat.le_add_right ..

end lookup

/-- A line is found if so many line feeds stand in the text, and in it the least boundary that the
column reaches, or its end if there is none. A later column leads no further back, and what is found
lies on the line. -/
theorem offsetAt_isLeast (w : Widths) (text : String) (line column : Nat) :
    let code := bytes text
    (offsetAt w code line column = none ↔ text.toList.count '\n' < line) ∧
    ∀ b, offsetAt w code line column = some b →
      (∃ s : Span, lineSpan code s.start = s ∧ lineNumber code s.start = line ∧
        (s.start = 0 ∨ at? code (s.start - 1) = some '\n') ∧
        (IsLeast (reached w code s column) b ∨ reached w code s column = ∅ ∧ b = s.stop)) ∧
      (∀ column' b', column ≤ column' → offsetAt w code line column' = some b' → b ≤ b') ∧
      (positionOf w code b).1 = line := by
  refine ⟨offsetAt_eq_none w text line column, fun b hb => ?_⟩
  obtain ⟨start, hstart, hfound⟩ := exists_lineStart hb
  have hspan := hstart.span_start
  have htouches := Span.touches_iff.mp hfound.touches
  rw [hspan] at htouches
  refine ⟨⟨lineSpan (bytes text) start, by rw [hspan], ?_, ?_, hfound.isLeast⟩,
    fun column' b' hle hb' => ?_, ?_⟩
  · rw [hspan]
    exact hstart.number_eq hstart.boundary (Nat.le_refl _) (Nat.le_trans htouches.1 htouches.2)
  · rw [hspan]
    exact hstart.first
  · obtain ⟨start', hstart', hfound'⟩ := exists_lineStart hb'
    obtain rfl := hstart.unique hstart'
    exact hfound.mono hfound' hle
  · have hclamp := clamp_of_isBoundary hfound.boundary
    simp only [positionOf, hclamp]
    exact hstart.number_eq hfound.boundary htouches.1 htouches.2

/-- A heart that is drawn as an emoji is wider than by itself. -/
def Widths.ofList (char? : Char → Option Nat) : List Char → Nat
  | [] => 0
  | '\u2764' :: '\ufe0f' :: rest => 2 + ofList char? rest
  | c :: rest => (char? c).getD 1 + ofList char? rest

def Widths.sample : Widths :=
  let char? (c : Char) : Option Nat :=
    if c.toNat < 32 then none
    else if "\u0301\ufe0f".toList.contains c then some 0
    else if "你好".toList.contains c then some 2
    else some 1
  ⟨char?, fun s => ofList char? s.toList⟩

theorem offsetAt_isLeast_mark : offsetAt .sample (bytes "ab\r\ne\u0301x") 1 1 = some 5 ∧
    (positionOf .sample (bytes "ab\r\ne\u0301x") 5).1 = 1 ∧
    ∃ s : Span, lineSpan (bytes "ab\r\ne\u0301x") s.start = s ∧
      lineNumber (bytes "ab\r\ne\u0301x") s.start = 1 ∧
      (s.start = 0 ∨ at? (bytes "ab\r\ne\u0301x") (s.start - 1) = some '\n') ∧
      (IsLeast (reached .sample (bytes "ab\r\ne\u0301x") s 1) 5 ∨
        reached .sample (bytes "ab\r\ne\u0301x") s 1 = ∅ ∧ 5 = s.stop) := by
  have h : offsetAt .sample (bytes "ab\r\ne\u0301x") 1 1 = some 5 := by decide +kernel
  obtain ⟨hline, -, hnumber⟩ := (offsetAt_isLeast .sample "ab\r\ne\u0301x" 1 1).2 5 h
  exact ⟨h, hnumber, hline⟩

end Caret.Text
