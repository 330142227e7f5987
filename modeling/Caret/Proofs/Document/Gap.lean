import Caret.Proofs.Document.Clamping

/-!
What lies around an offset of a stylesheet: a shortest run, or the gap between the runs. A rule
begins its body at a brace, which is a run of its own, and ends it at another or with the text, so
the offsets of a gap are all in the same bodies and have one scope.
-/

namespace Caret.Document

open Stylesheet Text

variable {text : String} {code : Bytes} {l : Language} {d : Document} {pos p : Nat} {s t : Span}

def Clear (d : Document) (s : Span) : Prop :=
  ∀ p, s.contains p = true → ∀ r ∈ d.runs, r.span.contains p = false

/-- The widest span of the text that holds an offset and meets no run. -/
structure Gap (d : Document) (pos : Nat) (s : Span) : Prop where
  contains : s.contains pos = true
  within : s.stop ≤ d.code.size
  clear : d.Clear s
  widest : ∀ t : Span, t.contains pos = true → t.stop ≤ d.code.size → d.Clear t →
    s.covers t = true

theorem Gap.unique (hs : d.Gap pos s) (ht : d.Gap pos t) : s = t := by
  apply Span.covers_antisymm
  · exact hs.widest t ht.contains ht.within ht.clear
  · exact ht.widest s hs.contains hs.within hs.clear

theorem Clear.union (hs : d.Clear s) (ht : d.Clear t) (hps : s.contains pos = true)
    (hpt : t.contains pos = true) : d.Clear ⟨min s.start t.start, max s.stop t.stop⟩ := by
  intro p hp
  by_cases hin : s.contains p = true
  · exact hs p hin
  · apply ht p
    simp only [Span.contains_iff] at hps hpt hp hin ⊢
    omega

theorem Gap.of_contains (h : d.Gap pos s) (hp : s.contains p = true) : d.Gap p s where
  contains := hp
  within := h.within
  clear := h.clear
  widest t ht hstop hclear := by
    have hpos := Span.contains_iff.mp h.contains
    have hunion : s.covers ⟨min s.start t.start, max s.stop t.stop⟩ = true := by
      apply h.widest
      · rw [Span.contains_iff]
        simp only
        omega
      · exact Nat.max_le.mpr ⟨h.within, hstop⟩
      · exact h.clear.union hclear hp ht
    rw [Span.covers_iff] at hunion ⊢
    simp only at hunion
    omega

section edges

def edgeBefore (d : Document) (pos : Nat) : Nat :=
  ((d.runs.map (·.span.stop)).filter (· ≤ pos)).max?.getD 0

def edgeAfter (d : Document) (pos : Nat) : Nat :=
  ((d.runs.map (·.span.start)).filter (pos < ·)).min?.getD d.code.size

theorem edgeBefore_spec (d : Document) (pos : Nat) : d.edgeBefore pos ≤ pos ∧
    (∀ r ∈ d.runs, r.span.stop ≤ pos → r.span.stop ≤ d.edgeBefore pos) ∧
    (d.edgeBefore pos = 0 ∨ ∃ r ∈ d.runs, r.span.stop = d.edgeBefore pos) := by
  unfold edgeBefore
  cases h : ((d.runs.map (·.span.stop)).filter (· ≤ pos)).max? with
  | none =>
    rw [List.max?_eq_none_iff] at h
    refine ⟨Nat.zero_le pos, fun r hr hle => ?_, .inl rfl⟩
    have := List.filter_eq_nil_iff.mp h r.span.stop (List.mem_map_of_mem hr)
    simp [hle] at this
  | some n =>
    obtain ⟨hmem, hmax⟩ := List.max?_eq_some_iff.mp h
    obtain ⟨hmem, hle⟩ := List.mem_filter.mp hmem
    obtain ⟨r, hr, hn⟩ := List.mem_map.mp hmem
    refine ⟨of_decide_eq_true hle, fun r hr hle => ?_, .inr ⟨r, hr, hn⟩⟩
    exact hmax _ (List.mem_filter.mpr ⟨List.mem_map_of_mem hr, decide_eq_true hle⟩)

theorem edgeAfter_spec (hp : pos < d.code.size) : pos < d.edgeAfter pos ∧
    (∀ r ∈ d.runs, pos < r.span.start → d.edgeAfter pos ≤ r.span.start) ∧
    (d.edgeAfter pos = d.code.size ∨ ∃ r ∈ d.runs, r.span.start = d.edgeAfter pos) := by
  unfold edgeAfter
  cases h : ((d.runs.map (·.span.start)).filter (pos < ·)).min? with
  | none =>
    rw [List.min?_eq_none_iff] at h
    refine ⟨hp, fun r hr hlt => ?_, .inl rfl⟩
    have := List.filter_eq_nil_iff.mp h r.span.start (List.mem_map_of_mem hr)
    simp [hlt] at this
  | some n =>
    obtain ⟨hmem, hmin⟩ := List.min?_eq_some_iff.mp h
    obtain ⟨hmem, hlt⟩ := List.mem_filter.mp hmem
    obtain ⟨r, hr, hn⟩ := List.mem_map.mp hmem
    refine ⟨of_decide_eq_true hlt, fun r hr hlt => ?_, .inr ⟨r, hr, hn⟩⟩
    exact hmin _ (List.mem_filter.mpr ⟨List.mem_map_of_mem hr, decide_eq_true hlt⟩)

theorem extractScope_of_none (h : d.runAt pos = none) (hp : pos < d.code.size) :
    d.extractScope pos = ⟨d.edgeBefore pos, d.edgeAfter pos⟩ := by
  have hbefore := (edgeBefore_spec d pos).1
  have hafter := (edgeAfter_spec hp).1
  simp only [extractScope, h]
  rw [← edgeBefore, ← edgeAfter, Nat.max_eq_left (by omega)]

theorem gap_of_none (hruns : ∀ r ∈ d.runs, r.span.start < r.span.stop ∧ r.span.stop ≤ d.code.size)
    (h : d.runAt pos = none) (hp : pos < d.code.size) : d.Gap pos (d.extractScope pos) := by
  obtain ⟨hbefore, hlast, hstart⟩ := edgeBefore_spec d pos
  obtain ⟨hafter, hfirst, hstop⟩ := edgeAfter_spec hp
  rw [runAt_eq_none_iff] at h
  rw [extractScope_of_none (runAt_eq_none_iff.mpr h) hp]
  constructor
  case contains =>
    exact Span.contains_iff.mpr ⟨hbefore, hafter⟩
  case within =>
    rcases hstop with hsize | ⟨r, hr, hsize⟩
    · exact Nat.le_of_eq hsize
    · have := hruns r hr
      simp only
      omega
  case clear =>
    intro p hp r hr
    have hout := h r hr
    have hl := hlast r hr
    have hf := hfirst r hr
    simp only [Bool.eq_false_iff, ne_eq, Span.contains_iff] at hp hout ⊢
    omega
  case widest =>
    intro t ht hsize hclear
    rw [Span.contains_iff] at ht
    rw [Span.covers_iff]
    constructor
    · by_contra hlt
      rcases hstart with hzero | ⟨r, hr, hend⟩
      · simp only at hlt
        omega
      · -- the last offset of the run before
        have hin := hclear (d.edgeBefore pos - 1)
          (Span.contains_iff.mpr (by simp only at hlt; omega)) r hr
        have hne := (hruns r hr).1
        simp only [Bool.eq_false_iff, ne_eq, Span.contains_iff] at hin
        omega
    · by_contra hlt
      rcases hstop with hend | ⟨r, hr, hbegin⟩
      · simp only at hlt
        omega
      · have hin := hclear (d.edgeAfter pos)
          (Span.contains_iff.mpr (by simp only at hlt; omega)) r hr
        have hne := (hruns r hr).1
        simp only [Bool.eq_false_iff, ne_eq, Span.contains_iff] at hin
        omega

end edges

theorem opening_mem_ruleRuns (q : Rule) : (⟨q.body.start - 1, q.body.start⟩,
    "section.property-list.css punctuation.section.property-list.begin.css") ∈ ruleRuns q := by
  simp [ruleRuns]

theorem closing_mem_ruleRuns {q : Rule} (hc : q.closed = true) :
    (⟨q.body.stop, q.body.stop + 1⟩,
      "section.property-list.css punctuation.section.property-list.end.css") ∈ ruleRuns q := by
  simp [ruleRuns, hc]

section text

variable (hk : l.kind = .stylesheet)
include hk

theorem ofText_bodies :
    (ofText code l).bodies = (parse code).rules.toList.map (·.body) := by
  simp [ofText, hk]

theorem run_bounds {r : ScopedRun} (hr : r ∈ (ofText (bytes text) l).runs) :
    r.span.start < r.span.stop ∧ r.span.stop ≤ (bytes text).size := by
  have hne := (mem_stylesheetRuns.mp ((mem_ofText_runs hk).mp hr)).1
  exact ⟨Nat.lt_of_not_le (of_decide_eq_false hne), le_size_of_isBoundary (run_whole hr).stop⟩

theorem Gap.misses_ruleRuns (h : (ofText code l).Gap pos s) {q : Rule}
    (hq : q ∈ (parse code).rules) {part : Span × String} (hpart : part ∈ ruleRuns q)
    (hp : part.1.contains p = true) : s.contains p = false := by
  apply Bool.eq_false_iff.mpr
  intro hs
  have hmem : ⟨part.1, baseScope l ++ " " ++ part.2⟩ ∈ (ofText code l).runs := by
    rw [mem_ofText_runs hk, mem_stylesheetRuns]
    exact ⟨Span.isEmpty_of_contains hp, _, rfl, .inr (.inl ⟨q, hq, hpart⟩)⟩
  have hout := h.clear p hs _ hmem
  rw [hp] at hout
  contradiction

theorem Gap.body_contains (h : (ofText code l).Gap pos s) {q : Rule}
    (hq : q ∈ (parse code).rules) (hp : s.contains p = true)
    (hin : q.body.contains pos = true) : q.body.contains p = true := by
  have hf := (parse_spec code).1.rules q hq
  have hbrace := hf.selector_lt
  have hpos := Span.contains_iff.mp h.contains
  rw [Span.contains_iff] at hp hin ⊢
  -- a brace between the two offsets would be a run in the gap
  constructor
  · by_contra hlt
    have hout := h.misses_ruleRuns hk (p := q.body.start - 1) hq (opening_mem_ruleRuns q)
      (Span.contains_iff.mpr (by simp only; omega))
    simp only [Bool.eq_false_iff, ne_eq, Span.contains_iff] at hout
    omega
  · by_contra hle
    cases hc : q.closed with
    | true =>
      have hout := h.misses_ruleRuns hk (p := q.body.stop) hq (closing_mem_ruleRuns hc)
        (Span.contains_iff.mpr (by simp only; omega))
      simp only [Bool.eq_false_iff, ne_eq, Span.contains_iff] at hout
      omega
    | false =>
      have hend := (hf.of_unclosed hc).2
      have hsize : s.stop ≤ code.size := h.within
      omega

theorem scopeName_of_none (h : (ofText code l).runAt pos = none) :
    (ofText code l).scopeName pos =
      if (parse code).rules.toList.any (·.body.contains pos) then
        baseScope l ++ " section.property-list.css"
      else baseScope l := by
  have hlanguage : (ofText code l).language = l := rfl
  simp only [scopeName, h, hlanguage, hk, ofText_bodies hk, List.any_map]
  rfl

theorem Gap.scopeName_eq (h : (ofText code l).Gap pos s) (hp : s.contains p = true) :
    (ofText code l).scopeName p = (ofText code l).scopeName pos := by
  have hbody : (parse code).rules.toList.any (·.body.contains p) =
      (parse code).rules.toList.any (·.body.contains pos) := by
    rw [Bool.eq_iff_iff, List.any_eq_true, List.any_eq_true]
    constructor
    · rintro ⟨q, hq, hin⟩
      exact ⟨q, hq, (h.of_contains hp).body_contains hk (Array.mem_toList_iff.mp hq) h.contains hin⟩
    · rintro ⟨q, hq, hin⟩
      exact ⟨q, hq, h.body_contains hk (Array.mem_toList_iff.mp hq) hp hin⟩
  rw [scopeName_of_none hk (runAt_eq_none_iff.mpr (h.clear p hp)),
    scopeName_of_none hk (runAt_eq_none_iff.mpr (h.clear pos h.contains)), hbody]

/-- The region of a scope holds the offset. It is the span of a shortest run around the offset; if
there is none, it is the gap between the runs, and has the same extent and the same scope from each
of its offsets. -/
theorem extractScope_region (text : String) {pos : Nat} (hp : pos < (bytes text).size) :
    let d := ofText (bytes text) l
    (d.extractScope pos).contains pos = true ∧
    ((∃ r ∈ d.runs, r.span.contains pos = true) →
      ∃ r ∈ d.runs, d.extractScope pos = r.span ∧
        ∀ x ∈ d.runs, x.span.contains pos = true → r.span.size ≤ x.span.size) ∧
    ((∀ r ∈ d.runs, r.span.contains pos = false) →
      d.Gap pos (d.extractScope pos) ∧
        ∀ p, (d.extractScope pos).contains p = true →
          d.extractScope p = d.extractScope pos ∧ d.scopeName p = d.scopeName pos) := by
  intro d
  have hgap (p : Nat) (hrun : d.runAt p = none) (hp : p < d.code.size) :
      d.Gap p (d.extractScope p) := gap_of_none (fun r hr => run_bounds hk hr) hrun hp
  refine ⟨?_, fun ⟨x, hx, hin⟩ => ?_, fun hnone => ?_⟩
  · cases hr : d.runAt pos with
    | none => exact (hgap pos hr hp).contains
    | some r =>
      rw [extractScope_of_some hr]
      exact (mem_of_runAt hr).2
  · obtain ⟨r, hr⟩ := exists_runAt hx hin
    exact ⟨r, (mem_of_runAt hr).1, extractScope_of_some hr, fun y hy => runAt_size_le hr hy⟩
  · have h := hgap pos (runAt_eq_none_iff.mpr hnone) hp
    refine ⟨h, fun p hin => ⟨?_, h.scopeName_eq hk hin⟩⟩
    have hsize := Nat.lt_of_lt_of_le (Span.contains_iff.mp hin).2 h.within
    exact (hgap p (runAt_eq_none_iff.mpr (h.clear p hin)) hsize).unique (h.of_contains hin)

end text

theorem extractScope_region_blanks : ∃ l : Language, l.kind = .stylesheet ∧
    3 < (bytes "a \x7b  b:c\x7d").size ∧
    (ofText (bytes "a \x7b  b:c\x7d") l).extractScope 3 = ⟨3, 5⟩ ∧
    (ofText (bytes "a \x7b  b:c\x7d") l).Gap 3 ⟨3, 5⟩ ∧
    (ofText (bytes "a \x7b  b:c\x7d") l).scopeName 4 =
      (ofText (bytes "a \x7b  b:c\x7d") l).scopeName 3 := by
  have hparse : parse (bytes "a \x7b  b:c\x7d") =
      { rules := #[⟨⟨0, 1⟩, ⟨3, 8⟩, ⟨0, 9⟩, true, none⟩]
        declarations := #[⟨⟨5, 6⟩, ⟨7, 8⟩, ⟨5, 8⟩, some 6, none, some 0⟩] } := by
    with_unfolding_all rfl
  have hp : 3 < (bytes "a \x7b  b:c\x7d").size := by decide
  have h := extractScope_region (l := css) rfl "a \x7b  b:c\x7d" hp
  have hruns : (ofText (bytes "a \x7b  b:c\x7d") css).runs =
      [⟨⟨0, 1⟩, "source.css meta.selector.css"⟩,
        ⟨⟨2, 3⟩, "source.css section.property-list.css " ++
          "punctuation.section.property-list.begin.css"⟩,
        ⟨⟨5, 6⟩, "source.css meta.declaration.css meta.property-name.css"⟩,
        ⟨⟨6, 7⟩, "source.css meta.declaration.css meta.property-value.css " ++
          "punctuation.separator.key-value.css"⟩,
        ⟨⟨7, 8⟩, "source.css meta.declaration.css meta.property-value.css"⟩,
        ⟨⟨8, 9⟩, "source.css section.property-list.css " ++
          "punctuation.section.property-list.end.css"⟩] := by
    rw [ofText_runs rfl, hparse]
    simp [stylesheetRuns, ruleRuns, declarationRuns, baseScope, css, Span.between, Span.isEmpty,
      List.mergeSort, List.MergeSort.Internal.splitInTwo]
  have hextract : (ofText (bytes "a \x7b  b:c\x7d") css).extractScope 3 = ⟨3, 5⟩ := by
    rw [extractScope, runAt, hruns]
    rfl
  obtain ⟨hgap, hsame⟩ := h.2.2 (by simp [hruns, Span.contains])
  rw [hextract] at hgap hsame
  exact ⟨css, rfl, hp, hextract, hgap, (hsame 4 (by decide)).2⟩

end Caret.Document
