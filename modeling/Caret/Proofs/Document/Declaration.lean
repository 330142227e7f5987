import Caret.Document
import Caret.Proofs.Stylesheet.Comment
import Mathlib.Data.List.Pairwise

namespace Caret

open Text

namespace Stylesheet.Declaration

variable {code : Bytes} {comments : Array Span} {d : Declaration} {pos : Nat}

def valuePart (d : Declaration) : Span :=
  ⟨d.colon.getD d.value.start, d.terminator.elim d.value.stop (· + 1)⟩

def valueSpan (d : Declaration) : Span :=
  ⟨d.colon.elim d.value.start (· + 1), d.terminator.getD d.value.stop⟩

def valuePieces (d : Declaration) : List Span :=
  (d.colon.map fun c => ⟨c, c + 1⟩).toList ++ d.valueSpan ::
    (d.terminator.map fun t => ⟨t, t + 1⟩).toList

theorem Formed.valueSpan_le (h : d.Formed code) (hu : d.Uncommented code comments) :
    d.valueSpan.start ≤ d.valueSpan.stop := by
  have hvalue := h.value_le
  have hcolon := h.colon
  have hterm := hu.terminator
  unfold valueSpan
  cases hc : d.colon with
  | none =>
    cases ht : d.terminator with
    | none => exact hvalue
    | some t => exact Nat.le_trans hvalue (hterm t ht).2
  | some c =>
    have := (hcolon c hc).2.2
    cases ht : d.terminator with
    | none => exact Nat.le_trans this hvalue
    | some t => exact Nat.le_trans (Nat.le_trans this hvalue) (hterm t ht).2

theorem mem_valuePieces {piece : Span} : piece ∈ d.valuePieces ↔
    (∃ c, d.colon = some c ∧ piece = ⟨c, c + 1⟩) ∨ piece = d.valueSpan ∨
      ∃ t, d.terminator = some t ∧ piece = ⟨t, t + 1⟩ := by
  simp only [valuePieces, List.mem_append, List.mem_cons, Option.mem_toList, Option.map_eq_some_iff,
    eq_comm (a := piece)]

theorem Formed.contains_valuePart_iff (h : d.Formed code) (hu : d.Uncommented code comments) :
    d.valuePart.contains pos = true ↔ ∃ piece ∈ d.valuePieces, piece.contains pos = true := by
  have hle := h.valueSpan_le hu
  simp only [valueSpan] at hle
  cases hc : d.colon with
  | none =>
    cases ht : d.terminator with
    | none => simp [valuePart, valuePieces, valueSpan, hc, ht]
    | some t =>
      simp only [hc, ht, Option.elim_none, Option.getD_some] at hle
      simp [valuePart, valuePieces, valueSpan, hc, ht, Span.contains_iff]
      omega
  | some c =>
    cases ht : d.terminator with
    | none =>
      simp only [hc, ht, Option.elim_some, Option.getD_none] at hle
      simp [valuePart, valuePieces, valueSpan, hc, ht, Span.contains_iff]
      omega
    | some t =>
      simp only [hc, ht, Option.elim_some, Option.getD_some] at hle
      simp [valuePart, valuePieces, valueSpan, hc, ht, Span.contains_iff]
      omega

theorem Formed.covers_valuePart (h : d.Formed code) : d.span.covers d.valuePart = true := by
  have hname := Span.covers_iff.mp h.name_inside
  have hvalue := Span.covers_iff.mp h.value_inside
  have hlt := h.name_lt
  refine Span.covers_iff.mpr ⟨?_, ?_⟩
  · unfold valuePart
    cases hc : d.colon with
    | none => exact hvalue.1
    | some c =>
      have := (h.colon c hc).2.1
      simp only [Option.getD_some]
      omega
  · unfold valuePart
    cases ht : d.terminator with
    | none => exact hvalue.2
    | some t => exact Nat.le_of_eq (h.terminator t ht).2.symm

theorem Uncommented.eq_valueSpan {c piece : Span} (hu : d.Uncommented code comments)
    (hc : c ∈ comments) (hp : c.contains pos = true) (hmem : piece ∈ d.valuePieces)
    (hpiece : piece.contains pos = true) : piece = d.valueSpan := by
  rw [Span.contains_iff] at hp hpiece
  rcases mem_valuePieces.mp hmem with ⟨k, hcolon, rfl⟩ | rfl | ⟨t, ht, rfl⟩
  · have := (hu.colon k hcolon).lt_or_le hc
    simp only at hpiece
    omega
  · rfl
  · have := (hu.terminator t ht).1.lt_or_le hc
    simp only at hpiece
    omega

theorem Uncommented.valueSpan_covers {c : Span} (hu : d.Uncommented code comments)
    (hc : c ∈ comments) (hat : at? code c.start = some '/')
    (hlast : test isBlank code (c.stop - 1) = false)
    (hname : d.colon = none → d.name.stop ≤ c.start ∨ c.stop ≤ d.name.stop)
    (hp : c.contains pos = true) (hv : d.valueSpan.contains pos = true) :
    d.valueSpan.covers c = true := by
  rw [Span.contains_iff] at hp hv
  refine Span.covers_iff.mpr ⟨?_, ?_⟩
  · cases hcolon : d.colon with
    | some k =>
      have := (hu.colon k hcolon).lt_or_le hc
      simp only [valueSpan, hcolon, Option.elim_some] at hv ⊢
      omega
    | none =>
      obtain ⟨hle, hgap⟩ := hu.gap hcolon
      simp only [valueSpan, hcolon, Option.elim_none] at hv ⊢
      refine Nat.le_of_not_lt fun hbefore => ?_
      have hblank := hgap c.start (by have := hname hcolon; omega) hbefore
      rw [test_of_at? hat] at hblank
      contradiction
  · cases hterm : d.terminator with
    | some t =>
      have := (hu.terminator t hterm).1.lt_or_le hc
      simp only [valueSpan, hterm, Option.getD_some] at hv ⊢
      omega
    | none =>
      have := hu.value hterm c hc hlast
      simp only [valueSpan, hterm, Option.getD_none] at hv ⊢
      omega

end Stylesheet.Declaration

namespace Document

open Stylesheet

variable {code : Bytes} {comments : Array Span} {d : Declaration} {pos : Nat} {l : Language}
  {r : ScopedRun}

theorem mem_declarationRuns (h : d.Formed code) (hu : d.Uncommented code comments)
    {part : Span × String} : part ∈ declarationRuns d ↔
      part = (d.name, "meta.declaration.css meta.property-name.css") ∨
      (∃ c, d.colon = some c ∧ part = (⟨d.name.stop, c⟩, "meta.declaration.css")) ∨
      (∃ c, d.colon = some c ∧ part = (⟨c, c + 1⟩,
        "meta.declaration.css meta.property-value.css punctuation.separator.key-value.css")) ∨
      part = (d.valueSpan, "meta.declaration.css meta.property-value.css") ∨
      ∃ t, d.terminator = some t ∧ part = (⟨t, t + 1⟩,
        "meta.declaration.css meta.property-value.css punctuation.terminator.rule.css") := by
  have hle := h.valueSpan_le hu
  simp only [Declaration.valueSpan] at hle
  cases hc : d.colon with
  | none =>
    rw [hc, Option.elim_none] at hle
    simp [declarationRuns, Declaration.valueSpan, hc, Span.between_of_le hle, eq_comm]
  | some c =>
    rw [hc, Option.elim_some] at hle
    simp [declarationRuns, Declaration.valueSpan, hc, Span.between_of_le hle,
      Span.between_of_le (h.colon c hc).2.1, eq_comm]

theorem contains_of_mem_declarationRuns (h : d.Formed code) (hu : d.Uncommented code comments)
    {part : Span × String} (hpart : part ∈ declarationRuns d) (hp : part.1.contains pos = true) :
    d.span.contains pos = true := by
  have hname := Span.covers_iff.mp h.name_inside
  have hvalue := Span.covers_iff.mp h.value_inside
  have hpiece (hmem : part.1 ∈ d.valuePieces) : d.span.contains pos = true := by
    have hin := (h.contains_valuePart_iff hu).mpr ⟨_, hmem, hp⟩
    have hcover := Span.covers_iff.mp h.covers_valuePart
    simp only [Span.contains_iff] at hin ⊢
    omega
  rw [mem_declarationRuns h hu] at hpart
  rcases hpart with rfl | ⟨c, hc, rfl⟩ | ⟨c, hc, rfl⟩ | rfl | ⟨t, ht, rfl⟩
  · simp only [Span.contains_iff] at hp ⊢
    omega
  · have hlt := h.name_lt
    have hle := h.value_le
    have := h.colon c hc
    simp only [Span.contains_iff] at hp ⊢
    omega
  · exact hpiece (Declaration.mem_valuePieces.mpr (.inl ⟨c, hc, rfl⟩))
  · exact hpiece (Declaration.mem_valuePieces.mpr (.inr (.inl rfl)))
  · exact hpiece (Declaration.mem_valuePieces.mpr (.inr (.inr ⟨t, ht, rfl⟩)))

theorem exists_declarationRuns (h : d.Formed code) (hu : d.Uncommented code comments) {c : Nat}
    (hc : d.colon = some c) (hlt : d.name.start ≤ pos) (hle : pos < d.valuePart.stop) :
    ∃ part ∈ declarationRuns d, part.1.contains pos = true := by
  simp only [mem_declarationRuns h hu]
  rcases Nat.lt_or_ge pos d.name.stop with hname | hname
  · exact ⟨_, .inl rfl, by simp [Span.contains, hlt, hname]⟩
  · rcases Nat.lt_or_ge pos c with hgap | hgap
    · exact ⟨_, .inr (.inl ⟨c, hc, rfl⟩), by simp [Span.contains, hname, hgap]⟩
    · have hin : d.valuePart.contains pos = true := by
        simp only [Span.contains_iff]
        exact ⟨by simpa [Declaration.valuePart, hc] using hgap, hle⟩
      obtain ⟨piece, hpiece, hp⟩ := (h.contains_valuePart_iff hu).mp hin
      rcases Declaration.mem_valuePieces.mp hpiece with ⟨k, hk, rfl⟩ | rfl | ⟨t, ht, rfl⟩
      · exact ⟨_, .inr (.inr (.inl ⟨k, hk, rfl⟩)), hp⟩
      · exact ⟨_, .inr (.inr (.inr (.inl rfl))), hp⟩
      · exact ⟨_, .inr (.inr (.inr (.inr ⟨t, ht, rfl⟩))), hp⟩

theorem not_contains_of_mem_ruleRuns {stop : Nat} {s : Stylesheet} (h : s.WellFormed code stop)
    {q : Rule} (hq : q ∈ s.rules) (hd : d ∈ s.declarations) (hp : d.span.contains pos = true)
    {part : Span × String} (hpart : part ∈ ruleRuns q) : part.1.contains pos = false := by
  have hf := h.rules q hq
  have hstart := hf.span_start
  have hselector := hf.selector_le
  have hbrace := hf.selector_lt
  have hbody := hf.body_le
  have hend : q.body.stop ≤ q.span.stop := by
    cases hclosed : q.closed with
    | true => exact Nat.le_of_lt (by rw [(hf.of_closed hclosed).2]; exact Nat.lt_succ_self _)
    | false => exact Nat.le_of_eq ((hf.of_unclosed hclosed).2.trans (hf.of_unclosed hclosed).1.symm)
  have hap := h.declarations_laminar q hq d hd
  rw [Span.covers_iff] at hap
  refine Bool.eq_false_iff.mpr fun hin => ?_
  simp only [ruleRuns, List.mem_append, List.mem_cons, List.not_mem_nil, or_false] at hpart
  simp only [Span.contains_iff] at hp hin
  rcases hpart with (rfl | rfl) | hpart
  · simp only at hin
    omega
  · simp only at hin
    omega
  · split at hpart
    · next hclosed =>
      have := (hf.of_closed hclosed).2
      obtain rfl := List.mem_singleton.mp hpart
      simp only at hin
      omega
    · simp at hpart

theorem eq_of_contains {s : Stylesheet} {stop : Nat} (h : s.WellFormed code stop)
    {e : Declaration} (hd : d ∈ s.declarations) (he : e ∈ s.declarations)
    (hp : d.span.contains pos = true) (hp' : e.span.contains pos = true) : e = d := by
  have hpair := h.declarations_ordered.imp (S := fun c e : Declaration =>
    c.span.contains pos = true → e.span.contains pos = true → e = c) fun hle hc he => by
      simp only [Span.contains_iff] at hc he
      omega
  have : Std.Symm fun c e : Declaration =>
      c.span.contains pos = true → e.span.contains pos = true → e = c :=
    ⟨fun _ _ h hc he => (h he hc).symm⟩
  exact hpair.forall_of_forall (fun _ _ _ _ => rfl) (Array.mem_toList_iff.mpr hd)
    (Array.mem_toList_iff.mpr he) hp hp'

end Document

end Caret
