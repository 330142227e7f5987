import Caret.Proofs.Document.Property
import Caret.Proofs.Markup.Edge
import Caret.Proofs.Stylesheet.Edge

namespace Caret.Document

open Scope Stylesheet Text

variable {text : String} {l : Language} {document : Document} {r : ScopedRun} {pos : Nat}

section whole

variable {s : Stylesheet} {stop : Nat} (hw : s.WellFormed (bytes text) stop)
  (he : s.Edged (bytes text))
include hw he

theorem ruleRuns_whole {q : Rule} (hq : q ∈ s.rules) {part : Span × String}
    (h : part ∈ ruleRuns q) : Whole (bytes text) part.1 := by
  have hf := hw.rules q hq
  simp only [ruleRuns, List.mem_append, List.mem_cons, List.not_mem_nil, or_false] at h
  rcases h with (rfl | rfl) | h
  · exact (he.rules q hq).toWhole
  · have hbrace := Whole.unit hf.opening (by decide)
    rwa [Nat.sub_add_cancel (Nat.zero_lt_of_lt hf.selector_lt)] at hbrace
  · split at h
    · next hclosed =>
      obtain rfl := List.mem_singleton.mp h
      exact Whole.unit (hf.of_closed hclosed).1 (by decide)
    · simp at h

theorem declarationRuns_whole {d : Declaration} (hd : d ∈ s.declarations) {part : Span × String}
    (h : part ∈ declarationRuns d) : Whole (bytes text) part.1 := by
  have hf := hw.declarations d hd
  have hname := he.names d hd
  have hvalue := he.values d hd
  have hcolon {c : Nat} (hc : d.colon = some c) : Whole (bytes text) ⟨c, c + 1⟩ :=
    Whole.unit (hf.colon c hc).1 (by decide)
  have hterminator {t : Nat} (ht : d.terminator = some t) : Whole (bytes text) ⟨t, t + 1⟩ :=
    Whole.unit (hf.terminator t ht).1 (by decide)
  have hstop : isBoundary (bytes text) (d.terminator.getD d.value.stop) = true := by
    cases ht : d.terminator with
    | none => exact hvalue.stop
    | some t => exact (hterminator ht).start
  simp only [declarationRuns, List.mem_append, List.mem_cons, List.mem_map, Option.mem_toList] at h
  rcases h with (rfl | h) | ⟨t, ht, rfl⟩
  · exact hname
  · cases hc : d.colon with
    | some c =>
      simp only [hc, List.mem_cons, List.not_mem_nil, or_false] at h
      rcases h with rfl | rfl | rfl
      · exact Whole.between hname.stop (hcolon hc).start
      · exact hcolon hc
      · exact Whole.between (hcolon hc).stop hstop
    | none =>
      simp only [hc, List.mem_cons, List.not_mem_nil, or_false] at h
      obtain rfl := h
      exact Whole.between hvalue.start hstop
  · exact hterminator ht

theorem stylesheetRuns_whole {base : String} (h : r ∈ stylesheetRuns base s) :
    Whole (bytes text) r.span := by
  obtain ⟨-, scope, -, hpart⟩ := mem_stylesheetRuns.mp h
  rcases hpart with ⟨hc, -⟩ | ⟨q, hq, hpart⟩ | ⟨d, hd, hpart⟩
  · exact he.comments _ hc
  · exact ruleRuns_whole hw he hq hpart
  · exact declarationRuns_whole hw he hd hpart

end whole

theorem findEmbeddings_whole {e : Embedding} (h : e ∈ findEmbeddings (bytes text)) :
    Whole (bytes text) e.span := by
  obtain ⟨element, helement, h⟩ := List.mem_flatMap.mp (List.mem_mergeSort.mp h)
  simp only [elementEmbeddings, List.mem_append, List.mem_map, List.mem_filterMap] at h
  rcases h with h | ⟨_, ⟨a, ha, hvalue⟩, rfl⟩
  · split at h
    · obtain ⟨s, hs, rfl⟩ := List.mem_map.mp h
      exact Markup.inner_whole helement (Option.mem_toList.mp hs)
    · simp at h
  · obtain ⟨value, hv, hvalue⟩ := Option.bind_eq_some_iff.mp hvalue
    split at hvalue
    · obtain rfl := Option.some.inj hvalue
      exact Markup.unquoted_whole (Markup.value_whole (Markup.opening_whole helement).2 ha hv)
    · simp at hvalue

theorem exists_region (h : r ∈ (ofText (bytes text) l).runs) : ∃ base region isInline,
    Whole (bytes text) region ∧
      r ∈ stylesheetRuns base (parseRegion (bytes text) region isInline) := by
  simp only [ofText, List.mem_mergeSort, List.mem_flatMap] at h
  obtain ⟨⟨base, s⟩, hs, hr⟩ := h
  split at hs
  · obtain ⟨rfl, rfl⟩ := Prod.mk.inj (List.mem_singleton.mp hs)
    exact ⟨_, _, _, whole_self _, hr⟩
  · obtain ⟨e, he, heq⟩ := List.mem_map.mp hs
    obtain ⟨rfl, rfl⟩ := Prod.mk.inj heq
    split at he
    · exact ⟨_, _, _, findEmbeddings_whole he, hr⟩
    · simp at he

theorem run_whole (h : r ∈ (ofText (bytes text) l).runs) : Whole (bytes text) r.span := by
  obtain ⟨base, region, isInline, hregion, hr⟩ := exists_region h
  obtain ⟨hw, he⟩ := parseRegion_spec hregion isInline
  exact stylesheetRuns_whole hw he hr

theorem runAt_clamp (text : String) (l : Language) (pos : Nat) :
    (ofText (bytes text) l).runAt (clamp (bytes text) pos) =
      (ofText (bytes text) l).runAt pos := by
  unfold runAt
  rw [List.filter_congr fun r hr => (run_whole hr).contains_clamp pos]

theorem property?_congr (hl : l ∈ Language.builtin) {code : Bytes} {pos pos' : Nat}
    (h : (ofText code l).runAt pos = (ofText code l).runAt pos') :
    (ofText code l).view.property? pos = (ofText code l).view.property? pos' := by
  cases hr : (ofText code l).runAt pos' with
  | none =>
    rw [View.property?, View.property?, isSelected_value_of_none hl (h.trans hr),
      isSelected_value_of_none hl hr]
    rfl
  | some r =>
    rw [View.property?, View.property?, isSelected_of_runAt (h.trans hr), isSelected_of_runAt hr,
      extractScope_of_runAt (h.trans hr), extractScope_of_runAt hr]

theorem classify_clamp (d : Document) (pos : Nat) :
    d.classify (clamp d.code pos) = d.classify pos := by
  simp only [classify, clamp_of_isBoundary (isBoundary_clamp d.code pos)]

theorem resolve_clamp (text : String) (hl : l ∈ Language.builtin) (pos : Nat) (deep : Bool) :
    (ofText (bytes text) l).view.resolve pos deep =
      (ofText (bytes text) l).view.resolve (clamp (bytes text) pos) deep := by
  have hclassify : (ofText (bytes text) l).view.classify (clamp (bytes text) pos) =
      (ofText (bytes text) l).view.classify pos :=
    congrArg some (classify_clamp (ofText (bytes text) l) pos)
  have hproperty := property?_congr hl (runAt_clamp text l pos)
  have htag (xml : Bool) : enclosingTag? (bytes text) xml (clamp (bytes text) pos) =
      enclosingTag? (bytes text) xml pos := by
    rw [enclosingTag?, enclosingTag?, Markup.innermost?_clamp]
  have hcode : (ofText (bytes text) l).view.code = bytes text := rfl
  simp only [View.resolve, View.surroundings?, hclassify, hproperty, hcode, htag]

theorem resolve_clamp_css : ∃ l ∈ Language.builtin, clamp (bytes "a{b:ü}") 5 = 4 ∧
    (ofText (bytes "a{b:ü}") l).view.resolve 5 true =
      (ofText (bytes "a{b:ü}") l).view.resolve 4 true := by
  have hl : { name := "css", kind := .stylesheet, extensions := ["css"] } ∈ Language.builtin := by
    decide
  have hclamp : clamp (bytes "a{b:ü}") 5 = 4 := by
    decide
  have h := resolve_clamp "a{b:ü}" hl 5 true
  rw [hclamp] at h
  exact ⟨_, hl, hclamp, h⟩

end Caret.Document
