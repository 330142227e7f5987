import Caret.Context
import Caret.Proofs.Document.Declaration
import Caret.Proofs.Document.Run
import Caret.Proofs.Scope

/-!
The property around an offset of a stylesheet. Going back over the runs of a declaration comes to
its name, since only comments stand among them and the name does not begin in one.
-/

namespace Caret.Document

open Scope Stylesheet Text

variable {code : Bytes} {d : Declaration} {pos start probe : Nat} {l : Language} {r : ScopedRun}
  {scope selector : String} {document : Document}

section walk

theorem isSelected_of_runAt (h : document.runAt pos = some r) (selector : String) :
    document.view.isSelected pos selector = isSelectedBy r.scope selector := by
  simp [View.isSelected, view, scopeName, h]

theorem extractScope_of_runAt (h : document.runAt pos = some r) :
    document.view.extractScope pos = r.span := extractScope_of_some h

def isName (scope : String) : Bool :=
  !isSelectedBy scope "section.property-list" && !isSelectedBy scope "meta.selector" &&
    isSelectedBy scope "meta.property-name"

def isPassed (scope : String) : Bool :=
  !isSelectedBy scope "section.property-list" && !isSelectedBy scope "meta.selector" &&
    !isSelectedBy scope "meta.property-name"

theorem propertyBefore?_of_isName (h : document.runAt probe = some r) (hs : isName r.scope = true) :
    document.view.propertyBefore? (probe + 1) = some (read document.code r.span) := by
  simp only [isName, Bool.and_eq_true, Bool.not_eq_true'] at hs
  rw [View.propertyBefore?]
  simp only [isSelected_of_runAt h, extractScope_of_runAt h, hs, Bool.or_self, Bool.false_eq_true,
    if_false, if_true]
  rfl

theorem propertyBefore?_of_isPassed (h : document.runAt probe = some r)
    (hs : isPassed r.scope = true) :
    document.view.propertyBefore? (probe + 1) = document.view.propertyBefore? r.span.start := by
  have hp := Span.contains_iff.mp (mem_of_runAt h).2
  simp only [isPassed, Bool.and_eq_true, Bool.not_eq_true'] at hs
  rw [View.propertyBefore?]
  simp only [isSelected_of_runAt h, extractScope_of_runAt h, hs, Bool.or_self, Bool.false_eq_true,
    if_false, Nat.min_eq_left hp.1]

theorem property?_of_runAt (h : document.runAt pos = some r)
    (hs : isSelectedBy r.scope "meta.property-value" = true) :
    document.view.property? pos = document.view.propertyBefore? r.span.start := by
  rw [View.property?, isSelected_of_runAt h, if_pos hs, extractScope_of_runAt h]

end walk

def walkSelectors : List String :=
  ["section.property-list", "meta.selector", "meta.property-name", "meta.property-value"]

theorem parse_of_mem_walkSelectors :
    ∀ selector ∈ walkSelectors, Selector.parse selector = ⟨[[selector.toList]]⟩ := by
  decide

theorem isSelectedBy_baseScope : ∀ l ∈ Language.builtin,
    ∀ selector ∈ walkSelectors, isSelectedBy (baseScope l) selector = false := by
  decide

theorem isSelectedBy_embeddedScope : ∀ l ∈ Language.builtin, hasEmbeddings l = true →
    ∀ selector ∈ walkSelectors, isSelectedBy (embeddedScope l) selector = false := by
  decide

theorem isSelectedBy_append_base (hl : l ∈ Language.builtin) (hs : selector ∈ walkSelectors)
    (scope : String) :
    isSelectedBy (baseScope l ++ " " ++ scope) selector = isSelectedBy scope selector := by
  rw [isSelectedBy_append (parse_of_mem_walkSelectors selector hs),
    isSelectedBy_baseScope l hl selector hs, Bool.false_or]

theorem isName_append_base (hl : l ∈ Language.builtin) (scope : String) :
    isName (baseScope l ++ " " ++ scope) = isName scope := by
  unfold isName
  rw [isSelectedBy_append_base hl (by decide), isSelectedBy_append_base hl (by decide),
    isSelectedBy_append_base hl (by decide)]

theorem isPassed_append_base (hl : l ∈ Language.builtin) (scope : String) :
    isPassed (baseScope l ++ " " ++ scope) = isPassed scope := by
  unfold isPassed
  rw [isSelectedBy_append_base hl (by decide), isSelectedBy_append_base hl (by decide),
    isSelectedBy_append_base hl (by decide)]

theorem isSelectedBy_ruleRuns {q : Rule} {span : Span} (h : (span, scope) ∈ ruleRuns q)
    (hs : selector ∈ ["meta.property-name", "meta.property-value"]) :
    isSelectedBy scope selector = false := by
  revert selector
  simp only [ruleRuns, List.mem_append, List.mem_cons, List.not_mem_nil, or_false,
    Prod.mk.injEq] at h
  rcases h with (⟨-, rfl⟩ | ⟨-, rfl⟩) | h
  · decide
  · decide
  · split at h
    · obtain ⟨-, rfl⟩ := Prod.mk.inj (List.mem_singleton.mp h)
      decide
    · simp at h

theorem append_list (base : String) :
    base ++ " section.property-list.css" = base ++ " " ++ "section.property-list.css" := by
  rw [String.append_assoc]
  rfl

theorem isSelectedBy_list {base : String}
    (hbase : isSelectedBy base "meta.property-value" = false) :
    isSelectedBy (base ++ " section.property-list.css") "meta.property-value" = false := by
  rw [append_list, isSelectedBy_append (parse_of_mem_walkSelectors _ (by decide)), hbase]
  decide

theorem hasEmbeddings_of_embeddingAt (h : ((ofText code l).embeddingAt pos).isSome = true) :
    hasEmbeddings l = true := by
  by_contra hnone
  have hempty : (ofText code l).embeddings = [] := by simp [ofText, hnone]
  simp [embeddingAt, hempty] at h

theorem isSelected_value_of_none (hl : l ∈ Language.builtin)
    (h : (ofText code l).runAt pos = none) :
    (ofText code l).view.isSelected pos "meta.property-value" = false := by
  have hbase : isSelectedBy (baseScope l) "meta.property-value" = false :=
    isSelectedBy_baseScope l hl _ (by decide)
  have hlang : (ofText code l).language = l := rfl
  simp only [View.isSelected, view, scopeName, h, hlang]
  split
  · split
    · exact isSelectedBy_list hbase
    · exact hbase
  · next hsome =>
    have hembedded : isSelectedBy (embeddedScope l) "meta.property-value" = false :=
      isSelectedBy_embeddedScope l hl (hasEmbeddings_of_embeddingAt hsome) _ (by decide)
    split
    · exact isSelectedBy_list hembedded
    · exact hembedded
  · exact hbase

section text

variable (hk : l.kind = .stylesheet)
include hk

theorem exists_runAt_of_declaration (hd : d ∈ (parse code).declarations) {c : Nat}
    (hc : d.colon = some c) (hlt : d.name.start ≤ pos) (hle : pos < d.valuePart.stop) :
    ∃ r scope, (ofText code l).runAt pos = some r ∧ r.span.contains pos = true ∧
      r.scope = baseScope l ++ " " ++ scope ∧
      ((r.span ∈ (parse code).comments ∧ scope = "comment.block.css") ∨
        (r.span, scope) ∈ declarationRuns d) := by
  obtain ⟨hw, hcom⟩ := parse_spec code
  have hform := hw.declarations d hd
  have hu := hcom.declarations d hd
  obtain ⟨part, hpart, hp⟩ := exists_declarationRuns hform hu hc hlt hle
  have hin : d.span.contains pos = true := contains_of_mem_declarationRuns hform hu hpart hp
  obtain ⟨r, hr⟩ := exists_runAt (d := ofText code l)
    (x := ⟨part.1, baseScope l ++ " " ++ part.2⟩)
    ((mem_ofText_runs hk).mpr (mem_stylesheetRuns.mpr
      ⟨Span.isEmpty_of_contains hp, part.2, rfl, .inr (.inr ⟨d, hd, hpart⟩)⟩)) hp
  obtain ⟨hmem, hrp⟩ := mem_of_runAt hr
  obtain ⟨-, scope, hscope, hcases⟩ := mem_stylesheetRuns.mp ((mem_ofText_runs hk).mp hmem)
  refine ⟨r, scope, hr, hrp, hscope, ?_⟩
  rcases hcases with hcomment | ⟨q, hq, hrun⟩ | ⟨e, he, hrun⟩
  · exact .inl hcomment
  · have := not_contains_of_mem_ruleRuns hw hq hd hin hrun
    rw [hrp] at this
    contradiction
  · have hein := contains_of_mem_declarationRuns (hw.declarations e he) (hcom.declarations e he)
      hrun hrp
    obtain rfl := eq_of_contains hw hd he hin hein
    exact .inr hrun

variable (hl : l ∈ Language.builtin)
include hl

theorem exists_of_isSelected_value
    (h : (ofText code l).view.isSelected pos "meta.property-value" = true) :
    ∃ r, (ofText code l).runAt pos = some r ∧
      ∃ d ∈ (parse code).declarations, r.span ∈ d.valuePieces := by
  obtain ⟨hw, hcom⟩ := parse_spec code
  cases hr : (ofText code l).runAt pos with
  | none =>
    rw [isSelected_value_of_none hl hr] at h
    contradiction
  | some r =>
    obtain ⟨-, scope, hscope, hpart⟩ :=
      mem_stylesheetRuns.mp ((mem_ofText_runs hk).mp (mem_of_runAt hr).1)
    rw [isSelected_of_runAt hr, hscope, isSelectedBy_append_base hl (by decide)] at h
    refine ⟨r, rfl, ?_⟩
    rcases hpart with ⟨-, rfl⟩ | ⟨q, -, hq⟩ | ⟨d, hd, hpart⟩
    · contradiction
    · rw [isSelectedBy_ruleRuns hq (by decide)] at h
      contradiction
    · refine ⟨d, hd, Declaration.mem_valuePieces.mpr ?_⟩
      rw [mem_declarationRuns (hw.declarations d hd) (hcom.declarations d hd)] at hpart
      simp only [Prod.mk.injEq] at hpart
      rcases hpart with ⟨-, rfl⟩ | ⟨c, -, -, rfl⟩ | ⟨c, hc, hspan, -⟩ | ⟨hspan, -⟩ |
        ⟨t, ht, hspan, -⟩
      · contradiction
      · contradiction
      · exact .inl ⟨c, hc, hspan⟩
      · exact .inr (.inl hspan)
      · exact .inr (.inr ⟨t, ht, hspan⟩)

theorem exists_runAt_passed (hd : d ∈ (parse code).declarations) {c : Nat}
    (hc : d.colon = some c) (hlt : d.name.start ≤ pos) (hle : pos < d.valuePart.stop) :
    ∃ r, (ofText code l).runAt pos = some r ∧
      (isName r.scope = true ∧ r.span = d.name ∨
        isPassed r.scope = true ∧ d.name.start < r.span.start) ∧
      (c ≤ pos → Outside (parse code).comments pos →
        isSelectedBy r.scope "meta.property-value" = true) := by
  obtain ⟨hw, hcom⟩ := parse_spec code
  have hform := hw.declarations d hd
  have hu := hcom.declarations d hd
  obtain ⟨r, scope, hr, hrp, hscope, hcases⟩ := exists_runAt_of_declaration hk hd hc hlt hle
  have hin := Span.contains_iff.mp hrp
  have hname := hform.name_lt
  have hvalue := hform.value_le
  have hcolon := hform.colon c hc
  refine ⟨r, hr, ?_⟩
  rw [hscope, isName_append_base hl, isPassed_append_base hl,
    isSelectedBy_append_base hl (by decide)]
  rw [mem_declarationRuns hform hu] at hcases
  simp only [Prod.mk.injEq] at hcases
  -- a comment, the name, the blanks after it, the colon, the value, the semicolon
  rcases hcases with ⟨hmem, rfl⟩ | ⟨hspan, rfl⟩ | ⟨k, hkc, hspan, rfl⟩ | ⟨k, hkc, hspan, rfl⟩ |
    ⟨hspan, rfl⟩ | ⟨t, ht, hspan, rfl⟩
  · have := hu.name.lt_or_le hmem
    exact ⟨.inr ⟨by decide, by omega⟩, fun _ hout => absurd hrp (hout _ hmem)⟩
  · rw [hspan] at hin
    exact ⟨.inl ⟨by decide, hspan⟩, fun hge _ => by omega⟩
  · obtain rfl := Option.some.inj (hc.symm.trans hkc)
    rw [hspan] at hin ⊢
    exact ⟨.inr ⟨by decide, hname⟩, fun hge _ => absurd hin.2 (Nat.not_lt_of_le hge)⟩
  · have := (hform.colon k hkc).2.1
    rw [hspan]
    exact ⟨.inr ⟨by decide, Nat.lt_of_lt_of_le hname this⟩, fun _ _ => by decide⟩
  · have hstart : r.span.start = c + 1 := by simp [hspan, Declaration.valueSpan, hc]
    exact ⟨.inr ⟨by decide, by omega⟩, fun _ _ => by decide⟩
  · have := (hu.terminator t ht).2
    have hstart : r.span.start = t := by simp [hspan]
    exact ⟨.inr ⟨by decide, by omega⟩, fun _ _ => by decide⟩

theorem propertyBefore?_eq (hd : d ∈ (parse code).declarations) {c : Nat} (hc : d.colon = some c)
    (hlt : d.name.start < start) (hle : start ≤ d.valuePart.stop) :
    (ofText code l).view.propertyBefore? start = some (read code d.name) := by
  induction start using Nat.strongRecOn with
  | _ start ih =>
    cases start with
    | zero => exact absurd hlt (Nat.not_lt_zero _)
    | succ probe =>
      obtain ⟨r, hr, hcases, -⟩ := exists_runAt_passed hk hl hd hc (Nat.le_of_lt_succ hlt) hle
      have hp := Span.contains_iff.mp (mem_of_runAt hr).2
      rcases hcases with ⟨hname, hspan⟩ | ⟨hpassed, hbefore⟩
      · rw [propertyBefore?_of_isName hr hname, hspan]
        rfl
      · rw [propertyBefore?_of_isPassed hr hpassed]
        exact ih r.span.start (Nat.lt_succ_of_le hp.1) hbefore (by omega)

theorem property?_of_valuePart (hd : d ∈ (parse code).declarations) (hc : d.colon ≠ none)
    (hp : d.valuePart.contains pos = true) (hout : Outside (parse code).comments pos) :
    (ofText code l).view.property? pos = some (read code d.name) := by
  obtain ⟨c, hc⟩ := Option.ne_none_iff_exists'.mp hc
  have hform := (parse_spec code).1.declarations d hd
  have hname := hform.name_lt
  have hcolon := hform.colon c hc
  rw [Span.contains_iff] at hp
  have hle : c ≤ pos := by simpa [Declaration.valuePart, hc] using hp.1
  obtain ⟨r, hr, hcases, hvalue⟩ := exists_runAt_passed hk hl hd hc (by omega) hp.2
  have hrp := Span.contains_iff.mp (mem_of_runAt hr).2
  have hbefore : d.name.start < r.span.start := by
    rcases hcases with ⟨-, hspan⟩ | ⟨-, hbefore⟩
    · rw [hspan] at hrp
      omega
    · exact hbefore
  rw [property?_of_runAt hr (hvalue hle hout)]
  exact propertyBefore?_eq hk hl hd hc hbefore (by omega)

theorem isSelected_value_of_comment {c : Span} (hc : c ∈ (parse code).comments)
    (hp : c.contains pos = true) (hlast : test isBlank code (c.stop - 1) = false)
    (hname : ∀ d ∈ (parse code).declarations, d.colon = none →
      d.name.stop ≤ c.start ∨ c.stop ≤ d.name.stop) :
    (ofText code l).view.isSelected pos "meta.property-value" = false := by
  refine Bool.eq_false_iff.mpr fun h => ?_
  obtain ⟨hw, hcom⟩ := parse_spec code
  obtain ⟨r, hr, d, hd, hpiece⟩ := exists_of_isSelected_value hk hl h
  have hu := hcom.declarations d hd
  have hin := Span.contains_iff.mp hp
  have hrp := (mem_of_runAt hr).2
  have hspan := hu.eq_valueSpan hc hp hpiece hrp
  have hcover := Span.covers_iff.mp (hu.valueSpan_covers hc (hcom.begins c hc) hlast (hname d hd) hp
    (hspan ▸ hrp))
  have hmem : ⟨c, baseScope l ++ " " ++ "comment.block.css"⟩ ∈ (ofText code l).runs := by
    rw [mem_ofText_runs hk, mem_stylesheetRuns]
    exact ⟨Span.isEmpty_of_contains hp, _, rfl, .inl ⟨hc, rfl⟩⟩
  -- the shortest run covers the comment, so it has the comment's span and the comment comes first
  have hsize := runAt_size_le hr hmem hp
  have heq : r.span = c := by
    rw [← hspan] at hcover
    refine Span.covers_antisymm (Span.covers_iff.mpr hcover) (Span.covers_iff.mpr ?_)
    simp only [Span.size] at hsize
    omega
  have hscope := runAt_of_comment hk hr (heq ▸ hc)
  rw [isSelected_of_runAt hr, hscope, isSelectedBy_append_base hl (by decide)] at h
  contradiction

/-- The property reported anywhere in a stylesheet: the name of the declaration in whose value part
the offset lies, and none outside of these parts. There is none inside a comment either, unless
a blank in the comment ends the first word of an at-rule, or the text ends in the comment with a
blank. -/
theorem property?_ofText (pos : Nat) :
    (∀ d ∈ (parse code).declarations, d.colon ≠ none → d.valuePart.contains pos = true →
      Outside (parse code).comments pos →
        (ofText code l).view.property? pos = some (read code d.name)) ∧
    (∀ c ∈ (parse code).comments, c.contains pos = true →
      test isBlank code (c.stop - 1) = false →
      (∀ d ∈ (parse code).declarations, d.colon = none →
        d.name.stop ≤ c.start ∨ c.stop ≤ d.name.stop) →
        (ofText code l).view.property? pos = none) ∧
    ((∀ d ∈ (parse code).declarations, d.valuePart.contains pos = false) →
      (ofText code l).view.property? pos = none) := by
  refine ⟨fun d hd hc hp hout => property?_of_valuePart hk hl hd hc hp hout,
    fun c hc hp hlast hname => ?_, fun hnone => ?_⟩
  · simp [View.property?, isSelected_value_of_comment hk hl hc hp hlast hname]
  · rw [View.property?, if_neg]
    intro h
    obtain ⟨hw, hcom⟩ := parse_spec code
    obtain ⟨r, hr, d, hd, hpiece⟩ := exists_of_isSelected_value hk hl h
    have hin := ((hw.declarations d hd).contains_valuePart_iff (hcom.declarations d hd)).mpr
      ⟨_, hpiece, (mem_of_runAt hr).2⟩
    rw [hnone d hd] at hin
    contradiction

end text

theorem property?_ofText_css : ∃ l ∈ Language.builtin, l.kind = .stylesheet ∧
    (ofText (bytes "a{b :/**/;c:/*d*/}") l).view.property? 4 = some "b" ∧
    (ofText (bytes "a{b :/**/;c:/*d*/}") l).view.property? 12 = none ∧
    (ofText (bytes "a{b :/**/;c:/*d*/}") l).view.property? 0 = none := by
  have hparse : parse (bytes "a{b :/**/;c:/*d*/}") =
      { rules := #[⟨⟨0, 1⟩, ⟨2, 17⟩, ⟨0, 18⟩, true, none⟩]
        declarations := #[⟨⟨2, 3⟩, ⟨5, 9⟩, ⟨2, 10⟩, some 4, some 9, some 0⟩,
          ⟨⟨10, 11⟩, ⟨12, 17⟩, ⟨10, 17⟩, some 11, none, some 0⟩]
        comments := #[⟨5, 9⟩, ⟨12, 17⟩] } := by
    with_unfolding_all rfl
  have hl : { name := "css", kind := .stylesheet, extensions := ["css"] } ∈ Language.builtin := by
    decide
  have hname : read (bytes "a{b :/**/;c:/*d*/}") ⟨2, 3⟩ = "b" := by
    with_unfolding_all rfl
  have hlast : test isBlank (bytes "a{b :/**/;c:/*d*/}") 16 = false := by
    with_unfolding_all rfl
  obtain ⟨hvalue, -, -⟩ := @property?_ofText (bytes "a{b :/**/;c:/*d*/}") _ rfl hl 4
  obtain ⟨-, hcomment, -⟩ := @property?_ofText (bytes "a{b :/**/;c:/*d*/}") _ rfl hl 12
  obtain ⟨-, -, houtside⟩ := @property?_ofText (bytes "a{b :/**/;c:/*d*/}") _ rfl hl 0
  rw [hparse] at hvalue hcomment houtside
  refine ⟨_, hl, rfl, ?_, ?_, ?_⟩
  · rw [← hname]
    exact hvalue ⟨⟨2, 3⟩, ⟨5, 9⟩, ⟨2, 10⟩, some 4, some 9, some 0⟩ (by simp) (by decide)
      (by decide) (by simp [Outside, Span.contains])
  · exact hcomment ⟨12, 17⟩ (by simp) (by decide) hlast (by simp)
  · exact houtside (by simp [Declaration.valuePart, Span.contains])

/-- The first word of an at-rule ends at the first blank, even at one inside of a comment. What is
left of the comment is then the value, and is shorter than the comment. -/
theorem property?_in_comment : ∃ l ∈ Language.builtin, l.kind = .stylesheet ∧
    (∃ c ∈ (parse (bytes "@layer/* x */;")).comments, c.contains 10 = true) ∧
    (ofText (bytes "@layer/* x */;") l).view.property? 10 = some "@layer/*" := by
  have hparse : parse (bytes "@layer/* x */;") =
      { declarations := #[⟨⟨0, 8⟩, ⟨9, 13⟩, ⟨0, 14⟩, none, some 13, none⟩]
        comments := #[⟨6, 13⟩] } := by
    with_unfolding_all rfl
  have hl : { name := "css", kind := .stylesheet, extensions := ["css"] } ∈ Language.builtin := by
    decide
  have hname : read (bytes "@layer/* x */;") ⟨0, 8⟩ = "@layer/*" := by
    with_unfolding_all rfl
  refine ⟨_, hl, rfl, ⟨⟨6, 13⟩, by simp [hparse], by decide⟩, ?_⟩
  generalize hdocument : ofText (bytes "@layer/* x */;") _ = document
  have hruns : document.runs =
      [⟨⟨0, 8⟩, "source.css meta.declaration.css meta.property-name.css"⟩,
        ⟨⟨6, 13⟩, "source.css comment.block.css"⟩,
        ⟨⟨9, 13⟩, "source.css meta.declaration.css meta.property-value.css"⟩,
        ⟨⟨13, 14⟩, "source.css meta.declaration.css meta.property-value.css " ++
          "punctuation.terminator.rule.css"⟩] := by
    rw [← hdocument, ofText_runs rfl, hparse]
    simp [stylesheetRuns, declarationRuns, baseScope, Span.between, Span.isEmpty, List.mergeSort,
      List.MergeSort.Internal.splitInTwo]
  have hvalue : document.runAt 10 =
      some ⟨⟨9, 13⟩, "source.css meta.declaration.css meta.property-value.css"⟩ := by
    rw [runAt, hruns]
    rfl
  have hcomment : document.runAt 8 = some ⟨⟨6, 13⟩, "source.css comment.block.css"⟩ := by
    rw [runAt, hruns]
    rfl
  have hbefore : document.runAt 5 =
      some ⟨⟨0, 8⟩, "source.css meta.declaration.css meta.property-name.css"⟩ := by
    rw [runAt, hruns]
    rfl
  rw [property?_of_runAt hvalue (by decide), propertyBefore?_of_isPassed hcomment (by decide),
    propertyBefore?_of_isName hbefore (by decide), ← hdocument]
  exact congrArg some hname

end Caret.Document
