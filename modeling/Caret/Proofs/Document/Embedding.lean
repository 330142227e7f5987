import Caret.Proofs.Document.Placing
import Caret.Proofs.Markup.RawText

namespace Caret.Document

open Scope Stylesheet Text

variable {code : Bytes} {l sheet : Language} {k pos : Nat}

theorem kind_of_hasEmbeddings (h : hasEmbeddings l = true) : l.kind = .markup := by
  simp only [hasEmbeddings, Bool.and_eq_true, beq_iff_eq] at h
  exact h.1.1.1

theorem ofText_placed (hs : sheet ∈ Language.builtin) (hk : sheet.kind = .stylesheet) :
    Placed code (baseScope sheet) 0 (ofText code sheet) where
  part := ⟨fun _ _ => rfl, Nat.le_refl _, isBoundary_zero code, isBoundary_size code⟩
  runs := by
    have hruns : stylesheetRuns (baseScope sheet) (parse code) =
        (parts (parse code)).map (place (baseScope sheet) 0) := rfl
    rw [ofText_runs hk, hruns, mergeSort_place]
    rfl
  gap n _ hrun := by
    have hlang : (ofText code sheet).language.kind = .stylesheet := hk
    have hbodies : (ofText code sheet).bodies.any (·.contains n) =
        (parse code).rules.any (·.body.contains n) := by
      simp [ofText, hk]
    rw [Nat.add_zero] at hrun ⊢
    simp only [scopeName, hrun, hlang, hbodies, append_list]
    rfl
  base := isSelectedBy_baseScope sheet hs
  before pos hpos := absurd hpos (Nat.not_lt_zero pos)

theorem classify_ofText (hk : sheet.kind = .stylesheet) (pos : Nat) :
    (ofText code sheet).classify pos = sheet.classification false := by
  have hnone : (ofText code sheet).embeddings = [] := by
    simp [ofText, hasEmbeddings, hk]
  simp only [classify, embeddingAt, hnone, List.find?_nil]
  rfl

section element

variable (r : Markup.RawText)

theorem partAt_content : PartAt (bytes r.content) (bytes r.written) r.inside.start := by
  have h := partAt_bytes (r.before.text ++ .singleton '<' ++ r.name.text ++ .singleton '>') r.content
    (("</" ++ r.name.text) ++ (.singleton '>' ++ r.after.text))
  simp only [size_bytes_append, size_bytes_singleton (c := '<') (by decide),
    size_bytes_singleton (c := '>') (by decide)] at h
  rw [Markup.RawText.written, String.append_assoc, String.append_assoc]
  exact h

theorem parseRegion_inside : parseRegion (bytes r.written) r.inside false =
    (parse (bytes r.content)).shift r.inside.start := by
  have hlt := (Markup.written_closing.mp r.laid.closes).1
  have hinside : r.inside = ⟨r.inside.start, (bytes r.content).size + r.inside.start⟩ := by
    rw [Nat.add_comm]
    rfl
  rw [hinside]
  refine parseRegion_add (partAt_content r) ?_ false
  rintro ⟨-, hstar⟩
  rw [Nat.add_comm] at hstar
  exact absurd (hlt.symm.trans hstar) (by simp)

variable (hname : r.name.text = "style") (he : hasEmbeddings l = true)
include hname

theorem findEmbeddings_written : findEmbeddings (bytes r.written) = [⟨r.inside, false⟩] := by
  have hlower : lower r.name.text = "style" := by
    rw [Markup.lower_of_mem_rawTextElements r.raw, hname]
  have hinner : Span.between r.opening.stop r.closing.start = r.inside :=
    Span.between_of_le (Nat.le_add_right ..)
  simp [findEmbeddings, r.elements_eq, elementEmbeddings, r.attributes_eq, hlower,
    Markup.Element.inner, hinner]

include he

theorem ofText_written : ofText (bytes r.written) l =
    { code := bytes r.written
      language := l
      embeddings := [⟨r.inside, false⟩]
      runs := (sortedParts (parse (bytes r.content))).map (place (embeddedScope l) r.inside.start)
      bodies := (parse (bytes r.content)).rules.toList.map (·.body.shift r.inside.start) } := by
  have hrules : ∀ q ∈ (parse (bytes r.content)).rules, 0 < q.body.start := fun q hq =>
    Nat.zero_lt_of_lt ((parse_spec _).1.rules q hq).selector_lt
  have hkind : l.kind ≠ .stylesheet := by
    rw [kind_of_hasEmbeddings he]
    decide
  have hbodies : ((parse (bytes r.content)).shift r.inside.start).rules.toList.map (·.body) =
      (parse (bytes r.content)).rules.toList.map (·.body.shift r.inside.start) := by
    rw [Stylesheet.shift, Array.toList_map, List.map_map]
    rfl
  simp only [ofText, he, if_true, hkind, if_false, findEmbeddings_written r hname, List.map_cons,
    List.map_nil, parseRegion_inside r, List.flatMap_cons, List.flatMap_nil, List.append_nil,
    stylesheetRuns_shift hrules, mergeSort_place, hbodies]
  rfl

omit hname he in
theorem touches_inside (hstart : r.inside.start ≤ pos)
    (hstop : pos ≤ r.inside.start + (bytes r.content).size) : r.inside.touches pos = true :=
  Span.touches_iff.mpr ⟨hstart, hstop⟩

theorem embeddingAt_of_touches (h : r.inside.touches pos = true) :
    (ofText (bytes r.written) l).embeddingAt pos = some ⟨r.inside, false⟩ := by
  rw [ofText_written r hname he, embeddingAt, List.find?_cons, h]

theorem embeddingAt_of_lt (h : pos < r.inside.start) :
    (ofText (bytes r.written) l).embeddingAt pos = none := by
  have htouches : r.inside.touches pos = false := by
    rw [Bool.eq_false_iff, ne_eq, Span.touches_iff]
    exact fun hin => absurd hin.1 (Nat.not_le_of_lt h)
  rw [ofText_written r hname he, embeddingAt, List.find?_cons, htouches, List.find?_nil]

theorem written_placed (hl : l ∈ Language.builtin) :
    Placed (bytes r.content) (embeddedScope l) r.inside.start (ofText (bytes r.written) l) where
  part := partAt_content r
  runs := by rw [ofText_written r hname he]
  gap n hn hrun := by
    have hlang : (ofText (bytes r.written) l).language.kind = .markup := kind_of_hasEmbeddings he
    have htouches : r.inside.touches (n + r.inside.start) = true :=
      touches_inside r (Nat.le_add_left ..) (by omega)
    have hbodies : (ofText (bytes r.written) l).bodies.any (·.contains (n + r.inside.start)) =
        (parse (bytes r.content)).rules.any (·.body.contains n) := by
      rw [ofText_written r hname he]
      simp [Span.contains]
    simp only [scopeName, hrun, hlang, hbodies, append_list,
      embeddingAt_of_touches r hname he htouches]
    rfl
  base := isSelectedBy_embeddedScope l hl he
  before pos hpos hrun := by
    have hlang : (ofText (bytes r.written) l).language.kind = .markup := kind_of_hasEmbeddings he
    simp only [scopeName, hrun, hlang, embeddingAt_of_lt r hname he hpos]
    exact isSelectedBy_baseScope l hl

theorem classify_inside (hle : k ≤ (bytes r.content).size) :
    (ofText (bytes r.written) l).classify (r.inside.start + k) = css.classification false := by
  have hstart := (partAt_content r).first
  have htouches : r.inside.touches (clamp (bytes r.written) (r.inside.start + k)) = true := by
    have hge := le_clamp hstart (Nat.le_add_right r.inside.start k)
    have hle' := clamp_le (bytes r.written) (r.inside.start + k)
    exact touches_inside r hge (Nat.le_trans hle' (Nat.add_le_add_left hle _))
  have hcode : (ofText (bytes r.written) l).code = bytes r.written := rfl
  simp only [classify, hcode, embeddingAt_of_touches r hname he htouches]

end element

theorem resolve_of_stylesheet {v : View} {c : Classification} (hc : v.classify pos = some c)
    (hkind : c.kind = .stylesheet) : v.resolve pos true =
      { kind := .stylesheet
        language := c.language
        isInline := c.isInline
        jsx := c.jsx
        xml := c.xml
        marker := if c.jsx then some "<" else none
        surroundings := (v.property? pos).map .property } := by
  simp only [View.resolve, hc, Option.getD_some, hkind, View.surroundings?, if_true]

theorem resolve_embedded {before css after : String} (hbefore : '<' ∉ before.toList)
    (hafter : '<' ∉ after.toList) (hcss : ¬"</style".toList <:+: (lower css).toList)
    (hl : l ∈ Language.builtin) (he : hasEmbeddings l = true) (hs : sheet ∈ Language.builtin)
    (hk : sheet.kind = .stylesheet) (hle : k ≤ (bytes css).size) :
    (ofText (bytes (before ++ "<style>" ++ css ++ "</style>" ++ after)) l).view.resolve
        ((bytes before).size + 7 + k) true =
      { kind := .stylesheet
        language := "css"
        isInline := false
        surroundings := ((ofText (bytes css) sheet).view.resolve k true).surroundings } := by
  have hclear {text : String} (h : '<' ∉ text.toList) : ∀ c ∈ text.toList, (c != '<') = true := by
    intro c hc
    refine bne_iff_ne.mpr ?_
    rintro rfl
    exact h hc
  obtain ⟨r, hname, hr, hstart, rfl⟩ : ∃ r : Markup.RawText, r.name.text = "style" ∧
      before ++ "<style>" ++ css ++ "</style>" ++ after = r.written ∧
      (bytes before).size + 7 = r.inside.start ∧ css = r.content := by
    refine ⟨⟨⟨before, hclear hbefore⟩, ⟨"style", by decide, List.all_eq_true.mp (by decide)⟩,
      by decide, css, ?_, ⟨after, hclear hafter⟩⟩, rfl, ?_, ?_, rfl⟩
    · have hclosing : "</" ++ "style" = "</style" := by decide
      rwa [hclosing]
    · have hopening : "<style>" = .singleton '<' ++ "style" ++ .singleton '>' := by decide
      have hclosing : "</style>" = "</" ++ "style" ++ .singleton '>' := by decide
      simp only [Markup.RawText.written, hopening, hclosing, String.append_assoc]
    · have hsize : (bytes "style").size = 5 := by decide
      simp only [Markup.RawText.inside, Markup.RawText.opening, hsize]
  have hproperty := (written_placed r hname he hl).property?_eq (ofText_placed hs hk) hle
  rw [hr, hstart, resolve_of_stylesheet (congrArg some (classify_inside r hname he hle)) rfl,
    resolve_of_stylesheet (congrArg some (classify_ofText hk k)) hk, Nat.add_comm, hproperty,
    Nat.add_zero]
  rfl

theorem resolve_embedded_html : ∃ l ∈ Language.builtin, hasEmbeddings l = true ∧
    (ofText (bytes ("a" ++ "<style>" ++ "b{c:d}" ++ "</style>" ++ "e")) l).view.resolve 12 true =
      { kind := .stylesheet
        language := "css"
        isInline := false
        surroundings := some (.property "c") } := by
  have hl : { name := "html", kind := .markup, extensions := ["html", "htm", "shtml"], html := true } ∈
      Language.builtin := by
    decide
  obtain ⟨sheet, hs, hk⟩ : ∃ sheet ∈ Language.builtin, sheet.kind = .stylesheet := by decide
  have hparse : parse (bytes "b{c:d}") =
      { rules := #[⟨⟨0, 1⟩, ⟨2, 5⟩, ⟨0, 6⟩, true, none⟩]
        declarations := #[⟨⟨2, 3⟩, ⟨4, 5⟩, ⟨2, 5⟩, some 3, none, some 0⟩] } := by
    with_unfolding_all rfl
  have hname : read (bytes "b{c:d}") ⟨2, 3⟩ = "c" := by
    with_unfolding_all rfl
  have hproperty := @property?_of_valuePart (bytes "b{c:d}")
    ⟨⟨2, 3⟩, ⟨4, 5⟩, ⟨2, 5⟩, some 3, none, some 0⟩ 4 sheet hk hs (by simp [hparse]) (by decide)
    (by decide) (by simp [hparse, Outside])
  have hcss : ¬"</style".toList <:+: (lower "b{c:d}").toList := by
    intro h
    have hlength := h.length_le
    rw [lower, String.toList_map] at hlength
    exact absurd hlength (by decide)
  have hresolve := resolve_embedded (k := 4) (by decide : '<' ∉ "a".toList)
    (by decide : '<' ∉ "e".toList) hcss hl (by decide) hs hk (by decide)
  rw [hname] at hproperty
  have hclassify : (ofText (bytes "b{c:d}") sheet).view.classify 4 =
      some (sheet.classification false) := congrArg some (classify_ofText hk 4)
  rw [resolve_of_stylesheet hclassify hk, hproperty] at hresolve
  exact ⟨_, hl, by decide, hresolve⟩

end Caret.Document
