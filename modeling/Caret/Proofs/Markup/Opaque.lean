import Caret.Proofs.Markup.Surrounding
import Caret.Proofs.Markup.RawText

namespace Caret.Markup

open Text

variable {code : Bytes} {xml : Bool} {i : Nat} {name : String} {e : Element} {s : Span}

def beginsClosing (code : Bytes) (name : String) (i : Nat) : Bool :=
  holdsAt (code.map lowerByte) code.size (bytes ("</" ++ lower name)).toList i

theorem at?_of_map_lowerByte {c : Char} (h : at? (code.map lowerByte) i = some c)
    (hc : c.isLower = false) : at? code i = some c := by
  rw [at?_map_lowerByte] at h
  obtain ⟨d, hd, hdc⟩ := Option.map_eq_some_iff.mp h
  rcases toLower_eq hdc with rfl | ⟨-, hlower⟩
  · exact hd
  · exact absurd hlower (by simp [hc])

theorem test_isAlpha_of_map_lowerByte {c : Char} (h : at? (code.map lowerByte) i = some c)
    (hc : c.isAlpha = true) : test Char.isAlpha code i = true := by
  rw [at?_map_lowerByte] at h
  obtain ⟨d, hd, hdc⟩ := Option.map_eq_some_iff.mp h
  rw [test_of_at? hd]
  rcases toLower_eq hdc with rfl | ⟨hupper, -⟩
  · exact hc
  · exact (Bool.or_eq_true _ _).mpr (.inl hupper)

theorem beginsClosing_spec (h : beginsClosing code name i = true)
    (hraw : lower name ∈ rawTextElements) :
    at? code i = some '<' ∧ at? code (i + 1) = some '/' ∧
      test Char.isAlpha code (i + 2) = true := by
  obtain ⟨b, rest, hword, hb⟩ : ∃ b rest,
      (bytes ("</" ++ lower name)).toList = 60 :: 47 :: b :: rest ∧
        (Char.ofUInt8 b).isAlpha = true := by
    have hshape : ∀ name ∈ rawTextElements, ∃ b rest,
        (bytes ("</" ++ name)).toList = 60 :: 47 :: b :: rest ∧ (Char.ofUInt8 b).isAlpha = true := by
      simp only [rawTextElements, List.forall_mem_cons]
      exact ⟨⟨115, [99, 114, 105, 112, 116], by decide, by decide⟩,
        ⟨115, [116, 121, 108, 101], by decide, by decide⟩, by simp⟩
    exact hshape _ hraw
  simp only [beginsClosing, hword, holdsAt, Bool.and_eq_true, beq_iff_eq] at h
  obtain ⟨⟨-, hlt⟩, ⟨-, hslash⟩, ⟨-, hletter⟩, -⟩ := h
  refine ⟨at?_of_map_lowerByte ?_ (by decide), at?_of_map_lowerByte ?_ (by decide),
    test_isAlpha_of_map_lowerByte ?_ hb⟩
  · rw [at?, hlt]
    rfl
  · rw [at?, hslash]
    rfl
  · rw [at?, hletter]
    rfl

theorem closing_of_beginsClosing (xml : Bool) (h : beginsClosing code name i = true)
    (hraw : lower name ∈ rawTextElements) :
    ∃ c ∈ tagsFrom code xml i, c.kind = .closing ∧ c.span.start = i := by
  obtain ⟨hlt, hslash, hletter⟩ := beginsClosing_spec h hraw
  have hsize := lt_size_of_at? hlt
  obtain ⟨c, hc⟩ : ∃ c, closingTag? code i = some c := by
    rw [closingTag?, if_pos ⟨by rw [test_of_at? hslash]; rfl, hletter⟩]
    exact ⟨_, rfl⟩
  obtain ⟨hkind, hstart, -⟩ := closingTag?_bounds hc
  have hscan : scanAt code xml i = (some c, c.span.stop) := by
    rw [scanAt, if_pos (by rw [test_of_at? hlt]; rfl)]
    simp only [skippedEnd?_eq_none hslash (by decide) (by decide), hc]
  refine ⟨c, ?_, hkind, hstart⟩
  rw [tagsFrom, if_pos hsize]
  simp [hscan]

theorem exists_first_closing (he : e ∈ elements code false)
    (hraw : lower e.name ∈ rawTextElements) (hs : e.inner = some s) : ∃ p, s.start ≤ p ∧
      (∀ t ∈ tags code false, t.span.stop ≤ s.start ∨ p ≤ t.span.start) ∧
        (∃ t ∈ tags code false, t.span.start = p) ∧ beginsClosing code e.name p = true ∧
        ∀ k, s.start ≤ k → beginsClosing code e.name k = true → p ≤ k := by
  obtain ⟨c, hc, rfl⟩ := Option.map_eq_some_iff.mp hs
  rw [Span.between_of_le ((elements_proper he).closing c hc).1]
  obtain ⟨t, ht, hname, hspan, hkind, hself⟩ := exists_opening he
  have hopening : t.kind = .opening := by
    cases hk : t.kind with
    | opening => rfl
    | closing => exact absurd hk hkind
    | selfClosing => simp [hself hk] at hc
  have hresume : resume code false t = (find (bytes ("</" ++ lower e.name)).toList
      (code.map lowerByte) code.size e.opening.stop).getD code.size := by
    rw [← hname, ← hspan]
    exact if_pos ⟨hopening, rfl, List.contains_iff_mem.mpr (hname ▸ hraw)⟩
  obtain ⟨hcases, hmem⟩ := tags_resume ht hkind
  rw [hresume, hspan] at hcases
  rw [hresume] at hmem
  cases hfind : find (bytes ("</" ++ lower e.name)).toList (code.map lowerByte) code.size
      e.opening.stop with
  | none =>
    -- nothing would be read any more, not even the tag that closes the element
    have hend : tagsFrom code false code.size = [] := by
      rw [tagsFrom, if_neg (Nat.lt_irrefl _)]
    obtain ⟨u, hu, -, rfl, hle, -⟩ := (elements_paired code false).closing e he c hc
    have hlt := (tags_ordered code false).1 u hu
    rw [hfind, Option.getD_none, hend] at hcases
    rcases hcases u hu with h | h
    · omega
    · simp at h
  | some p =>
    rw [hfind, Option.getD_some] at hcases hmem
    have hp := (find_spec hfind).1
    obtain ⟨u, hu, -, hstart⟩ := closing_of_beginsClosing false hp hraw
    refine ⟨p, le_of_find hfind, fun v hv => ?_, ⟨u, hmem u hu, hstart⟩, hp, fun k hk h => ?_⟩
    · exact (hcases v hv).imp_right fun h => ((tagsFrom_ordered code false p).1 v h).1
    · obtain ⟨q, hq, hqk⟩ := exists_find hk (lt_size_of_at? (beginsClosing_spec h hraw).1) h
      rw [hfind] at hq
      exact Option.some.inj hq ▸ hqk

/-- The inside of a closed element of raw text is free of tags exactly if nothing in it looks like
the beginning of its closing tag. -/
theorem inside_free_iff (he : e ∈ elements code false) (hraw : lower e.name ∈ rawTextElements)
    (hs : e.inner = some s) : (∀ t ∈ tags code false, s.covers t.span = false) ↔
      ∀ k, s.contains k = true → beginsClosing code e.name k = false := by
  obtain ⟨p, hsp, hmem, ⟨u, hu, rfl⟩, hp, hfirst⟩ := exists_first_closing he hraw hs
  obtain ⟨hlt, hordered⟩ := tags_ordered code false
  constructor
  · intro hfree k hk
    rw [Bool.eq_false_iff]
    intro hbegins
    obtain ⟨span, hspan, hsc⟩ := Option.map_eq_some_iff.mp hs
    obtain ⟨c, hc, -, rfl, hle, -⟩ := (elements_paired code false).closing e he _ hspan
    have hstop : s.stop = c.span.start := by rw [← hsc, Span.between_of_le hle]
    obtain ⟨hsk, hks⟩ := Span.contains_iff.mp hk
    have huk := hfirst k hsk hbegins
    have hltc := hlt c hc
    have hcovers : s.covers u.span = true := by
      refine Span.covers_iff.mpr ⟨hsp, hstop ▸ ?_⟩
      rcases eq_or_rel_of_pairwise hordered hu hc with rfl | h | h
      · omega
      · exact h
      · omega
    simp [hfree u hu] at hcovers
  · intro hnone t ht
    rw [Bool.eq_false_iff, ne_eq, Span.covers_iff]
    rintro ⟨hst, hts⟩
    have hltt := hlt t ht
    have hut : u.span.start ≤ t.span.start := by
      rcases hmem t ht with h | h
      · omega
      · exact h
    have hcontains : s.contains u.span.start = true := Span.contains_iff.mpr ⟨hsp, by omega⟩
    simp [hnone _ hcontains] at hp

theorem inside_free_style :
    (⟨"style", ⟨0, 7⟩, some ⟨16, 24⟩⟩ : Element) ∈ elements (bytes "<style>a</b> < s</style>") false ∧
      lower "style" ∈ rawTextElements ∧
      ∀ t ∈ tags (bytes "<style>a</b> < s</style>") false, Span.covers ⟨7, 16⟩ t.span = false := by
  have he : (⟨"style", ⟨0, 7⟩, some ⟨16, 24⟩⟩ : Element) ∈
      elements (bytes "<style>a</b> < s</style>") false := by
    decide +kernel
  have hmem : "style" ∈ rawTextElements := by decide
  have hraw : lower "style" ∈ rawTextElements := (lower_of_mem_rawTextElements hmem).symm ▸ hmem
  have hnone : ∀ k < 16, beginsClosing (bytes "<style>a</b> < s</style>") "style" k = false := by
    decide +kernel
  refine ⟨he, hraw, (inside_free_iff he hraw rfl).mpr fun k hk => hnone k ?_⟩
  exact (Span.contains_iff.mp hk).2

theorem inside_not_free : ∃ e ∈ elements (bytes "<script></scripty><b></script>") false,
    e.name = "script" ∧ ∃ s, e.inner = some s ∧
      ∃ t ∈ tags (bytes "<script></scripty><b></script>") false, s.covers t.span = true := by
  have helements : elements (bytes "<script></scripty><b></script>") false =
      [⟨"script", ⟨0, 8⟩, some ⟨21, 30⟩⟩, ⟨"b", ⟨18, 21⟩, none⟩] := by
    decide +kernel
  have htags : tags (bytes "<script></scripty><b></script>") false =
      [⟨"script", .opening, ⟨0, 8⟩⟩, ⟨"scripty", .closing, ⟨8, 18⟩⟩, ⟨"b", .opening, ⟨18, 21⟩⟩,
        ⟨"script", .closing, ⟨21, 30⟩⟩] := by
    decide +kernel
  refine ⟨⟨"script", ⟨0, 8⟩, some ⟨21, 30⟩⟩, ?_, rfl, ⟨8, 21⟩, rfl, ⟨"b", .opening, ⟨18, 21⟩⟩, ?_, rfl⟩
  · simp only [helements, List.mem_cons, true_or]
  · simp only [htags, List.mem_cons, true_or, or_true]

end Caret.Markup
