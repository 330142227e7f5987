import Caret.Proofs.Selection
import Caret.Proofs.Markup.Edge
import Caret.Proofs.Markup.Terminator
import Caret.Proofs.Markup.Unquoted
import Caret.Proofs.Stylesheet.Value

namespace Caret

open Text

def Span.Precedes (x y : Span) : Prop := x.start < y.start ∨ x.start = y.start ∧ y.stop < x.stop

variable {text : String} {code : Bytes} {outer x y : Span} {parts : List Span}

theorem Span.Precedes.ne (h : x.Precedes y) : x ≠ y := by
  rintro rfl
  rcases h with h | ⟨-, h⟩ <;> exact Nat.lt_irrefl _ h

structure Rowed (outer : Span) (parts : List Span) : Prop where
  within : ∀ x ∈ parts, outer.start ≤ x.start ∧ x.start < x.stop ∧ x.stop ≤ outer.stop
  ordered : parts.Pairwise fun x y => x.stop ≤ y.start

theorem Rowed.covers (h : Rowed outer parts) (hx : x ∈ parts) : outer.covers x = true :=
  Span.covers_iff.mpr ⟨(h.within x hx).1, (h.within x hx).2.2⟩

theorem Rowed.pairwise (h : Rowed outer parts) : parts.Pairwise Span.Precedes := by
  refine h.ordered.imp_of_mem fun {x y} hx _ hle => .inl ?_
  exact Nat.lt_of_lt_of_le (h.within x hx).2.1 hle

theorem Rowed.pairwise_cons (h : Rowed outer parts) :
    (outer :: if 1 < parts.length then parts else []).Pairwise Span.Precedes := by
  match parts, h with
  | [], _ => exact List.pairwise_singleton _ _
  | [x], _ => exact List.pairwise_singleton _ _
  | x :: y :: rest, h =>
    rw [if_pos (by simp)]
    refine List.pairwise_cons.mpr ⟨fun z hz => ?_, h.pairwise⟩
    have hfirst := h.within x List.mem_cons_self
    have hsecond := h.within y (by simp)
    have hafter := (List.pairwise_cons.mp h.ordered).1
    have hapart := hafter y List.mem_cons_self
    rcases List.mem_cons.mp hz with rfl | hz
    · rcases Nat.eq_or_lt_of_le hfirst.1 with heq | hlt
      · exact .inr ⟨heq, by omega⟩
      · exact .inl hlt
    · have := hafter z hz
      exact .inl (by omega)

theorem mem_several (h : x ∈ outer :: if 1 < parts.length then parts else []) :
    x = outer ∨ x ∈ parts := by
  refine (List.mem_cons.mp h).imp_right fun hx => ?_
  split at hx
  · exact hx
  · simp at hx

namespace Markup

theorem words_rowed (code : Bytes) (stop i : Nat) : Rowed ⟨i, stop⟩ (words code stop i) := by
  fun_induction words code stop i
  case case1 i start hlt next ih =>
    have hstart : i ≤ start := le_skip ..
    have hnext : start < next ∧ next ≤ stop :=
      ⟨Nat.lt_of_lt_of_le (Nat.lt_succ_self start) (Nat.le_max_left ..),
        Nat.max_le.mpr ⟨hlt, skip_le _ _ (Nat.le_of_lt hlt)⟩⟩
    refine ⟨List.forall_mem_cons.mpr ⟨⟨hstart, hnext⟩, fun w hw => ?_⟩, ?_⟩
    · obtain ⟨hle, hword⟩ := ih.within w hw
      exact ⟨by simp only at hle ⊢; omega, hword⟩
    · exact List.pairwise_cons.mpr ⟨fun w hw => (ih.within w hw).1, ih.ordered⟩
  case case2 => exact ⟨by simp, .nil⟩

theorem attributeRanges_cases (code : Bytes) (a : Attribute) :
    attributeRanges code a = [a.span] ∨ ∃ value parts, a.inside code = some value ∧
      value.isEmpty = false ∧ Rowed value parts ∧
      attributeRanges code a = a.span :: value :: if 1 < parts.length then parts else [] := by
  unfold attributeRanges
  cases hv : a.inside code with
  | none => exact .inl rfl
  | some value =>
    cases he : value.isEmpty with
    | true => exact .inl (by simp [he])
    | false =>
      refine .inr ⟨value,
        if lower (read code a.name) = "class" then words code value.stop value.start else [], rfl,
        he, ?_, by simp only [he, Bool.false_eq_true, if_false]⟩
      split
      · exact words_rowed code value.stop value.start
      · exact ⟨by simp, .nil⟩

theorem attributeRanges_spec {limit i : Nat} {a : Attribute} (h : a.Read code limit i)
    (hl : limit ≤ code.size) :
    (∀ x ∈ attributeRanges code a,
      a.span.start ≤ x.start ∧ x.start < x.stop ∧ x.stop ≤ a.span.stop) ∧
      (attributeRanges code a).Pairwise Span.Precedes := by
  obtain ⟨hstart, hstop, -, -⟩ := h.bounds hl
  have hlt := h.lt_stop
  have hself : a.span.start ≤ a.span.start ∧ a.span.start < a.span.stop ∧
      a.span.stop ≤ a.span.stop := by omega
  rcases attributeRanges_cases code a with heq | ⟨value, parts, hv, he, hparts, heq⟩
  · rw [heq]
    exact ⟨List.forall_mem_singleton.mpr hself, List.pairwise_singleton _ _⟩
  · obtain ⟨hafter, -, hle⟩ := inside_bounds h hl hv
    have hvalue : value.start < value.stop := Nat.lt_of_not_le (of_decide_eq_false he)
    have hin : ∀ x ∈ value :: if 1 < parts.length then parts else [],
        value.start ≤ x.start ∧ x.start < x.stop ∧ x.stop ≤ value.stop := by
      intro x hx
      rcases mem_several hx with rfl | hx
      · exact ⟨Nat.le_refl _, hvalue, Nat.le_refl _⟩
      · exact hparts.within x hx
    rw [heq]
    refine ⟨List.forall_mem_cons.mpr ⟨hself, fun x hx => ?_⟩,
      List.pairwise_cons.mpr ⟨fun x hx => .inl ?_, hparts.pairwise_cons⟩⟩
    · have := hin x hx
      omega
    · have := hin x hx
      omega

theorem opening_name {t : Tag} {xml : Bool} (ht : t ∈ tags (bytes text) xml)
    (hk : t.kind ≠ .closing) :
    let name := t.span.start + 1
    name < name + t.name.utf8ByteSize ∧
      name + t.name.utf8ByteSize = nameEnd (bytes text) name ∧
      nameEnd (bytes text) name < t.span.stop ∧ t.span.stop ≤ (bytes text).size := by
  obtain ⟨before, j, next, -, hscan⟩ := tagsFrom_split ht
  obtain ⟨hopening, -⟩ := resume_of_scanAt hscan hk
  obtain ⟨rfl, halpha, hname, closed, hclose, -⟩ := openingTag?_spec hopening
  obtain ⟨hlt, hle⟩ := openingEnd?_bounds hclose
  obtain ⟨c, hc, hca⟩ := test_iff.mp halpha
  have hbegin := (isBoundary_of_at? hc (isNameChar_ascii (isNameChar_of_isAlpha hca))).1
  have hend : isBoundary (bytes text) (nameEnd (bytes text) (t.span.start + 1)) = true :=
    isBoundary_skip (fun _ => isNameChar_ascii) hbegin
  have hafter := lt_nameEnd halpha
  have hsize : t.name.utf8ByteSize =
      nameEnd (bytes text) (t.span.start + 1) - (t.span.start + 1) := by
    rw [hname]
    exact size_read (Nat.le_of_lt hafter) hbegin hend
  dsimp only
  omega

theorem selectTag_spec {t : Tag} {xml : Bool} (ht : t ∈ tags (bytes text) xml)
    (hk : t.kind ≠ .closing) :
    (∀ x ∈ (selectTag (bytes text) t).ranges,
      t.span.start < x.start ∧ x.start < x.stop ∧ x.stop ≤ t.span.stop) ∧
      (selectTag (bytes text) t).ranges.Pairwise Span.Precedes := by
  obtain ⟨hname, hend, hlt, hle⟩ := opening_name ht hk
  have hread : ∀ a ∈ attributes (bytes text) t.span,
      a.Read (bytes text) t.span.stop (nameEnd (bytes text) (t.span.start + 1)) := fun a ha => by
    rw [attributes, Nat.min_eq_left hle] at ha
    exact read_of_mem ha
  have hordered : (attributes (bytes text) t.span).Pairwise fun a b =>
      a.span.stop ≤ b.span.start := by
    rw [attributes, Nat.min_eq_left hle]
    exact attributesFrom_ordered _ _ hle
  have hin : ∀ a ∈ attributes (bytes text) t.span, ∀ x ∈ attributeRanges (bytes text) a,
      nameEnd (bytes text) (t.span.start + 1) ≤ x.start ∧ x.start < x.stop ∧
        x.stop ≤ t.span.stop := fun a ha x hx => by
    have hbounds := (hread a ha).bounds hle
    have hfrom := (hread a ha).le_start
    have := (attributeRanges_spec (hread a ha) hle).1 x hx
    omega
  refine ⟨List.forall_mem_cons.mpr ⟨?_, fun x hx => ?_⟩,
    List.pairwise_cons.mpr ⟨fun x hx => .inl ?_, List.pairwise_flatMap.mpr ⟨fun a ha => ?_, ?_⟩⟩⟩
  · simp only
    omega
  · obtain ⟨a, ha, hx⟩ := List.mem_flatMap.mp hx
    have := hin a ha x hx
    omega
  · obtain ⟨a, ha, hx⟩ := List.mem_flatMap.mp hx
    have := hin a ha x hx
    simp only
    omega
  · exact (attributeRanges_spec (hread a ha) hle).2
  · refine hordered.imp_of_mem fun {a b} ha hb hapart x hx y hy => .inl ?_
    have hx := (attributeRanges_spec (hread a ha) hle).1 x hx
    have hy := (attributeRanges_spec (hread b hb) hle).1 y hy
    omega

end Markup

namespace Stylesheet

variable {s : Stylesheet} {n : Node}

def Node.isFilled : Node → Bool
  | .rule _ r => !r.selector.isEmpty
  | .declaration _ d => !d.value.isEmpty

theorem splitValue_rowed {value : Span} (hle : value.start ≤ value.stop)
    (hs : value.stop ≤ code.size) : Rowed value (splitValue code value) where
  within := (splitValue_parted code hle hs).bounds
  ordered := (splitValue_parted code hle hs).ordered

theorem Declaration.Formed.value_after {d : Declaration} (h : d.Formed code) {comments : Array Span}
    (hu : d.Uncommented code comments) : d.span.start < d.value.start := by
  have hname := h.name_lt
  have hinside := (Span.covers_iff.mp h.name_inside).1
  cases hc : d.colon with
  | none =>
    have := (hu.gap hc).1
    omega
  | some c =>
    obtain ⟨-, hbefore, hafter⟩ := h.colon c hc
    omega

theorem selectNode_spec (h : s.WellFormed code code.size) (hc : s.Commented code)
    (he : s.Edged code) (hn : s.Has n) :
    (∀ x ∈ (selectNode code n).ranges, (selectNode code n).span.covers x = true) ∧
      (selectNode code n).ranges.Pairwise Span.Precedes ∧
      ((∀ x ∈ (selectNode code n).ranges, x.isEmpty = false) ↔ n.isFilled = true) := by
  cases n with
  | rule i r =>
    have hspan := itemSpan_rule h he hn
    simp only [selectNode, hspan, List.forall_mem_singleton, Node.isFilled, Bool.not_eq_true']
    exact ⟨Span.covers_refl _, List.pairwise_singleton _ _, trivial⟩
  | declaration i d =>
    have hmem := Array.mem_of_getElem? hn
    have hd := h.declarations d hmem
    have hinside := Span.covers_iff.mp hd.value_inside
    have hsize := le_size_of_isBoundary (he.declarations d hmem).stop
    have hparts := splitValue_rowed hd.value_le (Nat.le_trans hinside.2 hsize)
    have hafter := hd.value_after (hc.declarations d hmem)
    have hin : ∀ x ∈ d.value :: if 1 < (splitValue code d.value).length then
        splitValue code d.value else [], x = d.value ∨ d.value.start ≤ x.start ∧
          x.start < x.stop ∧ x.stop ≤ d.value.stop := fun x hx =>
      (mem_several hx).imp_right (hparts.within x)
    refine ⟨List.forall_mem_cons.mpr ⟨Span.covers_refl _, fun x hx => ?_⟩,
      List.pairwise_cons.mpr ⟨fun x hx => .inl ?_, hparts.pairwise_cons⟩, ?_⟩
    · rcases hin x hx with rfl | hx
      · exact hd.value_inside
      · exact Span.covers_trans hd.value_inside (Span.covers_iff.mpr ⟨hx.1, hx.2.2⟩)
    · rcases hin x hx with rfl | hx
      · exact hafter
      · exact Nat.lt_of_lt_of_le hafter hx.1
    · rw [Node.isFilled, Bool.not_eq_true']
      refine ⟨fun hall => hall _ (by simp [selectNode]), fun hvalue => ?_⟩
      refine List.forall_mem_cons.mpr ⟨decide_eq_false (Nat.not_le_of_lt hd.start_lt),
        fun x hx => ?_⟩
      rcases hin x hx with rfl | hx
      · exact hvalue
      · exact decide_eq_false (Nat.not_le_of_lt hx.2.1)

end Stylesheet

theorem mem_of_pick {α : Type} {span : α → Span} {previous : Bool} {pos : Nat} {items : List α}
    {a : α} (h : pick span previous pos items = some a) : a ∈ items := by
  unfold pick at h
  split at h
  · exact (List.mem_filter.mp (List.mem_of_getLast? h)).1
  · exact List.mem_of_find?_eq_some h

/-- The ranges of a selection lie in the item and no two of them are the same; a value lies in its
attribute or declaration, and its words and parts in the value. In markup all ranges hold text, in a
stylesheet all do exactly if the selector or the value that is selected is not empty. -/
theorem select_ranges (text : String) (previous : Bool) (pos : Nat) :
    let code := bytes text
    (∀ x, Markup.select code previous pos = some x →
      (∀ r ∈ x.ranges, r.isEmpty = false ∧ x.span.covers r = true) ∧ x.ranges.Nodup ∧
      ∃ t ∈ Markup.tags code false, x = Markup.selectTag code t ∧
        ∀ a ∈ Markup.attributes code t.span, ∀ value, a.inside code = some value →
          a.span.covers value = true ∧
          ∀ w ∈ Markup.words code value.stop value.start, value.covers w = true) ∧
    ∀ x, Stylesheet.select code previous pos = some x →
      (∀ r ∈ x.ranges, x.span.covers r = true) ∧ x.ranges.Nodup ∧
      ∃ n ∈ (Stylesheet.parse code).items, x = Stylesheet.selectNode code n ∧
        (∀ i d, n = .declaration i d → d.span.covers d.value = true ∧
          ∀ p ∈ Stylesheet.splitValue code d.value, d.value.covers p = true) ∧
        ((∀ r ∈ x.ranges, r.isEmpty = false) ↔ n.isFilled = true) := by
  intro code
  refine ⟨fun x hx => ?_, fun x hx => ?_⟩
  · obtain ⟨t, hpick, rfl⟩ := Option.map_eq_some_iff.mp hx
    obtain ⟨ht, hk⟩ := List.mem_filter.mp (mem_of_pick hpick)
    have hk : t.kind ≠ .closing := by simpa using hk
    obtain ⟨hranges, hordered⟩ := Markup.selectTag_spec ht hk
    refine ⟨fun r hr => ?_, List.nodup_iff_pairwise_ne.mpr (hordered.imp Span.Precedes.ne), t, ht,
      rfl, fun a ha value hv => ⟨?_, fun w hw => ?_⟩⟩
    · obtain ⟨hstart, hlt, hstop⟩ := hranges r hr
      exact ⟨decide_eq_false (Nat.not_le_of_lt hlt),
        Span.covers_iff.mpr ⟨Nat.le_of_lt hstart, hstop⟩⟩
    · obtain ⟨hstart, -, hstop⟩ :=
        Markup.inside_bounds (Markup.read_of_mem ha) (Nat.min_le_right ..) hv
      exact Span.covers_iff.mpr ⟨Nat.le_of_lt hstart, hstop⟩
    · exact (Markup.words_rowed code value.stop value.start).covers hw
  · obtain ⟨n, hpick, rfl⟩ := Option.map_eq_some_iff.mp hx
    have hmem := mem_of_pick hpick
    have hn := Stylesheet.mem_items.mp hmem
    obtain ⟨h, hcommented⟩ := Stylesheet.parse_spec code
    have hedged := Stylesheet.parse_edged text
    obtain ⟨hcovers, hordered, hfilled⟩ := Stylesheet.selectNode_spec h hcommented hedged hn
    refine ⟨hcovers, List.nodup_iff_pairwise_ne.mpr (hordered.imp Span.Precedes.ne), n, hmem, rfl,
      ?_, hfilled⟩
    rintro i d rfl
    have hd := h.declarations d (Array.mem_of_getElem? hn)
    have hsize := le_size_of_isBoundary (hedged.values d (Array.mem_of_getElem? hn)).stop
    exact ⟨hd.value_inside, fun p hp => (Stylesheet.splitValue_rowed hd.value_le hsize).covers hp⟩

theorem select_ranges_class :
    ∃ x, Markup.select (bytes "<p class='a b' title=''>") false 0 = some x ∧
      x.ranges = [⟨1, 2⟩, ⟨3, 14⟩, ⟨10, 13⟩, ⟨10, 11⟩, ⟨12, 13⟩, ⟨15, 23⟩] ∧ x.ranges.Nodup := by
  have hfound : Markup.select (bytes "<p class='a b' title=''>") false 0 = some
      ⟨⟨0, 24⟩, [⟨1, 2⟩, ⟨3, 14⟩, ⟨10, 13⟩, ⟨10, 11⟩, ⟨12, 13⟩, ⟨15, 23⟩]⟩ := by decide +kernel
  exact ⟨_, hfound, rfl, ((select_ranges _ false 0).1 _ hfound).2.1⟩

theorem select_ranges_empty :
    Stylesheet.select (bytes "a\x7bb:;\x7d") false 2 = some ⟨⟨2, 5⟩, [⟨2, 5⟩, ⟨4, 4⟩]⟩ ∧
      Stylesheet.select (bytes "\x7ba:b\x7d") true 1 = some ⟨⟨0, 0⟩, [⟨0, 0⟩]⟩ := by
  have hvalue : Stylesheet.parse (bytes "a\x7bb:;\x7d") =
      { rules := #[⟨⟨0, 1⟩, ⟨2, 5⟩, ⟨0, 6⟩, true, none⟩]
        declarations := #[⟨⟨2, 3⟩, ⟨4, 4⟩, ⟨2, 5⟩, some 3, some 4, some 0⟩] } := by
    decide +kernel
  have hselector : Stylesheet.parse (bytes "\x7ba:b\x7d") =
      { rules := #[⟨⟨0, 0⟩, ⟨1, 4⟩, ⟨0, 5⟩, true, none⟩]
        declarations := #[⟨⟨1, 2⟩, ⟨3, 4⟩, ⟨1, 4⟩, some 2, none, some 0⟩] } := by
    decide +kernel
  have hitems (r : Stylesheet.Rule) (d : Stylesheet.Declaration)
      (h : r.span.start ≤ d.span.start) :
      Stylesheet.items { rules := #[r], declarations := #[d] } =
        [.rule 0 r, .declaration 0 d] := by
    simp [Stylesheet.items, Stylesheet.ruleNodes, Stylesheet.declarationNodes, List.mergeSort,
      List.MergeSort.Internal.splitInTwo, Stylesheet.Node.span, h]
  rw [Stylesheet.select, hvalue, hitems _ _ (by decide), Stylesheet.select, hselector,
    hitems _ _ (by decide)]
  decide +kernel

end Caret
