import Caret.Proofs.Stylesheet.Innermost
import Caret.Stylesheet.Section

namespace Caret.Stylesheet

open Text

variable {s : Stylesheet} {code : Bytes} {stop pos i : Nat} {d : Declaration} {r : Rule}
  {p : Rule × Nat}

def Node.declaration? : Node → Option Declaration
  | .rule .. => none
  | .declaration _ d => some d

theorem Node.declaration?_eq_some {n : Node} :
    n.declaration? = some d ↔ ∃ i, n = .declaration i d := by
  cases n <;> simp [declaration?]

theorem filterMap_ruleNodes (s : Stylesheet) : s.ruleNodes.filterMap Node.declaration? = [] := by
  refine List.filterMap_eq_nil_iff.mpr fun n hn => ?_
  obtain ⟨i, r, -, rfl⟩ := mem_ruleNodes.mp hn
  rfl

theorem filterMap_declarationNodes (s : Stylesheet) :
    s.declarationNodes.filterMap Node.declaration? = s.declarations.toList := by
  have hfirst : (fun q : Declaration × Nat => (Node.declaration q.2 q.1).declaration?) =
      fun q => some q.1 := rfl
  rw [declarationNodes, List.filterMap_map, Function.comp_def, hfirst,
    List.filterMap_eq_map', List.zipIdx_map_fst]

theorem WellFormed.filterMap_items (h : s.WellFormed code stop) :
    s.items.filterMap Node.declaration? = s.declarations.toList := by
  have hperm := s.items_perm.filterMap Node.declaration?
  rw [List.filterMap_append, filterMap_ruleNodes, filterMap_declarationNodes,
    List.nil_append] at hperm
  have hsorted : (s.items.filterMap Node.declaration?).Pairwise fun c d =>
      c.span.start < d.span.start := by
    refine h.items_sorted.filterMap _ fun n m hlt c hc d hd => ?_
    obtain ⟨i, rfl⟩ := Node.declaration?_eq_some.mp hc
    obtain ⟨j, rfl⟩ := Node.declaration?_eq_some.mp hd
    exact hlt
  have hordered : s.declarations.toList.Pairwise fun c d => c.span.start < d.span.start := by
    refine h.declarations_ordered.imp_of_mem fun {c d} hc _ hle => ?_
    have hlt := (h.declarations c (Array.mem_toList_iff.mp hc)).start_lt
    omega
  refine hperm.eq_of_pairwise (fun c d _ _ hcd hdc => ?_) hsorted hordered
  exact absurd hcd (Nat.lt_asymm hdc)

def declarationsOf (s : Stylesheet) (parent : Option Nat) : List Declaration :=
  s.declarations.toList.filter fun d => d.parent == parent

theorem mem_declarationsOf {parent : Option Nat} :
    d ∈ s.declarationsOf parent ↔ d ∈ s.declarations ∧ d.parent = parent := by
  simp [declarationsOf]

theorem WellFormed.declarationsOf_ordered (h : s.WellFormed code stop) (parent : Option Nat) :
    (s.declarationsOf parent).Pairwise fun c d => c.span.stop ≤ d.span.start :=
  h.declarations_ordered.filter _

theorem WellFormed.filterMap_children (h : s.WellFormed code stop) (parent : Option Nat) :
    (s.children parent).filterMap Node.declaration? = s.declarationsOf parent := by
  rw [children, declarationsOf, ← h.filterMap_items, List.filterMap_filter, List.filter_filterMap]
  congr
  funext n
  cases n with
  | rule i r => simp [Node.declaration?]
  | declaration i d => simp [Node.declaration?, Node.parent, Option.filter]

theorem WellFormed.body_covers (h : s.WellFormed code stop) (hd : d ∈ s.declarations)
    (hr : r ∈ s.rules) (hpos : d.span.surrounds pos = true) (ht : r.span.touches pos = true) :
    r.body.covers d.span = true := by
  rw [Span.surrounds_iff] at hpos
  rw [Span.touches_iff] at ht
  rcases h.declarations_laminar r hr d hd with hcov | hle | hle
  · exact hcov
  · omega
  · omega

theorem WellFormed.touches_of_body_covers (h : s.WellFormed code stop) (hr : r ∈ s.rules)
    (hpos : d.span.surrounds pos = true) (hcov : r.body.covers d.span = true) :
    r.span.touches pos = true := by
  have hspan := (h.rules r hr).span_le
  rw [Span.surrounds_iff] at hpos
  rw [Span.covers_iff] at hcov
  rw [Span.touches_iff]
  omega

theorem WellFormed.enclosing_eq_nil (h : s.WellFormed code stop) (hd : d ∈ s.declarations)
    (hpos : d.span.surrounds pos = true) (hparent : d.parent = none) : s.enclosing pos = [] := by
  refine List.eq_nil_iff_forall_not_mem.mpr fun p hp => ?_
  obtain ⟨hhas, ht⟩ := mem_enclosing.mp hp
  have hr := Array.mem_of_getElem? hhas
  exact (h.declaration_parent d hd).none_iff.mp hparent p.1 hr (h.body_covers hd hr hpos ht)

theorem WellFormed.head?_enclosing (h : s.WellFormed code stop) (hd : d ∈ s.declarations)
    (hpos : d.span.surrounds pos = true) (hparent : d.parent = some i) :
    ∃ r, s.rules[i]? = some r ∧ (s.enclosing pos).head? = some (r, i) := by
  obtain ⟨r, hr, hcov, hinner⟩ := (h.declaration_parent d hd).covers i hparent
  have hmem := Array.mem_of_getElem? hr
  have ht := h.touches_of_body_covers hmem hpos hcov
  obtain ⟨⟨q, j⟩, hq⟩ := head?_enclosing_of_touches hr ht
  obtain ⟨hhas, htq, hmin⟩ := head?_enclosing_spec hq
  refine ⟨r, hr, ?_⟩
  by_cases hji : j = i
  · subst hji
    obtain rfl := Option.some.inj (hr.symm.trans hhas)
    exact hq
  · -- any other rule at the offset has the parent in its body
    have hmemq := Array.mem_of_getElem? hhas
    have hwider := Span.covers_iff.mp (hinner j q hhas (h.body_covers hd hmemq hpos htq) hji)
    have hnarrow := hmin i r hr ht
    have hspan := (h.rules q hmemq).span_le
    have hlt : r.span.start < r.span.stop := h.span_lt (n := .rule i r) hr
    simp only [Span.size] at hnarrow
    omega

theorem sectionAt_eq (code : Bytes) (pos : Nat) : sectionAt code pos =
    ((parse code).enclosing (clamp code pos)).head?.map fun p =>
      { span := p.1.span
        body := p.1.body
        properties := ((parse code).declarationsOf (some p.2)).map (.ofDeclaration code) } := by
  have h := (parse_spec code).1
  rw [sectionAt]
  congr
  funext p
  rw [← h.filterMap_children, List.map_filterMap]
  congr
  funext n
  cases n <;> rfl

theorem sectionAt_declaration (code : Bytes) (hd : d ∈ (parse code).declarations)
    (hb : isBoundary code pos = true) (hpos : d.span.surrounds pos = true) :
    (d.parent = none → sectionAt code pos = none) ∧
      ∀ i, d.parent = some i → ∃ r x, (parse code).rules[i]? = some r ∧
        sectionAt code pos = some x ∧ x.span = r.span ∧ x.body = r.body ∧
        x.properties = ((parse code).declarationsOf (some i)).map
          (fun c => ⟨c.name, c.value, splitValue code c.value⟩) ∧
        ((parse code).declarationsOf (some i)).Pairwise (fun c c' => c.span.stop ≤ c'.span.start) ∧
        ⟨d.name, d.value, splitValue code d.value⟩ ∈ x.properties := by
  have h := (parse_spec code).1
  rw [sectionAt_eq, clamp_of_isBoundary hb]
  refine ⟨fun hparent => ?_, fun i hparent => ?_⟩
  · rw [h.enclosing_eq_nil hd hpos hparent]
    rfl
  · obtain ⟨r, hr, hhead⟩ := h.head?_enclosing hd hpos hparent
    have hown := mem_declarationsOf.mpr ⟨hd, hparent⟩
    rw [hhead]
    exact ⟨r, _, hr, rfl, rfl, rfl, rfl, h.declarationsOf_ordered _,
      List.mem_map.mpr ⟨d, hown, rfl⟩⟩

theorem sectionAt_declaration_nested :
    (sectionAt (bytes "a\x7bb\x7bc:d;e:f\x7dg:h\x7d") 5).map (·.span) = some ⟨2, 12⟩ ∧
      sectionAt (bytes "a:b;c\x7bd:e\x7d") 1 = none := by
  have hinner : parse (bytes "a\x7bb\x7bc:d;e:f\x7dg:h\x7d") =
      { rules := #[⟨⟨0, 1⟩, ⟨2, 15⟩, ⟨0, 16⟩, true, none⟩, ⟨⟨2, 3⟩, ⟨4, 11⟩, ⟨2, 12⟩, true, some 0⟩]
        declarations := #[⟨⟨4, 5⟩, ⟨6, 7⟩, ⟨4, 8⟩, some 5, some 7, some 1⟩,
          ⟨⟨8, 9⟩, ⟨10, 11⟩, ⟨8, 11⟩, some 9, none, some 1⟩,
          ⟨⟨12, 13⟩, ⟨14, 15⟩, ⟨12, 15⟩, some 13, none, some 0⟩] } := by
    decide +kernel
  have houter : parse (bytes "a:b;c\x7bd:e\x7d") =
      { rules := #[⟨⟨4, 5⟩, ⟨6, 9⟩, ⟨4, 10⟩, true, none⟩]
        declarations := #[⟨⟨0, 1⟩, ⟨2, 3⟩, ⟨0, 4⟩, some 1, some 3, none⟩,
          ⟨⟨6, 7⟩, ⟨8, 9⟩, ⟨6, 9⟩, some 7, none, some 0⟩] } := by
    decide +kernel
  have hin := @sectionAt_declaration 5 ⟨⟨4, 5⟩, ⟨6, 7⟩, ⟨4, 8⟩, some 5, some 7, some 1⟩
    (bytes "a\x7bb\x7bc:d;e:f\x7dg:h\x7d") (by simp [hinner]) (by decide +kernel) (by decide)
  have hout := @sectionAt_declaration 1 ⟨⟨0, 1⟩, ⟨2, 3⟩, ⟨0, 4⟩, some 1, some 3, none⟩
    (bytes "a:b;c\x7bd:e\x7d") (by simp [houter]) (by decide +kernel) (by decide)
  refine ⟨?_, hout.1 rfl⟩
  obtain ⟨r, x, hr, hx, hspan, -⟩ := hin.2 1 rfl
  rw [hinner] at hr
  obtain rfl : (⟨⟨2, 3⟩, ⟨4, 11⟩, ⟨2, 12⟩, true, some 0⟩ : Rule) = r := Option.some.inj hr
  rw [hx, Option.map_some, hspan]

end Caret.Stylesheet
