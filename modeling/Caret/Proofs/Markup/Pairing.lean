import Caret.Markup.Element
import Caret.Proofs.Sequence
import Caret.Proofs.Markup.Tag

/-!
Pairing tags into elements is a matching without crossings: each closing tag closes one element at
most, which begins before it and has its name, and two elements are either apart or one inside the
other.
-/

namespace Caret.Markup

open Text

def openings (tags : List Tag) : List Tag := tags.filter (·.kind ≠ .closing)

structure Paired (xml : Bool) (tags : List Tag) (elements : List Element) : Prop where
  openings : elements.map (fun e => (e.name, e.opening)) =
    (openings tags).map fun t => (t.name, t.span)
  selfClosing : ∀ (i : Nat) (e : Element) (t : Tag), elements[i]? = some e →
    (Markup.openings tags)[i]? = some t → t.kind = .selfClosing → e.closing = none
  closing : ∀ e ∈ elements, ∀ c, e.closing = some c →
    ∃ t ∈ tags, t.kind = .closing ∧ t.span = c ∧ e.opening.stop ≤ c.start ∧
      sameName xml e.name t.name = true
  closing_once : elements.Pairwise fun e f => ∀ c, e.closing = some c → f.closing ≠ some c
  laminar : elements.Pairwise fun e f =>
    (∃ s, e.inner = some s ∧ s.covers f.outer = true) ∨ e.outer.stop ≤ f.outer.start

def Element.reach (e : Element) : Nat := e.closing.elim e.opening.stop (·.stop)

namespace Pairing

/-- Elements when the tags in `seen` have been paired and the next one begins at `edge` or later:
an element that is closed comes before the ones after it or holds them, closed or given up. -/
structure Valid (xml : Bool) (edge : Nat) (seen : List Tag) (p : Pairing) : Prop where
  openings : p.elements.toList.map (fun e => (e.name, e.opening)) =
    (openings seen).map fun t => (t.name, t.span)
  selfClosing : ∀ (i : Nat) (e : Element) (t : Tag), p.elements[i]? = some e →
    (Markup.openings seen)[i]? = some t → t.kind = .selfClosing → e.closing = none ∧ i ∉ p.opened
  opened_sorted : p.opened.Pairwise fun i j => j < i
  unclosed : ∀ i ∈ p.opened, ∃ e, p.elements[i]? = some e ∧ e.closing = none
  proper : ∀ (i : Nat) (e : Element), p.elements[i]? = some e →
    e.opening.start < e.opening.stop ∧ e.opening.stop ≤ edge
  closing : ∀ (i : Nat) (e : Element), p.elements[i]? = some e → ∀ c, e.closing = some c →
    c.start < c.stop ∧ c.stop ≤ edge ∧ ∃ t ∈ seen, t.kind = .closing ∧ t.span = c ∧
      e.opening.stop ≤ c.start ∧ sameName xml e.name t.name = true
  ordered : ∀ (i j : Nat) (e f : Element), i < j → p.elements[i]? = some e →
    p.elements[j]? = some f → e.opening.stop ≤ f.opening.start
  apart : ∀ (i j : Nat) (e f : Element), i < j → p.elements[i]? = some e →
    p.elements[j]? = some f → ∀ c, e.closing = some c →
      c.stop ≤ f.opening.start ∨ (f.reach ≤ c.start ∧ j ∉ p.opened)

variable {xml : Bool} {edge : Nat} {seen : List Tag} {p : Pairing} {t : Tag}

theorem valid_empty (xml : Bool) (edge : Nat) : Valid xml edge [] {} where
  openings := rfl
  selfClosing := by simp
  opened_sorted := .nil
  unclosed := by simp
  proper := by simp
  closing := by simp
  ordered := by simp
  apart := by simp

theorem Valid.reach_le (h : p.Valid xml edge seen) {i : Nat} {e : Element}
    (he : p.elements[i]? = some e) : e.reach ≤ edge := by
  unfold Element.reach
  cases hc : e.closing with
  | none => exact (h.proper i e he).2
  | some c => exact (h.closing i e he c hc).2.1

theorem Valid.length_openings (h : p.Valid xml edge seen) :
    (Markup.openings seen).length = p.elements.size := by
  simpa using (congrArg List.length h.openings).symm

theorem openings_append_of_ne (h : t.kind ≠ .closing) :
    Markup.openings (seen ++ [t]) = Markup.openings seen ++ [t] := by
  simp [Markup.openings, h]

theorem openings_append_closing (h : t.kind = .closing) :
    Markup.openings (seen ++ [t]) = Markup.openings seen := by
  simp [Markup.openings, h]

section begin

variable {opened : List Nat}
  (hopened : ∀ i ∈ opened, i ∈ p.opened ∨ (i = p.elements.size ∧ t.kind = .opening))

include hopened

theorem mem_opened_of_lt {i : Nat} (hi : i < p.elements.size) (hmem : i ∈ opened) :
    i ∈ p.opened := by
  rcases hopened i hmem with hmem | ⟨rfl, -⟩
  · exact hmem
  · exact absurd hi (Nat.lt_irrefl _)

theorem Valid.selfClosing_begin (h : p.Valid xml edge seen) (ht : t.kind ≠ .closing) {i : Nat}
    {e : Element} {u : Tag} (he : (p.elements.push ⟨t.name, t.span, none⟩)[i]? = some e)
    (hu : (Markup.openings (seen ++ [t]))[i]? = some u) (hself : u.kind = .selfClosing) :
    e.closing = none ∧ i ∉ opened := by
  rw [openings_append_of_ne ht] at hu
  rcases getElem?_push_cases he with ⟨hi, he'⟩ | ⟨rfl, rfl⟩
  · rw [List.getElem?_append_left (h.length_openings ▸ hi)] at hu
    obtain ⟨hnone, hmem⟩ := h.selfClosing i e u he' hu hself
    exact ⟨hnone, fun hmem' => hmem (mem_opened_of_lt hopened hi hmem')⟩
  · refine ⟨rfl, fun hmem => ?_⟩
    rcases hopened _ hmem with hmem' | ⟨-, hkind⟩
    · obtain ⟨f, hf, -⟩ := h.unclosed _ hmem'
      simp at hf
    · simp [← h.length_openings] at hu
      subst hu
      simp [hkind] at hself

theorem Valid.apart_begin (h : p.Valid xml edge seen) (hedge : edge ≤ t.span.start) {i j : Nat}
    {e f : Element} (hij : i < j) (he : (p.elements.push ⟨t.name, t.span, none⟩)[i]? = some e)
    (hf : (p.elements.push ⟨t.name, t.span, none⟩)[j]? = some f) {c : Span}
    (hc : e.closing = some c) :
    c.stop ≤ f.opening.start ∨ (f.reach ≤ c.start ∧ j ∉ opened) := by
  obtain ⟨he', hf'⟩ := getElem?_push_pair hij he hf
  rcases hf' with hf' | ⟨-, rfl⟩
  · have hj := (Array.getElem?_eq_some_iff.mp hf').1
    exact (h.apart i j e f hij he' hf' c hc).imp_right fun ⟨hle, hmem⟩ =>
      ⟨hle, fun hmem' => hmem (mem_opened_of_lt hopened hj hmem')⟩
  · exact .inl (Nat.le_trans (h.closing i e he' c hc).2.1 hedge)

theorem Valid.begin (h : p.Valid xml edge seen) (ht : t.kind ≠ .closing)
    (hedge : edge ≤ t.span.start) (hlt : t.span.start < t.span.stop)
    (hsort : opened.Pairwise fun i j => j < i) :
    Valid xml t.span.stop (seen ++ [t]) ⟨p.elements.push ⟨t.name, t.span, none⟩, opened⟩ := by
  refine
    { openings := ?_
      selfClosing := fun i e u => h.selfClosing_begin hopened ht
      opened_sorted := hsort
      unclosed := ?_
      proper := ?_
      closing := ?_
      ordered := ?_
      apart := fun i j e f hij he hf c => h.apart_begin hopened hedge hij he hf }
  · rw [openings_append_of_ne ht]
    simp [h.openings]
  · intro i hi
    rcases hopened i hi with hi' | ⟨rfl, -⟩
    · obtain ⟨e, he, hnone⟩ := h.unclosed i hi'
      exact ⟨e, getElem?_push_of_some he, hnone⟩
    · exact ⟨⟨t.name, t.span, none⟩, by simp, rfl⟩
  · intro i e he
    rcases getElem?_push_cases he with ⟨-, he'⟩ | ⟨-, rfl⟩
    · have := h.proper i e he'
      omega
    · exact ⟨hlt, Nat.le_refl _⟩
  · intro i e he c hc
    rcases getElem?_push_cases he with ⟨-, he'⟩ | ⟨-, rfl⟩
    · obtain ⟨hc1, hc2, u, hu, hrest⟩ := h.closing i e he' c hc
      exact ⟨hc1, by omega, u, List.mem_append_left _ hu, hrest⟩
    · simp at hc
  · intro i j e f hij he hf
    obtain ⟨he', hf'⟩ := getElem?_push_pair hij he hf
    rcases hf' with hf' | ⟨-, rfl⟩
    · exact h.ordered i j e f hij he' hf'
    · exact Nat.le_trans (h.proper i e he').2 hedge

end begin

theorem Valid.skip (h : p.Valid xml edge seen) (ht : t.kind = .closing)
    (hedge : edge ≤ t.span.start) (hlt : t.span.start < t.span.stop) :
    Valid xml t.span.stop (seen ++ [t]) p where
  openings := by rw [openings_append_closing ht, h.openings]
  selfClosing := by
    rw [openings_append_closing ht]
    exact h.selfClosing
  opened_sorted := h.opened_sorted
  unclosed := h.unclosed
  proper i e he := by
    have := h.proper i e he
    omega
  closing i e he c hc := by
    obtain ⟨hc1, hc2, u, hu, hrest⟩ := h.closing i e he c hc
    exact ⟨hc1, by omega, u, List.mem_append_left _ hu, hrest⟩
  ordered := h.ordered
  apart := h.apart

theorem Valid.lt_of_mem_rest (h : p.Valid xml edge seen) {later rest : List Nat} {i j : Nat}
    (hopened : p.opened = later ++ i :: rest) (hj : j ∈ rest) : j < i := by
  have hsort := h.opened_sorted
  rw [hopened, List.pairwise_append] at hsort
  exact List.rel_of_pairwise_cons hsort.2.1 hj

theorem Valid.apart_close (h : p.Valid xml edge seen) (hedge : edge ≤ t.span.start)
    {later rest : List Nat} {i : Nat} (hopened : p.opened = later ++ i :: rest) {j k : Nat}
    {f g : Element} (hjk : j < k)
    (hf : (p.elements.modify i fun e => { e with closing := some t.span })[j]? = some f)
    (hg : (p.elements.modify i fun e => { e with closing := some t.span })[k]? = some g)
    {c : Span} (hc : f.closing = some c) :
    c.stop ≤ g.opening.start ∨ (g.reach ≤ c.start ∧ k ∉ rest) := by
  have hsub {k : Nat} (hk : k ∈ rest) : k ∈ p.opened := by simp [hopened, hk]
  have hmem : i ∈ p.opened := by simp [hopened]
  rcases getElem?_modify_cases hf with ⟨-, hf'⟩ | ⟨rfl, f', hf', rfl⟩
  · rcases getElem?_modify_cases hg with ⟨-, hg'⟩ | ⟨rfl, g', hg', rfl⟩
    · rcases h.apart j k f g hjk hf' hg' c hc with hle | ⟨hle, hk⟩
      · exact .inl hle
      · exact .inr ⟨hle, fun hk' => hk (hsub hk')⟩
    · rcases h.apart j k f g' hjk hf' hg' c hc with hle | ⟨-, hk⟩
      · exact .inl hle
      · exact absurd hmem hk
  · obtain rfl := Option.some.inj hc
    rcases getElem?_modify_cases hg with ⟨-, hg'⟩ | ⟨rfl, -⟩
    · refine .inr ⟨Nat.le_trans (h.reach_le hg') hedge, fun hk => ?_⟩
      exact Nat.lt_asymm hjk (h.lt_of_mem_rest hopened hk)
    · omega

theorem openings_close {i : Nat} {e : Element} (he : p.elements[i]? = some e) (c : Span) :
    (p.elements.modify i fun e => { e with closing := some c }).toList.map
        (fun e => (e.name, e.opening)) =
      p.elements.toList.map fun e => (e.name, e.opening) := by
  apply List.ext_getElem?
  intro j
  simp only [List.getElem?_map, Array.getElem?_toList, Array.getElem?_modify]
  split
  · next hij =>
    subst hij
    simp [he]
  · rfl

theorem opening_close {i j : Nat} {c : Span} {f : Element}
    (hf : (p.elements.modify i fun e => { e with closing := some c })[j]? = some f) :
    ∃ f', p.elements[j]? = some f' ∧ f'.opening = f.opening := by
  rcases getElem?_modify_cases hf with ⟨-, hf'⟩ | ⟨rfl, f', hf', rfl⟩
  · exact ⟨f, hf', rfl⟩
  · exact ⟨f', hf', rfl⟩

theorem Valid.close (h : p.Valid xml edge seen) (ht : t.kind = .closing)
    (hedge : edge ≤ t.span.start) (hlt : t.span.start < t.span.stop) {later rest : List Nat} {i : Nat}
    (hopened : p.opened = later ++ i :: rest) {e : Element} (he : p.elements[i]? = some e)
    (hname : sameName xml e.name t.name = true) :
    Valid xml t.span.stop (seen ++ [t])
      ⟨p.elements.modify i fun e => { e with closing := some t.span }, rest⟩ := by
  have hs := h.skip ht hedge hlt
  have hsub : rest.Sublist p.opened := by
    rw [hopened]
    exact (List.sublist_cons_self i rest).trans (List.sublist_append_right later _)
  have hmem : i ∈ p.opened := by simp [hopened]
  refine
    { openings := (openings_close he t.span).trans hs.openings
      selfClosing := ?_
      opened_sorted := h.opened_sorted.sublist hsub
      unclosed := ?_
      proper := ?_
      closing := ?_
      ordered := ?_
      apart := fun j k f g hjk hf hg c => h.apart_close hedge hopened hjk hf hg }
  · intro j f u hf hu hself
    rcases getElem?_modify_cases hf with ⟨-, hf'⟩ | ⟨rfl, f', hf', rfl⟩
    · obtain ⟨hfnone, hfmem⟩ := hs.selfClosing j f u hf' hu hself
      exact ⟨hfnone, fun hj => hfmem (hsub.subset hj)⟩
    · exact absurd hmem (hs.selfClosing j f' u hf' hu hself).2
  · -- what is still open was opened before the element that is closed
    intro j hj
    obtain ⟨f, hf, hfnone⟩ := h.unclosed j (hsub.subset hj)
    refine ⟨f, ?_, hfnone⟩
    rw [Array.getElem?_modify, if_neg (Nat.ne_of_gt (h.lt_of_mem_rest hopened hj)), hf]
  · intro j f hf
    obtain ⟨f', hf', ho⟩ := opening_close hf
    exact ho ▸ hs.proper j f' hf'
  · intro j f hf c hc
    rcases getElem?_modify_cases hf with ⟨-, hf'⟩ | ⟨rfl, f', hf', rfl⟩
    · exact hs.closing j f hf' c hc
    · obtain rfl := Option.some.inj (he.symm.trans hf')
      obtain rfl := Option.some.inj hc
      refine ⟨hlt, Nat.le_refl _, t, by simp, ht, rfl, ?_, hname⟩
      exact Nat.le_trans (h.proper j e he).2 hedge
  · intro j k f g hjk hf hg
    obtain ⟨f', hf', hfo⟩ := opening_close hf
    obtain ⟨g', hg', hgo⟩ := opening_close hg
    exact hfo ▸ hgo ▸ h.ordered j k f' g' hjk hf' hg'

theorem Valid.add (h : p.Valid xml edge seen) (hedge : edge ≤ t.span.start)
    (hlt : t.span.start < t.span.stop) : (p.add xml t).Valid xml t.span.stop (seen ++ [t]) := by
  cases hk : t.kind with
  | opening =>
    simp only [Pairing.add, hk]
    refine h.begin (fun i hi => ?_) (by simp [hk]) hedge hlt ?_
    · rcases List.mem_cons.mp hi with rfl | hi
      · exact .inr ⟨rfl, hk⟩
      · exact .inl hi
    · refine List.pairwise_cons.mpr ⟨fun i hi => ?_, h.opened_sorted⟩
      obtain ⟨e, he, -⟩ := h.unclosed i hi
      exact (Array.getElem?_eq_some_iff.mp he).1
  | selfClosing =>
    simp only [Pairing.add, hk]
    exact h.begin (fun i hi => .inl hi) (by simp [hk]) hedge hlt h.opened_sorted
  | closing =>
    simp only [Pairing.add, hk]
    split
    · exact h.skip hk hedge hlt
    · next i rest hdrop =>
      have happ := List.takeWhile_append_dropWhile
        (p := fun i => !(p.elements[i]?.any fun e => sameName xml e.name t.name)) (l := p.opened)
      have hhead := List.head?_dropWhile_not
        (fun i => !(p.elements[i]?.any fun e => sameName xml e.name t.name)) p.opened
      rw [hdrop] at happ hhead
      obtain ⟨e, he, hname⟩ : ∃ e, p.elements[i]? = some e ∧ sameName xml e.name t.name = true := by
        simpa [Option.any_eq_true] using hhead
      exact h.close hk hedge hlt happ.symm he hname

theorem Valid.foldl {tags : List Tag} (h : p.Valid xml edge seen)
    (hle : ∀ t ∈ tags, edge ≤ t.span.start ∧ t.span.start < t.span.stop)
    (hpair : tags.Pairwise fun s t => s.span.stop ≤ t.span.start) :
    ∃ edge', (tags.foldl (Pairing.add xml) p).Valid xml edge' (seen ++ tags) := by
  induction tags generalizing p edge seen with
  | nil => exact ⟨edge, by simpa using h⟩
  | cons t tags ih =>
    obtain ⟨ht, hpair⟩ := List.pairwise_cons.mp hpair
    obtain ⟨hedge, hlt⟩ := hle t List.mem_cons_self
    have hrest := ih (h.add hedge hlt)
      (fun u hu => ⟨ht u hu, (hle u (List.mem_cons_of_mem _ hu)).2⟩) hpair
    simpa using hrest

theorem Valid.outer_eq (h : p.Valid xml edge seen) {i : Nat} {e : Element}
    (he : p.elements[i]? = some e) : e.outer = ⟨e.opening.start, e.reach⟩ := by
  have hlt := (h.proper i e he).1
  have hreach : e.opening.start ≤ e.reach := by
    unfold Element.reach
    cases hc : e.closing with
    | none => exact Nat.le_of_lt hlt
    | some c =>
      obtain ⟨hc1, -, u, -, -, -, hstop, -⟩ := h.closing i e he c hc
      simp only [Option.elim_some]
      omega
  exact Span.between_of_le hreach

theorem Valid.laminar (h : p.Valid xml edge seen) {i j : Nat} {e f : Element} (hij : i < j)
    (he : p.elements[i]? = some e) (hf : p.elements[j]? = some f) :
    (∃ s, e.inner = some s ∧ s.covers f.outer = true) ∨ e.outer.stop ≤ f.outer.start := by
  have hord := h.ordered i j e f hij he hf
  rw [h.outer_eq he, h.outer_eq hf]
  cases hc : e.closing with
  | none => exact .inr (by simpa [Element.reach, hc] using hord)
  | some c =>
    rcases h.apart i j e f hij he hf c hc with hle | ⟨hle, -⟩
    · exact .inr (by simpa [Element.reach, hc] using hle)
    · obtain ⟨-, -, u, -, -, -, hstop, -⟩ := h.closing i e he c hc
      refine .inl ⟨⟨e.opening.stop, c.start⟩, ?_, ?_⟩
      · simp [Element.inner, hc, Span.between_of_le hstop]
      · exact Span.covers_iff.mpr ⟨hord, hle⟩

theorem Valid.paired (h : p.Valid xml edge seen) : Paired xml seen p.elements.toList := by
  refine
    { openings := h.openings
      selfClosing := ?_
      closing := ?_
      closing_once := ?_
      laminar := pairwise_toList fun i j e f hij he hf => h.laminar hij he hf }
  · intro i e t he ht hself
    exact (h.selfClosing i e t (by simpa using he) ht hself).1
  · intro e he c hc
    obtain ⟨i, hi⟩ := Array.mem_iff_getElem?.mp (Array.mem_toList_iff.mp he)
    exact (h.closing i e hi c hc).2.2
  · apply pairwise_toList
    intro i j e f hij he hf c hc hc'
    obtain ⟨hlt, -⟩ := h.closing i e he c hc
    rcases h.apart i j e f hij he hf c hc with hle | ⟨hle, -⟩
    · obtain ⟨-, -, u, -, -, -, hstop, -⟩ := h.closing j f hf c hc'
      have := (h.proper j f hf).1
      omega
    · simp only [Element.reach, hc', Option.elim_some] at hle
      omega

end Pairing

theorem elements_paired (code : Bytes) (xml : Bool) :
    Paired xml (tags code xml) (elements code xml) := by
  obtain ⟨hle, hpair⟩ := tagsFrom_ordered code xml 0
  obtain ⟨edge, hvalid⟩ := (Pairing.valid_empty xml 0).foldl hle hpair
  simpa [elements, tags] using hvalid.paired

theorem exists_opening {code : Bytes} {xml : Bool} {e : Element} (he : e ∈ elements code xml) :
    ∃ t ∈ tags code xml, t.name = e.name ∧ t.span = e.opening ∧ t.kind ≠ .closing ∧
      (t.kind = .selfClosing → e.closing = none) := by
  have hp := elements_paired code xml
  obtain ⟨i, hi⟩ := List.mem_iff_getElem?.mp he
  have hentry := congrArg (·[i]?) hp.openings
  simp only [List.getElem?_map, hi, Option.map_some] at hentry
  obtain ⟨t, ht, heq⟩ := Option.map_eq_some_iff.mp hentry.symm
  obtain ⟨hname, hspan⟩ := Prod.mk.inj heq
  obtain ⟨hmem, hkind⟩ := List.mem_filter.mp (List.mem_of_getElem? ht)
  exact ⟨t, hmem, hname, hspan, by simpa using hkind, hp.selfClosing i e t hi ht⟩

theorem elements_noncrossing (code : Bytes) (xml : Bool) :
    (∀ t ∈ tags code xml, t.span.start < t.span.stop) ∧
      ((tags code xml).Pairwise fun s t => s.span.stop ≤ t.span.start) ∧
      Paired xml (tags code xml) (elements code xml) := by
  obtain ⟨hlt, hpair⟩ := tags_ordered code xml
  exact ⟨hlt, hpair, elements_paired code xml⟩

end Caret.Markup
