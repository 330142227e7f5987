import Caret.Proofs.Markup.Tag
import Caret.Proofs.Stylesheet.Comment
import Caret.Proofs.Stylesheet.Edge
import Caret.Proofs.Stylesheet.Order
import Caret.Selection
import Mathlib.Data.List.Induction

namespace Caret

open Text

/-- The selections that are found one after the other from an offset on, up to the last. -/
inductive Visits (next : Nat → Option Selection) (onward : Selection → Nat) :
    Nat → List Selection → Prop where
  | done {pos : Nat} (h : next pos = none) : Visits next onward pos []
  | step {pos : Nat} {a : Selection} {l : List Selection} (h : next pos = some a)
      (rest : Visits next onward (onward a) l) : Visits next onward pos (a :: l)

theorem Visits.unique {next : Nat → Option Selection} {onward : Selection → Nat} {pos : Nat}
    {l l' : List Selection} (h : Visits next onward pos l) (h' : Visits next onward pos l') :
    l = l' := by
  induction h generalizing l' with
  | done hn =>
    cases h' with
    | done => rfl
    | step hs => simp [hn] at hs
  | step hs _ ih =>
    cases h' with
    | done hn => simp [hn] at hs
    | step hs' hrest =>
      obtain rfl := Option.some.inj (hs.symm.trans hs')
      rw [ih hrest]

def StepsThrough (next : Nat → Option Selection) (onward : Selection → Nat) (pos : Nat)
    (wanted : List Selection) : Prop :=
  (∃ l, Visits next onward pos l) ∧
    ∀ l, Visits next onward pos l → l.filter (!·.span.isEmpty) = wanted

theorem Visits.stepsThrough {next : Nat → Option Selection} {onward : Selection → Nat} {pos : Nat}
    {l : List Selection} (h : Visits next onward pos l) :
    StepsThrough next onward pos (l.filter (!·.span.isEmpty)) :=
  ⟨⟨l, h⟩, fun _ h' => by rw [h.unique h']⟩

section items

variable {α : Type} {code : Bytes} {span : α → Span} {view : α → Selection}
  {items before after : List α} {pos : Nat}

structure Ordered (code : Bytes) (span : α → Span) (items : List α) : Prop where
  proper : ∀ a ∈ items, (span a).start ≤ (span a).stop
  start : ∀ a ∈ items, isBoundary code (span a).start = true
  stop : ∀ a ∈ items, isBoundary code (span a).stop = true
  apart : items.Pairwise fun a b => (span a).stop ≤ (span b).start

theorem Ordered.bounds (h : Ordered code span (before ++ after)) {a b : α} (ha : a ∈ before)
    (hb : b ∈ after) : (span a).stop ≤ (span b).start :=
  (List.pairwise_append.mp h.apart).2.2 a ha b hb

theorem pick_next (hbefore : ∀ a ∈ before, (span a).stop ≤ pos) :
    pick span false pos (before ++ after) = after.find? fun a => pos < (span a).stop := by
  have hnone : (before.find? fun a => decide (pos < (span a).stop)) = none := by
    simpa using hbefore
  simp [pick, hnone]

theorem pick_previous (hafter : ∀ a ∈ after, pos ≤ (span a).start) :
    pick span true pos (before ++ after) =
      (before.filter fun a => (span a).start < pos).getLast? := by
  have hnil : (after.filter fun a => decide ((span a).start < pos)) = [] := by
    simpa using hafter
  simp [pick, hnil]

theorem isEmpty_of_bounds (hview : ∀ a, (view a).span = span a) {a : α}
    (hstart : pos ≤ (span a).start) (hstop : (span a).stop ≤ pos) :
    (view a).span.isEmpty = true := by
  rw [hview, Span.isEmpty, decide_eq_true_eq]
  exact Nat.le_trans hstop hstart

theorem Ordered.visits_forward (h : Ordered code span items) (hview : ∀ a, (view a).span = span a)
    (hitems : items = before ++ after) (hpos : isBoundary code pos = true)
    (hbefore : ∀ a ∈ before, (span a).stop ≤ pos) (hafter : ∀ a ∈ after, pos ≤ (span a).start) :
    ∃ l, Visits (fun pos => (pick span false (clamp code pos) items).map view) (·.span.stop) pos l ∧
      l.filter (!·.span.isEmpty) = (after.map view).filter (!·.span.isEmpty) := by
  induction after generalizing before pos with
  | nil =>
    refine ⟨[], .done ?_, rfl⟩
    rw [clamp_of_isBoundary hpos, hitems, pick_next hbefore]
    rfl
  | cons a after ih =>
    have hsplit : items = (before ++ [a]) ++ after := by rw [hitems, List.append_cons]
    have ha : a ∈ items := by simp [hitems]
    have hapart : ∀ b ∈ after, (span a).stop ≤ (span b).start := fun b hb =>
      (hsplit ▸ h).bounds (List.mem_append_right _ List.mem_cons_self) hb
    by_cases hlt : pos < (span a).stop
    · have hpassed : ∀ b ∈ before ++ [a], (span b).stop ≤ (span a).stop := by
        refine List.forall_mem_append.mpr ⟨fun b hb => ?_, by simp⟩
        exact Nat.le_trans (hbefore b hb) (Nat.le_of_lt hlt)
      have hpick : pick span false pos items = some a := by
        rw [hitems, pick_next hbefore]
        simp [hlt]
      obtain ⟨l, hl, hfilter⟩ := ih hsplit (h.stop a ha) hpassed hapart
      refine ⟨view a :: l, .step ?_ (hview a ▸ hl), ?_⟩
      · rw [clamp_of_isBoundary hpos, hpick, Option.map_some]
      · simp only [List.map_cons, List.filter_cons, hfilter]
    · -- an empty item at the offset is passed over
      have hstop := Nat.le_of_not_lt hlt
      have hpassed : ∀ b ∈ before ++ [a], (span b).stop ≤ pos :=
        List.forall_mem_append.mpr ⟨hbefore, by simpa using hstop⟩
      obtain ⟨l, hl, hfilter⟩ :=
        ih hsplit hpos hpassed fun b hb => hafter b (List.mem_cons_of_mem _ hb)
      have hempty := isEmpty_of_bounds hview (hafter a List.mem_cons_self) hstop
      refine ⟨l, hl, ?_⟩
      rw [hfilter, List.map_cons, List.filter_cons, if_neg (by simp [hempty])]

theorem Ordered.visits_backward (h : Ordered code span items) (hview : ∀ a, (view a).span = span a)
    (hitems : items = before ++ after) (hpos : isBoundary code pos = true)
    (hbefore : ∀ a ∈ before, (span a).stop ≤ pos) (hafter : ∀ a ∈ after, pos ≤ (span a).start) :
    ∃ l, Visits (fun pos => (pick span true (clamp code pos) items).map view) (·.span.start) pos l ∧
      l.filter (!·.span.isEmpty) = (before.map view).reverse.filter (!·.span.isEmpty) := by
  induction before using List.reverseRecOn generalizing after pos with
  | nil =>
    refine ⟨[], .done ?_, rfl⟩
    rw [clamp_of_isBoundary hpos, hitems, pick_previous hafter]
    rfl
  | append_singleton before a ih =>
    have hsplit : items = before ++ a :: after := by rw [hitems, List.append_assoc]; rfl
    have ha : a ∈ items := by simp [hitems]
    have hstop := hbefore a (by simp)
    have hapart : ∀ b ∈ before, (span b).stop ≤ (span a).start := fun b hb =>
      (hsplit ▸ h).bounds hb List.mem_cons_self
    by_cases hlt : (span a).start < pos
    · have hpassed : ∀ b ∈ a :: after, (span a).start ≤ (span b).start := by
        refine List.forall_mem_cons.mpr ⟨Nat.le_refl _, fun b hb => ?_⟩
        exact Nat.le_trans (Nat.le_of_lt hlt) (hafter b hb)
      have hpick : pick span true pos items = some a := by
        rw [hitems, pick_previous hafter]
        simp [List.filter_append, hlt]
      obtain ⟨l, hl, hfilter⟩ := ih hsplit (h.start a ha) hapart hpassed
      refine ⟨view a :: l, .step ?_ (hview a ▸ hl), ?_⟩
      · rw [clamp_of_isBoundary hpos, hpick, Option.map_some]
      · simp only [List.map_append, List.reverse_append, List.map_cons, List.map_nil,
          List.reverse_cons, List.reverse_nil, List.nil_append, List.cons_append, List.filter_cons,
          hfilter]
    · have hstart := Nat.le_of_not_lt hlt
      have hpassed : ∀ b ∈ a :: after, pos ≤ (span b).start :=
        List.forall_mem_cons.mpr ⟨hstart, hafter⟩
      obtain ⟨l, hl, hfilter⟩ :=
        ih hsplit hpos (fun b hb => hbefore b (List.mem_append_left _ hb)) hpassed
      have hempty := isEmpty_of_bounds hview hstart hstop
      refine ⟨l, hl, ?_⟩
      simp [hfilter, hempty]

theorem filter_map_view (hview : ∀ a, (view a).span = span a) (items : List α) :
    (items.map view).filter (!·.span.isEmpty) =
      (items.filter fun a => !(span a).isEmpty).map view := by
  simp only [List.filter_map, Function.comp_def, hview]

theorem Ordered.steps_forward (h : Ordered code span items) (hview : ∀ a, (view a).span = span a) :
    StepsThrough (fun pos => (pick span false (clamp code pos) items).map view) (·.span.stop) 0
      ((items.filter fun a => !(span a).isEmpty).map view) := by
  obtain ⟨l, hl, hfilter⟩ := h.visits_forward hview (show items = [] ++ items from rfl)
    (isBoundary_iff.mpr (.inl rfl)) (by simp) fun a _ => Nat.zero_le _
  rw [← filter_map_view hview, ← hfilter]
  exact hl.stepsThrough

theorem Ordered.steps_backward (h : Ordered code span items) (hview : ∀ a, (view a).span = span a) :
    StepsThrough (fun pos => (pick span true (clamp code pos) items).map view) (·.span.start)
      code.size ((items.filter fun a => !(span a).isEmpty).map view).reverse := by
  have hstop : ∀ a ∈ items, (span a).stop ≤ code.size := fun a ha =>
    le_size_of_isBoundary (h.stop a ha)
  obtain ⟨l, hl, hfilter⟩ := h.visits_backward hview
    (show items = items ++ [] from (List.append_nil items).symm)
    (isBoundary_iff.mpr (.inr (.inl rfl))) hstop (by simp)
  rw [← filter_map_view hview, ← List.filter_reverse, ← hfilter]
  exact hl.stepsThrough

end items

namespace Markup

theorem opening_ordered (text : String) :
    Ordered (bytes text) Tag.span ((tags (bytes text) false).filter (·.kind ≠ .closing)) where
  proper t ht := Nat.le_of_lt ((tags_ordered _ false).1 t (List.mem_filter.mp ht).1)
  start t ht := by
    obtain ⟨hmem, hkind⟩ := List.mem_filter.mp ht
    exact (isBoundary_of_at? (at?_edges hmem (by simpa using hkind)).1 (by decide)).1
  stop t ht := by
    obtain ⟨hmem, hkind⟩ := List.mem_filter.mp ht
    have hlt := (tags_ordered _ false).1 t hmem
    have hstop := (isBoundary_of_at? (at?_edges hmem (by simpa using hkind)).2 (by decide)).2
    rwa [Nat.sub_add_cancel (Nat.zero_lt_of_lt hlt)] at hstop
  apart := (tags_ordered _ false).2.filter _

end Markup

namespace Stylesheet

variable {s : Stylesheet} {code : Bytes} {n m : Node}

def Node.isSelected : Node → Bool
  | .rule _ r => !r.selector.isEmpty
  | .declaration .. => true

theorem itemSpan_rule (h : s.WellFormed code code.size) (he : s.Edged code) {i : Nat} {r : Rule}
    (hr : s.rules[i]? = some r) : itemSpan code (.rule i r) = r.selector :=
  (he.rules r (Array.mem_of_getElem? hr)).trim_eq (h.rules r (Array.mem_of_getElem? hr)).selector_le

theorem itemSpan_trimmed (h : s.WellFormed code code.size) (he : s.Edged code) (hn : s.Has n) :
    Trimmed code (itemSpan code n) := by
  cases n with
  | rule i r =>
    rw [itemSpan_rule h he hn]
    exact he.rules r (Array.mem_of_getElem? hn)
  | declaration i d => exact he.declarations d (Array.mem_of_getElem? hn)

theorem itemSpan_bounds (h : s.WellFormed code code.size) (he : s.Edged code) (hn : s.Has n) :
    (itemSpan code n).start = n.span.start ∧ (itemSpan code n).start ≤ (itemSpan code n).stop ∧
      (itemSpan code n).stop ≤ n.span.stop := by
  have hlt := h.span_lt hn
  cases n with
  | rule i r =>
    have hr := h.rules r (Array.mem_of_getElem? hn)
    have hstart := hr.span_start
    have hle := hr.selector_le
    have hselector := hr.selector_lt
    have hbody := hr.body_le
    have hspan := hr.span_le
    rw [itemSpan_rule h he hn]
    simp only [Node.span]
    omega
  | declaration i d => exact ⟨rfl, Nat.le_of_lt hlt, Nat.le_refl _⟩

theorem isEmpty_itemSpan (h : s.WellFormed code code.size) (he : s.Edged code) (hn : s.Has n) :
    (!(itemSpan code n).isEmpty) = n.isSelected := by
  have hlt := h.span_lt hn
  cases n with
  | rule i r =>
    rw [itemSpan_rule h he hn]
    rfl
  | declaration i d =>
    have hfalse : d.span.isEmpty = false := decide_eq_false (Nat.not_le_of_lt hlt)
    simp only [itemSpan, hfalse, Node.isSelected, Bool.not_false]

theorem items_ordered (h : s.WellFormed code code.size) (he : s.Edged code) :
    Ordered code (itemSpan code) s.items where
  proper n hn := (itemSpan_bounds h he (mem_items.mp hn)).2.1
  start n hn := (itemSpan_trimmed h he (mem_items.mp hn)).start
  stop n hn := (itemSpan_trimmed h he (mem_items.mp hn)).stop
  apart := by
    refine h.items_sorted.imp_of_mem fun {n m} hn hm hstart => ?_
    have hn := mem_items.mp hn
    have hm := mem_items.mp hm
    have hbounds := itemSpan_bounds h he hn
    have hbounds' := itemSpan_bounds h he hm
    have hlt := h.span_lt hm
    have hne : n ≠ m := by
      rintro rfl
      exact Nat.lt_irrefl _ hstart
    rcases h.nodes_laminar hn hm hne with hh | hh | hle | hle
    · -- a selector ends before the body of its rule begins
      cases n with
      | rule i r =>
        have hselector := (h.rules r (Array.mem_of_getElem? hn)).selector_lt
        have hcov := (Span.covers_iff.mp hh).1
        rw [itemSpan_rule h he hn]
        omega
      | declaration i d => exact hh.elim
    · have := h.holds_lt hm hh
      omega
    · omega
    · omega

end Stylesheet

theorem select_visits (text : String) :
    let code := bytes text
    let opening := (Markup.tags code false).filter (·.kind ≠ .closing)
    let sheet := Stylesheet.parse code
    (opening.Pairwise (fun t u => t.span.stop ≤ u.span.start) ∧
      StepsThrough (Markup.select code false) (·.span.stop) 0
        (opening.map (Markup.selectTag code)) ∧
      StepsThrough (Markup.select code true) (·.span.start) code.size
        (opening.map (Markup.selectTag code)).reverse) ∧
    ∃ nodes : List Stylesheet.Node,
      nodes.Perm ((sheet.ruleNodes ++ sheet.declarationNodes).filter (·.isSelected)) ∧
      nodes.Pairwise (fun n m =>
        (Stylesheet.itemSpan code n).stop ≤ (Stylesheet.itemSpan code m).start) ∧
      StepsThrough (Stylesheet.select code false) (·.span.stop) 0
        (nodes.map (Stylesheet.selectNode code)) ∧
      StepsThrough (Stylesheet.select code true) (·.span.start) code.size
        (nodes.map (Stylesheet.selectNode code)).reverse := by
  intro code opening sheet
  have htags : Ordered code Markup.Tag.span opening := Markup.opening_ordered text
  have hopening : opening.filter (fun t => !t.span.isEmpty) = opening := by
    refine List.filter_eq_self.mpr fun t ht => ?_
    have hlt := (Markup.tags_ordered code false).1 t (List.mem_filter.mp ht).1
    simpa [Span.isEmpty] using hlt
  have hsheet : sheet.WellFormed code code.size := (Stylesheet.parse_spec code).1
  have hedged : sheet.Edged code := Stylesheet.parse_edged text
  have hitems := Stylesheet.items_ordered hsheet hedged
  have hselected : sheet.items.filter (fun n => !(Stylesheet.itemSpan code n).isEmpty) =
      sheet.items.filter (·.isSelected) :=
    List.filter_congr fun n hn =>
      Stylesheet.isEmpty_itemSpan hsheet hedged (Stylesheet.mem_items.mp hn)
  have hview : ∀ n, (Stylesheet.selectNode code n).span = Stylesheet.itemSpan code n := by
    rintro (_ | _) <;> rfl
  have htag : ∀ t : Markup.Tag, (Markup.selectTag code t).span = t.span := fun _ => rfl
  have hforward := htags.steps_forward htag
  have hbackward := htags.steps_backward htag
  rw [hopening] at hforward hbackward
  have hnext := hitems.steps_forward hview
  have hprevious := hitems.steps_backward hview
  rw [hselected] at hnext hprevious
  exact ⟨⟨htags.apart, hforward, hbackward⟩, sheet.items.filter (·.isSelected),
    sheet.items_perm.filter _, hitems.apart.filter _, hnext, hprevious⟩

end Caret
