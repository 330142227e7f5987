import Caret.Balance
import Caret.Proofs.Stylesheet.Edge
import Caret.Proofs.Stylesheet.Order

namespace Caret.Stylesheet

open Text

variable {s : Stylesheet} {code : Bytes} {pos i : Nat} {n m : Node} {r : Rule}

def below (s : Stylesheet) (pos : Nat) : List Node :=
  if (s.declarationAt pos).isSome then []
  else firstChildren s.items ((s.enclosing pos).head?.map (·.2)) pos

def Meets (s : Stylesheet) (pos : Nat) : Prop :=
  ∃ r ∈ s.rules, ∃ n ∈ s.items,
    (r.span.stop = pos ∧ n.span.start = pos) ∨ (n.span.stop = pos ∧ r.span.start = pos)

theorem mem_enclosing {p : Rule × Nat} :
    p ∈ s.enclosing pos ↔ s.rules[p.2]? = some p.1 ∧ p.1.span.touches pos = true := by
  rw [enclosing, List.mem_mergeSort, List.mem_filter, List.mem_zipIdx_iff_getElem?,
    Array.getElem?_toList]

theorem declarationAt_of_touches {d : Declaration} (hd : s.declarations[i]? = some d)
    (ht : d.span.touches pos = true) : ∃ q, s.declarationAt pos = some q := by
  refine Option.isSome_iff_exists.mp (List.find?_isSome.mpr ⟨(d, i), ?_, ht⟩)
  rwa [List.mem_zipIdx_iff_getElem?, Array.getElem?_toList]

theorem declarationAt_spec {p : Declaration × Nat} (h : s.declarationAt pos = some p) :
    s.declarations[p.2]? = some p.1 ∧ p.1.span.touches pos = true ∧
      ∀ (j : Nat) (d : Declaration), s.declarations[j]? = some d → d.span.touches pos = true →
        p.2 ≤ j := by
  obtain ⟨htouches, i, hi, rfl, hbefore⟩ := List.find?_eq_some_iff_getElem.mp h
  simp only [List.getElem_zipIdx, Nat.zero_add, Array.getElem_toList] at htouches hbefore ⊢
  refine ⟨Array.getElem?_eq_getElem _, htouches, fun j d hd htouches' => ?_⟩
  refine Nat.le_of_not_lt fun hji => ?_
  obtain ⟨hj, rfl⟩ := Array.getElem?_eq_some_iff.mp hd
  simpa [htouches'] using hbefore j hji

theorem mem_around (hn : n ∈ s.around pos) : s.Has n ∧ n.span.touches pos = true := by
  rw [around, List.mem_append, Option.mem_toList, Option.map_eq_some_iff, List.mem_map] at hn
  rcases hn with ⟨p, hp, rfl⟩ | ⟨p, hp, rfl⟩
  · obtain ⟨hhas, htouches, -⟩ := declarationAt_spec hp
    exact ⟨hhas, htouches⟩
  · exact mem_enclosing.mp hp

theorem WellFormed.holds_of_touches (h : s.WellFormed code code.size) (hm : ¬s.Meets pos)
    (hr : s.Has (.rule i r)) (hn : s.Has n) (hne : .rule i r ≠ n)
    (htr : r.span.touches pos = true) (htn : n.span.touches pos = true) :
    r.body.covers n.span = true ∨ n.Holds (.rule i r) := by
  rw [Span.touches_iff] at htr htn
  have hmem := Array.mem_of_getElem? hr
  have hmem' := mem_items.mpr hn
  rcases h.nodes_laminar hr hn hne with hh | hh | hle | hle
  · exact .inl hh
  · exact .inr hh
  · simp only [Node.span] at hle
    exact (hm ⟨r, hmem, n, hmem', .inl (by simp only [Node.span] at *; omega)⟩).elim
  · simp only [Node.span] at hle
    exact (hm ⟨r, hmem, n, hmem', .inr (by simp only [Node.span] at *; omega)⟩).elim

theorem enclosing_nodup (s : Stylesheet) (pos : Nat) : (s.enclosing pos).Nodup := by
  rw [enclosing, (List.mergeSort_perm _ _).nodup_iff]
  have hall := nodup_map_zipIdx (f := id) (fun _ _ h => congrArg Prod.snd h) s.rules.toList
  rw [List.map_id] at hall
  exact hall.filter _

theorem around_nested (h : s.WellFormed code code.size) (hm : ¬s.Meets pos) :
    (s.around pos).Pairwise fun n m => m.Holds n := by
  refine List.pairwise_append.mpr ⟨?_, ?_, ?_⟩
  · cases (s.declarationAt pos).map fun p => Node.declaration p.2 p.1 with
    | none => exact .nil
    | some n => exact List.pairwise_singleton _ _
  · have hsize : (s.enclosing pos).Pairwise fun p p' => p.1.span.size ≤ p'.1.span.size :=
      pairwise_mergeSort_key (fun p : Rule × Nat => p.1.span.size) _
    refine List.pairwise_map.mpr ((hsize.and (s.enclosing_nodup pos)).imp_of_mem ?_)
    rintro p p' hp hp' ⟨hle, hne⟩
    obtain ⟨hhas, ht⟩ := mem_enclosing.mp hp
    obtain ⟨hhas', ht'⟩ := mem_enclosing.mp hp'
    have hne' : Node.rule p'.2 p'.1 ≠ .rule p.2 p.1 := by
      intro heq
      obtain ⟨hi, hr⟩ := Node.rule.inj heq
      exact hne (Prod.ext hr.symm hi.symm)
    rcases h.holds_of_touches hm hhas' (n := .rule p.2 p.1) hhas hne' ht' ht with hh | hh
    · exact hh
    · obtain ⟨hlt, hstop⟩ := h.holds_lt (n := .rule p.2 p.1) (m := .rule p'.2 p'.1) hhas hh
      have hlt' := h.span_lt (n := .rule p.2 p.1) hhas
      simp only [Node.span, Span.size] at *
      omega
  · intro n hn m hmem
    obtain ⟨p, hp, rfl⟩ := List.mem_map.mp hmem
    obtain ⟨d, hd, rfl⟩ := Option.map_eq_some_iff.mp (Option.mem_toList.mp hn)
    obtain ⟨hhas, ht, -⟩ := declarationAt_spec hd
    obtain ⟨hhas', ht'⟩ := mem_enclosing.mp hp
    rcases h.holds_of_touches hm (n := .declaration d.2 d.1) hhas' hhas (by simp) ht' ht with hh | hh
    · exact hh
    · exact hh.elim

theorem holds_trans (h : s.WellFormed code code.size) {k : Node} (hm : s.Has m) (hnm : n.Holds m)
    (hmk : m.Holds k) : n.Holds k := by
  obtain ⟨hlt, hle⟩ := h.holds_lt hm hmk
  cases n with
  | rule i r =>
    exact Span.covers_trans hnm (Span.covers_iff.mpr ⟨Nat.le_of_lt hlt, hle⟩)
  | declaration i d => exact hnm

theorem mem_of_mem_firstChildren {l : List Node} {parent : Option Nat} {start : Nat}
    (hn : n ∈ firstChildren l parent start) : n ∈ l := by
  induction l generalizing parent start with
  | nil => simp [firstChildren] at hn
  | cons m rest ih =>
    unfold firstChildren at hn
    split at hn
    · rcases List.mem_cons.mp hn with rfl | hn
      · exact List.mem_cons_self
      · cases m with
        | rule j q => exact List.mem_cons_of_mem _ (ih hn)
        | declaration j d => simp at hn
    · exact List.mem_cons_of_mem _ (ih hn)

theorem firstChildren_held (h : s.WellFormed code code.size) {l : List Node}
    (hl : ∀ n ∈ l, s.Has n) {start : Nat} (hr : s.rules[i]? = some r)
    (hn : n ∈ firstChildren l (some i) start) : r.body.covers n.span = true := by
  induction l generalizing i r start with
  | nil => simp [firstChildren] at hn
  | cons m rest ih =>
    obtain ⟨hm, hrest⟩ := List.forall_mem_cons.mp hl
    unfold firstChildren at hn
    split at hn
    · next hchild =>
      have hcov := h.parent_holds hm hchild.1 hr
      rcases List.mem_cons.mp hn with rfl | hn
      · exact hcov
      · cases m with
        | rule j q =>
          exact holds_trans (n := .rule i r) h hm hcov (ih hrest hm hn)
        | declaration j d => simp at hn
    · exact ih hrest hr hn

theorem firstChildren_nested (h : s.WellFormed code code.size) {l : List Node}
    (hl : ∀ n ∈ l, s.Has n) (parent : Option Nat) (start : Nat) :
    (firstChildren l parent start).Pairwise Node.Holds := by
  induction l generalizing parent start with
  | nil => simp [firstChildren]
  | cons m rest ih =>
    obtain ⟨hm, hrest⟩ := List.forall_mem_cons.mp hl
    unfold firstChildren
    split
    · cases m with
      | rule j q =>
        exact List.pairwise_cons.mpr ⟨fun n hn => firstChildren_held h hrest hm hn, ih hrest _ _⟩
      | declaration j d => exact List.pairwise_singleton _ _
    · exact ih hrest _ _

theorem mem_below (hn : n ∈ s.below pos) : s.Has n := by
  unfold below at hn
  split at hn
  · simp at hn
  · exact mem_items.mp (mem_of_mem_firstChildren hn)

theorem around_holds_below (h : s.WellFormed code code.size) (hmeets : ¬s.Meets pos)
    (hn : n ∈ s.around pos) (hm : m ∈ s.below pos) : n.Holds m := by
  have hnested := around_nested h hmeets
  unfold below at hm
  split at hm
  · simp at hm
  · next hnone =>
    rw [Bool.not_eq_true, Option.isSome_eq_false_iff, Option.isNone_iff_eq_none] at hnone
    simp only [around, hnone, Option.map_none, Option.toList_none, List.nil_append] at hn hnested
    cases henclosing : s.enclosing pos with
    | nil => simp [henclosing] at hn
    | cons p rest =>
      have hp : s.rules[p.2]? = some p.1 :=
        (mem_enclosing.mp (henclosing ▸ List.mem_cons_self : p ∈ s.enclosing pos)).1
      rw [henclosing, List.map_cons] at hn hnested
      simp only [henclosing, List.head?_cons, Option.map_some] at hm
      have hheld := firstChildren_held h (fun _ hk => mem_items.mp hk) hp hm
      rcases List.mem_cons.mp hn with rfl | hn
      · exact hheld
      · have houter := List.rel_of_pairwise_cons hnested hn
        exact holds_trans (m := .rule p.2 p.1) h hp houter hheld

theorem rule_mem_around (hr : s.rules[i]? = some r) (ht : r.span.touches pos = true) :
    .rule i r ∈ s.around pos :=
  List.mem_append_right _ (List.mem_map.mpr ⟨(r, i), mem_enclosing.mpr ⟨hr, ht⟩, rfl⟩)

theorem declaration_mem_around (h : s.WellFormed code code.size) (he : s.Edged code)
    {j : Nat} {d : Declaration} (hr : s.rules[i]? = some r) (hd : s.declarations[j]? = some d)
    (hmeet : (r.span.stop = pos ∧ d.span.start = pos) ∨ (d.span.stop = pos ∧ r.span.start = pos)) :
    .declaration j d ∈ s.around pos := by
  have hlt : d.span.start < d.span.stop := h.span_lt (n := .declaration j d) hd
  have hltr : r.span.start < r.span.stop := h.span_lt (n := .rule i r) hr
  have htouches : d.span.touches pos = true := Span.touches_iff.mpr (by omega)
  obtain ⟨p, hp⟩ := declarationAt_of_touches hd htouches
  obtain ⟨hhas, htouches', hfirst⟩ := declarationAt_spec hp
  have hlt' : p.1.span.start < p.1.span.stop := h.span_lt (n := .declaration p.2 p.1) hhas
  rcases Nat.eq_or_lt_of_le (hfirst j d hd htouches) with heq | hbefore
  · obtain rfl := Option.some.inj (hhas.symm.trans (heq ▸ hd))
    refine List.mem_append_left _ (Option.mem_toList.mpr ?_)
    rw [hp, Option.map_some, heq]
  · -- the first one would end where the rule does, which ends with its brace
    have hle := rel_of_pairwise_toList h.declarations_ordered hbefore hhas hd
    have hmem := Array.mem_of_getElem? hr
    rw [Span.touches_iff] at htouches'
    rcases h.declarations_laminar r hmem p.1 (Array.mem_of_getElem? hhas) with hcov | hle' | hle'
    · rw [Span.covers_iff] at hcov
      cases hc : r.closed with
      | true =>
        have := ((h.rules r hmem).of_closed hc).2
        omega
      | false =>
        have := (h.rules r hmem).of_unclosed hc
        have := le_size_of_isBoundary (he.declarations d (Array.mem_of_getElem? hd)).stop
        omega
    · omega
    · omega

end Caret.Stylesheet
