import Caret.Balance
import Caret.Proofs.Markup.Surrounding

namespace Caret.Markup

open Text

variable {code : Bytes} {xml : Bool} {pos : Nat} {e f : Element} {keep : Span → Bool}

theorem mem_elementSpans {s : Span} (h : s ∈ elementSpans keep e) :
    s = e.outer ∨ (e.inner = some s ∧ keep s = true) := by
  rcases List.mem_cons.mp h with rfl | h
  · exact .inl rfl
  · obtain ⟨hs, hp⟩ := Option.filter_eq_some_iff.mp (Option.mem_toList.mp h)
    simp only [Bool.and_eq_true] at hp
    exact .inr ⟨hs, hp.2⟩

theorem Element.Proper.covers_spans (h : e.Proper) {s : Span} (hs : s ∈ elementSpans keep e) :
    e.outer.covers s = true := by
  rcases mem_elementSpans hs with rfl | ⟨hs, -⟩
  · exact Span.covers_refl _
  · exact h.outer_covers_inner hs

theorem Element.Proper.spans_cover (h : e.Proper) {s t : Span} (hs : s ∈ elementSpans keep e)
    (ht : e.inner = some t) : s.covers t = true := by
  rcases mem_elementSpans hs with rfl | ⟨hs, -⟩
  · exact h.outer_covers_inner ht
  · obtain rfl := Option.some.inj (hs.symm.trans ht)
    exact Span.covers_refl _

theorem pairwise_elementSpans (h : e.Proper) :
    (elementSpans keep e).Pairwise fun s t => s.covers t = true := by
  refine List.pairwise_cons.mpr ⟨fun s hs => h.covers_spans (List.mem_cons_of_mem _ hs), ?_⟩
  cases e.inner.filter fun s => !s.isEmpty && keep s with
  | none => exact .nil
  | some s => exact List.pairwise_singleton _ _

theorem pairwise_spans {l : List Element} (hp : ∀ e ∈ l, e.Proper)
    (hn : l.Pairwise Element.Nests) :
    (l.flatMap (elementSpans keep)).Pairwise fun s t => s.covers t = true := by
  refine List.pairwise_flatMap.mpr ⟨fun e he => pairwise_elementSpans (hp e he), ?_⟩
  refine List.Pairwise.imp_of_mem ?_ hn
  rintro e f he hf ⟨a, ha, hcov⟩ s hs t ht
  have hsa := (hp e he).spans_cover hs ha
  have hft := (hp f hf).covers_spans ht
  exact Span.covers_trans hsa (Span.covers_trans hcov hft)

theorem chain_eq (code : Bytes) (xml : Bool) (pos : Nat) : chain (elements code xml) pos =
    (surrounding (elements code xml) pos).flatMap (elementSpans (·.touches pos)) := by
  rw [chain, enclosing_eq, List.reverse_reverse]

theorem proper_of_surrounding (h : e ∈ surrounding (elements code xml) pos) : e.Proper :=
  elements_proper (mem_surrounding.mp h).1

theorem pairwise_chain (code : Bytes) (xml : Bool) (pos : Nat) :
    (chain (elements code xml) pos).Pairwise fun s t => s.covers t = true := by
  rw [chain_eq]
  exact pairwise_spans (fun e he => proper_of_surrounding he) (surrounding_nested code xml pos)

theorem touches_of_mem_chain {s : Span} (h : s ∈ chain (elements code xml) pos) :
    s.touches pos = true := by
  rw [chain_eq] at h
  obtain ⟨e, he, hs⟩ := List.mem_flatMap.mp h
  rcases mem_elementSpans hs with rfl | ⟨-, hk⟩
  · obtain ⟨hstart, hstop⟩ := Span.surrounds_iff.mp (mem_surrounding.mp he).2
    exact Span.touches_iff.mpr ⟨Nat.le_of_lt hstart, Nat.le_of_lt hstop⟩
  · exact hk

theorem chain_covers_inner (hf : (surrounding (elements code xml) pos).getLast? = some f) {a : Span}
    (ha : f.inner = some a) {s : Span} (hs : s ∈ chain (elements code xml) pos) :
    s.covers a = true := by
  rw [chain_eq] at hs
  obtain ⟨e, he, hs⟩ := List.mem_flatMap.mp hs
  have hfp := proper_of_surrounding (List.mem_of_getLast? hf)
  have hep := proper_of_surrounding he
  rcases nests_last hf he with rfl | ⟨b, hb, hcov⟩
  · exact hep.spans_cover hs ha
  · have hsb := hep.spans_cover hs hb
    exact Span.covers_trans hsb (Span.covers_trans hcov (hfp.outer_covers_inner ha))

theorem firstChildren_none (l : List Element) (start : Nat) : firstChildren l none start = [] := by
  cases l <;> rfl

theorem mem_of_mem_firstChildren {l : List Element} {area : Option Span} {start : Nat}
    (h : e ∈ firstChildren l area start) : e ∈ l := by
  fun_induction firstChildren l area start with
  | case1 => simp at h
  | case2 => simp at h
  | case3 start g rest a hg ih =>
    rcases List.mem_cons.mp h with rfl | h
    · exact List.mem_cons_self
    · exact List.mem_cons_of_mem _ (ih h)
  | case4 start g rest a hg ih => exact List.mem_cons_of_mem _ (ih h)

theorem firstChildren_covered {l : List Element} (hp : ∀ e ∈ l, e.Proper) {a : Span} {start : Nat}
    (h : e ∈ firstChildren l (some a) start) : a.covers e.outer = true := by
  induction l generalizing a start with
  | nil => simp [firstChildren] at h
  | cons g rest ih =>
    have hrest : ∀ e ∈ rest, e.Proper := fun e he => hp e (List.mem_cons_of_mem _ he)
    rw [firstChildren] at h
    split at h
    · next hg =>
      rcases List.mem_cons.mp h with rfl | h
      · exact hg.2
      · cases hi : g.inner with
        | none => simp [hi, firstChildren_none] at h
        | some b =>
          rw [hi] at h
          have hab := Span.covers_trans hg.2
            ((hp g List.mem_cons_self).outer_covers_inner hi)
          exact Span.covers_trans hab (ih hrest h)
    · exact ih hrest h

theorem firstChildren_nested {l : List Element} (hp : ∀ e ∈ l, e.Proper) (area : Option Span)
    (start : Nat) : (firstChildren l area start).Pairwise Element.Nests := by
  induction l generalizing area start with
  | nil => simp [firstChildren]
  | cons g rest ih =>
    have hrest : ∀ e ∈ rest, e.Proper := fun e he => hp e (List.mem_cons_of_mem _ he)
    cases area with
    | none => simp [firstChildren]
    | some a =>
      rw [firstChildren]
      split
      · refine List.pairwise_cons.mpr ⟨fun e he => ?_, ih hrest _ _⟩
        cases hi : g.inner with
        | none => simp [hi, firstChildren_none] at he
        | some b =>
          rw [hi] at he
          exact ⟨b, hi, firstChildren_covered hrest he⟩
      · exact ih hrest _ _

def innerArea (code : Bytes) (xml : Bool) (pos : Nat) : Option Span :=
  match (enclosing (elements code xml) pos).head? with
  | some e => e.inner
  | none => some ⟨0, code.size⟩

theorem chain_covers_area {a s : Span} (ha : innerArea code xml pos = some a)
    (hs : s ∈ chain (elements code xml) pos) : s.covers a = true := by
  rw [innerArea, enclosing_eq, List.head?_reverse] at ha
  cases hlast : (surrounding (elements code xml) pos).getLast? with
  | none =>
    rw [chain_eq, List.getLast?_eq_none_iff.mp hlast] at hs
    simp at hs
  | some f =>
    rw [hlast] at ha
    exact chain_covers_inner hlast ha hs

theorem pairwise_inward (code : Bytes) (xml : Bool) (pos : Nat) :
    (chain (elements code xml) pos ++
      (firstChildren (elements code xml) (innerArea code xml pos) pos).flatMap
        (elementSpans fun _ => true)).Pairwise fun s t => s.covers t = true := by
  have hp : ∀ e ∈ elements code xml, e.Proper := fun e he => elements_proper he
  refine List.pairwise_append.mpr ⟨pairwise_chain code xml pos, ?_, ?_⟩
  · exact pairwise_spans (fun e he => hp e (mem_of_mem_firstChildren he))
      (firstChildren_nested hp _ _)
  · intro s hs t ht
    obtain ⟨e, he, ht⟩ := List.mem_flatMap.mp ht
    cases ha : innerArea code xml pos with
    | none => simp [ha, firstChildren_none] at he
    | some a =>
      rw [ha] at he
      have hae := firstChildren_covered hp he
      have het := (hp e (mem_of_mem_firstChildren he)).covers_spans ht
      exact Span.covers_trans (chain_covers_area ha hs) (Span.covers_trans hae het)

theorem outward_reverse (code : Bytes) (xml : Bool) (pos : Nat) :
    (balance code xml .outward pos).reverse = (chain (elements code xml) pos).eraseReps := by
  rw [balance, eraseReps_reverse, List.reverse_reverse]

theorem balance_strict_chain (code : Bytes) (xml : Bool) (pos : Nat) :
    (∀ s ∈ balance code xml .outward pos, s.start ≤ pos ∧ pos ≤ s.stop) ∧
      ((balance code xml .outward pos).Pairwise fun s t => t.covers s = true ∧ s ≠ t) ∧
      ((balance code xml .inward pos).Pairwise fun s t => s.covers t = true ∧ s ≠ t) ∧
      (balance code xml .outward pos).reverse <+: balance code xml .inward pos ∧
      (innermost? code xml pos = none ↔
        ∀ e ∈ elements code xml, e.outer.surrounds pos = false) ∧
      ∀ e, innermost? code xml pos = some e ↔
        e ∈ elements code xml ∧ e.outer.surrounds pos = true ∧
          ∀ f ∈ elements code xml, f.outer.surrounds pos = true → f ≠ e →
            f.outer.covers e.outer = true ∧ f.outer ≠ e.outer := by
  refine ⟨?_, ?_, ?_, ?_, innermost?_eq_none_iff, fun e => innermost?_eq_some_iff⟩
  · intro s hs
    have ht := touches_of_mem_chain (List.mem_reverse.mp (mem_eraseReps.mp hs))
    exact Span.touches_iff.mp ht
  · exact pairwise_eraseReps (fun s t h h' => Span.covers_antisymm h' h)
      (List.pairwise_reverse.mpr (pairwise_chain code xml pos))
  · exact pairwise_eraseReps (fun s t => Span.covers_antisymm) (pairwise_inward code xml pos)
  · rw [outward_reverse]
    exact eraseReps_prefix_append _ _

end Caret.Markup
