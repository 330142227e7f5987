import Caret.Proofs.Stylesheet.Around
import Caret.Proofs.Stylesheet.Comment

namespace Caret.Stylesheet

open Text

variable {s : Stylesheet} {code : Bytes} {stop pos i : Nat} {n m : Node} {d : Declaration}
  {p : Rule × Nat} {x : Surrounding}

def Node.surrounding : Node → Surrounding
  | .rule _ r => ⟨.selector, r.span, r.body⟩
  | .declaration _ d => ⟨.property, d.span, d.value⟩

/-- The node touches the offset, and no other node within it does. -/
structure Closest (s : Stylesheet) (pos : Nat) (n : Node) : Prop where
  has : s.Has n
  touches : n.span.touches pos = true
  minimal : ∀ m, s.Has m → m.span.touches pos = true → n.span.covers m.span = true → m = n

theorem WellFormed.holds_of_covers (h : s.WellFormed code stop) (hn : s.Has n) (hm : s.Has m)
    (hne : m ≠ n) (hcov : n.span.covers m.span = true) : n.Holds m := by
  have hlt := h.span_lt hm
  rw [Span.covers_iff] at hcov
  rcases h.nodes_laminar hn hm hne.symm with hh | hh | hle | hle
  · exact hh
  · have := h.holds_lt hm hh
    omega
  · omega
  · omega

theorem head?_enclosing_of_touches {r : Rule} (hr : s.rules[i]? = some r)
    (ht : r.span.touches pos = true) : ∃ q, (s.enclosing pos).head? = some q := by
  have hmem : (r, i) ∈ s.enclosing pos := mem_enclosing.mpr ⟨hr, ht⟩
  cases henclosing : s.enclosing pos with
  | nil => simp [henclosing] at hmem
  | cons q rest => exact ⟨q, rfl⟩

theorem head?_enclosing_spec (h : (s.enclosing pos).head? = some p) :
    s.rules[p.2]? = some p.1 ∧ p.1.span.touches pos = true ∧
      ∀ (j : Nat) (q : Rule), s.rules[j]? = some q → q.span.touches pos = true →
        p.1.span.size ≤ q.span.size := by
  obtain ⟨rest, hrest⟩ := List.head?_eq_some_iff.mp h
  obtain ⟨hhas, ht⟩ := mem_enclosing.mp (hrest ▸ List.mem_cons_self : p ∈ s.enclosing pos)
  have hsorted : (s.enclosing pos).Pairwise fun p q => p.1.span.size ≤ q.1.span.size :=
    pairwise_mergeSort_key (fun p : Rule × Nat => p.1.span.size) _
  refine ⟨hhas, ht, fun j q hq htq => ?_⟩
  have hmem : (q, j) ∈ s.enclosing pos := mem_enclosing.mpr ⟨hq, htq⟩
  rw [hrest] at hsorted hmem
  rcases List.mem_cons.mp hmem with rfl | hmem
  · exact Nat.le_refl _
  · exact List.rel_of_pairwise_cons hsorted hmem

theorem WellFormed.closest_declaration (h : s.WellFormed code stop)
    (hd : s.declarations[i]? = some d) (ht : d.span.touches pos = true) :
    s.Closest pos (.declaration i d) where
  has := hd
  touches := ht
  minimal m hm _ hcov := by
    by_cases heq : m = .declaration i d
    · exact heq
    · exact (h.holds_of_covers (n := .declaration i d) hd hm heq hcov).elim

theorem WellFormed.closest_rule (h : s.WellFormed code stop)
    (hp : (s.enclosing pos).head? = some p)
    (hfirst : ∀ q, s.declarationAt pos = some q → p.1.span.size < q.1.span.size) :
    s.Closest pos (.rule p.2 p.1) := by
  obtain ⟨hhas, ht, hmin⟩ := head?_enclosing_spec hp
  refine ⟨hhas, ht, fun m hm htm hcov => Decidable.byContradiction fun hne => ?_⟩
  have hholds := h.holds_of_covers (n := .rule p.2 p.1) hhas hm hne hcov
  obtain ⟨hlt, hle⟩ := h.holds_lt (n := .rule p.2 p.1) hhas hholds
  have hltm := h.span_lt hm
  cases m with
  | rule j q =>
    have hsize := hmin j q hm htm
    simp only [Node.span, Span.size] at *
    omega
  | declaration j e =>
    obtain ⟨q, hq⟩ := declarationAt_of_touches hm htm
    obtain ⟨hhas', ht', hbefore⟩ := declarationAt_spec hq
    have hwide := hfirst q hq
    have hlt' := h.span_lt (n := .declaration q.2 q.1) hhas'
    rw [Span.touches_iff] at ht' htm
    have hordered : q.1.span.stop ≤ e.span.start := by
      rcases Nat.eq_or_lt_of_le (hbefore j e hm (Span.touches_iff.mpr htm)) with heq | hlt
      · obtain rfl := Option.some.inj (hhas'.symm.trans (heq ▸ hm))
        simp only [Node.span, Span.size] at *
        omega
      · exact rel_of_pairwise_toList h.declarations_ordered hlt hhas' hm
    -- the first declaration is wider than the rule and touches the offset, as the rule does
    rcases h.nodes_laminar (n := .rule p.2 p.1) (m := .declaration q.2 q.1) hhas hhas' (by simp)
      with hin | hin | hapart | hapart
    · have hinside := h.holds_lt (n := .rule p.2 p.1) hhas hin
      simp only [Node.span, Span.size] at *
      omega
    · exact hin
    · simp only [Node.span] at *
      omega
    · simp only [Node.span] at *
      omega

theorem WellFormed.closest_of_innermost? (h : s.WellFormed code stop)
    (hx : s.innermost? pos = some x) : ∃ n, s.Closest pos n ∧ x = n.surrounding := by
  unfold innermost? at hx
  split at hx
  · next d i r j hd hr =>
    obtain ⟨hhas, ht, -⟩ := declarationAt_spec hd
    obtain rfl := Option.some.inj hx
    split
    · next hlt =>
      refine ⟨.rule j r, h.closest_rule hr fun q hq => ?_, rfl⟩
      obtain rfl := Option.some.inj (hd.symm.trans hq)
      exact hlt
    · exact ⟨.declaration i d, h.closest_declaration hhas ht, rfl⟩
  · next d i hd hr =>
    obtain ⟨hhas, ht, -⟩ := declarationAt_spec hd
    obtain rfl := Option.some.inj hx
    exact ⟨.declaration i d, h.closest_declaration hhas ht, rfl⟩
  · next r j hd hr =>
    obtain rfl := Option.some.inj hx
    exact ⟨.rule j r, h.closest_rule hr (by simp [hd]), rfl⟩
  · simp at hx

theorem innermost?_of_touches (hn : s.Has n) (ht : n.span.touches pos = true) :
    (s.innermost? pos).isSome = true := by
  unfold innermost?
  split
  · rfl
  · rfl
  · rfl
  · next hd hr =>
    cases n with
    | rule i r =>
      obtain ⟨q, hq⟩ := head?_enclosing_of_touches hn ht
      simp [hr] at hq
    | declaration i d =>
      obtain ⟨q, hq⟩ := declarationAt_of_touches hn ht
      simp [hd] at hq

theorem innermost?_closest (code : Bytes) (pos : Nat) :
    (((parse code).innermost? pos).isSome = true ↔
        ∃ n, (parse code).Has n ∧ n.span.touches pos = true) ∧
      ∀ x, (parse code).innermost? pos = some x →
        ∃ n, (parse code).Closest pos n ∧ x = n.surrounding := by
  have h := (parse_spec code).1
  refine ⟨⟨fun hsome => ?_, fun ⟨n, hn, ht⟩ => innermost?_of_touches hn ht⟩, fun x hx =>
    h.closest_of_innermost? hx⟩
  obtain ⟨x, hx⟩ := Option.isSome_iff_exists.mp hsome
  obtain ⟨n, hn, -⟩ := h.closest_of_innermost? hx
  exact ⟨n, hn.has, hn.touches⟩

end Caret.Stylesheet
