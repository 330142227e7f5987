import Caret.Proofs.Sequence
import Caret.Proofs.Stylesheet.WellFormed

namespace Caret.Stylesheet

open Text

variable {s : Stylesheet} {code : Bytes} {stop : Nat} {n m : Node}

def Has (s : Stylesheet) : Node → Prop
  | .rule i r => s.rules[i]? = some r
  | .declaration i d => s.declarations[i]? = some d

theorem mem_ruleNodes : n ∈ s.ruleNodes ↔ ∃ i r, s.rules[i]? = some r ∧ n = .rule i r := by
  simp only [ruleNodes, List.mem_map, Prod.exists, List.mem_zipIdx_iff_getElem?,
    Array.getElem?_toList]
  constructor
  · rintro ⟨r, i, hr, rfl⟩
    exact ⟨i, r, hr, rfl⟩
  · rintro ⟨i, r, hr, rfl⟩
    exact ⟨r, i, hr, rfl⟩

theorem mem_declarationNodes :
    n ∈ s.declarationNodes ↔ ∃ i d, s.declarations[i]? = some d ∧ n = .declaration i d := by
  simp only [declarationNodes, List.mem_map, Prod.exists, List.mem_zipIdx_iff_getElem?,
    Array.getElem?_toList]
  constructor
  · rintro ⟨d, i, hd, rfl⟩
    exact ⟨i, d, hd, rfl⟩
  · rintro ⟨i, d, hd, rfl⟩
    exact ⟨d, i, hd, rfl⟩

theorem items_perm (s : Stylesheet) : s.items.Perm (s.ruleNodes ++ s.declarationNodes) :=
  List.mergeSort_perm ..

theorem mem_items : n ∈ s.items ↔ s.Has n := by
  rw [s.items_perm.mem_iff, List.mem_append, mem_ruleNodes, mem_declarationNodes]
  cases n <;> simp [Has]

def Node.Holds : Node → Node → Prop
  | .rule _ r, m => r.body.covers m.span = true
  | .declaration .., _ => False

theorem Rule.Formed.span_le {r : Rule} (h : r.Formed code stop) :
    r.span.start < r.body.start ∧ r.body.stop ≤ r.span.stop := by
  have hspan := h.span_start
  have hle := h.selector_le
  have hlt := h.selector_lt
  refine ⟨by omega, ?_⟩
  cases hc : r.closed with
  | true =>
    have := (h.of_closed hc).2
    omega
  | false =>
    have := h.of_unclosed hc
    omega

theorem WellFormed.span_lt (h : s.WellFormed code stop) (hn : s.Has n) :
    n.span.start < n.span.stop := by
  cases n with
  | rule i r =>
    have hr := h.rules r (Array.mem_of_getElem? hn)
    have hspan := hr.span_le
    have hbody := hr.body_le
    simp only [Node.span]
    omega
  | declaration i d =>
    have hd := h.declarations d (Array.mem_of_getElem? hn)
    have hname := hd.name_lt
    have hinside := Span.covers_iff.mp hd.name_inside
    simp only [Node.span]
    omega

theorem WellFormed.holds_lt (h : s.WellFormed code stop) (hn : s.Has n) (hnm : n.Holds m) :
    n.span.start < m.span.start ∧ m.span.stop ≤ n.span.stop := by
  cases n with
  | rule i r =>
    have hspan := (h.rules r (Array.mem_of_getElem? hn)).span_le
    have hcov := Span.covers_iff.mp hnm
    simp only [Node.span] at *
    omega
  | declaration i d => exact hnm.elim

theorem WellFormed.rules_apart (h : s.WellFormed code stop) {i j : Nat} {r q : Rule} (hij : i < j)
    (hr : s.rules[i]? = some r) (hq : s.rules[j]? = some q) :
    r.body.covers q.span = true ∨ r.span.stop ≤ q.span.start :=
  rel_of_pairwise_toList h.rules_laminar hij hr hq

theorem WellFormed.nodes_laminar (h : s.WellFormed code stop) (hn : s.Has n) (hm : s.Has m)
    (hne : n ≠ m) :
    n.Holds m ∨ m.Holds n ∨ n.span.stop ≤ m.span.start ∨ m.span.stop ≤ n.span.start := by
  cases n with
  | rule i r =>
    cases m with
    | rule j q =>
      rcases Nat.lt_trichotomy i j with hij | rfl | hij
      · exact (h.rules_apart hij hn hm).imp_right fun hle => .inr (.inl hle)
      · exact absurd (congrArg _ (Option.some.inj (hn.symm.trans hm))) hne
      · exact .inr ((h.rules_apart hij hm hn).imp_right .inr)
    | declaration j d =>
      have hlaminar := h.declarations_laminar r (Array.mem_of_getElem? hn) d
        (Array.mem_of_getElem? hm)
      exact hlaminar.imp_right .inr
  | declaration i d =>
    cases m with
    | rule j q =>
      have hlaminar := h.declarations_laminar q (Array.mem_of_getElem? hm) d
        (Array.mem_of_getElem? hn)
      exact .inr (hlaminar.imp_right .symm)
    | declaration j e =>
      rcases Nat.lt_trichotomy i j with hij | rfl | hij
      · exact .inr (.inr (.inl (rel_of_pairwise_toList h.declarations_ordered hij hn hm)))
      · exact absurd (congrArg _ (Option.some.inj (hn.symm.trans hm))) hne
      · exact .inr (.inr (.inr (rel_of_pairwise_toList h.declarations_ordered hij hm hn)))

theorem WellFormed.eq_of_start (h : s.WellFormed code stop) (hn : s.Has n) (hm : s.Has m)
    (hstart : n.span.start = m.span.start) : n = m := by
  by_cases hne : n = m
  · exact hne
  · have hlt := h.span_lt hn
    have hlt' := h.span_lt hm
    rcases h.nodes_laminar hn hm hne with hh | hh | hle | hle
    · have := h.holds_lt hn hh
      omega
    · have := h.holds_lt hm hh
      omega
    · omega
    · omega

theorem WellFormed.innermost (h : s.WellFormed code stop) (hn : s.Has n) :
    Innermost s.rules n.span n.parent := by
  cases n with
  | rule i r => exact h.rule_parent r (Array.mem_of_getElem? hn)
  | declaration i d => exact h.declaration_parent d (Array.mem_of_getElem? hn)

theorem WellFormed.parent_holds (h : s.WellFormed code stop) (hn : s.Has n) {i : Nat} {r : Rule}
    (hp : n.parent = some i) (hr : s.rules[i]? = some r) : r.body.covers n.span = true := by
  obtain ⟨r', hr', hcov, -⟩ := (h.innermost hn).covers i hp
  obtain rfl := Option.some.inj (hr.symm.trans hr')
  exact hcov

theorem ruleNodes_nodup (s : Stylesheet) : s.ruleNodes.Nodup :=
  nodup_map_zipIdx (fun _ _ h => (Node.rule.inj h).1) _

theorem items_nodup (s : Stylesheet) : s.items.Nodup := by
  rw [s.items_perm.nodup_iff, List.nodup_append]
  refine ⟨s.ruleNodes_nodup, ?_, ?_⟩
  · exact nodup_map_zipIdx (fun _ _ h => (Node.declaration.inj h).1) _
  · rintro n hn m hm rfl
    obtain ⟨i, r, -, rfl⟩ := mem_ruleNodes.mp hn
    obtain ⟨j, d, -, hd⟩ := mem_declarationNodes.mp hm
    simp at hd

theorem WellFormed.items_sorted (h : s.WellFormed code stop) :
    s.items.Pairwise fun n m => n.span.start < m.span.start := by
  have hsorted : s.items.Pairwise fun n m => n.span.start ≤ m.span.start :=
    pairwise_mergeSort_key (fun n : Node => n.span.start) _
  refine (hsorted.and s.items_nodup).imp_of_mem fun {n m} hn hm ⟨hle, hne⟩ => ?_
  refine Nat.lt_of_le_of_ne hle fun heq => hne ?_
  exact h.eq_of_start (mem_items.mp hn) (mem_items.mp hm) heq

end Caret.Stylesheet
