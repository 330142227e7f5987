import Caret.Proofs.Stylesheet.Around
import Caret.Proofs.Stylesheet.Comment

/-!
Balancing in a stylesheet. The nodes around an offset lie one inside the other unless two of them
meet there, and the trimmed inside of a rule holds all of a rule in it unless both are open to the
end of the text, which keeps its last blanks in the one and drops them in the other.
-/

namespace Caret.Stylesheet

open Text

variable {s : Stylesheet} {code : Bytes} {pos i : Nat} {n m : Node} {r : Rule} {x y : Span}
  {keep : Span → Bool}

def Node.inside (code : Bytes) : Node → Span
  | .rule _ r => trim code r.body
  | .declaration _ d => d.value

theorem nodeSpans_eq (code : Bytes) (keep : Span → Bool) (n : Node) : nodeSpans code keep n =
    n.span :: if !(n.inside code).isEmpty && keep (n.inside code) then [n.inside code] else [] := by
  cases n <;> rfl

theorem span_mem_nodeSpans (code : Bytes) (keep : Span → Bool) (n : Node) :
    n.span ∈ nodeSpans code keep n := by
  rw [nodeSpans_eq]
  exact List.mem_cons_self

theorem mem_nodeSpans (h : x ∈ nodeSpans code keep n) :
    x = n.span ∨ x = n.inside code ∧ keep x = true := by
  rw [nodeSpans_eq, List.mem_cons] at h
  refine h.imp_right fun h => ?_
  split at h
  · next hkeep =>
    obtain rfl := List.mem_singleton.mp h
    exact ⟨rfl, (Bool.and_eq_true_iff.mp hkeep).2⟩
  · simp at h

section insides

variable (h : s.WellFormed code code.size) (he : s.Edged code)

include h

theorem WellFormed.body_le (hn : s.Has (.rule i r)) : r.body.stop ≤ code.size := by
  have hr := h.rules r (Array.mem_of_getElem? hn)
  cases hc : r.closed with
  | true => exact Nat.le_of_lt (lt_size_of_at? (hr.of_closed hc).1)
  | false => exact Nat.le_of_eq (hr.of_unclosed hc).2

theorem WellFormed.span_covers_inside (hn : s.Has n) : n.span.covers (n.inside code) = true := by
  cases n with
  | rule i r =>
    have hr := h.rules r (Array.mem_of_getElem? hn)
    have hspan := hr.span_le
    have hbounds := trim_bounds code hr.body_le (h.body_le hn)
    simp only [Node.span, Node.inside, Span.covers_iff]
    omega
  | declaration i d => exact (h.declarations d (Array.mem_of_getElem? hn)).value_inside

theorem WellFormed.covers_spans (hn : s.Has n) (hx : x ∈ nodeSpans code keep n) :
    n.span.covers x = true := by
  rcases mem_nodeSpans hx with rfl | ⟨rfl, -⟩
  · exact Span.covers_refl _
  · exact h.span_covers_inside hn

include he

theorem WellFormed.first_solid (hn : s.Has n) : test isBlank code n.span.start = false := by
  cases n with
  | rule i r =>
    have hr := Array.mem_of_getElem? hn
    simp only [Node.span, (h.rules r hr).span_start]
    exact (he.rules r hr).first
  | declaration i d => exact (he.declarations d (Array.mem_of_getElem? hn)).first

theorem WellFormed.last_solid (hn : s.Has n) : test isBlank code (n.span.stop - 1) = false ∨
    ∃ i r, n = .rule i r ∧ r.closed = false := by
  have hlt := h.span_lt hn
  cases n with
  | rule i r =>
    cases hc : r.closed with
    | false => exact .inr ⟨i, r, rfl, hc⟩
    | true =>
      obtain ⟨hat, hstop⟩ := (h.rules r (Array.mem_of_getElem? hn)).of_closed hc
      simp only [Node.span, hstop, Nat.add_sub_cancel]
      exact .inl (by rw [test_of_at? hat]; rfl)
  | declaration i d => exact .inl ((he.declarations d (Array.mem_of_getElem? hn)).last hlt)

theorem WellFormed.inside_start_le (hn : s.Has (.rule i r)) (hm : s.Has m)
    (hnm : r.body.covers m.span = true) : (trim code r.body).start ≤ m.span.start := by
  have hlt := h.span_lt hm
  obtain ⟨hstart, hstop⟩ := Span.covers_iff.mp hnm
  refine Nat.le_of_not_lt fun hlt => ?_
  have hblank := test_of_lt_trim_start (h.body_le hn) (by omega) hstart hlt
  exact Bool.false_ne_true ((h.first_solid he hm).symm.trans hblank)

theorem WellFormed.inside_covers (hn : s.Has n) (hm : s.Has m) (hnm : n.Holds m) :
    (n.inside code).covers m.span = true ∨ ∃ i r j q, n = .rule i r ∧ m = .rule j q ∧
      r.closed = false ∧ q.closed = false ∧ (trim code r.body).stop < code.size := by
  have hlt := h.span_lt hm
  cases n with
  | declaration i d => exact hnm.elim
  | rule i r =>
    have hstop := (Span.covers_iff.mp hnm).2
    have hfirst := h.inside_start_le he hn hm hnm
    rcases h.last_solid he hm with hlast | ⟨j, q, rfl, hq⟩
    · have hlt' := lt_trim_stop (h.body_le hn) (k := m.span.stop - 1) (by omega) hlast
      exact .inl (Span.covers_iff.mpr ⟨hfirst, Nat.le_of_pred_lt hlt'⟩)
    · -- the inner rule goes on to the end of the text
      have hsize : q.span.stop = code.size :=
        ((h.rules q (Array.mem_of_getElem? hm)).of_unclosed hq).1
      rcases Nat.lt_or_ge (trim code r.body).stop code.size with hdrop | hkeep
      · refine .inr ⟨i, r, j, q, rfl, rfl, ?_, hq, hdrop⟩
        rw [Bool.eq_false_iff]
        intro hr
        have hend := ((h.rules r (Array.mem_of_getElem? hn)).of_closed hr).1
        have := lt_size_of_at? hend
        simp only [Node.span] at hstop
        omega
      · have hall : q.span.stop ≤ (trim code r.body).stop := by omega
        exact .inl (Span.covers_iff.mpr ⟨hfirst, hall⟩)

end insides

structure Passed (s : Stylesheet) (l : List (Node × (Span → Bool))) : Prop where
  has : ∀ p ∈ l, s.Has p.1
  nested : l.Pairwise fun p p' => p.1.Holds p'.1

def listed (code : Bytes) (l : List (Node × (Span → Bool))) : List Span :=
  l.flatMap fun p => nodeSpans code p.2 p.1

/-- The trimmed inside of an unclosed rule is listed with an unclosed rule in it that goes on behind
it, up to the blanks at the end of the text. -/
def Dangling (code : Bytes) (s : Stylesheet) (spans : List Span) : Prop :=
  ∃ r ∈ s.rules, ∃ q ∈ s.rules, r.closed = false ∧ q.closed = false ∧
    r.body.covers q.span = true ∧ (trim code r.body).stop < code.size ∧
    trim code r.body ∈ spans ∧ q.span ∈ spans

theorem mem_listed {l : List (Node × (Span → Bool))} :
    x ∈ listed code l ↔ ∃ p ∈ l, x ∈ nodeSpans code p.2 p.1 :=
  List.mem_flatMap

theorem listed_append (code : Bytes) (l l' : List (Node × (Span → Bool))) :
    listed code (l ++ l') = listed code l ++ listed code l' :=
  List.flatMap_append

theorem span_mem_listed {l : List (Node × (Span → Bool))} {p : Node × (Span → Bool)} (hp : p ∈ l) :
    p.1.span ∈ listed code l :=
  mem_listed.mpr ⟨p, hp, span_mem_nodeSpans code p.2 p.1⟩

theorem WellFormed.pairwise_nodeSpans (h : s.WellFormed code code.size) (hn : s.Has n) :
    (nodeSpans code keep n).Pairwise fun x y => x.covers y = true := by
  have hcovers : ∀ x ∈ nodeSpans code keep n, n.span.covers x = true := fun _ =>
    h.covers_spans hn
  rw [nodeSpans_eq] at hcovers ⊢
  refine List.pairwise_cons.mpr ⟨fun x hx => hcovers x (List.mem_cons_of_mem _ hx), ?_⟩
  split
  · exact List.pairwise_singleton _ _
  · exact .nil

theorem Passed.pairwise (h : s.WellFormed code code.size) (he : s.Edged code)
    {l : List (Node × (Span → Bool))} (hl : Passed s l) (hd : ¬Dangling code s (listed code l)) :
    (listed code l).Pairwise fun x y => x.covers y = true := by
  refine List.pairwise_flatMap.mpr ⟨fun p hp => h.pairwise_nodeSpans (hl.has p hp),
    List.Pairwise.imp_of_mem ?_ hl.nested⟩
  intro p p' hp hp' hnested x hx y hy
  refine Span.covers_trans ?_ (h.covers_spans (hl.has p' hp') hy)
  rcases mem_nodeSpans hx with rfl | ⟨rfl, -⟩
  · obtain ⟨hlt, hle⟩ := h.holds_lt (hl.has p hp) hnested
    exact Span.covers_iff.mpr ⟨Nat.le_of_lt hlt, hle⟩
  · rcases h.inside_covers he (hl.has p hp) (hl.has p' hp') hnested with
      hcov | ⟨i, r, j, q, hr, hq, hopen, hopen', hdrop⟩
    · exact hcov
    · refine absurd ?_ hd
      have hhas := hl.has p hp
      have hhas' := hl.has p' hp'
      have hinside := mem_listed.mpr ⟨p, hp, hx⟩
      have hspan : p'.1.span ∈ listed code l := span_mem_listed hp'
      rw [hr] at hhas hnested hinside
      rw [hq] at hhas' hnested hspan
      exact ⟨r, Array.mem_of_getElem? hhas, q, Array.mem_of_getElem? hhas', hopen, hopen', hnested,
        hdrop, hinside, hspan⟩

theorem Passed.not_dangling (h : s.WellFormed code code.size) (he : s.Edged code)
    {l : List (Node × (Span → Bool))} (hl : Passed s l)
    (hp : (listed code l).Pairwise fun x y => x.covers y = true) :
    ¬Dangling code s (listed code l) := by
  rintro ⟨r, hr, q, hq, hopen, hopen', hcov, hdrop, hinside, hspan⟩
  obtain ⟨i, hi⟩ := Array.mem_iff_getElem?.mp hr
  obtain ⟨j, hj⟩ := Array.mem_iff_getElem?.mp hq
  have hstart := h.inside_start_le he hi (m := .rule j q) hj hcov
  have hsize : q.span.stop = code.size := ((h.rules q hq).of_unclosed hopen').1
  have hnot : (trim code r.body).covers q.span = true → False := by
    rw [Span.covers_iff]
    omega
  obtain ⟨p, hmem, hx⟩ := mem_listed.mp hinside
  obtain ⟨p', hmem', hy⟩ := mem_listed.mp hspan
  -- the node with the inside lies within the other rule, and begins where it does
  have hwithin : q.span.covers p.1.span = true := by
    rcases eq_or_rel_of_pairwise (List.pairwise_flatMap.mp hp).2 hmem hmem' with
      rfl | hcovers | hcovers
    · rcases mem_nodeSpans hy with hout | ⟨hin, -⟩
      · exact hout ▸ Span.covers_refl _
      · rcases mem_nodeSpans hx with hout' | ⟨hin', -⟩
        · exact (hnot (hout' ▸ h.covers_spans (hl.has p hmem) hy)).elim
        · exact (hnot (hin'.trans hin.symm ▸ Span.covers_refl _)).elim
    · exact (hnot (hcovers _ hx _ hy)).elim
    · exact hcovers _ hy _ (span_mem_nodeSpans code p.2 p.1)
  have hcovers := Span.covers_iff.mp (h.covers_spans (hl.has p hmem) hx)
  have hbegin := Span.covers_iff.mp hwithin
  have hsame : p.1 = .rule j q :=
    h.eq_of_start (hl.has p hmem) hj (by simp only [Node.span] at *; omega)
  rw [hsame] at hx
  rcases mem_nodeSpans hx with heq | ⟨heq, -⟩
  · exact hnot (heq ▸ Span.covers_refl _)
  · have hbody := trim_bounds code (h.rules q hq).body_le (h.body_le hj)
    have hspan_lt := (h.rules q hq).span_le
    rw [heq] at hstart
    simp only [Node.inside, Node.span] at hstart
    omega

def passedAround (s : Stylesheet) (pos : Nat) : List (Node × (Span → Bool)) :=
  (s.around pos).reverse.map fun n => (n, (·.touches pos))

def passed (s : Stylesheet) (pos : Nat) : List (Node × (Span → Bool)) :=
  s.passedAround pos ++ (s.below pos).map fun n => (n, fun _ => true)

theorem balance_outward (code : Bytes) (pos : Nat) :
    balance code .outward pos = (listed code ((parse code).passedAround pos)).eraseReps.reverse := by
  rw [← eraseReps_reverse]
  simp only [balance, chain, listed, passedAround, List.flatMap_map, List.flatMap_reverse,
    List.reverse_reverse]
  rfl

theorem balance_inward (code : Bytes) (pos : Nat) :
    balance code .inward pos = (listed code ((parse code).passed pos)).eraseReps := by
  have houtward := balance_outward code pos
  simp only [balance] at houtward ⊢
  rw [houtward, List.reverse_reverse, passed, listed_append, below]
  split
  · simp [listed]
  · rw [eraseReps_eraseReps_append, listed, listed, List.flatMap_map]

theorem outward_prefix (code : Bytes) (pos : Nat) :
    (balance code .outward pos).reverse <+: balance code .inward pos := by
  rw [balance_outward, balance_inward, List.reverse_reverse, passed, listed_append]
  exact eraseReps_prefix_append _ _

theorem passedAround_passed (h : s.WellFormed code code.size) (hm : ¬s.Meets pos) :
    Passed s (s.passedAround pos) where
  has := by
    intro p hp
    obtain ⟨n, hn, rfl⟩ := List.mem_map.mp hp
    exact (mem_around (List.mem_reverse.mp hn)).1
  nested := List.pairwise_map.mpr (List.pairwise_reverse.mpr (around_nested h hm))

theorem passed_passed (h : s.WellFormed code code.size) (hm : ¬s.Meets pos) :
    Passed s (s.passed pos) := by
  have hup := passedAround_passed h hm
  refine ⟨fun p hp => ?_, List.pairwise_append.mpr ⟨hup.nested, ?_, ?_⟩⟩
  · rcases List.mem_append.mp hp with hp | hp
    · exact hup.has p hp
    · obtain ⟨n, hn, rfl⟩ := List.mem_map.mp hp
      exact mem_below hn
  · refine List.pairwise_map.mpr ?_
    unfold below
    split
    · exact .nil
    · exact firstChildren_nested h (fun _ hk => mem_items.mp hk) _ _
  · intro p hp p' hp'
    obtain ⟨n, hn, rfl⟩ := List.mem_map.mp hp
    obtain ⟨m, hm', rfl⟩ := List.mem_map.mp hp'
    exact around_holds_below h hm (List.mem_reverse.mp hn) hm'

theorem not_pairwise_of_meets (h : s.WellFormed code code.size) (he : s.Edged code)
    (hm : s.Meets pos) {l : List (Node × (Span → Bool))} (hl : s.passedAround pos ⊆ l) :
    ¬(listed code l).Pairwise fun x y => x.covers y = true := by
  intro hp
  obtain ⟨r, hr, n, hn, hmeet⟩ := hm
  obtain ⟨i, hi⟩ := Array.mem_iff_getElem?.mp hr
  have hn := mem_items.mp hn
  have hlt := h.span_lt hn
  have hltr : r.span.start < r.span.stop := h.span_lt (n := .rule i r) hi
  have haround : n ∈ s.around pos := by
    cases n with
    | declaration j d => exact declaration_mem_around h he hi hn hmeet
    | rule j q =>
      simp only [Node.span] at hlt hmeet
      exact rule_mem_around hn (Span.touches_iff.mpr (by omega))
  have hrule : .rule i r ∈ s.around pos :=
    rule_mem_around hi (Span.touches_iff.mpr (by omega))
  have hlisted {k : Node} (hk : k ∈ s.around pos) : k.span ∈ listed code l :=
    span_mem_listed (hl (List.mem_map.mpr ⟨k, List.mem_reverse.mpr hk, rfl⟩))
  have hcov : r.span.covers n.span = true ∨ n.span.covers r.span = true := by
    rcases eq_or_rel_of_pairwise hp (hlisted hrule) (hlisted haround) with heq | hcov | hcov
    · exact .inl (by rw [← heq]; exact Span.covers_refl _)
    · exact .inl hcov
    · exact .inr hcov
  rw [Span.covers_iff, Span.covers_iff] at hcov
  omega

theorem pairwise_listed_iff (h : s.WellFormed code code.size) (he : s.Edged code)
    {l : List (Node × (Span → Bool))} (hl : s.passedAround pos ⊆ l)
    (hpassed : ¬s.Meets pos → Passed s l) :
    ((listed code l).eraseReps.Pairwise fun x y => x.covers y = true ∧ x ≠ y) ↔
      ¬s.Meets pos ∧ ¬Dangling code s (listed code l) := by
  rw [pairwise_eraseReps_iff Span.covers_refl fun _ _ => Span.covers_antisymm]
  constructor
  · intro hp
    have hm : ¬s.Meets pos := fun hm => not_pairwise_of_meets h he hm hl hp
    exact ⟨hm, (hpassed hm).not_dangling h he hp⟩
  · rintro ⟨hm, hd⟩
    exact (hpassed hm).pairwise h he hd

theorem touches_of_mem_listed (hx : x ∈ listed code (s.passedAround pos)) :
    x.touches pos = true := by
  obtain ⟨p, hp, hx⟩ := mem_listed.mp hx
  obtain ⟨n, hn, rfl⟩ := List.mem_map.mp hp
  rcases mem_nodeSpans hx with rfl | ⟨-, hkeep⟩
  · exact (mem_around (List.mem_reverse.mp hn)).2
  · exact hkeep

/-- Balancing lists a strict chain of spans exactly if no rule meets another node at the offset and
no listed inside of an unclosed rule drops blanks that a listed rule in it keeps. Outward all spans
are around the offset, and inward goes on from them. -/
theorem balance_chain_iff (text : String) (pos : Nat) :
    let code := bytes text
    let outward := balance code .outward pos
    let inward := balance code .inward pos
    (∀ x ∈ outward, x.start ≤ pos ∧ pos ≤ x.stop) ∧ outward.reverse <+: inward ∧
      ((outward.Pairwise fun x y => y.covers x = true ∧ x ≠ y) ↔
        ¬(parse code).Meets pos ∧ ¬Dangling code (parse code) outward) ∧
      ((inward.Pairwise fun x y => x.covers y = true ∧ x ≠ y) ↔
        ¬(parse code).Meets pos ∧ ¬Dangling code (parse code) inward) := by
  have h := (parse_spec (bytes text)).1
  have he := parse_edged text
  have hsame {l : List Span} {k : List Span} (hk : ∀ x, x ∈ k ↔ x ∈ l) :
      Dangling (bytes text) (parse (bytes text)) k ↔
        Dangling (bytes text) (parse (bytes text)) l := by
    simp only [Dangling, hk]
  refine ⟨fun x hx => ?_, outward_prefix _ pos, ?_, ?_⟩
  · rw [balance_outward, List.mem_reverse, mem_eraseReps] at hx
    exact Span.touches_iff.mp (touches_of_mem_listed hx)
  · rw [balance_outward, List.pairwise_reverse,
      hsame fun x => List.mem_reverse.trans mem_eraseReps]
    simp only [ne_comm]
    exact pairwise_listed_iff h he (List.Subset.refl _) (passedAround_passed h)
  · rw [balance_inward, hsame fun x => mem_eraseReps]
    exact pairwise_listed_iff h he (List.subset_append_left _ _) (passed_passed h)

/-- An unclosed rule reaches behind the inside of the rule around it, and a declaration that ends
where a rule begins does not lie in it. -/
theorem balance_not_chain :
    (balance (bytes "a\x7bb\x7bc:d  ") .outward 6 = [⟨6, 7⟩, ⟨4, 7⟩, ⟨2, 9⟩, ⟨2, 7⟩, ⟨0, 9⟩] ∧
      Span.covers ⟨2, 7⟩ ⟨2, 9⟩ = false) ∧
    balance (bytes "a\x7bbb:c;d\x7b\x7d\x7d") .outward 7 = [⟨2, 7⟩, ⟨7, 10⟩, ⟨2, 10⟩, ⟨0, 11⟩] ∧
      Span.covers ⟨7, 10⟩ ⟨2, 7⟩ = false := by
  have hopen : (parse (bytes "a\x7bb\x7bc:d  ")).around 6 =
      [.declaration 0 ⟨⟨4, 5⟩, ⟨6, 7⟩, ⟨4, 7⟩, some 5, none, some 1⟩,
        .rule 1 ⟨⟨2, 3⟩, ⟨4, 9⟩, ⟨2, 9⟩, false, some 0⟩,
        .rule 0 ⟨⟨0, 1⟩, ⟨2, 9⟩, ⟨0, 9⟩, false, none⟩] := by
    have hsheet : parse (bytes "a\x7bb\x7bc:d  ") =
        { rules := #[⟨⟨0, 1⟩, ⟨2, 9⟩, ⟨0, 9⟩, false, none⟩, ⟨⟨2, 3⟩, ⟨4, 9⟩, ⟨2, 9⟩, false, some 0⟩]
          declarations := #[⟨⟨4, 5⟩, ⟨6, 7⟩, ⟨4, 7⟩, some 5, none, some 1⟩] } := by
      decide +kernel
    simp [hsheet, around, enclosing, declarationAt, Span.touches, Span.size, List.mergeSort,
      List.MergeSort.Internal.splitInTwo]
  have hmeet : (parse (bytes "a\x7bbb:c;d\x7b\x7d\x7d")).around 7 =
      [.declaration 0 ⟨⟨2, 4⟩, ⟨5, 6⟩, ⟨2, 7⟩, some 4, some 6, some 0⟩,
        .rule 1 ⟨⟨7, 8⟩, ⟨9, 9⟩, ⟨7, 10⟩, true, some 0⟩,
        .rule 0 ⟨⟨0, 1⟩, ⟨2, 10⟩, ⟨0, 11⟩, true, none⟩] := by
    have hsheet : parse (bytes "a\x7bbb:c;d\x7b\x7d\x7d") =
        { rules := #[⟨⟨0, 1⟩, ⟨2, 10⟩, ⟨0, 11⟩, true, none⟩, ⟨⟨7, 8⟩, ⟨9, 9⟩, ⟨7, 10⟩, true, some 0⟩]
          declarations := #[⟨⟨2, 4⟩, ⟨5, 6⟩, ⟨2, 7⟩, some 4, some 6, some 0⟩] } := by
      decide +kernel
    simp [hsheet, around, enclosing, declarationAt, Span.touches, Span.size, List.mergeSort,
      List.MergeSort.Internal.splitInTwo]
  refine ⟨⟨?_, rfl⟩, ?_, rfl⟩
  · rw [balance, chain, hopen]
    decide +kernel
  · rw [balance, chain, hmeet]
    decide +kernel

end Caret.Stylesheet
