import Caret.Proofs.Sequence
import Caret.Proofs.Stylesheet.WellFormed
import Caret.Stylesheet.Parse

/-!
Rules and declarations while a sheet is being read. Some rules are open, with ends that are not
yet known; opening the next rule, adding a declaration and closing the innermost open rule keep
all nodes nested, and so does ending the text.
-/

namespace Caret.Stylesheet

open Text

def Rule.Holds (r : Rule) (s : Span) : Prop :=
  r.body.start ≤ s.start ∧ (r.closed = true → s.stop ≤ r.body.stop)

def Rule.Apart (r q : Rule) : Prop :=
  (r.Holds q.span ∧ (r.closed = true → q.closed = true)) ∨
    (r.closed = true ∧ r.span.stop ≤ q.span.start)

structure Rule.Begun (code : Bytes) (edge : Nat) (r : Rule) : Prop where
  span_start : r.span.start = r.selector.start
  selector_le : r.selector.start ≤ r.selector.stop
  selector_lt : r.selector.stop < r.body.start
  opening : at? code (r.body.start - 1) = some '{'
  body_le_span : r.body.start ≤ r.span.stop
  body_start_le : r.body.start ≤ edge
  span_stop_le : r.span.stop ≤ edge
  of_closed : r.closed = true →
    r.body.start ≤ r.body.stop ∧ at? code r.body.stop = some '}' ∧ r.span.stop = r.body.stop + 1

structure Hangs (rules : Array Rule) (span : Span) (parent : Option Nat) : Prop where
  holds : ∀ p, parent = some p → ∃ r, rules[p]? = some r ∧ r.Holds span
  last : ∀ (i : Nat) (r : Rule), rules[i]? = some r → r.Holds span → ∃ p, parent = some p ∧ i ≤ p

structure Nested (code : Bytes) (edge : Nat) (rules : Array Rule) (declarations : Array Declaration)
    (opened : List Nat) : Prop where
  begun : ∀ (i : Nat) (r : Rule), rules[i]? = some r → r.Begun code edge
  mem_opened : ∀ i, i ∈ opened ↔ ∃ r, rules[i]? = some r ∧ r.closed = false
  opened_sorted : opened.Pairwise fun i j => j < i
  rules_apart : ∀ (i j : Nat) (r q : Rule), i < j → rules[i]? = some r → rules[j]? = some q →
    r.Apart q
  rules_hang : ∀ (i : Nat) (r : Rule), rules[i]? = some r → Hangs rules r.span r.parent
  formed : ∀ d ∈ declarations, d.Formed code
  declarations_le : ∀ d ∈ declarations, d.span.stop ≤ edge
  declarations_ordered : declarations.toList.Pairwise fun c d => c.span.stop ≤ d.span.start
  declarations_apart : ∀ (i : Nat) (r : Rule), rules[i]? = some r → ∀ d ∈ declarations,
    r.Holds d.span ∨ (r.closed = true ∧ r.span.stop ≤ d.span.start) ∨ d.span.stop ≤ r.span.start
  declarations_hang : ∀ d ∈ declarations, Hangs rules d.span d.parent

variable {code : Bytes} {edge edge' : Nat} {rules : Array Rule} {declarations : Array Declaration}
  {opened : List Nat}

theorem Declaration.Formed.start_lt {d : Declaration} (h : d.Formed code) :
    d.span.start < d.span.stop := by
  have hn := h.name_lt
  have hi := h.name_inside
  rw [Span.covers_iff] at hi
  omega

theorem Rule.Begun.start_lt {r : Rule} (h : r.Begun code edge) : r.span.start < r.body.start := by
  rw [h.span_start]
  exact Nat.lt_of_le_of_lt h.selector_le h.selector_lt

theorem Rule.Begun.span_lt {r : Rule} (h : r.Begun code edge) : r.span.start < r.span.stop :=
  Nat.lt_of_lt_of_le h.start_lt h.body_le_span

theorem Rule.Begun.mono {r : Rule} (h : r.Begun code edge) (he : edge ≤ edge') :
    r.Begun code edge' :=
  { h with
    body_start_le := Nat.le_trans h.body_start_le he
    span_stop_le := Nat.le_trans h.span_stop_le he }

theorem Nested.empty (code : Bytes) (edge : Nat) : Nested code edge #[] #[] [] where
  begun := by simp
  mem_opened := by simp
  opened_sorted := .nil
  rules_apart := by simp
  rules_hang := by simp
  formed := by simp
  declarations_le := by simp
  declarations_ordered := .nil
  declarations_apart := by simp
  declarations_hang := by simp

theorem Nested.mono (h : Nested code edge rules declarations opened) (he : edge ≤ edge') :
    Nested code edge' rules declarations opened :=
  { h with
    begun := fun i r hr => (h.begun i r hr).mono he
    declarations_le := fun d hd => Nat.le_trans (h.declarations_le d hd) he }

theorem Nested.hangs_head (h : Nested code edge rules declarations opened) {s : Span}
    (hs : edge ≤ s.start) (hlt : s.start < s.stop) : Hangs rules s opened.head? where
  holds p hp := by
    obtain ⟨r, hr, hopen⟩ := (h.mem_opened p).mp (List.mem_of_head? hp)
    refine ⟨r, hr, Nat.le_trans (h.begun p r hr).body_start_le hs, ?_⟩
    simp [hopen]
  last i r hr hh := by
    have hb := h.begun i r hr
    cases hc : r.closed with
    | true =>
      have hstop := hh.2 hc
      have hend := (hb.of_closed hc).2.2
      have hedge := hb.span_stop_le
      omega
    | false =>
      have hmem : i ∈ opened := (h.mem_opened i).mpr ⟨r, hr, hc⟩
      cases opened with
      | nil => simp at hmem
      | cons p rest =>
        refine ⟨p, rfl, ?_⟩
        rcases List.mem_cons.mp hmem with rfl | hrest
        · exact Nat.le_refl _
        · exact Nat.le_of_lt (List.rel_of_pairwise_cons h.opened_sorted hrest)

theorem Nested.apart_of_edge (h : Nested code edge rules declarations opened) {i : Nat} {r : Rule}
    (hr : rules[i]? = some r) {s : Span} (hs : edge ≤ s.start) :
    (r.Holds s ∧ r.closed = false) ∨ (r.closed = true ∧ r.span.stop ≤ s.start) := by
  have hb := h.begun i r hr
  cases hc : r.closed with
  | true => exact .inr ⟨rfl, Nat.le_trans hb.span_stop_le hs⟩
  | false => exact .inl ⟨⟨Nat.le_trans hb.body_start_le hs, by simp [hc]⟩, rfl⟩

theorem Nested.push_declaration (h : Nested code edge rules declarations opened) {d : Declaration}
    (hd : d.Formed code) (hs : edge ≤ d.span.start) (hstop : d.span.stop ≤ edge')
    (hp : d.parent = opened.head?) : Nested code edge' rules (declarations.push d) opened := by
  have hlt := hd.start_lt
  have hm : Nested code edge' rules declarations opened := h.mono (by omega)
  refine
    { hm with
      formed := ?_
      declarations_le := ?_
      declarations_ordered := ?_
      declarations_apart := ?_
      declarations_hang := ?_ }
  · intro c hc
    rcases Array.mem_push.mp hc with hc | rfl
    · exact h.formed c hc
    · exact hd
  · intro c hc
    rcases Array.mem_push.mp hc with hc | rfl
    · exact hm.declarations_le c hc
    · exact hstop
  · rw [Array.toList_push, List.pairwise_append]
    refine ⟨h.declarations_ordered, List.pairwise_singleton _ _, ?_⟩
    intro c hc e he
    obtain rfl := List.mem_singleton.mp he
    exact Nat.le_trans (h.declarations_le c (Array.mem_toList_iff.mp hc)) hs
  · intro i r hr c hc
    rcases Array.mem_push.mp hc with hc | rfl
    · exact h.declarations_apart i r hr c hc
    · rcases h.apart_of_edge hr hs with hh | hh
      · exact .inl hh.1
      · exact .inr (.inl hh)
  · intro c hc
    rcases Array.mem_push.mp hc with hc | rfl
    · exact h.declarations_hang c hc
    · exact hp ▸ h.hangs_head hs hlt

theorem Hangs.push {s : Span} {parent : Option Nat} (h : Hangs rules s parent) {r : Rule}
    (hr : s.start < r.body.start) : Hangs (rules.push r) s parent where
  holds p hp := by
    obtain ⟨q, hq, hh⟩ := h.holds p hp
    exact ⟨q, getElem?_push_of_some hq, hh⟩
  last i q hq hh := by
    rcases getElem?_push_cases hq with ⟨-, hq⟩ | ⟨-, rfl⟩
    · exact h.last i q hq hh
    · exact absurd hh.1 (Nat.not_le_of_lt hr)

theorem Nested.mem_opened_push (h : Nested code edge rules declarations opened) {r : Rule}
    (hopen : r.closed = false) (i : Nat) :
    i ∈ rules.size :: opened ↔ ∃ q, (rules.push r)[i]? = some q ∧ q.closed = false := by
  rw [List.mem_cons, h.mem_opened i, Array.getElem?_push]
  by_cases hi : i = rules.size
  · simp [hi, hopen]
  · simp [hi]

theorem Nested.apart_push (h : Nested code edge rules declarations opened) {r q t : Rule}
    (hs : edge ≤ r.span.start) {i j : Nat} (hij : i < j) (hq : (rules.push r)[i]? = some q)
    (ht : (rules.push r)[j]? = some t) : q.Apart t := by
  obtain ⟨hq', ht'⟩ := getElem?_push_pair hij hq ht
  rcases ht' with ht' | ⟨-, rfl⟩
  · exact h.rules_apart i j q t hij hq' ht'
  · rcases h.apart_of_edge hq' hs with ⟨hh, hc⟩ | hh
    · exact .inl ⟨hh, by simp [hc]⟩
    · exact .inr hh

theorem Nested.push_rule (h : Nested code edge rules declarations opened) {r : Rule}
    (hr : r.Begun code edge') (hopen : r.closed = false) (hs : edge ≤ r.span.start)
    (hp : r.parent = opened.head?) : Nested code edge' (rules.push r) declarations
      (rules.size :: opened) := by
  have hstart := hr.start_lt
  have hbody := hr.body_start_le
  have hm : Nested code edge' rules declarations opened := h.mono (by omega)
  refine
    { begun := ?_
      mem_opened := h.mem_opened_push hopen
      opened_sorted := ?_
      rules_apart := fun i j q t => h.apart_push hs
      rules_hang := ?_
      formed := h.formed
      declarations_le := hm.declarations_le
      declarations_ordered := h.declarations_ordered
      declarations_apart := ?_
      declarations_hang := ?_ }
  · intro i q hq
    rcases getElem?_push_cases hq with ⟨-, hq⟩ | ⟨-, rfl⟩
    · exact hm.begun i q hq
    · exact hr
  · refine List.pairwise_cons.mpr ⟨?_, h.opened_sorted⟩
    intro i hi
    obtain ⟨q, hq, -⟩ := (h.mem_opened i).mp hi
    exact (Array.getElem?_eq_some_iff.mp hq).1
  · intro i q hq
    rcases getElem?_push_cases hq with ⟨-, hq⟩ | ⟨-, rfl⟩
    · refine (h.rules_hang i q hq).push ?_
      have hb := h.begun i q hq
      have := hb.start_lt
      have := hb.body_start_le
      omega
    · rw [hp]
      have hh := h.hangs_head hs hr.span_lt
      exact hh.push hstart
  · intro i q hq d hd
    rcases getElem?_push_cases hq with ⟨-, hq⟩ | ⟨-, rfl⟩
    · exact h.declarations_apart i q hq d hd
    · exact .inr (.inr (Nat.le_trans (h.declarations_le d hd) hs))
  · intro d hd
    refine (h.declarations_hang d hd).push ?_
    have := (h.formed d hd).start_lt
    have := h.declarations_le d hd
    omega

def Rule.closeAt (brace : Nat) (r : Rule) : Rule :=
  { r with body.stop := brace, span.stop := brace + 1, closed := true }

theorem Rule.Holds.closeAt {r : Rule} {s : Span} {brace : Nat} (h : r.Holds s)
    (hs : s.stop ≤ brace) : (r.closeAt brace).Holds s :=
  ⟨h.1, fun _ => hs⟩

theorem Hangs.modify {s : Span} {parent : Option Nat} (h : Hangs rules s parent) {i brace : Nat}
    (hopen : ∀ r, rules[i]? = some r → r.closed = false)
    (hs : parent = some i → s.stop ≤ brace) :
    Hangs (rules.modify i (Rule.closeAt brace)) s parent where
  holds p hp := by
    obtain ⟨r, hr, hh⟩ := h.holds p hp
    by_cases hi : i = p
    · subst hi
      exact ⟨r.closeAt brace, by simp [Array.getElem?_modify, hr], hh.closeAt (hs hp)⟩
    · exact ⟨r, by simp [Array.getElem?_modify, hi, hr], hh⟩
  last j r hr hh := by
    rcases getElem?_modify_cases hr with ⟨-, hr'⟩ | ⟨rfl, q, hq, rfl⟩
    · exact h.last j r hr' hh
    · exact h.last j q hq ⟨hh.1, by simp [hopen q hq]⟩

theorem Nested.parent_lt (h : Nested code edge rules declarations opened) {i p : Nat} {q : Rule}
    (hq : rules[i]? = some q) (hp : q.parent = some p) : p < i := by
  obtain ⟨r, hr, hh⟩ := (h.rules_hang i q hq).holds p hp
  have hqb := h.begun i q hq
  have hstart := hqb.start_lt
  have hrstart := (h.begun p r hr).start_lt
  have hle := hh.1
  rcases Nat.lt_trichotomy p i with hlt | rfl | hgt
  · exact hlt
  · obtain rfl := Option.some.inj (hq.symm.trans hr)
    omega
  · rcases h.rules_apart i p q r hgt hq hr with ⟨hqr, -⟩ | ⟨hc, hqr⟩
    · have := hqr.1
      omega
    · have := hqb.span_lt
      omega

theorem Nested.parent_open (h : Nested code edge rules declarations opened) {i p : Nat} {q r : Rule}
    (hq : rules[i]? = some q) (hp : q.parent = some p) (hr : rules[p]? = some r)
    (hopen : q.closed = false) : r.closed = false := by
  cases hc : r.closed with
  | false => rfl
  | true =>
    rcases h.rules_apart p i r q (h.parent_lt hq hp) hr hq with ⟨-, hrq⟩ | ⟨-, hrq⟩
    · exact absurd (hrq hc) (by simp [hopen])
    · obtain ⟨r', hr', hh⟩ := (h.rules_hang i q hq).holds p hp
      obtain rfl := Option.some.inj (hr.symm.trans hr')
      have hstop := hh.2 hc
      have hend := ((h.begun p r hr).of_closed hc).2.2
      have hlt := (h.begun i q hq).span_lt
      omega

theorem Nested.hangs_closeAt (h : Nested code edge rules declarations opened) {i brace : Nat}
    {q : Rule} (hq : rules[i]? = some q) (hopen : q.closed = false) (he : edge ≤ brace) :
    Hangs rules (q.closeAt brace).span q.parent where
  holds p hp := by
    obtain ⟨r, hr, hh⟩ := (h.rules_hang i q hq).holds p hp
    refine ⟨r, hr, hh.1, ?_⟩
    simp [h.parent_open hq hp hr hopen]
  last j r hr hh := by
    refine (h.rules_hang i q hq).last j r hr ⟨hh.1, fun hc => ?_⟩
    have hstop : brace + 1 ≤ r.body.stop := hh.2 hc
    have := (h.begun i q hq).span_stop_le
    omega

theorem Rule.Begun.closeAt {r : Rule} (h : r.Begun code edge) {brace : Nat} (he : edge ≤ brace)
    (hb : at? code brace = some '}') : (r.closeAt brace).Begun code (brace + 1) where
  span_start := h.span_start
  selector_le := h.selector_le
  selector_lt := h.selector_lt
  opening := h.opening
  body_le_span := Nat.le_trans h.body_start_le (Nat.le_succ_of_le he)
  body_start_le := Nat.le_trans h.body_start_le (Nat.le_succ_of_le he)
  span_stop_le := Nat.le_refl _
  of_closed _ := ⟨Nat.le_trans h.body_start_le he, hb, rfl⟩

theorem Nested.closed_of_lt_head {i : Nat} {rest : List Nat}
    (h : Nested code edge rules declarations (i :: rest)) {j : Nat} {q : Rule} (hij : i < j)
    (hq : rules[j]? = some q) : q.closed = true := by
  cases hc : q.closed with
  | true => rfl
  | false =>
    rcases List.mem_cons.mp ((h.mem_opened j).mpr ⟨q, hq, hc⟩) with rfl | hj
    · omega
    · have := List.rel_of_pairwise_cons h.opened_sorted hj
      omega

theorem Nested.apart_close {i : Nat} {rest : List Nat}
    (h : Nested code edge rules declarations (i :: rest)) {brace : Nat} (he : edge ≤ brace)
    {j k : Nat} {q t : Rule} (hjk : j < k)
    (hopens : ∀ q, rules[i]? = some q → q.closed = false)
    (hq : (rules.modify i (Rule.closeAt brace))[j]? = some q)
    (ht : (rules.modify i (Rule.closeAt brace))[k]? = some t) : q.Apart t := by
  rcases getElem?_modify_cases hq with ⟨-, hq'⟩ | ⟨rfl, q', hq', rfl⟩
  · rcases getElem?_modify_cases ht with ⟨-, ht'⟩ | ⟨rfl, t', ht', rfl⟩
    · exact h.rules_apart j k q t hjk hq' ht'
    · rcases h.rules_apart j k q t' hjk hq' ht' with ⟨hh, hc⟩ | hh
      · have hqo : q.closed = false :=
          Bool.eq_false_iff.mpr fun hqc =>
            Bool.false_ne_true ((hopens t' ht').symm.trans (hc hqc))
        exact .inl ⟨⟨hh.1, by simp [hqo]⟩, by simp [hqo]⟩
      · exact .inr hh
  · rcases getElem?_modify_cases ht with ⟨-, ht'⟩ | ⟨rfl, -⟩
    · have htc := h.closed_of_lt_head hjk ht'
      have hstop := Nat.le_trans (h.begun k t ht').span_stop_le he
      rcases h.rules_apart j k q' t hjk hq' ht' with ⟨hh, -⟩ | ⟨hc, -⟩
      · exact .inl ⟨hh.closeAt hstop, fun _ => htc⟩
      · simp [hopens q' hq'] at hc
    · omega

theorem Nested.mem_opened_close {i : Nat} {rest : List Nat}
    (h : Nested code edge rules declarations (i :: rest)) (brace j : Nat) :
    j ∈ rest ↔ ∃ q, (rules.modify i (Rule.closeAt brace))[j]? = some q ∧ q.closed = false := by
  obtain ⟨r, hr, -⟩ := (h.mem_opened i).mp List.mem_cons_self
  have hj := h.mem_opened j
  rw [List.mem_cons] at hj
  by_cases hji : j = i
  · subst hji
    have hnot : j ∉ rest := fun hmem =>
      Nat.lt_irrefl j (List.rel_of_pairwise_cons h.opened_sorted hmem)
    simp [hnot, Array.getElem?_modify, hr, Rule.closeAt]
  · have hij : ¬ i = j := fun he => hji he.symm
    simpa [hji, hij, Array.getElem?_modify] using hj

theorem Nested.close {i : Nat} {rest : List Nat}
    (h : Nested code edge rules declarations (i :: rest)) {brace : Nat} (he : edge ≤ brace)
    (hb : at? code brace = some '}') :
    Nested code (brace + 1) (rules.modify i (Rule.closeAt brace)) declarations rest := by
  have hm : Nested code (brace + 1) rules declarations (i :: rest) :=
    h.mono (Nat.le_succ_of_le he)
  obtain ⟨r, hr, hopen⟩ := (h.mem_opened i).mp List.mem_cons_self
  have hopens : ∀ q, rules[i]? = some q → q.closed = false := fun q hq =>
    Option.some.inj (hr.symm.trans hq) ▸ hopen
  have hspan {q : Rule} {j : Nat} (hq : rules[j]? = some q) : q.span.stop ≤ brace :=
    Nat.le_trans (h.begun j q hq).span_stop_le he
  refine
    { begun := ?_
      mem_opened := h.mem_opened_close brace
      opened_sorted := h.opened_sorted.tail
      rules_apart := fun j k q t hjk => h.apart_close he hjk hopens
      rules_hang := ?_
      formed := h.formed
      declarations_le := hm.declarations_le
      declarations_ordered := h.declarations_ordered
      declarations_apart := ?_
      declarations_hang := ?_ }
  · intro j q hq
    rcases getElem?_modify_cases hq with ⟨-, hq'⟩ | ⟨rfl, q', hq', rfl⟩
    · exact hm.begun j q hq'
    · exact (h.begun j q' hq').closeAt he hb
  · intro j q hq
    rcases getElem?_modify_cases hq with ⟨-, hq'⟩ | ⟨rfl, q', hq', rfl⟩
    · exact (h.rules_hang j q hq').modify hopens fun _ => hspan hq'
    · refine (h.hangs_closeAt hq' (hopens q' hq') he).modify hopens fun hp => ?_
      exact absurd (h.parent_lt hq' hp) (Nat.lt_irrefl j)
  · intro j q hq d hd
    rcases getElem?_modify_cases hq with ⟨-, hq'⟩ | ⟨rfl, q', hq', rfl⟩
    · exact h.declarations_apart j q hq' d hd
    · rcases h.declarations_apart j q' hq' d hd with hh | ⟨hc, -⟩ | hh
      · exact .inl (hh.closeAt (Nat.le_trans (h.declarations_le d hd) he))
      · simp [hopens q' hq'] at hc
      · exact .inr (.inr hh)
  · intro d hd
    exact (h.declarations_hang d hd).modify hopens fun _ =>
      Nat.le_trans (h.declarations_le d hd) he

end Caret.Stylesheet
