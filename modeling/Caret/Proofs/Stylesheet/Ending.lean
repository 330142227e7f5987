import Caret.Proofs.Stylesheet.Nesting

namespace Caret.Stylesheet

open Text

variable {code : Bytes} {edge stop : Nat} {rules : Array Rule} {declarations : Array Declaration}
  {opened : List Nat}

def Rule.settle (stop : Nat) (r : Rule) : Rule :=
  if r.closed then r else { r with body.stop := stop, span.stop := stop }

@[simp]
theorem Rule.settle_parent (r : Rule) : (r.settle stop).parent = r.parent := by
  unfold Rule.settle
  split <;> rfl

@[simp]
theorem Rule.settle_span_start (r : Rule) : (r.settle stop).span.start = r.span.start := by
  unfold Rule.settle
  split <;> rfl

@[simp]
theorem Rule.settle_body_start (r : Rule) : (r.settle stop).body.start = r.body.start := by
  unfold Rule.settle
  split <;> rfl

theorem Rule.settle_of_closed {r : Rule} (h : r.closed = true) : r.settle stop = r := by
  simp [Rule.settle, h]

theorem Rule.settle_of_open {r : Rule} (h : r.closed = false) :
    r.settle stop = { r with body.stop := stop, span.stop := stop } := by
  simp [Rule.settle, h]

theorem Nested.foldl_modify (h : Nested code edge rules declarations opened) :
    opened.foldl (fun rules i => rules.modify i fun r =>
      { r with body.stop := stop, span.stop := stop }) rules = rules.map (Rule.settle stop) := by
  have hn : opened.Nodup := h.opened_sorted.imp fun hij => Nat.ne_of_gt hij
  apply Array.ext_getElem?
  intro j
  rw [getElem?_foldl_modify hn, Array.getElem?_map]
  cases hr : rules[j]? with
  | none => simp
  | some r =>
    cases hc : r.closed with
    | true =>
      have hj : j ∉ opened := fun hj => by
        obtain ⟨q, hq, ho⟩ := (h.mem_opened j).mp hj
        obtain rfl := Option.some.inj (hr.symm.trans hq)
        exact Bool.false_ne_true (ho.symm.trans hc)
      simp [hj, Rule.settle_of_closed hc]
    | false =>
      have hj : j ∈ opened := (h.mem_opened j).mpr ⟨r, hr, hc⟩
      simp [hj, Rule.settle_of_open hc]

theorem Rule.Begun.settle_formed {r : Rule} (h : r.Begun code edge) (he : edge ≤ stop) :
    (r.settle stop).Formed code stop := by
  cases hc : r.closed with
  | true =>
    rw [Rule.settle_of_closed hc]
    obtain ⟨hle, hat, hend⟩ := h.of_closed hc
    exact ⟨h.span_start, h.selector_le, h.selector_lt, hle, h.opening, fun _ => ⟨hat, hend⟩,
      by simp [hc]⟩
  | false =>
    rw [Rule.settle_of_open hc]
    exact ⟨h.span_start, h.selector_le, h.selector_lt, Nat.le_trans h.body_start_le he, h.opening,
      by simp [hc], fun _ => ⟨rfl, rfl⟩⟩

theorem Rule.Begun.le_settle_stop {r : Rule} (h : r.Begun code edge) (he : edge ≤ stop) :
    r.span.stop ≤ (r.settle stop).span.stop ∧ (r.settle stop).span.stop ≤ stop := by
  cases hc : r.closed with
  | true =>
    rw [Rule.settle_of_closed hc]
    exact ⟨Nat.le_refl _, Nat.le_trans h.span_stop_le he⟩
  | false =>
    rw [Rule.settle_of_open hc]
    exact ⟨Nat.le_trans h.span_stop_le he, Nat.le_refl _⟩

theorem Rule.settle_covers_iff {r : Rule} {s : Span} (hs : s.stop ≤ stop) :
    (r.settle stop).body.covers s ↔ r.Holds s := by
  rw [Span.covers_iff, Rule.settle_body_start, Rule.Holds]
  cases hc : r.closed with
  | true => simp [Rule.settle_of_closed hc]
  | false => simp [Rule.settle_of_open hc, hs]

theorem Nested.laminar (h : Nested code edge rules declarations opened) (he : edge ≤ stop)
    {i j : Nat} {r q : Rule} (hij : i < j) (hr : rules[i]? = some r) (hq : rules[j]? = some q) :
    (r.settle stop).body.covers (q.settle stop).span ∨
      (r.settle stop).span.stop ≤ (q.settle stop).span.start := by
  rcases h.rules_apart i j r q hij hr hq with ⟨hh, hc⟩ | ⟨hc, hle⟩
  · left
    rw [Rule.settle_covers_iff ((h.begun j q hq).le_settle_stop he).2]
    refine ⟨by simpa using hh.1, fun hrc => ?_⟩
    rw [Rule.settle_of_closed (hc hrc)]
    exact hh.2 hrc
  · right
    simpa [Rule.settle_of_closed hc] using hle

theorem Nested.innermost (h : Nested code edge rules declarations opened) (he : edge ≤ stop)
    {s t : Span} {parent : Option Nat} (hh : Hangs rules s parent) (hstart : t.start = s.start)
    (hle : s.stop ≤ t.stop) (hlt : t.start ≤ t.stop) (hstop : t.stop ≤ stop)
    (hc : ∀ p r, parent = some p → rules[p]? = some r → r.closed = true → t.stop = s.stop) :
    Innermost (rules.map (Rule.settle stop)) t parent := by
  have hold : ∀ r : Rule, r.Holds t → r.Holds s := fun r hr =>
    ⟨hstart ▸ hr.1, fun hc => Nat.le_trans hle (hr.2 hc)⟩
  have hcovers : ∀ p, parent = some p → ∃ r, rules[p]? = some r ∧ r.Holds t := fun p hp => by
    obtain ⟨r, hr, hs⟩ := hh.holds p hp
    exact ⟨r, hr, hstart ▸ hs.1, fun hrc => hc p r hp hr hrc ▸ hs.2 hrc⟩
  refine ⟨⟨?_, ?_⟩, ?_⟩
  · rintro rfl r hr hcov
    obtain ⟨q, hq, rfl⟩ := Array.mem_map.mp hr
    obtain ⟨i, hi⟩ := Array.mem_iff_getElem?.mp hq
    obtain ⟨p, hp, -⟩ := hh.last i q hi (hold q ((Rule.settle_covers_iff hstop).mp hcov))
    simp at hp
  · intro hnone
    cases parent with
    | none => rfl
    | some p =>
      obtain ⟨r, hr, hrt⟩ := hcovers p rfl
      refine absurd ((Rule.settle_covers_iff hstop).mpr hrt) (hnone _ ?_)
      exact Array.mem_map_of_mem (Array.mem_of_getElem? hr)
  · intro p hp
    obtain ⟨r, hr, hrt⟩ := hcovers p hp
    refine ⟨r.settle stop, by simp [hr], (Rule.settle_covers_iff hstop).mpr hrt, ?_⟩
    intro i q' hq' hcov hip
    rw [Array.getElem?_map] at hq'
    obtain ⟨q, hq, rfl⟩ := Option.map_eq_some_iff.mp hq'
    have hqt := (Rule.settle_covers_iff hstop).mp hcov
    obtain ⟨p', hp', hle'⟩ := hh.last i q hq (hold q hqt)
    obtain rfl := Option.some.inj (hp.symm.trans hp')
    rcases h.laminar he (Nat.lt_of_le_of_ne hle' hip) hq hr with hin | hbefore
    · exact hin
    · have hform := (h.begun i q hq).settle_formed he
      have hspan : (q.settle stop).body.stop ≤ (q.settle stop).span.stop := by
        cases hqc : (q.settle stop).closed with
        | true => have := (hform.of_closed hqc).2; omega
        | false => have := hform.of_unclosed hqc; omega
      have hrs := (h.begun p r hr).start_lt
      have hrt1 := hrt.1
      rw [Span.covers_iff] at hcov
      rw [Rule.settle_span_start] at hbefore
      omega

section settled

variable (h : Nested code stop rules declarations opened)
include h

theorem Nested.settle_formed : ∀ r ∈ rules.map (Rule.settle stop), r.Formed code stop := by
  intro r hr
  obtain ⟨q, hq, rfl⟩ := Array.mem_map.mp hr
  obtain ⟨i, hi⟩ := Array.mem_iff_getElem?.mp hq
  exact (h.begun i q hi).settle_formed (Nat.le_refl stop)

theorem Nested.settle_laminar : (rules.map (Rule.settle stop)).toList.Pairwise fun r q =>
    r.body.covers q.span ∨ r.span.stop ≤ q.span.start := by
  rw [Array.toList_map, List.pairwise_map]
  exact pairwise_toList fun i j r q hij hr hq => h.laminar (Nat.le_refl stop) hij hr hq

theorem Nested.settle_declarations : ∀ r ∈ rules.map (Rule.settle stop), ∀ d ∈ declarations,
    r.body.covers d.span ∨ r.span.stop ≤ d.span.start ∨ d.span.stop ≤ r.span.start := by
  intro r hr d hd
  obtain ⟨q, hq, rfl⟩ := Array.mem_map.mp hr
  obtain ⟨i, hi⟩ := Array.mem_iff_getElem?.mp hq
  rcases h.declarations_apart i q hi d hd with hh | ⟨hc, hle⟩ | hle
  · exact .inl ((Rule.settle_covers_iff (h.declarations_le d hd)).mpr hh)
  · exact .inr (.inl (by rwa [Rule.settle_of_closed hc]))
  · exact .inr (.inr (by rwa [Rule.settle_span_start]))

theorem Nested.settle_rule_parent : ∀ r ∈ rules.map (Rule.settle stop),
    Innermost (rules.map (Rule.settle stop)) r.span r.parent := by
  intro r hr
  obtain ⟨q, hq, rfl⟩ := Array.mem_map.mp hr
  obtain ⟨i, hi⟩ := Array.mem_iff_getElem?.mp hq
  have hb := h.begun i q hi
  obtain ⟨hle, hstop⟩ := hb.le_settle_stop (Nat.le_refl stop)
  have hlt := hb.span_lt
  rw [Rule.settle_parent]
  refine h.innermost (Nat.le_refl stop) (h.rules_hang i q hi) (Rule.settle_span_start q) hle ?_
    hstop ?_
  · rw [Rule.settle_span_start]
    omega
  · intro p r hp hr hc
    have hqc : q.closed = true := by
      cases hqc : q.closed with
      | true => rfl
      | false => exact absurd hc (by simp [h.parent_open hi hp hr hqc])
    rw [Rule.settle_of_closed hqc]

theorem Nested.settle_declaration_parent : ∀ d ∈ declarations,
    Innermost (rules.map (Rule.settle stop)) d.span d.parent := by
  intro d hd
  exact h.innermost (Nat.le_refl stop) (h.declarations_hang d hd) rfl (Nat.le_refl _)
    (Nat.le_of_lt (h.formed d hd).start_lt) (h.declarations_le d hd) fun _ _ _ _ _ => rfl

end settled

end Caret.Stylesheet
