import Caret.Proofs.Abbreviation.WellBracketed

namespace Caret.Abbreviation

open Text

inductive Pending (kind : Kind) : List Char → List Char → Prop
  | nil {text : List Char} (h : WellBracketed kind none text) : Pending kind [] text
  | cons {closing : Char} {groups inside rest : List Char} (hc : isClosing kind closing = true)
      (hb : '}' ∈ groups → closing = '}') (hi : WellBracketed kind (some closing) inside)
      (hr : Pending kind groups rest) :
      Pending kind (closing :: groups) (inside ++ closing :: rest)

namespace Pending

variable {kind : Kind} {line : Bytes} {groups more text : List Char} {closing c : Char} {i : Nat}

theorem isClosing_of_mem (h : Pending kind groups text) (hm : closing ∈ groups) :
    isClosing kind closing = true := by
  induction h with
  | nil => simp at hm
  | cons hc _ _ _ ih =>
    rcases List.mem_cons.mp hm with rfl | hm'
    · exact hc
    · exact ih hm'

theorem head?_eq_brace (h : Pending kind groups text) (hm : '}' ∈ groups) :
    groups.head? = some '}' := by
  cases h with
  | nil => simp at hm
  | cons _ hb _ _ =>
    rcases List.mem_cons.mp hm with rfl | hm'
    · rfl
    · rw [hb hm']
      rfl

theorem plain (h : Pending kind groups text) (hc : isPlain kind groups.head? c = true) :
    Pending kind groups (c :: text) := by
  cases h with
  | nil h => exact .nil (.plain hc h)
  | cons hcl hb hi hr => exact .cons hcl hb (.plain hc hi) hr

theorem closed (h : Pending kind groups text) (hc : isClosing kind c = true)
    (hb : '}' ∈ groups → c = '}') : Pending kind (c :: groups) (c :: text) :=
  .cons hc hb .nil h

theorem opened (h : Pending kind (closing :: groups) text) (hp : partner closing = some c) :
    Pending kind groups (c :: text) := by
  cases h with
  | @cons _ _ inside rest hc hb hi hr =>
    cases hr with
    | nil h => exact .nil (.group hc hp (by simp) hi h)
    | @cons outer groups more rest hc' hb' hi' hr' =>
      have hg : WellBracketed kind (some outer) (c :: (inside ++ closing :: more)) := by
        refine .group hc hp (fun ho => hb ?_) hi hi'
        rw [Option.some.inj ho]
        exact List.mem_cons_self
      have h := Pending.cons hc' hb' hg hr'
      rwa [List.cons_append, List.append_assoc] at h

theorem not_mem_brace (h : Pending kind groups text)
    (hb : ¬(groups.contains '}' && c != '{') = true) (hc : ¬isOpening kind c = true) :
    '}' ∉ groups := by
  intro hm
  have hcl := h.isClosing_of_mem hm
  have he : c = '{' := by simpa [hm] using hb
  subst he
  exact hc (by simpa [isOpening, isClosing] using hcl)

theorem braced (h : Pending kind groups text) (hm : '}' ∈ groups) (hopen : c ≠ '{')
    (hclose : c ≠ '}') : Pending kind groups (c :: text) := by
  refine h.plain ?_
  rw [h.head?_eq_brace hm]
  simp [isPlain, hopen, hclose]

theorem grouped (h : Pending kind (closing :: groups) text) (hb : '}' ∉ closing :: groups)
    (hclose : ¬isClosing kind c = true) (hopen : ¬isOpening kind c = true) :
    Pending kind (closing :: groups) (c :: text) := by
  refine h.plain ?_
  have hne : closing ≠ '}' := fun he => hb (he ▸ List.mem_cons_self)
  rw [List.head?_cons, isPlain_some hne]
  simp [hclose, hopen]

theorem step (h : Pending kind groups text)
    (hs : Abbreviation.step kind line groups i c = .ok (some more)) :
    Pending kind more (c :: text) := by
  revert hs
  fun_cases Abbreviation.step kind line groups i c with
  | case1 groups h1 =>
    rintro ⟨⟩
    simp only [List.contains_eq_mem, Bool.and_eq_true, decide_eq_true_eq, beq_iff_eq] at h1
    obtain ⟨hm, rfl⟩ := h1
    exact h.closed (h.isClosing_of_mem hm) fun _ => rfl
  | case2 groups h1 h2 =>
    rintro ⟨⟩
    simp only [List.contains_eq_mem, Bool.and_eq_true, decide_eq_true_eq, beq_iff_eq, bne_iff_ne,
      not_and] at h1 h2
    exact h.braced h2.1 h2.2 (h1 h2.1)
  | case3 groups h1 h2 h3 =>
    rintro ⟨⟩
    refine h.closed h3 fun hm => ?_
    obtain rfl : c = '{' := by simpa [hm] using h2
    simp [isClosing] at h3
  | case4 => rintro ⟨⟩
  | case5 _ _ closing rest hp =>
    rintro ⟨⟩
    exact h.opened hp
  | case6 => rintro ⟨⟩
  | case7 groups h1 h2 h3 h4 h5 =>
    rintro ⟨⟩
    cases groups with
    | nil => simp at h5
    | cons g groups => exact h.grouped (h.not_mem_brace h2 h4) h3 h4
  | case8 => rintro ⟨⟩
  | case9 groups h1 h2 h3 h4 h5 h6 =>
    rintro ⟨⟩
    cases groups with
    | nil =>
      simp only [Bool.or_eq_true, Bool.not_eq_true', not_or, Bool.not_eq_false] at h6
      exact h.plain h6.2
    | cons g groups =>
      have hg := h.not_mem_brace h2 h4
      rcases isClosing_cases (h.isClosing_of_mem List.mem_cons_self) with rfl | rfl | rfl
      · simp at h5
      · simp at h5
      · simp at hg

end Pending

end Caret.Abbreviation
