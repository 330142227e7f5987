import Caret.Abbreviation.Scan
import Caret.Proofs.Text.Units

/-!
The texts that abbreviations are: characters that stand for themselves and groups in brackets. What
a group may hold depends on its closing bracket, and nothing but braces counts inside braces.
-/

namespace Caret.Abbreviation

open Text

variable {kind : Kind} {within : Option Char} {c opening closing : Char}
  {rest text : List Char}

def isPlain (kind : Kind) : Option Char → Char → Bool
  | none, c => isAbbreviationChar c
  | some '}', c => c != '{' && c != '}'
  | some _, c => !isOpening kind c && !isClosing kind c

inductive WellBracketed (kind : Kind) : Option Char → List Char → Prop
  | nil {within : Option Char} : WellBracketed kind within []
  | plain {within : Option Char} {c : Char} {rest : List Char} (hc : isPlain kind within c = true)
      (hr : WellBracketed kind within rest) : WellBracketed kind within (c :: rest)
  | group {within : Option Char} {opening closing : Char} {inside rest : List Char}
      (hc : isClosing kind closing = true) (hp : partner closing = some opening)
      (hb : within = some '}' → closing = '}') (hi : WellBracketed kind (some closing) inside)
      (hr : WellBracketed kind within rest) :
      WellBracketed kind within (opening :: (inside ++ closing :: rest))

theorem isPlain_some (h : closing ≠ '}') :
    isPlain kind (some closing) c = (!isOpening kind c && !isClosing kind c) := by
  unfold isPlain
  split
  · contradiction
  · simp_all
  · rfl

theorem isClosing_cases (h : isClosing kind c = true) : c = ')' ∨ c = ']' ∨ c = '}' := by
  simp only [isClosing, Bool.or_eq_true, Bool.and_eq_true, beq_iff_eq] at h
  rcases h with h | ⟨-, h⟩
  · exact .inl h
  · exact .inr h

theorem isClosing_ascii (h : isClosing kind c = true) : c.toNat < 128 := by
  rcases isClosing_cases h with rfl | rfl | rfl <;> decide

theorem partner_cases (h : partner closing = some opening) :
    closing = ')' ∧ opening = '(' ∨ closing = ']' ∧ opening = '[' ∨ closing = '}' ∧ opening = '{' := by
  unfold partner at h
  split at h
  · exact .inl ⟨rfl, (Option.some.inj h).symm⟩
  · exact .inr (.inl ⟨rfl, (Option.some.inj h).symm⟩)
  · exact .inr (.inr ⟨rfl, (Option.some.inj h).symm⟩)
  · simp at h

theorem partner_ascii (h : partner closing = some opening) :
    opening.toNat < 128 ∧ closing.toNat < 128 := by
  rcases partner_cases h with ⟨rfl, rfl⟩ | ⟨rfl, rfl⟩ | ⟨rfl, rfl⟩ <;> decide

theorem isAbbreviationChar_ascii (h : isAbbreviationChar c = true) : c.toNat < 128 := by
  simp only [isAbbreviationChar, Bool.or_eq_true, List.contains_eq_mem, decide_eq_true_eq] at h
  rcases h with h | h
  · exact isAlphanum_ascii h
  · have hall : "#.*:$-_!@%^+>/".toList.all (fun c => c.toNat < 128) = true := by decide
    exact of_decide_eq_true (List.all_eq_true.mp hall c h)

theorem isJoint_ascii (h : isJoint c = true) : c.toNat < 128 := by
  simp only [isJoint, Bool.or_eq_true, beq_iff_eq] at h
  rcases h with ((rfl | rfl) | rfl) | rfl <;> decide

theorem isPlain_of_isJoint (h : isJoint c = true) : isPlain kind none c = true := by
  simp only [isJoint, Bool.or_eq_true, beq_iff_eq] at h
  rcases h with ((rfl | rfl) | rfl) | rfl <;> rfl

theorem isPlain_of_le (h : 128 ≤ c.toNat) : isPlain kind within c = within.isSome := by
  have hne : ∀ d : Char, d.toNat < 128 → (c == d) = false := fun d hd =>
    beq_false_of_ne (ne_of_le h d hd)
  unfold isPlain
  split
  · refine Bool.eq_false_iff.mpr fun ha => ?_
    have := isAbbreviationChar_ascii ha
    omega
  · simp [bne, hne '{' (by decide), hne '}' (by decide)]
  · simp [isOpening, isClosing, hne '(' (by decide), hne ')' (by decide), hne '[' (by decide),
      hne ']' (by decide), hne '{' (by decide), hne '}' (by decide)]

theorem WellBracketed.head_ascii (h : WellBracketed kind none (c :: rest)) : c.toNat < 128 := by
  cases h with
  | plain hc _ => exact isAbbreviationChar_ascii hc
  | group _ hp _ _ _ => exact (partner_ascii hp).1

theorem WellBracketed.tail (h : WellBracketed kind none (c :: rest)) (hj : isJoint c = true) :
    WellBracketed kind none rest := by
  cases h with
  | plain _ hr => exact hr
  | group _ hp _ _ _ =>
    rcases partner_cases hp with ⟨-, rfl⟩ | ⟨-, rfl⟩ | ⟨-, rfl⟩ <;> simp [isJoint] at hj

theorem WellBracketed.of_append (h : WellBracketed kind within text) {u l : List Char}
    (he : text = u ++ encode l) (hu : ∀ x ∈ u, 128 ≤ x.toNat) :
    WellBracketed kind within l := by
  induction h generalizing u l with
  | nil =>
    obtain ⟨-, hl⟩ := List.append_eq_nil_iff.mp he.symm
    rw [eq_nil_of_encode hl]
    exact .nil
  | plain hc hr ih =>
    cases u with
    | cons x u => exact ih (List.cons.inj he).2 fun y hy => hu y (List.mem_cons_of_mem x hy)
    | nil =>
      cases l with
      | nil => exact .nil
      | cons a l =>
        by_cases ha : a.toNat < 128
        · rw [List.nil_append, encode_cons_of_lt ha] at he
          obtain ⟨rfl, hrest⟩ := List.cons.inj he
          exact .plain hc (ih (u := []) hrest (by simp))
        · obtain ⟨d, ds, hd, hds⟩ := encode_singleton_of_le (Nat.le_of_not_lt ha)
          rw [List.nil_append, encode_cons, hd] at he
          obtain ⟨rfl, hrest⟩ := List.cons.inj he
          refine .plain ?_ (ih hrest fun y hy => hds y (List.mem_cons_of_mem _ hy))
          rw [isPlain_of_le (Nat.le_of_not_lt ha), ← hc]
          exact (isPlain_of_le (hds _ List.mem_cons_self)).symm
  | group hc hp hb hi hr ihi ihr =>
    obtain ⟨hopening, hclosing⟩ := partner_ascii hp
    cases u with
    | cons x u =>
      obtain ⟨rfl, -⟩ := List.cons.inj he
      have := hu _ List.mem_cons_self
      omega
    | nil =>
      obtain ⟨l₁, l₂, rfl, hl₁, hl₂⟩ := encode_eq_append_cons (u := []) hopening he.symm
      obtain ⟨l₃, l₄, rfl, hl₃, hl₄⟩ := encode_eq_append_cons hclosing hl₂.symm
      rw [eq_nil_of_encode hl₁.symm]
      exact .group hc hp hb (ihi (u := []) hl₃ (by simp)) (ihr (u := []) hl₄ (by simp))

theorem WellBracketed.of_encode {l : List Char} (h : WellBracketed kind within (encode l)) :
    WellBracketed kind within l :=
  h.of_append (u := []) rfl (by simp)

theorem WellBracketed.plain_append {u : List Char} (hu : ∀ x ∈ u, isPlain kind within x = true)
    (h : WellBracketed kind within rest) : WellBracketed kind within (u ++ rest) := by
  induction u with
  | nil => exact h
  | cons x u ih =>
    exact .plain (hu x List.mem_cons_self) (ih fun y hy => hu y (List.mem_cons_of_mem x hy))

theorem WellBracketed.of_forall (h : ∀ x ∈ text, isPlain kind within x = true) :
    WellBracketed kind within text := by
  rw [← List.append_nil text]
  exact WellBracketed.nil.plain_append h

theorem wellBracketed_encode : WellBracketed kind within (encode text) ↔
    WellBracketed kind within text := by
  refine ⟨WellBracketed.of_encode, fun h => ?_⟩
  induction h with
  | nil => exact .nil
  | @plain within c rest hc _ ih =>
    by_cases hlt : c.toNat < 128
    · rw [encode_cons_of_lt hlt]
      exact .plain hc ih
    · have hle := Nat.le_of_not_lt hlt
      obtain ⟨u, us, he, hu⟩ := encode_singleton_of_le hle
      rw [encode_cons, he]
      refine ih.plain_append fun x hx => ?_
      rw [isPlain_of_le (hu x hx), ← hc, isPlain_of_le hle]
  | group hc hp hb _ _ ihi ihr =>
    obtain ⟨hopening, hclosing⟩ := partner_ascii hp
    rw [encode_cons_of_lt hopening, encode_append, encode_cons_of_lt hclosing]
    exact .group hc hp hb ihi ihr

end Caret.Abbreviation
