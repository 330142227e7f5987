import Caret.Expansion.Output
import Mathlib.Algebra.Ring.Parity
import Mathlib.Data.List.DropRight

/-!
Literal text in a snippet. Every dollar sign is given a backslash of its own, but the backslashes
that stand before it in the text stay as they are and count as marks too. So the dollar signs that
would be live become literal, and those that would be literal become live.
-/

namespace Caret.Expansion

def trailingMarks (l : List Char) : Nat := (l.rtakeWhile (· == '\\')).length

def dollarMarks (n : Nat) : List Char → List Nat
  | [] => []
  | c :: rest =>
    if c = '\\' then dollarMarks (n + 1) rest
    else if c = '$' then n :: dollarMarks 0 rest
    else dollarMarks 0 rest

/-- How many dollar signs begin a tab stop for a snippet reader. A backslash makes the backslash or
dollar sign behind it literal, unless it is itself `marked` so. -/
def liveDollars (marked : Bool) : List Char → Nat
  | [] => 0
  | c :: rest =>
    if c = '\\' then liveDollars (!marked) rest
    else if c = '$' ∧ marked = false then liveDollars false rest + 1
    else liveDollars false rest

section trailing

variable {c : Char}

theorem trailingMarks_concat (l : List Char) : trailingMarks (l ++ ['\\']) = trailingMarks l + 1 := by
  rw [trailingMarks, List.rtakeWhile_concat_pos _ _ _ (by decide), List.length_append]
  rfl

theorem trailingMarks_append (h : c ≠ '\\') (l u : List Char) :
    trailingMarks (l ++ c :: u) = trailingMarks u := by
  induction u using List.reverseRecOn with
  | nil => simp [trailingMarks, List.rtakeWhile_concat_neg, h]
  | append_singleton u d ih =>
    rw [← List.cons_append, ← List.append_assoc]
    by_cases hd : d = '\\'
    · rw [hd, trailingMarks_concat, trailingMarks_concat, ih]
    · simp [trailingMarks, List.rtakeWhile_concat_neg, hd]

theorem trailingMarks_replicate (n : Nat) : trailingMarks (List.replicate n '\\') = n := by
  induction n with
  | zero => rfl
  | succ n ih => rw [List.replicate_succ', trailingMarks_concat, ih]

end trailing

section marks

variable {n k : Nat} {l : List Char}

theorem mem_dollarMarks_cons {c : Char} (hc : c ≠ '\\')
    (ih : k ∈ dollarMarks 0 l ↔ ∃ u v, l = u ++ '$' :: v ∧ trailingMarks u = k) :
    k ∈ dollarMarks n (c :: l) ↔
      ∃ u v, c :: l = u ++ '$' :: v ∧ trailingMarks (List.replicate n '\\' ++ u) = k := by
  have hmem : k ∈ dollarMarks n (c :: l) ↔ c = '$' ∧ k = n ∨ k ∈ dollarMarks 0 l := by
    by_cases hdollar : c = '$' <;> simp [dollarMarks, hc, hdollar]
  rw [hmem, ih]
  constructor
  · rintro (⟨rfl, rfl⟩ | ⟨u, v, rfl, hu⟩)
    · exact ⟨[], l, rfl, by rw [List.append_nil, trailingMarks_replicate]⟩
    · exact ⟨c :: u, v, rfl, by rw [trailingMarks_append hc, hu]⟩
  · rintro ⟨u, v, hl, hu⟩
    cases u with
    | nil =>
      obtain ⟨rfl, -⟩ := List.cons.inj hl
      rw [List.append_nil, trailingMarks_replicate] at hu
      exact .inl ⟨rfl, hu.symm⟩
    | cons d u =>
      obtain ⟨rfl, hrest⟩ := List.cons.inj hl
      rw [trailingMarks_append hc] at hu
      exact .inr ⟨u, v, hrest, hu⟩

theorem mem_dollarMarks_replicate : k ∈ dollarMarks n l ↔
    ∃ u v, l = u ++ '$' :: v ∧ trailingMarks (List.replicate n '\\' ++ u) = k := by
  induction l generalizing n with
  | nil => simp [dollarMarks]
  | cons c rest ih =>
    by_cases hc : c = '\\'
    · subst hc
      have hshift (u : List Char) :
          List.replicate (n + 1) '\\' ++ u = List.replicate n '\\' ++ '\\' :: u := by
        rw [List.replicate_succ', List.append_assoc, List.singleton_append]
      rw [dollarMarks, if_pos rfl, ih]
      constructor
      · rintro ⟨u, v, rfl, hu⟩
        exact ⟨'\\' :: u, v, rfl, by rw [← hshift, hu]⟩
      · rintro ⟨u, v, hl, hu⟩
        cases u with
        | nil => simp at hl
        | cons d u =>
          obtain ⟨rfl, hrest⟩ := List.cons.inj hl
          exact ⟨u, v, hrest, by rw [hshift, hu]⟩
    · exact mem_dollarMarks_cons hc ih

theorem mem_dollarMarks : k ∈ dollarMarks 0 l ↔
    ∃ u v, l = u ++ '$' :: v ∧ trailingMarks u = k :=
  mem_dollarMarks_replicate

theorem forall_dollarMarks {p : Nat → Prop} :
    (∀ k ∈ dollarMarks 0 l, p k) ↔ ∀ u v, l = u ++ '$' :: v → p (trailingMarks u) := by
  simp only [mem_dollarMarks]
  exact ⟨fun h u v hl => h _ ⟨u, v, hl, rfl⟩, fun h k ⟨u, v, hl, hk⟩ => hk ▸ h u v hl⟩

theorem length_dollarMarks (n : Nat) (l : List Char) : (dollarMarks n l).length = l.count '$' := by
  induction l generalizing n with
  | nil => rfl
  | cons c rest ih =>
    rw [dollarMarks]
    split
    · next hc => rw [ih, hc, List.count_cons_of_ne (by decide)]
    · split
      · next hc => rw [List.length_cons, ih, hc, List.count_cons_self]
      · next hc => rw [ih, List.count_cons_of_ne hc]

theorem liveDollars_eq (n : Nat) (l : List Char) :
    liveDollars (decide (Odd n)) l = (dollarMarks n l).countP (Even ·) := by
  -- a character is marked exactly behind an odd number of backslashes
  induction l generalizing n with
  | nil => rfl
  | cons c rest ih =>
    have hzero := ih 0
    rw [decide_eq_false (by decide)] at hzero
    rw [liveDollars, dollarMarks]
    split
    · have hnext : (!decide (Odd n)) = decide (Odd (n + 1)) := by
        rw [← decide_not, decide_eq_decide, Nat.odd_add_one]
      rw [hnext, ih]
    · by_cases hdollar : c = '$'
      · by_cases hn : Even n <;> simp [hdollar, hn, hzero]
      · simp [hdollar, hzero]

theorem dollarMarks_escapeDollars (n : Nat) (l : List Char) :
    dollarMarks n (escapeDollars l) = (dollarMarks n l).map (· + 1) := by
  induction l generalizing n with
  | nil => rfl
  | cons c rest ih =>
    by_cases hmark : c = '\\'
    · simp [escapeDollars, dollarMarks, hmark, ih]
    · by_cases hdollar : c = '$' <;> simp [escapeDollars, dollarMarks, hmark, hdollar, ih]

theorem liveDollars_escapeDollars (l : List Char) :
    liveDollars false (escapeDollars l) + liveDollars false l = l.count '$' := by
  have hodd : decide (Odd 0) = false := by decide
  rw [← hodd, liveDollars_eq, liveDollars_eq, dollarMarks_escapeDollars, List.countP_map,
    ← length_dollarMarks 0, List.length_eq_countP_add_countP (fun n => decide (Even (n + 1)))]
  congr 1
  apply List.countP_congr
  intro n _
  simp [Nat.even_add_one]

theorem liveDollars_eq_zero : liveDollars false l = 0 ↔
    ∀ u v, l = u ++ '$' :: v → Odd (trailingMarks u) := by
  have hodd : decide (Odd 0) = false := by decide
  rw [← hodd, liveDollars_eq, List.countP_eq_zero, ← forall_dollarMarks]
  simp

theorem odd_escapeDollars_iff (l : List Char) :
    (∀ u v, escapeDollars l = u ++ '$' :: v → Odd (trailingMarks u)) ↔
      ∀ u v, l = u ++ '$' :: v → Even (trailingMarks u) := by
  rw [← forall_dollarMarks, ← forall_dollarMarks, dollarMarks_escapeDollars]
  simp [Nat.odd_add_one]

end marks

theorem escape_odd_iff (text : String) :
    let written := (TextStyle.escape.apply text).toList
    dollarMarks 0 written = (dollarMarks 0 text.toList).map (· + 1) ∧
    ((∀ u v, written = u ++ '$' :: v → Odd (trailingMarks u)) ↔
      ∀ u v, text.toList = u ++ '$' :: v → Even (trailingMarks u)) ∧
    (liveDollars false written = 0 ↔
      ∀ u v, written = u ++ '$' :: v → Odd (trailingMarks u)) ∧
    liveDollars false written + liveDollars false text.toList = text.toList.count '$' := by
  have hwritten : (TextStyle.escape.apply text).toList = escapeDollars text.toList :=
    String.toList_ofList
  simp only [hwritten]
  exact ⟨dollarMarks_escapeDollars 0 _, odd_escapeDollars_iff _, liveDollars_eq_zero,
    liveDollars_escapeDollars _⟩

theorem escape_live :
    (TextStyle.escape.apply "\\$").toList = ['\\', '\\'] ++ '$' :: [] ∧
      ¬Odd (trailingMarks ['\\', '\\']) ∧
      liveDollars false (TextStyle.escape.apply "\\$").toList = 1 := by
  decide +kernel

end Caret.Expansion
