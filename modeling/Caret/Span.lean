namespace Caret

structure Span where
  start : Nat
  stop : Nat
deriving DecidableEq, Inhabited

namespace Span

def between (a b : Nat) : Span := ⟨min a b, max a b⟩

def empty (p : Nat) : Span := ⟨p, p⟩

def size (s : Span) : Nat := s.stop - s.start

def isEmpty (s : Span) : Bool := s.stop ≤ s.start

def contains (s : Span) (p : Nat) : Bool := s.start ≤ p && p < s.stop

def surrounds (s : Span) (p : Nat) : Bool := s.start < p && p < s.stop

/-- Between the two ends, both included: where a caret at `p` still belongs to the span. -/
def touches (s : Span) (p : Nat) : Bool := s.start ≤ p && p ≤ s.stop

def covers (s t : Span) : Bool := s.start ≤ t.start && t.stop ≤ s.stop

def shift (s : Span) (n : Nat) : Span := ⟨s.start + n, s.stop + n⟩

def render (s : Span) : String := toString s.start ++ ".." ++ toString s.stop

theorem between_of_le {a b : Nat} (h : a ≤ b) : between a b = ⟨a, b⟩ := by
  simp [between, Nat.min_eq_left h, Nat.max_eq_right h]

theorem contains_iff {s : Span} {p : Nat} : s.contains p = true ↔ s.start ≤ p ∧ p < s.stop := by
  simp [contains]

theorem surrounds_iff {s : Span} {p : Nat} :
    s.surrounds p = true ↔ s.start < p ∧ p < s.stop := by
  simp [surrounds]

theorem touches_iff {s : Span} {p : Nat} : s.touches p = true ↔ s.start ≤ p ∧ p ≤ s.stop := by
  simp [touches]

theorem isEmpty_of_contains {s : Span} {p : Nat} (h : s.contains p = true) : s.isEmpty = false := by
  have := contains_iff.mp h
  simp only [isEmpty, decide_eq_false_iff_not]
  omega

theorem covers_iff {s t : Span} : s.covers t = true ↔ s.start ≤ t.start ∧ t.stop ≤ s.stop := by
  simp [covers]

theorem covers_refl (s : Span) : s.covers s = true := covers_iff.mpr ⟨Nat.le_refl _, Nat.le_refl _⟩

theorem covers_trans {s t u : Span} (h : s.covers t = true) (h' : t.covers u = true) :
    s.covers u = true := by
  rw [covers_iff] at *
  omega

theorem covers_antisymm {s t : Span} (h : s.covers t = true) (h' : t.covers s = true) : s = t := by
  rw [covers_iff] at *
  cases s
  cases t
  simp only [mk.injEq] at *
  omega

end Span

end Caret
