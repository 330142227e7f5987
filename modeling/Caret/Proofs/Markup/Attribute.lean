import Caret.Markup.Attribute
import Caret.Proofs.Markup.Tag

namespace Caret.Markup

open Text

variable {code : Bytes} {i limit : Nat}

theorem bracesEnd_spec {depth : Nat} (h : bracesEnd code depth i < code.size) :
    i < bracesEnd code depth i ∧ at? code (bracesEnd code depth i - 1) = some '}' := by
  fun_induction bracesEnd code depth i with
  | case1 depth i hi hopen ih =>
    obtain ⟨hlt, hat⟩ := ih h
    exact ⟨Nat.lt_of_succ_lt hlt, hat⟩
  | case2 depth i hi hopen hclose hdepth => exact ⟨Nat.lt_succ_self i, test_beq_iff.mp hclose⟩
  | case3 depth i hi hopen hclose hdepth ih =>
    obtain ⟨hlt, hat⟩ := ih h
    exact ⟨Nat.lt_of_succ_lt hlt, hat⟩
  | case4 depth i hi hopen hclose ih =>
    obtain ⟨hlt, hat⟩ := ih h
    exact ⟨Nat.lt_of_succ_lt hlt, hat⟩
  | case5 => omega

theorem beginsValue_cases {c : Char} (h : beginsValue c = true) : c = '"' ∨ c = '\'' ∨ c = '{' := by
  simpa only [beginsValue, Bool.or_eq_true, isQuote_iff, beq_iff_eq, or_assoc] using h

def closesValue (c : Char) : Bool := isQuote c || c == '}'

theorem valueEnd_spec (hb : test beginsValue code i = true) (h : valueEnd code i < code.size) :
    i + 1 < valueEnd code i ∧ test closesValue code (valueEnd code i - 1) = true := by
  obtain ⟨c, hc, hbegins⟩ := test_iff.mp hb
  rcases beginsValue_cases hbegins with rfl | rfl | rfl
  all_goals
    simp only [valueEnd, hc] at h ⊢
  · obtain ⟨hlt, hat⟩ := past_spec (b := 34) (by decide) h
    exact ⟨hlt, by rw [test_of_at? hat]; decide⟩
  · obtain ⟨hlt, hat⟩ := past_spec (b := 39) (by decide) h
    exact ⟨hlt, by rw [test_of_at? hat]; decide⟩
  · obtain ⟨hlt, hat⟩ := bracesEnd_spec h
    exact ⟨hlt, by rw [test_of_at? hat]; decide⟩

structure Attribute.Read (code : Bytes) (limit i : Nat) (a : Attribute) : Prop where
  le_start : i ≤ a.name.start
  start_lt : a.name.start < limit
  not_gap : test isBetween code a.name.start = false
  not_end : test (· == '>') code a.name.start = false
  lt_stop : a.name.start < a.name.stop
  stop_eq : a.name.stop = attributeNameEnd code limit a.name.start
  value_eq : a.value = attributeValue? code limit a.name.stop

theorem Attribute.Read.mono {j : Nat} {a : Attribute} (h : a.Read code limit i) (hij : j ≤ i) :
    a.Read code limit j :=
  { h with le_start := Nat.le_trans hij h.le_start }

theorem read_of_mem {a : Attribute} (ha : a ∈ attributesFrom code limit i) :
    a.Read code limit i := by
  fun_induction attributesFrom code limit i with
  | case1 i hi hskip ih => exact (ih ha).mono (Nat.le_succ i)
  | case2 => simp at ha
  | case3 i hi hskip hgt stop hstop ih => exact (ih ha).mono (Nat.le_succ i)
  | case4 i hi hskip hgt stop hstop b ih =>
    rcases List.mem_cons.mp ha with rfl | ha
    · exact ⟨Nat.le_refl i, hi, Bool.eq_false_iff.mpr hskip, Bool.eq_false_iff.mpr hgt,
        Nat.lt_of_not_le hstop, rfl, rfl⟩
    · exact (ih ha).mono (by omega)
  | case5 => simp at ha

theorem attributeNameEnd_le (hi : i ≤ limit) : attributeNameEnd code limit i ≤ limit := by
  unfold attributeNameEnd
  split
  · exact Nat.min_le_left ..
  · exact skip_le _ _ hi

theorem attributeValueEnd_bounds (hl : limit ≤ code.size) (hi : i ≤ limit) :
    i ≤ attributeValueEnd code limit i ∧ attributeValueEnd code limit i ≤ limit := by
  unfold attributeValueEnd
  split
  · next hb =>
    refine ⟨Nat.le_min.mpr ⟨hi, ?_⟩, Nat.min_le_left ..⟩
    rcases Nat.lt_or_ge (valueEnd code i) code.size with hlt | hle
    · exact Nat.le_of_succ_le (Nat.le_of_lt (valueEnd_spec hb.2 hlt).1)
    · omega
  · exact ⟨le_skip .., skip_le _ _ hi⟩

theorem attributeValue?_within (hl : limit ≤ code.size) {v : Span}
    (hv : attributeValue? code limit i = some v) :
    i < v.start ∧ v.start ≤ v.stop ∧ v.stop ≤ limit := by
  simp only [attributeValue?] at hv
  split at hv
  · next hequals =>
    obtain rfl := Option.some.inj hv
    have hequals' := le_skip isBlank code limit i
    have hstart := le_skip isBlank code limit (skip isBlank code limit i + 1)
    exact ⟨by simp only; omega, attributeValueEnd_bounds hl (skip_le _ _ hequals.1)⟩
  · simp at hv

theorem Attribute.Read.bounds {a : Attribute} (h : a.Read code limit i) (hl : limit ≤ code.size) :
    a.span.start = a.name.start ∧ a.name.stop ≤ a.span.stop ∧ a.span.stop ≤ limit ∧
      ∀ v, a.value = some v → a.name.stop < v.start ∧ v.start ≤ v.stop ∧ v.stop = a.span.stop := by
  have hname : a.name.stop ≤ limit := h.stop_eq ▸ attributeNameEnd_le (Nat.le_of_lt h.start_lt)
  have hlt := h.lt_stop
  unfold Attribute.span
  cases hv : a.value with
  | none =>
    rw [Option.elim_none, Span.between_of_le (Nat.le_of_lt hlt)]
    exact ⟨rfl, Nat.le_refl _, hname, by simp⟩
  | some v =>
    obtain ⟨hstart, hle, hstop⟩ := attributeValue?_within hl (h.value_eq.symm.trans hv)
    rw [Option.elim_some, Span.between_of_le (by omega)]
    refine ⟨rfl, by simp only; omega, hstop, ?_⟩
    rintro w ⟨⟩
    exact ⟨hstart, hle, rfl⟩

theorem attributesFrom_ordered (code : Bytes) (i : Nat) (hl : limit ≤ code.size) :
    (attributesFrom code limit i).Pairwise fun a b => a.span.stop ≤ b.span.start := by
  fun_induction attributesFrom code limit i with
  | case1 i hi hskip ih => exact ih
  | case2 => exact .nil
  | case3 i hi hskip hgt stop hstop ih => exact ih
  | case4 i hi hskip hgt stop hstop a ih =>
    have hle : i ≤ a.value.elim stop (·.stop) := by
      cases hv : a.value with
      | none => exact Nat.le_of_lt (Nat.lt_of_not_le hstop)
      | some v =>
        have := attributeValue?_within hl hv
        simp only [Option.elim_some]
        omega
    have hspan : a.span = ⟨i, a.value.elim stop (·.stop)⟩ := Span.between_of_le hle
    refine List.pairwise_cons.mpr ⟨fun b hb => ?_, ih⟩
    have hread := read_of_mem hb
    rw [hspan, (hread.bounds hl).1]
    exact Nat.le_trans (Nat.le_max_right ..) hread.le_start
  | case5 => exact .nil

end Caret.Markup
