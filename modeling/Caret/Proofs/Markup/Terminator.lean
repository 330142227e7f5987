import Caret.Proofs.Markup.Attribute
import Caret.Proofs.Markup.Scanning

/-!
Where an opening tag ends for the tags of a text and for its own attributes. The tag is scanned past
quoted values and braces wherever they begin; its attributes know quotes after an equals sign only,
and take a bare value up to white space or the closing bracket.
-/

namespace Caret.Markup

open Text

variable {code : Bytes} {xml : Bool} {i p e limit stop : Nat} {closed : Bool} {t : Tag}

section opening

def terminatorOf (e : Nat) (closed : Bool) : Nat := if closed then e - 2 else e - 1

theorem openingEnd?_value (hb : test beginsValue code i = true) :
    openingEnd? code i = openingEnd? code (max (i + 1) (valueEnd code i)) := by
  obtain ⟨c, hc, hbegins⟩ := test_iff.mp hb
  have hne : c ≠ '>' ∧ c ≠ '/' := by
    rcases beginsValue_cases hbegins with rfl | rfl | rfl <;> decide
  rw [openingEnd?]
  simp [lt_size_of_at? hc, test_of_at? hc, hne, hbegins]

theorem openingEnd?_spec (h : openingEnd? code i = some (e, closed)) :
    i ≤ terminatorOf e closed ∧ terminatorOf e closed < e ∧ e ≤ terminatorOf e closed + 2 ∧
      at? code (terminatorOf e closed) = some (if closed then '/' else '>') := by
  fun_induction openingEnd? code i with
  | case1 i hi hgt =>
    obtain ⟨rfl, rfl⟩ := Prod.mk.inj (Option.some.inj h)
    simp only [terminatorOf, Bool.false_eq_true, if_false, Nat.add_sub_cancel]
    exact ⟨Nat.le_refl i, Nat.lt_succ_self i, Nat.le_succ _, test_beq_iff.mp hgt⟩
  | case2 i hi hgt hslash =>
    obtain ⟨rfl, rfl⟩ := Prod.mk.inj (Option.some.inj h)
    simp only [terminatorOf, if_true, Nat.add_sub_cancel]
    exact ⟨Nat.le_refl i, by omega, Nat.le_refl _, test_beq_iff.mp hslash.1⟩
  | case3 i hi hgt hslash hb ih =>
    obtain ⟨hle, hrest⟩ := ih h
    exact ⟨by omega, hrest⟩
  | case4 => simp at h
  | case5 i hi hgt hslash hb hlt ih =>
    obtain ⟨hle, hrest⟩ := ih h
    exact ⟨by omega, hrest⟩
  | case6 => simp at h

def InsideValue (code : Bytes) (i stop p : Nat) : Prop :=
  ∃ q, i ≤ q ∧ q < p ∧ test beginsValue code q = true ∧ p < valueEnd code q ∧ valueEnd code q ≤ stop

theorem InsideValue.mono {j : Nat} (h : InsideValue code i stop p) (hji : j ≤ i) :
    InsideValue code j stop p := by
  obtain ⟨q, hq, hrest⟩ := h
  exact ⟨q, Nat.le_trans hji hq, hrest⟩

theorem openingEnd?_visits (h : openingEnd? code i = some (e, closed)) (hip : i ≤ p)
    (hp : p < terminatorOf e closed) :
    openingEnd? code p = some (e, closed) ∨ InsideValue code i (terminatorOf e closed) p := by
  fun_induction openingEnd? code i with
  | case1 i hi hgt =>
    obtain ⟨rfl, rfl⟩ := Prod.mk.inj (Option.some.inj h)
    simp only [terminatorOf, Bool.false_eq_true, if_false] at hp
    omega
  | case2 i hi hgt hslash =>
    obtain ⟨rfl, rfl⟩ := Prod.mk.inj (Option.some.inj h)
    simp only [terminatorOf, if_true] at hp
    omega
  | case3 i hi hgt hslash hb ih =>
    rcases Nat.eq_or_lt_of_le hip with rfl | hlt
    · exact .inl ((openingEnd?_value hb).trans h)
    · rcases Nat.lt_or_ge p (valueEnd code i) with hin | hout
      · have hend := (openingEnd?_spec h).1
        exact .inr ⟨i, Nat.le_refl i, hlt, hb, hin, Nat.le_trans (Nat.le_max_right ..) hend⟩
      · exact (ih h (Nat.max_le.mpr ⟨hlt, hout⟩)).imp_right fun hin => hin.mono (by omega)
  | case4 => simp at h
  | case5 i hi hgt hslash hb hlt ih =>
    rcases Nat.eq_or_lt_of_le hip with rfl | hlt'
    · left
      rw [openingEnd?, if_pos hi, if_neg hgt, if_neg hslash, if_neg hb, if_neg hlt, h]
    · exact (ih h hlt').imp_right fun hin => hin.mono (Nat.le_succ i)
  | case6 => simp at h

def Unclosed (code : Bytes) (stop i : Nat) : Prop :=
  test beginsValue code i = true ∧ stop < valueEnd code i

theorem inside_of_unclosed (h : openingEnd? code i = some (e, closed)) (hip : i ≤ p)
    (hp : p < terminatorOf e closed) (hu : Unclosed code (terminatorOf e closed) p) :
    InsideValue code i (terminatorOf e closed) p := by
  rcases openingEnd?_visits h hip hp with hvisit | hinside
  · rw [openingEnd?_value hu.1] at hvisit
    have hend := (openingEnd?_spec hvisit).1
    have hlt := hu.2
    omega
  · exact hinside

theorem not_slash_of_openingEnd? (h : openingEnd? code i = some (e, false))
    (hi : test (· == '/') code (i - 1) = true → test (· == '>') code i = false) :
    test (· == '/') code (e - 2) = false := by
  fun_induction openingEnd? code i with
  | case1 i hsize hgt =>
    obtain ⟨rfl, -⟩ := Prod.mk.inj (Option.some.inj h)
    rw [Nat.add_sub_add_right i 1 1]
    exact Bool.eq_false_iff.mpr fun hslash => by simp [hi hslash] at hgt
  | case2 => simp at h
  | case3 i hsize hgt hslash hb ih =>
    refine ih h fun hbefore => ?_
    have hlt := (openingEnd?_bounds h).1
    have hle := (openingEnd?_bounds h).2
    -- the slash is not the end of a value, which is a quote or a brace
    obtain ⟨hnext, hcloses⟩ := valueEnd_spec hb (by omega)
    rw [Nat.max_eq_right (Nat.le_of_lt hnext)] at hbefore
    obtain ⟨c, hc, hclose⟩ := test_iff.mp hcloses
    rw [test_of_at? hc, beq_iff_eq] at hbefore
    subst hbefore
    contradiction
  | case4 => simp at h
  | case5 i hsize hgt hslash hb hlt ih =>
    refine ih h fun hbefore => Bool.eq_false_iff.mpr fun hafter => ?_
    exact hslash ⟨hbefore, hafter⟩
  | case6 => simp at h

def Tag.terminator (code : Bytes) (t : Tag) : Nat :=
  if test (· == '/') code (t.span.stop - 2) then t.span.stop - 2 else t.span.stop - 1

theorem exists_openingEnd? (ht : t ∈ tags code xml) (hk : t.kind ≠ .closing) :
    ∃ closed, openingEnd? code (nameEnd code (t.span.start + 1)) = some (t.span.stop, closed) ∧
      t.terminator code = terminatorOf t.span.stop closed := by
  obtain ⟨before, j, next, -, hscan⟩ := tagsFrom_split ht
  obtain ⟨hopening, -⟩ := resume_of_scanAt hscan hk
  obtain ⟨rfl, halpha, -, closed, hend, -⟩ := openingTag?_spec hopening
  refine ⟨closed, hend, ?_⟩
  cases closed with
  | true =>
    have hslash : at? code (t.span.stop - 2) = some '/' := (openingEnd?_spec hend).2.2.2
    exact if_pos (by rw [test_of_at? hslash]; rfl)
  | false =>
    refine if_neg (Bool.eq_false_iff.mp (not_slash_of_openingEnd? hend fun hslash => ?_))
    -- a name stands before the place where the scan of the tag begins
    have hname := lt_nameEnd halpha
    have hlast : test isNameChar code (nameEnd code (t.span.start + 1) - 1) = true :=
      test_of_lt_skip (Nat.le_sub_one_of_lt hname) (Nat.sub_one_lt_of_lt hname)
    obtain ⟨d, hd, hdn⟩ := test_iff.mp hlast
    rw [test_of_at? hd, beq_iff_eq] at hslash
    subst hslash
    contradiction

end opening

section attributes

structure Ending (code : Bytes) (stop limit : Nat) : Prop where
  lt : stop < limit
  edge : ∀ k, stop ≤ k → k < limit → at? code k = some '>' ∨ at? code k = some '/'

theorem ending_of_openingEnd? (h : openingEnd? code i = some (e, closed)) :
    Ending code (terminatorOf e closed) e := by
  obtain ⟨-, hlt, hle, hat⟩ := openingEnd?_spec h
  refine ⟨hlt, fun k hk hke => ?_⟩
  rcases Nat.eq_or_lt_of_le hk with rfl | hk
  · cases closed
    · exact .inl hat
    · exact .inr hat
  · obtain rfl : k = e - 1 := by omega
    exact .inl (at?_openingEnd? h)

/-- A bare value at an offset that runs into the slash which closes the tag. -/
def TakesSlash (code : Bytes) (stop i : Nat) : Prop :=
  at? code stop = some '/' ∧ test beginsValue code i = false ∧
    ∀ k, i ≤ k → k < stop → test (fun c => !isBlank c && c != '>') code k = true

namespace Ending

variable (h : Ending code stop limit)
include h

theorem lt_of_test {p : Char → Bool} (hp : test p code i = true) (hgt : p '>' = false)
    (hslash : p '/' = false) (hi : i < limit) : i < stop := by
  refine Nat.lt_of_not_le fun hle => ?_
  rcases h.edge i hle hi with hc | hc
  · simp [test_of_at? hc, hgt] at hp
  · simp [test_of_at? hc, hslash] at hp

theorem test_eq_false {p : Char → Bool} (hgt : p '>' = false) (hslash : p '/' = false) :
    test p code stop = false := by
  rcases h.edge stop (Nat.le_refl _) h.lt with hc | hc
  · rw [test_of_at? hc, hgt]
  · rw [test_of_at? hc, hslash]

theorem valueEnd_le_iff : min limit (valueEnd code i) ≤ stop ↔ valueEnd code i ≤ stop := by
  have := h.lt
  omega

theorem attributeNameEnd_le_iff (hi : i < stop) : attributeNameEnd code limit i ≤ stop ↔
    ¬(at? code i = some '{' ∧ Unclosed code stop i) := by
  unfold attributeNameEnd
  split
  · next hbrace =>
    have hat := test_beq_iff.mp hbrace
    have hbegins : test beginsValue code i = true := by
      rw [test_of_at? hat]
      rfl
    rw [h.valueEnd_le_iff]
    simp [hat, Unclosed, hbegins]
  · next hbrace =>
    have hle : skip (fun c => !isBlank c && c != '=' && c != '>' && c != '/') code limit i ≤ stop :=
      skip_le_of_not (Nat.le_of_lt hi) (h.test_eq_false (by decide) (by decide))
    have hne : at? code i ≠ some '{' := fun hat => hbrace (by rw [test_of_at? hat]; rfl)
    simp [hle, hne]

theorem attributeValueEnd_le_iff (hi : i ≤ stop) : attributeValueEnd code limit i ≤ stop ↔
    ¬Unclosed code stop i ∧ ¬TakesSlash code stop i := by
  unfold attributeValueEnd
  split
  · next hbegins =>
    rw [h.valueEnd_le_iff]
    simp [Unclosed, TakesSlash, hbegins.2]
  · next hbare =>
    have hbegins : test beginsValue code i = false :=
      Bool.eq_false_iff.mpr fun hb => hbare ⟨Nat.lt_of_le_of_lt hi h.lt, hb⟩
    simp only [Unclosed, hbegins, Bool.false_eq_true, false_and, not_false_eq_true, true_and]
    constructor
    · rintro hle ⟨hslash, -, hall⟩
      have hlt := Nat.lt_of_le_of_lt hle h.lt
      have hstops := test_skip hlt
      have hfrom := le_skip (fun c => !isBlank c && c != '>') code limit i
      rcases Nat.eq_or_lt_of_le hle with heq | hlt'
      · rw [heq, test_of_at? hslash] at hstops
        contradiction
      · rw [hall _ hfrom hlt'] at hstops
        contradiction
    · intro hnot
      refine Nat.le_of_not_lt fun hlt => hnot ⟨?_, hbegins, fun k hik hk => ?_⟩
      · have hpast := test_of_lt_skip hi hlt
        refine (h.edge stop (Nat.le_refl _) h.lt).resolve_left fun hgt => ?_
        simp [test_of_at? hgt] at hpast
      · exact test_of_lt_skip hik (Nat.lt_trans hk hlt)

theorem attributeValue?_bounds {v : Span} (hv : attributeValue? code limit i = some v) :
    i ≤ v.start ∧ v.start ≤ stop ∧ v.stop = attributeValueEnd code limit v.start := by
  simp only [attributeValue?] at hv
  split at hv
  · next hequals =>
    obtain rfl := Option.some.inj hv
    have hlt := h.lt_of_test hequals.2 (by decide) (by decide) hequals.1
    have hequals' := le_skip isBlank code limit i
    have hstart := le_skip isBlank code limit (skip isBlank code limit i + 1)
    exact ⟨by simp only; omega, skip_le_of_not hlt (h.test_eq_false (by decide) (by decide)), rfl⟩
  · simp at hv

end Ending

theorem Ending.parts_bounds (h : Ending code stop limit) {a : Attribute}
    (ha : a ∈ attributesFrom code limit i) : a.name.start < stop ∧
      ∀ s, s = a.name ∨ a.value = some s → i ≤ s.start ∧ s.start ≤ stop := by
  have hread := read_of_mem ha
  have hstart : a.name.start < stop := by
    refine Nat.lt_of_not_le fun hstop => ?_
    rcases h.edge _ hstop hread.start_lt with hc | hc
    · simpa [test_of_at? hc] using hread.not_end
    · simpa [test_of_at? hc, isBetween] using hread.not_gap
  refine ⟨hstart, fun s hs => ?_⟩
  rcases hs with rfl | hs
  · exact ⟨hread.le_start, Nat.le_of_lt hstart⟩
  · obtain ⟨hfrom, hto, -⟩ := h.attributeValue?_bounds (hread.value_eq.symm.trans hs)
    exact ⟨Nat.le_trans hread.le_start (Nat.le_trans (Nat.le_of_lt hread.lt_stop) hfrom), hto⟩

/-- The name and the value of an attribute end before the `>` or `/>` that ends the tag, unless a
brace or a quote is not closed there or a bare value takes in the slash. A brace or a quote that is
not closed stands inside of another value, where the tag was scanned past it. -/
theorem attribute_within_iff (ht : t ∈ tags code xml) (hk : t.kind ≠ .closing) {a : Attribute}
    (ha : a ∈ attributes code t.span) :
    let stop := t.terminator code
    (a.name.stop ≤ stop ↔
      ¬(at? code a.name.start = some '{' ∧ Unclosed code stop a.name.start)) ∧
    (∀ v, a.value = some v →
      (v.stop ≤ stop ↔ ¬Unclosed code stop v.start ∧ ¬TakesSlash code stop v.start)) ∧
    ∀ s, s = a.name ∨ a.value = some s → Unclosed code stop s.start →
      InsideValue code (nameEnd code (t.span.start + 1)) stop s.start := by
  obtain ⟨closed, hopening, hstop⟩ := exists_openingEnd? ht hk
  have hend := ending_of_openingEnd? hopening
  rw [attributes, Nat.min_eq_left (openingEnd?_bounds hopening).2] at ha
  obtain ⟨hname, hparts⟩ := hend.parts_bounds ha
  have hread := read_of_mem ha
  simp only [hstop]
  refine ⟨?_, fun v hv => ?_, fun s hs hu => ?_⟩
  · rw [hread.stop_eq]
    exact hend.attributeNameEnd_le_iff hname
  · obtain ⟨-, hstart, hvalueEnd⟩ := hend.attributeValue?_bounds (hread.value_eq.symm.trans hv)
    rw [hvalueEnd]
    exact hend.attributeValueEnd_le_iff hstart
  · obtain ⟨hfrom, hto⟩ := hparts s hs
    have hlt := hend.lt_of_test hu.1 (by decide) (by decide) (Nat.lt_of_le_of_lt hto hend.lt)
    exact inside_of_unclosed hopening hfrom hlt hu

theorem attribute_within_apostrophe :
    let a : Attribute := ⟨⟨10, 11⟩, some ⟨12, 14⟩⟩
    a ∈ attributes (bytes "<a x=it's y='>") ⟨0, 14⟩ ∧ Unclosed (bytes "<a x=it's y='>") 13 12 ∧
      InsideValue (bytes "<a x=it's y='>") 2 13 12 := by
  intro a
  have htags : tags (bytes "<a x=it's y='>") false = [⟨"a", .opening, ⟨0, 14⟩⟩] := by
    decide +kernel
  have ht : (⟨"a", .opening, ⟨0, 14⟩⟩ : Tag) ∈ tags (bytes "<a x=it's y='>") false := by
    rw [htags]
    exact List.mem_singleton_self _
  have ha : a ∈ attributes (bytes "<a x=it's y='>") ⟨0, 14⟩ := by decide +kernel
  have hu : Unclosed (bytes "<a x=it's y='>") 13 12 := ⟨by decide +kernel, by decide +kernel⟩
  have hname : nameEnd (bytes "<a x=it's y='>") 1 = 2 := by decide +kernel
  have hstop : (⟨"a", .opening, ⟨0, 14⟩⟩ : Tag).terminator (bytes "<a x=it's y='>") = 13 := by
    decide +kernel
  have hinside := (attribute_within_iff ht (by decide) ha).2.2 ⟨12, 14⟩ (.inr rfl)
  simp only [hstop, Nat.zero_add, hname] at hinside
  exact ⟨ha, hu, hinside hu⟩

theorem attribute_not_within : ∃ t ∈ tags (bytes "<a b=c/>") false, t.kind ≠ .closing ∧
    ∃ a ∈ attributes (bytes "<a b=c/>") t.span, ∃ v, a.value = some v ∧
      t.terminator (bytes "<a b=c/>") < v.stop := by
  have htags : tags (bytes "<a b=c/>") false = [⟨"a", .selfClosing, ⟨0, 8⟩⟩] := by decide +kernel
  have ha : (⟨⟨3, 4⟩, some ⟨5, 7⟩⟩ : Attribute) ∈ attributes (bytes "<a b=c/>") ⟨0, 8⟩ := by
    decide +kernel
  refine ⟨⟨"a", .selfClosing, ⟨0, 8⟩⟩, ?_, by decide, _, ha, ⟨5, 7⟩, rfl, by decide +kernel⟩
  rw [htags]
  exact List.mem_singleton_self _

end attributes

end Caret.Markup
