import Caret.Proofs.Abbreviation.Completeness

namespace Caret.Abbreviation

open Text

variable {marker : List UInt8} {line code : Bytes} {cursor s i j : Nat} {opening : Char}
  {l a r x y : String}

theorem skipBack_of_stands {p : Char → Bool} (h : Stands line s (units code)) (hi : i ≤ code.size)
    (h0 : 0 < skipBack p code 0 i) : skipBack p line 0 (s + i) = s + skipBack p code 0 i := by
  have hat {k : Nat} (hk : k < code.size) : test p line (s + k) = test p code k := by
    obtain ⟨c, hc⟩ := at?_of_lt hk
    rw [test_of_at? hc, test_of_at? (h k c (by rw [getElem?_units, hc]))]
  have hle := skipBack_le p code 0 i
  refine skipBack_eq (Nat.add_le_add_left hle s) (fun k hk hki => ?_) fun _ => ?_
  · obtain ⟨k, rfl⟩ := Nat.exists_eq_add_of_le (Nat.le_of_add_right_le hk)
    have hki' : k < i := by omega
    rw [hat (by omega)]
    exact test_of_skipBack_le hki' (Nat.le_of_add_le_add_left hk)
  · rw [Nat.add_sub_assoc h0, hat (by omega)]
    exact test_skipBack h0

theorem groupStart?_of_stands (h : Stands line s (units code)) (hi : i ≤ code.size)
    (hg : groupStart? opening code i = some j) :
    groupStart? opening line (s + i) = some (s + j) := by
  have hat {k : Nat} {c : Char} (hc : at? code k = some c) : at? line (s + k) = some c :=
    h k c (by rw [getElem?_units, hc])
  fun_induction groupStart? opening code i with
  | case1 => simp at hg
  | case2 => simp at hg
  | case3 i hc =>
    obtain rfl := Option.some.inj hg
    rw [Nat.add_succ, groupStart?, hat hc]
    exact if_pos rfl
  | case4 i c hc ho hq quote h0 ih =>
    have hle : quote ≤ i := skipBack_le ..
    have hback : skipBack (· != c) line 0 (s + i) = s + quote :=
      skipBack_of_stands h (Nat.le_of_succ_le hi) h0
    rw [Nat.add_succ, groupStart?, hat hc]
    simp only [ho, hq, hback, if_false, if_true]
    rw [if_pos (by omega), Nat.add_sub_assoc h0]
    exact ih (by omega) hg
  | case5 => simp at hg
  | case6 i c hc ho hq ih =>
    rw [Nat.add_succ, groupStart?, hat hc]
    simp only [ho, hq, if_false, Bool.false_eq_true]
    exact ih (Nat.le_of_succ_le hi) hg

def closesGroup (c : Char) : Bool := c == ']' || c == '}'

theorem groupBefore?_of_stands (h : Stands line s (units code)) (hi : i < code.size)
    (hg : groupBefore? code (i + 1) = some j) :
    groupBefore? line (s + i + 1) = some (s + j) := by
  obtain ⟨c, hc⟩ := at?_of_lt hi
  have hat : at? line (s + i) = some c := h i c (by rw [getElem?_units, hc])
  simp only [groupBefore?, Nat.add_sub_cancel, hc, hat] at hg ⊢
  by_cases hs : c = ']'
  · subst hs
    exact groupStart?_of_stands h (Nat.le_of_lt hi) hg
  · by_cases hb : c = '}'
    · subst hb
      exact groupStart?_of_stands h (Nat.le_of_lt hi) hg
    · simp [hs, hb] at hg

theorem groupBefore?_eq_none {c : Char} (hc : at? line i = some c) (h : closesGroup c = false) :
    groupBefore? line (i + 1) = none := by
  obtain ⟨hs, hb⟩ : c ≠ ']' ∧ c ≠ '}' := by simpa [closesGroup] using h
  simp [groupBefore?, hc, hs, hb]

theorem pastMarker?_of_group (h0 : 0 < cursor) (h : groupBefore? line cursor = some j) :
    pastMarker? marker line cursor = pastMarker? marker line j := by
  rw [pastMarker?, if_neg (Nat.ne_of_gt h0)]
  split
  · next hg =>
    obtain rfl := Option.some.inj (h.symm.trans hg)
    rfl
  · next hg => simp [h] at hg

theorem pastMarker?_of_none (h0 : 0 < cursor) (h : groupBefore? line cursor = none) :
    pastMarker? marker line cursor =
      if marker.length ≤ cursor ∧ holdsAt line cursor marker (cursor - marker.length) then
        some cursor
      else pastMarker? marker line (cursor - 1) := by
  rw [pastMarker?, if_neg (Nat.ne_of_gt h0)]
  split
  · next hg => simp [h] at hg
  · rfl

theorem holdsAt_angle : holdsAt code (i + 1) (bytes "<").toList i = true ↔
    at? code i = some '<' := by
  have hword : (bytes "<").toList = [60] := rfl
  rw [hword]
  constructor
  · intro h
    have hb : code[i]? = some 60 := by simpa [holdsAt] using h
    rw [at?, hb]
    rfl
  · intro h
    obtain ⟨b, hb, hc⟩ := Option.map_eq_some_iff.mp h
    obtain rfl : b = 60 := by
      apply UInt8.toNat_inj.mp
      rw [← toNat_ofUInt8, hc]
      rfl
    simp [holdsAt, hb]

/-- Each closing square bracket or brace of the text finds an opening one in it. -/
def Contained (a : String) : Prop :=
  ∀ i, test closesGroup (bytes a) i = true → (groupBefore? (bytes a) (i + 1)).isSome = true

def beginsTag (text : List Char) : Bool :=
  text.contains '>' && isTagInside (text.takeWhile (· != '>'))

theorem pastMarker?_of_contained (ha : Contained a) (hlt : '<' ∉ a.toList)
    (hat : at? line i = some '<') (h : Stands line (i + 1) (encode a.toList))
    (hj : j ≤ (bytes a).size) :
    pastMarker? (bytes "<").toList line (i + 1 + j) = some (i + 1) := by
  induction j using Nat.strongRecOn with
  | _ j ih =>
    cases j with
    | zero =>
      rw [Nat.add_zero, pastMarker?_of_none (Nat.succ_pos i) (groupBefore?_eq_none hat rfl),
        if_pos ⟨Nat.succ_le_succ (Nat.zero_le i), holdsAt_angle.mpr hat⟩]
    | succ j =>
      have hlt' : j < (bytes a).size := hj
      obtain ⟨c, hc⟩ := at?_of_lt hlt'
      have hcl : at? line (i + 1 + j) = some c :=
        h j c (by rw [← units_bytes, getElem?_units, hc])
      rw [← Nat.add_assoc]
      cases hclose : closesGroup c with
      | true =>
        obtain ⟨k, hk⟩ := Option.isSome_iff_exists.mp (ha j (by rw [test_of_at? hc, hclose]))
        have hkj := groupBefore?_lt hk
        rw [← units_bytes] at h
        rw [pastMarker?_of_group (Nat.succ_pos _) (groupBefore?_of_stands h hlt' hk)]
        exact ih k hkj (by omega)
      | false =>
        rw [pastMarker?_of_none (Nat.succ_pos _) (groupBefore?_eq_none hcl hclose), if_neg]
        · exact ih j (Nat.lt_succ_self j) (Nat.le_of_lt hlt')
        · rintro ⟨-, hm⟩
          obtain rfl := Option.some.inj (hcl.symm.trans (holdsAt_angle.mp hm))
          exact hlt (mem_of_at? (by decide) hc)

theorem takeWhile_append_gt {u v : List Char} (hu : '>' ∉ u) :
    (u ++ '>' :: v).takeWhile (· != '>') = u := by
  have hne : ∀ c ∈ u, (c != '>') = true := by
    intro c hc
    refine bne_iff_ne.mpr ?_
    rintro rfl
    exact hu hc
  rw [List.takeWhile_append_of_pos hne, List.takeWhile_cons_of_neg (by simp), List.append_nil]

theorem beginsTag_iff {text : List Char} : beginsTag text = true ↔
    ∃ u v, text = u ++ '>' :: v ∧ '>' ∉ u ∧ isTagInside u = true := by
  simp only [beginsTag, Bool.and_eq_true, List.contains_eq_mem, decide_eq_true_eq]
  constructor
  · rintro ⟨hmem, hinside⟩
    obtain ⟨u, v, rfl, hu⟩ := List.eq_append_cons_of_mem hmem
    rw [takeWhile_append_gt hu] at hinside
    exact ⟨u, v, rfl, hu, hinside⟩
  · rintro ⟨u, v, rfl, hu, hinside⟩
    rw [takeWhile_append_gt hu]
    exact ⟨by simp, hinside⟩

theorem size_append_angle (l : String) : (bytes (l ++ "<")).size = (bytes l).size + 1 := by
  rw [bytes_append, Array.size_append]
  rfl

theorem at?_angle (l a : String) : at? (bytes (l ++ "<" ++ a)) (bytes l).size = some '<' :=
  (stands_bytes l "<" a).head

theorem exists_endsTag_iff {kind : Kind} (hw : WellBracketed kind none a.toList)
    (hlt : '<' ∉ a.toList) :
    (∃ x y : String, a = x ++ ">" ++ y ∧ WellBracketed kind none x.toList ∧
      WellBracketed kind none y.toList ∧ endsTag (bytes (l ++ "<" ++ a ++ r))
        ((bytes (l ++ "<")).size + (bytes x).size + 1) = true) ↔ beginsTag a.toList = true := by
  have hends {x y : String} (ha : a = x ++ ">" ++ y) :
      endsTag (bytes (l ++ "<" ++ a ++ r)) ((bytes (l ++ "<")).size + (bytes x).size + 1) = true ↔
        '>' ∉ x.toList ∧ isTagInside x.toList = true := by
    have hst := stands_bytes (l ++ "<") a r
    rw [ha, encode_parts, ← ha, size_append_angle] at hst
    have hgt := hst.right.head
    rw [length_encode] at hgt
    have hline : l ++ "<" ++ a ++ r = l ++ "<" ++ x ++ (">" ++ y ++ r) := by
      simp [ha, String.append_assoc]
    have hread := read_bytes_append (l ++ "<") x (">" ++ y ++ r)
    rw [← hline, size_append_angle] at hread
    have hat : at? (bytes (l ++ "<" ++ a ++ r)) (bytes l).size = some '<' := by
      rw [String.append_assoc]
      exact at?_angle l (a ++ r)
    rw [size_append_angle]
    refine endsTag_behind hat hst.left hgt hread fun hx => hlt ?_
    simp [ha, hx]
  rw [beginsTag_iff]
  constructor
  · rintro ⟨x, y, ha, -, -, htag⟩
    obtain ⟨hgt, hinside⟩ := (hends ha).mp htag
    exact ⟨x.toList, y.toList, by simp [ha], hgt, hinside⟩
  · rintro ⟨u, v, ha, hgt, hinside⟩
    have hxy : a = .ofList u ++ ">" ++ .ofList v := by
      apply String.toList_inj.mp
      simp [ha]
    rw [ha] at hw
    obtain ⟨hu, hv⟩ := wellBracketed_of_isTagInside hinside hw
    refine ⟨.ofList u, .ofList v, hxy, ?_, ?_, (hends hxy).mpr ?_⟩
    · rwa [String.toList_ofList]
    · rwa [String.toList_ofList]
    · rw [String.toList_ofList]
      exact ⟨hgt, hinside⟩

theorem goBack_marked_iff {kind : Kind} (hw : WellBracketed kind none a.toList)
    (hlt : '<' ∉ a.toList) :
    goBack kind (bytes (l ++ "<" ++ a ++ r)) (bytes (l ++ "<")).size
      ((bytes (l ++ "<")).size + (bytes a).size) [] = .ok ((bytes (l ++ "<")).size, []) ↔
        beginsTag a.toList = false := by
  have hst := stands_bytes (l ++ "<") a r
  rw [← Bool.not_eq_true, ← exists_endsTag_iff (l := l) (r := r) hw hlt]
  constructor
  · rintro hg ⟨x, y, ha, -, hy, htag⟩
    have hle := le_of_goBack hst ha hy htag (Nat.le_refl _) hg
    omega
  · intro hnone
    have hback := goBack_wellBracketed (wellBracketed_encode.mpr hw) .outside hst (Nat.le_refl _)
    rw [length_encode, goBack_start] at hback
    rcases hback with hpass | ⟨-, u, v, hparts, -⟩
    · exact hpass
    · obtain ⟨x, y, ha, -, hx, hy, htag⟩ := hparts.exists_append
      exact absurd ⟨x, y, ha, hx, hy, htag⟩ hnone

theorem goBack_of_scan_marked
    (h : scan { kind := .markup, marker := some "<", lookAhead := false }
        (bytes (l ++ "<" ++ a ++ r)) ((bytes l).size + 1 + (bytes a).size) =
      .ok (some
        { abbreviation := a
          start := (bytes l).size
          location := (bytes l).size + 1
          stop := (bytes l).size + 1 + (bytes a).size })) :
    pastMarker? (bytes "<").toList (bytes (l ++ "<" ++ a ++ r))
        ((bytes l).size + 1 + (bytes a).size) = some ((bytes l).size + 1) ∧
      goBack .markup (bytes (l ++ "<" ++ a ++ r)) ((bytes l).size + 1)
        ((bytes l).size + 1 + (bytes a).size) [] = .ok ((bytes l).size + 1, []) := by
  obtain ⟨start, cursor, hl, hg, hstop, hloc, -, -, hstart⟩ := scan_eq_some h
  rw [← hstop] at hl hg
  have hlen := limit?_length (by decide) hl
  have hstart' : start = (bytes l).size + 1 := by
    have hword : ({ kind := .markup, marker := some "<", lookAhead := false } :
      Options).word.length = 1 := rfl
    rw [if_neg (by decide), hword] at hstart
    rw [hword] at hlen
    simp only at hstart
    omega
  subst hstart'
  have hbound := isBoundary_origin
    { kind := .markup, marker := some "<", lookAhead := false } (l ++ "<" ++ a ++ r)
    ((bytes l).size + 1 + (bytes a).size)
  rw [← hstop] at hbound
  obtain ⟨hfrom, -⟩ := goBack_rest hbound (limit?_le hl) hg
  have hskip := le_skip isJoint (bytes (l ++ "<" ++ a ++ r))
    ((bytes l).size + 1 + (bytes a).size) cursor
  obtain rfl : cursor = (bytes l).size + 1 := by
    simp only at hloc
    omega
  exact ⟨hl, hg⟩

/-- Text behind an opening angle bracket is found whole exactly if that bracket is the marker found
and begins no tag. It is the one found, whatever stands before it, if the text closes only groups
that it opens. -/
theorem scan_marked_iff (hw : WellBracketed .markup none a.toList) (ha : a ≠ "")
    (hj : ∀ c ∈ a.toList.head?, isJoint c = false) (hlt : '<' ∉ a.toList) :
    (scan { kind := .markup, marker := some "<", lookAhead := false } (bytes (l ++ "<" ++ a ++ r))
        ((bytes l).size + 1 + (bytes a).size) =
      .ok (some
        { abbreviation := a
          start := (bytes l).size
          location := (bytes l).size + 1
          stop := (bytes l).size + 1 + (bytes a).size }) ↔
      pastMarker? (bytes "<").toList (bytes (l ++ "<" ++ a ++ r))
          ((bytes l).size + 1 + (bytes a).size) = some ((bytes l).size + 1) ∧
        beginsTag a.toList = false) ∧
    (Contained a → pastMarker? (bytes "<").toList (bytes (l ++ "<" ++ a ++ r))
      ((bytes l).size + 1 + (bytes a).size) = some ((bytes l).size + 1)) := by
  have hsize := size_append_angle l
  have hback := goBack_marked_iff (l := l) (r := r) hw hlt
  rw [hsize] at hback
  refine ⟨⟨fun h => ?_, fun ⟨hl, htag⟩ => ?_⟩, fun hc => ?_⟩
  · exact (goBack_of_scan_marked h).imp_right hback.mp
  · have hscan := scan_of_goBack (l := l ++ "<") (r := r)
      { kind := .markup, marker := some "<", lookAhead := false } rfl ha hj hw
      (hsize.symm ▸ hl) (hsize.symm ▸ hback.mpr htag)
    rw [hsize] at hscan
    exact hscan
  · have hst := stands_bytes (l ++ "<") a r
    rw [hsize] at hst
    refine pastMarker?_of_contained hc hlt ?_ hst (Nat.le_refl _)
    rw [String.append_assoc]
    exact at?_angle l (a ++ r)

theorem scan_marked_brackets :
    (scan { kind := .markup, marker := some "<", lookAhead := false }
        (bytes ("é " ++ "<" ++ "p[t]>b" ++ "")) ((bytes "é ").size + 1 + (bytes "p[t]>b").size) =
      .ok (some ⟨"p[t]>b", (bytes "é ").size, (bytes "é ").size + 1,
        (bytes "é ").size + 1 + (bytes "p[t]>b").size⟩) ↔
      pastMarker? (bytes "<").toList (bytes ("é " ++ "<" ++ "p[t]>b" ++ ""))
          ((bytes "é ").size + 1 + (bytes "p[t]>b").size) = some ((bytes "é ").size + 1) ∧
        beginsTag "p[t]>b".toList = false) ∧
    (Contained "p[t]>b" → pastMarker? (bytes "<").toList
      (bytes ("é " ++ "<" ++ "p[t]>b" ++ "")) ((bytes "é ").size + 1 + (bytes "p[t]>b").size) =
        some ((bytes "é ").size + 1)) := by
  have hinside : WellBracketed .markup (some ']') ['t'] := .plain rfl .nil
  have hrest : WellBracketed .markup none ['>', 'b'] := .plain rfl (.plain rfl .nil)
  have hw : WellBracketed .markup none "p[t]>b".toList :=
    .plain rfl (.group rfl rfl (by simp) hinside hrest)
  exact scan_marked_iff hw (by decide) (by simp [isJoint]) (by decide)

theorem scan_marked_tag : WellBracketed .markup none "ul>li".toList ∧
    scan { kind := .markup, marker := some "<", lookAhead := false }
      (bytes ("" ++ "<" ++ "ul>li" ++ "")) 6 = .ok (some ⟨"li", 0, 4, 6⟩) := by
  have hw : WellBracketed .markup none "ul>li".toList :=
    .plain rfl (.plain rfl (.plain rfl (.plain rfl (.plain rfl .nil))))
  have hscan : scan { kind := .markup, marker := some "<", lookAhead := false }
      (bytes ("" ++ "<" ++ "ul>li" ++ "")) 6 = .ok (some ⟨"li", 0, 4, 6⟩) := by
    with_unfolding_all rfl
  exact ⟨hw, hscan⟩

end Caret.Abbreviation
