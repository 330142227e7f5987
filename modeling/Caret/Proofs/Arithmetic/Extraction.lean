import Caret.Proofs.Arithmetic.Extent

namespace Caret.Arithmetic

open Text

def lastSolid? (before : String) : Option Char :=
  (before.toList.reverse.takeWhile (· != '\n')).find? (!isSpace ·)

def goesOn (c : Char) : Bool := isNumberChar c || isOperator c || c == ')'

section line

variable {code : Bytes} {i : Nat} {w : String}

theorem exists_lastLine (before : String) : ∃ (l m : String) (b : Gap),
    before = l ++ m ++ b.text ∧ (l = "" ∨ ∃ l', l = l' ++ .singleton '\n') ∧
      '\n' ∉ m.toList ∧ m.toList.getLast? = lastSolid? before := by
  obtain ⟨chars, hchars⟩ : ∃ chars, before.toList.reverse = chars := ⟨_, rfl⟩
  obtain ⟨line, hline⟩ : ∃ line, chars.takeWhile (· != '\n') = line := ⟨_, rfl⟩
  have hsplit := List.takeWhile_append_dropWhile (p := (· != '\n')) (l := chars)
  have hspaces := List.takeWhile_append_dropWhile (p := isSpace) (l := line)
  rw [hline] at hsplit
  refine ⟨.ofList (chars.dropWhile (· != '\n')).reverse, .ofList (line.dropWhile isSpace).reverse,
    ⟨.ofList (line.takeWhile isSpace).reverse, ?_⟩, ?_, ?_, ?_, ?_⟩
  · intro c hc
    rw [String.toList_ofList, List.mem_reverse] at hc
    exact List.mem_takeWhile_imp hc
  · apply String.toList_inj.mp
    rw [String.toList_append, String.toList_append, String.toList_ofList, String.toList_ofList,
      String.toList_ofList, List.append_assoc, ← List.reverse_append, hspaces,
      ← List.reverse_append, hsplit, ← hchars, List.reverse_reverse]
  · cases hd : chars.dropWhile (· != '\n') with
    | nil => exact .inl rfl
    | cons c rest =>
      have hc := List.head?_dropWhile_not (· != '\n') chars
      simp only [hd, List.head?_cons, bne_eq_false_iff_eq] at hc
      subst hc
      refine .inr ⟨.ofList rest.reverse, String.toList_inj.mp ?_⟩
      simp
  · rw [String.toList_ofList, List.mem_reverse]
    intro hc
    have hmem : '\n' ∈ line := by
      rw [← hspaces]
      exact List.mem_append_right _ hc
    rw [← hline] at hmem
    exact absurd (List.mem_takeWhile_imp hmem) (by decide)
  · rw [String.toList_ofList, List.getLast?_reverse, lastSolid?, hchars, hline,
      List.find?_eq_head?_dropWhile_not]
    simp

theorem lineSpan_last (h : Written code i w) (hend : i + (bytes w).size = code.size)
    (hstart : 0 < i → at? code (i - 1) = some '\n') (hw : '\n' ∉ w.toList)
    (hreturn : test (· == '\r') code (code.size - 1) = false) :
    lineSpan code code.size = ⟨i, code.size⟩ := by
  have hall : ∀ k, i ≤ k → k < code.size → test (· != '\n') code k = true := by
    intro k hik hk
    refine h.test (forall_encode_of_forall (fun c hc => ?_) fun c hc => ?_) hik (hend ▸ hk)
    · exact bne_iff_ne.mpr (by rintro rfl; exact absurd hc (by decide))
    · exact bne_iff_ne.mpr (by rintro rfl; exact hw hc)
  have hback : skipBack (· != '\n') code 0 code.size = i := by
    refine skipBack_eq (by omega) hall fun hi => ?_
    rw [test_of_at? (hstart hi)]
    rfl
  have hskip : skip (· != '\n') code code.size code.size = code.size :=
    Nat.le_antisymm (skip_le _ _ (Nat.le_refl _)) (le_skip ..)
  simp [lineSpan, clamp, hback, hskip, hreturn]

end line

theorem isSolid_ascii {c : Char} (h : isSolid c = true) : c.toNat < 128 := by
  simp only [isSolid, Bool.or_eq_true, beq_iff_eq] at h
  rcases h with ((h | h) | rfl) | rfl
  · exact isNumberChar_ascii h
  · exact isOperator_ascii h
  · decide
  · decide

theorem not_isBlank_of_isSolid {c : Char} (h : isSolid c = true) : isBlank c = false := by
  simp only [isSolid, Bool.or_eq_true, beq_iff_eq] at h
  rcases h with ((h | h) | rfl) | rfl
  · exact not_isBlank_of_isNumberChar h
  · rcases isOperator_iff.mp h with rfl | rfl | rfl | rfl | rfl <;> rfl
  · rfl
  · rfl

theorem goesOn_ascii {c : Char} (h : (isSpace c || goesOn c) = true) : c.toNat < 128 := by
  simp only [goesOn, Bool.or_eq_true, beq_iff_eq] at h
  rcases h with h | (h | h) | rfl
  · exact isSpace_ascii h
  · exact isNumberChar_ascii h
  · exact isOperator_ascii h
  · decide

section extract

variable {m : String} (b : Gap) (e : Expression)
  (hm : ∀ c, m.toList.getLast? = some c → (isSpace c || goesOn c) = false)
include hm

theorem goBack_edge {line : Bytes} (h : Written line 0 m) :
    goBack true line (bytes m).size 0 = ((bytes m).size, 0) ∧ Begins line (bytes m).size := by
  cases hsize : (bytes m).size with
  | zero =>
    refine ⟨?_, fun h0 => absurd h0 (Nat.lt_irrefl 0)⟩
    rw [goBack]
    simp
  | succ k =>
    have hedge : test (fun c => isSpace c || goesOn c) line k = false := by
      obtain ⟨c, hc⟩ : ∃ c, m.toList.getLast? = some c := by
        refine ⟨_, List.getLast?_eq_some_getLast fun hnil => ?_⟩
        rw [String.toList_eq_nil_iff.mp hnil] at hsize
        simp [bytes_empty] at hsize
      have hlast := h.test_last (fun _ => goesOn_ascii) hc
      rwa [hm c hc, Nat.zero_add, hsize, Nat.add_sub_cancel] at hlast
    obtain ⟨u, hu⟩ : ∃ u, at? line k = some u := by
      have hget := h.getElem? (k := k) (by omega)
      rw [Nat.zero_add] at hget
      exact at?_of_lt (Array.getElem?_eq_some_iff.mp
        (hget.trans (Array.getElem?_eq_getElem (by omega)))).1
    rw [test_of_at? hu, goesOn, Bool.or_eq_false_iff, Bool.or_eq_false_iff,
      Bool.or_eq_false_iff] at hedge
    obtain ⟨hspace, ⟨hnumber, hoperator⟩, hclose⟩ := hedge
    refine ⟨?_, .of_at? hu hnumber⟩
    rw [goBack_of_at? hu hnumber, if_neg (by simpa using hclose)]
    simp [hspace, hoperator]

theorem extract?_last :
    extract? {} (bytes (m ++ b.text ++ e.text)) (bytes (m ++ b.text ++ e.text)).size =
      some ⟨(bytes m).size + (bytes b.text).size, (bytes (m ++ b.text ++ e.text)).size⟩ := by
  have hwritten := written_self (m ++ b.text ++ e.text)
  have hsize : (bytes (m ++ b.text ++ e.text)).size =
      (bytes m).size + (bytes b.text).size + (bytes e.text).size := by
    rw [size_bytes_append, size_bytes_append]
  generalize bytes (m ++ b.text ++ e.text) = line at hwritten hsize ⊢
  simp only [written_append, size_bytes_append, Nat.zero_add] at hwritten
  obtain ⟨⟨hleft, hgap⟩, hright⟩ := hwritten
  obtain ⟨hstop, hbegins⟩ := goBack_edge hm hleft
  have hback : goBack true line line.size 0 = ((bytes m).size, 0) := by
    rw [hsize, e.goBack_eq hright (.of_gap b hgap hbegins), goBack_gap b hgap, hstop]
  obtain ⟨c, hhead, hsolid⟩ := e.head_text
  have hfirst := hright.at? hhead (isSolid_ascii hsolid)
  have hlt := lt_size_of_at? hfirst
  have hskip : skip isSpace line line.size (bytes m).size =
      (bytes m).size + (bytes b.text).size := by
    refine skip_eq (Nat.le_add_right ..) (Nat.le_of_lt hlt) (fun k => b.test hgap) fun _ => ?_
    rw [test_of_at? hfirst, Bool.eq_false_iff]
    intro hs
    exact Bool.false_ne_true ((not_isBlank_of_isSolid hsolid).symm.trans (isBlank_of_isSpace hs))
  rw [extract?_size, hback, hskip]
  exact if_neg (by omega)

end extract

theorem mem_line {m : String} (b : Gap) (e : Expression) {c : Char} (hm : c ∉ m.toList)
    (hs : isSpace c = false) (hc : isSolid c = false) :
    c ∉ (m ++ b.text ++ e.text).toList := by
  rw [String.toList_append, String.toList_append, List.mem_append, List.mem_append]
  rintro ((h | h) | h)
  · exact hm h
  · exact Bool.false_ne_true (hs.symm.trans (b.all c h))
  · rcases e.mem_text c h with h | h
    · exact Bool.false_ne_true (hc.symm.trans h)
    · exact Bool.false_ne_true (hs.symm.trans h)

theorem Expression.last_ne_return (e : Expression) {code : Bytes} {i : Nat}
    (h : Written code i e.text) (hend : i + (bytes e.text).size = code.size) :
    test (· == '\r') code (code.size - 1) = false := by
  obtain ⟨c, hc⟩ : ∃ c, e.text.toList.getLast? = some c := by
    obtain ⟨d, hhead, -⟩ := e.head_text
    refine ⟨_, List.getLast?_eq_some_getLast fun hnil => ?_⟩
    simp [hnil] at hhead
  have hlast := h.test_last (p := (· == '\r')) (by simp only [beq_iff_eq]; rintro c rfl; decide) hc
  rw [hend] at hlast
  rw [hlast]
  refine beq_false_of_ne ?_
  rintro rfl
  rcases e.mem_text '\r' (List.mem_of_getLast? hc) with h | h <;> exact absurd h (by decide)

theorem lineSpan_expression {l m : String} (b : Gap) (e : Expression)
    (hl : l = "" ∨ ∃ l', l = l' ++ .singleton '\n') (hm : '\n' ∉ m.toList) :
    lineSpan (bytes (l ++ (m ++ b.text ++ e.text))) (bytes (l ++ (m ++ b.text ++ e.text))).size =
      ⟨(bytes l).size, (bytes (l ++ (m ++ b.text ++ e.text))).size⟩ := by
  have hwhole := written_self (l ++ (m ++ b.text ++ e.text))
  rw [written_append, Nat.zero_add] at hwhole
  obtain ⟨hbefore, hline⟩ := hwhole
  have hstart : 0 < (bytes l).size →
      at? (bytes (l ++ (m ++ b.text ++ e.text))) ((bytes l).size - 1) = some '\n' := by
    intro hi
    rcases hl with rfl | ⟨l', rfl⟩
    · exact absurd hi (Nat.lt_irrefl 0)
    · rw [written_append, written_singleton (by decide), Nat.zero_add] at hbefore
      rw [size_bytes_append, size_bytes_singleton (by decide), Nat.add_sub_cancel]
      exact hbefore.2
  have hexpression := hline
  rw [written_append] at hexpression
  have hsize : (bytes l).size + (bytes (m ++ b.text)).size + (bytes e.text).size =
      (bytes (l ++ (m ++ b.text ++ e.text))).size := by
    rw [size_bytes_append l, size_bytes_append (m ++ b.text), Nat.add_assoc]
  exact lineSpan_last hline (size_bytes_append ..).symm hstart (mem_line b e hm rfl rfl)
    (e.last_ne_return hexpression.2 hsize)

theorem evaluateAt?_of_extract? {options : Options} {code : Bytes} {pos : Nat} {line s : Span}
    (hpos : isBoundary code pos = true) (hline : lineSpan code pos = line)
    (hs : extract? options (cut code line) (pos - line.start) = some s) :
    evaluateAt? options code pos =
      ((evaluate (cut code (s.shift line.start))).toOption.filter Float.isFinite).map fun value =>
        { span := s.shift line.start, value, snippet := render 4 value } := by
  have hguard : (guard (isBoundary code pos = true) : Option Unit) = some () := if_pos hpos
  rw [evaluateAt?, hguard]
  simp only [hline, hs, bind, Option.bind_some]
  cases evaluate (cut code (s.shift line.start)) with
  | error _ => rfl
  | ok value => cases hfinite : value.isFinite <;> simp [Except.toOption, Option.filter, hfinite]

theorem evaluateAt?_expression (before : String) (e : Expression)
    (hb : ∀ c, lastSolid? before = some c → goesOn c = false) :
    evaluateAt? {} (bytes (before ++ e.text)) ((bytes before).size + (bytes e.text).size) =
      (e.value?.filter Float.isFinite).map fun value =>
        { span := ⟨(bytes before).size, (bytes before).size + (bytes e.text).size⟩
          value
          snippet := render 4 value } := by
  obtain ⟨l, m, b, rfl, hl, hm, hlast⟩ := exists_lastLine before
  have hsolid : ∀ c, m.toList.getLast? = some c → (isSpace c || goesOn c) = false := by
    intro c hc
    have hspace := List.find?_some (hlast ▸ hc : lastSolid? (l ++ m ++ b.text) = some c)
    rw [hb c (hlast ▸ hc), Bool.or_false]
    simpa using hspace
  have hcode : l ++ m ++ b.text ++ e.text = l ++ (m ++ b.text ++ e.text) := by
    simp only [String.append_assoc]
  have hsize : (bytes (l ++ m ++ b.text)).size + (bytes e.text).size =
      (bytes (l ++ m ++ b.text ++ e.text)).size := (size_bytes_append ..).symm
  have hsize' : (bytes l).size + (bytes (m ++ b.text ++ e.text)).size =
      (bytes (l ++ m ++ b.text ++ e.text)).size := by
    rw [hcode, size_bytes_append l]
  have hspan := lineSpan_expression b e hl hm
  rw [← hcode] at hspan
  -- the line, and the expression in it
  have hline := (written_append.mp (written_self (l ++ (m ++ b.text ++ e.text)))).2.cut_eq
  have hexpression := (written_append.mp (written_self (l ++ m ++ b.text ++ e.text))).2.cut_eq
  rw [Nat.zero_add, hsize', ← hcode] at hline
  rw [Nat.zero_add, hsize] at hexpression
  have hpos : (bytes (l ++ m ++ b.text ++ e.text)).size - (bytes l).size =
      (bytes (m ++ b.text ++ e.text)).size := by omega
  have hfound : extract? {} (cut (bytes (l ++ m ++ b.text ++ e.text))
        ⟨(bytes l).size, (bytes (l ++ m ++ b.text ++ e.text)).size⟩)
      ((bytes (l ++ m ++ b.text ++ e.text)).size - (bytes l).size) =
        some ⟨(bytes m).size + (bytes b.text).size, (bytes (m ++ b.text ++ e.text)).size⟩ := by
    rw [hline, hpos]
    exact extract?_last b e hsolid
  have hshift : Span.shift ⟨(bytes m).size + (bytes b.text).size,
      (bytes (m ++ b.text ++ e.text)).size⟩ (bytes l).size =
        ⟨(bytes (l ++ m ++ b.text)).size, (bytes (l ++ m ++ b.text ++ e.text)).size⟩ := by
    simp only [Span.shift, size_bytes_append, Span.mk.injEq]
    omega
  have hwhole := evaluateAt?_of_extract? (isBoundary_iff.mpr (.inr (.inl rfl))) hspan hfound
  rw [hsize, hwhole, hshift, hexpression, toOption_evaluate]

theorem evaluateAt?_expression_signed : ∃ e : Expression, e.text = "1 + 2*-.5" ∧
    (∀ c, lastSolid? "é: " = some c → goesOn c = false) ∧
    ∃ value : Float, (value == 0) = true ∧
      evaluateAt? {} (bytes ("é: " ++ e.text)) ((bytes "é: ").size + (bytes e.text).size) =
        some ⟨⟨4, 13⟩, value, render 4 value⟩ := by
  let one : Digits := ⟨⟨"1", List.all_eq_true.mp (by decide)⟩, by decide⟩
  let two : Digits := ⟨⟨"2", List.all_eq_true.mp (by decide)⟩, by decide⟩
  let five : Digits := ⟨⟨"5", List.all_eq_true.mp (by decide)⟩, by decide⟩
  let space : Gap := ⟨" ", List.all_eq_true.mp (by decide)⟩
  let blank : Gap := ⟨"", List.all_eq_true.mp (by decide)⟩
  let half : Factor := .literal (.decimal ⟨"", List.all_eq_true.mp (by decide)⟩ five)
  let left : Expression := .term (.factor (.literal (.integer one)))
  let right : Term := .product (.factor (.literal (.integer two))) blank .times blank
    (.signed true blank half)
  have hlast : ∀ c, lastSolid? "é: " = some c → goesOn c = false := by
    have hcolon : lastSolid? "é: " = some ':' := by decide
    rw [hcolon]
    rintro c ⟨⟩
    decide
  have hvalue : (Expression.sum left space false space right).value? =
      some (.ofScientific 1 true 0 + .ofScientific 2 true 0 * -.ofScientific 5 true 1) := by
    simp only [Expression.value?, Term.value?, Factor.value?, left, right, half, Literal.value,
      Option.map_some, if_true, one, two, five]
    rfl
  have hfinite : Float.isFinite
      (.ofScientific 1 true 0 + .ofScientific 2 true 0 * -.ofScientific 5 true 1) = true := by
    decide +kernel
  have h := evaluateAt?_expression "é: " (.sum left space false space right) hlast
  rw [hvalue, Option.filter_some, if_pos hfinite] at h
  exact ⟨_, rfl, hlast, _, by decide +kernel, h⟩

end Caret.Arithmetic
