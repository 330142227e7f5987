import Caret.Proofs.Abbreviation.Extraction
import Caret.Proofs.Abbreviation.Marker

namespace Caret.Abbreviation

open Text

variable {kind : Kind} {line part : Bytes} {start cursor i pos : Nat} {groups : List Char}
  {opening : Char} {marker : List UInt8} {options : Options}

section initial

variable (h : PartAt part line 0)
include h

theorem at?_initial (hi : i < part.size) : at? line i = at? part i := h.at?_add hi

theorem skipBack_initial (p : Char → Bool) (hi : i ≤ part.size) :
    skipBack p line 0 i = skipBack p part 0 i := h.skipBack_add hi

theorem holdsAt_initial (hi : cursor ≤ part.size) (word : List UInt8) :
    holdsAt line cursor word i = holdsAt part cursor word i := h.holdsAt_add hi word

theorem groupStart?_initial (hi : i ≤ part.size) :
    groupStart? opening line i = groupStart? opening part i := by
  fun_induction groupStart? opening part i with
  | case1 => rw [groupStart?]
  | case2 i hc =>
    obtain ⟨c, hat⟩ := at?_of_lt (Nat.lt_of_succ_le hi)
    simp [hat] at hc
  | case3 i hc =>
    rw [groupStart?, at?_initial h hi, hc]
    exact if_pos rfl
  | case4 i c hc ho hq quote h0 ih =>
    have hle : quote ≤ i := skipBack_le ..
    rw [groupStart?, at?_initial h hi, hc, ← ih (by omega)]
    simp only [ho, hq, skipBack_initial h _ (Nat.le_of_succ_le hi), if_false, if_true]
    exact if_pos h0
  | case5 i c hc ho hq quote h0 =>
    rw [groupStart?, at?_initial h hi, hc]
    simp only [ho, hq, skipBack_initial h _ (Nat.le_of_succ_le hi), if_false, if_true]
    exact if_neg h0
  | case6 i c hc ho hq ih =>
    rw [groupStart?, at?_initial h hi, hc, ← ih (Nat.le_of_succ_le hi)]
    simp only [ho, hq, Bool.false_eq_true, if_false]

theorem groupBefore?_initial (h0 : 0 < cursor) (hi : cursor ≤ part.size) :
    groupBefore? line cursor = groupBefore? part cursor := by
  have hlt : cursor - 1 < part.size := by omega
  simp only [groupBefore?, at?_initial h hlt, groupStart?_initial h (Nat.le_of_lt hlt)]

theorem pastMarker?_initial (hi : cursor ≤ part.size) :
    pastMarker? marker line cursor = pastMarker? marker part cursor := by
  fun_induction pastMarker? marker part cursor with
  | case1 =>
    rw [pastMarker?]
    exact if_pos rfl
  | case2 cursor h0 j hg ih =>
    have hpos := Nat.pos_of_ne_zero h0
    have hj := groupBefore?_lt hg
    rw [pastMarker?_of_group hpos ((groupBefore?_initial h hpos hi).trans hg)]
    exact ih (by omega)
  | case3 cursor h0 hg hm =>
    have hpos := Nat.pos_of_ne_zero h0
    rw [pastMarker?_of_none hpos ((groupBefore?_initial h hpos hi).trans hg)]
    exact if_pos ⟨hm.1, (holdsAt_initial h hi marker).trans hm.2⟩
  | case4 cursor h0 hg hm ih =>
    have hpos := Nat.pos_of_ne_zero h0
    rw [pastMarker?_of_none hpos ((groupBefore?_initial h hpos hi).trans hg), ← ih (by omega)]
    exact if_neg fun hl => hm ⟨hl.1, (holdsAt_initial h hi marker).symm.trans hl.2⟩

theorem goBack_initial (hi : i ≤ part.size) :
    goBack kind line start i groups = goBack kind part start i groups := by
  induction i generalizing groups with
  | zero => rfl
  | succ i ih =>
    have hstep (c : Char) : step kind line groups i c = step kind part groups i c := by
      simp only [step, endsTag_initial h hi]
    simp only [goBack, at?_initial h hi, hstep, ih (Nat.le_of_succ_le hi)]

theorem scan_initial (hp : isBoundary part pos = true) (hlook : options.lookAhead = false) :
    scan options line pos = scan options part pos := by
  have hle := le_size_of_isBoundary hp
  have hbound : isBoundary line pos = true := (h.isBoundary_add hle).trans hp
  have hlimit : limit? options line pos = limit? options part pos := by
    simp only [limit?, pastMarker?_initial h hle]
  have hskip (cursor : Nat) : skip isJoint line pos cursor = skip isJoint part pos cursor :=
    h.skip_add hle
  have hread (location : Nat) : read line ⟨location, pos⟩ = read part ⟨location, pos⟩ :=
    h.read_add (s := ⟨location, pos⟩) hle
  simp only [scan, origin, hlook, Bool.false_eq_true, if_false, clamp_of_isBoundary hp,
    clamp_of_isBoundary hbound, hlimit, goBack_initial h hle, hskip, hread]

end initial

section extraction

variable {text : String} {j : Nat}

theorem partAt_cut_cut (hij : i ≤ j) (hjk : j ≤ cursor) (hi : isBoundary (bytes text) i = true)
    (hj : isBoundary (bytes text) j = true) (hk : isBoundary (bytes text) cursor = true) :
    PartAt (cut (bytes text) ⟨i, j⟩) (cut (bytes text) ⟨i, cursor⟩) 0 := by
  rw [← cut_append hij hjk, ← bytes_read hij hi hj, ← bytes_read hjk hj hk, ← bytes_append]
  exact partAt_append ..

theorem Request.found_initial (h : PartAt part line 0) {c : Context} (hc : c.lookAhead = false) :
    found c line part.size = found c part part.size := by
  have hscan : scan (Options.ofContext c) line part.size = scan (Options.ofContext c) part part.size :=
    scan_initial h (isBoundary_size part) hc
  simp only [found, scanner, hscan]

theorem extract_offset_eq_range (l : Language) (c : Context)
    (hp : isBoundary (bytes text) pos = true) (hle : pos ≤ (lineSpan (bytes text) pos).stop)
    (hc : c.lookAhead = false ∨ c.kind = .stylesheet) :
    let v := (Document.ofText (bytes text) l).view
    extract v (.offset pos) (some c) =
      extract v (.range ⟨(lineSpan (bytes text) pos).start, pos⟩) (some c) := by
  intro v
  obtain ⟨-, hstart, hbegin, hend⟩ := lineSpan_boundary text pos
  rw [clamp_of_isBoundary hp] at hstart
  have hoffset : Request.place (bytes text) (.offset pos) = (lineSpan (bytes text) pos, pos) := by
    rw [Request.place, clamp_of_isBoundary hp]
  have hrange : Request.place (bytes text) (.range ⟨(lineSpan (bytes text) pos).start, pos⟩) =
      (⟨(lineSpan (bytes text) pos).start, pos⟩, pos) := by
    simp only [Request.place, clamp_of_isBoundary hp, clamp_of_isBoundary hbegin,
      Span.between_of_le hstart]
  have hlook : (Request.of v (.offset pos) (some c)).context.lookAhead = false := by
    simp only [Request.of, Option.getD_some]
    split
    · rfl
    · next hkind => exact hc.resolve_right hkind
  have hpart := partAt_cut_cut hstart hle hbegin hp hend
  have hsize : (cut (bytes text) ⟨(lineSpan (bytes text) pos).start, pos⟩).size =
      pos - (lineSpan (bytes text) pos).start := by
    simp [cut, Nat.min_eq_left (le_size_of_isBoundary hp)]
  have hfound := Request.found_initial hpart hlook
  rw [hsize] at hfound
  rw [extract_eq rfl, extract_eq rfl, hoffset, hrange]
  exact congrArg (moved _) hfound

theorem extract_offset_eq_range_mismatch :
    let v := (Document.ofText (bytes "é\nul(a] b\r\n") Document.css).view
    let c : Context := { lookAhead := false }
    extract v (.offset 8) (some c) = extract v (.range ⟨3, 8⟩) (some c) ∧
      extract v (.range ⟨3, 8⟩) (some c) =
        .error (.malformedAbbreviation 5 "'(' does not match ']'") := by
  intro v c
  have hp : isBoundary (bytes "é\nul(a] b\r\n") 8 = true := by decide +kernel
  have hline : lineSpan (bytes "é\nul(a] b\r\n") 8 = ⟨3, 10⟩ := by decide +kernel
  have hle : 8 ≤ (lineSpan (bytes "é\nul(a] b\r\n") 8).stop := by
    rw [hline]
    decide
  have hsame := extract_offset_eq_range Document.css c hp hle (.inl rfl)
  have hplace : Request.place (bytes "é\nul(a] b\r\n") (.range ⟨3, 8⟩) = (⟨3, 8⟩, 8) := by
    decide +kernel
  have hcut : cut (bytes "é\nul(a] b\r\n") ⟨3, 8⟩ = bytes "ul(a]" := by decide +kernel
  have hfound : Request.found c (bytes "ul(a]") 5 =
      .error (.malformedAbbreviation 2 "'(' does not match ']'") := by
    with_unfolding_all rfl
  rw [hline] at hsame
  refine ⟨hsame, ?_⟩
  rw [extract_eq rfl, hplace, hcut]
  exact congrArg (moved 3) hfound

end extraction

end Caret.Abbreviation
