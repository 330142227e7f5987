import Caret.Proofs.Stylesheet.Reading

namespace Caret.Stylesheet

open Text

def Outside (comments : Array Span) (i : Nat) : Prop := ∀ c ∈ comments, ¬c.contains i

structure Declaration.Uncommented (code : Bytes) (comments : Array Span) (d : Declaration) :
    Prop where
  name : Outside comments d.name.start
  colon : ∀ c, d.colon = some c → Outside comments c
  terminator : ∀ t, d.terminator = some t → Outside comments t ∧ d.value.stop ≤ t
  gap : d.colon = none → d.name.stop ≤ d.value.start ∧
    ∀ i, d.name.stop ≤ i → i < d.value.start → test isBlank code i = true
  value : d.terminator = none → ∀ c ∈ comments, test isBlank code (c.stop - 1) = false →
    c.stop ≤ d.value.stop ∨ d.value.stop ≤ c.start

structure Commented (code : Bytes) (s : Stylesheet) : Prop where
  begins : ∀ c ∈ s.comments, at? code c.start = some '/'
  declarations : ∀ d ∈ s.declarations, d.Uncommented code s.comments

variable {code : Bytes} {pos : Nat} {comments : Array Span} {c : Span}

theorem Outside.lt_or_le {i : Nat} (h : Outside comments i) (hc : c ∈ comments) :
    i < c.start ∨ c.stop ≤ i := by
  have := h c hc
  rw [Span.contains_iff] at this
  omega

theorem Outside.push {i : Nat} (h : Outside comments i) (hi : i < c.start) :
    Outside (comments.push c) i := by
  intro e he hc
  rcases Array.mem_push.mp he with he | rfl
  · exact h e he hc
  · have := Span.contains_iff.mp hc
    omega

theorem Declaration.Uncommented.push {d : Declaration} (h : d.Uncommented code comments)
    (hd : d.Formed code) (hs : d.span.stop ≤ c.start) : d.Uncommented code (comments.push c) := by
  have hname := Span.covers_iff.mp hd.name_inside
  have hvalue := Span.covers_iff.mp hd.value_inside
  have hlt := hd.name_lt
  have hle := hd.value_le
  refine
    { h with
      name := h.name.push (by omega)
      colon := fun k hk => ?_
      terminator := fun t ht => ?_
      value := fun ht e he hlast => ?_ }
  · have := hd.colon k hk
    exact (h.colon k hk).push (by omega)
  · have := (hd.terminator t ht).2
    exact ⟨(h.terminator t ht).1.push (by omega), (h.terminator t ht).2⟩
  · rcases Array.mem_push.mp he with he | rfl
    · exact h.value ht e he hlast
    · exact .inr (Nat.le_trans hvalue.2 hs)

structure Draft.Commented (code : Bytes) (d : Draft) : Prop where
  item : ∀ s, d.item = some s → Outside d.sheet.comments s
  colon : ∀ c, d.colon = some c → Outside d.sheet.comments c
  sheet : d.sheet.Commented code

namespace Draft

variable {d : Draft}

theorem commented_empty (code : Bytes) : Commented code {} where
  item := by simp
  colon := by simp
  sheet := { begins := by simp, declarations := by simp }

theorem Valid.outside (h : d.Valid code pos) : Outside d.sheet.comments pos := by
  intro c hc hp
  have hin := Span.contains_iff.mp hp
  exact Nat.not_lt_of_le (h.comments c hc).2 hin.2

theorem Commented.pushComment (h : d.Commented code) (hv : d.Valid code pos) (hs : c.start = pos)
    (hat : at? code pos = some '/') :
    Draft.Commented code { d with sheet.comments := d.sheet.comments.push c } where
  item s hi := (h.item s hi).push (hs ▸ (hv.item s hi).1)
  colon k hk := (h.colon k hk).push (hs ▸ (hv.colon k hk).2.1)
  sheet :=
    { begins := by
        intro e he
        rcases Array.mem_push.mp he with he | rfl
        · exact h.sheet.begins e he
        · rwa [hs]
      declarations := by
        intro e he
        refine (h.sheet.declarations e he).push (hv.nested.formed e he) ?_
        rw [hs]
        exact Nat.le_trans (hv.nested.declarations_le e he) hv.edge_le }

theorem Commented.beginItem (h : d.Commented code) (hv : d.Valid code pos) :
    (d.beginItem pos).Commented code := by
  cases hi : d.item with
  | some s => rwa [beginItem_of_some hi]
  | none =>
    refine { h with item := ?_ }
    intro s hs
    obtain rfl : pos = s := by simpa [Draft.beginItem, hi] using hs
    exact hv.outside

theorem Commented.setColon (h : d.Commented code) (hv : d.Valid code pos) :
    Draft.Commented code { d with colon := some pos } := by
  refine { h with colon := ?_ }
  intro c hc
  obtain rfl := Option.some.inj hc
  exact hv.outside

theorem Commented.endItem (h : d.Commented code) : d.endItem.Commented code where
  item := by simp [Draft.endItem]
  colon := by simp [Draft.endItem]
  sheet := h.sheet

theorem nameAndValue_edges {start : Nat} {content : Span} {colon : Option Nat}
    (hstop : content.stop ≤ code.size) (hlast : test isBlank code (content.stop - 1) = false)
    (hc : ∀ c, colon = some c → c < content.stop) :
    let nv := nameAndValue code start content colon
    nv.2.stop = content.stop ∧
      (colon = none → nv.1.stop ≤ nv.2.start ∧
        ∀ i, nv.1.stop ≤ i → i < nv.2.start → test isBlank code i = true) := by
  cases colon with
  | some c =>
    have hcs : c + 1 ≤ content.stop := hc c rfl
    simp only [nameAndValue, Span.between_of_le hcs, reduceCtorEq, false_implies, and_true]
    exact trim_stop (s := ⟨c + 1, content.stop⟩) hstop (fun _ => hlast) hcs
  | none =>
    simp only [nameAndValue]
    split
    · next hat =>
      have hword := Nat.le_of_lt hat.2.2
      have hbounds := trim_bounds code
        (s := ⟨skip (!isBlank ·) code content.stop content.start, content.stop⟩) hword hstop
      refine ⟨trim_stop hstop (fun _ => hlast) hword, fun _ => ⟨hbounds.1, fun i hi hlt => ?_⟩⟩
      exact test_of_lt_trim_start
        (s := ⟨skip (!isBlank ·) code content.stop content.start, content.stop⟩) hstop hword hi hlt
    · refine ⟨rfl, fun _ => ⟨Nat.le_refl _, fun i hi hlt => absurd hlt ?_⟩⟩
      exact Nat.not_lt_of_le hi

theorem Commented.declarationOf_uncommented (h : d.Commented code) (hv : d.Valid code pos)
    (hp : pos ≤ code.size) {s : Nat} (hs : d.item = some s) {terminator : Option Nat}
    (ht : ∀ t, terminator = some t → t = pos) :
    (declarationOf code d s pos terminator).Uncommented code d.sheet.comments := by
  obtain ⟨hstart, hstop, hle, hcolon⟩ := hv.content_spec hp hs
  have hsize := Nat.le_trans hle hp
  obtain ⟨hname, -, -⟩ :=
    nameAndValue_spec hsize hstart hstop (hv.item s hs).2 hcolon
  have hlast := test_last_trim (hstart.symm ▸ hstop : (trim code ⟨s, pos⟩).start < _)
  obtain ⟨hend, hgap⟩ := nameAndValue_edges hsize hlast fun c hc => (hcolon c hc).2
  refine
    { name := ?_
      colon := h.colon
      terminator := fun t hterm => ?_
      gap := hgap
      value := fun _ c hc hsolid => .inl ?_ }
  · simp only [declarationOf, hname.1]
    exact h.item s hs
  · obtain rfl := ht t hterm
    exact ⟨hv.outside, Nat.le_trans (Nat.le_of_eq hend) hle⟩
  · obtain ⟨hlt, hbefore⟩ := hv.comments c hc
    refine Nat.le_trans (Nat.le_of_not_lt fun hout => ?_) (Nat.le_of_eq hend.symm)
    have hblank := test_of_trim_stop_le (s := ⟨s, pos⟩) (k := c.stop - 1) hp
      (by simp only; omega) (by omega)
    exact Bool.false_ne_true (hsolid.symm.trans hblank)

theorem Commented.addDeclaration (h : d.Commented code) (hv : d.Valid code pos)
    (hp : pos ≤ code.size) {terminator : Option Nat} (ht : ∀ t, terminator = some t → t = pos) :
    (d.addDeclaration code pos terminator).Commented code := by
  cases hi : d.item with
  | none =>
    rwa [addDeclaration_of_none hi]
  | some s =>
    rw [hv.addDeclaration_eq hp hi]
    refine { h with sheet := { h.sheet with declarations := ?_ } }
    intro e he
    rcases Array.mem_push.mp he with he | rfl
    · exact h.sheet.declarations e he
    · exact h.declarationOf_uncommented hv hp hi ht

theorem Commented.closeRule (h : d.Commented code) : (d.closeRule pos).Commented code := by
  unfold Draft.closeRule
  split
  · exact h
  · exact { h with sheet := { h.sheet with } }

theorem Commented.absorb {stop i : Nat} (h : d.Commented code) (hv : d.Valid code i) (hi : i < stop)
    (hs : stop ≤ code.size) : (d.absorb code (tokenAt code stop i)).Commented code := by
  have hsize : i < code.size := Nat.lt_of_lt_of_le hi hs
  have hitem := h.beginItem hv
  have hadd (terminator : Option Nat) (ht : ∀ t, terminator = some t → t = i) :=
    (h.addDeclaration hv (Nat.le_of_lt hsize) ht).endItem
  have hstep := absorbs (tokenAt_start code stop i) code d
  generalize d.absorb code (tokenAt code stop i) = e at hstep ⊢
  cases hstep with
  | comment hk => exact h.pushComment hv (tokenAt_start ..) (tokenAt_comment hk).1
  | blank => exact h
  | item => exact hitem
  | openParen => exact { hitem with }
  | closeParen => exact { h with }
  | colon => exact h.setColon hv
  | semicolon => exact hadd (some i) fun t ht => (Option.some.inj ht).symm
  | openBrace => exact Commented.endItem { h with sheet := { h.sheet with } }
  | closeBrace => exact (hadd none (by simp)).closeRule

theorem Commented.finish {isInline : Bool} (h : d.Commented code) (hv : d.Valid code pos)
    (hp : pos ≤ code.size) : (d.finish code isInline pos).Commented code := by
  simp only [Draft.finish]
  split
  · exact { (h.addDeclaration hv hp (by simp)).sheet with }
  · exact { h.sheet with }

end Draft

theorem parse_spec (code : Bytes) :
    (parse code).WellFormed code code.size ∧ (parse code).Commented code := by
  have hrun := foldl_tokens (P := fun i d => Draft.Valid code i d ∧ d.Commented code)
    (fun i d hi hd => ⟨hd.1.absorb hi (Nat.le_refl _), hd.2.absorb hd.1 hi (Nat.le_refl _)⟩)
    ⟨Draft.valid_empty code 0, Draft.commented_empty code⟩ (Nat.zero_le code.size)
  simp only [parse, parseRegion, Nat.min_self]
  exact ⟨hrun.1.finish (Nat.le_refl _), hrun.2.finish hrun.1 (Nat.le_refl _)⟩

end Caret.Stylesheet
