import Caret.Proofs.Stylesheet.Ending
import Caret.Proofs.Stylesheet.Token

namespace Caret.Stylesheet

open Text

/-- A draft once the text before `pos` has been read: the item being read begins with a byte that
is no blank, and all finished nodes end before it. -/
structure Draft.Valid (code : Bytes) (pos : Nat) (d : Draft) : Prop where
  item : ∀ s, d.item = some s → s < pos ∧ test isBlank code s = false
  colon : ∀ c, d.colon = some c → at? code c = some ':' ∧ c < pos ∧ ∃ s, d.item = some s ∧ s < c
  comments : ∀ c ∈ d.sheet.comments, c.start < c.stop ∧ c.stop ≤ pos
  comments_ordered : d.sheet.comments.toList.Pairwise fun c e => c.stop ≤ e.start
  nested : Nested code (d.item.getD pos) d.sheet.rules d.sheet.declarations d.opened

namespace Draft

variable {code : Bytes} {pos pos' : Nat} {d : Draft}

theorem valid_empty (code : Bytes) (pos : Nat) : Valid code pos {} where
  item := by simp
  colon := by simp
  comments := by simp
  comments_ordered := .nil
  nested := .empty code pos

theorem Valid.mono (h : d.Valid code pos) (hp : pos ≤ pos') : d.Valid code pos' where
  item s hs := ⟨Nat.lt_of_lt_of_le (h.item s hs).1 hp, (h.item s hs).2⟩
  colon c hc := by
    obtain ⟨hat, hlt, hs⟩ := h.colon c hc
    exact ⟨hat, Nat.lt_of_lt_of_le hlt hp, hs⟩
  comments c hc := ⟨(h.comments c hc).1, Nat.le_trans (h.comments c hc).2 hp⟩
  comments_ordered := h.comments_ordered
  nested := by
    have hn := h.nested
    cases hi : d.item with
    | none =>
      rw [hi] at hn
      exact hn.mono hp
    | some s =>
      rw [hi] at hn
      exact hn

theorem Valid.edge_le (h : d.Valid code pos) : d.item.getD pos ≤ pos := by
  cases hi : d.item with
  | none => exact Nat.le_refl _
  | some s => exact Nat.le_of_lt (h.item s hi).1

theorem Valid.pushComment (h : d.Valid code pos) {c : Span} (hs : c.start = pos) (hc : pos < c.stop) :
    Valid code c.stop { d with sheet.comments := d.sheet.comments.push c } := by
  have hm := h.mono (Nat.le_of_lt hc)
  refine { hm with comments := ?_, comments_ordered := ?_ }
  · intro e he
    rcases Array.mem_push.mp he with he | rfl
    · exact hm.comments e he
    · exact ⟨hs ▸ hc, Nat.le_refl _⟩
  · rw [Array.toList_push, List.pairwise_append]
    refine ⟨h.comments_ordered, List.pairwise_singleton _ _, ?_⟩
    intro e he e' he'
    obtain rfl := List.mem_singleton.mp he'
    exact hs ▸ (h.comments e (Array.mem_toList_iff.mp he)).2

theorem beginItem_of_some {s : Nat} (h : d.item = some s) (i : Nat) : d.beginItem i = d := by
  cases d
  simp_all [Draft.beginItem]

theorem Valid.beginItem (h : d.Valid code pos) (hb : test isBlank code pos = false)
    (hp : pos < pos') : (d.beginItem pos).Valid code pos' := by
  have hm := h.mono (Nat.le_of_lt hp)
  cases hi : d.item with
  | some s =>
    rw [beginItem_of_some hi]
    exact hm
  | none =>
    refine { hm with item := ?_, colon := ?_, nested := ?_ }
    · intro s hs
      obtain rfl : pos = s := by simpa [Draft.beginItem, hi] using hs
      exact ⟨hp, hb⟩
    · intro c hc
      obtain ⟨-, -, s, hs, -⟩ := h.colon c hc
      simp [hi] at hs
    · simpa [Draft.beginItem, hi] using h.nested

theorem Valid.setColon (h : d.Valid code pos) (hat : at? code pos = some ':') {s : Nat}
    (hs : d.item = some s) : Valid code (pos + 1) { d with colon := some pos } := by
  have hm := h.mono (Nat.le_succ pos)
  refine { hm with colon := ?_ }
  intro c hc
  obtain rfl := Option.some.inj hc
  exact ⟨hat, Nat.lt_succ_self _, s, hs, (h.item s hs).1⟩

theorem addDeclaration_of_none (h : d.item = none) (code : Bytes) (stop : Nat)
    (terminator : Option Nat) : d.addDeclaration code stop terminator = d := by
  simp [Draft.addDeclaration, h]

theorem addDeclaration_cases (code : Bytes) (d : Draft) (stop : Nat) (terminator : Option Nat) :
    d.addDeclaration code stop terminator = d ∨
      ∃ e : Declaration, e.terminator = terminator ∧ d.addDeclaration code stop terminator =
        { d with sheet.declarations := d.sheet.declarations.push e } := by
  unfold Draft.addDeclaration
  split
  · exact .inl rfl
  · dsimp only
    split
    · exact .inl rfl
    · exact .inr ⟨_, rfl, rfl⟩

theorem nameAndValue_spec {s : Nat} {content : Span} {colon : Option Nat}
    (hstop : content.stop ≤ code.size) (hs : content.start = s) (hlt : s < content.stop)
    (hb : test isBlank code s = false)
    (hc : ∀ c, colon = some c → s < c ∧ c < content.stop) :
    let nv := nameAndValue code s content colon
    (nv.1.start = s ∧ nv.1.start < nv.1.stop ∧ nv.1.stop ≤ content.stop) ∧
      (s ≤ nv.2.start ∧ nv.2.start ≤ nv.2.stop ∧ nv.2.stop ≤ content.stop) ∧
      ∀ c, colon = some c → nv.1.stop ≤ c ∧ c < nv.2.start := by
  cases colon with
  | some c =>
    obtain ⟨hsc, hcs⟩ := hc c rfl
    have hcs' : c + 1 ≤ content.stop := hcs
    simp only [nameAndValue, Span.between_of_le (Nat.le_of_lt hsc), Span.between_of_le hcs']
    have hname := trim_start (s := ⟨s, c⟩) (by simp; omega) hsc hb
    have hbounds := trim_bounds code (s := ⟨s, c⟩) (Nat.le_of_lt hsc) (by simp; omega)
    have hvalue := trim_bounds code (s := ⟨c + 1, content.stop⟩) hcs hstop
    simp only at hname hbounds hvalue
    refine ⟨⟨hname.1, ?_, ?_⟩, ⟨?_, hvalue.2.1, hvalue.2.2⟩, ?_⟩
    · omega
    · omega
    · omega
    · intro c' hc'
      obtain rfl := Option.some.inj hc'
      exact ⟨hbounds.2.2, Nat.lt_of_succ_le hvalue.1⟩
  | none =>
    simp only [nameAndValue]
    split
    · next hat =>
      have hword : s < skip (!isBlank ·) code content.stop content.start := by
        rw [hs]
        refine lt_skip hlt ?_
        obtain ⟨c, hat', -⟩ := test_iff.mp (hs ▸ hat.1)
        simpa [test_of_at? hat'] using hb
      have hvalue := trim_bounds code
        (s := ⟨skip (!isBlank ·) code content.stop content.start, content.stop⟩)
        (Nat.le_of_lt hat.2.2) hstop
      simp only at hvalue
      refine ⟨⟨hs, hs ▸ hword, Nat.le_of_lt hat.2.2⟩, ⟨?_, hvalue.2.1, hvalue.2.2⟩, by simp⟩
      exact Nat.le_trans (Nat.le_of_lt hword) hvalue.1
    · simp only [Span.empty]
      exact ⟨⟨hs, hs ▸ hlt, Nat.le_refl _⟩, ⟨Nat.le_of_lt hlt, Nat.le_refl _, Nat.le_refl _⟩, by simp⟩

theorem Valid.endItem (h : d.Valid code pos) (hp : pos ≤ pos') : d.endItem.Valid code pos' where
  item := by simp [Draft.endItem]
  colon := by simp [Draft.endItem]
  comments := (h.mono hp).comments
  comments_ordered := h.comments_ordered
  nested := h.nested.mono (Nat.le_trans h.edge_le hp)

def declarationOf (code : Bytes) (d : Draft) (s stop : Nat) (terminator : Option Nat) :
    Declaration :=
  let content := trim code ⟨s, stop⟩
  let nv := nameAndValue code s content d.colon
  { name := nv.1
    value := nv.2
    span := .between content.start (terminator.elim content.stop (· + 1))
    colon := d.colon
    terminator
    parent := d.opened.head? }

theorem Valid.addDeclaration_eq (h : d.Valid code pos) (hp : pos ≤ code.size) {s : Nat}
    (hs : d.item = some s) (terminator : Option Nat) :
    d.addDeclaration code pos terminator =
      { d with sheet.declarations :=
        d.sheet.declarations.push (declarationOf code d s pos terminator) } := by
  obtain ⟨hlt, hb⟩ := h.item s hs
  have hcontent := trim_start (s := ⟨s, pos⟩) hp hlt hb
  have hne : (trim code ⟨s, pos⟩).isEmpty = false := by
    simp only [Span.isEmpty, decide_eq_false_iff_not]
    omega
  simp [addDeclaration, hs, Span.between_of_le (Nat.le_of_lt hlt), hne, declarationOf]

theorem Valid.content_spec (h : d.Valid code pos) (hp : pos ≤ code.size) {s : Nat}
    (hs : d.item = some s) :
    (trim code ⟨s, pos⟩).start = s ∧ s < (trim code ⟨s, pos⟩).stop ∧
      (trim code ⟨s, pos⟩).stop ≤ pos ∧
      ∀ c, d.colon = some c → s < c ∧ c < (trim code ⟨s, pos⟩).stop := by
  obtain ⟨hlt, hb⟩ := h.item s hs
  obtain ⟨hstart, hstop⟩ := trim_start (s := ⟨s, pos⟩) hp hlt hb
  have hle := (trim_bounds code (s := ⟨s, pos⟩) (Nat.le_of_lt hlt) hp).2.2
  refine ⟨hstart, hstop, hle, fun c hc => ?_⟩
  obtain ⟨hat, hcp, s', hs', hsc⟩ := h.colon c hc
  obtain rfl := Option.some.inj (hs.symm.trans hs')
  refine ⟨hsc, lt_trim_stop hp hcp ?_⟩
  rw [test_of_at? hat]
  rfl

theorem Valid.declarationOf_formed (h : d.Valid code pos) (hp : pos ≤ code.size) {s : Nat}
    (hs : d.item = some s) {terminator : Option Nat}
    (ht : ∀ t, terminator = some t → t = pos ∧ at? code pos = some ';') :
    (declarationOf code d s pos terminator).Formed code ∧
      (declarationOf code d s pos terminator).span.start = s ∧
      (declarationOf code d s pos terminator).span.stop ≤ terminator.elim pos (· + 1) := by
  have hb := (h.item s hs).2
  obtain ⟨hstart, hstop, hle, hcolon⟩ := h.content_spec hp hs
  obtain ⟨hname, hvalue, hsep⟩ := nameAndValue_spec (Nat.le_trans hle hp) hstart hstop hb hcolon
  have hend : (trim code ⟨s, pos⟩).stop ≤ terminator.elim (trim code ⟨s, pos⟩).stop (· + 1) := by
    cases hterm : terminator with
    | none => exact Nat.le_refl _
    | some t => exact Nat.le_succ_of_le ((ht t hterm).1 ▸ hle)
  have hspan : (declarationOf code d s pos terminator).span =
      ⟨s, terminator.elim (trim code ⟨s, pos⟩).stop (· + 1)⟩ := by
    simp only [declarationOf, hstart]
    exact Span.between_of_le (by omega)
  refine ⟨?_, by rw [hspan], ?_⟩
  · refine
      { name_lt := hname.2.1
        name_inside := ?_
        value_le := hvalue.2.1
        value_inside := ?_
        colon := ?_
        terminator := ?_ }
    · rw [hspan, Span.covers_iff]
      exact ⟨Nat.le_of_eq hname.1.symm, Nat.le_trans hname.2.2 hend⟩
    · rw [hspan, Span.covers_iff]
      exact ⟨hvalue.1, Nat.le_trans hvalue.2.2 hend⟩
    · intro c hc
      exact ⟨(h.colon c hc).1, hsep c hc⟩
    · intro t hterm
      obtain ⟨rfl, hat⟩ := ht t hterm
      obtain rfl : terminator = some t := hterm
      exact ⟨hat, by rw [hspan]; rfl⟩
  · rw [hspan]
    cases terminator with
    | none => exact hle
    | some t => exact Nat.le_refl _

theorem Valid.addDeclaration (h : d.Valid code pos) (terminator : Option Nat)
    (hp : pos ≤ code.size) (hpos : pos ≤ pos')
    (ht : ∀ t, terminator = some t → t = pos ∧ at? code pos = some ';')
    (hpos' : terminator.elim pos (· + 1) ≤ pos') :
    (d.addDeclaration code pos terminator).endItem.Valid code pos' := by
  cases hi : d.item with
  | none =>
    rw [addDeclaration_of_none hi]
    exact h.endItem hpos
  | some s =>
    rw [h.addDeclaration_eq hp hi]
    obtain ⟨hformed, hstart, hstop⟩ := h.declarationOf_formed hp hi ht
    have hn := h.nested
    rw [hi] at hn
    refine { h.endItem hpos with nested := ?_ }
    exact hn.push_declaration hformed (Nat.le_of_eq hstart.symm) (Nat.le_trans hstop hpos') rfl

theorem Valid.openRule (h : d.Valid code pos) (hat : at? code pos = some '{') :
    (d.openRule code pos).endItem.Valid code (pos + 1) := by
  have hp := lt_size_of_at? hat
  have hle := h.edge_le
  have hbounds := trim_bounds code (s := ⟨d.item.getD pos, pos⟩) hle (Nat.le_of_lt hp)
  simp only at hbounds
  have hspan := Span.between_of_le
    (Nat.le_succ_of_le (Nat.le_trans hbounds.2.1 hbounds.2.2))
  refine { h.endItem (Nat.le_succ pos) with nested := ?_ }
  simp only [Draft.openRule, Draft.endItem, Span.between_of_le hle, hspan, Option.getD_none]
  refine h.nested.push_rule ?_ rfl hbounds.1 rfl
  exact
    { span_start := rfl
      selector_le := hbounds.2.1
      selector_lt := Nat.lt_succ_of_le hbounds.2.2
      opening := hat
      body_le_span := Nat.le_refl _
      body_start_le := Nat.le_refl _
      span_stop_le := Nat.le_refl _
      of_closed := by simp }

theorem Valid.closeRule (h : d.Valid code pos) (hi : d.item = none)
    (hat : at? code pos = some '}') : (d.closeRule pos).Valid code (pos + 1) := by
  have hm := h.mono (Nat.le_succ pos)
  have hn := h.nested
  rw [hi] at hn
  cases ho : d.opened with
  | nil =>
    have he : d.closeRule pos = d := by simp [Draft.closeRule, ho]
    rw [he]
    exact hm
  | cons i rest =>
    rw [ho] at hn
    have hclose := hn.close (Nat.le_refl pos) hat
    simp only [Draft.closeRule, ho]
    refine { hm with nested := ?_ }
    simp only [hi, Option.getD_none]
    exact hclose

/-- What a token that begins at `i` can make of a draft. Inside of parens the bytes that part
declarations and rules are part of an item, as any token is that is no comment and no blank. -/
inductive Absorbs (code : Bytes) (i : Nat) (t : Token) (d : Draft) : Draft → Prop
  | comment (hk : t.kind = .comment) :
      Absorbs code i t d { d with sheet.comments := d.sheet.comments.push t.span }
  | blank (hk : t.kind = .blank) : Absorbs code i t d d
  | item (hc : t.kind ≠ .comment) (hb : t.kind ≠ .blank) : Absorbs code i t d (d.beginItem i)
  | openParen (hk : t.kind = .openParen) :
      Absorbs code i t d { d.beginItem i with depth := d.depth + 1 }
  | closeParen (hk : t.kind = .closeParen) : Absorbs code i t d { d with depth := d.depth - 1 }
  | colon (hk : t.kind = .colon) (hd : d.depth = 0) (hc : d.colon = none) {s : Nat}
      (hs : d.item = some s) (hlt : s < i) : Absorbs code i t d { d with colon := some i }
  | semicolon (hk : t.kind = .semicolon) (hd : d.depth = 0) :
      Absorbs code i t d (d.addDeclaration code i (some i)).endItem
  | openBrace (hk : t.kind = .openBrace) (hd : d.depth = 0) :
      Absorbs code i t d (d.openRule code i).endItem
  | closeBrace (hk : t.kind = .closeBrace) (hd : d.depth = 0) :
      Absorbs code i t d ((d.addDeclaration code i none).endItem.closeRule i)

theorem absorbs {t : Token} {i : Nat} (h : t.span.start = i) (code : Bytes) (d : Draft) :
    d.Absorbs code i t (d.absorb code t) := by
  simp only [Draft.absorb, h]
  cases hk : t.kind with
  | comment => exact .comment hk
  | blank => exact .blank hk
  | quoted => exact .item (by simp [hk]) (by simp [hk])
  | other => exact .item (by simp [hk]) (by simp [hk])
  | openParen => exact .openParen hk
  | closeParen => exact .closeParen hk
  | colon =>
    dsimp only
    split
    · next hcolon =>
      obtain ⟨s, hs, hlt⟩ := (Option.any_eq_true _ _).mp hcolon.2.2
      rw [beginItem_of_some hs]
      exact .colon hk hcolon.1 hcolon.2.1 hs (of_decide_eq_true hlt)
    · exact .item (by simp [hk]) (by simp [hk])
  | semicolon =>
    dsimp only
    split
    · next hd => exact .semicolon hk hd
    · exact .item (by simp [hk]) (by simp [hk])
  | openBrace =>
    dsimp only
    split
    · next hd => exact .openBrace hk hd
    · exact .item (by simp [hk]) (by simp [hk])
  | closeBrace =>
    dsimp only
    split
    · next hd => exact .closeBrace hk hd
    · exact .item (by simp [hk]) (by simp [hk])

theorem Valid.absorb {stop i : Nat} (h : d.Valid code i) (hi : i < stop) (hs : stop ≤ code.size) :
    (d.absorb code (tokenAt code stop i)).Valid code (tokenAt code stop i).span.stop := by
  have hsize : i < code.size := Nat.lt_of_lt_of_le hi hs
  have hlt := lt_stop_tokenAt code stop i
  have hitem (hc : (tokenAt code stop i).kind ≠ .comment)
      (hb : (tokenAt code stop i).kind ≠ .blank) :
      (d.beginItem i).Valid code (tokenAt code stop i).span.stop :=
    h.beginItem (tokenAt_solid hsize hc hb) hlt
  have hstep := absorbs (tokenAt_start code stop i) code d
  generalize d.absorb code (tokenAt code stop i) = e at hstep ⊢
  cases hstep with
  | comment => exact h.pushComment (tokenAt_start ..) hlt
  | blank => exact h.mono (Nat.le_of_lt hlt)
  | item hc hb => exact hitem hc hb
  | openParen hk => exact { hitem (by simp [hk]) (by simp [hk]) with }
  | closeParen => exact { h.mono (Nat.le_of_lt hlt) with }
  | colon hk _ _ hs' =>
    obtain ⟨hat, hstop⟩ := tokenAt_char hk rfl
    rw [hstop]
    exact h.setColon hat hs'
  | semicolon hk =>
    obtain ⟨hat, hstop⟩ := tokenAt_char hk rfl
    rw [hstop]
    refine h.addDeclaration _ (Nat.le_of_lt hsize) (Nat.le_succ i) ?_ (Nat.le_refl _)
    intro t ht
    exact ⟨(Option.some.inj ht).symm, hat⟩
  | openBrace hk =>
    obtain ⟨hat, hstop⟩ := tokenAt_char hk rfl
    rw [hstop]
    exact h.openRule hat
  | closeBrace hk =>
    obtain ⟨hat, hstop⟩ := tokenAt_char hk rfl
    rw [hstop]
    have hadd := h.addDeclaration none (Nat.le_of_lt hsize) (Nat.le_refl i)
      (by simp) (Nat.le_refl i)
    exact hadd.closeRule rfl hat

def reading (code : Bytes) (stop i : Nat) (d : Draft) : Draft :=
  (tokens code stop i).foldl (absorb code) d

theorem reading_step {stop i : Nat} (h : i < stop) : reading code stop i d =
    reading code stop (tokenAt code stop i).span.stop (d.absorb code (tokenAt code stop i)) := by
  rw [reading, tokens, if_pos h, List.foldl_cons, reading]

theorem reading_end (code : Bytes) (stop : Nat) (d : Draft) : reading code stop stop d = d := by
  rw [reading, tokens_of_le (Nat.le_refl stop), List.foldl_nil]

theorem Valid.absorb_tokens {stop i : Nat} (h : d.Valid code i) (hi : i ≤ stop)
    (hs : stop ≤ code.size) :
    ((tokens code stop i).foldl (Draft.absorb code) d).Valid code stop :=
  foldl_tokens (fun _ _ hlt hd => hd.absorb hlt hs) h hi

theorem Valid.wellFormed (h : d.Valid code pos) (hi : d.item = none) :
    WellFormed code pos
      { d.sheet with
        rules := d.opened.foldl (fun rules i => rules.modify i fun r =>
          { r with body.stop := pos, span.stop := pos }) d.sheet.rules } := by
  have hn := h.nested
  rw [hi] at hn
  rw [hn.foldl_modify]
  exact
    { rules := hn.settle_formed
      declarations := hn.formed
      declarations_ordered := hn.declarations_ordered
      comments := fun c hc => (h.comments c hc).1
      comments_ordered := h.comments_ordered
      rules_laminar := hn.settle_laminar
      declarations_laminar := hn.settle_declarations
      rule_parent := hn.settle_rule_parent
      declaration_parent := hn.settle_declaration_parent }

theorem Valid.finish {isInline : Bool} (h : d.Valid code pos) (hp : pos ≤ code.size) :
    (d.finish code isInline pos).WellFormed code pos := by
  have hadd := h.addDeclaration none hp (Nat.le_refl pos) (by simp)
    (Nat.le_refl pos)
  simp only [Draft.finish]
  split
  · exact hadd.wellFormed rfl
  · exact (h.endItem (Nat.le_refl pos)).wellFormed rfl

theorem Valid.finish_declarations_le {isInline : Bool} (h : d.Valid code pos)
    (hp : pos ≤ code.size) :
    ∀ e ∈ (d.finish code isInline pos).declarations, e.span.stop ≤ pos := by
  have hadd := h.addDeclaration none hp (Nat.le_refl pos) (by simp)
    (Nat.le_refl pos)
  simp only [Draft.finish]
  split
  · exact hadd.nested.declarations_le
  · exact (h.endItem (Nat.le_refl pos)).nested.declarations_le

end Draft

theorem parseRegion_wellFormed (code : Bytes) (region : Span) (isInline : Bool) :
    (parseRegion code region isInline).WellFormed code (min region.stop code.size) := by
  have hs : min region.stop code.size ≤ code.size := Nat.min_le_right ..
  simp only [parseRegion]
  by_cases hi : region.start ≤ min region.stop code.size
  · exact ((Draft.valid_empty code region.start).absorb_tokens hi hs).finish hs
  · rw [tokens_of_le (by omega)]
    exact (Draft.valid_empty code _).finish hs

theorem parse_declarations_le (code : Bytes) :
    ∀ d ∈ (parse code).declarations, d.span.stop ≤ code.size := by
  have hread := (Draft.valid_empty code 0).absorb_tokens (Nat.zero_le _) (Nat.le_refl code.size)
  simp only [parse, parseRegion, Nat.min_self]
  exact hread.finish_declarations_le (Nat.le_refl _)

end Caret.Stylesheet
