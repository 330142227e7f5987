import Caret.Proofs.Sequence
import Caret.Proofs.Stylesheet.Phrase

namespace Caret.Stylesheet

open Text

variable {code : Bytes} {stop i : Nat} {d : Draft}

namespace Draft

def extend (d : Draft) (rules : List Rule) (declarations : List Declaration) : Draft :=
  { d with
    sheet.rules := d.sheet.rules ++ rules.toArray
    sheet.declarations := d.sheet.declarations ++ declarations.toArray }

theorem extend_nil (d : Draft) : d.extend [] [] = d := by simp [extend]

theorem extend_extend (d : Draft) (r r' : List Rule) (e e' : List Declaration) :
    (d.extend r e).extend r' e' = d.extend (r ++ r') (e ++ e') := by
  simp [extend]

def enter (d : Draft) (r : Rule) : Draft :=
  { d with
    sheet.rules := d.sheet.rules.push r
    opened := d.sheet.rules.size :: d.opened }

@[simp]
theorem extend_opened (d : Draft) (rules : List Rule) (declarations : List Declaration) :
    (d.extend rules declarations).opened = d.opened := rfl

@[simp]
theorem extend_size (d : Draft) (rules : List Rule) (declarations : List Declaration) :
    (d.extend rules declarations).sheet.rules.size = d.sheet.rules.size + rules.length := by
  simp [extend]

@[simp]
theorem enter_opened (d : Draft) (r : Rule) : (d.enter r).opened = d.sheet.rules.size :: d.opened :=
  rfl

@[simp]
theorem enter_size (d : Draft) (r : Rule) : (d.enter r).sheet.rules.size = d.sheet.rules.size + 1 := by
  simp [enter]

structure Idle (d : Draft) : Prop where
  item : d.item = none
  colon : d.colon = none
  depth : d.depth = 0

theorem Idle.extend (h : d.Idle) (rules : List Rule) (declarations : List Declaration) :
    (d.extend rules declarations).Idle := ⟨h.item, h.colon, h.depth⟩

theorem Idle.enter (h : d.Idle) (r : Rule) : (d.enter r).Idle := ⟨h.item, h.colon, h.depth⟩

theorem Idle.eq (h : d.Idle) : { d with item := none, colon := none } = d := by
  obtain ⟨hi, hc, -⟩ := h
  cases d
  simp_all

theorem closeRule_enter (d : Draft) (r : Rule) (rules : List Rule) (declarations : List Declaration)
    (brace : Nat) : ((d.enter r).extend rules declarations).closeRule brace =
      d.extend ({ r with body.stop := brace, span.stop := brace + 1, closed := true } :: rules)
        declarations := by
  simp [closeRule, enter, extend, modify_append_cons]

theorem reading_openBrace {start fin : Nat} (h : at? code i = some '{') (hs : i < stop)
    (hd : d.depth = 0) (hi : d.item = some start) (hle : start ≤ i)
    (htrim : trim code ⟨start, i⟩ = ⟨start, fin⟩) :
    d.reading code stop i = (d.endItem.enter
      { selector := ⟨start, fin⟩
        body := .empty (i + 1)
        span := ⟨start, i + 1⟩
        closed := false
        parent := d.opened.head? }).reading code stop (i + 1) := by
  rw [reading_char h hs rfl (by simp)]
  have hspan : Span.between start (i + 1) = ⟨start, i + 1⟩ :=
    Span.between_of_le (Nat.le_succ_of_le hle)
  simp only [Token.Kind.ofChar, absorb, openRule, hi, Option.getD_some, Span.between_of_le hle, htrim,
    hspan]
  simp [hd, endItem, enter, isBlank]

theorem Idle.reading_closeBrace (hd : d.Idle) (h : at? code i = some '}') (hs : i < stop) :
    d.reading code stop i = (d.closeRule i).reading code stop (i + 1) := by
  have hadd := addDeclaration_of_none hd.item code i none
  have hend : d.endItem = d := hd.eq
  rw [reading_char h hs rfl (by simp)]
  simp [Token.Kind.ofChar, absorb, hd.depth, hadd, hend, isBlank]

theorem reading_semicolon {start nameStop colon first fin : Nat} (h : at? code i = some ';')
    (hs : i < stop) (hd : d.depth = 0) (hi : d.item = some start) (hc : d.colon = some colon)
    (hle : start ≤ colon) (hlt : colon < fin) (hfin : fin ≤ i)
    (htrim : trim code ⟨start, i⟩ = ⟨start, fin⟩)
    (hname : trim code ⟨start, colon⟩ = ⟨start, nameStop⟩)
    (hvalue : trim code ⟨colon + 1, fin⟩ = ⟨first, fin⟩) :
    d.reading code stop i = (d.endItem.extend []
      [{ name := ⟨start, nameStop⟩
         value := ⟨first, fin⟩
         span := ⟨start, i + 1⟩
         colon := some colon
         terminator := some i
         parent := d.opened.head? }]).reading code stop (i + 1) := by
  rw [reading_char h hs rfl (by simp)]
  have hsolid : ¬(fin ≤ start) := by omega
  have hspan : Span.between start (i + 1) = ⟨start, i + 1⟩ := Span.between_of_le (by omega)
  have hitem : Span.between start i = ⟨start, i⟩ := Span.between_of_le (by omega)
  have hafter : Span.between (colon + 1) fin = ⟨colon + 1, fin⟩ := Span.between_of_le hlt
  simp only [Token.Kind.ofChar, absorb, addDeclaration, hi, hc, nameAndValue, hitem, htrim,
    Span.between_of_le hle, hname, hafter, hvalue, Option.elim_some, hspan, Span.isEmpty]
  simp [hd, hsolid, endItem, extend, isBlank]

end Draft

theorem Draft.Idle.reading_selector (hd : d.Idle) (before : Blanks) (selector : Phrase)
    (gap : Blanks)
    (hbefore : Written code i before.text)
    (hselector : Written code (i + (bytes before.text).size) selector.text)
    (hgap : Written code (i + (bytes before.text).size + (bytes selector.text).size) gap.text)
    {brace : Nat} (hbrace : i + (bytes before.text).size + (bytes selector.text).size +
      (bytes gap.text).size = brace)
    (hat : at? code brace = some '{') (hs : brace < stop) :
    d.reading code stop i = (d.enter
      { selector := ⟨i + (bytes before.text).size,
          i + (bytes before.text).size + (bytes selector.text).size⟩
        body := .empty (brace + 1)
        span := ⟨i + (bytes before.text).size, brace + 1⟩
        closed := false
        parent := d.opened.head? }).reading code stop (brace + 1) := by
  subst hbrace
  have hnext := gap.at?_ne (e := '*') hgap hat (by decide) rfl
  obtain ⟨colon, hread, -⟩ := selector.reading_eq hselector (by omega : _ ≤ stop) hnext hd.depth
  rw [Draft.reading_blanks before hbefore (by omega), hread, Draft.reading_blanks gap hgap (by omega)]
  have htrim := selector.trim_eq hselector (Nat.le_refl _) (Nat.le_add_right ..)
    (Nat.le_of_lt (lt_size_of_at? hat)) (fun n h₁ h₂ => absurd h₂ (Nat.not_lt.mpr h₁))
    fun n => gap.test hgap
  rw [Draft.beginItem_of_none hd.item,
    Draft.reading_openBrace hat hs (by exact hd.depth) rfl (by omega) htrim, Draft.endItem, hd.eq]

theorem Draft.Idle.reading_name (hd : d.Idle) (before : Blanks) (name : Name) (gap : Blanks)
    {colon : Nat} (hbefore : Written code i before.text)
    (hname : Written code (i + (bytes before.text).size) name.text)
    (hgap : Written code (i + (bytes before.text).size + (bytes name.text).size) gap.text)
    (hcolon : i + (bytes before.text).size + (bytes name.text).size + (bytes gap.text).size = colon)
    (hat : at? code colon = some ':') (hs : colon < stop) :
    d.reading code stop i =
      { d with item := some (i + (bytes before.text).size), colon := some colon }.reading code stop
        (colon + 1) := by
  let begun : Draft := { d with item := some (i + (bytes before.text).size) }
  have hread : d.reading code stop (i + (bytes before.text).size) =
      begun.reading code stop colon := by
    have hsame : (bytes name.toPhrase.text).size = (bytes name.text).size := rfl
    obtain ⟨c, hread, hnone⟩ := name.toPhrase.reading_eq hname
      (by omega : _ ≤ stop) (gap.at?_ne hgap (hcolon ▸ hat) (by decide) rfl) hd.depth
    obtain rfl : c = d.colon := hnone (.inr fun hmem => (name.plain ':' hmem).2 rfl)
    rw [hread, Draft.beginItem_of_none hd.item, ← hcolon]
    exact Draft.reading_blanks gap hgap (by omega)
  rw [Draft.reading_blanks before hbefore (by omega), hread, Draft.reading_char hat hs rfl (by simp)]
  have hlt : i + (bytes before.text).size < colon := by
    have := name.size_pos
    omega
  simp [Token.Kind.ofChar, isBlank, Draft.absorb, Draft.beginItem, begun, hd.depth, hd.colon, hlt]

theorem Draft.reading_value {start colon semicolon : Nat} (hd : d.depth = 0)
    (hi : d.item = some start) (hc : d.colon = some colon) (gap : Blanks) (value : Phrase)
    (gap' : Blanks) (hgap : Written code i gap.text)
    (hvalue : Written code (i + (bytes gap.text).size) value.text)
    (hgap' : Written code (i + (bytes gap.text).size + (bytes value.text).size) gap'.text)
    (hsemicolon : i + (bytes gap.text).size + (bytes value.text).size + (bytes gap'.text).size =
      semicolon)
    (hat : at? code semicolon = some ';') (hs : semicolon < stop) :
    d.reading code stop i = d.reading code stop semicolon := by
  obtain ⟨c, hread, hsame⟩ := value.reading_eq hvalue (by omega : _ ≤ stop)
    (gap'.at?_ne hgap' (hsemicolon ▸ hat) (by decide) rfl) hd
  -- the item has its colon, so none in the value is noted
  obtain rfl : c = d.colon := hsame (.inl (by simp [hc]))
  rw [Draft.reading_blanks gap hgap (by omega), hread, Draft.beginItem_of_some hi, ← hsemicolon]
  exact Draft.reading_blanks gap' hgap' (by omega)

theorem trim_declaration {first last stop : Nat} {name : Name} {value : Phrase} {gap : Blanks}
    (hname : Written code first name.text) (hvalue : Written code last value.text)
    (hgap : Written code (last + (bytes value.text).size) gap.text)
    (hstop : last + (bytes value.text).size + (bytes gap.text).size = stop)
    (hle : first + (bytes name.text).size ≤ last) (hs : stop ≤ code.size) :
    trim code ⟨first, stop⟩ = ⟨first, last + (bytes value.text).size⟩ := by
  have hpos := name.size_pos
  apply trim_eq (i := first) hs (Nat.le_refl _)
  · omega
  · simp only
    omega
  · exact fun n h₁ h₂ => absurd h₂ (Nat.not_lt.mpr h₁)
  · exact name.test_first hname
  · exact value.test_last hvalue
  · exact fun n h₁ h₂ => gap.test hgap h₁ (hstop ▸ h₂)

theorem Draft.Idle.reading_declaration (hd : d.Idle) (before : Blanks) (name : Name)
    (gap gap' : Blanks) (value : Phrase) (gap'' : Blanks) {colon semicolon : Nat}
    (hbefore : Written code i before.text)
    (hname : Written code (i + (bytes before.text).size) name.text)
    (hgap : Written code (i + (bytes before.text).size + (bytes name.text).size) gap.text)
    (hcolon : i + (bytes before.text).size + (bytes name.text).size + (bytes gap.text).size = colon)
    (hat : at? code colon = some ':') (hgap' : Written code (colon + 1) gap'.text)
    (hvalue : Written code (colon + 1 + (bytes gap'.text).size) value.text)
    (hgap'' : Written code (colon + 1 + (bytes gap'.text).size + (bytes value.text).size) gap''.text)
    (hsemicolon : colon + 1 + (bytes gap'.text).size + (bytes value.text).size +
      (bytes gap''.text).size = semicolon)
    (hat' : at? code semicolon = some ';') (hs : semicolon < stop) :
    d.reading code stop i = (d.extend []
      [{ name := ⟨i + (bytes before.text).size,
          i + (bytes before.text).size + (bytes name.text).size⟩
         value := ⟨colon + 1 + (bytes gap'.text).size,
          colon + 1 + (bytes gap'.text).size + (bytes value.text).size⟩
         span := ⟨i + (bytes before.text).size, semicolon + 1⟩
         colon := some colon
         terminator := some semicolon
         parent := d.opened.head? }]).reading code stop (semicolon + 1) := by
  have hsize := lt_size_of_at? hat'
  have hpos := value.size_pos
  have htrim := trim_declaration hname hvalue hgap'' hsemicolon (by omega) (Nat.le_of_lt hsize)
  have htrimName := name.trim_eq hname (Nat.le_refl _) (Nat.le_add_right ..) (by omega)
    (fun n h₁ h₂ => absurd h₂ (Nat.not_lt.mpr h₁)) fun n => gap.test hgap
  rw [hcolon] at htrimName
  have htrimValue := value.trim_eq hvalue (Nat.le_add_right ..) (Nat.le_refl _) (by omega)
    (fun n => gap'.test hgap') fun n h₁ h₂ => absurd h₂ (Nat.not_lt.mpr h₁)
  let parted : Draft := { d with item := some (i + (bytes before.text).size), colon := some colon }
  calc d.reading code stop i
      = parted.reading code stop (colon + 1) :=
        hd.reading_name before name gap hbefore hname hgap hcolon hat (by omega)
    _ = parted.reading code stop semicolon :=
        Draft.reading_value hd.depth rfl rfl gap' value gap'' hgap' hvalue hgap'' hsemicolon hat' hs
    _ = _ := by
      rw [Draft.reading_semicolon (d := parted) hat' hs hd.depth rfl rfl (by omega) (by omega)
        (by omega) htrim htrimName htrimValue, Draft.endItem, hd.eq]

theorem Items.reading_eq (t : Items) (h : Written code i t.text)
    (hs : i + (bytes t.text).size ≤ stop) (hd : d.Idle) :
    d.reading code stop i =
      (d.extend (t.rules i d.sheet.rules.size d.opened.head?)
        (t.declarations i d.sheet.rules.size d.opened.head?)).reading code stop
          (i + (bytes t.text).size) := by
  induction t generalizing i d with
  | done gap =>
    simp only [rules, declarations, Draft.extend_nil]
    exact Draft.reading_blanks gap h hs
  | rule before selector gap inside rest ihi ihr =>
    obtain ⟨hbefore, hselector, hgap, hbrace, hinside, hclose, hrest⟩ := (written_rule ..).mp h
    rw [size_rule] at hs ⊢
    simp only [← Nat.add_assoc] at hs ⊢
    rw [hd.reading_selector before selector gap hbefore hselector hgap rfl hbrace (by omega),
      ihi hinside (by omega) (hd.enter _),
      ((hd.enter _).extend _ _).reading_closeBrace hclose (by omega),
      Draft.closeRule_enter, ihr hrest (by omega) (hd.extend _ _), Draft.extend_extend]
    have hcount : d.sheet.rules.size + (inside.selectors.length + 1) =
        d.sheet.rules.size + 1 + inside.selectors.length := by omega
    simp only [rules, declarations, Draft.enter_size, Draft.enter_opened, Draft.extend_size,
      Draft.extend_opened, List.head?_cons, List.cons_append, List.length_cons, length_rules, hcount,
      Span.empty]
  | declaration before name gap gap' value gap'' rest ih =>
    obtain ⟨hbefore, hname, hgap, hcolon, hgap', hvalue, hgap'', hsemicolon, hrest⟩ :=
      (written_declaration ..).mp h
    rw [size_declaration] at hs ⊢
    simp only [← Nat.add_assoc] at hs ⊢
    rw [hd.reading_declaration before name gap gap' value gap'' hbefore hname hgap rfl hcolon hgap'
      hvalue hgap'' rfl hsemicolon (by omega), ih hrest (by omega) (hd.extend _ _),
      Draft.extend_extend]
    simp [rules, declarations]

theorem Items.read_rules (t : Items) (h : Written code i t.text) (count : Nat) (parent : Option Nat) :
    (t.rules i count parent).map (fun r => read code r.selector) = t.selectors := by
  induction t generalizing i count parent with
  | done gap => rfl
  | rule before selector gap inside rest ihi ihr =>
    obtain ⟨-, hselector, -, -, hinside, -, hrest⟩ := (written_rule ..).mp h
    simp only [rules, selectors, List.map_cons, List.map_append, hselector.read_eq, ihi hinside,
      ihr hrest]
  | declaration before name gap gap' value gap'' rest ih =>
    obtain ⟨-, -, -, -, -, -, -, -, hrest⟩ := (written_declaration ..).mp h
    exact ih hrest ..

theorem Items.read_declarations (t : Items) (h : Written code i t.text) (count : Nat)
    (parent : Option Nat) :
    (t.declarations i count parent).map (fun d => (read code d.name, read code d.value)) =
      t.properties := by
  induction t generalizing i count parent with
  | done gap => rfl
  | rule before selector gap inside rest ihi ihr =>
    obtain ⟨-, -, -, -, hinside, -, hrest⟩ := (written_rule ..).mp h
    simp only [declarations, properties, List.map_append, ihi hinside, ihr hrest]
  | declaration before name gap gap' value gap'' rest ih =>
    obtain ⟨-, hname, -, -, -, hvalue, -, -, hrest⟩ := (written_declaration ..).mp h
    simp only [declarations, properties, List.map_cons, hname.read_eq, hvalue.read_eq, ih hrest]

theorem parse_items (t : Items) :
    let code := bytes t.text
    parse code =
        { rules := (t.rules 0 0 none).toArray, declarations := (t.declarations 0 0 none).toArray } ∧
      (t.rules 0 0 none).map (fun r => read code r.selector) = t.selectors ∧
      (t.declarations 0 0 none).map (fun d => (read code d.name, read code d.value)) =
        t.properties := by
  have hw := written_self t.text
  refine ⟨?_, t.read_rules hw 0 none, t.read_declarations hw 0 none⟩
  have hread := t.reading_eq (d := {}) hw (Nat.le_of_eq (Nat.zero_add _)) ⟨rfl, rfl, rfl⟩
  rw [Nat.zero_add, Draft.reading_end, Draft.reading] at hread
  simp only [parse, parseRegion, Nat.min_self, hread]
  simp [Draft.finish, Draft.extend]

example : ∃ t : Items, t.text = "a{b:c;}" ∧ t.selectors = ["a"] ∧ t.properties = [("b", "c")] := by
  let gap : Blanks := ⟨"", List.all_eq_true.mp (by decide)⟩
  let a : Name := ⟨⟨"a", by decide, by decide, by decide⟩, by simp; decide⟩
  let b : Name := ⟨⟨"b", by decide, by decide, by decide⟩, by simp; decide⟩
  let c : Name := ⟨⟨"c", by decide, by decide, by decide⟩, by simp; decide⟩
  exact ⟨.rule gap a.toPhrase gap (.declaration gap b gap gap c.toPhrase gap (.done gap)) (.done gap),
    by decide, by decide, by decide⟩

end Caret.Stylesheet
