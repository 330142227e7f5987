import Caret.Proofs.Markup.Scanning
import Caret.Proofs.Sequence

namespace Caret.Markup

open Text

variable {code : Bytes} {xml : Bool} {i limit : Nat}

section pairing

theorem sameName_self (xml : Bool) (a : String) : sameName xml a a = true := by
  cases xml <;> simp [sameName]

theorem Pairing.add_closing (p : Pairing) (e : Element) (inside : List Element) (closing : Span) :
    (⟨p.elements ++ (e :: inside).toArray, p.elements.size :: p.opened⟩ : Pairing).add xml
        ⟨e.name, .closing, closing⟩ =
      ⟨p.elements ++ ({ e with closing := some closing } :: inside).toArray, p.opened⟩ := by
  have hmatch : (p.elements ++ (e :: inside).toArray)[p.elements.size]?.any
      (fun f => sameName xml f.name e.name) = true := by
    simp [sameName_self]
  simp only [Pairing.add, List.dropWhile, hmatch, Bool.not_true, modify_append_cons]

theorem Forest.foldl_tags (f : Forest xml) (p : Pairing) (i : Nat) :
    (f.tags i).foldl (Pairing.add xml) p =
      ⟨p.elements ++ ((f.nodes i).map Prod.fst).toArray, p.opened⟩ := by
  induction f generalizing p i with
  | done => simp [tags, nodes]
  | text content rest ih => exact ih p _
  | element name items inside rest ihi ihr =>
    have hbegin (span : Span) : p.add xml ⟨name.text, .opening, span⟩ =
        ⟨p.elements.push ⟨name.text, span, none⟩, p.elements.size :: p.opened⟩ := rfl
    have hpush (e : Element) (l : List Element) :
        p.elements.push e ++ l.toArray = p.elements ++ (e :: l).toArray := by simp
    simp only [tags, nodes, List.foldl_cons, List.foldl_append, List.map_cons, List.map_append, hbegin,
      ihi, hpush]
    rw [p.add_closing ⟨name.text, _, none⟩, ihr]
    simp
  | closed name items rest ih =>
    simp only [tags, nodes, List.foldl_cons, List.map_cons, ih]
    simp [Pairing.add]

end pairing

section attributes

theorem attributesFrom_blanks (g : Blanks) (h : Written code i g.text)
    (hs : i + (bytes g.text).size ≤ limit) :
    attributesFrom code limit i = attributesFrom code limit (i + (bytes g.text).size) := by
  apply g.eq_of_step h
  intro k hk htest
  obtain ⟨c, hat, hb⟩ := test_iff.mp htest
  rw [attributesFrom, if_pos (by omega), if_pos (by simp [test_of_at? hat, isBetween, hb])]

theorem isItemChar_of_le {c : Char} (h : 128 ≤ c.toNat) : isItemChar c = true := by
  have hne := ne_of_le h
  simp [isItemChar, isBlank, isQuote, hne ' ' (by decide), hne '\t' (by decide),
    hne '\n' (by decide), hne '\x0c' (by decide), hne '\r' (by decide), hne '"' (by decide),
    hne '\'' (by decide), hne '=' (by decide), hne '/' (by decide), hne '<' (by decide),
    hne '>' (by decide), hne '{' (by decide)]

variable (name : ItemName)

theorem ItemName.test_isItemChar (h : Written code i name.text) {k : Nat} (hik : i ≤ k)
    (hk : k < i + (bytes name.text).size) : test isItemChar code k = true :=
  Written.test h (forall_encode_of_forall (fun _ => isItemChar_of_le) name.all) hik hk

theorem ItemName.at?_first (h : Written code i name.text) :
    ∃ c, at? code i = some c ∧ isItemChar c = true :=
  test_iff.mp (name.test_isItemChar h (Nat.le_refl i)
    (Nat.lt_add_of_pos_right (size_bytes_pos name.nonempty)))

def goesOn (c : Char) : Bool := !isBlank c && c != '=' && c != '>' && c != '/'

theorem not_goesOn_of_isBlank {c : Char} (h : isBlank c = true) : goesOn c = false := by
  simp [goesOn, h]

theorem ItemName.attributeNameEnd_eq (h : Written code i name.text)
    (hs : i + (bytes name.text).size ≤ limit)
    (hnext : test goesOn code (i + (bytes name.text).size) = false) :
    attributeNameEnd code limit i = i + (bytes name.text).size := by
  obtain ⟨c, hat, hc⟩ := name.at?_first h
  have hbrace : test (· == '{') code i = false := by
    rw [test_of_at? hat]
    simp only [isItemChar, Bool.and_eq_true, bne_iff_ne] at hc
    exact beq_false_of_ne hc.2
  rw [attributeNameEnd, if_neg (by simp [hbrace])]
  apply Text.skip_eq (Nat.le_add_right ..) hs _ fun _ => hnext
  intro k hik hk
  obtain ⟨d, hd, hitem⟩ := test_iff.mp (name.test_isItemChar h hik hk)
  rw [test_of_at? hd]
  simp only [isItemChar, Bool.and_eq_true, bne_iff_ne] at hitem
  simp [goesOn, hitem]

structure Ends (code : Bytes) (limit i : Nat) : Prop where
  lt : i < limit
  char : ∃ c, at? code i = some c ∧ (c = '>' ∨ c = '/')

theorem attributeValue?_eq_none {j : Nat} {c : Char} (hskip : skip isBlank code limit i = j)
    (hat : at? code j = some c) (hc : c ≠ '=') : attributeValue? code limit i = none := by
  simp [attributeValue?, hskip, test_of_at? hat, hc]

theorem Items.attributeValue?_eq_none (items : Items) (h : Written code i items.text)
    (hends : Ends code limit (i + (bytes items.text).size)) : attributeValue? code limit i = none := by
  have hnamed (before : Parting) (name : ItemName) (hbefore : Written code i before.text)
      (hname : Written code (i + (bytes before.text).size) name.text)
      (hs : i + (bytes before.text).size ≤ limit) : attributeValue? code limit i = none := by
    obtain ⟨c, hat, hc⟩ := name.at?_first hname
    simp only [isItemChar, Bool.and_eq_true, bne_iff_ne, Bool.not_eq_true'] at hc
    exact Markup.attributeValue?_eq_none
      (Blanks.skip_eq before.toStretch hbefore hs hat hc.1.1.1.1.1.1) hat hc.1.1.1.1.2
  have hlt := hends.lt
  cases items with
  | done =>
    obtain ⟨c, hat, hc⟩ := hends.char
    refine Markup.attributeValue?_eq_none (skip_eq_self ?_) hat ?_
    · refine (test_of_at? hat).trans ?_
      rcases hc with rfl | rfl <;> rfl
    · rcases hc with rfl | rfl <;> decide
  | bare before name rest =>
    simp only [text, written_append, size_bytes_append] at h hlt
    exact hnamed before name h.1.1 h.1.2 (by omega)
  | valued before name gap gap' value rest =>
    simp only [text, written_append, size_bytes_append] at h hlt
    exact hnamed before name h.1.1.1.1.1.1 h.1.1.1.1.1.2 (by omega)

theorem Quoted.at?_first (value : Quoted) (h : Written code i value.text) :
    at? code i = some value.quote := by
  simp only [Quoted.text, written_append, written_singleton (isQuote_ascii value.quotes)] at h
  exact h.1.1

theorem attributeValue?_eq_some (gap gap' : Blanks) (value : Quoted)
    (hgap : Written code i gap.text) {equals : Nat} (he : i + (bytes gap.text).size = equals)
    (hat : at? code equals = some '=') (hgap' : Written code (equals + 1) gap'.text)
    (hvalue : Written code (equals + 1 + (bytes gap'.text).size) value.text)
    (hs : equals + 1 + (bytes gap'.text).size + (bytes value.text).size ≤ limit) :
    attributeValue? code limit i = some ⟨equals + 1 + (bytes gap'.text).size,
      equals + 1 + (bytes gap'.text).size + (bytes value.text).size⟩ := by
  have hquote := value.at?_first hvalue
  have hsize := value.size_text
  have hblank : isBlank value.quote = false := Bool.eq_false_iff.mpr fun hb => by
    have hq := value.quotes
    rcases isBlank_iff.mp hb with hb | hb | hb | hb | hb <;> rw [hb] at hq <;>
      exact absurd hq (by decide)
  have hskip : skip isBlank code limit i = equals := by
    rw [← he]
    exact gap.skip_eq hgap (by omega) (he ▸ hat) rfl
  have hskip' := gap'.skip_eq hgap' (by omega : _ ≤ limit) hquote hblank
  have hbegins : beginsValue value.quote = true := by simp [beginsValue, value.quotes]
  have hlt : equals < limit := by omega
  have hlt' : equals + 1 + (bytes gap'.text).size < limit := by omega
  simp [attributeValue?, hskip, hlt, test_of_at? hat, hskip', attributeValueEnd, hlt',
    test_of_at? hquote, hbegins, value.valueEnd_eq hvalue, Nat.min_eq_right hs]

theorem ItemName.attributesFrom_eq (h : Written code i name.text)
    (hs : i + (bytes name.text).size ≤ limit)
    (hnext : test goesOn code (i + (bytes name.text).size) = false) {value : Option Span}
    (hvalue : attributeValue? code limit (i + (bytes name.text).size) = value) {stop : Nat}
    (hstop : value.elim (i + (bytes name.text).size) (·.stop) = stop) (hlt : i < stop) :
    attributesFrom code limit i =
      ⟨⟨i, i + (bytes name.text).size⟩, value⟩ :: attributesFrom code limit stop := by
  have hpos := size_bytes_pos name.nonempty
  obtain ⟨c, hat, hc⟩ := name.at?_first h
  simp only [isItemChar, Bool.and_eq_true, bne_iff_ne, Bool.not_eq_true'] at hc
  obtain ⟨⟨⟨⟨⟨⟨hblank, -⟩, -⟩, hslash⟩, -⟩, hgt⟩, -⟩ := hc
  have hend := name.attributeNameEnd_eq h hs hnext
  rw [attributesFrom, if_pos (by omega), if_neg (by simp [test_of_at? hat, isBetween, hblank, hslash]),
    if_neg (by simp [test_of_at? hat, hgt])]
  simp only [hend, hvalue, hstop, Nat.max_eq_right (Nat.succ_le_of_lt hlt)]
  rw [if_neg (by omega)]

theorem Items.attributesFrom_eq (items : Items) (h : Written code i items.text)
    (hends : Ends code limit (i + (bytes items.text).size)) :
    attributesFrom code limit i =
      items.attributes i ++ attributesFrom code limit (i + (bytes items.text).size) := by
  have hlt := hends.lt
  obtain ⟨c, hat, hc⟩ := hends.char
  have hstops : goesOn c = false := by rcases hc with rfl | rfl <;> rfl
  induction items generalizing i with
  | done => rfl
  | bare before name rest ih =>
    simp only [text, written_append, size_bytes_append, ← Nat.add_assoc] at h hends hlt hat ⊢
    obtain ⟨⟨hbefore, hname⟩, hrest⟩ := h
    have hpos := size_bytes_pos name.nonempty
    rw [attributesFrom_blanks before.toStretch hbefore (by omega),
      name.attributesFrom_eq hname (by omega)
        (rest.test_eq_false hrest hat hstops fun _ => not_goesOn_of_isBlank)
        (rest.attributeValue?_eq_none hrest hends) rfl (by simp only [Option.elim_none]; omega),
      Option.elim_none, ih hrest hends hlt hat, attributes]
    rfl
  | valued before name gap gap' value rest ih =>
    simp only [text, written_append, size_bytes_append, written_singleton (c := '=') (by decide),
      size_bytes_singleton (c := '=') (by decide), ← Nat.add_assoc] at h hends hlt hat ⊢
    obtain ⟨⟨⟨⟨⟨⟨hbefore, hname⟩, hgap⟩, hequals⟩, hgap'⟩, hvalue⟩, hrest⟩ := h
    rw [attributesFrom_blanks before.toStretch hbefore (by omega),
      name.attributesFrom_eq hname (by omega)
        (gap.test_eq_false hgap hequals rfl fun _ => not_goesOn_of_isBlank)
        (attributeValue?_eq_some gap gap' value hgap rfl hequals hgap' hvalue (by omega)) rfl
        (by simp only [Option.elim_some]; omega),
      Option.elim_some, ih hrest hends hlt hat, attributes]
    rfl

theorem attributesFrom_gt (hat : at? code i = some '>') : attributesFrom code limit i = [] := by
  rw [attributesFrom]
  simp [test_of_at? hat, isBetween, isBlank]

theorem attributesFrom_slash (hat : at? code i = some '/') :
    attributesFrom code limit i = attributesFrom code limit (i + 1) := by
  by_cases hi : i < limit
  · rw [attributesFrom, if_pos hi, if_pos (by simp [test_of_at? hat, isBetween])]
  · rw [attributesFrom, if_neg hi, attributesFrom, if_neg (by omega)]

theorem Items.attributes_eq (name : TagName) (items : Items) {stop : Nat} {c : Char}
    (hname : Written code (i + 1) name.text)
    (hitems : Written code (i + 1 + (bytes name.text).size) items.text)
    (hat : at? code (i + 1 + (bytes name.text).size + (bytes items.text).size) = some c)
    (hc : c = '>' ∨ c = '/') (hs : stop ≤ code.size)
    (hlt : i + 1 + (bytes name.text).size + (bytes items.text).size < stop)
    (hend : attributesFrom code stop (i + 1 + (bytes name.text).size + (bytes items.text).size) = []) :
    Markup.attributes code ⟨i, stop⟩ = items.attributes (i + 1 + (bytes name.text).size) := by
  have hnext : test isNameChar code (i + 1 + (bytes name.text).size) = false := by
    apply items.test_eq_false hitems hat _ fun _ => not_isNameChar_of_isBlank
    rcases hc with rfl | rfl <;> decide
  rw [Markup.attributes, name.nameEnd_eq hname hnext (by omega)]
  simp only [Nat.min_eq_left hs]
  rw [items.attributesFrom_eq hitems ⟨hlt, c, hat, hc⟩, hend, List.append_nil]

theorem Forest.attributes_eq (f : Forest xml) (h : Written code i f.written) :
    ∀ n ∈ f.nodes i, attributes code n.1.opening = n.2 := by
  induction f generalizing i with
  | done => simp [nodes]
  | text content rest ih =>
    rw [written, written_append] at h
    exact ih h.2
  | element name items inside rest ihi ihr =>
    obtain ⟨-, hname, hitems, hgt, hinside, -, -, -, -, hrest⟩ := (written_element ..).mp h
    simp only [nodes, List.forall_mem_cons, List.forall_mem_append]
    refine ⟨?_, ihi hinside, ihr hrest⟩
    exact items.attributes_eq name.toTagName hname hitems hgt (.inl rfl) (lt_size_of_at? hgt)
      (Nat.lt_succ_self _) (attributesFrom_gt hgt)
  | closed name items rest ih =>
    obtain ⟨-, hname, hitems, hslash, hgt, hrest⟩ := (written_closed ..).mp h
    simp only [nodes, List.forall_mem_cons]
    refine ⟨?_, ih hrest⟩
    exact items.attributes_eq name.toTagName hname hitems hslash (.inr rfl) (lt_size_of_at? hgt)
      (by omega) ((attributesFrom_slash hslash).trans (attributesFrom_gt hgt))

end attributes

def Attribute.read (code : Bytes) (a : Attribute) : String × Option String :=
  (Text.read code a.name, a.value.map (Text.read code))

theorem Items.read_attributes (items : Items) (h : Written code i items.text) :
    (items.attributes i).map (Attribute.read code) = items.values := by
  induction items generalizing i with
  | done => rfl
  | bare before name rest ih =>
    simp only [text, written_append, size_bytes_append, ← Nat.add_assoc] at h
    obtain ⟨⟨-, hname⟩, hrest⟩ := h
    simp only [attributes, values, List.map_cons, ih hrest, Attribute.read, hname.read_eq,
      Option.map_none]
  | valued before name gap gap' value rest ih =>
    simp only [text, written_append, size_bytes_append, size_bytes_singleton (c := '=') (by decide),
      ← Nat.add_assoc] at h
    obtain ⟨⟨⟨⟨⟨⟨-, hname⟩, -⟩, -⟩, -⟩, hvalue⟩, hrest⟩ := h
    simp only [attributes, values, List.map_cons, ih hrest, Attribute.read, hname.read_eq,
      hvalue.read_eq, Option.map_some]

theorem Forest.read_nodes (f : Forest xml) (h : Written code i f.written) :
    (f.nodes i).map (fun n => n.2.map (Attribute.read code)) = f.values := by
  induction f generalizing i with
  | done => rfl
  | text content rest ih =>
    rw [written, written_append] at h
    exact ih h.2
  | element name items inside rest ihi ihr =>
    obtain ⟨-, -, hitems, -, hinside, -, -, -, -, hrest⟩ := (written_element ..).mp h
    simp only [nodes, values, List.map_cons, List.map_append, items.read_attributes hitems,
      ihi hinside, ihr hrest]
  | closed name items rest ih =>
    obtain ⟨-, -, hitems, -, -, hrest⟩ := (written_closed ..).mp h
    simp only [nodes, values, List.map_cons, items.read_attributes hitems, ih hrest]

theorem elements_forest (f : Forest xml) :
    let code := bytes f.written
    elements code xml = (f.nodes 0).map Prod.fst ∧
      (∀ n ∈ f.nodes 0, attributes code n.1.opening = n.2) ∧
      (f.nodes 0).map (fun n => n.2.map (Attribute.read code)) = f.values := by
  have hw := written_self f.written
  refine ⟨?_, f.attributes_eq hw, f.read_nodes hw⟩
  have htags : tags (bytes f.written) xml = f.tags 0 := by
    have hrest : tagsFrom (bytes f.written) xml (bytes f.written).size = [] := by
      rw [tagsFrom, if_neg (Nat.lt_irrefl _)]
    rw [tags, f.tagsFrom_eq hw (by omega), Nat.zero_add, hrest, List.append_nil]
  rw [elements, htags, f.foldl_tags]
  simp

example : ∃ f : Forest true, f.written = "a<b c='d'>e</b>" ∧
    (f.nodes 0).map Prod.fst = [⟨"b", ⟨1, 10⟩, some ⟨11, 15⟩⟩] := by
  let items : Items := .valued ⟨⟨" ", List.all_eq_true.mp (by decide)⟩, by decide⟩
    ⟨⟨"c", List.all_eq_true.mp (by decide)⟩, by decide⟩ ⟨"", List.all_eq_true.mp (by decide)⟩
    ⟨"", List.all_eq_true.mp (by decide)⟩ ⟨'\'', by decide, "d", by decide⟩ .done
  let name : ElementName true := ⟨⟨"b", by decide, List.all_eq_true.mp (by decide)⟩, nofun⟩
  exact ⟨.text ⟨"a", List.all_eq_true.mp (by decide)⟩ (.element name items
    (.text ⟨"e", List.all_eq_true.mp (by decide)⟩ .done) .done), by decide, by decide⟩

end Caret.Markup
