import Caret.Proofs.Markup.Forest
import Caret.Proofs.Markup.Tag

namespace Caret.Markup

open Text

variable {code : Bytes} {xml : Bool} {i : Nat}

def isInert (c : Char) : Bool := !beginsValue c && c != '>' && c != '/' && c != '<'

theorem isInert_of_le {c : Char} (h : 128 ≤ c.toNat) : isInert c = true := by
  have hne := ne_of_le h
  simp [isInert, beginsValue, isQuote, hne '"' (by decide), hne '\'' (by decide),
    hne '{' (by decide), hne '>' (by decide), hne '/' (by decide), hne '<' (by decide)]

theorem isInert_of_isItemChar {c : Char} (h : isItemChar c = true) : isInert c = true := by
  simp only [isItemChar, Bool.and_eq_true, Bool.not_eq_true', bne_iff_ne] at h
  obtain ⟨⟨⟨⟨⟨⟨-, hq⟩, -⟩, hslash⟩, hlt⟩, hgt⟩, hbrace⟩ := h
  simp [isInert, beginsValue, hq, hslash, hlt, hgt, hbrace]

theorem isInert_of_isBlank {c : Char} (h : isBlank c = true) : isInert c = true := by
  rcases isBlank_iff.mp h with rfl | rfl | rfl | rfl | rfl <;> rfl

section opening

theorem openingEnd?_of_inert (h : test isInert code i = true) :
    openingEnd? code i = openingEnd? code (i + 1) := by
  obtain ⟨c, hat, hc⟩ := test_iff.mp h
  simp only [isInert, Bool.and_eq_true, Bool.not_eq_true', bne_iff_ne] at hc
  obtain ⟨⟨⟨hvalue, hgt⟩, hslash⟩, hlt⟩ := hc
  rw [openingEnd?]
  simp [lt_size_of_at? hat, test_of_at? hat, hvalue, hgt, hslash, hlt]

theorem openingEnd?_of_written {s : String} (h : Written code i s)
    (hs : ∀ c ∈ s.toList, isInert c = true) :
    openingEnd? code i = openingEnd? code (i + (bytes s).size) :=
  h.eq_of_step (forall_encode_of_forall (fun _ => isInert_of_le) hs) fun _ _ => openingEnd?_of_inert

theorem Quoted.size_text (v : Quoted) : (bytes v.text).size = (bytes v.inside).size + 2 := by
  have hquote : v.quote.toNat < 128 := isQuote_ascii v.quotes
  simp only [Quoted.text, size_bytes_append, size_bytes_singleton hquote]
  omega

theorem Quoted.valueEnd_eq (v : Quoted) (h : Written code i v.text) :
    valueEnd code i = i + (bytes v.text).size := by
  have hquote : v.quote.toNat < 128 := isQuote_ascii v.quotes
  simp only [Quoted.text, written_append, written_singleton hquote, size_bytes_append,
    size_bytes_singleton hquote, ← Nat.add_assoc] at h
  obtain ⟨⟨hopen, hinside⟩, hclose⟩ := h
  have hclear : ∀ k, i + 1 ≤ k → k < i + 1 + (bytes v.inside).size →
      at? code k ≠ some v.quote := by
    intro k hik hk hat
    have hne := hinside.test (p := (· != v.quote)) (forall_encode_of_forall ?_ ?_) hik hk
    · simp [test_of_at? hat] at hne
    · intro c hc
      refine bne_iff_ne.mpr ?_
      rintro rfl
      omega
    · intro c hc
      refine bne_iff_ne.mpr ?_
      rintro rfl
      exact v.clear hc
  have hsize := lt_size_of_at? hclose
  rw [v.size_text, valueEnd, hopen]
  rcases isQuote_iff.mp v.quotes with hq | hq <;> rw [hq] at hclose hclear ⊢
  · rw [show i + ((bytes v.inside).size + 2) = i + 1 + (bytes v.inside).size + 1 by omega]
    exact past_eq (b := 34) (by decide) (Nat.le_add_right ..) hsize hclose hclear
  · rw [show i + ((bytes v.inside).size + 2) = i + 1 + (bytes v.inside).size + 1 by omega]
    exact past_eq (b := 39) (by decide) (Nat.le_add_right ..) hsize hclose hclear

theorem Quoted.openingEnd?_eq (v : Quoted) (h : Written code i v.text) :
    openingEnd? code i = openingEnd? code (i + (bytes v.text).size) := by
  have hquote : v.quote.toNat < 128 := isQuote_ascii v.quotes
  have hat : at? code i = some v.quote := by
    simp only [Quoted.text, written_append, written_singleton hquote] at h
    exact h.1.1
  have hsize := v.size_text
  have hvalue : beginsValue v.quote = true := by simp [beginsValue, v.quotes]
  have hgt : v.quote ≠ '>' := by
    intro h
    exact absurd v.quotes (by simp [h, isQuote])
  have hslash : v.quote ≠ '/' := by
    intro h
    exact absurd v.quotes (by simp [h, isQuote])
  have hnext : max (i + 1) (i + (bytes v.text).size) = i + (bytes v.text).size := by omega
  rw [openingEnd?]
  simp [lt_size_of_at? hat, test_of_at? hat, hgt, hslash, hvalue, v.valueEnd_eq h, hnext]

theorem Items.openingEnd?_eq (items : Items) (h : Written code i items.text) :
    openingEnd? code i = openingEnd? code (i + (bytes items.text).size) := by
  induction items generalizing i with
  | done => rfl
  | bare before name rest ih =>
    rw [text, written_append] at h
    have hinert : ∀ c ∈ (before.text ++ name.text).toList, isInert c = true := by
      intro c hc
      rw [String.toList_append, List.mem_append] at hc
      rcases hc with hc | hc
      · exact isInert_of_isBlank (before.all c hc)
      · exact isInert_of_isItemChar (name.all c hc)
    rw [openingEnd?_of_written h.1 hinert, ih h.2, text,
      size_bytes_append (before.text ++ name.text), Nat.add_assoc]
  | valued before name gap gap' value rest ih =>
    rw [text, written_append, written_append] at h
    obtain ⟨⟨hhead, hvalue⟩, hrest⟩ := h
    rw [size_bytes_append, ← Nat.add_assoc] at hrest
    have hinert : ∀ c ∈ (before.text ++ name.text ++ gap.text ++ .singleton '=' ++ gap'.text).toList,
        isInert c = true := by
      intro c hc
      simp only [String.toList_append, String.toList_singleton, List.mem_append,
        List.mem_singleton] at hc
      rcases hc with (((hc | hc) | hc) | rfl) | hc
      · exact isInert_of_isBlank (before.all c hc)
      · exact isInert_of_isItemChar (name.all c hc)
      · exact isInert_of_isBlank (gap.all c hc)
      · rfl
      · exact isInert_of_isBlank (gap'.all c hc)
    rw [openingEnd?_of_written hhead hinert, value.openingEnd?_eq hvalue, ih hrest, text,
      size_bytes_append (_ ++ value.text), size_bytes_append _ value.text, Nat.add_assoc,
      Nat.add_assoc, Nat.add_assoc]

end opening

section names

theorem isNameChar_ascii {c : Char} (h : isNameChar c = true) : c.toNat < 128 := by
  simp only [isNameChar, Bool.or_eq_true, beq_iff_eq] at h
  rcases h with (((h | rfl) | rfl) | rfl) | rfl
  · exact isAlphanum_ascii h
  all_goals decide

theorem isAlpha_ascii {c : Char} (h : c.isAlpha = true) : c.toNat < 128 :=
  isAlphanum_ascii (by simp [Char.isAlphanum, h])

theorem not_isNameChar_of_isBlank {c : Char} (h : isBlank c = true) : isNameChar c = false := by
  rcases isBlank_iff.mp h with rfl | rfl | rfl | rfl | rfl <;> decide

variable (name : TagName)

theorem TagName.test_isAlpha (h : Written code i name.text) :
    test Char.isAlpha code i = true := by
  obtain ⟨c, hc, halpha⟩ := (Option.any_eq_true _ _).mp name.first
  rw [h.test_first (fun _ => isAlpha_ascii) hc, halpha]

theorem TagName.nameEnd_eq (h : Written code i name.text)
    (hnext : test isNameChar code (i + (bytes name.text).size) = false)
    (hs : i + (bytes name.text).size ≤ code.size) :
    nameEnd code i = i + (bytes name.text).size :=
  skip_eq (Nat.le_add_right ..) hs
    (fun _ => h.test ((forall_encode_iff fun _ => isNameChar_ascii).mpr name.all)) fun _ => hnext

theorem Items.test_eq_false {p : Char → Bool} (items : Items) (h : Written code i items.text)
    {c : Char} (hat : at? code (i + (bytes items.text).size) = some c) (hc : p c = false)
    (hblank : ∀ d, isBlank d = true → p d = false) : test p code i = false := by
  have hbefore (before : Parting) (h : Written code i before.text) : test p code i = false := by
    have hpos := size_bytes_pos before.nonempty
    obtain ⟨d, hd, hb⟩ := test_iff.mp (Blanks.test before.toStretch h (Nat.le_refl i) (by omega))
    rw [test_of_at? hd, hblank d hb]
  cases items with
  | done => exact (test_of_at? hat).trans hc
  | bare before name rest =>
    simp only [text, written_append] at h
    exact hbefore before h.1.1
  | valued before name gap gap' value rest =>
    simp only [text, written_append] at h
    exact hbefore before h.1.1.1.1.1.1

theorem skippedEnd?_eq_none {c : Char} (h : at? code (i + 1) = some c) (hc : c ≠ '!')
    (hc' : c ≠ '?') : skippedEnd? code i = none := by
  obtain ⟨b, hb, rfl⟩ := Option.map_eq_some_iff.mp h
  have hne : b ≠ 33 := by
    rintro rfl
    exact hc rfl
  have hne' : b ≠ 63 := by
    rintro rfl
    exact hc' rfl
  have hcomment : (bytes "<!--").toList = [60, 33, 45, 45] := by decide
  have hdata : (bytes "<![CDATA[").toList = [60, 33, 91, 67, 68, 65, 84, 65, 91] := by decide
  have hinstruction : (bytes "<?").toList = [60, 63] := by decide
  have hdeclaration : (bytes "<!").toList = [60, 33] := by decide
  simp [skippedEnd?, standsAt, holdsAt, hcomment, hdata, hinstruction, hdeclaration, hb, hne, hne']

end names

section tags

variable (name : TagName)

theorem tagsFrom_step {tag? : Option Tag} {next : Nat} (hi : i < code.size)
    (h : scanAt code xml i = (tag?, next)) (hnext : i < next) :
    tagsFrom code xml i = tag?.toList ++ tagsFrom code xml next := by
  rw [tagsFrom, if_pos hi]
  simp only [h, Nat.max_eq_right (Nat.succ_le_of_lt hnext)]

theorem tagsFrom_text (content : Stretch (· != '<')) (h : Written code i content.text)
    (hs : i + (bytes content.text).size ≤ code.size) :
    tagsFrom code xml i = tagsFrom code xml (i + (bytes content.text).size) := by
  have habove : ∀ c : Char, 128 ≤ c.toNat → (c != '<') = true := fun c hc =>
    bne_iff_ne.mpr (ne_of_le hc '<' (by decide))
  apply h.eq_of_step (forall_encode_of_forall habove content.all)
  intro k hk htest
  have hlt : test (· == '<') code k = false := by
    obtain ⟨c, hat, hc⟩ := test_iff.mp htest
    rw [test_of_at? hat]
    simpa using hc
  have hscan : scanAt code xml k = (none, k + 1) := by simp [scanAt, hlt]
  rw [tagsFrom_step (by omega) hscan (Nat.lt_succ_self _)]
  rfl

theorem TagName.openingTag?_eq {closed : Bool} {stop : Nat} (h : Written code (i + 1) name.text)
    (hnext : test isNameChar code (i + 1 + (bytes name.text).size) = false)
    (hs : i + 1 + (bytes name.text).size ≤ code.size)
    (hend : openingEnd? code (i + 1 + (bytes name.text).size) = some (stop, closed))
    (hvoid : (!xml && voidElements.contains (lower name.text)) = false) :
    openingTag? code xml i =
      some ⟨name.text, if closed then .selfClosing else .opening, ⟨i, stop⟩⟩ := by
  rw [openingTag?, if_pos (name.test_isAlpha h)]
  simp only [name.nameEnd_eq h hnext hs, h.read_eq, hend, Option.map_some, hvoid, Bool.or_false]

theorem TagName.scanAt_opening {closed : Bool} {stop : Nat} (hat : at? code i = some '<')
    (h : Written code (i + 1) name.text)
    (hnext : test isNameChar code (i + 1 + (bytes name.text).size) = false)
    (hs : i + 1 + (bytes name.text).size ≤ code.size)
    (hend : openingEnd? code (i + 1 + (bytes name.text).size) = some (stop, closed))
    (hvoid : (!xml && voidElements.contains (lower name.text)) = false) :
    let tag : Tag := ⟨name.text, if closed then .selfClosing else .opening, ⟨i, stop⟩⟩
    scanAt code xml i = (some tag, resume code xml tag) := by
  obtain ⟨c, hc, halpha⟩ := test_iff.mp (name.test_isAlpha h)
  have hskipped : skippedEnd? code i = none := by
    apply skippedEnd?_eq_none hc
    · rintro rfl
      exact absurd halpha (by decide)
    · rintro rfl
      exact absurd halpha (by decide)
  have hclosing : closingTag? code i = none := by
    rw [closingTag?, if_neg]
    rintro ⟨hslash, -⟩
    rw [test_of_at? hc, beq_iff_eq] at hslash
    subst hslash
    exact absurd halpha (by decide)
  have hlt : test (· == '<') code i = true := by rw [test_of_at? hat]; rfl
  simp only [scanAt, hlt, if_true, hskipped, hclosing, name.openingTag?_eq h hnext hs hend hvoid]

theorem TagName.scanAt_closing (hat : at? code i = some '<') (hslash : at? code (i + 1) = some '/')
    (h : Written code (i + 2) name.text)
    (hgt : at? code (i + 2 + (bytes name.text).size) = some '>') :
    scanAt code xml i =
      (some ⟨name.text, .closing, ⟨i, i + 2 + (bytes name.text).size + 1⟩⟩,
        i + 2 + (bytes name.text).size + 1) := by
  have hsize := lt_size_of_at? hgt
  have hskipped : skippedEnd? code i = none :=
    skippedEnd?_eq_none hslash (by decide) (by decide)
  have hnext : test isNameChar code (i + 2 + (bytes name.text).size) = false := by
    rw [test_of_at? hgt]
    decide
  have hpast : past ">" code code.size (i + 2 + (bytes name.text).size) =
      i + 2 + (bytes name.text).size + 1 :=
    past_eq (b := 62) (by decide) (Nat.le_refl _) hsize hgt
      fun k h₁ h₂ => absurd h₂ (Nat.not_lt.mpr h₁)
  have hclosing : closingTag? code i =
      some ⟨name.text, .closing, ⟨i, i + 2 + (bytes name.text).size + 1⟩⟩ := by
    rw [closingTag?, if_pos ⟨by rw [test_of_at? hslash]; rfl, name.test_isAlpha h⟩]
    simp only [name.nameEnd_eq h hnext (Nat.le_of_lt hsize), h.read_eq, hpast]
  rw [scanAt, if_pos (by rw [test_of_at? hat]; rfl)]
  simp only [hskipped, hclosing]

theorem ElementName.not_void (name : ElementName xml) :
    (!xml && voidElements.contains (lower name.text)) = false := by
  cases xml with
  | true => rfl
  | false => simpa using (name.html rfl).1

theorem ElementName.resume_eq (name : ElementName xml) (kind : Tag.Kind) (span : Span) :
    resume code xml ⟨name.text, kind, span⟩ = span.stop := by
  have hraw : ¬(kind = .opening ∧ (!xml) = true ∧
      rawTextElements.contains (lower name.text) = true) := by
    rintro ⟨-, hx, hmem⟩
    simp only [Bool.not_eq_true'] at hx
    exact (name.html hx).2 (by simpa using hmem)
  simp only [resume, if_neg hraw]

theorem Forest.tagsFrom_eq (f : Forest xml) (h : Written code i f.written)
    (hs : i + (bytes f.written).size ≤ code.size) :
    tagsFrom code xml i = f.tags i ++ tagsFrom code xml (i + (bytes f.written).size) := by
  induction f generalizing i with
  | done => rfl
  | text content rest ih =>
    rw [written, written_append] at h
    rw [written, size_bytes_append] at hs ⊢
    rw [tagsFrom_text content h.1 (by omega), ih h.2 (by omega), tags, Nat.add_assoc]
  | element name items inside rest ihi ihr =>
    obtain ⟨hlt, hname, hitems, hgt, hinside, hlt', hslash, hname', hgt', hrest⟩ :=
      (written_element ..).mp h
    rw [size_element] at hs ⊢
    have hend : openingEnd? code (i + 1 + (bytes name.text).size) =
        some (i + 1 + (bytes name.text).size + (bytes items.text).size + 1, false) := by
      rw [items.openingEnd?_eq hitems, openingEnd?]
      simp [lt_size_of_at? hgt, test_of_at? hgt]
    have hopening := name.scanAt_opening hlt hname
      (items.test_eq_false hitems hgt (by decide) fun _ => not_isNameChar_of_isBlank) (by omega) hend
      name.not_void
    simp only [name.resume_eq] at hopening
    rw [tagsFrom_step (lt_size_of_at? hlt) hopening (by omega), ihi hinside (by omega),
      tagsFrom_step (lt_size_of_at? hlt') (name.scanAt_closing hlt' hslash hname' hgt') (by omega),
      ihr hrest (by omega)]
    simp [tags, Nat.add_assoc]
  | closed name items rest ih =>
    obtain ⟨hlt, hname, hitems, hslash, hgt, hrest⟩ := (written_closed ..).mp h
    rw [size_closed] at hs ⊢
    have hend : openingEnd? code (i + 1 + (bytes name.text).size) =
        some (i + 1 + (bytes name.text).size + (bytes items.text).size + 2, true) := by
      rw [items.openingEnd?_eq hitems, openingEnd?]
      simp [lt_size_of_at? hslash, test_of_at? hslash, test_of_at? hgt]
    have hopening := name.scanAt_opening hlt hname
      (items.test_eq_false hitems hslash (by decide) fun _ => not_isNameChar_of_isBlank) (by omega)
      hend name.not_void
    simp only [name.resume_eq] at hopening
    rw [tagsFrom_step (lt_size_of_at? hlt) hopening (by omega), ih hrest (by omega)]
    simp [tags, Nat.add_assoc]

end tags

end Caret.Markup
