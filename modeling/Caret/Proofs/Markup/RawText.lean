import Caret.Proofs.Markup.Recovery
import Caret.Proofs.Text.Lower

namespace Caret.Markup

open Text

variable {code : Bytes} {i : Nat} {name content : String}

theorem lower_of_mem_rawTextElements (h : name ∈ rawTextElements) : lower name = name := by
  have hlower : ∀ name ∈ rawTextElements, name.toList.map Char.toLower = name.toList := by decide
  apply String.toList_inj.mp
  rw [lower, String.toList_map, hlower name h]

theorem not_void_of_mem_rawTextElements (h : name ∈ rawTextElements) :
    voidElements.contains (lower name) = false := by
  have hvoid : ∀ name ∈ rawTextElements, voidElements.contains name = false := by decide
  rw [lower_of_mem_rawTextElements h, hvoid name h]

theorem written_closing {name : String} : Written code i ("</" ++ name) ↔
    at? code i = some '<' ∧ at? code (i + 1) = some '/' ∧ Written code (i + 2) name := by
  have hmark : "</" = String.singleton '<' ++ .singleton '/' := by decide
  rw [hmark, written_append, written_append, written_singleton (by decide),
    written_singleton (by decide), size_bytes_append, size_bytes_singleton (by decide),
    size_bytes_singleton (by decide), and_assoc]

theorem closing_of_mem_rawTextElements (h : name ∈ rawTextElements) :
    (∀ c ∈ ("</" ++ name).toList, c.toNat < 128) ∧
      (∀ b ∈ (bytes ("</" ++ name)).toList, lowerByte b = b) ∧
      0x3C ∉ (bytes ("</" ++ name)).toList.tail := by
  have hascii : (rawTextElements.all fun name =>
      ("</" ++ name).toList.all (·.toNat < 128)) = true := by
    decide
  have hlower : (rawTextElements.all fun name =>
      (bytes ("</" ++ name)).toList.all fun b => lowerByte b == b) = true := by
    decide
  have htail : ∀ name ∈ rawTextElements, 0x3C ∉ (bytes ("</" ++ name)).toList.tail := by
    decide
  refine ⟨fun c hc => ?_, fun b hb => ?_, htail name h⟩
  · exact of_decide_eq_true (List.all_eq_true.mp (List.all_eq_true.mp hascii name h) c hc)
  · exact eq_of_beq (List.all_eq_true.mp (List.all_eq_true.mp hlower name h) b hb)

section find

variable {word : String} {k : Nat}

theorem infix_of_occurrence (hascii : ∀ c ∈ word.toList, c.toNat < 128)
    (hw : Written code i content) (hik : i ≤ k)
    (hin : k + (bytes word).size ≤ i + (bytes content).size)
    (h : ∀ j b, (bytes word).toList[j]? = some b → (code.map lowerByte)[k + j]? = some b) :
    word.toList <:+: (lower content).toList := by
  have hlen : (bytes word).toList.length = (bytes word).size := Array.length_toList
  apply infix_of_bytes hascii
  rw [bytes_lower]
  apply infix_of_getElem? (n := k - i)
  intro j b hb
  have hj := (List.getElem?_eq_some_iff.mp hb).1
  have hat := h j b hb
  rw [Array.getElem?_map, show k + j = i + (k - i + j) by omega, hw.getElem? (by omega)] at hat
  rw [Array.getElem?_toList, Array.getElem?_map, hat]

theorem le_of_occurrence {w : List UInt8} (htail : 0x3C ∉ w.tail) {stop : Nat}
    (hlt : code[stop]? = some 0x3C) (hk : k < stop)
    (h : ∀ j b, w[j]? = some b → (code.map lowerByte)[k + j]? = some b) :
    k + w.length ≤ stop := by
  -- a word that goes on to `stop` holds the `<` there, and not as its first character
  refine Nat.le_of_not_lt fun hpast => htail ?_
  obtain ⟨j, rfl⟩ : ∃ j, stop = k + (j + 1) := ⟨stop - k - 1, by omega⟩
  obtain ⟨b, hb⟩ : ∃ b, w[j + 1]? = some b := ⟨_, List.getElem?_eq_getElem (by omega)⟩
  have hat := h (j + 1) b hb
  rw [Array.getElem?_map, hlt] at hat
  obtain rfl : lowerByte 0x3C = b := Option.some.inj hat
  apply List.mem_of_getElem? (i := j)
  rw [List.getElem?_tail, hb]
  decide

theorem find_rawText (hmem : name ∈ rawTextElements) (hw : Written code i content)
    (hend : Written code (i + (bytes content).size) ("</" ++ name))
    (hfree : ¬("</" ++ name).toList <:+: (lower content).toList) :
    find (bytes ("</" ++ name)).toList (code.map lowerByte) code.size i =
      some (i + (bytes content).size) := by
  obtain ⟨hascii, hlower, htail⟩ := closing_of_mem_rawTextElements hmem
  have hlen : (bytes ("</" ++ name)).toList.length = (bytes ("</" ++ name)).size :=
    Array.length_toList
  have hpos : 0 < (bytes ("</" ++ name)).size := by
    rw [size_bytes_append]
    exact Nat.add_pos_left (by decide) _
  have hsize : i + (bytes content).size + (bytes ("</" ++ name)).size ≤ code.size :=
    hend.le_size fun h => by simp [h, bytes_empty] at hpos
  apply find_eq (Nat.le_add_right ..) (by omega)
  · rw [holdsAt_iff (by omega)]
    intro j b hb
    have hj : j < (bytes ("</" ++ name)).size := by
      rw [← hlen]
      exact (List.getElem?_eq_some_iff.mp hb).1
    rw [Array.getElem?_toList] at hb
    rw [Array.getElem?_map, hend.getElem? hj, hb, Option.map_some,
      hlower b (Array.mem_toList_iff.mpr (Array.mem_of_getElem? hb))]
  · intro k hik hk
    refine Bool.eq_false_iff.mpr fun hholds => ?_
    have hstop := holdsAt_length (by omega) hholds
    rw [holdsAt_iff hstop] at hholds
    have hlt : code[i + (bytes content).size]? = some 0x3C := by
      rw [← Nat.add_zero (i + _), hend.getElem? hpos, bytes_append,
        Array.getElem?_append_left (by decide)]
      decide
    have hin := le_of_occurrence htail hlt hk hholds
    exact hfree (infix_of_occurrence hascii hw hik (hlen ▸ hin) hholds)

end find

theorem resume_rawText {tag : Tag} (hk : tag.kind = .opening) (hmem : tag.name ∈ rawTextElements)
    (hw : Written code tag.span.stop content)
    (hend : Written code (tag.span.stop + (bytes content).size) ("</" ++ tag.name))
    (hfree : ¬("</" ++ tag.name).toList <:+: (lower content).toList) :
    resume code false tag = tag.span.stop + (bytes content).size := by
  have hfind : find (bytes ("</" ++ tag.name)).toList
      (code.map fun b => (Char.ofUInt8 b).toLower.toUInt8) code.size tag.span.stop =
      some (tag.span.stop + (bytes content).size) := find_rawText hmem hw hend hfree
  have hraw : tag.kind = .opening ∧ (!false) = true ∧ rawTextElements.contains tag.name = true :=
    ⟨hk, rfl, List.contains_iff_mem.mpr hmem⟩
  simp only [resume, lower_of_mem_rawTextElements hmem, if_pos hraw, hfind, Option.getD_some]

theorem tagsFrom_rawText {name : TagName} (hmem : name.text ∈ rawTextElements) {stop closing : Nat}
    (hlt : at? code i = some '<') (hname : Written code (i + 1) name.text)
    (hgt : at? code (i + 1 + (bytes name.text).size) = some '>')
    (hstop : i + 1 + (bytes name.text).size + 1 = stop) (hw : Written code stop content)
    (hclosing : stop + (bytes content).size = closing)
    (hend : Written code closing ("</" ++ name.text))
    (hgt' : at? code (closing + 2 + (bytes name.text).size) = some '>')
    (hfree : ¬("</" ++ name.text).toList <:+: (lower content).toList) :
    tagsFrom code false i =
      ⟨name.text, .opening, ⟨i, stop⟩⟩ ::
        ⟨name.text, .closing, ⟨closing, closing + 2 + (bytes name.text).size + 1⟩⟩ ::
          tagsFrom code false (closing + 2 + (bytes name.text).size + 1) := by
  have hvoid : (!false && voidElements.contains (lower name.text)) = false := by
    rw [not_void_of_mem_rawTextElements hmem]
    rfl
  have htagEnd : openingEnd? code (i + 1 + (bytes name.text).size) = some (stop, false) := by
    rw [openingEnd?, ← hstop]
    simp [lt_size_of_at? hgt, test_of_at? hgt]
  have hnext : test isNameChar code (i + 1 + (bytes name.text).size) = false := by
    rw [test_of_at? hgt]
    decide
  have hsize := lt_size_of_at? hgt
  have hopening := name.scanAt_opening hlt hname hnext (Nat.le_of_lt hsize) htagEnd hvoid
  have hresume : resume code false ⟨name.text, .opening, ⟨i, stop⟩⟩ = closing := by
    rw [← hclosing]
    exact resume_rawText rfl hmem hw (hclosing.symm ▸ hend) hfree
  simp only [Bool.false_eq_true, if_false, hresume] at hopening
  obtain ⟨hlt', hslash, hname'⟩ := written_closing.mp hend
  have hscan : scanAt code false closing = _ := name.scanAt_closing hlt' hslash hname' hgt'
  rw [tagsFrom_step (by omega) hopening (by omega),
    tagsFrom_step (lt_size_of_at? hlt') hscan (by omega)]
  simp only [Option.toList_some, List.singleton_append]

structure RawText where
  before : Stretch (· != '<')
  name : TagName
  raw : name.text ∈ rawTextElements
  content : String
  free : ¬("</" ++ name.text).toList <:+: (lower content).toList
  after : Stretch (· != '<')

namespace RawText

variable (r : RawText)

def written : String :=
  r.before.text ++ .singleton '<' ++ r.name.text ++ .singleton '>' ++ r.content ++
    ("</" ++ r.name.text) ++ .singleton '>' ++ r.after.text

def opening : Span :=
  ⟨(bytes r.before.text).size, (bytes r.before.text).size + 1 + (bytes r.name.text).size + 1⟩

def inside : Span := ⟨r.opening.stop, r.opening.stop + (bytes r.content).size⟩

def closing : Span := ⟨r.inside.stop, r.inside.stop + 2 + (bytes r.name.text).size + 1⟩

structure Laid (code : Bytes) : Prop where
  before : Written code 0 r.before.text
  opens : at? code r.opening.start = some '<'
  name : Written code (r.opening.start + 1) r.name.text
  opened : at? code (r.opening.start + 1 + (bytes r.name.text).size) = some '>'
  content : Written code r.inside.start r.content
  closes : Written code r.closing.start ("</" ++ r.name.text)
  closed : at? code (r.closing.start + 2 + (bytes r.name.text).size) = some '>'
  after : Written code r.closing.stop r.after.text
  size : r.closing.stop + (bytes r.after.text).size = code.size

theorem laid : r.Laid (bytes r.written) := by
  have h := written_self r.written
  have hmark : (bytes ("</" ++ r.name.text)).size = 2 + (bytes r.name.text).size := by
    rw [size_bytes_append]
    exact congrArg (· + _) (by decide : (bytes "</").size = 2)
  have hsize : r.closing.stop + (bytes r.after.text).size = (bytes r.written).size := by
    rw [written, size_bytes_append, size_bytes_append, size_bytes_append _ ("</" ++ _), hmark]
    simp only [size_bytes_append, size_bytes_singleton (c := '<') (by decide),
      size_bytes_singleton (c := '>') (by decide), ← Nat.add_assoc]
    rfl
  generalize bytes r.written = code at h hsize ⊢
  rw [written] at h
  generalize hclose : "</" ++ r.name.text = close at h hmark
  simp only [written_append, size_bytes_append, written_singleton (c := '<') (by decide),
    written_singleton (c := '>') (by decide), size_bytes_singleton (c := '<') (by decide),
    size_bytes_singleton (c := '>') (by decide), Nat.zero_add, hmark, ← Nat.add_assoc] at h
  obtain ⟨⟨⟨⟨⟨⟨⟨hbefore, hlt⟩, hname⟩, hgt⟩, hcontent⟩, hcloses⟩, hgt'⟩, hafter⟩ := h
  exact
    { before := hbefore
      opens := hlt
      name := hname
      opened := hgt
      content := hcontent
      closes := hclose ▸ hcloses
      closed := hgt'
      after := hafter
      size := hsize }

theorem elements_eq :
    elements (bytes r.written) false = [⟨r.name.text, r.opening, some r.closing⟩] := by
  have h := r.laid
  have hsize := h.size
  have hend : tagsFrom (bytes r.written) false (bytes r.written).size = [] := by
    rw [tagsFrom, if_neg (Nat.lt_irrefl _)]
  have htags := calc
    tags (bytes r.written) false = tagsFrom (bytes r.written) false (0 + r.opening.start) :=
      tagsFrom_text r.before h.before (Nat.zero_add _ ▸ Nat.le_of_lt (lt_size_of_at? h.opens))
    _ = ⟨r.name.text, .opening, r.opening⟩ :: ⟨r.name.text, .closing, r.closing⟩ ::
          tagsFrom (bytes r.written) false r.closing.stop := by
      rw [Nat.zero_add]
      exact tagsFrom_rawText r.raw h.opens h.name h.opened rfl h.content rfl h.closes h.closed r.free
    _ = [⟨r.name.text, .opening, r.opening⟩, ⟨r.name.text, .closing, r.closing⟩] := by
      rw [tagsFrom_text r.after h.after (Nat.le_of_eq hsize), hsize, hend]
  have hclose := @Pairing.add_closing false {} ⟨r.name.text, r.opening, none⟩ [] r.closing
  rw [elements, htags]
  exact congrArg (·.elements.toList) hclose

theorem attributes_eq : attributes (bytes r.written) r.opening = [] := by
  have h := r.laid
  have hsize := lt_size_of_at? h.opened
  exact Items.attributes_eq r.name .done h.name (written_empty _ _) h.opened (.inl rfl) hsize
    (Nat.lt_succ_self _) (attributesFrom_gt h.opened)

end RawText

end Caret.Markup
