import Caret.Proofs.Stylesheet.Items
import Caret.Proofs.Stylesheet.Reading

namespace Caret.Stylesheet

open Text

section encode

variable {code : Bytes} {within : Bool} {c d : Char} {l u : List Char} {i k : Nat}

theorem isOrdinary_of_le (h : 128 ≤ c.toNat) : isOrdinary within c = true := by
  have hne := ne_of_le h
  simp [isOrdinary, isQuote, hne '"' (by decide), hne '\'' (by decide), hne '(' (by decide),
    hne ')' (by decide), hne '{' (by decide), hne '}' (by decide), hne ';' (by decide)]

theorem Balanced.ordinary_append (hu : ∀ x ∈ u, isOrdinary within x = true)
    (h : Balanced within l) : Balanced within (u ++ l) := by
  induction u with
  | nil => exact h
  | cons x u ih =>
    exact .ordinary (hu x List.mem_cons_self) (ih fun y hy => hu y (List.mem_cons_of_mem x hy))

theorem balanced_encode (h : Balanced within l) : Balanced within (encode l) := by
  induction h with
  | nil => exact .nil
  | @ordinary within c rest hc hr ih =>
    by_cases hlt : c.toNat < 128
    · rw [encode_cons_of_lt hlt]
      exact .ordinary hc ih
    · -- all bytes of a longer character stand for themselves
      obtain ⟨u, us, he, hu⟩ := encode_singleton_of_le (Nat.le_of_not_lt hlt)
      rw [encode_cons, he]
      exact ih.ordinary_append fun x hx => isOrdinary_of_le (hu x hx)
  | @quoted within quote inside rest hq hi hr ih =>
    have hquote := isQuote_ascii hq
    rw [encode_cons_of_lt hquote, encode_append, encode_cons_of_lt hquote]
    refine .quoted hq (fun c hc => ?_) ih
    have hclear := forall_encode_of_forall (p := fun c => decide (c ≠ quote ∧ c ≠ '\\')) ?_
      (fun c hc => decide_eq_true (hi c hc)) c hc
    · exact of_decide_eq_true hclear
    · intro c hc
      refine decide_eq_true ⟨?_, ?_⟩
      · rintro rfl
        omega
      · rintro rfl
        exact absurd hc (by decide)
  | parens hi hr ihi ihr =>
    rw [encode_cons_of_lt (by decide), encode_append, encode_cons_of_lt (by decide)]
    exact .parens ihi ihr

end encode

variable {code : Bytes} {stop i s : Nat} {c : Char} {d : Draft}

section tokens

theorem closesAt_of_stands {quote : Char} {inside : List Char}
    (h : Stands code i (inside ++ [quote])) (hi : ∀ c ∈ inside, c ≠ quote ∧ c ≠ '\\') :
    ClosesAt quote code i (i + inside.length) := by
  induction inside generalizing i with
  | nil => exact .here h.head
  | cons c inside ih =>
    have hrest := ih h.tail fun d hd => hi d (List.mem_cons_of_mem c hd)
    rw [List.length_cons, Nat.add_comm inside.length, ← Nat.add_assoc]
    exact .other h.head (hi c List.mem_cons_self) hrest

theorem tokenAt_quoted {quote : Char} {inside : List Char}
    (h : Stands code i (quote :: (inside ++ [quote]))) (hs : i + 1 + inside.length < stop)
    (hq : isQuote quote = true) (hi : ∀ c ∈ inside, c ≠ quote ∧ c ≠ '\\') :
    tokenAt code stop i = ⟨.quoted, ⟨i, i + 1 + inside.length + 1⟩⟩ :=
  tokenAt_of_closesAt hq h.head (closesAt_of_stands h.tail hi) hs

end tokens

namespace Draft

theorem reading_char (h : at? code i = some c) (hs : i < stop) (hq : isQuote c = false)
    (hc : c = '/' → at? code (i + 1) ≠ some '*') : reading code stop i d =
      reading code stop (i + 1) (d.absorb code ⟨.ofChar c, ⟨i, i + 1⟩⟩) := by
  rw [reading_step hs, (Cut.byte h hq hc).tokenAt_eq]

theorem reading_blanks (g : Blanks) (h : Written code i g.text)
    (hs : i + (bytes g.text).size ≤ stop) :
    reading code stop i d = reading code stop (i + (bytes g.text).size) d := by
  apply g.eq_of_step (f := (reading code stop · d)) h
  intro k hk htest
  obtain ⟨c, hat, hb⟩ := test_iff.mp htest
  have hq : isQuote c = false := Bool.eq_false_iff.mpr fun hq =>
    Bool.false_ne_true ((isBlank_of_isQuote hq).symm.trans hb)
  rw [reading_char hat (by omega) hq, Draft.absorb, ofChar_blank.mpr hb]
  rintro rfl
  exact absurd hb (by decide)

theorem absorb_ordinary {within : Bool} (hc : isOrdinary within c = true) (hi : d.item = some s)
    (hd : within = true ↔ d.depth ≠ 0) :
    ∃ colon, d.absorb code ⟨.ofChar c, ⟨i, i + 1⟩⟩ = { d with colon } ∧
      (d.colon ≠ none ∨ c ≠ ':' → colon = d.colon) := by
  have hbegun := beginItem_of_some hi i
  simp only [isOrdinary, Bool.and_eq_true, Bool.or_eq_true, bne_iff_ne] at hc
  obtain ⟨⟨⟨-, hopen⟩, hclose⟩, hbraces⟩ := hc
  have hinside : c = '{' ∨ c = '}' ∨ c = ';' → d.depth ≠ 0 := by
    intro h
    rcases hbraces with hw | ⟨⟨h₁, h₂⟩, h₃⟩
    · exact hd.mp hw
    · rcases h with h | h | h <;> contradiction
  cases hk : Token.Kind.ofChar c with
  | comment => exact absurd hk (ofChar_ne_comment c)
  | blank => exact ⟨d.colon, rfl, fun _ => rfl⟩
  | quoted => exact ⟨d.colon, hbegun, fun _ => rfl⟩
  | other => exact ⟨d.colon, hbegun, fun _ => rfl⟩
  | openParen => exact absurd (eq_of_char? hk rfl) hopen
  | closeParen => exact absurd (eq_of_char? hk rfl) hclose
  | colon =>
    simp only [Draft.absorb, hbegun]
    split
    · next hcolon =>
      refine ⟨some i, rfl, fun h => ?_⟩
      rcases h with h | h
      · exact absurd hcolon.2.1 h
      · exact absurd (eq_of_char? hk rfl) h
    · exact ⟨d.colon, rfl, fun _ => rfl⟩
  | semicolon =>
    have hne := hinside (.inr (.inr (eq_of_char? hk rfl)))
    simp only [Draft.absorb, if_neg hne]
    exact ⟨d.colon, hbegun, fun _ => rfl⟩
  | openBrace =>
    have hne := hinside (.inl (eq_of_char? hk rfl))
    simp only [Draft.absorb, if_neg hne]
    exact ⟨d.colon, hbegun, fun _ => rfl⟩
  | closeBrace =>
    have hne := hinside (.inr (.inl (eq_of_char? hk rfl)))
    simp only [Draft.absorb, if_neg hne]
    exact ⟨d.colon, hbegun, fun _ => rfl⟩

def Uncommented (code : Bytes) (i j : Nat) : Prop :=
  ∀ k, i ≤ k → k < j → at? code k = some '/' → at? code (k + 1) ≠ some '*'

theorem Uncommented.mono {j i' j' : Nat} (h : Uncommented code i j) (hi : i ≤ i') (hj : j' ≤ j) :
    Uncommented code i' j' :=
  fun k hik hkj => h k (Nat.le_trans hi hik) (Nat.lt_of_lt_of_le hkj hj)

def Passes (code : Bytes) (stop i j : Nat) (l : List Char) (d : Draft) : Prop :=
  ∃ colon, reading code stop i d = reading code stop j { d with colon } ∧
    (d.colon ≠ none ∨ ':' ∉ l → colon = d.colon)

section passes

variable {j k : Nat} {l m : List Char} {within : Bool}

theorem Passes.refl (code : Bytes) (stop i : Nat) (d : Draft) : Passes code stop i i [] d :=
  ⟨d.colon, rfl, fun _ => rfl⟩

theorem Passes.trans (h : Passes code stop i j l d)
    (h' : ∀ colon, Passes code stop j k m { d with colon }) : Passes code stop i k (l ++ m) d := by
  obtain ⟨colon, hread, hsame⟩ := h
  obtain ⟨colon', hread', hsame'⟩ := h' colon
  refine ⟨colon', hread.trans hread', fun hcolon => ?_⟩
  rw [List.mem_append, not_or] at hcolon
  have hfirst : colon = d.colon := hsame (hcolon.imp_right And.left)
  rw [hsame' (hcolon.imp (hfirst ▸ ·) And.right), hfirst]

theorem passes_ordinary (hc : isOrdinary within c = true) (hat : at? code i = some c)
    (hs : i < stop) (hu : c = '/' → at? code (i + 1) ≠ some '*') (hi : d.item = some s)
    (hd : within = true ↔ d.depth ≠ 0) : Passes code stop i (i + 1) [c] d := by
  have hq : isQuote c = false := by
    simp only [isOrdinary, Bool.and_eq_true, Bool.not_eq_true'] at hc
    exact hc.1.1.1
  obtain ⟨colon, habsorb, hcolon⟩ := @absorb_ordinary code i s c d within hc hi hd
  refine ⟨colon, ?_, fun h => hcolon (h.imp_right fun h he => h (by simp [he]))⟩
  rw [reading_char hat hs hq hu, habsorb]

theorem passes_quoted {quote : Char} {inside : List Char}
    (hl : Stands code i (quote :: (inside ++ [quote]))) (hs : i + 1 + inside.length < stop)
    (hq : isQuote quote = true) (hinside : ∀ c ∈ inside, c ≠ quote ∧ c ≠ '\\')
    (hi : d.item = some s) :
    Passes code stop i (i + 1 + inside.length + 1) (quote :: (inside ++ [quote])) d := by
  refine ⟨d.colon, ?_, fun _ => rfl⟩
  rw [reading_step (by omega), tokenAt_quoted hl hs hq hinside, absorb, beginItem_of_some hi]

theorem passes_parens (hopen : at? code i = some '(') (hclose : at? code j = some ')')
    (hlt : i < stop) (hs : j < stop) (hi : d.item = some s)
    (h : Passes code stop (i + 1) j l { d with depth := d.depth + 1 }) :
    Passes code stop i (j + 1) ('(' :: (l ++ [')'])) d := by
  obtain ⟨colon, hread, hcolon⟩ := h
  refine ⟨colon, ?_, fun h => hcolon (h.imp_right fun h hmem => h (by simp [hmem]))⟩
  calc reading code stop i d
      = reading code stop (i + 1) { d with depth := d.depth + 1 } := by
        rw [reading_char hopen hlt rfl (by simp), absorb]
        simp only [Token.Kind.ofChar, beginItem_of_some hi]
        rfl
    _ = reading code stop j { d with colon, depth := d.depth + 1 } := hread
    _ = reading code stop (j + 1) { d with colon } := reading_char hclose hs rfl (by simp)

theorem passes_balanced (h : Balanced within l) (hl : Stands code i l) (hs : i + l.length ≤ stop)
    (hu : Uncommented code i (i + l.length)) (hi : d.item = some s)
    (hd : within = true ↔ d.depth ≠ 0) : Passes code stop i (i + l.length) l d := by
  induction h generalizing i d with
  | nil => exact .refl code stop i d
  | @ordinary within c rest hc hr ih =>
    have hlen : i + (c :: rest).length = i + 1 + rest.length := by
      rw [List.length_cons]
      omega
    rw [hlen] at hs hu ⊢
    have hfirst : Passes code stop i (i + 1) [c] d := by
      refine passes_ordinary hc hl.head (by omega) (fun he => ?_) hi hd
      exact hu i (Nat.le_refl i) (by omega) (he ▸ hl.head)
    exact hfirst.trans fun colon => ih hl.tail hs (hu.mono (by omega) (Nat.le_refl _)) hi hd
  | @quoted within quote inside rest hq hinside hr ih =>
    have hsplit : quote :: (inside ++ quote :: rest) = quote :: (inside ++ [quote]) ++ rest := by simp
    have hlen : i + (quote :: (inside ++ [quote])).length = i + 1 + inside.length + 1 := by
      simp only [List.length_cons, List.length_append, List.length_nil]
      omega
    rw [hsplit] at hl hs hu ⊢
    rw [List.length_append, ← Nat.add_assoc, hlen] at hs hu ⊢
    have hright := hl.right
    rw [hlen] at hright
    have hstring : Passes code stop i (i + 1 + inside.length + 1) (quote :: (inside ++ [quote])) d :=
      passes_quoted hl.left (by omega) hq hinside hi
    exact hstring.trans fun colon => ih hright hs (hu.mono (by omega) (Nat.le_refl _)) hi hd
  | @parens within inside rest hinside hr ihi ihr =>
    have hsplit : '(' :: (inside ++ ')' :: rest) = '(' :: (inside ++ [')']) ++ rest := by simp
    have hlen : i + ('(' :: (inside ++ ')' :: rest)).length =
        i + 1 + inside.length + 1 + rest.length := by
      simp only [List.length_cons, List.length_append]
      omega
    rw [hlen] at hs hu ⊢
    have hclose := hl.tail.right
    have hinner : Passes code stop (i + 1) (i + 1 + inside.length) inside
        { d with depth := d.depth + 1 } :=
      ihi hl.tail.left (by omega) (hu.mono (by omega) (by omega)) hi (by simp)
    have hgroup := passes_parens hl.head hclose.head (by omega) (by omega) hi hinner
    rw [hsplit]
    exact hgroup.trans fun colon =>
      ihr hclose.tail hs (hu.mono (by omega) (Nat.le_refl _)) hi hd

end passes

theorem beginItem_of_none (h : d.item = none) (i : Nat) :
    d.beginItem i = { d with item := some i } := by
  simp [Draft.beginItem, h]

theorem beginItem_beginItem (d : Draft) (i : Nat) : (d.beginItem i).beginItem i = d.beginItem i := by
  cases d with
  | mk sheet opened item colon depth => cases item <;> rfl

theorem absorb_first {l : List Char} (h : Balanced false (c :: l)) (hl : Stands code i (c :: l))
    (hs : i + (c :: l).length ≤ stop) (hu : Uncommented code i (i + (c :: l).length))
    (hb : isBlank c = false) (hi : d.item = none) :
    d.absorb code (tokenAt code stop i) = (d.beginItem i).absorb code (tokenAt code stop i) := by
  have hquiet : c = '/' → at? code (i + 1) ≠ some '*' := fun he =>
    hu i (Nat.le_refl i) (by simp) (he ▸ hl.head)
  have htwice := beginItem_beginItem d i
  cases h with
  | ordinary hc hr =>
    simp only [isOrdinary, Bool.and_eq_true, Bool.or_eq_true, bne_iff_ne, Bool.not_eq_true',
      Bool.false_eq_true, false_or] at hc
    obtain ⟨⟨⟨hq, -⟩, hclose⟩, ⟨hopenBrace, hcloseBrace⟩, hsemicolon⟩ := hc
    rw [(Cut.byte hl.head hq hquiet).tokenAt_eq]
    cases hk : Token.Kind.ofChar c with
    | comment => exact absurd hk (ofChar_ne_comment c)
    | blank => exact absurd (ofChar_blank.mp hk) (by simp [hb])
    | quoted => exact htwice.symm
    | other => exact htwice.symm
    | openParen => simp only [Draft.absorb, htwice]; rfl
    | closeParen => exact absurd (eq_of_char? hk rfl) hclose
    | colon =>
      have hbegun : (d.beginItem i).item = some i := by simp [Draft.beginItem, hi]
      simp only [Draft.absorb, htwice, hbegun, hi]
      simp
    | semicolon => exact absurd (eq_of_char? hk rfl) hsemicolon
    | openBrace => exact absurd (eq_of_char? hk rfl) hopenBrace
    | closeBrace => exact absurd (eq_of_char? hk rfl) hcloseBrace
  | @quoted _ _ inside rest hq hinside hr =>
    have hsplit : c :: (inside ++ c :: rest) = c :: (inside ++ [c]) ++ rest := by simp
    rw [hsplit] at hl
    rw [tokenAt_quoted hl.left (by simp at hs; omega) hq hinside]
    exact htwice.symm
  | parens hinside hr =>
    rw [(Cut.byte hl.head rfl hquiet).tokenAt_eq]
    simp only [Draft.absorb, Token.Kind.ofChar, htwice]
    rfl

end Draft

theorem Piece.uncommented_at (p : Piece) (h : Written code i p.text)
    (hnext : at? code (i + (bytes p.text).size) ≠ some '*') :
    Draft.Uncommented code i (i + (bytes p.text).size) := by
  intro k hik hk hslash hstar
  by_cases hlast : k + 1 = i + (bytes p.text).size
  · exact hnext (hlast ▸ hstar)
  · apply p.uncommented
    apply infix_of_encode (by simp)
    apply h.pair_infix hik _ hslash hstar
    rw [length_encode]
    omega

theorem Phrase.reading_eq (p : Phrase) (h : Written code i p.text)
    (hs : i + (bytes p.text).size ≤ stop) (hnext : at? code (i + (bytes p.text).size) ≠ some '*')
    (hd : d.depth = 0) :
    ∃ colon, d.reading code stop i =
        Draft.reading code stop (i + (bytes p.text).size) { d.beginItem i with colon } ∧
      (d.colon ≠ none ∨ ':' ∉ p.text.toList → colon = d.colon) := by
  have hu := p.uncommented_at h hnext
  have hpos := p.size_pos
  have hbalanced := balanced_encode p.balanced
  rw [← length_encode] at hs hu hpos ⊢
  have hbegin : d.reading code stop i = (d.beginItem i).reading code stop i := by
    cases hi : d.item with
    | some s => rw [Draft.beginItem_of_some hi]
    | none =>
      obtain ⟨c, l, hl⟩ := List.exists_cons_of_ne_nil (List.length_pos_iff.mp hpos)
      have hb := p.test_first h
      rw [Written, hl] at h
      rw [test_of_at? h.head] at hb
      rw [hl] at hbalanced hs hu
      have hlt : i < stop := by
        rw [List.length_cons] at hs
        omega
      rw [Draft.reading_step (d := d) hlt, Draft.reading_step (d := d.beginItem i) hlt,
        Draft.absorb_first hbalanced h hs hu hb hi]
  obtain ⟨s, hi⟩ : ∃ s, (d.beginItem i).item = some s := by
    cases hi : d.item with
    | some s => exact ⟨s, by rw [Draft.beginItem_of_some hi, hi]⟩
    | none => exact ⟨i, by simp [Draft.beginItem, hi]⟩
  have hcolon : ':' ∈ encode p.text.toList ↔ ':' ∈ p.text.toList := mem_encode (by decide)
  obtain ⟨colon, hread, hcol⟩ := Draft.passes_balanced (d := d.beginItem i) hbalanced h hs hu hi
    (by simpa [Draft.beginItem] using hd)
  exact ⟨colon, hbegin.trans hread, by rwa [hcolon] at hcol⟩

theorem Name.balanced (p : Name) : Balanced false p.text.toList := by
  have h := Balanced.nil.ordinary_append fun c hc => (p.plain c hc).1
  rwa [List.append_nil] at h

def Name.toPhrase (p : Name) : Phrase := { p with balanced := p.balanced }

end Caret.Stylesheet
