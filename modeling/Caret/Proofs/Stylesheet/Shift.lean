import Caret.Proofs.Stylesheet.Reading
import Caret.Proofs.Text.Part

namespace Caret

namespace Span

variable (s : Span) (a : Nat)

@[simp]
theorem shift_start : (s.shift a).start = s.start + a := rfl

@[simp]
theorem shift_stop : (s.shift a).stop = s.stop + a := rfl

@[simp]
theorem shift_zero : s.shift 0 = s := rfl

theorem between_add (i j : Nat) : between (i + a) (j + a) = (between i j).shift a := by
  simp only [between, shift, mk.injEq]
  omega

theorem isEmpty_shift : (s.shift a).isEmpty = s.isEmpty := by
  simp [isEmpty]

end Span

namespace Stylesheet

open Text

def Token.shift (t : Token) (a : Nat) : Token := { t with span := t.span.shift a }

def Rule.shift (r : Rule) (a : Nat) : Rule :=
  { r with selector := r.selector.shift a, body := r.body.shift a, span := r.span.shift a }

def Declaration.shift (d : Declaration) (a : Nat) : Declaration :=
  { d with
    name := d.name.shift a
    value := d.value.shift a
    span := d.span.shift a
    colon := d.colon.map (· + a)
    terminator := d.terminator.map (· + a) }

def shift (s : Stylesheet) (a : Nat) : Stylesheet where
  rules := s.rules.map (·.shift a)
  declarations := s.declarations.map (·.shift a)
  comments := s.comments.map (·.shift a)

def Draft.shift (d : Draft) (a : Nat) : Draft :=
  { d with
    sheet := d.sheet.shift a
    item := d.item.map (· + a)
    colon := d.colon.map (· + a) }

@[simp]
theorem Token.shift_zero (t : Token) : t.shift 0 = t := rfl

@[simp]
theorem Rule.shift_zero (r : Rule) : r.shift 0 = r := rfl

@[simp]
theorem Declaration.shift_zero (d : Declaration) : d.shift 0 = d := by
  simp [shift]

@[simp]
theorem shift_zero (s : Stylesheet) : s.shift 0 = s := by
  simp [shift]

@[simp]
theorem Draft.shift_zero (d : Draft) : d.shift 0 = d := by
  simp [shift]

variable {part code : Bytes} {a i stop : Nat} {d : Draft} (h : PartAt part code a)

section tokens

include h

theorem quotedEnd_add (quote : Char) (hs : stop ≤ part.size) :
    quotedEnd quote code (stop + a) (i + a) = quotedEnd quote part stop i + a := by
  fun_induction quotedEnd quote part stop i with
  | case1 i hi hslash ih =>
    rw [quotedEnd, if_pos (by omega), if_pos (by rwa [h.test_add (by omega)]), ← ih,
      Nat.add_right_comm]
  | case2 i hi hslash hquote =>
    rw [quotedEnd, if_pos (by omega), if_neg (by rwa [h.test_add (by omega)]),
      if_pos (by rwa [h.test_add (by omega)]), Nat.add_right_comm]
  | case3 i hi hslash hquote ih =>
    rw [quotedEnd, if_pos (by omega), if_neg (by rwa [h.test_add (by omega)]),
      if_neg (by rwa [h.test_add (by omega)]), ← ih, Nat.add_right_comm]
  | case4 i hi => rw [quotedEnd, if_neg (by omega)]

theorem tokenAt_add (hpeek : at? part i = some '/' → i + 1 = part.size →
    at? code (part.size + a) ≠ some '*') (hi : i < part.size) (hs : stop ≤ part.size) :
    tokenAt code (stop + a) (i + a) = (tokenAt part stop i).shift a := by
  have hat := h.at?_add hi
  have hmax (n : Nat) : max (i + a + 1) (n + a) = max (i + 1) n + a := by omega
  have hcut := tokenAt_cut part stop i
  generalize tokenAt part stop i = t at hcut ⊢
  cases hcut with
  | nothing hnone =>
    obtain ⟨c, hsome⟩ := at?_of_lt hi
    simp [hnone] at hsome
  | comment hfirst hstar =>
    have hstar' : at? code (i + a + 1) = some '*' := by
      rw [Nat.add_right_comm, h.at?_add (lt_size_of_at? hstar), hstar]
    rw [(Cut.comment (hat.trans hfirst) hstar').tokenAt_eq, show i + a + 2 = i + 2 + a by omega,
      h.past_add hs, hmax]
    rfl
  | @quoted c hfirst hq =>
    have hend : quotedEnd c code (stop + a) (i + a + 1) = quotedEnd c part stop (i + 1) + a := by
      rw [Nat.add_right_comm, quotedEnd_add h c hs]
    rw [(Cut.quoted (hat.trans hfirst) hq).tokenAt_eq, hend, hmax]
    rfl
  | @byte c hfirst hq hc =>
    have hplain (hslash : c = '/') : at? code (i + a + 1) ≠ some '*' := by
      rw [Nat.add_right_comm]
      rcases Nat.eq_or_lt_of_le (Nat.succ_le_of_lt hi) with heq | hlt
      · have hstar := hpeek (hslash ▸ hfirst) heq
        rwa [← heq] at hstar
      · rw [h.at?_add hlt]
        exact hc hslash
    rw [(Cut.byte (hat.trans hfirst) hq hplain).tokenAt_eq, Nat.add_right_comm]
    rfl

end tokens

namespace Draft

theorem beginItem_shift (d : Draft) (i a : Nat) :
    (d.shift a).beginItem (i + a) = (d.beginItem i).shift a := by
  cases hi : d.item <;> simp [beginItem, shift, hi]

theorem closeRule_shift (d : Draft) (brace a : Nat) :
    (d.shift a).closeRule (brace + a) = (d.closeRule brace).shift a := by
  cases ho : d.opened with
  | nil => simp [closeRule, shift, ho]
  | cons k rest =>
    simp only [closeRule, shift, ho, Stylesheet.shift, mk.injEq, Stylesheet.mk.injEq, and_true]
    symm
    apply map_modify
    intro r
    simp only [Rule.shift, Span.shift, Nat.add_right_comm]

theorem endRules_shift (opened : List Nat) (rules : Array Rule) (i a : Nat) :
    opened.foldl (fun rules k => rules.modify k fun r =>
        { r with body.stop := i + a, span.stop := i + a }) (rules.map (·.shift a)) =
      (opened.foldl (fun rules k => rules.modify k fun r =>
        { r with body.stop := i, span.stop := i }) rules).map (·.shift a) := by
  induction opened generalizing rules with
  | nil => rfl
  | cons k opened ih =>
    rw [List.foldl_cons, List.foldl_cons, ← ih]
    congr 1
    symm
    apply map_modify
    intro r
    rfl

include h

theorem nameAndValue_add {start : Nat} {content : Span} {colon : Option Nat}
    (hstart : start ≤ part.size) (hcontent : content.start < content.stop)
    (hstop : content.stop ≤ part.size) (hcolon : ∀ c, colon = some c → c < part.size) :
    nameAndValue code (start + a) (content.shift a) (colon.map (· + a)) =
      ((nameAndValue part start content colon).1.shift a,
        (nameAndValue part start content colon).2.shift a) := by
  cases colon with
  | some c =>
    have hc := hcolon c rfl
    have hmin : min start c ≤ part.size := by omega
    simp only [nameAndValue, Option.map_some, Span.shift_stop, Nat.add_right_comm c a 1,
      Span.between_add]
    rw [h.trim_add (by simp only [Span.between]; omega) (by simp only [Span.between]; omega),
      h.trim_add (by simp only [Span.between]; omega) (by simp only [Span.between]; omega)]
  | none =>
    have hword := skip_le (!isBlank ·) part (Nat.le_of_lt hcontent)
    simp only [nameAndValue, Option.map_none, Span.shift_start, Span.shift_stop, h.skip_add hstop,
      h.test_add (Nat.lt_of_lt_of_le hcontent hstop), h.isBoundary_add hstop,
      Nat.add_lt_add_iff_right]
    split
    · have htrim := h.trim_add (s := ⟨skip (!isBlank ·) part content.stop content.start, content.stop⟩)
        (by simp only; omega) hstop
      rw [← htrim]
      rfl
    · rfl

theorem addDeclaration_shift (hi : i ≤ part.size) (hv : d.Valid part i) (terminator : Option Nat) :
    (d.shift a).addDeclaration code (i + a) (terminator.map (· + a)) =
      (d.addDeclaration part i terminator).shift a := by
  cases hitem : d.item with
  | none => simp [addDeclaration, shift, hitem]
  | some start =>
    obtain ⟨hfirst, hlt, hle, hcolon⟩ := hv.content_spec hi hitem
    have hstart : start < i := (hv.item start hitem).1
    have hbetween := Span.between_of_le (Nat.le_of_lt hstart)
    have htrim := h.trim_add (s := ⟨start, i⟩) (by simp only; omega) hi
    rw [← hbetween, ← Span.between_add, hbetween] at htrim
    have hnv := @nameAndValue_add part code a h start (trim part ⟨start, i⟩) d.colon (by omega)
      (hfirst.symm ▸ hlt) (Nat.le_trans hle hi) fun c hc => by
        have := hcolon c hc
        omega
    have hspan : Span.between ((trim part ⟨start, i⟩).start + a)
        ((terminator.map (· + a)).elim ((trim part ⟨start, i⟩).stop + a) (· + 1)) =
        (Span.between (trim part ⟨start, i⟩).start
          (terminator.elim (trim part ⟨start, i⟩).stop (· + 1))).shift a := by
      cases terminator with
      | none => exact Span.between_add ..
      | some t =>
        simp only [Option.map_some, Option.elim_some, Nat.add_right_comm t a 1]
        exact Span.between_add ..
    simp only [addDeclaration, shift, hitem, Option.map_some, htrim, hbetween, Span.isEmpty_shift, hnv,
      Span.shift_start, Span.shift_stop, hspan]
    split
    · simp [hitem]
    · simp [Stylesheet.shift, Declaration.shift]

theorem openRule_shift (hi : i ≤ part.size) (hv : d.Valid part i) :
    (d.shift a).openRule code (i + a) = (d.openRule part i).shift a := by
  have hitem : (d.item.map (· + a)).getD (i + a) = d.item.getD i + a := by
    cases d.item <;> rfl
  have hedge := hv.edge_le
  have htrim := h.trim_add (s := .between (d.item.getD i) i) (by simp only [Span.between]; omega)
    (by simp only [Span.between]; omega)
  have hspan (n : Nat) : Span.between (n + a) (i + a + 1) = (Span.between n (i + 1)).shift a := by
    rw [Nat.add_right_comm, Span.between_add]
  simp only [openRule, shift, hitem, Span.between_add, htrim, Stylesheet.shift, Array.size_map,
    Span.shift_start, hspan]
  simp [Rule.shift, Span.empty, Span.shift, Nat.add_right_comm]

theorem absorb_shift {t : Token} (hi : i ≤ part.size) (hv : d.Valid part i) (ht : t.span.start = i) :
    (d.shift a).absorb code (t.shift a) = (d.absorb part t).shift a := by
  have hdepth : (d.shift a).depth = d.depth := rfl
  have hbegin := beginItem_shift d i a
  have hadd (terminator : Option Nat) := addDeclaration_shift h hi hv terminator
  simp only [absorb, Token.shift, Span.shift_start, ht, hdepth, hbegin]
  cases t.kind with
  | comment => simp [shift, Stylesheet.shift]
  | blank => rfl
  | quoted => rfl
  | other => rfl
  | openParen => rfl
  | closeParen => rfl
  | colon =>
    have hnone : (d.shift a).colon = none ↔ d.colon = none := by simp [shift]
    have hany : (d.shift a).item.any (· < i + a) = d.item.any (· < i) := by
      cases hitem : d.item <;> simp [shift, hitem]
    simp only [hnone, hany]
    split <;> rfl
  | semicolon =>
    simp only
    split
    · exact congrArg endItem (hadd (some i))
    · rfl
  | openBrace =>
    simp only
    split
    · exact congrArg endItem (openRule_shift h hi hv)
    · rfl
  | closeBrace =>
    simp only
    split
    · rw [← closeRule_shift]
      exact congrArg (fun d => (d.endItem).closeRule (i + a)) (hadd none)
    · rfl

theorem reading_shift (hpeek : ∀ t ∈ tokens part stop i, at? part t.span.start = some '/' →
    t.span.start + 1 = part.size → at? code (part.size + a) ≠ some '*') (hs : stop ≤ part.size)
    (hi : i ≤ stop) (hv : d.Valid part i) :
    (d.shift a).reading code (stop + a) (i + a) = (d.reading part stop i).shift a := by
  unfold reading
  fun_induction tokens part stop i generalizing d with
  | case1 i hlt ih =>
    obtain ⟨hpeek, hrest⟩ := List.forall_mem_cons.mp hpeek
    have hsize := Nat.lt_of_lt_of_le hlt hs
    have hle := tokenAt_stop_le part hlt
    rw [tokenAt_start] at hpeek
    rw [tokens, if_pos (by omega), List.foldl_cons, List.foldl_cons, tokenAt_add h hpeek hsize hs,
      absorb_shift h (Nat.le_of_lt hsize) hv (tokenAt_start ..)]
    exact ih hrest hle (hv.absorb hlt hs)
  | case2 i hge =>
    rw [tokens, if_neg (by omega)]
    rfl

theorem finish_shift (isInline : Bool) (hi : i ≤ part.size) (hv : d.Valid part i) :
    (d.shift a).finish code isInline (i + a) = (d.finish part isInline i).shift a := by
  have hadd := addDeclaration_shift h hi hv none
  have hopened : (d.shift a).opened = d.opened := rfl
  rw [Option.map_none] at hadd
  simp only [finish, hopened, hadd]
  split
  · simp only [Stylesheet.shift, Stylesheet.mk.injEq]
    exact ⟨endRules_shift .., rfl, rfl⟩
  · simp only [Stylesheet.shift, Stylesheet.mk.injEq]
    exact ⟨endRules_shift .., rfl, rfl⟩

end Draft

/-- The last byte of the text is a slash and part of no comment and no string. -/
def EndsInSlash (code : Bytes) : Prop :=
  ∃ t ∈ tokens code code.size 0, at? code t.span.start = some '/' ∧ t.span.start + 1 = code.size

include h

theorem parseRegion_add (hpeek : ¬(EndsInSlash part ∧ at? code (part.size + a) = some '*'))
    (isInline : Bool) : parseRegion code ⟨a, part.size + a⟩ isInline =
      (parseRegion part ⟨0, part.size⟩ isInline).shift a := by
  have hv := Draft.valid_empty part 0
  have hempty : ({} : Draft).shift a = {} := by simp [Draft.shift, Stylesheet.shift]
  have hread := Draft.reading_shift h (fun t ht hat hend hstar => hpeek ⟨⟨t, ht, hat, hend⟩, hstar⟩)
    (Nat.le_refl _) (Nat.zero_le _) hv
  have hend := hv.absorb_tokens (Nat.zero_le _) (Nat.le_refl part.size)
  rw [Nat.zero_add, hempty] at hread
  simp only [parseRegion, Nat.min_eq_left h.size, Nat.min_self]
  rw [← Draft.finish_shift h isInline (Nat.le_refl _) hend]
  exact congrArg (fun d => d.finish code isInline (part.size + a)) hread

end Stylesheet

end Caret
