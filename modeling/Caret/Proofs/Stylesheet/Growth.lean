import Caret.Proofs.Stylesheet.Shift

/-!
Text that is appended leaves alone what has been finished before it. Rules that are still open get
other ends, and new rules and declarations come behind the old ones.
-/

namespace Caret.Stylesheet

open Text

/-- What the brace of a rule settles stays as it is, and so does all of a rule that is closed. -/
structure Rule.GrowsTo (r r' : Rule) : Prop where
  selector : r'.selector = r.selector
  body_start : r'.body.start = r.body.start
  span_start : r'.span.start = r.span.start
  parent : r'.parent = r.parent
  of_closed : r.closed = true → r' = r

def terminated (s : Stylesheet) : List Declaration :=
  s.declarations.toList.filter (·.terminator.isSome)

structure GrowsTo (s s' : Stylesheet) : Prop where
  rules : ∀ (i : Nat) (r : Rule), s.rules[i]? = some r →
    ∃ r', s'.rules[i]? = some r' ∧ r.GrowsTo r'
  terminated : s.terminated <+: s'.terminated

variable {part code : Bytes} {i stop : Nat} {s s' s'' : Stylesheet} {d : Draft}

section order

theorem Rule.GrowsTo.refl (r : Rule) : r.GrowsTo r := ⟨rfl, rfl, rfl, rfl, fun _ => rfl⟩

theorem Rule.GrowsTo.trans {r q t : Rule} (h : r.GrowsTo q) (h' : q.GrowsTo t) : r.GrowsTo t where
  selector := h'.selector.trans h.selector
  body_start := h'.body_start.trans h.body_start
  span_start := h'.span_start.trans h.span_start
  parent := h'.parent.trans h.parent
  of_closed hc := by
    obtain rfl := h.of_closed hc
    exact h'.of_closed hc

theorem Rule.growsTo_settle (r : Rule) : r.GrowsTo (r.settle stop) ∧ (r.settle stop).GrowsTo r := by
  cases hc : r.closed with
  | true =>
    rw [Rule.settle_of_closed hc]
    exact ⟨.refl r, .refl r⟩
  | false =>
    rw [Rule.settle_of_open hc]
    exact ⟨⟨rfl, rfl, rfl, rfl, by simp [hc]⟩, ⟨rfl, rfl, rfl, rfl, by simp [hc]⟩⟩

theorem GrowsTo.of_rules_eq (hr : s'.rules = s.rules) (hd : s.terminated <+: s'.terminated) :
    s.GrowsTo s' :=
  ⟨fun _ r hi => ⟨r, hr ▸ hi, .refl r⟩, hd⟩

theorem GrowsTo.refl (s : Stylesheet) : s.GrowsTo s := .of_rules_eq rfl List.prefix_rfl

theorem GrowsTo.trans (h : s.GrowsTo s') (h' : s'.GrowsTo s'') : s.GrowsTo s'' where
  rules i r hr := by
    obtain ⟨r', hr', hg⟩ := h.rules i r hr
    obtain ⟨r'', hr'', hg'⟩ := h'.rules i r' hr'
    exact ⟨r'', hr'', hg.trans hg'⟩
  terminated := h.terminated.trans h'.terminated

end order

theorem terminated_push (s : Stylesheet) (e : Declaration) :
    terminated { s with declarations := s.declarations.push e } =
      s.terminated ++ if e.terminator.isSome then [e] else [] := by
  simp [terminated, List.filter_cons]

namespace Draft

theorem addDeclaration_frame (code : Bytes) (d : Draft) (stop : Nat) (terminator : Option Nat) :
    (d.addDeclaration code stop terminator).sheet.rules = d.sheet.rules ∧
      (d.addDeclaration code stop terminator).opened = d.opened := by
  rcases addDeclaration_cases code d stop terminator with h | ⟨e, -, h⟩ <;>
    rw [h] <;> exact ⟨rfl, rfl⟩

theorem growsTo_addDeclaration (terminator : Option Nat) :
    d.sheet.GrowsTo (d.addDeclaration code stop terminator).sheet := by
  refine .of_rules_eq (addDeclaration_frame ..).1 ?_
  rcases addDeclaration_cases code d stop terminator with h | ⟨e, -, h⟩
  · simp only [h, List.prefix_rfl]
  · simp only [h, terminated_push, List.prefix_append]

theorem terminated_addDeclaration_none (code : Bytes) (d : Draft) (stop : Nat) :
    (d.addDeclaration code stop none).sheet.terminated = d.sheet.terminated := by
  rcases addDeclaration_cases code d stop none with h | ⟨e, he, h⟩
  · rw [h]
  · simp [h, terminated_push, he]

theorem growsTo_openRule : d.sheet.GrowsTo (d.openRule code i).sheet where
  rules _ r hr := ⟨r, getElem?_push_of_some hr, .refl r⟩
  terminated := List.prefix_rfl

theorem Valid.growsTo_closeRule (h : d.Valid code i) (brace : Nat) :
    d.sheet.GrowsTo (d.closeRule brace).sheet := by
  cases ho : d.opened with
  | nil =>
    simp only [Draft.closeRule, ho]
    exact .refl d.sheet
  | cons k rest =>
    simp only [Draft.closeRule, ho]
    refine ⟨fun j r hr => ?_, List.prefix_rfl⟩
    by_cases hkj : k = j
    · subst hkj
      obtain ⟨q, hq, hopen⟩ := (h.nested.mem_opened k).mp (ho ▸ List.mem_cons_self)
      obtain rfl := Option.some.inj (hr.symm.trans hq)
      exact ⟨r.closeAt brace, by simp [Array.getElem?_modify, hr, Rule.closeAt],
        ⟨rfl, rfl, rfl, rfl, by simp [hopen]⟩⟩
    · exact ⟨r, by simp [Array.getElem?_modify, hkj, hr], .refl r⟩

theorem absorb_frame (code : Bytes) (d : Draft) {t : Token} (h : t.kind.char? = none) :
    (d.absorb code t).sheet.rules = d.sheet.rules ∧
      (d.absorb code t).sheet.declarations = d.sheet.declarations := by
  have hstep := absorbs (t := t) rfl code d
  generalize d.absorb code t = e at hstep ⊢
  cases hstep with
  | semicolon hk => simp [hk, Token.Kind.char?] at h
  | openBrace hk => simp [hk, Token.Kind.char?] at h
  | closeBrace hk => simp [hk, Token.Kind.char?] at h
  | _ => exact ⟨rfl, rfl⟩

theorem Valid.growsTo_absorb {t : Token} (h : d.Valid code i) (ht : t.span.start = i)
    (hs : i ≤ code.size) : d.sheet.GrowsTo (d.absorb code t).sheet := by
  have hadd (terminator : Option Nat) : d.sheet.GrowsTo
      (d.addDeclaration code i terminator).sheet := growsTo_addDeclaration terminator
  have hstep := absorbs ht code d
  generalize d.absorb code t = e at hstep ⊢
  cases hstep with
  | comment => exact .of_rules_eq rfl List.prefix_rfl
  | blank | item | openParen | closeParen | colon => exact .refl d.sheet
  | semicolon => exact hadd (some i)
  | openBrace => exact growsTo_openRule
  | closeBrace =>
    have hended := h.addDeclaration none hs (Nat.le_refl _) (by simp) (Nat.le_refl _)
    exact (hadd none).trans (hended.growsTo_closeRule _)

theorem Valid.growsTo_reading (h : d.Valid code i) (hi : i ≤ stop) (hs : stop ≤ code.size) :
    d.sheet.GrowsTo (d.reading code stop i).sheet := by
  refine (foldl_tokens (P := fun k e => Valid code k e ∧ d.sheet.GrowsTo e.sheet)
    (fun k e hk he => ?_) ⟨h, .refl d.sheet⟩ hi).2
  refine ⟨he.1.absorb hk hs, he.2.trans ?_⟩
  exact he.1.growsTo_absorb (tokenAt_start code stop k) (by omega)

theorem Valid.growsTo_finish (h : d.Valid code i) (isInline : Bool) :
    d.sheet.GrowsTo (d.finish code isInline i) ∧ (d.finish code isInline i).GrowsTo d.sheet := by
  have hrules : (d.finish code isInline i).rules = d.sheet.rules.map (Rule.settle i) := by
    unfold Draft.finish
    split
    · dsimp only
      rw [(addDeclaration_frame ..).1, (addDeclaration_frame ..).2, h.nested.foldl_modify]
    · exact h.nested.foldl_modify
  have hterminated : (d.finish code isInline i).terminated = d.sheet.terminated := by
    unfold Draft.finish
    split
    · exact terminated_addDeclaration_none code d i
    · rfl
  constructor
  · refine ⟨fun k r hr => ?_, hterminated ▸ List.prefix_rfl⟩
    exact ⟨r.settle i, by simp [hrules, hr], r.growsTo_settle.1⟩
  · refine ⟨fun k r hr => ?_, hterminated ▸ List.prefix_rfl⟩
    rw [hrules, Array.getElem?_map] at hr
    obtain ⟨q, hq, rfl⟩ := Option.map_eq_some_iff.mp hr
    exact ⟨q, hq, q.growsTo_settle.2⟩

end Draft

section append

variable (h : PartAt part code 0)
include h

theorem tokenAt_append (hi : i < part.size) :
    tokenAt code code.size i = tokenAt part part.size i ∨
      (tokenAt part part.size i).span.stop = part.size ∧
        (tokenAt part part.size i).kind.char? = none := by
  have hsize := h.size
  have hstop := tokenAt_stop_le part hi
  by_cases hlast : (tokenAt part part.size i).span.stop = part.size
  · cases hc : (tokenAt part part.size i).kind.char? with
    | none => exact .inr ⟨hlast, rfl⟩
    | some c =>
      -- a byte with a meaning is a token by itself, whatever follows it
      left
      obtain ⟨hat, -⟩ := tokenAt_char rfl hc
      have hplain : isQuote c = false ∧ c ≠ '/' := by
        cases hk : (tokenAt part part.size i).kind <;>
          simp only [hk, Token.Kind.char?, Option.some.injEq, reduceCtorEq] at hc <;>
          subst hc <;> decide
      have hat' : at? code i = some c := (h.at?_add hi).trans hat
      rw [(Cut.byte hat hplain.1 (absurd · hplain.2)).tokenAt_eq,
        (Cut.byte hat' hplain.1 (absurd · hplain.2)).tokenAt_eq]
  · exact .inl (tokenAt_congr (fun k _ hk => h.get k (by omega)) (.inr (by omega)))

theorem Draft.Valid.growsTo_append (hi : i ≤ part.size) (hv : d.Valid part i)
    (hv' : d.Valid code i) :
    (d.reading part part.size i).sheet.GrowsTo (d.reading code code.size i).sheet := by
  have hsize := h.size
  unfold Draft.reading
  fun_induction tokens part part.size i generalizing d with
  | case1 i hlt ih =>
    have hlt' : i < code.size := by omega
    rcases tokenAt_append h hlt with hsame | ⟨hlast, hkind⟩
    · have habsorb := Draft.absorb_shift h hi hv (tokenAt_start part part.size i)
      simp only [Draft.shift_zero, Token.shift_zero] at habsorb
      have hvalid := hv'.absorb hlt' (Nat.le_refl code.size)
      rw [hsame, habsorb] at hvalid
      change GrowsTo _ (d.reading code code.size i).sheet
      rw [Draft.reading_step hlt', hsame, habsorb]
      exact ih (tokenAt_stop_le part hlt) (hv.absorb hlt (Nat.le_refl _)) hvalid
    · -- the longer text is read from the start of the token on, where nothing has changed yet
      have hframe := Draft.absorb_frame part d hkind
      rw [hlast, tokens_of_le (Nat.le_refl part.size), List.foldl_cons, List.foldl_nil]
      have hback : (d.absorb part (tokenAt part part.size i)).sheet.GrowsTo d.sheet :=
        .of_rules_eq hframe.1.symm (by simp [terminated, hframe.2])
      exact hback.trans (hv'.growsTo_reading (Nat.le_of_lt hlt') (Nat.le_refl _))
  | case2 i hge =>
    exact hv'.growsTo_reading (by omega) (Nat.le_refl _)

end append

/-- The structure of a text, but for the ends of its open rules and for the declarations without a
terminator, is a first part of the structure of every longer text. -/
theorem parse_append_growsTo (p s : String) :
    (parse (bytes p)).GrowsTo (parse (bytes (p ++ s))) := by
  have h := partAt_append p s
  have hv (code : Bytes) := Draft.valid_empty code 0
  have hend (code : Bytes) : (Draft.reading code code.size 0 {}).Valid code code.size :=
    (hv code).absorb_tokens (Nat.zero_le _) (Nat.le_refl _)
  have hgrows := Draft.Valid.growsTo_append h (Nat.zero_le _) (hv _) (hv _)
  have hparse (code : Bytes) : parse code =
      (Draft.reading code code.size 0 {}).finish code false code.size := by
    simp only [parse, parseRegion, Nat.min_self, Draft.reading]
  rw [hparse, hparse]
  exact ((hend _).growsTo_finish false).2.trans (hgrows.trans ((hend _).growsTo_finish false).1)

example : (parse (bytes "a\x7bb")).declarations.size = 1 ∧
    (parse (bytes "a\x7bb\x7b")).declarations.size = 0 := by
  decide +kernel

end Caret.Stylesheet
