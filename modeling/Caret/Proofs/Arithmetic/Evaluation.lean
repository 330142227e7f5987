import Caret.Proofs.Arithmetic.Expression
import Mathlib.Data.List.TakeWhile

namespace Caret.Arithmetic

open Text

def outcome (code : Bytes) (i : Nat) (term : Option Float) (p : Pending) (outer : List Pending) :
    Option Float :=
  (run code.size (tokensFrom code i) term p outer).toOption

variable {code : Bytes} {i : Nat} {c : Char} {term : Option Float} {p q : Pending}
  {outer : List Pending} {x y : Float}

section tokens

theorem skip_of_test {f : Char → Bool} {j : Nat} (hij : i ≤ j)
    (h : ∀ k, i ≤ k → k < j → test f code k = true) :
    skip f code code.size i = skip f code code.size j := by
  induction hij with
  | refl => rfl
  | @step j hij ih =>
    rw [ih fun k hk hlt => h k hk (Nat.lt_succ_of_lt hlt)]
    have hj := h j hij (Nat.lt_succ_self j)
    obtain ⟨c, hc, -⟩ := test_iff.mp hj
    rw [skip, if_pos ⟨lt_size_of_at? hc, hj⟩]

theorem isBlank_of_isSpace (h : isSpace c = true) : isBlank c = true := by
  rcases isSpace_iff.mp h with rfl | rfl <;> rfl

theorem isSpace_ascii (h : isSpace c = true) : c.toNat < 128 := by
  rcases isSpace_iff.mp h with rfl | rfl <;> decide

theorem isOperator_ascii (h : isOperator c = true) : c.toNat < 128 := by
  rcases isOperator_iff.mp h with rfl | rfl | rfl | rfl | rfl <;> decide

theorem isDigit_ascii (h : c.isDigit = true) : c.toNat < 128 := by
  have hdef : c.isDigit = (decide (48 ≤ c.toNat) && decide (c.toNat ≤ 57)) := rfl
  simp only [hdef, Bool.and_eq_true, decide_eq_true_eq] at h
  omega

theorem isNumberChar_ascii (h : isNumberChar c = true) : c.toNat < 128 := by
  simp only [isNumberChar, Bool.or_eq_true, beq_iff_eq] at h
  rcases h with h | rfl
  · exact isDigit_ascii h
  · decide

theorem not_isBlank_of_isNumberChar (h : isNumberChar c = true) : isBlank c = false := by
  refine Bool.eq_false_iff.mpr fun hb => ?_
  rcases isBlank_iff.mp hb with rfl | rfl | rfl | rfl | rfl <;> exact absurd h (by decide)

theorem not_isNumberChar_of_isSpace (h : isSpace c = true) : isNumberChar c = false := by
  refine Bool.eq_false_iff.mpr fun hn => ?_
  exact Bool.false_ne_true ((not_isBlank_of_isNumberChar hn).symm.trans (isBlank_of_isSpace h))

theorem Gap.test (g : Gap) (h : Written code i g.text) {k : Nat} (hik : i ≤ k)
    (hk : k < i + (bytes g.text).size) : test isSpace code k = true :=
  Written.test h ((forall_encode_iff fun _ => isSpace_ascii).mpr g.all) hik hk

theorem tokensFrom_gap (g : Gap) (h : Written code i g.text) :
    tokensFrom code i = tokensFrom code (i + (bytes g.text).size) := by
  have hblank : ∀ k, i ≤ k → k < i + (bytes g.text).size → test isBlank code k = true := by
    intro k hik hk
    obtain ⟨c, hc, hs⟩ := test_iff.mp (g.test h hik hk)
    exact test_iff.mpr ⟨c, hc, isBlank_of_isSpace hs⟩
  rw [tokensFrom, tokensFrom, skip_of_test (Nat.le_add_right ..) hblank]

theorem tokensFrom_of_at? (h : at? code i = some c) (hb : isBlank c = false) :
    tokensFrom code i =
      tokenAt code i :: tokensFrom code (max (i + 1) (tokenAt code i).stop) := by
  have hskip : skip isBlank code code.size i = i := skip_eq_self (by rw [test_of_at? h, hb])
  rw [tokensFrom]
  simp only [hskip, if_pos (lt_size_of_at? h)]

theorem tokensFrom_symbol (h : at? code i = some c) (hb : isBlank c = false)
    (hn : isNumberChar c = false) :
    tokensFrom code i = ⟨.ofChar c, i, i + 1⟩ :: tokensFrom code (i + 1) := by
  have ht : tokenAt code i = ⟨.ofChar c, i, i + 1⟩ := by simp [tokenAt, test_of_at? h, hn, h]
  rw [tokensFrom_of_at? h hb, ht, Nat.max_self]

theorem Literal.isNumberChar_of_mem {l : Literal} : ∀ c ∈ l.text.toList, isNumberChar c = true := by
  intro c hc
  cases l with
  | integer digits => simp [isNumberChar, digits.all c hc]
  | decimal whole decimals =>
    simp only [text, String.toList_append, String.toList_singleton, List.mem_append,
      List.mem_singleton] at hc
    rcases hc with (hc | rfl) | hc
    · simp [isNumberChar, whole.all c hc]
    · rfl
    · simp [isNumberChar, decimals.all c hc]

theorem Literal.text_ne_empty (l : Literal) : l.text ≠ "" := by
  cases l with
  | integer digits => exact digits.nonempty
  | decimal whole decimals =>
    intro h
    have hlist := congrArg String.toList h
    simp [text] at hlist

theorem Literal.number?_text (l : Literal) : number? l.text = some l.value := by
  cases l with
  | integer digits =>
    have hall := digits.all
    have hne := mt String.toList_eq_nil_iff.mp digits.nonempty
    simp [number?, text, value, List.takeWhile_eq_self_iff.mpr hall,
      List.dropWhile_eq_nil_iff.mpr hall, hne]
  | decimal whole decimals =>
    have hdot : Char.isDigit '.' = false := rfl
    have htext : (decimal whole decimals).text.toList =
        whole.text.toList ++ '.' :: decimals.text.toList := by
      simp [text]
    have hne := mt String.toList_eq_nil_iff.mp decimals.nonempty
    simp [number?, htext, value, List.takeWhile_append_of_pos whole.all,
      List.dropWhile_append_of_pos whole.all, hdot, hne]
    exact decimals.all

theorem tokensFrom_literal (l : Literal) (h : Written code i l.text)
    (hend : test isNumberChar code (i + (bytes l.text).size) = false) :
    tokensFrom code i = ⟨.number l.text, i, i + (bytes l.text).size⟩ ::
      tokensFrom code (i + (bytes l.text).size) := by
  have hle := h.le_size l.text_ne_empty
  have hpos := size_bytes_pos l.text_ne_empty
  have hall {k : Nat} (hik : i ≤ k) (hk : k < i + (bytes l.text).size) :
      test isNumberChar code k = true :=
    h.test ((forall_encode_iff fun _ => isNumberChar_ascii).mpr l.isNumberChar_of_mem) hik hk
  have hfirst := hall (Nat.le_refl i) (Nat.lt_add_of_pos_right hpos)
  obtain ⟨c, hc, hn⟩ := test_iff.mp hfirst
  have hskip : skip isNumberChar code code.size i = i + (bytes l.text).size :=
    skip_eq (Nat.le_add_right i _) hle (fun k => hall) fun _ => hend
  have ht : tokenAt code i = ⟨.number l.text, i, i + (bytes l.text).size⟩ := by
    simp only [tokenAt, hfirst, if_true, hskip, h.read_eq]
  rw [tokensFrom_of_at? hc (not_isBlank_of_isNumberChar hn), ht,
    Nat.max_eq_right (Nat.add_le_add_left hpos i)]

end tokens

def Pending.factor? (p : Pending) (value : Float) : Option Float :=
  match p.product with
  | none => some (negate p.minuses value)
  | some (before, joint) => joint.value? before (negate p.minuses value)

theorem toOption_factor (p : Pending) (value : Float) (pos : Nat) :
    (p.factor value pos).toOption = p.factor? value := by
  unfold Pending.factor Pending.factor?
  cases p.product with
  | none => rfl
  | some product =>
    obtain ⟨before, joint⟩ := product
    cases joint with
    | times => rfl
    | _ =>
      simp only [Joint.apply, Joint.value?]
      split <;> rfl

theorem toOption_bind {α β : Type} (a : Except Error α) (f : α → Except Error β) :
    (a >>= f).toOption = a.toOption.bind fun x => (f x).toOption := by
  cases a <;> rfl

theorem run_congr (stop : Nat) (tokens : List Token) (x : Float) (h : p.sum = q.sum) :
    run stop tokens (some x) p outer = run stop tokens (some x) q outer := by
  have htotal : p.total x = q.total x := by rw [Pending.total, Pending.total, h]
  cases tokens with
  | nil => cases outer <;> simp [run, htotal]
  | cons t rest => cases outer <;> cases hs : t.symbol <;> simp [run, hs, htotal, h]

section steps

theorem outcome_congr (h : p.sum = q.sum) :
    outcome code i (some x) p outer = outcome code i (some x) q outer := by
  rw [outcome, outcome, run_congr _ _ x h]

theorem outcome_gap (g : Gap) (h : Written code i g.text) :
    outcome code i term p outer = outcome code (i + (bytes g.text).size) term p outer := by
  rw [outcome, outcome, tokensFrom_gap g h]

theorem outcome_literal (l : Literal) (h : Written code i l.text)
    (hend : test isNumberChar code (i + (bytes l.text).size) = false) :
    outcome code i none p outer = (p.factor? l.value).bind fun x =>
      outcome code (i + (bytes l.text).size) (some x) p outer := by
  rw [outcome, tokensFrom_literal l h hend]
  simp only [run, l.number?_text, toOption_bind, toOption_factor]
  rfl

theorem outcome_sign {minus : Bool} (h : at? code i = some (signChar minus)) :
    outcome code i none p outer = outcome code (i + 1) none
      (if minus then { p with minuses := p.minuses + 1 } else p) outer := by
  cases minus <;> rw [outcome, tokensFrom_symbol h rfl rfl] <;> rfl

theorem outcome_open (h : at? code i = some '(') :
    outcome code i none p outer = outcome code (i + 1) none {} (p :: outer) := by
  rw [outcome, tokensFrom_symbol h rfl rfl]
  rfl

theorem outcome_close (h : at? code i = some ')') :
    outcome code i (some x) p (q :: outer) = (q.factor? (p.total x)).bind fun y =>
      outcome code (i + 1) (some y) q outer := by
  rw [outcome, tokensFrom_symbol h rfl rfl]
  simp only [run, Symbol.ofChar, toOption_bind, toOption_factor]
  rfl

theorem outcome_joint {joint : Joint} (h : at? code i = some joint.char) :
    outcome code i (some x) p outer = outcome code (i + 1) none
      { sum := p.sum, product := some (x, joint) } outer := by
  cases joint <;> rw [outcome, tokensFrom_symbol h rfl rfl] <;> rfl

theorem outcome_sum {minus : Bool} (h : at? code i = some (signChar minus)) :
    outcome code i (some x) p outer = outcome code (i + 1) none
      { sum := some (p.total x, minus) } outer := by
  cases minus <;> rw [outcome, tokensFrom_symbol h rfl rfl] <;> cases outer <;> rfl

end steps

theorem signChar_ascii (minus : Bool) : (signChar minus).toNat < 128 := by
  cases minus <;> decide

theorem Joint.char_ascii (joint : Joint) : joint.char.toNat < 128 := by
  cases joint <;> decide

def Ends (code : Bytes) (i : Nat) : Prop := test isNumberChar code i = false

theorem Ends.of_at? (h : at? code i = some c) (hc : isNumberChar c = false) : Ends code i := by
  rw [Ends, test_of_at? h, hc]

theorem Ends.of_gap (g : Gap) (h : Written code i g.text) (he : Ends code (i + (bytes g.text).size)) :
    Ends code i := by
  rcases Nat.eq_zero_or_pos (bytes g.text).size with h0 | hpos
  · rwa [h0] at he
  · obtain ⟨c, hc, hs⟩ := test_iff.mp (g.test h (Nat.le_refl i) (Nat.lt_add_of_pos_right hpos))
    refine .of_at? hc (Bool.eq_false_iff.mpr fun hn => ?_)
    exact Bool.false_ne_true ((not_isBlank_of_isNumberChar hn).symm.trans (isBlank_of_isSpace hs))

theorem Pending.factor?_minus (p : Pending) (x : Float) :
    ({ p with minuses := p.minuses + 1 } : Pending).factor? x = p.factor? (-x) := rfl

mutual

theorem Expression.outcome_eq (e : Expression) {i : Nat} (h : Written code i e.text)
    (he : Ends code (i + (bytes e.text).size)) :
    ∃ last : Option (Float × Pending), last.map (fun s => s.2.total s.1) = e.value? ∧
      ∀ outer, outcome code i none {} outer =
        last.bind fun s => outcome code (i + (bytes e.text).size) (some s.1) s.2 outer := by
  cases e with
  | term t =>
    refine ⟨t.value?.map (·, {}), ?_, fun outer => ?_⟩
    · rw [Option.map_map]
      exact Option.map_id_apply
    · rw [t.outcome_eq h he none outer, Option.bind_map]
      rfl
  | sum e before minus after t =>
    simp only [Expression.text, written_append, written_singleton (signChar_ascii minus),
      size_bytes_append, size_bytes_singleton (signChar_ascii minus), ← Nat.add_assoc] at h he ⊢
    obtain ⟨⟨⟨⟨hleft, hbefore⟩, hsign⟩, hafter⟩, hright⟩ := h
    have hends : Ends code (i + (bytes e.text).size) :=
      .of_gap before hbefore (.of_at? hsign (by cases minus <;> rfl))
    obtain ⟨last, hvalue, hlast⟩ := e.outcome_eq hleft hends
    refine ⟨last.bind fun s => t.value?.map (·, { sum := some (s.2.total s.1, minus) }), ?_, ?_⟩
    · rw [Expression.value?, ← hvalue]
      cases last with
      | none => rfl
      | some s => cases t.value? <;> cases minus <;> rfl
    · intro outer
      rw [hlast, Option.bind_assoc]
      congr
      funext s
      rw [outcome_gap before hbefore, outcome_sum hsign, outcome_gap after hafter,
        t.outcome_eq hright he, Option.bind_map]
      rfl

theorem Term.outcome_eq (t : Term) {i : Nat} (h : Written code i t.text)
    (he : Ends code (i + (bytes t.text).size)) (sum : Option (Float × Bool)) (outer : List Pending) :
    outcome code i none { sum } outer =
      t.value?.bind fun x => outcome code (i + (bytes t.text).size) (some x) { sum } outer := by
  cases t with
  | factor f => exact f.outcome_eq h he { sum } outer
  | product t before joint after f =>
    simp only [Term.text, written_append, written_singleton joint.char_ascii,
      size_bytes_append, size_bytes_singleton joint.char_ascii, ← Nat.add_assoc] at h he ⊢
    obtain ⟨⟨⟨⟨hleft, hbefore⟩, hjoint⟩, hafter⟩, hright⟩ := h
    have hends : Ends code (i + (bytes t.text).size) :=
      .of_gap before hbefore (.of_at? hjoint (by cases joint <;> rfl))
    rw [t.outcome_eq hleft hends, Term.value?]
    simp only [bind, Option.bind_assoc]
    congr
    funext a
    rw [outcome_gap before hbefore, outcome_joint hjoint, outcome_gap after hafter,
      f.outcome_eq hright he]
    congr
    funext b
    change ((joint.value? a b).bind _) = _
    congr
    funext x
    exact outcome_congr rfl

theorem Factor.outcome_eq (f : Factor) {i : Nat} (h : Written code i f.text)
    (he : Ends code (i + (bytes f.text).size)) (p : Pending) (outer : List Pending) :
    outcome code i none p outer = f.value?.bind fun x => (p.factor? x).bind fun y =>
      outcome code (i + (bytes f.text).size) (some y) p outer := by
  cases f with
  | signed minus after f =>
    simp only [Factor.text, written_append, written_singleton (signChar_ascii minus),
      size_bytes_append, size_bytes_singleton (signChar_ascii minus), ← Nat.add_assoc] at h he ⊢
    obtain ⟨⟨hsign, hafter⟩, hf⟩ := h
    rw [outcome_sign hsign, outcome_gap after hafter, f.outcome_eq hf he, Factor.value?,
      Option.bind_map]
    congr
    funext x
    cases minus with
    | false => rfl
    | true =>
      simp only [if_true, Function.comp, Pending.factor?_minus]
      congr
      funext y
      exact outcome_congr rfl
  | parens before e after =>
    simp only [Factor.text, written_append, written_singleton (c := '(') (by decide),
      written_singleton (c := ')') (by decide), size_bytes_append,
      size_bytes_singleton (c := '(') (by decide), size_bytes_singleton (c := ')') (by decide),
      ← Nat.add_assoc] at h he ⊢
    obtain ⟨⟨⟨⟨hopen, hbefore⟩, hinside⟩, hafter⟩, hclose⟩ := h
    have hends := Ends.of_gap after hafter (.of_at? hclose rfl)
    obtain ⟨last, hvalue, hlast⟩ := e.outcome_eq hinside hends
    rw [outcome_open hopen, outcome_gap before hbefore, hlast, Factor.value?, ← hvalue,
      Option.bind_map]
    congr
    funext s
    rw [outcome_gap after hafter, outcome_close hclose]
    rfl
  | literal l =>
    exact outcome_literal l h he

end

theorem toOption_evaluate (e : Expression) : (evaluate (bytes e.text)).toOption = e.value? := by
  have hnil : tokensFrom (bytes e.text) (bytes e.text).size = [] := by
    rw [tokensFrom]
    simp only
    rw [if_neg (Nat.not_lt.mpr (le_skip ..))]
  have hends : Ends (bytes e.text) (0 + (bytes e.text).size) := by
    simp [Ends, test, at?]
  obtain ⟨last, hvalue, hlast⟩ := e.outcome_eq (written_self e.text) hends
  change outcome (bytes e.text) 0 none {} [] = _
  rw [hlast, ← hvalue, Nat.zero_add]
  cases last with
  | none => rfl
  | some s =>
    simp only [Option.bind_some, outcome, hnil, run]
    rfl

end Caret.Arithmetic
