import Caret.Proofs.Arithmetic.Nesting
import Caret.Proofs.Text.Part

namespace Caret.Arithmetic

open Text

variable {spaces : Bool} {a i depth : Nat} {c : Char} {l u : List Char} {code part : Bytes}

theorem Nested.ascii (h : Nested spaces l) : ∀ c ∈ l, c.toNat < 128 := by
  induction h with
  | nil => simp
  | literal number _ hr ih =>
    intro c hc
    rcases List.mem_append.mp hc with hc | hc
    · exact isNumberChar_ascii (Literal.isNumberChar_of_mem c hc)
    · exact ih c hc
  | plain hc hr ih => exact List.forall_mem_cons.mpr ⟨isPlain_ascii hc, ih⟩
  | parens hi hr ihi ihr =>
    refine List.forall_mem_cons.mpr ⟨by decide, fun c hc => ?_⟩
    rcases List.mem_append.mp hc with hc | hc
    · exact ihi c hc
    · exact List.forall_mem_cons.mpr ⟨by decide, ihr⟩ c hc

theorem Nested.of_space_cons (h : Nested spaces (c :: l)) (hc : isSpace c = true) :
    Nested spaces l := by
  generalize hwhole : c :: l = whole at h
  cases h with
  | nil => simp at hwhole
  | literal number _ hr =>
    cases htext : number.text.toList with
    | nil => exact absurd (String.toList_eq_nil_iff.mp htext) number.text_ne_empty
    | cons d rest =>
      rw [htext, List.cons_append] at hwhole
      have hd := Literal.isNumberChar_of_mem d (htext ▸ List.mem_cons_self)
      rw [← (List.cons.inj hwhole).1, not_isNumberChar_of_isSpace hc] at hd
      exact absurd hd Bool.false_ne_true
  | plain hd hr => exact (List.cons.inj hwhole).2 ▸ hr
  | parens hi hr =>
    obtain ⟨rfl, -⟩ := List.cons.inj hwhole
    exact absurd hc (by decide)

theorem Nested.of_spaces_append (hu : ∀ c ∈ u, isSpace c = true) (h : Nested spaces (u ++ l)) :
    Nested spaces l := by
  induction u with
  | nil => exact h
  | cons c u ih =>
    obtain ⟨hc, hu⟩ := List.forall_mem_cons.mp hu
    exact ih hu (h.of_space_cons hc)

theorem stepBack_of_isSpace {cursor : Nat} {p : Nat × Nat}
    (h : stepBack spaces code cursor depth = some p) (hs : test isSpace code (cursor - 1) = true) :
    p.2 = depth := by
  rcases stepBack_cases h with ⟨-, -, hdepth⟩ | ⟨rfl, c, hc, hkind⟩
  · exact hdepth
  · rw [Nat.add_sub_cancel, test_of_at? hc] at hs
    rcases hkind with ⟨rfl, -⟩ | ⟨rfl, -⟩ | ⟨-, hdepth⟩
    · exact absurd hs (by decide)
    · exact absurd hs (by decide)
    · exact hdepth

theorem goBack_snd_of_spaces (spaces : Bool) (code : Bytes) (cursor depth : Nat)
    (h : ∀ k, (goBack spaces code cursor depth).1 ≤ k → k < cursor → test isSpace code k = true) :
    (goBack spaces code cursor depth).2 = depth := by
  induction cursor, depth using @stepBack_induction spaces code with
  | _ cursor depth ih =>
    rw [goBack_eq] at h ⊢
    cases hstep : stepBack spaces code cursor depth with
    | none => rfl
    | some p =>
      simp only [hstep, Option.elim_some] at h ⊢
      have hlt := stepBack_lt hstep
      have hle := goBack_le spaces code p.1 p.2
      have hs := h (cursor - 1) (by omega) (by omega)
      rw [ih p hstep fun k hk hkp => h k hk (by omega), stepBack_of_isSpace hstep hs]

theorem skipBack_of_le {p : Char → Bool} (h : a ≤ skipBack p code 0 i) :
    skipBack p code a i = skipBack p code 0 i :=
  skipBack_eq_of_le h (skipBack_le ..) (fun _ hk hlt => test_of_skipBack_le hlt hk) fun hlt =>
    test_skipBack (Nat.lt_of_le_of_lt (Nat.zero_le a) hlt)

section part

variable (h : PartAt part code a)
include h

theorem skipBack_part {p : Char → Bool} (hi : i ≤ part.size)
    (hle : a ≤ skipBack p code 0 (i + a)) :
    skipBack p part 0 i + a = skipBack p code 0 (i + a) := by
  rw [← h.skipBack_add hi, Nat.zero_add, skipBack_of_le hle]

theorem numberStart_part (hi : i ≤ part.size) (hle : a ≤ numberStart code (i + a)) :
    numberStart part i + a = numberStart code (i + a) := by
  obtain ⟨whole, hwhole⟩ : ∃ whole, skipBack Char.isDigit part 0 i = whole := ⟨_, rfl⟩
  have hback := skipBack_le Char.isDigit code 0 (skipBack Char.isDigit code 0 (i + a) - 1)
  have hsame : whole + a = skipBack Char.isDigit code 0 (i + a) := by
    rw [← hwhole]
    refine skipBack_part h hi ?_
    dsimp only [numberStart] at hle
    split at hle <;> omega
  have hmax := skipBack_le Char.isDigit part 0 i
  simp only [numberStart, hwhole, ← hsame] at hle hback ⊢
  by_cases hpoint : 0 < whole ∧ whole < i ∧ test (· == '.') part (whole - 1) = true
  · obtain ⟨hpos, hlt, hdot⟩ := hpoint
    have hsub : whole + a - 1 = whole - 1 + a := by omega
    have hpoint' : 0 < whole + a ∧ whole + a < i + a ∧
        test (· == '.') code (whole + a - 1) = true :=
      ⟨by omega, by omega, by rw [hsub, h.test_add (by omega), hdot]⟩
    rw [if_pos hpoint'] at hle ⊢
    rw [if_pos ⟨hpos, hlt, hdot⟩]
    rw [hsub] at hle ⊢
    exact skipBack_part h (by omega) hle
  · rw [if_neg hpoint]
    by_cases hpoint' : 0 < whole + a ∧ whole + a < i + a ∧
        test (· == '.') code (whole + a - 1) = true
    · rw [if_pos hpoint'] at hle
      obtain ⟨hpos, hlt, hdot⟩ := hpoint'
      have hsub : whole + a - 1 = whole - 1 + a := by omega
      rw [hsub, h.test_add (by omega)] at hdot
      exact absurd ⟨by omega, by omega, hdot⟩ hpoint
    · rw [if_neg hpoint']

omit h in
theorem le_numberStart (hi : a ≤ i)
    (hspaces : ∀ k, (goBack spaces code i depth).1 ≤ k → k < a → test isSpace code k = true) :
    a ≤ numberStart code i := by
  refine Nat.le_of_not_lt fun hlt => ?_
  have hstep : goBack spaces code i depth = goBack spaces code (numberStart code i) depth := by
    rw [goBack, dif_neg (by omega)]
    exact if_pos (by omega)
  have hbefore := goBack_le spaces code (numberStart code i) depth
  rw [hstep] at hspaces
  obtain ⟨number, hnumber, hsize⟩ := exists_literal (Nat.lt_of_lt_of_le hlt hi)
  obtain ⟨c, hc, hs⟩ := test_iff.mp (hspaces (a - 1) (by omega) (by omega))
  have hchar := hnumber.test (k := a - 1)
    ((forall_encode_iff fun _ => isNumberChar_ascii).mpr number.isNumberChar_of_mem)
    (by omega) (by omega)
  rw [test_of_at? hc, not_isNumberChar_of_isSpace hs] at hchar
  exact absurd hchar Bool.false_ne_true

theorem stepBack_part (hi : i ≤ part.size) (hpos : i ≠ 0) (hle : a ≤ numberStart code (i + a)) :
    stepBack spaces code (i + a) depth =
      (stepBack spaces part i depth).map fun p => (p.1 + a, p.2) := by
  have hnumber := numberStart_part h hi hle
  have hsub : i + a - 1 = i - 1 + a := by omega
  have hat := h.at?_add (show i - 1 < part.size by omega)
  rw [stepBack, stepBack, if_neg (by omega), if_neg hpos, ← hnumber, hsub, hat]
  by_cases hlt : numberStart part i < i
  · rw [if_pos (by omega), if_pos hlt, Option.map_some]
  rw [if_neg (by omega), if_neg hlt, Option.map_bind]
  congr
  funext c
  simp only [Function.comp_apply, apply_ite (Option.map _), Option.map_some, Option.map_none]

theorem goBack_part (spaces : Bool) (i depth : Nat) (hi : i ≤ part.size)
    (hle : (goBack spaces code (i + a) depth).1 ≤ a)
    (hspaces : ∀ k, (goBack spaces code (i + a) depth).1 ≤ k → k < a → test isSpace code k = true) :
    goBack spaces part i depth = (0, (goBack spaces code (i + a) depth).2) := by
  induction i, depth using @stepBack_induction spaces part with
  | _ i depth ih =>
    rcases Nat.eq_zero_or_pos i with rfl | hpos
    · rw [Nat.zero_add] at hspaces ⊢
      rw [goBack_snd_of_spaces _ _ _ _ hspaces, goBack_eq, stepBack, if_pos rfl, Option.elim_none]
    have hwhole : goBack spaces code (i + a) depth =
        (stepBack spaces part i depth).elim (i + a, depth) fun p =>
          goBack spaces code (p.1 + a) p.2 := by
      rw [goBack_eq, stepBack_part h hi (Nat.ne_of_gt hpos)
        (le_numberStart (Nat.le_add_left a i) hspaces)]
      cases stepBack spaces part i depth <;> rfl
    rw [goBack_eq spaces part]
    cases hstep : stepBack spaces part i depth with
    | none =>
      -- the whole would not be gone back over further than the part
      rw [hwhole, hstep, Option.elim_none] at hle
      omega
    | some p =>
      rw [hstep, Option.elim_some] at hwhole
      rw [hwhole] at hle hspaces ⊢
      exact ih p hstep (Nat.le_trans (Nat.le_of_lt (stepBack_lt hstep)) hi) hle hspaces

end part

theorem le_pastParens (spaces : Bool) {text : String} (hi : isBoundary (bytes text) i = true) :
    i ≤ pastParens spaces (bytes text) i ∧
      isBoundary (bytes text) (pastParens spaces (bytes text) i) = true := by
  fun_induction pastParens spaces (bytes text) i
  case case1 i next hparen ih =>
    have hle : i ≤ next := by
      show i ≤ if spaces then skip isSpace (bytes text) (bytes text).size i else i
      split
      · exact le_skip ..
      · exact Nat.le_refl i
    have hmax : max (i + 1) (next + 1) = next + 1 := Nat.max_eq_right (Nat.succ_le_succ hle)
    have hat := test_beq_iff.mp hparen.2
    rw [hmax] at ih ⊢
    obtain ⟨hbefore, hb⟩ := ih (isBoundary_of_at? hat (by decide)).2
    exact ⟨by omega, hb⟩
  case case2 => exact ⟨Nat.le_refl _, hi⟩

theorem extract?_spec {options : Options} {text : String} {pos : Nat} {s : Span}
    (h : extract? options (bytes text) pos = some s) :
    clamp (bytes text) pos ≤ s.stop ∧ isBoundary (bytes text) s.stop = true ∧
      ∃ start, goBack options.spaces (bytes text) s.stop 0 = (start, 0) ∧
        s.start = skip isSpace (bytes text) s.stop start := by
  obtain ⟨stop, hstop⟩ : ∃ stop, (if options.lookAhead ∧
      test (· == ')') (bytes text) (clamp (bytes text) pos) then
        pastParens options.spaces (bytes text) (clamp (bytes text) pos + 1)
      else clamp (bytes text) pos) = stop := ⟨_, rfl⟩
  have hbounds : clamp (bytes text) pos ≤ stop ∧ isBoundary (bytes text) stop = true := by
    split at hstop
    · next hparen =>
      have hat := test_beq_iff.mp hparen.2
      obtain ⟨hle, hb⟩ := le_pastParens options.spaces (isBoundary_of_at? hat (by decide)).2
      rw [hstop] at hle hb
      exact ⟨Nat.le_of_succ_le hle, hb⟩
    · exact ⟨Nat.le_of_eq hstop, hstop ▸ isBoundary_clamp ..⟩
  simp only [extract?, hstop] at h
  split at h
  · simp at h
  · next hfound =>
    obtain rfl := Option.some.inj h
    refine ⟨hbounds.1, hbounds.2, _, ?_, rfl⟩
    have hdepth : (goBack options.spaces (bytes text) stop 0).2 = 0 :=
      Decidable.byContradiction fun hne => hfound (.inr hne)
    exact Prod.ext rfl hdepth

theorem exists_nested {start stop : Nat} (h : goBack spaces code stop 0 = (start, 0)) :
    ∃ v : String, Written code (skip isSpace code stop start) v ∧
      skip isSpace code stop start + (bytes v).size = stop ∧ Nested spaces v.toList ∧
      ∀ c, v.toList.head? = some c → isSpace c = false := by
  obtain ⟨t, ht, hsize, hw⟩ :=
    goBack_written spaces code stop 0 (written_empty code stop) (fun _ _ => by simp) (.none .nil)
  rw [h] at ht hsize hw
  simp only [bytes_empty, Array.size_empty, Nat.add_zero] at hsize
  obtain ⟨w, v, rfl, hspaces, hhead, hskip⟩ := ht.exists_skip fun _ => isSpace_ascii
  rw [hsize] at hskip
  rw [written_append, ← hskip] at ht
  rw [size_bytes_append, ← Nat.add_assoc, ← hskip] at hsize
  rw [String.toList_append] at hw
  exact ⟨v, ht.2, hsize, hw.nested.of_spaces_append hspaces, hhead⟩

theorem extract?_whole {options : Options} {v : String} (hne : v ≠ "")
    (hback : goBack options.spaces (bytes v) (bytes v).size 0 = (0, 0))
    (hhead : ∀ c, v.toList.head? = some c → isSpace c = false) :
    extract? options (bytes v) (bytes v).size = some ⟨0, (bytes v).size⟩ := by
  have hpos := size_bytes_pos hne
  have hskip : skip isSpace (bytes v) (bytes v).size 0 = 0 := by
    have hfirst := List.head?_eq_some_head (mt String.toList_eq_nil_iff.mp hne)
    exact skip_eq_self ((written_self v).test_first (fun _ => isSpace_ascii) hfirst ▸
      hhead _ hfirst)
  rw [extract?_size, hback, hskip]
  exact if_neg (by omega)

theorem extract?_sound {options : Options} {text : String} {pos : Nat} {s : Span}
    (h : extract? options (bytes text) pos = some s) :
    clamp (bytes text) pos ≤ s.stop ∧ s.start ≤ s.stop ∧ s.stop ≤ (bytes text).size ∧
      isBoundary (bytes text) s.start = true ∧ isBoundary (bytes text) s.stop = true ∧
      let found := read (bytes text) s
      (∀ c, found.toList.head? = some c → isSpace c = false) ∧
        Nested options.spaces found.toList ∧
        (s.start < s.stop → extract? options (bytes found) (bytes found).size =
          some ⟨0, (bytes found).size⟩) := by
  obtain ⟨hclamp, hstop, start, hback, hskip⟩ := extract?_spec h
  obtain ⟨v, hwritten, hsize, hnested, hhead⟩ := exists_nested hback
  rw [← hskip] at hwritten hsize
  obtain ⟨first, stop⟩ := s
  dsimp only at hclamp hstop hback hskip hwritten hsize ⊢
  have hle : first ≤ stop := by omega
  have hread : read (bytes text) ⟨first, stop⟩ = v := hsize ▸ hwritten.read_eq
  have hfirst : isBoundary (bytes text) first = true := by
    by_cases hne : v = ""
    · rw [hne, bytes_empty, Array.size_empty, Nat.add_zero] at hsize
      exact hsize ▸ hstop
    · have hc := List.head?_eq_some_head (mt String.toList_eq_nil_iff.mp hne)
      have hascii := hnested.ascii _ (List.mem_of_head? hc)
      exact (isBoundary_of_at? (hwritten.at? hc hascii) hascii).1
  refine ⟨hclamp, hle, le_size_of_isBoundary hstop, hfirst, hstop, ?_⟩
  rw [hread]
  refine ⟨hhead, hnested, fun hlt => extract?_whole (fun hempty => ?_) ?_ hhead⟩
  · rw [hempty, bytes_empty, Array.size_empty] at hsize
    omega
  · have hpart : PartAt (bytes v) (bytes text) first := by
      have hcut := partAt_cut hle hfirst hstop
      rwa [← hsize, hwritten.cut_eq] at hcut
    have hsame := goBack_part hpart options.spaces (bytes v).size 0 (Nat.le_refl _)
    rw [Nat.add_comm (bytes v).size, hsize, hback] at hsame
    exact hsame (hskip ▸ le_skip ..) fun k hk hlt => test_of_lt_skip hk (hskip ▸ hlt)

theorem extract?_sound_lookAhead :
    extract? {} (bytes "é ((1.5) )") 8 = some ⟨3, 11⟩ ∧
      extract? {} (bytes "((1.5) )") 8 = some ⟨0, 8⟩ := by
  have hfound : extract? {} (bytes "é ((1.5) )") 8 = some ⟨3, 11⟩ := by decide +kernel
  have hread : read (bytes "é ((1.5) )") ⟨3, 11⟩ = "((1.5) )" := by decide +kernel
  have h := extract?_sound hfound
  rw [hread] at h
  exact ⟨hfound, h.2.2.2.2.2.2.2 (by decide)⟩

end Caret.Arithmetic
