import Caret.Text.Bytes

namespace Caret.Text

theorem test_iff {p : Char → Bool} {code : Bytes} {i : Nat} :
    test p code i = true ↔ ∃ c, at? code i = some c ∧ p c = true := by
  simp [test, Option.any_eq_true]

theorem lt_size_of_at? {code : Bytes} {i : Nat} {c : Char} (h : at? code i = some c) :
    i < code.size := by
  obtain ⟨b, hb, -⟩ := Option.map_eq_some_iff.mp h
  exact (Array.getElem?_eq_some_iff.mp hb).1

theorem at?_of_lt {code : Bytes} {i : Nat} (h : i < code.size) : ∃ c, at? code i = some c :=
  ⟨Char.ofUInt8 code[i], by simp [at?, h]⟩

theorem test_of_at? {p : Char → Bool} {code : Bytes} {i : Nat} {c : Char} (h : at? code i = some c) :
    test p code i = p c := by
  simp [test, h]

theorem test_beq_iff {code : Bytes} {i : Nat} {c : Char} :
    test (· == c) code i = true ↔ at? code i = some c := by
  simp [test_iff]

theorem test_beq_of_bne {code : Bytes} {i : Nat} {c : Char} (h : test (· != c) code i = true) :
    test (· == c) code i = false := by
  obtain ⟨d, hd, hne⟩ := test_iff.mp h
  rw [test_of_at? hd]
  exact beq_false_of_ne (bne_iff_ne.mp hne)

theorem at?_of_test_bne {code : Bytes} {i : Nat} {c : Char} (hi : i < code.size)
    (h : test (· != c) code i = false) : at? code i = some c := by
  obtain ⟨d, hd⟩ := at?_of_lt hi
  rw [test_of_at? hd, bne_eq_false_iff_eq] at h
  rw [hd, h]

theorem skip_eq_self {p : Char → Bool} {code : Bytes} {stop i : Nat}
    (h : test p code i = false) : skip p code stop i = i := by
  rw [skip, if_neg (by simp [h])]

theorem test_skip {p : Char → Bool} {code : Bytes} {stop i : Nat} (h : skip p code stop i < stop) :
    test p code (skip p code stop i) = false := by
  fun_induction skip p code stop i with
  | case1 i hi ih => exact ih h
  | case2 i hi => simpa [h] using hi

theorem le_skipBack (p : Char → Bool) (code : Bytes) {start i : Nat} (h : start ≤ i) :
    start ≤ skipBack p code start i := by
  induction i with
  | zero => exact h
  | succ i ih =>
    unfold skipBack
    split
    · next hi => exact ih hi.1
    · exact h

theorem lt_skipBack {p : Char → Bool} {code : Bytes} {start i k : Nat} (hk : k < i)
    (hp : test p code k = false) : k < skipBack p code start i := by
  induction i with
  | zero => omega
  | succ i ih =>
    unfold skipBack
    split
    · next hi =>
      refine ih (Nat.lt_of_le_of_ne (Nat.le_of_lt_succ hk) ?_)
      rintro rfl
      simp [hp] at hi
    · exact hk

theorem test_of_lt_skip {p : Char → Bool} {code : Bytes} {stop i k : Nat} (hi : i ≤ k)
    (hk : k < skip p code stop i) : test p code k = true := by
  fun_induction skip p code stop i with
  | case1 i h ih =>
    rcases Nat.eq_or_lt_of_le hi with rfl | hlt
    · exact h.2
    · exact ih hlt hk
  | case2 => omega

theorem skip_le_of_not {p : Char → Bool} {code : Bytes} {stop i k : Nat} (hi : i ≤ k)
    (hp : test p code k = false) : skip p code stop i ≤ k := by
  refine Nat.le_of_not_lt fun hlt => ?_
  rw [test_of_lt_skip hi hlt] at hp
  contradiction

theorem test_of_skipBack_le {p : Char → Bool} {code : Bytes} {start i k : Nat} (hk : k < i)
    (h : skipBack p code start i ≤ k) : test p code k = true := by
  rcases Bool.eq_false_or_eq_true (test p code k) with hp | hp
  · exact hp
  · exact (Nat.not_lt_of_le h (lt_skipBack hk hp)).elim

theorem test_skipBack {p : Char → Bool} {code : Bytes} {start i : Nat}
    (h : start < skipBack p code start i) : test p code (skipBack p code start i - 1) = false := by
  induction i with
  | zero => exact absurd h (Nat.not_lt_zero start)
  | succ i ih =>
    unfold skipBack at h ⊢
    split at h
    · next hi =>
      rw [if_pos hi]
      exact ih h
    · next hi =>
      rw [if_neg hi]
      simpa [Nat.le_of_lt_succ h] using hi

theorem skip_eq {p : Char → Bool} {code : Bytes} {stop i j : Nat} (hij : i ≤ j) (hj : j ≤ stop)
    (h : ∀ k, i ≤ k → k < j → test p code k = true)
    (hend : j < stop → test p code j = false) : skip p code stop i = j := by
  fun_induction skip p code stop i with
  | case1 i hi ih =>
    rcases Nat.eq_or_lt_of_le hij with rfl | hlt
    · simp [hend hi.1] at hi
    · exact ih hlt fun k hk => h k (Nat.le_of_succ_le hk)
  | case2 i hi =>
    rcases Nat.eq_or_lt_of_le hij with rfl | hlt
    · rfl
    · exact absurd ⟨Nat.lt_of_lt_of_le hlt hj, h i (Nat.le_refl i) hlt⟩ hi

theorem skipBack_eq_of_le {p : Char → Bool} {code : Bytes} {start i j : Nat} (hs : start ≤ i)
    (hij : i ≤ j) (h : ∀ k, i ≤ k → k < j → test p code k = true)
    (hi : start < i → test p code (i - 1) = false) : skipBack p code start j = i := by
  induction j with
  | zero => simp [skipBack, Nat.le_zero.mp hij]
  | succ j ih =>
    unfold skipBack
    rcases Nat.eq_or_lt_of_le hij with rfl | hlt
    · apply if_neg
      rintro ⟨hle, ht⟩
      exact Bool.false_ne_true ((hi (Nat.lt_succ_of_le hle)).symm.trans ht)
    · have hle := Nat.le_of_lt_succ hlt
      rw [if_pos ⟨Nat.le_trans hs hle, h j hle (Nat.lt_succ_self j)⟩]
      exact ih hle fun k hik hk => h k hik (Nat.lt_succ_of_lt hk)

theorem skipBack_eq {p : Char → Bool} {code : Bytes} {i j : Nat} (hij : i ≤ j)
    (h : ∀ k, i ≤ k → k < j → test p code k = true)
    (hi : 0 < i → test p code (i - 1) = false) : skipBack p code 0 j = i :=
  skipBack_eq_of_le (Nat.zero_le i) hij h hi

theorem trim_bounds (code : Bytes) {s : Span} (h : s.start ≤ s.stop) (hs : s.stop ≤ code.size) :
    s.start ≤ (trim code s).start ∧ (trim code s).start ≤ (trim code s).stop ∧
      (trim code s).stop ≤ s.stop := by
  have hstop : min s.stop code.size = s.stop := Nat.min_eq_left hs
  have hstart : min s.start code.size = s.start := Nat.min_eq_left (Nat.le_trans h hs)
  simp only [trim, hstop, hstart]
  exact ⟨le_skip .., le_skipBack _ _ (skip_le _ _ h), skipBack_le ..⟩

theorem trim_start {code : Bytes} {s : Span} (hs : s.stop ≤ code.size)
    (h : s.start < s.stop) (hb : test isBlank code s.start = false) :
    (trim code s).start = s.start ∧ s.start < (trim code s).stop := by
  have hstop : min s.stop code.size = s.stop := Nat.min_eq_left hs
  have hstart : min s.start code.size = s.start :=
    Nat.min_eq_left (Nat.le_trans (Nat.le_of_lt h) hs)
  simp only [trim, hstop, hstart, skip_eq_self hb]
  exact ⟨trivial, lt_skipBack h hb⟩

theorem lt_trim_stop {code : Bytes} {s : Span} {k : Nat} (hs : s.stop ≤ code.size)
    (hk : k < s.stop) (hb : test isBlank code k = false) : k < (trim code s).stop := by
  simp only [trim, Nat.min_eq_left hs]
  exact lt_skipBack hk hb

theorem trim_stop {code : Bytes} {s : Span} (hs : s.stop ≤ code.size)
    (hb : s.start < s.stop → test isBlank code (s.stop - 1) = false) (h : s.start ≤ s.stop) :
    (trim code s).stop = s.stop := by
  have hbounds := trim_bounds code h hs
  rcases Nat.eq_or_lt_of_le h with heq | hlt
  · omega
  · have := lt_trim_stop hs (Nat.sub_one_lt_of_lt hlt) (hb hlt)
    omega

theorem test_of_lt_trim_start {code : Bytes} {s : Span} {k : Nat} (hs : s.stop ≤ code.size)
    (h : s.start ≤ s.stop) (hk : s.start ≤ k) (hlt : k < (trim code s).start) :
    test isBlank code k = true := by
  simp only [trim, Nat.min_eq_left hs, Nat.min_eq_left (Nat.le_trans h hs)] at hlt
  exact test_of_lt_skip hk hlt

theorem test_of_trim_stop_le {code : Bytes} {s : Span} {k : Nat} (hs : s.stop ≤ code.size)
    (hk : k < s.stop) (h : (trim code s).stop ≤ k) : test isBlank code k = true := by
  simp only [trim, Nat.min_eq_left hs] at h
  exact test_of_skipBack_le hk h

theorem test_last_trim {code : Bytes} {s : Span} (h : (trim code s).start < (trim code s).stop) :
    test isBlank code ((trim code s).stop - 1) = false :=
  test_skipBack h

theorem holdsAt_length {code : Bytes} {stop : Nat} {word : List UInt8} {i : Nat} (hi : i ≤ stop)
    (h : holdsAt code stop word i = true) : i + word.length ≤ stop := by
  induction word generalizing i with
  | nil => exact hi
  | cons b rest ih =>
    simp only [holdsAt, Bool.and_eq_true, decide_eq_true_eq] at h
    have := ih h.1.1 h.2
    simp only [List.length_cons]
    omega

theorem holdsAt_cut {code : Bytes} {stop : Nat} {word : List UInt8} {i : Nat}
    (h : holdsAt code stop word i = true) : (cut code ⟨i, i + word.length⟩).toList = word := by
  induction word generalizing i with
  | nil => simp [cut]
  | cons b rest ih =>
    simp only [holdsAt, Bool.and_eq_true, decide_eq_true_eq, beq_iff_eq] at h
    obtain ⟨⟨hi, hb⟩, hr⟩ := h
    obtain ⟨hlt, rfl⟩ := Array.getElem?_eq_some_iff.mp hb
    have hd := List.drop_eq_getElem_cons (l := code.toList) (i := i) (by simpa using hlt)
    have he := ih hr
    simp only [cut, Array.toList_extract, List.extract] at he ⊢
    have hn : i + 1 + rest.length - (i + 1) = rest.length := by omega
    have hn' : i + (rest.length + 1) - i = rest.length + 1 := by omega
    rw [hn] at he
    simp only [List.length_cons, hn', hd, List.take_succ_cons, he, Array.getElem_toList]

theorem find_spec {word : List UInt8} {code : Bytes} {stop i p : Nat}
    (h : find word code stop i = some p) :
    holdsAt code stop word p = true ∧ p + word.length ≤ stop := by
  fun_induction find word code stop i with
  | case1 i hi hw =>
    obtain rfl := Option.some.inj h
    exact ⟨hw, holdsAt_length (Nat.le_of_lt hi) hw⟩
  | case2 i _ _ ih => exact ih h
  | case3 => simp at h

theorem exists_find {word : List UInt8} {code : Bytes} {stop i k : Nat} (hik : i ≤ k) (hk : k < stop)
    (h : holdsAt code stop word k = true) : ∃ p, find word code stop i = some p ∧ p ≤ k := by
  fun_induction find word code stop i with
  | case1 i _ _ => exact ⟨i, rfl, hik⟩
  | case2 i _ hw ih =>
    refine ih (Nat.lt_of_le_of_ne hik ?_)
    rintro rfl
    exact hw h
  | case3 i hi => omega

theorem past_le (word : String) (code : Bytes) (stop i : Nat) : past word code stop i ≤ stop := by
  dsimp only [past]
  cases hf : find (bytes word).toList code stop i with
  | none => exact Nat.le_refl _
  | some p => exact (find_spec hf).2

theorem le_past (word : String) (code : Bytes) {stop i : Nat} (h : i ≤ stop) :
    i ≤ past word code stop i := by
  dsimp only [past]
  cases hf : find (bytes word).toList code stop i with
  | none => exact h
  | some p => exact Nat.le_trans (le_of_find hf) (Nat.le_add_right ..)

theorem past_spec {word : String} {b : UInt8} {code : Bytes} {stop i : Nat}
    (hword : (bytes word).toList = [b]) (h : past word code stop i < stop) :
    i < past word code stop i ∧ at? code (past word code stop i - 1) = some (Char.ofUInt8 b) := by
  simp only [past, hword] at h ⊢
  cases hf : find [b] code stop i with
  | none => simp [hf] at h
  | some q =>
    have hq := le_of_find hf
    have hholds := (find_spec hf).1
    simp only [holdsAt, Bool.and_true, Bool.and_eq_true, beq_iff_eq] at hholds
    have hb : code[q]? = some b := hholds.2
    simp only [Option.elim_some, List.length_singleton, Nat.add_sub_cancel, at?, hb, Option.map_some]
    exact ⟨Nat.lt_succ_of_le hq, trivial⟩

end Caret.Text
