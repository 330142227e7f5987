import Caret.Proofs.Text.Units

namespace Caret.Text

section scans

variable {p : Char → Bool} {code : Bytes} {i j stop : Nat}

theorem trim_eq {s : Span} (hs : s.stop ≤ code.size) (hi : s.start ≤ i) (hij : i < j)
    (hj : j ≤ s.stop) (hbefore : ∀ k, s.start ≤ k → k < i → test isBlank code k = true)
    (hfirst : test isBlank code i = false) (hlast : test isBlank code (j - 1) = false)
    (hafter : ∀ k, j ≤ k → k < s.stop → test isBlank code k = true) : trim code s = ⟨i, j⟩ := by
  have hle : s.start ≤ s.stop := by omega
  have hskip : skip isBlank code s.stop s.start = i :=
    skip_eq hi (by omega) hbefore fun _ => hfirst
  have hback : skipBack isBlank code i s.stop = j :=
    skipBack_eq_of_le (Nat.le_of_lt hij) hj hafter fun _ => hlast
  simp only [trim, Nat.min_eq_left hs, Nat.min_eq_left (Nat.le_trans hle hs), hskip, hback]

theorem getElem?_of_at? {b : UInt8} (h : at? code i = some (Char.ofUInt8 b)) : code[i]? = some b := by
  obtain ⟨b', hb', he⟩ := Option.map_eq_some_iff.mp h
  have hval := congrArg Char.toNat he
  rw [toNat_ofUInt8, toNat_ofUInt8] at hval
  rw [hb', UInt8.toNat_inj.mp hval]

theorem find_eq {word : List UInt8} (hij : i ≤ j) (hj : j < stop)
    (h : holdsAt code stop word j = true)
    (hbefore : ∀ k, i ≤ k → k < j → holdsAt code stop word k = false) :
    find word code stop i = some j := by
  fun_induction find word code stop i with
  | case1 i hi hw =>
    rcases Nat.eq_or_lt_of_le hij with rfl | hlt
    · rfl
    · exact absurd hw (by simp [hbefore i (Nat.le_refl i) hlt])
  | case2 i hi hw ih =>
    rcases Nat.eq_or_lt_of_le hij with rfl | hlt
    · exact absurd h hw
    · exact ih hlt fun k hk => hbefore k (Nat.le_of_succ_le hk)
  | case3 i hi => omega

theorem past_eq {word : String} {b : UInt8} (hword : (bytes word).toList = [b]) (hij : i ≤ j)
    (hj : j < stop) (h : at? code j = some (Char.ofUInt8 b))
    (hbefore : ∀ k, i ≤ k → k < j → at? code k ≠ some (Char.ofUInt8 b)) :
    past word code stop i = j + 1 := by
  have hfind : find [b] code stop i = some j := by
    apply find_eq hij hj
    · simp [holdsAt, hj, getElem?_of_at? h]
    · intro k hik hkj
      have hne : code[k]? ≠ some b := by
        intro hb
        exact hbefore k hik hkj (by rw [at?, hb]; rfl)
      simp [holdsAt, hne]
  simp only [past, hword, hfind, Option.elim_some, List.length_singleton]

end scans

theorem bytes_empty : bytes "" = #[] := rfl

@[simp]
theorem size_bytes_append (s t : String) :
    (bytes (s ++ t)).size = (bytes s).size + (bytes t).size := by
  rw [bytes_append, Array.size_append]

theorem size_bytes_pos {s : String} (h : s ≠ "") : 0 < (bytes s).size := by
  rw [← length_encode]
  refine List.length_pos_iff.mpr fun hnil => h ?_
  exact String.toList_eq_nil_iff.mp (eq_nil_of_encode hnil)

theorem size_bytes_singleton {c : Char} (h : c.toNat < 128) : (bytes (.singleton c)).size = 1 := by
  rw [← length_encode, String.toList_singleton, encode_cons_of_lt h]
  rfl

theorem not_of_ascii {p : Char → Bool} (hp : ∀ c, p c = true → c.toNat < 128) {c : Char}
    (hc : ¬c.toNat < 128) : p c = false :=
  Bool.eq_false_iff.mpr fun h => hc (hp c h)

theorem forall_encode_of_forall {p : Char → Bool} (hp : ∀ c : Char, 128 ≤ c.toNat → p c = true)
    {l : List Char} (h : ∀ c ∈ l, p c = true) : ∀ u ∈ encode l, p u = true := by
  induction l with
  | nil => simp [encode]
  | cons c l ih =>
    have hrest := ih fun d hd => h d (List.mem_cons_of_mem c hd)
    by_cases hc : c.toNat < 128
    · rw [encode_cons_of_lt hc]
      exact List.forall_mem_cons.mpr ⟨h c List.mem_cons_self, hrest⟩
    · obtain ⟨u, us, he, hu⟩ := encode_singleton_of_le (Nat.le_of_not_lt hc)
      rw [encode_cons, he]
      intro v hv
      rcases List.mem_append.mp hv with hv | hv
      · exact hp v (hu v hv)
      · exact hrest v hv

section parts

variable {code : Bytes} {i k : Nat} {c d : Char} {l u : List Char}

theorem prefix_of_encode (hu : ∀ c ∈ u, c.toNat < 128) (h : u <+: encode l) : u <+: l := by
  induction u generalizing l with
  | nil => exact List.nil_prefix
  | cons c u ih =>
    obtain ⟨v, hv⟩ := h
    obtain ⟨l₁, l₂, rfl, hnil, htail⟩ :=
      encode_eq_append_cons (u := []) (hu c List.mem_cons_self) hv.symm
    rw [eq_nil_of_encode hnil.symm, List.nil_append]
    exact (List.prefix_cons_inj c).mpr
      (ih (fun d hd => hu d (List.mem_cons_of_mem c hd)) ⟨v, htail⟩)

theorem infix_of_encode (hu : ∀ c ∈ u, c.toNat < 128) (h : u <:+: encode l) : u <:+: l := by
  cases u with
  | nil => exact List.nil_infix
  | cons c u =>
    obtain ⟨v, w, hw⟩ := h
    rw [List.append_assoc, List.cons_append] at hw
    obtain ⟨l₁, l₂, rfl, -, htail⟩ := encode_eq_append_cons (hu c List.mem_cons_self) hw.symm
    obtain ⟨w', rfl⟩ :=
      prefix_of_encode (fun d hd => hu d (List.mem_cons_of_mem c hd)) ⟨w, htail⟩
    exact ⟨l₁, w', by simp⟩

theorem Stands.pair_infix (h : Stands code i u) (hik : i ≤ k) (hk : k + 1 < i + u.length)
    (hc : at? code k = some c) (hd : at? code (k + 1) = some d) : [c, d] <:+: u := by
  obtain ⟨n, rfl⟩ := Nat.exists_eq_add_of_le hik
  have hn : n < u.length := by omega
  have hn' : n + 1 < u.length := by omega
  have hfirst : u[n] = c :=
    Option.some.inj ((h n _ (List.getElem?_eq_getElem hn)).symm.trans hc)
  have hsecond : u[n + 1] = d :=
    Option.some.inj ((h (n + 1) _ (List.getElem?_eq_getElem hn')).symm.trans hd)
  refine ⟨u.take n, u.drop (n + 2), ?_⟩
  calc u.take n ++ [c, d] ++ u.drop (n + 2)
      = u.take n ++ (u[n] :: (u[n + 1] :: u.drop (n + 1 + 1))) := by simp [hfirst, hsecond]
    _ = u := by rw [← List.drop_eq_getElem_cons, ← List.drop_eq_getElem_cons, List.take_append_drop]

theorem exists_append_of_at? {s : String} (hc : c.toNat < 128) (h : at? (bytes s) i = some c) :
    ∃ l r, s = l ++ .singleton c ++ r ∧ (bytes l).size = i := by
  rw [← getElem?_units, units_bytes] at h
  obtain ⟨hi, hget⟩ := List.getElem?_eq_some_iff.mp h
  have hsplit : encode s.toList = (encode s.toList).take i ++ c :: (encode s.toList).drop (i + 1) := by
    rw [← hget, ← List.drop_eq_getElem_cons hi, List.take_append_drop]
  obtain ⟨l₁, l₂, hl, htake, -⟩ := encode_eq_append_cons hc hsplit
  refine ⟨.ofList l₁, .ofList l₂, ?_, ?_⟩
  · apply String.toList_inj.mp
    simp [hl]
  · rw [← length_encode, String.toList_ofList, ← htake, List.length_take_of_le (Nat.le_of_lt hi)]

end parts

structure Stretch (p : Char → Bool) where
  text : String
  all : ∀ c ∈ text.toList, p c = true

abbrev Blanks := Stretch isBlank

def Written (code : Bytes) (i : Nat) (s : String) : Prop := Stands code i (encode s.toList)

section written

variable {code : Bytes} {i : Nat} {s t : String} {c : Char} {l : List Char}

theorem written_empty (code : Bytes) (i : Nat) : Written code i "" := by
  intro k c hc
  simp [encode] at hc

theorem written_append :
    Written code i (s ++ t) ↔ Written code i s ∧ Written code (i + (bytes s).size) t := by
  rw [Written, Written, Written, String.toList_append, encode_append, ← length_encode s]
  refine ⟨fun h => ⟨h.left, h.right⟩, fun ⟨hs, ht⟩ k c hc => ?_⟩
  by_cases hk : k < (encode s.toList).length
  · exact hs k c (by rwa [List.getElem?_append_left hk] at hc)
  · have hle := Nat.le_of_not_lt hk
    rw [List.getElem?_append_right hle] at hc
    have := ht _ c hc
    rwa [Nat.add_assoc, Nat.add_sub_cancel' hle] at this

theorem written_bytes (l s r : String) : Written (bytes (l ++ s ++ r)) (bytes l).size s :=
  stands_bytes l s r

theorem written_right (l s : String) : Written (bytes (l ++ s)) (bytes l).size s := by
  have h := written_bytes l s ""
  rwa [String.append_empty] at h

theorem written_self (s : String) : Written (bytes s) 0 s := by
  have h := written_right "" s
  rwa [String.empty_append] at h

theorem written_singleton (hc : c.toNat < 128) :
    Written code i (.singleton c) ↔ at? code i = some c := by
  rw [Written, String.toList_singleton, encode_cons_of_lt hc]
  refine ⟨fun h => h.head, fun h k d hd => ?_⟩
  cases k with
  | zero => simpa [h] using hd
  | succ k => simp [encode] at hd

theorem Written.singleton_append (h : Written code i s) (hi : i ≠ 0)
    (hat : at? code (i - 1) = some c) (hc : c.toNat < 128) :
    Written code (i - 1) (.singleton c ++ s) ∧
      i - 1 + (bytes (.singleton c ++ s)).size = i + (bytes s).size := by
  have hpos := Nat.sub_add_cancel (Nat.pos_of_ne_zero hi)
  rw [written_append, written_singleton hc, size_bytes_append, size_bytes_singleton hc,
    ← Nat.add_assoc, hpos]
  exact ⟨⟨hat, h⟩, rfl⟩

theorem Written.at? (h : Written code i s) (hs : s.toList.head? = some c) (hc : c.toNat < 128) :
    at? code i = some c := by
  obtain ⟨rest, hl⟩ := List.head?_eq_some_iff.mp hs
  rw [Written, hl, encode_cons_of_lt hc] at h
  exact h.head

theorem Written.test {p : Char → Bool} (h : Written code i s) (hp : ∀ u ∈ encode s.toList, p u = true)
    {k : Nat} (hik : i ≤ k) (hk : k < i + (bytes s).size) : test p code k = true := by
  obtain ⟨c, hc, hat⟩ := h.mem (k := k - i) (by rw [length_encode]; omega)
  rw [Nat.add_sub_cancel' hik] at hat
  rw [test_of_at? hat]
  exact hp c hc

theorem Written.forall_iff {p : Char → Bool} (hp : ∀ c, p c = true → c.toNat < 128)
    (h : Written code i s) : (∀ c ∈ s.toList, p c = true) ↔
      ∀ k, i ≤ k → k < i + (bytes s).size → Text.test p code k = true := by
  rw [← forall_encode_iff hp]
  refine ⟨fun hall k => h.test hall, fun htest u hu => ?_⟩
  obtain ⟨k, hk, hat⟩ := h.exists_of_mem hu
  rw [length_encode] at hk
  have hpu := htest _ (Nat.le_add_right i k) (Nat.add_lt_add_left hk i)
  rwa [test_of_at? hat] at hpu

theorem Written.eq_of_step {α : Type} {f : Nat → α} {p : Char → Bool} (h : Written code i s)
    (hp : ∀ u ∈ encode s.toList, p u = true)
    (hstep : ∀ k, k < i + (bytes s).size → Text.test p code k = true → f k = f (k + 1)) :
    f i = f (i + (bytes s).size) := by
  have hall : ∀ n, n ≤ (bytes s).size → f i = f (i + n) := by
    intro n hn
    induction n with
    | zero => rfl
    | succ n ih =>
      have hlt : i + n < i + (bytes s).size := by omega
      rw [ih (Nat.le_of_succ_le hn), hstep _ hlt (h.test hp (Nat.le_add_right i n) hlt),
        Nat.add_assoc]
  exact hall _ (Nat.le_refl _)

theorem exists_head?_encode {p : Char → Bool} (hp : ∀ c, p c = true → c.toNat < 128)
    (hc : l.head? = some c) : ∃ u, (encode l).head? = some u ∧ p u = p c := by
  obtain ⟨rest, rfl⟩ := List.head?_eq_some_iff.mp hc
  by_cases hlt : c.toNat < 128
  · exact ⟨c, by rw [encode_cons_of_lt hlt]; rfl, rfl⟩
  · obtain ⟨u, us, he, hu⟩ := encode_singleton_of_le (Nat.le_of_not_lt hlt)
    refine ⟨u, by rw [encode_cons, he]; rfl, ?_⟩
    rw [not_of_ascii hp hlt, not_of_ascii hp (Nat.not_lt.mpr (hu u List.mem_cons_self))]

theorem exists_getLast?_encode {p : Char → Bool} (hp : ∀ c, p c = true → c.toNat < 128)
    (hc : l.getLast? = some c) : ∃ u, (encode l).getLast? = some u ∧ p u = p c := by
  obtain ⟨rest, rfl⟩ := List.getLast?_eq_some_iff.mp hc
  rw [encode_append]
  by_cases hlt : c.toNat < 128
  · exact ⟨c, by rw [encode_cons_of_lt hlt]; simp [encode], rfl⟩
  · obtain ⟨u, us, he, hu⟩ := encode_singleton_of_le (Nat.le_of_not_lt hlt)
    obtain ⟨v, hv⟩ : ∃ v, (u :: us).getLast? = some v := ⟨_, List.getLast?_eq_some_getLast (by simp)⟩
    refine ⟨v, by rw [he, List.getLast?_append, hv, Option.some_or], ?_⟩
    rw [not_of_ascii hp hlt, not_of_ascii hp (Nat.not_lt.mpr (hu v (List.mem_of_getLast? hv)))]

theorem Written.test_first {p : Char → Bool} (hp : ∀ c, p c = true → c.toNat < 128)
    (h : Written code i s) (hc : s.toList.head? = some c) : Text.test p code i = p c := by
  obtain ⟨u, hu, he⟩ := exists_head?_encode hp hc
  rw [List.head?_eq_getElem?] at hu
  rw [← he]
  exact test_of_at? (h 0 u hu)

theorem Written.test_last {p : Char → Bool} (hp : ∀ c, p c = true → c.toNat < 128)
    (h : Written code i s) (hc : s.toList.getLast? = some c) :
    Text.test p code (i + (bytes s).size - 1) = p c := by
  obtain ⟨u, hu, he⟩ := exists_getLast?_encode hp hc
  rw [List.getLast?_eq_getElem?, length_encode] at hu
  have hpos : 0 < (bytes s).size := size_bytes_pos fun hnil => by simp [hnil] at hc
  rw [← he, Nat.add_sub_assoc hpos, test_of_at? (h _ u hu)]

theorem exists_stretch {p : Char → Bool} (hp : ∀ c, p c = true → c.toNat < 128) {j : Nat}
    (hij : i ≤ j) (h : ∀ k, i ≤ k → k < j → Text.test p code k = true) :
    ∃ s : Stretch p, Written code i s.text ∧ i + (bytes s.text).size = j := by
  induction hij with
  | refl => exact ⟨⟨"", by simp⟩, written_empty code i, rfl⟩
  | @step j hij ih =>
    obtain ⟨s, hs, hsize⟩ := ih fun k hik hk => h k hik (Nat.lt_succ_of_lt hk)
    obtain ⟨c, hc, hpc⟩ := test_iff.mp (h j hij (Nat.lt_succ_self j))
    refine ⟨⟨s.text ++ .singleton c, fun d hd => ?_⟩, ?_, ?_⟩
    · rw [String.toList_append, String.toList_singleton, List.mem_append, List.mem_singleton] at hd
      rcases hd with hd | rfl
      · exact s.all d hd
      · exact hpc
    · exact written_append.mpr ⟨hs, (written_singleton (hp c hpc)).mpr (hsize ▸ hc)⟩
    · rw [size_bytes_append, size_bytes_singleton (hp c hpc), ← Nat.add_assoc, hsize]

theorem Written.exists_skip {p : Char → Bool} (hp : ∀ c, p c = true → c.toNat < 128)
    (h : Written code i s) : ∃ w v : String, s = w ++ v ∧ (∀ c ∈ w.toList, p c = true) ∧
      (∀ c, v.toList.head? = some c → p c = false) ∧
      skip p code (i + (bytes s).size) i = i + (bytes w).size := by
  obtain ⟨w, hw⟩ : ∃ w, String.ofList (s.toList.takeWhile p) = w := ⟨_, rfl⟩
  obtain ⟨v, hv⟩ : ∃ v, String.ofList (s.toList.dropWhile p) = v := ⟨_, rfl⟩
  have hall : ∀ c ∈ w.toList, p c = true := fun c hc => by
    rw [← hw, String.toList_ofList] at hc
    exact List.all_eq_true.mp List.all_takeWhile c hc
  have hhead : ∀ c, v.toList.head? = some c → p c = false := fun c hc => by
    rw [← hv, String.toList_ofList] at hc
    have hnot := List.head?_dropWhile_not p s.toList
    rw [hc] at hnot
    exact hnot
  obtain rfl : s = w ++ v := by
    apply String.toList_inj.mp
    rw [String.toList_append, ← hw, ← hv, String.toList_ofList, String.toList_ofList,
      List.takeWhile_append_dropWhile]
  refine ⟨w, v, rfl, hall, hhead, ?_⟩
  rw [written_append] at h
  refine skip_eq (Nat.le_add_right ..) (by rw [size_bytes_append]; omega)
    (fun k => h.1.test ((forall_encode_iff hp).mpr hall)) fun hlt => ?_
  have hne : v.toList ≠ [] := fun hnil => by
    rw [String.toList_eq_nil_iff.mp hnil, String.append_empty] at hlt
    exact Nat.lt_irrefl _ hlt
  have hfirst := List.head?_eq_some_head hne
  rw [h.2.test_first hp hfirst, hhead _ hfirst]

theorem exists_append_singleton (hs : s ≠ "") : ∃ l c, s = l ++ .singleton c := by
  have hne : s.toList ≠ [] := fun hnil => hs (String.toList_eq_nil_iff.mp hnil)
  refine ⟨.ofList s.toList.dropLast, s.toList.getLast hne, String.toList_inj.mp ?_⟩
  rw [String.toList_append, String.toList_ofList, String.toList_singleton,
    List.dropLast_concat_getLast]

theorem test_append_singleton {p : Char → Bool} (hp : ∀ c, p c = true → c.toNat < 128) (l : String)
    (c : Char) :
    Text.test p (bytes (l ++ .singleton c)) ((bytes (l ++ .singleton c)).size - 1) = p c := by
  have hlast := (written_self (l ++ .singleton c)).test_last (c := c) hp (by simp)
  rwa [Nat.zero_add] at hlast

theorem Written.getElem? (h : Written code i s) {k : Nat} (hk : k < (bytes s).size) :
    code[i + k]? = (bytes s)[k]? := by
  obtain ⟨b, hb⟩ : ∃ b, (bytes s)[k]? = some b := ⟨_, Array.getElem?_eq_getElem hk⟩
  have hat := h k (Char.ofUInt8 b) (by rw [← units_bytes, getElem?_units, Text.at?, hb]; rfl)
  rw [getElem?_of_at? hat, hb]

theorem Written.le_size (h : Written code i s) (hs : s ≠ "") : i + (bytes s).size ≤ code.size := by
  have hpos := size_bytes_pos hs
  obtain ⟨b, hb⟩ : ∃ b, (bytes s)[(bytes s).size - 1]? = some b :=
    ⟨_, Array.getElem?_eq_getElem (by omega)⟩
  have := (Array.getElem?_eq_some_iff.mp ((h.getElem? (by omega)).trans hb)).1
  omega

theorem Written.cut_eq (h : Written code i s) : cut code ⟨i, i + (bytes s).size⟩ = bytes s := by
  by_cases hs : s = ""
  · subst hs
    apply Array.eq_empty_of_size_eq_zero
    simp only [cut, Array.size_extract, bytes_empty, Array.size_empty]
    omega
  · have hle := h.le_size hs
    apply Array.ext_getElem?
    intro k
    simp only [cut, Array.getElem?_extract, Nat.min_eq_left hle, Nat.add_sub_cancel_left]
    split
    · next hk => exact h.getElem? hk
    · next hk => rw [Array.getElem?_eq_none (Nat.le_of_not_lt hk)]

theorem Written.read_eq (h : Written code i s) : read code ⟨i, i + (bytes s).size⟩ = s := by
  by_cases hs : s = ""
  · subst hs
    rw [read]
    split
    · rw [h.cut_eq, fromUTF8?_bytes]
      rfl
    · rfl
  · rw [read, if_pos (h.le_size hs), h.cut_eq, fromUTF8?_bytes]
    rfl

theorem Blanks.test (g : Blanks) (h : Written code i g.text) {k : Nat} (hik : i ≤ k)
    (hk : k < i + (bytes g.text).size) : Text.test isBlank code k = true :=
  Written.test h ((forall_encode_iff fun _ => isBlank_ascii).mpr g.all) hik hk

theorem Blanks.eq_of_step {α : Type} {f : Nat → α} (g : Blanks) (h : Written code i g.text)
    (hstep : ∀ k, k < i + (bytes g.text).size → Text.test isBlank code k = true → f k = f (k + 1)) :
    f i = f (i + (bytes g.text).size) :=
  Written.eq_of_step h ((forall_encode_iff fun _ => isBlank_ascii).mpr g.all) hstep

theorem Blanks.skip_eq (g : Blanks) (h : Written code i g.text) {stop : Nat}
    (hs : i + (bytes g.text).size ≤ stop)
    (hc : Text.at? code (i + (bytes g.text).size) = some c) (hb : isBlank c = false) :
    skip isBlank code stop i = i + (bytes g.text).size :=
  Text.skip_eq (Nat.le_add_right ..) hs (fun _ => g.test h) fun _ => by rw [test_of_at? hc, hb]

theorem Blanks.test_eq_false {p : Char → Bool} (g : Blanks) (h : Written code i g.text)
    (hc : Text.at? code (i + (bytes g.text).size) = some c) (hp : p c = false)
    (hblank : ∀ d, isBlank d = true → p d = false) : Text.test p code i = false := by
  by_cases hzero : (bytes g.text).size = 0
  · rw [hzero] at hc
    exact (test_of_at? hc).trans hp
  · obtain ⟨d, hd, hb⟩ := test_iff.mp (g.test h (Nat.le_refl i) (by omega))
    rw [test_of_at? hd, hblank d hb]

theorem Blanks.at?_ne {e : Char} (g : Blanks) (h : Written code i g.text)
    (hc : Text.at? code (i + (bytes g.text).size) = some c) (hne : c ≠ e) (he : isBlank e = false) :
    Text.at? code i ≠ some e := by
  intro hat
  have hfalse := g.test_eq_false (p := (· == e)) h hc (beq_false_of_ne hne) fun d hd =>
    beq_false_of_ne (by rintro rfl; exact Bool.false_ne_true (he.symm.trans hd))
  simp [test_of_at? hat] at hfalse

end written

end Caret.Text
