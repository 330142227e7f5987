import Caret.Proofs.Text.Boundary

namespace Caret.Text

def units (code : Bytes) : List Char := code.toList.map Char.ofUInt8

def encode (l : List Char) : List Char := (l.flatMap String.utf8EncodeChar).map Char.ofUInt8

theorem units_bytes (s : String) : units (bytes s) = encode s.toList := by
  rw [units, encode, toList_bytes]

theorem encode_read {s : String} {i j : Nat} (hij : i ≤ j) (hi : isBoundary (bytes s) i = true)
    (hj : isBoundary (bytes s) j = true) :
    encode (read (bytes s) ⟨i, j⟩).toList = units (cut (bytes s) ⟨i, j⟩) := by
  rw [← units_bytes, bytes_read hij hi hj]

theorem units_cut_self (code : Bytes) (i : Nat) : units (cut code ⟨i, i⟩) = [] := by
  simp [units, cut]

theorem units_cut_cons {code : Bytes} {i stop : Nat} {c : Char} (h : at? code i = some c)
    (hi : i < stop) : units (cut code ⟨i, stop⟩) = c :: units (cut code ⟨i + 1, stop⟩) := by
  obtain ⟨b, hb, rfl⟩ := Option.map_eq_some_iff.mp h
  obtain ⟨hlt, rfl⟩ := Array.getElem?_eq_some_iff.mp hb
  obtain ⟨n, hn⟩ : ∃ n, stop - i = n + 1 := ⟨stop - i - 1, by omega⟩
  have hn' : stop - (i + 1) = n := by omega
  have hd := List.drop_eq_getElem_cons (l := code.toList) (i := i) (by simpa using hlt)
  simp only [units, cut, Array.toList_extract, List.extract, hn, hn', hd, List.take_succ_cons,
    List.map_cons, Array.getElem_toList]

theorem getElem?_units (code : Bytes) (i : Nat) : (units code)[i]? = at? code i := by
  simp [units, at?]

theorem length_encode (s : String) : (encode s.toList).length = (bytes s).size := by
  rw [← units_bytes, units, List.length_map, Array.length_toList]

theorem ne_of_le {c : Char} (h : 128 ≤ c.toNat) (d : Char) (hd : d.toNat < 128) : c ≠ d := by
  rintro rfl
  omega

theorem isBlank_ascii {c : Char} (h : isBlank c = true) : c.toNat < 128 := by
  rcases isBlank_iff.mp h with rfl | rfl | rfl | rfl | rfl <;> decide

theorem isAlphanum_ascii {c : Char} (h : c.isAlphanum = true) : c.toNat < 128 := by
  have hdef : c.isAlphanum =
      (decide (65 ≤ c.toNat ∧ c.toNat ≤ 90) || (decide (97 ≤ c.toNat) && decide (c.toNat ≤ 122)) ||
        (decide (48 ≤ c.toNat) && decide (c.toNat ≤ 57))) := rfl
  simp only [hdef, Bool.or_eq_true, Bool.and_eq_true, decide_eq_true_eq] at h
  omega

theorem isQuote_ascii {c : Char} (h : isQuote c = true) : c.toNat < 128 := by
  rcases isQuote_iff.mp h with rfl | rfl <;> decide

theorem at?_append_left {x : Bytes} {i : Nat} (h : i < x.size) (y : Bytes) :
    at? (x ++ y) i = at? x i := by
  rw [at?, Array.getElem?_append_left h, at?]

theorem at?_append_right (x y : Bytes) (i : Nat) : at? (x ++ y) (x.size + i) = at? y i := by
  rw [at?, Array.getElem?_append_right (Nat.le_add_right _ _), Nat.add_sub_cancel_left, at?]

section encode

variable {c : Char} {l : List Char}

theorem encode_append (l m : List Char) : encode (l ++ m) = encode l ++ encode m := by
  simp [encode]

theorem encode_cons (c : Char) (l : List Char) : encode (c :: l) = encode [c] ++ encode l :=
  encode_append [c] l

theorem eq_nil_of_encode (h : encode l = []) : l = [] := by
  cases l with
  | nil => rfl
  | cons c l =>
    obtain ⟨b, rest, he, -⟩ := utf8EncodeChar_shape c
    simp [encode, he] at h

theorem ofUInt8_ofNat (h : c.toNat < 128) : Char.ofUInt8 (UInt8.ofNat c.toNat) = c := by
  apply Char.toNat_inj.mp
  rw [toNat_ofUInt8, UInt8.toNat_ofNat', Nat.mod_eq_of_lt (by omega)]

theorem encode_cons_of_lt (h : c.toNat < 128) : encode (c :: l) = c :: encode l := by
  rcases utf8EncodeChar_cases c with ⟨-, he⟩ | ⟨b, rest, hc, -⟩
  · rw [encode, List.flatMap_cons, he, List.map_append, List.map_singleton, ofUInt8_ofNat h]
    rfl
  · omega

theorem encode_singleton_of_le (h : 128 ≤ c.toNat) :
    ∃ u us, encode [c] = u :: us ∧ ∀ x ∈ u :: us, 128 ≤ x.toNat := by
  rcases utf8EncodeChar_cases c with ⟨hc, -⟩ | ⟨b, rest, -, he, hb, hr⟩
  · omega
  · refine ⟨Char.ofUInt8 b, rest.map Char.ofUInt8, ?_, ?_⟩
    · rw [encode, List.flatMap_singleton, he, List.map_cons]
    · intro x hx
      rcases List.mem_cons.mp hx with rfl | hx'
      · rw [toNat_ofUInt8]
        omega
      · obtain ⟨b', hb', rfl⟩ := List.mem_map.mp hx'
        have hf := hr b' hb'
        rw [Bool.eq_false_iff, ne_eq, leads_iff] at hf
        rw [toNat_ofUInt8]
        omega

theorem encode_eq_append_cons {u v : List Char} (hc : c.toNat < 128)
    (h : encode l = u ++ c :: v) :
    ∃ l₁ l₂, l = l₁ ++ c :: l₂ ∧ u = encode l₁ ∧ v = encode l₂ := by
  have hu : (encode l)[u.length]? = some c := by simp [h]
  rw [encode, List.getElem?_map] at hu
  obtain ⟨b, hb, rfl⟩ := Option.map_eq_some_iff.mp hu
  obtain ⟨l₁, l₂, rfl, hn⟩ := exists_append_of_leads hb (leads_iff.mpr (.inl (toNat_ofUInt8 b ▸ hc)))
  obtain ⟨rfl, hv⟩ := List.append_inj ((encode_append l₁ l₂).symm.trans h) (by simp [encode, hn])
  cases l₂ with
  | nil => simp [encode] at hv
  | cons a l₂ =>
    by_cases ha : a.toNat < 128
    · rw [encode_cons_of_lt ha] at hv
      obtain ⟨rfl, rfl⟩ := List.cons.inj hv
      exact ⟨l₁, l₂, rfl, rfl, rfl⟩
    · obtain ⟨d, ds, he, hd⟩ := encode_singleton_of_le (Nat.le_of_not_lt ha)
      rw [encode_cons, he] at hv
      obtain ⟨rfl, -⟩ := List.cons.inj hv
      have hle := hd _ List.mem_cons_self
      omega

theorem mem_encode (hc : c.toNat < 128) : c ∈ encode l ↔ c ∈ l := by
  constructor
  · intro h
    obtain ⟨u, v, huv⟩ := List.append_of_mem h
    obtain ⟨l₁, l₂, rfl, -, -⟩ := encode_eq_append_cons hc huv
    simp
  · intro h
    obtain ⟨l₁, l₂, rfl⟩ := List.append_of_mem h
    simp [encode_append, encode_cons_of_lt hc]

theorem count_encode (hc : c.toNat < 128) (l : List Char) : (encode l).count c = l.count c := by
  induction l with
  | nil => rfl
  | cons d l ih =>
    by_cases hd : d.toNat < 128
    · rw [encode_cons_of_lt hd, List.count_cons, List.count_cons, ih]
    · obtain ⟨u, us, he, hu⟩ := encode_singleton_of_le (Nat.le_of_not_lt hd)
      have hnone : (u :: us).count c = 0 := List.count_eq_zero.mpr fun hmem =>
        absurd (hu c hmem) (Nat.not_le.mpr hc)
      have hne : d ≠ c := fun h => hd (h ▸ hc)
      rw [encode_cons, List.count_append, he, hnone, Nat.zero_add, ih, List.count_cons_of_ne hne]

theorem forall_encode_iff {p : Char → Bool} (hp : ∀ c, p c = true → c.toNat < 128) :
    (∀ u ∈ encode l, p u = true) ↔ ∀ c ∈ l, p c = true := by
  induction l with
  | nil => simp [encode]
  | cons c l ih =>
    by_cases hc : c.toNat < 128
    · rw [encode_cons_of_lt hc, List.forall_mem_cons, List.forall_mem_cons, ih]
    · obtain ⟨u, us, he, hu⟩ := encode_singleton_of_le (Nat.le_of_not_lt hc)
      have hle := hu u List.mem_cons_self
      rw [encode_cons, he, List.cons_append, List.forall_mem_cons, List.forall_mem_cons]
      constructor
      · rintro ⟨hpu, -⟩
        have := hp u hpu
        omega
      · rintro ⟨hpc, -⟩
        exact absurd (hp c hpc) hc

theorem mem_of_at? {s : String} {i : Nat} (hc : c.toNat < 128) (h : at? (bytes s) i = some c) :
    c ∈ s.toList := by
  rw [← getElem?_units, units_bytes] at h
  exact (mem_encode hc).mp (List.mem_of_getElem? h)

theorem toList_read_of_at? {s : String} {i j : Nat} (hij : i < j)
    (hj : isBoundary (bytes s) j = true) (h : at? (bytes s) i = some c) (hc : c.toNat < 128) :
    ∃ rest, (read (bytes s) ⟨i, j⟩).toList = c :: rest := by
  have he := encode_read (Nat.le_of_lt hij) (isBoundary_of_at? h hc).1 hj
  rw [units_cut_cons h hij] at he
  obtain ⟨l₁, l₂, hl, hnil, -⟩ := encode_eq_append_cons (u := []) hc he
  rw [eq_nil_of_encode hnil.symm] at hl
  exact ⟨l₂, hl⟩

end encode

section stands

variable {line : Bytes} {i : Nat} {text u v : List Char} {c : Char}

def Stands (line : Bytes) (i : Nat) (text : List Char) : Prop :=
  ∀ (k : Nat) (c : Char), text[k]? = some c → at? line (i + k) = some c

theorem Stands.head (h : Stands line i (c :: text)) : at? line i = some c := h 0 c rfl

theorem Stands.tail (h : Stands line i (c :: text)) : Stands line (i + 1) text := by
  intro k d hd
  rw [Nat.add_right_comm]
  exact h (k + 1) d hd

theorem Stands.left (h : Stands line i (u ++ v)) : Stands line i u := by
  intro k c hc
  refine h k c ?_
  rw [List.getElem?_append_left (List.getElem?_eq_some_iff.mp hc).1, hc]

theorem Stands.right (h : Stands line i (u ++ v)) : Stands line (i + u.length) v := by
  intro k c hc
  rw [Nat.add_assoc]
  refine h (u.length + k) c ?_
  rw [List.getElem?_append_right (Nat.le_add_right _ _), Nat.add_sub_cancel_left, hc]

theorem stands_cut (line : Bytes) (i j : Nat) : Stands line i (units (cut line ⟨i, j⟩)) := by
  intro k c hc
  rw [getElem?_units, cut, at?, Array.getElem?_extract] at hc
  split at hc
  · exact hc
  · simp at hc

theorem Stands.mem {k : Nat} (h : Stands line i text) (hk : k < text.length) :
    ∃ c ∈ text, at? line (i + k) = some c :=
  ⟨text[k], List.getElem_mem hk, h k _ (List.getElem?_eq_getElem hk)⟩

theorem Stands.exists_of_mem (h : Stands line i text) (hc : c ∈ text) :
    ∃ k, k < text.length ∧ at? line (i + k) = some c := by
  obtain ⟨k, hk, rfl⟩ := List.getElem_of_mem hc
  exact ⟨k, hk, h k _ (List.getElem?_eq_getElem hk)⟩

theorem stands_bytes (l a r : String) :
    Stands (bytes (l ++ a ++ r)) (bytes l).size (encode a.toList) := by
  intro k c hc
  have hk := (List.getElem?_eq_some_iff.mp hc).1
  rw [length_encode] at hk
  rw [bytes_append, bytes_append, Array.append_assoc, at?_append_right, at?_append_left hk,
    ← getElem?_units, units_bytes, hc]

theorem length_units_cut {j : Nat} (hj : j ≤ line.size) :
    (units (cut line ⟨i, j⟩)).length = j - i := by
  rw [units, List.length_map, Array.length_toList, cut, Array.size_extract, Nat.min_eq_left hj]

theorem stands_of_cut {s : String} {j : Nat} (hj : j ≤ line.size) (h : cut line ⟨i, j⟩ = bytes s)
    (hij : i ≤ j) : Stands line i (encode s.toList) ∧ j = i + (bytes s).size := by
  have hst := stands_cut line i j
  have hlen := length_units_cut (i := i) hj
  rw [h, units_bytes] at hst hlen
  rw [length_encode] at hlen
  exact ⟨hst, by omega⟩

theorem cut_append {j k : Nat} (hij : i ≤ j) (hjk : j ≤ k) :
    cut line ⟨i, j⟩ ++ cut line ⟨j, k⟩ = cut line ⟨i, k⟩ := by
  simp only [cut, Array.extract_append_extract, Nat.min_eq_left hij, Nat.max_eq_right hjk]

theorem exists_cut_eq_iff {p : Char → Bool} (hp : ∀ c, p c = true → c.toNat < 128) {s : String}
    {j : Nat} (hij : i ≤ j) (hj : isBoundary (bytes s) j = true) :
    (∃ x : String, (∀ c ∈ x.toList, p c = true) ∧ cut (bytes s) ⟨i, j⟩ = bytes x) ↔
      ∀ k, i ≤ k → k < j → test p (bytes s) k = true := by
  have hlen := length_units_cut (i := i) (le_size_of_isBoundary hj)
  constructor
  · rintro ⟨x, hx, he⟩ k hik hkj
    obtain ⟨c, hc, hat⟩ := (stands_cut (bytes s) i j).mem (k := k - i) (by omega)
    rw [he, units_bytes] at hc
    rw [Nat.add_sub_cancel' hik] at hat
    rw [test_of_at? hat]
    exact (forall_encode_iff hp).mpr hx c hc
  · intro h
    have hi : isBoundary (bytes s) i = true := by
      rcases Nat.lt_or_eq_of_le hij with hlt | rfl
      · obtain ⟨c, hc, hpc⟩ := test_iff.mp (h i (Nat.le_refl i) hlt)
        exact (isBoundary_of_at? hc (hp c hpc)).1
      · exact hj
    refine ⟨read (bytes s) ⟨i, j⟩, ?_, (bytes_read hij hi hj).symm⟩
    rw [← forall_encode_iff hp, encode_read hij hi hj]
    intro u hu
    obtain ⟨k, hk, hat⟩ := (stands_cut (bytes s) i j).exists_of_mem hu
    have ht := h (i + k) (Nat.le_add_right i k) (by omega)
    rwa [test_of_at? hat] at ht

end stands

end Caret.Text
