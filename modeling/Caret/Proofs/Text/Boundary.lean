import Caret.Proofs.Text.Skip

namespace Caret.Text

theorem bytes_append (s t : String) : bytes (s ++ t) = bytes s ++ bytes t := by
  simp [bytes]

theorem toList_bytes (s : String) : (bytes s).toList = s.toList.flatMap String.utf8EncodeChar := by
  rw [bytes, String.toUTF8_eq_toByteArray, ← String.utf8Encode_toList, List.utf8Encode,
    List.data_toByteArray]

theorem size_bytes (s : String) :
    (bytes s).size = (s.toList.flatMap String.utf8EncodeChar).length := by
  rw [← toList_bytes, Array.length_toList]

theorem size_bytes_cons (c : Char) (l : List Char) :
    (bytes (.ofList (c :: l))).size = c.utf8Size + (bytes (.ofList l)).size := by
  simp [size_bytes]

theorem isEmpty_eq (s : String) : s.isEmpty = ((bytes s).size == 0) := rfl

theorem size_bytes_eq_zero {s : String} : (bytes s).size = 0 ↔ s = "" := by
  rw [← String.isEmpty_iff, isEmpty_eq, beq_iff_eq]

theorem getElem?_bytes (s : String) (i : Nat) :
    (bytes s)[i]? = (s.toList.flatMap String.utf8EncodeChar)[i]? := by
  rw [← toList_bytes, Array.getElem?_toList]

def leads (b : UInt8) : Bool := b < 0x80 || 0xC0 ≤ b

theorem leads_iff {b : UInt8} : leads b = true ↔ b.toNat < 128 ∨ 192 ≤ b.toNat := by
  simp [leads, UInt8.lt_iff_toNat_lt, UInt8.le_iff_toNat_le]

theorem toNat_ofNat_mod_add {n k m : Nat} (hk : 0 < k) (h : k + m ≤ 256) :
    (UInt8.ofNat (n % k + m)).toNat = n % k + m := by
  have hlt := Nat.mod_lt n hk
  rw [UInt8.toNat_ofNat', Nat.mod_eq_of_lt (by omega)]

theorem le_toNat_ofNat {n k m : Nat} (hk : 0 < k) (hm : 192 ≤ m) (h : k + m ≤ 256) :
    192 ≤ (UInt8.ofNat (n % k + m)).toNat := by
  rw [toNat_ofNat_mod_add hk h]
  omega

theorem not_leads_ofNat (n : Nat) : leads (UInt8.ofNat (n % 0x40 + 0x80)) = false := by
  rw [Bool.eq_false_iff, ne_eq, leads_iff, toNat_ofNat_mod_add (by omega) (by omega)]
  omega

theorem utf8EncodeChar_cases (c : Char) :
    (c.toNat < 128 ∧ String.utf8EncodeChar c = [UInt8.ofNat c.toNat]) ∨
      ∃ b rest, 128 ≤ c.toNat ∧ String.utf8EncodeChar c = b :: rest ∧ 192 ≤ b.toNat ∧
        ∀ b' ∈ rest, leads b' = false := by
  have hc : c.val.toNat = c.toNat := rfl
  fun_cases String.utf8EncodeChar c with
  | case1 v h => exact .inl ⟨by omega, rfl⟩
  | case2 v h h' =>
    refine .inr ⟨_, _, by omega, rfl, le_toNat_ofNat (by omega) (by omega) (by omega), ?_⟩
    simp only [List.mem_cons, List.not_mem_nil, or_false, forall_eq]
    exact not_leads_ofNat _
  | case3 v h h' h'' =>
    refine .inr ⟨_, _, by omega, rfl, le_toNat_ofNat (by omega) (by omega) (by omega), ?_⟩
    simp only [List.mem_cons, List.not_mem_nil, or_false, forall_eq_or_imp, forall_eq]
    exact ⟨not_leads_ofNat _, not_leads_ofNat _⟩
  | case4 v h h' h'' =>
    refine .inr ⟨_, _, by omega, rfl, le_toNat_ofNat (by omega) (by omega) (by omega), ?_⟩
    simp only [List.mem_cons, List.not_mem_nil, or_false, forall_eq_or_imp, forall_eq]
    exact ⟨not_leads_ofNat _, not_leads_ofNat _, not_leads_ofNat _⟩

theorem utf8EncodeChar_shape (c : Char) : ∃ b rest, String.utf8EncodeChar c = b :: rest ∧
    leads b = true ∧ ∀ b' ∈ rest, leads b' = false := by
  rcases utf8EncodeChar_cases c with ⟨hc, he⟩ | ⟨b, rest, -, he, hb, hr⟩
  · refine ⟨_, _, he, leads_iff.mpr (.inl ?_), by simp⟩
    rw [UInt8.toNat_ofNat']
    omega
  · exact ⟨b, rest, he, leads_iff.mpr (.inr hb), hr⟩

theorem isBoundary_iff {code : Bytes} {i : Nat} : isBoundary code i = true ↔
    i = 0 ∨ i = code.size ∨ ∃ b, code[i]? = some b ∧ leads b = true := by
  simp [isBoundary, leads, Option.any_eq_true, or_assoc]

theorem isBoundary_zero (code : Bytes) : isBoundary code 0 = true := isBoundary_iff.mpr (.inl rfl)

theorem isBoundary_size (code : Bytes) : isBoundary code code.size = true :=
  isBoundary_iff.mpr (.inr (.inl rfl))

theorem exists_append_of_leads {l : List Char} {i : Nat} {b : UInt8}
    (h : (l.flatMap String.utf8EncodeChar)[i]? = some b) (hb : leads b = true) :
    ∃ l₁ l₂, l = l₁ ++ l₂ ∧ (l₁.flatMap String.utf8EncodeChar).length = i := by
  induction l generalizing i with
  | nil => simp at h
  | cons c l ih =>
    obtain ⟨b', rest, he, -, hr⟩ := utf8EncodeChar_shape c
    rw [List.flatMap_cons] at h
    by_cases hi : i < (String.utf8EncodeChar c).length
    · rw [List.getElem?_append_left hi, he] at h
      cases i with
      | zero => exact ⟨[], c :: l, rfl, rfl⟩
      | succ i =>
        have hf := hr b (List.mem_of_getElem? h)
        rw [hb] at hf
        contradiction
    · rw [List.getElem?_append_right (Nat.le_of_not_lt hi)] at h
      obtain ⟨l₁, l₂, rfl, hl⟩ := ih h
      refine ⟨c :: l₁, l₂, rfl, ?_⟩
      rw [List.flatMap_cons, List.length_append, hl]
      omega

theorem isBoundary_append (l r : String) : isBoundary (bytes (l ++ r)) (bytes l).size = true := by
  rw [isBoundary_iff, bytes_append, Array.size_append, Array.getElem?_append_right (Nat.le_refl _),
    Nat.sub_self, getElem?_bytes, size_bytes r]
  cases r.toList with
  | nil => exact .inr (.inl rfl)
  | cons c cs =>
    obtain ⟨b, rest, he, hb, -⟩ := utf8EncodeChar_shape c
    refine .inr (.inr ⟨b, ?_, hb⟩)
    rw [List.flatMap_cons, he]
    rfl

theorem isBoundary_bytes {s : String} {i : Nat} :
    isBoundary (bytes s) i = true ↔ ∃ l r, s = l ++ r ∧ (bytes l).size = i := by
  constructor
  · intro h
    rcases isBoundary_iff.mp h with rfl | rfl | ⟨b, hi, hb⟩
    · exact ⟨"", s, by simp, rfl⟩
    · exact ⟨s, "", by simp, rfl⟩
    · rw [getElem?_bytes] at hi
      obtain ⟨l₁, l₂, hl, hn⟩ := exists_append_of_leads hi hb
      refine ⟨String.ofList l₁, String.ofList l₂, ?_, ?_⟩
      · rw [← String.ofList_append, ← hl, String.ofList_toList]
      · rw [size_bytes, String.toList_ofList, hn]
  · rintro ⟨l, r, rfl, rfl⟩
    exact isBoundary_append l r

theorem isBoundary_of_ascii {s : String} {i : Nat} {b : UInt8} (h : (bytes s)[i]? = some b)
    (hb : b.toNat < 128) :
    isBoundary (bytes s) i = true ∧ isBoundary (bytes s) (i + 1) = true := by
  have hi : isBoundary (bytes s) i = true :=
    isBoundary_iff.mpr (.inr (.inr ⟨b, h, leads_iff.mpr (.inl hb)⟩))
  refine ⟨hi, ?_⟩
  obtain ⟨l, r, rfl, rfl⟩ := isBoundary_bytes.mp hi
  rw [bytes_append, Array.getElem?_append_right (Nat.le_refl _), Nat.sub_self, getElem?_bytes] at h
  cases hr : r.toList with
  | nil => simp [hr] at h
  | cons c cs =>
    rw [hr, List.flatMap_cons] at h
    rcases utf8EncodeChar_cases c with ⟨-, he⟩ | ⟨b', rest, -, he, hb', -⟩
    · refine isBoundary_bytes.mpr ⟨l ++ String.ofList [c], String.ofList cs, ?_, ?_⟩
      · rw [String.append_assoc, ← String.ofList_append, List.singleton_append, ← hr,
          String.ofList_toList]
      · rw [bytes_append, Array.size_append, size_bytes (String.ofList [c]), String.toList_ofList,
          List.flatMap_cons, List.flatMap_nil, List.append_nil, he, List.length_singleton]
    · rw [he] at h
      obtain rfl := Option.some.inj h
      omega

theorem toNat_ofUInt8 (b : UInt8) : (Char.ofUInt8 b).toNat = b.toNat := by
  exact UInt8.toNat_toUInt32 b

theorem isBoundary_of_at? {s : String} {i : Nat} {c : Char} (h : at? (bytes s) i = some c)
    (hc : c.toNat < 128) :
    isBoundary (bytes s) i = true ∧ isBoundary (bytes s) (i + 1) = true := by
  obtain ⟨b, hb, rfl⟩ := Option.map_eq_some_iff.mp h
  exact isBoundary_of_ascii hb (toNat_ofUInt8 b ▸ hc)

theorem isBoundary_of_test {p : Char → Bool} (hp : ∀ c, p c = true → c.toNat < 128) {code : Bytes}
    {i : Nat} (h : test p code i = true) : isBoundary code i = true := by
  obtain ⟨c, hat, hc⟩ := test_iff.mp h
  obtain ⟨b, hb, rfl⟩ := Option.map_eq_some_iff.mp hat
  have hascii := hp _ hc
  rw [toNat_ofUInt8] at hascii
  exact isBoundary_iff.mpr (.inr (.inr ⟨b, hb, leads_iff.mpr (.inl hascii)⟩))

theorem isBoundary_skip {p : Char → Bool} (hp : ∀ c, p c = true → c.toNat < 128) {s : String}
    {stop i : Nat} (hi : isBoundary (bytes s) i = true) :
    isBoundary (bytes s) (skip p (bytes s) stop i) = true := by
  fun_induction skip p (bytes s) stop i with
  | case1 i h ih =>
    obtain ⟨c, hc, hpc⟩ := test_iff.mp h.2
    exact ih (isBoundary_of_at? hc (hp c hpc)).2
  | case2 => exact hi

theorem isBoundary_skipBack {p : Char → Bool} (hp : ∀ c, p c = true → c.toNat < 128) {s : String}
    {start i : Nat} (hi : isBoundary (bytes s) i = true) :
    isBoundary (bytes s) (skipBack p (bytes s) start i) = true := by
  induction i with
  | zero => exact hi
  | succ i ih =>
    unfold skipBack
    split
    · next h =>
      obtain ⟨c, hc, hpc⟩ := test_iff.mp h.2
      exact ih (isBoundary_of_at? hc (hp c hpc)).1
    · exact hi

theorem le_size_of_isBoundary {code : Bytes} {i : Nat} (h : isBoundary code i = true) :
    i ≤ code.size := by
  rcases isBoundary_iff.mp h with rfl | rfl | ⟨b, hb, -⟩
  · exact Nat.zero_le _
  · exact Nat.le_refl _
  · exact Nat.le_of_lt (Array.getElem?_eq_some_iff.mp hb).1

theorem isBoundary_skip_of_not {p : Char → Bool} (hp : ∀ c, p c = false → c.toNat < 128)
    {s : String} {stop i : Nat} (hstop : isBoundary (bytes s) stop = true) (hi : i ≤ stop) :
    isBoundary (bytes s) (skip p (bytes s) stop i) = true := by
  rcases Nat.lt_or_eq_of_le (skip_le p (bytes s) hi) with hlt | heq
  · obtain ⟨c, hc⟩ := at?_of_lt (Nat.lt_of_lt_of_le hlt (le_size_of_isBoundary hstop))
    have hend := test_skip hlt
    rw [test_of_at? hc] at hend
    exact (isBoundary_of_at? hc (hp c hend)).1
  · rwa [heq]

theorem fromUTF8?_bytes (s : String) : String.fromUTF8? ⟨bytes s⟩ = some s := by
  unfold String.fromUTF8?
  rw [bytes, String.toUTF8_eq_toByteArray, dif_pos s.isValidUTF8]
  rfl

theorem cut_bytes_append (l m r : String) :
    cut (bytes (l ++ m ++ r)) ⟨(bytes l).size, (bytes l).size + (bytes m).size⟩ = bytes m := by
  simp [cut, bytes_append, Array.extract_append]

theorem read_bytes_append (l m r : String) :
    read (bytes (l ++ m ++ r)) ⟨(bytes l).size, (bytes l).size + (bytes m).size⟩ = m := by
  rw [read, cut_bytes_append, fromUTF8?_bytes, if_pos]
  · rfl
  · simp [bytes_append]

theorem append_eq_append {s t s' t' : String} (h : s ++ t = s' ++ t') :
    (∃ m, s' = s ++ m ∧ t = m ++ t') ∨ ∃ m, s = s' ++ m ∧ t' = m ++ t := by
  have hl : s.toList ++ t.toList = s'.toList ++ t'.toList := by
    rw [← String.toList_append, h, String.toList_append]
  rcases List.append_eq_append_iff.mp hl with ⟨m, hs, ht⟩ | ⟨m, hs, ht⟩
  · refine .inl ⟨String.ofList m, ?_, ?_⟩ <;> apply String.toList_inj.mp <;> simpa
  · refine .inr ⟨String.ofList m, ?_, ?_⟩ <;> apply String.toList_inj.mp <;> simpa

theorem exists_append_of_isBoundary {s : String} {i j : Nat} (hij : i ≤ j)
    (hi : isBoundary (bytes s) i = true) (hj : isBoundary (bytes s) j = true) :
    ∃ l m r, s = l ++ m ++ r ∧ (bytes l).size = i ∧ (bytes l).size + (bytes m).size = j := by
  obtain ⟨l, r, rfl, rfl⟩ := isBoundary_bytes.mp hi
  obtain ⟨l', r', he, rfl⟩ := isBoundary_bytes.mp hj
  rcases append_eq_append he with ⟨m, rfl, rfl⟩ | ⟨m, rfl, rfl⟩
  · exact ⟨l, m, r', by rw [String.append_assoc], rfl, by rw [bytes_append, Array.size_append]⟩
  · refine ⟨l' ++ m, "", r, by rw [String.append_empty], rfl, ?_⟩
    rw [bytes_append, Array.size_append] at hij ⊢
    have hm : (bytes "").size = 0 := rfl
    omega

theorem bytes_read {s : String} {i j : Nat} (hij : i ≤ j) (hi : isBoundary (bytes s) i = true)
    (hj : isBoundary (bytes s) j = true) :
    bytes (read (bytes s) ⟨i, j⟩) = cut (bytes s) ⟨i, j⟩ := by
  obtain ⟨l, m, r, rfl, rfl, rfl⟩ := exists_append_of_isBoundary hij hi hj
  rw [read_bytes_append, cut_bytes_append]

theorem size_read {s : String} {i j : Nat} (hij : i ≤ j) (hi : isBoundary (bytes s) i = true)
    (hj : isBoundary (bytes s) j = true) : (bytes (read (bytes s) ⟨i, j⟩)).size = j - i := by
  rw [bytes_read hij hi hj, cut, Array.size_extract, Nat.min_eq_left (le_size_of_isBoundary hj)]

theorem isBoundary_lastBoundary (code : Bytes) (i : Nat) :
    isBoundary code (lastBoundary code i) = true := by
  induction i with
  | zero => exact isBoundary_zero code
  | succ i ih =>
    unfold lastBoundary
    split
    · next h => exact h
    · exact ih

theorem isBoundary_clamp (code : Bytes) (i : Nat) : isBoundary code (clamp code i) = true := by
  unfold clamp
  split
  · exact isBoundary_size code
  · exact isBoundary_lastBoundary code i

theorem lastBoundary_le (code : Bytes) (i : Nat) : lastBoundary code i ≤ i := by
  induction i with
  | zero => exact Nat.le_refl 0
  | succ i ih =>
    unfold lastBoundary
    split
    · exact Nat.le_refl _
    · exact Nat.le_succ_of_le ih

theorem le_lastBoundary {code : Bytes} {i j : Nat} (h : isBoundary code j = true) (hij : j ≤ i) :
    j ≤ lastBoundary code i := by
  induction i with
  | zero => exact hij
  | succ i ih =>
    unfold lastBoundary
    split
    · exact hij
    · next hi =>
      rcases Nat.eq_or_lt_of_le hij with rfl | hlt
      · exact absurd h hi
      · exact ih (Nat.le_of_lt_succ hlt)

theorem clamp_le (code : Bytes) (i : Nat) : clamp code i ≤ i := by
  unfold clamp
  split
  · next h => exact h
  · exact lastBoundary_le code i

theorem le_clamp {code : Bytes} {i j : Nat} (h : isBoundary code j = true) (hij : j ≤ i) :
    j ≤ clamp code i := by
  unfold clamp
  split
  · exact le_size_of_isBoundary h
  · exact le_lastBoundary h hij

theorem clamp_of_isBoundary {code : Bytes} {i : Nat} (h : isBoundary code i = true) :
    clamp code i = i := by
  unfold clamp
  split
  · next hle => exact Nat.le_antisymm hle (le_size_of_isBoundary h)
  · cases i with
    | zero => rfl
    | succ i => exact if_pos h

end Caret.Text
