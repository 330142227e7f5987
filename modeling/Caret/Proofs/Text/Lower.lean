import Caret.Proofs.Text.Written

namespace Caret.Text

variable {c : Char}

def lowerByte (b : UInt8) : UInt8 := (Char.ofUInt8 b).toLower.toUInt8

theorem toLower_of_le (h : 91 ≤ c.toNat) : c.toLower = c := by
  refine dif_neg ?_
  rintro ⟨-, hle⟩
  have : c.toNat ≤ 90 := hle
  omega

theorem toUInt8_ofUInt8 (b : UInt8) : (Char.ofUInt8 b).toUInt8 = b := by
  apply UInt8.toNat_inj.mp
  have h := toNat_ofUInt8 b
  show ((Char.ofUInt8 b).val.toUInt8).toNat = _
  rw [UInt32.toNat_toUInt8]
  have : (Char.ofUInt8 b).val.toNat = b.toNat := h
  have := b.toNat_lt
  omega

theorem lowerByte_of_le {b : UInt8} (h : 91 ≤ b.toNat) : lowerByte b = b := by
  rw [lowerByte, toLower_of_le (by rwa [toNat_ofUInt8]), toUInt8_ofUInt8]

theorem toUInt8_eq (c : Char) : c.toUInt8 = UInt8.ofNat c.toNat := by
  apply UInt8.toNat_inj.mp
  rw [UInt8.toNat_ofNat']
  exact UInt32.toNat_toUInt8 _

theorem toLower_ascii (h : c.toNat < 128) : c.toLower.toNat < 128 := by
  delta Char.toLower
  split
  · next hc =>
    have h90 : c.toNat ≤ 90 := hc.2
    show (c.val + ('a'.val - 'A'.val)).toNat < 128
    have hv : c.val.toNat = c.toNat := rfl
    rw [UInt32.toNat_add]
    have : ('a'.val - 'A'.val).toNat = 32 := by decide
    omega
  · exact h

theorem at?_map_lowerByte (code : Bytes) (i : Nat) :
    at? (code.map lowerByte) i = (at? code i).map Char.toLower := by
  rw [at?, at?, Array.getElem?_map, Option.map_map, Option.map_map]
  congr 1
  funext b
  apply Char.toNat_inj.mp
  by_cases hb : b.toNat < 128
  · have hc : (Char.ofUInt8 b).toNat < 128 := by rwa [toNat_ofUInt8]
    have := toLower_ascii hc
    simp only [Function.comp_apply, lowerByte, toUInt8_eq, toNat_ofUInt8, UInt8.toNat_ofNat']
    omega
  · have hle : 91 ≤ b.toNat := by omega
    simp only [Function.comp_apply, lowerByte_of_le hle]
    rw [toLower_of_le (by rwa [toNat_ofUInt8])]

theorem toLower_eq {d : Char} (h : c.toLower = d) : c = d ∨ c.isUpper = true ∧ d.isLower = true := by
  subst h
  delta Char.toLower
  split
  · next hc =>
    have h65 : 65 ≤ c.toNat := hc.1
    have h90 : c.toNat ≤ 90 := hc.2
    have hval : (c.val + ('a'.val - 'A'.val)).toNat = c.toNat + 32 := by
      have hstep : ('a'.val - 'A'.val).toNat = 32 := by decide
      have hnat : c.val.toNat = c.toNat := rfl
      rw [UInt32.toNat_add]
      omega
    refine .inr ⟨decide_eq_true hc, ?_⟩
    change (decide (_ ≥ 'a'.val) && decide (_ ≤ 'z'.val)) = true
    simp only [ge_iff_le, Bool.and_eq_true, decide_eq_true_eq, UInt32.le_iff_toNat_le, hval]
    have ha : 'a'.val.toNat = 97 := rfl
    have hz : 'z'.val.toNat = 122 := rfl
    omega
  · exact .inl rfl

theorem utf8EncodeChar_toLower (c : Char) :
    String.utf8EncodeChar c.toLower = (String.utf8EncodeChar c).map lowerByte := by
  rcases utf8EncodeChar_cases c with ⟨hc, he⟩ | ⟨b, rest, hc, he, hb, hr⟩
  · rcases utf8EncodeChar_cases c.toLower with ⟨-, he'⟩ | ⟨-, -, hc', -⟩
    · rw [he, he', List.map_singleton, lowerByte, ofUInt8_ofNat hc, toUInt8_eq]
    · have := toLower_ascii hc
      omega
  · rw [toLower_of_le (by omega), he]
    have hall : ∀ x ∈ b :: rest, lowerByte x = x := by
      intro x hx
      apply lowerByte_of_le
      rcases List.mem_cons.mp hx with rfl | hx
      · omega
      · have hx' := hr x hx
        rw [Bool.eq_false_iff, ne_eq, leads_iff] at hx'
        omega
    rw [List.map_congr_left hall, List.map_id']

theorem bytes_lower (s : String) : bytes (lower s) = (bytes s).map lowerByte := by
  apply Array.toList_inj.mp
  rw [Array.toList_map, toList_bytes, toList_bytes, lower, String.toList_map]
  induction s.toList with
  | nil => rfl
  | cons c l ih =>
    rw [List.map_cons, List.flatMap_cons, List.flatMap_cons, List.map_append, ih,
      utf8EncodeChar_toLower]

section words

variable {code : Bytes} {stop i : Nat} {word : List UInt8}

theorem holdsAt_iff (hs : i + word.length ≤ stop) : holdsAt code stop word i = true ↔
    ∀ j b, word[j]? = some b → code[i + j]? = some b := by
  induction word generalizing i with
  | nil => simp [holdsAt]
  | cons b rest ih =>
    rw [List.length_cons] at hs
    simp only [holdsAt, Bool.and_eq_true, decide_eq_true_eq, beq_iff_eq, ih (i := i + 1) (by omega)]
    constructor
    · rintro ⟨⟨-, hb⟩, hrest⟩ j c hc
      cases j with
      | zero =>
        obtain rfl := Option.some.inj hc
        exact hb
      | succ j =>
        rw [Nat.add_comm j 1, ← Nat.add_assoc]
        exact hrest j c hc
    · intro h
      refine ⟨⟨by omega, h 0 b rfl⟩, fun j c hc => ?_⟩
      rw [Nat.add_assoc, Nat.add_comm 1 j]
      exact h (j + 1) c hc

theorem infix_of_getElem? {α : Type} {w l : List α} {n : Nat}
    (h : ∀ j x, w[j]? = some x → l[n + j]? = some x) : w <:+: l := by
  have htake : w = (l.drop n).take w.length := by
    apply List.ext_getElem?
    intro j
    rw [List.getElem?_take, List.getElem?_drop]
    split
    · next hj =>
      have hx := List.getElem?_eq_getElem hj
      rw [hx, h j _ hx]
    · next hj => exact List.getElem?_eq_none (Nat.le_of_not_lt hj)
  rw [htake]
  exact (List.take_prefix ..).isInfix.trans (List.drop_suffix ..).isInfix

theorem encode_of_ascii {l : List Char} (h : ∀ c ∈ l, c.toNat < 128) : encode l = l := by
  induction l with
  | nil => rfl
  | cons c l ih =>
    rw [encode_cons_of_lt (h c List.mem_cons_self),
      ih fun d hd => h d (List.mem_cons_of_mem c hd)]

theorem infix_of_bytes {w s : String} (hw : ∀ c ∈ w.toList, c.toNat < 128)
    (h : (bytes w).toList <:+: (bytes s).toList) : w.toList <:+: s.toList := by
  apply infix_of_encode hw
  have hmap := h.map Char.ofUInt8
  rw [toList_bytes, toList_bytes] at hmap
  rw [← encode_of_ascii hw]
  exact hmap

end words

end Caret.Text
