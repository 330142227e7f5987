import Caret.Context
import Caret.Proofs.Sequence
import Mathlib.Data.List.Induction

namespace Caret

open Text

section assign

variable (name : String) (value : Option String) (found entries : List (String × Option String))

theorem map_fst_assign : (assign name value found).map Prod.fst =
    if (found.map Prod.fst).contains name then found.map Prod.fst
    else found.map Prod.fst ++ [name] := by
  induction found with
  | nil => rfl
  | cons e found ih =>
    by_cases he : e.1 = name
    · simp [assign, he]
    · have hne : name ≠ e.1 := fun h => he h.symm
      simp only [assign, if_neg he, List.map_cons, ih, List.contains_cons, beq_false_of_ne hne,
        Bool.false_or]
      split <;> rfl

theorem lookup_assign (n : String) : (assign name value found).lookup n =
    if name = n then some value else found.lookup n := by
  induction found with
  | nil =>
    by_cases hn : name = n
    · simp [assign, hn]
    · have hne : n ≠ name := fun h => hn h.symm
      simp [assign, hn, hne]
  | cons e found ih =>
    obtain ⟨m, v⟩ := e
    by_cases hm : m = name
    · subst hm
      rw [assign, if_pos rfl, List.lookup_cons, List.lookup_cons]
      by_cases hn : m = n
      · simp [hn]
      · have hne : (n == m) = false := beq_false_of_ne fun h => hn h.symm
        simp only [hne, if_neg hn]
    · rw [assign, if_neg hm, List.lookup_cons, List.lookup_cons, ih]
      by_cases hn : n = m
      · subst hn
        simp only [beq_self_eq_true, if_neg (Ne.symm hm)]
      · simp only [beq_false_of_ne hn]

def assignAll : List (String × Option String) :=
  entries.foldl (fun found e => assign e.1 e.2 found) []

theorem assignAll_concat (e : String × Option String) :
    assignAll (entries ++ [e]) = assign e.1 e.2 (assignAll entries) := by
  simp [assignAll]

theorem map_fst_assignAll :
    (assignAll entries).map Prod.fst = (entries.map Prod.fst).eraseDups := by
  induction entries using List.reverseRecOn with
  | nil => rfl
  | append_singleton entries e ih =>
    have hcontains : (entries.map Prod.fst).eraseDups.contains e.1 =
        (entries.map Prod.fst).contains e.1 := by
      rw [Bool.eq_iff_iff, List.contains_iff_mem, List.contains_iff_mem, List.mem_eraseDups]
    rw [assignAll_concat, map_fst_assign, ih, hcontains, List.map_append, List.map_singleton,
      eraseDups_concat]

theorem lookup_assignAll (n : String) :
    (assignAll entries).lookup n = (entries.findRev? (·.1 == n)).map Prod.snd := by
  induction entries using List.reverseRecOn with
  | nil => rfl
  | append_singleton entries e ih =>
    rw [assignAll_concat, lookup_assign, ih, findRev?_concat]
    by_cases he : e.1 = n <;> simp [he]

end assign

namespace Markup

def Attribute.entry (code : Bytes) (a : Attribute) : String × Option String :=
  (Text.read code a.name, a.value.map (unquote <| Text.read code ·))

end Markup

variable {code : Bytes} {xml : Bool} {pos : Nat} {t : EnclosingTag}

theorem attributes_eq_assignAll (h : enclosingTag? code xml pos = some t) :
    t.attributes = assignAll ((Markup.attributes code t.opening).map (·.entry code)) := by
  obtain ⟨e, -, rfl⟩ := Option.map_eq_some_iff.mp h
  rw [assignAll, List.foldl_map]
  rfl

theorem enclosingTag?_attributes (h : enclosingTag? code xml pos = some t) :
    let entries := (Markup.attributes code t.opening).map (·.entry code)
    (t.attributes.map Prod.fst).Nodup ∧
    t.attributes.map Prod.fst = (entries.map Prod.fst).eraseDups ∧
    (∀ n v, (n, v) ∈ t.attributes →
      entries.findRev? (·.1 == n) = some (n, v) ∧ t.attribute? n = some v) ∧
    ∀ n, n ∉ entries.map Prod.fst → t.attribute? n = none := by
  intro entries
  have heq : t.attributes = assignAll entries := attributes_eq_assignAll h
  have hnames : t.attributes.map Prod.fst = (entries.map Prod.fst).eraseDups := by
    rw [heq, map_fst_assignAll]
  have hnodup : (t.attributes.map Prod.fst).Nodup := by
    rw [hnames]
    exact nodup_eraseDups _
  have hfind (n : String) : t.attribute? n = (entries.findRev? (·.1 == n)).map Prod.snd := by
    rw [EnclosingTag.attribute?, heq, lookup_assignAll]
  refine ⟨hnodup, hnames, fun n v hmem => ?_, fun n hn => ?_⟩
  · have hv : t.attribute? n = some v := lookup_of_mem hnodup hmem
    refine ⟨?_, hv⟩
    rw [hfind] at hv
    obtain ⟨e, he, rfl⟩ := Option.map_eq_some_iff.mp hv
    obtain rfl := eq_of_beq (findRev?_spec he).2
    exact he
  · rw [hfind, Option.map_eq_none_iff, findRev?_eq_none_iff]
    intro e he
    apply beq_false_of_ne
    rintro rfl
    exact hn (List.mem_map.mpr ⟨e, he, rfl⟩)

theorem enclosingTag?_attributes_repeated :
    ∃ t, enclosingTag? (bytes "<p a=1 b a b='2'>x</p>") false 18 = some t ∧
      t.attributes = [("a", none), ("b", some "2")] ∧ t.attribute? "a" = some none ∧
      t.attribute? "c" = none := by
  have ht : enclosingTag? (bytes "<p a=1 b a b='2'>x</p>") false 18 =
      some ⟨"p", [("a", none), ("b", some "2")], ⟨0, 17⟩, some ⟨18, 22⟩⟩ := by decide +kernel
  obtain ⟨-, -, hvalue, habsent⟩ := enclosingTag?_attributes ht
  exact ⟨_, ht, rfl, (hvalue "a" none (by simp)).2, habsent "c" (by decide +kernel)⟩

end Caret
