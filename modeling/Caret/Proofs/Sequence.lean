namespace Caret

section arrays

variable {α : Type} {xs : Array α} {x y z : α} {f : α → α} {i j : Nat}

theorem getElem?_push_cases (h : (xs.push x)[i]? = some y) :
    (i < xs.size ∧ xs[i]? = some y) ∨ (i = xs.size ∧ y = x) := by
  rw [Array.getElem?_push] at h
  split at h
  · next hi => exact .inr ⟨hi, (Option.some.inj h).symm⟩
  · exact .inl ⟨(Array.getElem?_eq_some_iff.mp h).1, h⟩

theorem getElem?_push_pair (hij : i < j) (hi : (xs.push x)[i]? = some y)
    (hj : (xs.push x)[j]? = some z) :
    xs[i]? = some y ∧ (xs[j]? = some z ∨ j = xs.size ∧ z = x) := by
  rcases getElem?_push_cases hj with ⟨hlt, hj'⟩ | ⟨rfl, rfl⟩
  · rcases getElem?_push_cases hi with ⟨-, hi'⟩ | ⟨rfl, -⟩
    · exact ⟨hi', .inl hj'⟩
    · omega
  · rcases getElem?_push_cases hi with ⟨-, hi'⟩ | ⟨rfl, -⟩
    · exact ⟨hi', .inr ⟨rfl, rfl⟩⟩
    · omega

theorem getElem?_push_of_some (h : xs[i]? = some y) : (xs.push x)[i]? = some y := by
  rw [Array.getElem?_push, if_neg, h]
  exact Nat.ne_of_lt (Array.getElem?_eq_some_iff.mp h).1

theorem getElem?_modify_cases (h : (xs.modify i f)[j]? = some y) :
    (j ≠ i ∧ xs[j]? = some y) ∨ (j = i ∧ ∃ x, xs[i]? = some x ∧ y = f x) := by
  rw [Array.getElem?_modify] at h
  split at h
  · next hij =>
    subst hij
    obtain ⟨x, hx, rfl⟩ := Option.map_eq_some_iff.mp h
    exact .inr ⟨rfl, x, hx, rfl⟩
  · next hij => exact .inl ⟨fun hji => hij hji.symm, h⟩

theorem forall_mem_modify {P : α → Prop} (h : ∀ x ∈ xs, P x) (hf : ∀ x, P x → P (f x)) :
    ∀ x ∈ xs.modify i f, P x := by
  intro x hx
  obtain ⟨j, hj⟩ := Array.mem_iff_getElem?.mp hx
  rcases getElem?_modify_cases hj with ⟨-, hj⟩ | ⟨-, y, hy, rfl⟩
  · exact h x (Array.mem_of_getElem? hj)
  · exact hf y (h y (Array.mem_of_getElem? hy))

theorem getElem?_foldl_modify {is : List Nat} (hn : is.Nodup) (xs : Array α) (j : Nat) :
    (is.foldl (fun xs i => xs.modify i f) xs)[j]? = if j ∈ is then xs[j]?.map f else xs[j]? := by
  induction is generalizing xs with
  | nil => simp
  | cons i is ih =>
    obtain ⟨hi, hn⟩ := List.nodup_cons.mp hn
    rw [List.foldl_cons, ih hn, Array.getElem?_modify]
    by_cases hij : i = j
    · subst hij
      simp [hi]
    · have hji : ¬ j = i := fun h => hij h.symm
      simp [hij, hji]

theorem modify_append_cons (xs : Array α) (x : α) (l : List α) (f : α → α) :
    (xs ++ (x :: l).toArray).modify xs.size f = xs ++ (f x :: l).toArray := by
  apply Array.ext_getElem?
  intro k
  rw [Array.getElem?_modify, Array.getElem?_append, Array.getElem?_append]
  split
  · next h =>
    subst h
    simp
  · next h =>
    split
    · rfl
    · next hk =>
      obtain ⟨n, hn⟩ : ∃ n, k - xs.size = n + 1 := ⟨k - xs.size - 1, by omega⟩
      simp [hn]

theorem map_modify {β : Type} {g : α → β} {f' : β → β} (h : ∀ x, g (f x) = f' (g x)) (xs : Array α)
    (i : Nat) : (xs.modify i f).map g = (xs.map g).modify i f' := by
  apply Array.ext_getElem?
  intro j
  simp only [Array.getElem?_modify, Array.getElem?_map]
  split
  · cases xs[j]? <;> simp [h]
  · rfl

theorem pairwise_toList {R : α → α → Prop}
    (h : ∀ (i j : Nat) (x y : α), i < j → xs[i]? = some x → xs[j]? = some y → R x y) :
    xs.toList.Pairwise R := by
  rw [List.pairwise_iff_getElem]
  intro i j hi hj hij
  exact h i j _ _ hij (by simp) (by simp)

theorem rel_of_pairwise_toList {R : α → α → Prop} (h : xs.toList.Pairwise R) {i j : Nat} {x y : α}
    (hij : i < j) (hi : xs[i]? = some x) (hj : xs[j]? = some y) : R x y := by
  obtain ⟨hi, rfl⟩ := Array.getElem?_eq_some_iff.mp hi
  obtain ⟨hj, rfl⟩ := Array.getElem?_eq_some_iff.mp hj
  exact List.pairwise_iff_getElem.mp h i j (by simpa) (by simpa) hij

end arrays

section repeats

variable {α : Type} {R : α → α → Prop} {a b : α} {l m : List α}

theorem eq_of_pairwise_ne {β : Type} {k : α → β} (h : l.Pairwise fun a b => k a ≠ k b)
    (ha : a ∈ l) (hb : b ∈ l) (hk : k a = k b) : a = b := by
  induction l with
  | nil => simp at ha
  | cons c l ih =>
    obtain ⟨hc, hl⟩ := List.pairwise_cons.mp h
    rcases List.mem_cons.mp ha with rfl | ha' <;> rcases List.mem_cons.mp hb with rfl | hb'
    · rfl
    · exact absurd hk (hc b hb')
    · exact absurd hk.symm (hc a ha')
    · exact ih hl ha' hb'

theorem eq_or_rel_of_pairwise (h : l.Pairwise R) (ha : a ∈ l) (hb : b ∈ l) :
    a = b ∨ R a b ∨ R b a :=
  List.Pairwise.forall_of_forall_of_flip (R := fun a b => a = b ∨ R a b ∨ R b a)
    (fun _ _ => .inl rfl) (h.imp fun hr => .inr (.inl hr)) (h.imp fun hr => .inr (.inr hr)) ha hb

theorem nodup_map_zipIdx {β : Type} {f : α × Nat → β} (hf : ∀ p q, f p = f q → p.2 = q.2)
    (l : List α) : (l.zipIdx.map f).Nodup := by
  have hindex : (l.zipIdx.map Prod.snd).Nodup := by
    rw [List.zipIdx_map_snd]
    exact List.nodup_range' 1
  exact List.pairwise_map.mpr ((List.pairwise_map.mp hindex).imp fun hne heq => hne (hf _ _ heq))

theorem eraseRepsBy_loop (r : α → α → Bool) (a : α) (l acc : List α) :
    List.eraseRepsBy.loop r a l acc = acc.reverse ++ List.eraseRepsBy.loop r a l [] := by
  induction l generalizing a acc with
  | nil => simp [List.eraseRepsBy.loop]
  | cons b l ih =>
    simp only [List.eraseRepsBy.loop]
    split
    · exact ih a acc
    · rw [ih b (a :: acc), ih b [a]]
      simp

variable [BEq α] [LawfulBEq α]

theorem eraseReps_cons_self (a : α) (l : List α) : (a :: a :: l).eraseReps = (a :: l).eraseReps := by
  simp [List.eraseReps, List.eraseRepsBy, List.eraseRepsBy.loop]

theorem eraseReps_cons_of_ne (h : a ≠ b) (l : List α) :
    (a :: b :: l).eraseReps = a :: (b :: l).eraseReps := by
  have hab : (a == b) = false := beq_false_of_ne h
  simp only [List.eraseReps, List.eraseRepsBy, List.eraseRepsBy.loop, hab]
  rw [eraseRepsBy_loop]
  rfl

theorem mem_eraseReps : a ∈ l.eraseReps ↔ a ∈ l := by
  induction l with
  | nil => rfl
  | cons b l ih =>
    cases l with
    | nil => rfl
    | cons c l =>
      by_cases h : b = c
      · subst h
        rw [eraseReps_cons_self, ih]
        simp
      · rw [eraseReps_cons_of_ne h, List.mem_cons, ih, List.mem_cons (b := b)]

theorem singleton_prefix_eraseReps (a : α) (l : List α) : [a] <+: (a :: l).eraseReps := by
  induction l with
  | nil => exact List.prefix_rfl
  | cons b l ih =>
    by_cases h : a = b
    · subst h
      rw [eraseReps_cons_self]
      exact ih
    · rw [eraseReps_cons_of_ne h]
      exact ⟨_, rfl⟩

theorem eraseReps_prefix_append (l m : List α) : l.eraseReps <+: (l ++ m).eraseReps := by
  induction l with
  | nil => exact List.nil_prefix
  | cons a l ih =>
    cases l with
    | nil => exact singleton_prefix_eraseReps a m
    | cons b l =>
      by_cases h : a = b
      · subst h
        simpa only [List.cons_append, eraseReps_cons_self] using ih
      · simp only [List.cons_append, eraseReps_cons_of_ne h]
        exact (List.prefix_cons_inj a).mpr ih

theorem eraseReps_append_self (a : α) (l : List α) :
    (l ++ [a, a]).eraseReps = (l ++ [a]).eraseReps := by
  induction l with
  | nil => exact eraseReps_cons_self a []
  | cons b l ih =>
    cases l with
    | nil =>
      by_cases h : b = a
      · subst h
        exact eraseReps_cons_self b [b]
      · simp only [List.cons_append, List.nil_append, eraseReps_cons_of_ne h, eraseReps_cons_self]
    | cons c l =>
      by_cases h : b = c
      · subst h
        simpa only [List.cons_append, eraseReps_cons_self] using ih
      · simp only [List.cons_append, eraseReps_cons_of_ne h] at ih ⊢
        rw [ih]

theorem eraseReps_append_of_ne (h : a ≠ b) (l : List α) :
    (l ++ [a, b]).eraseReps = (l ++ [a]).eraseReps ++ [b] := by
  induction l with
  | nil => exact eraseReps_cons_of_ne h []
  | cons c l ih =>
    cases l with
    | nil =>
      by_cases hc : c = a
      · subst hc
        simpa only [List.cons_append, List.nil_append, eraseReps_cons_self] using ih
      · simp only [List.cons_append, List.nil_append, eraseReps_cons_of_ne hc] at ih ⊢
        rw [ih]
    | cons d l =>
      by_cases hc : c = d
      · subst hc
        simpa only [List.cons_append, eraseReps_cons_self] using ih
      · simp only [List.cons_append, eraseReps_cons_of_ne hc] at ih ⊢
        rw [ih]

theorem eraseReps_reverse (l : List α) : l.reverse.eraseReps = l.eraseReps.reverse := by
  induction l with
  | nil => rfl
  | cons a l ih =>
    cases l with
    | nil => rfl
    | cons b l =>
      simp only [List.reverse_cons, List.append_assoc, List.cons_append, List.nil_append] at ih ⊢
      by_cases h : a = b
      · subst h
        rw [eraseReps_append_self, eraseReps_cons_self, ih]
      · rw [eraseReps_append_of_ne (Ne.symm h), eraseReps_cons_of_ne h, List.reverse_cons, ih]

theorem eraseReps_eraseReps_append (l m : List α) :
    (l.eraseReps ++ m).eraseReps = (l ++ m).eraseReps := by
  induction l with
  | nil => rfl
  | cons a l ih =>
    cases l with
    | nil => rfl
    | cons b l =>
      by_cases h : a = b
      · subst h
        simpa only [List.cons_append, eraseReps_cons_self] using ih
      · obtain ⟨t, ht⟩ := singleton_prefix_eraseReps b l
        rw [eraseReps_cons_of_ne h]
        simp only [← ht, List.cons_append, List.nil_append, eraseReps_cons_of_ne h] at ih ⊢
        rw [ih]

theorem pairwise_of_eraseReps (refl : ∀ a, R a a) (h : l.eraseReps.Pairwise R) : l.Pairwise R := by
  induction l with
  | nil => exact .nil
  | cons a l ih =>
    cases l with
    | nil => exact List.pairwise_singleton _ _
    | cons b l =>
      by_cases hab : a = b
      · subst hab
        rw [eraseReps_cons_self] at h
        refine List.pairwise_cons.mpr ⟨fun x hx => ?_, ih h⟩
        rcases List.mem_cons.mp hx with rfl | hx
        · exact refl x
        · exact List.rel_of_pairwise_cons (ih h) hx
      · rw [eraseReps_cons_of_ne hab] at h
        obtain ⟨ha, hl⟩ := List.pairwise_cons.mp h
        exact List.pairwise_cons.mpr ⟨fun x hx => ha x (mem_eraseReps.mpr hx), ih hl⟩

theorem pairwise_eraseReps (anti : ∀ a b, R a b → R b a → a = b) (h : l.Pairwise R) :
    l.eraseReps.Pairwise fun a b => R a b ∧ a ≠ b := by
  induction l with
  | nil => exact .nil
  | cons a l ih =>
    obtain ⟨ha, hl⟩ := List.pairwise_cons.mp h
    cases l with
    | nil => exact List.pairwise_singleton _ _
    | cons b l =>
      by_cases hab : a = b
      · subst hab
        rw [eraseReps_cons_self]
        exact ih hl
      · rw [eraseReps_cons_of_ne hab]
        refine List.pairwise_cons.mpr ⟨fun x hx => ?_, ih hl⟩
        have hx' := mem_eraseReps.mp hx
        refine ⟨ha x hx', ?_⟩
        rintro rfl
        rcases List.mem_cons.mp hx' with rfl | hmem
        · exact hab rfl
        · exact hab (anti _ _ (ha b List.mem_cons_self) (List.rel_of_pairwise_cons hl hmem))

theorem pairwise_eraseReps_iff (refl : ∀ a, R a a) (anti : ∀ a b, R a b → R b a → a = b) :
    (l.eraseReps.Pairwise fun a b => R a b ∧ a ≠ b) ↔ l.Pairwise R :=
  ⟨fun h => pairwise_of_eraseReps refl (h.imp And.left), pairwise_eraseReps anti⟩

theorem eraseDups_concat (l : List α) (a : α) :
    (l ++ [a]).eraseDups = if l.contains a then l.eraseDups else l.eraseDups ++ [a] := by
  rw [List.eraseDups_append, List.removeAll, List.filter_cons, List.filter_nil,
    List.elem_eq_contains]
  cases l.contains a with
  | true => exact List.append_nil _
  | false => rfl

theorem nodup_eraseDups (l : List α) : l.eraseDups.Nodup := by
  induction hn : l.length using Nat.strongRecOn generalizing l with
  | ind n ih =>
    cases l with
    | nil => exact .nil
    | cons a l =>
      rw [List.eraseDups_cons]
      refine List.nodup_cons.mpr ⟨fun h => ?_, ih _ ?_ _ rfl⟩
      · have := (List.mem_filter.mp (List.mem_eraseDups.mp h)).2
        simp at this
      · rw [← hn]
        exact Nat.lt_succ_of_le (List.length_filter_le _ _)

theorem lookup_of_mem {β : Type} {l : List (α × β)} {b : β} (h : (l.map Prod.fst).Nodup)
    (hmem : (a, b) ∈ l) : l.lookup a = some b := by
  induction l with
  | nil => simp at hmem
  | cons e l ih =>
    obtain ⟨hfirst, hrest⟩ := List.nodup_cons.mp h
    rcases List.mem_cons.mp hmem with rfl | hmem
    · exact List.lookup_cons_self
    · have hne : (a == e.1) = false := by
        apply beq_false_of_ne
        rintro rfl
        exact hfirst (List.mem_map.mpr ⟨_, hmem, rfl⟩)
      rw [List.lookup_cons, hne]
      exact ih hrest hmem

end repeats

section sorting

variable {α : Type} {le : α → α → Bool} {p : α → Bool} {l : List α}

theorem pairwise_mergeSort_key (k : α → Nat) (l : List α) :
    (l.mergeSort fun a b => k a ≤ k b).Pairwise fun a b => k a ≤ k b := by
  have h : (l.mergeSort fun a b => decide (k a ≤ k b)).Pairwise fun a b =>
      decide (k a ≤ k b) = true :=
    List.pairwise_mergeSort (by simp; omega) (by simp; omega) l
  simpa using h

theorem filter_mergeSort (trans : ∀ a b c, le a b = true → le b c = true → le a c = true)
    (total : ∀ a b, (le a b || le b a) = true)
    (h : (l.filter p).Pairwise fun a b => le a b = true) :
    (l.mergeSort le).filter p = l.filter p := by
  have hsub := (List.sublist_mergeSort trans total h List.filter_sublist).filter p
  rw [List.filter_filter] at hsub
  simp only [Bool.and_self] at hsub
  exact (hsub.eq_of_length ((List.mergeSort_perm l le).filter p).length_eq.symm).symm

theorem max?_map_add (l : List Nat) (n : Nat) : (l.map (· + n)).max? = l.max?.map (· + n) := by
  cases l with
  | nil => rfl
  | cons x l =>
    simp only [List.map_cons, List.max?_cons', List.foldl_map, Option.map_some, Option.some.injEq]
    exact List.foldl_hom (· + n) fun x y => Nat.add_max_add_right x y n

end sorting

section grouping

variable {α β : Type} [BEq β] [LawfulBEq β]

theorem flatMap_filter_perm (key : α → β) (l : List α) {keys : List β} (h : keys.Nodup) :
    (keys.flatMap fun k => l.filter fun a => key a == k).Perm
      (l.filter fun a => keys.contains (key a)) := by
  induction keys with
  | nil => simp
  | cons k keys ih =>
    obtain ⟨hk, hkeys⟩ := List.nodup_cons.mp h
    have hsplit := List.filter_append_perm (fun a => key a == k)
      (l.filter fun a => (k :: keys).contains (key a))
    rw [List.filter_filter, List.filter_filter] at hsplit
    have hfirst : (l.filter fun a => key a == k && (k :: keys).contains (key a)) =
        l.filter fun a => key a == k := by
      apply List.filter_congr
      intro a _
      by_cases ha : key a = k <;> simp [ha]
    have hrest : (l.filter fun a => !(key a == k) && (k :: keys).contains (key a)) =
        l.filter fun a => keys.contains (key a) := by
      apply List.filter_congr
      intro a _
      by_cases ha : key a = k <;> simp [ha, hk]
    rw [hfirst, hrest] at hsplit
    rw [List.flatMap_cons]
    exact ((ih hkeys).append_left _).trans hsplit

end grouping

section last

variable {α : Type} {p q : α → Bool} {l : List α} {a : α}

theorem findRev?_concat (p : α → Bool) (l : List α) (a : α) :
    (l ++ [a]).findRev? p = if p a then some a else l.findRev? p := by
  rw [List.findRev?_eq_find?_reverse, List.reverse_concat, List.find?_cons,
    ← List.findRev?_eq_find?_reverse]
  cases p a <;> rfl

theorem findRev?_spec (h : l.findRev? p = some a) : a ∈ l ∧ p a = true := by
  rw [List.findRev?_eq_find?_reverse] at h
  exact ⟨List.mem_reverse.mp (List.mem_of_find?_eq_some h), List.find?_some h⟩

theorem findRev?_eq_none_iff : l.findRev? p = none ↔ ∀ a ∈ l, p a = false := by
  simp [List.findRev?_eq_find?_reverse]

theorem findRev?_of_findRev? (h : l.findRev? p = some a) (hq : q a = true) :
    ∃ b, l.findRev? q = some b ∧ (b = a ∨ p b = false) := by
  rw [List.findRev?_eq_find?_reverse] at h ⊢
  obtain ⟨-, after, before, hl, hafter⟩ := List.find?_eq_some_iff_append.mp h
  rw [hl, List.find?_append, List.find?_cons, hq]
  cases hb : after.find? q with
  | none => exact ⟨a, rfl, .inl rfl⟩
  | some b => exact ⟨b, rfl, .inr (by simpa using hafter b (List.mem_of_find?_eq_some hb))⟩

end last

section counting

variable {n k i : Nat} {q : Nat → Bool}

theorem countP_of_getElem?_filter (h : ((List.range n).filter q)[k]? = some i) :
    q i = true ∧ i < n ∧ (List.range i).countP q = k := by
  induction n with
  | zero => simp at h
  | succ n ih =>
    rw [List.range_succ, List.filter_append] at h
    rcases Nat.lt_or_ge k ((List.range n).filter q).length with hk | hk
    · rw [List.getElem?_append_left hk] at h
      obtain ⟨hq, hi, hcount⟩ := ih h
      exact ⟨hq, Nat.lt_succ_of_lt hi, hcount⟩
    · rw [List.getElem?_append_right hk] at h
      obtain ⟨hq, rfl, hzero⟩ : q n = true ∧ i = n ∧ k - ((List.range n).filter q).length = 0 := by
        by_cases hq : q n = true
        · rw [List.filter_cons_of_pos hq, List.filter_nil, List.getElem?_singleton] at h
          split at h
          · next hzero => exact ⟨hq, (Option.some.inj h).symm, hzero⟩
          · simp at h
        · simp [hq] at h
      refine ⟨hq, Nat.lt_succ_self i, ?_⟩
      rw [List.countP_eq_length_filter]
      omega

end counting

end Caret
