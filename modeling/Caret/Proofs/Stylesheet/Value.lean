import Caret.Proofs.Stylesheet.Token
import Caret.Stylesheet.Value

namespace Caret.Stylesheet

open Text

def isGap (c : Char) : Bool := isSeparator c || c == ')'

def strings (code : Bytes) (stop i : Nat) : List Span :=
  if i < stop then
    match at? code i with
    | none => strings code stop (i + 1)
    | some c =>
      if isQuote c then
        let next := max (i + 1) (quotedEnd c code stop (i + 1))
        ⟨i, next⟩ :: strings code stop next
      else strings code stop (i + 1)
  else []
termination_by stop - i
decreasing_by all_goals omega

/-- How many parentheses are open before `k`, of those met outside of strings on the way from `i` on,
where `depth` are open already. One that closes where none is open is passed over. -/
def depthAt (code : Bytes) (stop k i depth : Nat) : Nat :=
  if i < k then
    match at? code i with
    | none => depthAt code stop k (i + 1) depth
    | some c =>
      if isQuote c then depthAt code stop k (max (i + 1) (quotedEnd c code stop (i + 1))) depth
      else if c = '(' then depthAt code stop k (i + 1) (depth + 1)
      else if c = ')' then depthAt code stop k (i + 1) (depth - 1)
      else depthAt code stop k (i + 1) depth
  else depth
termination_by k - i
decreasing_by all_goals omega

variable {code : Bytes} {stop i k next depth depth' : Nat} {start : Option Nat} {parts : List Span}
  {c : Char}

theorem splitFrom_of_at? (hi : i < stop) (hc : at? code i = some c) :
    splitFrom code stop i depth start =
      if isQuote c then
        splitFrom code stop (max (i + 1) (quotedEnd c code stop (i + 1))) depth (start <|> some i)
      else if c = '(' then splitFrom code stop (i + 1) (depth + 1) (start <|> some i)
      else if c = ')' then splitFrom code stop (i + 1) (depth - 1) start
      else if isSeparator c ∧ depth = 0 then
        (start.map (⟨·, i⟩ : Nat → Span)).toList ++ splitFrom code stop (i + 1) depth none
      else splitFrom code stop (i + 1) depth (start <|> some i) := by
  rw [splitFrom, if_pos hi]
  simp only [hc]

theorem strings_of_at? (hi : i < stop) (hc : at? code i = some c) :
    strings code stop i =
      if isQuote c then
        ⟨i, max (i + 1) (quotedEnd c code stop (i + 1))⟩ ::
          strings code stop (max (i + 1) (quotedEnd c code stop (i + 1)))
      else strings code stop (i + 1) := by
  rw [strings, if_pos hi]
  simp only [hc]

theorem depthAt_of_at? (hi : i < k) (hc : at? code i = some c) :
    depthAt code stop k i depth =
      if isQuote c then depthAt code stop k (max (i + 1) (quotedEnd c code stop (i + 1))) depth
      else if c = '(' then depthAt code stop k (i + 1) (depth + 1)
      else if c = ')' then depthAt code stop k (i + 1) (depth - 1)
      else depthAt code stop k (i + 1) depth := by
  rw [depthAt, if_pos hi]
  simp only [hc]

theorem depthAt_self (code : Bytes) (stop i depth : Nat) : depthAt code stop i i depth = depth := by
  rw [depthAt, if_neg (Nat.lt_irrefl i)]

/-- What a part may hold at `k`: something in a string or in parentheses. -/
def Guarded (code : Bytes) (stop i depth k : Nat) : Prop :=
  (∃ s ∈ strings code stop i, s.contains k = true) ∨ 0 < depthAt code stop k i depth

inductive Step (code : Bytes) (stop i depth : Nat) : Prop
  | takes (next depth' : Nat) (lt : i < next) (le : next ≤ stop)
      (split : ∀ stop' start, next ≤ stop' → stop' ≤ stop → splitFrom code stop' i depth start =
        splitFrom code stop' next depth' (start <|> some i))
      (same : strings code stop i = strings code stop next ∨
        strings code stop i = ⟨i, next⟩ :: strings code stop next)
      (depths : ∀ k, next ≤ k → depthAt code stop k i depth = depthAt code stop k next depth')
      (guarded : ∀ k, i ≤ k → k < next → test isSeparator code k = true →
        Guarded code stop i depth k)
  | passes (closes : at? code i = some ')')
      (split : ∀ stop' start, i < stop' → stop' ≤ stop → splitFrom code stop' i depth start =
        splitFrom code stop' (i + 1) (depth - 1) start)
      (same : strings code stop i = strings code stop (i + 1))
      (depths : ∀ k, i < k →
        depthAt code stop k i depth = depthAt code stop k (i + 1) (depth - 1))
  | separates (separator : test isSeparator code i = true)
      (split : ∀ start, splitFrom code stop i depth start =
        (start.map (⟨·, i⟩ : Nat → Span)).toList ++ splitFrom code stop (i + 1) 0 none)
      (same : strings code stop i = strings code stop (i + 1))

theorem step_quote (hi : i < stop) (hc : at? code i = some c) (hquote : isQuote c = true)
    (depth : Nat) : Step code stop i depth := by
  have hstrings := strings_of_at? hi hc
  have hle := le_quotedEnd c code stop (i + 1)
  have hend := quotedEnd_le c code stop (i + 1)
  have hnext : max (i + 1) (quotedEnd c code stop (i + 1)) = quotedEnd c code stop (i + 1) := by
    omega
  rw [if_pos hquote, hnext] at hstrings
  refine .takes (quotedEnd c code stop (i + 1)) depth (by omega) hend ?_ (.inr hstrings) ?_ ?_
  · intro stop' start hle' hstop'
    rw [splitFrom_of_at? (by omega) hc, if_pos hquote, quotedEnd_of_le hle' hstop', hnext]
  · intro k hk
    rw [depthAt_of_at? (by omega) hc, if_pos hquote, hnext]
  · intro k hik hk _
    exact .inl ⟨_, hstrings ▸ List.mem_cons_self, Span.contains_iff.mpr ⟨hik, hk⟩⟩

theorem guarded_self (hdepth : test isSeparator code i = true → 0 < depth) :
    ∀ k, i ≤ k → k < i + 1 → test isSeparator code k = true → Guarded code stop i depth k := by
  intro k hik hk hseparator
  obtain rfl : i = k := Nat.le_antisymm hik (Nat.le_of_lt_succ hk)
  exact .inr ((depthAt_self code stop i depth).symm ▸ hdepth hseparator)

theorem step (hi : i < stop) (hs : stop ≤ code.size) (depth : Nat) : Step code stop i depth := by
  obtain ⟨c, hc⟩ := at?_of_lt (Nat.lt_of_lt_of_le hi hs)
  by_cases hquote : isQuote c = true
  · exact step_quote hi hc hquote depth
  have hstrings := strings_of_at? hi hc
  rw [if_neg hquote] at hstrings
  by_cases hopen : c = '('
  · refine .takes (i + 1) (depth + 1) (Nat.lt_succ_self i) hi ?_ (.inl hstrings) ?_
      (guarded_self fun h => ?_)
    · intro stop' start hlt _
      rw [splitFrom_of_at? hlt hc, if_neg hquote, if_pos hopen]
    · intro k hk
      rw [depthAt_of_at? hk hc, if_neg hquote, if_pos hopen]
    · rw [test_of_at? hc, hopen] at h
      contradiction
  by_cases hclose : c = ')'
  · refine .passes (hclose ▸ hc) ?_ hstrings ?_
    · intro stop' start hlt _
      rw [splitFrom_of_at? hlt hc, if_neg hquote, if_neg hopen, if_pos hclose]
    · intro k hk
      rw [depthAt_of_at? hk hc, if_neg hquote, if_neg hopen, if_pos hclose]
  by_cases hseparator : isSeparator c = true ∧ depth = 0
  · refine .separates ((test_of_at? hc).trans hseparator.1) ?_ hstrings
    intro start
    rw [splitFrom_of_at? hi hc, if_neg hquote, if_neg hopen, if_neg hclose, if_pos hseparator,
      hseparator.2]
  · refine .takes (i + 1) depth (Nat.lt_succ_self i) hi ?_ (.inl hstrings) ?_
      (guarded_self fun h => ?_)
    · intro stop' start hlt _
      rw [splitFrom_of_at? hlt hc, if_neg hquote, if_neg hopen, if_neg hclose, if_neg hseparator]
    · intro k hk
      rw [depthAt_of_at? hk hc, if_neg hquote, if_neg hopen, if_neg hclose]
    · rw [test_of_at? hc] at h
      exact Nat.pos_of_ne_zero fun hdepth => hseparator ⟨h, hdepth⟩

theorem isGap_of_separator (h : test isSeparator code i = true) : test isGap code i = true := by
  obtain ⟨c, hc, hseparator⟩ := test_iff.mp h
  rw [test_of_at? hc, isGap, hseparator, Bool.true_or]

structure Parted (code : Bytes) (stop i : Nat) (start : Option Nat) (parts : List Span) : Prop where
  bounds : ∀ p ∈ parts, start.getD i ≤ p.start ∧ p.start < p.stop ∧ p.stop ≤ stop
  ordered : parts.Pairwise fun p q => p.stop ≤ q.start
  begun : ∀ b, start = some b → ∃ e rest, parts = ⟨b, e⟩ :: rest ∧ i ≤ e
  outside : ∀ k, i ≤ k → k < stop → (∃ p ∈ parts, p.contains k = true) ∨ test isGap code k = true
  ends : ∀ p ∈ parts, p.stop = stop ∨ test isSeparator code p.stop = true
  uncut : ∀ s ∈ strings code stop i, ∃ p ∈ parts, p.covers s = true
  again : ∀ p ∈ parts, splitFrom code p.stop p.start 0 none = [p]

theorem Parted.takes (h : Parted code stop next (start <|> some i) parts) (hi : start.getD i ≤ i)
    (hlt : i < next) (hstrings : strings code stop i = strings code stop next ∨
      strings code stop i = ⟨i, next⟩ :: strings code stop next) :
    Parted code stop i start parts := by
  have hbegun : (start <|> some i) = some (start.getD i) := by cases start <;> rfl
  obtain ⟨e, rest, hparts, hle⟩ := h.begun _ hbegun
  have hmem : (⟨start.getD i, e⟩ : Span) ∈ parts := hparts ▸ List.mem_cons_self
  refine { h with bounds := ?_, begun := ?_, outside := ?_, uncut := ?_ }
  · intro p hp
    have := h.bounds p hp
    rwa [hbegun] at this
  · rintro b rfl
    exact ⟨e, rest, hparts, by omega⟩
  · intro k hik hk
    rcases Nat.lt_or_ge k next with hin | hout
    · exact .inl ⟨_, hmem, Span.contains_iff.mpr ⟨by simp only; omega, by simp only; omega⟩⟩
    · exact h.outside k hout hk
  · intro s hs
    rcases hstrings with hsame | hcons
    · exact h.uncut s (hsame ▸ hs)
    · rcases List.mem_cons.mp (hcons ▸ hs) with rfl | hs
      · exact ⟨_, hmem, Span.covers_iff.mpr ⟨hi, hle⟩⟩
      · exact h.uncut s hs

theorem Parted.passes (h : Parted code stop (i + 1) start parts) (hgap : test isGap code i = true)
    (hstrings : strings code stop i = strings code stop (i + 1)) :
    Parted code stop i start parts := by
  refine { h with bounds := ?_, begun := ?_, outside := ?_, uncut := hstrings ▸ h.uncut }
  · intro p hp
    obtain ⟨hle, hrest⟩ := h.bounds p hp
    refine ⟨Nat.le_trans ?_ hle, hrest⟩
    cases start with
    | none => exact Nat.le_succ i
    | some b => exact Nat.le_refl b
  · intro b hb
    obtain ⟨e, rest, hparts, hle⟩ := h.begun b hb
    exact ⟨e, rest, hparts, Nat.le_of_succ_le hle⟩
  · intro k hik hk
    rcases Nat.eq_or_lt_of_le hik with rfl | hlt
    · exact .inr hgap
    · exact h.outside k hlt hk

theorem Parted.separates (h : Parted code stop (i + 1) none parts) (hi : i < stop)
    (hstart : ∀ b, start = some b → b < i ∧ splitFrom code i b 0 none = [⟨b, i⟩])
    (hseparator : test isSeparator code i = true)
    (hstrings : strings code stop i = strings code stop (i + 1)) :
    Parted code stop i start ((start.map (⟨·, i⟩ : Nat → Span)).toList ++ parts) := by
  cases start with
  | none => exact h.passes (isGap_of_separator hseparator) hstrings
  | some b =>
    obtain ⟨hlt, hagain⟩ := hstart b rfl
    have hrest := h.passes (isGap_of_separator hseparator) hstrings
    simp only [Option.map_some, Option.toList_some, List.singleton_append]
    exact
      { bounds := by
          refine List.forall_mem_cons.mpr ⟨⟨Nat.le_refl b, hlt, Nat.le_of_lt hi⟩, fun p hp => ?_⟩
          obtain ⟨hle, hbounds⟩ := hrest.bounds p hp
          exact ⟨Nat.le_trans (Nat.le_of_lt hlt) hle, hbounds⟩
        ordered := List.pairwise_cons.mpr ⟨fun p hp => (hrest.bounds p hp).1, h.ordered⟩
        begun := by
          rintro _ ⟨⟩
          exact ⟨i, parts, rfl, Nat.le_refl i⟩
        outside := fun k hik hk => (hrest.outside k hik hk).imp_left fun ⟨p, hp, hc⟩ =>
          ⟨p, List.mem_cons_of_mem _ hp, hc⟩
        ends := List.forall_mem_cons.mpr ⟨.inr hseparator, h.ends⟩
        uncut := fun s hs =>
          let ⟨p, hp, hc⟩ := hrest.uncut s hs
          ⟨p, List.mem_cons_of_mem _ hp, hc⟩
        again := List.forall_mem_cons.mpr ⟨hagain, h.again⟩ }

def Resumes (code : Bytes) (stop i depth b : Nat) : Prop :=
  ∀ e, i ≤ e → e ≤ stop → splitFrom code e b 0 none = splitFrom code e i depth (some b)

theorem splitFrom_stop (code : Bytes) (stop depth : Nat) (start : Option Nat) :
    splitFrom code stop stop depth start = (start.map (⟨·, stop⟩ : Nat → Span)).toList := by
  rw [splitFrom, if_neg (Nat.lt_irrefl stop)]

theorem Resumes.part_eq {b : Nat} (h : Resumes code stop i depth b) (hi : i ≤ stop) :
    splitFrom code i b 0 none = [⟨b, i⟩] := by
  rw [h i (Nat.le_refl i) hi, splitFrom_stop]
  rfl

theorem parted_stop (hstart : ∀ b, start = some b → b < stop ∧ Resumes code stop stop depth b) :
    Parted code stop stop start (splitFrom code stop stop depth start) := by
  have hstrings : strings code stop stop = [] := by rw [strings, if_neg (Nat.lt_irrefl stop)]
  have hend : ∀ k, stop ≤ k → ¬k < stop := fun _ => Nat.not_lt_of_le
  rw [splitFrom_stop]
  cases start with
  | none =>
    exact
      { bounds := by simp
        ordered := .nil
        begun := by simp
        outside := fun k hk hlt => absurd hlt (hend k hk)
        ends := by simp
        uncut := by simp [hstrings]
        again := by simp }
  | some b =>
    obtain ⟨hlt, hresumes⟩ := hstart b rfl
    simp only [Option.map_some, Option.toList_some]
    exact
      { bounds := List.forall_mem_singleton.mpr ⟨Nat.le_refl b, hlt, Nat.le_refl stop⟩
        ordered := List.pairwise_singleton _ _
        begun := by
          rintro _ ⟨⟩
          exact ⟨stop, [], rfl, Nat.le_refl stop⟩
        outside := fun k hk hlt => absurd hlt (hend k hk)
        ends := List.forall_mem_singleton.mpr (.inl rfl)
        uncut := by simp [hstrings]
        again := List.forall_mem_singleton.mpr (hresumes.part_eq (Nat.le_refl stop)) }

theorem splitFrom_parted (hs : stop ≤ code.size) (hi : i ≤ stop) (hdepth : start = none → depth = 0)
    (hstart : ∀ b, start = some b → b < i ∧ Resumes code stop i depth b) :
    Parted code stop i start (splitFrom code stop i depth start) := by
  -- on what is left to read; a part that has begun is carried along as one that can be resumed
  induction hn : stop - i using Nat.strongRecOn generalizing i depth start with
  | _ n ih =>
    rcases Nat.eq_or_lt_of_le hi with rfl | hlt
    · exact parted_stop hstart
    cases step hlt hs depth with
    | takes next depth' hnext hle hsplit hstrings _ _ =>
      have hbegun : start.getD i ≤ i := by
        cases start with
        | none => exact Nat.le_refl i
        | some b => exact Nat.le_of_lt (hstart b rfl).1
      rw [hsplit stop start hle (Nat.le_refl stop)]
      refine (ih _ (by omega) hle (by cases start <;> simp) (fun b hb => ?_) rfl).takes hbegun hnext
        hstrings
      cases start with
      | none =>
        obtain rfl : i = b := by simpa using hb
        refine ⟨hnext, fun e hne he => ?_⟩
        have hfirst := hsplit e none hne he
        rwa [hdepth rfl] at hfirst
      | some a =>
        obtain rfl : a = b := by simpa using hb
        obtain ⟨hai, hresumes⟩ := hstart a rfl
        refine ⟨Nat.lt_trans hai hnext, fun e hne he => ?_⟩
        rw [hresumes e (by omega) he]
        exact hsplit e (some a) hne he
    | passes hclose hsplit hstrings _ =>
      have hgap : test isGap code i = true := test_of_at? hclose
      rw [hsplit stop start hlt (Nat.le_refl stop)]
      refine (ih _ (by omega) hlt (fun h => ?_) (fun b hb => ?_) rfl).passes hgap hstrings
      · rw [hdepth h]
      · obtain ⟨hbi, hresumes⟩ := hstart b hb
        refine ⟨Nat.lt_succ_of_lt hbi, fun e hie he => ?_⟩
        rw [hresumes e (Nat.le_of_succ_le hie) he, hsplit e (some b) hie he]
    | separates hseparator hsplit hstrings =>
      rw [hsplit start]
      refine (ih _ (by omega) hlt (fun _ => rfl) (by simp) rfl).separates hlt (fun b hb => ?_)
        hseparator hstrings
      exact (hstart b hb).imp_right fun hresumes => hresumes.part_eq hi

theorem Guarded.of_takes (hstrings : strings code stop i = strings code stop next ∨
      strings code stop i = ⟨i, next⟩ :: strings code stop next)
    (hdepths : depthAt code stop k i depth = depthAt code stop k next depth')
    (h : Guarded code stop next depth' k) : Guarded code stop i depth k := by
  rcases h with ⟨s, hs, hk⟩ | hopen
  · refine .inl ⟨s, ?_, hk⟩
    rcases hstrings with hsame | hcons
    · exact hsame ▸ hs
    · exact hcons ▸ List.mem_cons_of_mem _ hs
  · exact .inr (hdepths ▸ hopen)

theorem guarded_of_splitFrom {b : Nat} (hs : stop ≤ code.size) (hi : i ≤ stop)
    (h : splitFrom code stop i depth (some b) = [⟨b, stop⟩]) (hik : i ≤ k) (hk : k < stop)
    (hseparator : test isSeparator code k = true) : Guarded code stop i depth k := by
  induction hn : stop - i using Nat.strongRecOn generalizing i depth with
  | _ n ih =>
    cases step (Nat.lt_of_le_of_lt hik hk) hs depth with
    | takes next depth' hnext hle hsplit hstrings hdepths hguarded =>
      rcases Nat.lt_or_ge k next with hin | hout
      · exact hguarded k hik hin hseparator
      · rw [hsplit stop (some b) hle (Nat.le_refl stop)] at h
        exact (ih _ (by omega) hle h hout rfl).of_takes hstrings (hdepths k hout)
    | passes hclose hsplit hstrings hdepths =>
      rw [hsplit stop (some b) (by omega) (Nat.le_refl stop)] at h
      have hne : i ≠ k := by
        rintro rfl
        rw [test_of_at? hclose] at hseparator
        contradiction
      have hout : i + 1 ≤ k := Nat.lt_of_le_of_ne hik hne
      exact (ih _ (by omega) (by omega) h hout rfl).of_takes (.inl hstrings) (hdepths k hout)
    | separates _ hsplit _ =>
      -- the part would end here
      rw [hsplit (some b)] at h
      have hstop : i = stop := congrArg Span.stop (List.cons.inj h).1
      omega

theorem guarded_of_mem {p : Span} (hs : p.stop ≤ code.size)
    (h : splitFrom code p.stop p.start 0 none = [p]) (hk : p.contains k = true)
    (hseparator : test isSeparator code k = true) : Guarded code p.stop p.start 0 k := by
  obtain ⟨hstart, hstop⟩ := Span.contains_iff.mp hk
  -- a part cannot begin later than where it is read from
  have hfirst : splitFrom code p.stop (p.start + 1) 0 none ≠ [p] := fun hp => by
    have hbounds := (splitFrom_parted hs (by omega) (fun _ => rfl) (by simp)).bounds p
      (hp ▸ List.mem_singleton_self p)
    exact Nat.lt_irrefl _ hbounds.1
  cases step (Nat.lt_of_le_of_lt hstart hstop) hs 0 with
  | takes next depth' _ hle hsplit hstrings hdepths hguarded =>
    rcases Nat.lt_or_ge k next with hin | hout
    · exact hguarded k hstart hin hseparator
    · rw [hsplit p.stop none hle (Nat.le_refl _)] at h
      exact (guarded_of_splitFrom hs hle h hout hstop hseparator).of_takes hstrings (hdepths k hout)
  | passes _ hsplit _ _ =>
    exact absurd ((hsplit p.stop none (by omega) (Nat.le_refl _)).symm.trans h) hfirst
  | separates _ hsplit _ => exact absurd ((hsplit none).symm.trans h) hfirst

theorem splitValue_parted (code : Bytes) {value : Span} (hle : value.start ≤ value.stop)
    (hs : value.stop ≤ code.size) :
    Parted code value.stop value.start none (splitValue code value) := by
  rw [splitValue, Nat.min_eq_left hs]
  exact splitFrom_parted hs hle (fun _ => rfl) (by simp)

/-- The parts of a value are not empty and stand one after another in it. Outside of them there are
blanks, commas, slashes and closing parentheses only, so that each opening parenthesis and each
quote is in a part, and a string is in one part as a whole. A part ends before a separator or with
the value, has no other parts than itself, and no separators but in its strings and parentheses. -/
theorem splitValue_separated (code : Bytes) {value : Span} (hle : value.start ≤ value.stop)
    (hs : value.stop ≤ code.size) :
    let parts := splitValue code value
    (∀ p ∈ parts, p.start < p.stop ∧ value.covers p = true) ∧
      parts.Pairwise (fun p q => p.stop ≤ q.start) ∧
      (∀ k, value.contains k = true → (∀ p ∈ parts, p.contains k = false) →
        test (fun c => c == ',' || c == '/' || isBlank c || c == ')') code k = true) ∧
      (∀ k, value.contains k = true → test (fun c => c == '(' || isQuote c) code k = true →
        ∃ p ∈ parts, p.contains k = true) ∧
      (∀ s ∈ strings code value.stop value.start, ∃ p ∈ parts, p.covers s = true) ∧
      (∀ p ∈ parts, splitValue code p = [p]) ∧
      (∀ p ∈ parts, p.stop = value.stop ∨ test isSeparator code p.stop = true) ∧
      ∀ p ∈ parts, ∀ k, p.contains k = true → test isSeparator code k = true →
        (∃ s ∈ strings code p.stop p.start, s.contains k = true) ∨
          0 < depthAt code p.stop k p.start 0 := by
  intro parts
  have h := splitValue_parted code hle hs
  refine ⟨fun p hp => ?_, h.ordered, fun k hk hout => ?_, fun k hk hopen => ?_, h.uncut,
    fun p hp => ?_, h.ends, fun p hp k hk hseparator => ?_⟩
  · obtain ⟨hstart, hlt, hstop⟩ := h.bounds p hp
    exact ⟨hlt, Span.covers_iff.mpr ⟨hstart, hstop⟩⟩
  · obtain ⟨hstart, hstop⟩ := Span.contains_iff.mp hk
    refine (h.outside k hstart hstop).resolve_left ?_
    rintro ⟨p, hp, hin⟩
    exact Bool.false_ne_true ((hout p hp).symm.trans hin)
  · obtain ⟨hstart, hstop⟩ := Span.contains_iff.mp hk
    refine (h.outside k hstart hstop).resolve_right fun hgap => ?_
    obtain ⟨c, hc, hg⟩ := test_iff.mp hgap
    rw [test_of_at? hc] at hopen
    simp only [Bool.or_eq_true, isQuote_iff, beq_iff_eq] at hopen
    rcases hopen with rfl | rfl | rfl <;> exact absurd hg (by decide)
  · rw [splitValue, Nat.min_eq_left (Nat.le_trans (h.bounds p hp).2.2 hs)]
    exact h.again p hp
  · exact guarded_of_mem (Nat.le_trans (h.bounds p hp).2.2 hs) (h.again p hp) hk hseparator

theorem splitValue_separated_unclosed :
    let code := bytes ")1px/f(a, b) \"c, d"
    let value : Span := ⟨0, 18⟩
    value.start ≤ value.stop ∧ value.stop ≤ code.size ∧
      splitValue code value = [⟨1, 4⟩, ⟨5, 12⟩, ⟨13, 18⟩] ∧
      (∃ p ∈ splitValue code value, p.covers ⟨13, 18⟩ = true) ∧
      (∀ p ∈ splitValue code value, splitValue code p = [p]) ∧
      ((∃ s ∈ strings code 12 5, s.contains 9 = true) ∨ 0 < depthAt code 12 9 5 0) := by
  intro code value
  have hle : value.start ≤ value.stop := by decide
  have hs : value.stop ≤ code.size := by decide +kernel
  have hparts : splitValue code value = [⟨1, 4⟩, ⟨5, 12⟩, ⟨13, 18⟩] := by decide +kernel
  have hstrings : strings code value.stop value.start = [⟨13, 18⟩] := by decide +kernel
  have hblank : test isSeparator code 9 = true := by decide +kernel
  obtain ⟨-, -, -, -, huncut, hagain, -, hguarded⟩ := splitValue_separated code hle hs
  refine ⟨hle, hs, hparts, huncut _ ?_, hagain, hguarded ⟨5, 12⟩ ?_ 9 (by decide) hblank⟩
  · rw [hstrings]
    exact List.mem_singleton_self _
  · rw [hparts]
    decide

end Caret.Stylesheet
