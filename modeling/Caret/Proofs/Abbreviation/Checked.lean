import Caret.Proofs.Abbreviation.Scan

/-!
The scan with all that it indexes, slices and subtracts checked: `none` where an index or a slice
leaves the line, a slice splits a character or a difference is below zero. Where a scan begins is
found without any of these, so the origin is taken as it is.
-/

namespace Caret.Abbreviation.Checked

open Text

def sub? (a b : Nat) : Option Nat := if b ≤ a then some (a - b) else none

def within? (line : Bytes) (i : Nat) : Option Unit := if i ≤ line.size then some () else none

def slice? (line : Bytes) (s : Span) : Option String :=
  if s.start ≤ s.stop ∧ isBoundary line s.start ∧ isBoundary line s.stop then some (read line s)
  else none

def groupStart? (opening : Char) (line : Bytes) : Nat → Option (Option Nat)
  | 0 => some none
  | i + 1 => do
    let c ← at? line i
    if c = opening then some (some i)
    else if isQuote c then
      within? line i
      let quote := skipBack (· != c) line 0 i
      if 0 < quote then groupStart? opening line (quote - 1) else some none
    else groupStart? opening line i
termination_by i => i
decreasing_by
  · have : quote ≤ i := skipBack_le _ line 0 i
    omega
  · omega

def groupBefore? (line : Bytes) (cursor : Nat) : Option (Option Nat) := do
  let last ← sub? cursor 1
  match ← at? line last with
  | ']' => groupStart? '[' line last
  | '}' => groupStart? '{' line last
  | _ => some none

def pastMarker? (marker : List UInt8) (line : Bytes) (cursor : Nat) : Option (Option Nat) :=
  if cursor = 0 then some none
  else do
    match ← groupBefore? line cursor with
    | some start => if start < cursor then pastMarker? marker line start else none
    | none =>
      within? line cursor
      if marker.length ≤ cursor ∧ holdsAt line cursor marker (cursor - marker.length) then
        some (some cursor)
      else pastMarker? marker line (cursor - 1)
termination_by cursor

def limit? (options : Options) (line : Bytes) (pos : Nat) : Option (Option Nat) :=
  if options.word.isEmpty then some (some 0) else pastMarker? options.word line pos

def tagSlice? (line : Bytes) (i : Nat) (c : Char) : Option Unit :=
  if c = '>' then discard (slice? line ⟨0, i + 1⟩) else some ()

def goBack (kind : Kind) (line : Bytes) (start : Nat) :
    Nat → List Char → Option (Except Mismatch (Nat × List Char))
  | 0, groups => some (.ok (0, groups))
  | i + 1, groups =>
    if i < start then some (.ok (i + 1, groups))
    else do
      let c ← at? line i
      tagSlice? line i c
      match step kind line groups i c with
      | .error e => some (.error e)
      | .ok none => some (.ok (i + 1, groups))
      | .ok (some more) => goBack kind line start i more

def start? (options : Options) (limit location : Nat) : Option Nat :=
  if options.word.isEmpty then some location else sub? limit options.word.length

def found? (options : Options) (line : Bytes) (limit cursor pos : Nat) : Option (Option Match) := do
  discard (slice? line ⟨cursor, pos⟩)
  let abbreviation ← slice? line ⟨skip isJoint line pos cursor, pos⟩
  if abbreviation.isEmpty then some none
  else
    let location ← sub? pos (bytes abbreviation).size
    let start ← start? options limit location
    some (some { abbreviation, start, location, stop := pos })

def scan (options : Options) (line : Bytes) (pos : Nat) :
    Option (Except Mismatch (Option Match)) := do
  let pos := origin options line pos
  match ← limit? options line pos with
  | none => some (.ok none)
  | some start =>
    match ← goBack options.kind line start pos [] with
    | .error e => some (.error e)
    | .ok (cursor, groups) =>
      if groups.isEmpty ∧ cursor ≠ pos then
        let found ← found? options line start cursor pos
        some (.ok found)
      else some (.ok none)

variable {kind : Kind} {line : Bytes} {marker : List UInt8} {start cursor i pos : Nat}
  {groups : List Char} {options : Options} {text : String}

theorem groupStart?_eq {opening : Char} (hi : i ≤ line.size) :
    groupStart? opening line i = some (Abbreviation.groupStart? opening line i) := by
  fun_induction Abbreviation.groupStart? opening line i with
  | case1 => rw [groupStart?]
  | case2 i hn =>
    obtain ⟨c, hc⟩ := at?_of_lt hi
    simp [hc] at hn
  | case3 i hc =>
    rw [groupStart?, hc]
    simp
  | case4 i c hc ho hq quote h0 ih =>
    have hle : i ≤ line.size := Nat.le_of_succ_le hi
    have hquote : quote ≤ i := skipBack_le ..
    rw [groupStart?, hc, ← ih (by omega)]
    simp only [ho, hq, within?, hle, Option.bind_eq_bind, Option.bind_some, if_true, if_false]
    exact if_pos h0
  | case5 i c hc ho hq quote h0 =>
    have hle : i ≤ line.size := Nat.le_of_succ_le hi
    rw [groupStart?, hc]
    simp only [ho, hq, within?, hle, Option.bind_eq_bind, Option.bind_some, if_true, if_false]
    exact if_neg h0
  | case6 i c hc ho hq ih =>
    rw [groupStart?, hc, ← ih (Nat.le_of_succ_le hi)]
    simp [ho, hq]

theorem groupBefore?_eq (h0 : 0 < cursor) (hi : cursor ≤ line.size) :
    groupBefore? line cursor = some (Abbreviation.groupBefore? line cursor) := by
  have hlt : cursor - 1 < line.size := by omega
  obtain ⟨c, hc⟩ := at?_of_lt hlt
  have hs : sub? cursor 1 = some (cursor - 1) := if_pos h0
  simp only [groupBefore?, Abbreviation.groupBefore?, hs, hc, Option.bind_eq_bind, Option.bind_some]
  by_cases hr : c = ']'
  · subst hr
    exact groupStart?_eq (Nat.le_of_lt hlt)
  · by_cases hb : c = '}'
    · subst hb
      exact groupStart?_eq (Nat.le_of_lt hlt)
    · simp [hr, hb]

theorem pastMarker?_eq (hi : cursor ≤ line.size) :
    pastMarker? marker line cursor = some (Abbreviation.pastMarker? marker line cursor) := by
  fun_induction Abbreviation.pastMarker? marker line cursor with
  | case1 => rw [pastMarker?, if_pos rfl]
  | case2 cursor hc start hs ih =>
    have hlt := groupBefore?_lt hs
    rw [pastMarker?, if_neg hc, groupBefore?_eq (Nat.pos_of_ne_zero hc) hi, hs]
    rw [← ih (by omega)]
    exact if_pos hlt
  | case3 cursor hc hs hm =>
    rw [pastMarker?, if_neg hc, groupBefore?_eq (Nat.pos_of_ne_zero hc) hi, hs]
    simp [within?, hi, hm]
  | case4 cursor hc hs hm ih =>
    rw [pastMarker?, if_neg hc, groupBefore?_eq (Nat.pos_of_ne_zero hc) hi, hs]
    rw [← ih (by omega)]
    simp [within?, hi, hm]

theorem slice?_eq_some {j : Nat} (h : i ≤ j)
    (hi : isBoundary (bytes text) i = true) (hj : isBoundary (bytes text) j = true) :
    slice? (bytes text) ⟨i, j⟩ = some (read (bytes text) ⟨i, j⟩) :=
  if_pos ⟨h, hi, hj⟩

theorem tagSlice?_eq {c : Char} (hc : at? (bytes text) i = some c) :
    tagSlice? (bytes text) i c = some () := by
  unfold tagSlice?
  split
  · next h =>
    subst h
    rw [slice?_eq_some (Nat.zero_le _) (isBoundary_iff.mpr (.inl rfl))
      (isBoundary_of_at? hc (by decide)).2]
    rfl
  · rfl

theorem goBack_eq (hi : i ≤ (bytes text).size) :
    goBack kind (bytes text) start i groups =
      some (Abbreviation.goBack kind (bytes text) start i groups) := by
  fun_induction Abbreviation.goBack kind (bytes text) start i groups with
  | case1 => rfl
  | case2 i groups hs => exact if_pos hs
  | case3 i groups hs hn =>
    obtain ⟨c, hc⟩ := at?_of_lt hi
    simp [hc] at hn
  | case4 i groups hs c hc e he =>
    simp only [goBack, if_neg hs, hc, Option.bind_eq_bind, Option.bind_some, tagSlice?_eq hc, he]
  | case5 i groups hs c hc he =>
    simp only [goBack, if_neg hs, hc, Option.bind_eq_bind, Option.bind_some, tagSlice?_eq hc, he]
  | case6 i groups hs c hc more he ih =>
    rw [← ih (Nat.le_of_succ_le hi)]
    simp only [goBack, if_neg hs, hc, Option.bind_eq_bind, Option.bind_some, tagSlice?_eq hc, he]

theorem limit?_eq (hi : pos ≤ line.size) :
    limit? options line pos = some (Abbreviation.limit? options line pos) := by
  unfold limit? Abbreviation.limit?
  split
  · rfl
  · exact pastMarker?_eq hi

theorem start?_eq {location : Nat}
    (hl : Abbreviation.limit? options line pos = some start) :
    start? options start location =
      some (if options.word.isEmpty then location else start - options.word.length) := by
  unfold start?
  split
  · rfl
  · next hw => exact if_pos (limit?_length hw hl)

theorem found?_eq (hl : Abbreviation.limit? options (bytes text) pos = some start)
    (hp : isBoundary (bytes text) pos = true)
    (hg : Abbreviation.goBack options.kind (bytes text) start pos [] = .ok (cursor, [])) :
    found? options (bytes text) start cursor pos =
      some (if skip isJoint (bytes text) pos cursor < pos then
        some
          { abbreviation := read (bytes text) ⟨skip isJoint (bytes text) pos cursor, pos⟩
            start := if options.word.isEmpty then skip isJoint (bytes text) pos cursor
              else start - options.word.length
            location := skip isJoint (bytes text) pos cursor
            stop := pos }
      else none) := by
  obtain ⟨-, hle, hcursor, hlocation, -⟩ := goBack_rest hp (limit?_le hl) hg
  have hskip := skip_le isJoint (bytes text) hle
  rw [found?, slice?_eq_some hle hcursor hp, slice?_eq_some hskip hlocation hp]
  generalize skip isJoint (bytes text) pos cursor = location at hlocation hskip
  have hsize := size_read hskip hlocation hp
  have hsub : sub? pos (pos - location) = some location := by
    rw [sub?, if_pos (Nat.sub_le _ _), Nat.sub_sub_self hskip]
  have hdiscard (s : String) : discard (some s) = some () := rfl
  simp only [hdiscard, Option.bind_eq_bind, Option.bind_some, isEmpty_eq, hsize, hsub,
    start?_eq hl, beq_iff_eq]
  split
  · next h =>
    have hlt : ¬location < pos := by omega
    rw [if_neg hlt]
  · next h =>
    have hlt : location < pos := by omega
    rw [if_pos hlt]

theorem scan_eq (options : Options) (text : String) (pos : Nat) :
    scan options (bytes text) pos = some (Abbreviation.scan options (bytes text) pos) := by
  have hp := isBoundary_origin options text pos
  have hsize := le_size_of_isBoundary hp
  simp only [scan, Abbreviation.scan, limit?_eq hsize, goBack_eq hsize]
  generalize origin options (bytes text) pos = p at hp hsize
  cases hl : Abbreviation.limit? options (bytes text) p with
  | none => rfl
  | some start =>
    simp only [Option.bind_eq_bind, Option.bind_some]
    cases hg : Abbreviation.goBack options.kind (bytes text) start p [] with
    | error e => rfl
    | ok found =>
      obtain ⟨cursor, groups⟩ := found
      cases groups with
      | cons g groups => simp
      | nil =>
        simp only [found?_eq hl hp hg, Option.bind_some, List.isEmpty_nil, true_and]
        by_cases hc : cursor = p
        · subst hc
          have hskip := le_skip isJoint (bytes text) cursor cursor
          rw [if_neg (by simp), if_neg (by omega)]
        · rw [if_pos hc]
          split
          · rfl
          · rfl

end Caret.Abbreviation.Checked
