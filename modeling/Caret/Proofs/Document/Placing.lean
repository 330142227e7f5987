import Caret.Proofs.Document.Property
import Caret.Proofs.Stylesheet.Shift
import Mathlib.Data.List.Basic

namespace Caret.Document

open Scope Stylesheet Text

def parts (s : Stylesheet) : List (Span × String) :=
  (s.comments.toList.map (·, "comment.block.css") ++ s.rules.toList.flatMap ruleRuns ++
    s.declarations.toList.flatMap declarationRuns).filter (!·.1.isEmpty)

def sortedParts (s : Stylesheet) : List (Span × String) :=
  (parts s).mergeSort fun p q =>
    p.1.start < q.1.start || (p.1.start == q.1.start && q.1.stop ≤ p.1.stop)

def partAt (s : Stylesheet) (pos : Nat) : Option (Span × String) :=
  ((sortedParts s).filter (·.1.contains pos)).foldl (shorter Prod.fst) none

def gapStart (s : Stylesheet) (pos : Nat) : Option Nat :=
  (((sortedParts s).map (·.1.stop)).filter (· ≤ pos)).max?

def place (base : String) (a : Nat) (p : Span × String) : ScopedRun :=
  ⟨p.1.shift a, base ++ " " ++ p.2⟩

section placing

variable {s : Stylesheet} {base : String} {a pos : Nat} {p : Span × String}

theorem ruleRuns_shift {q : Rule} (hq : 0 < q.body.start) :
    ruleRuns (q.shift a) = (ruleRuns q).map fun p => (p.1.shift a, p.2) := by
  have hbrace : q.body.start + a - 1 = q.body.start - 1 + a := by omega
  cases hc : q.closed with
  | true => simp [ruleRuns, Rule.shift, Span.shift, hc, hbrace, Nat.add_right_comm]
  | false => simp [ruleRuns, Rule.shift, Span.shift, hc, hbrace]

theorem declarationRuns_shift (d : Declaration) :
    declarationRuns (d.shift a) = (declarationRuns d).map fun p => (p.1.shift a, p.2) := by
  have hnext (i j : Nat) : Span.between (i + a + 1) (j + a) = (Span.between (i + 1) j).shift a := by
    rw [Nat.add_right_comm, Span.between_add]
  have hunit (i : Nat) : (⟨i + a, i + a + 1⟩ : Span) = Span.shift ⟨i, i + 1⟩ a := by
    rw [Span.shift, Nat.add_right_comm]
  cases hc : d.colon <;> cases ht : d.terminator <;>
    simp [declarationRuns, Declaration.shift, hc, ht, Span.between_add, hnext, hunit]

theorem stylesheetRuns_shift (h : ∀ q ∈ s.rules, 0 < q.body.start) :
    stylesheetRuns base (s.shift a) = (parts s).map (place base a) := by
  have hrules : (s.rules.toList.map (·.shift a)).flatMap ruleRuns =
      (s.rules.toList.flatMap ruleRuns).map fun p => (p.1.shift a, p.2) := by
    rw [List.flatMap_map, List.map_flatMap]
    exact List.flatMap_congr fun q hq => ruleRuns_shift (h q (Array.mem_toList_iff.mp hq))
  have hdeclarations : (s.declarations.toList.map (·.shift a)).flatMap declarationRuns =
      (s.declarations.toList.flatMap declarationRuns).map fun p => (p.1.shift a, p.2) := by
    rw [List.flatMap_map, List.map_flatMap]
    exact List.flatMap_congr fun d _ => declarationRuns_shift d
  have hcomments : (s.comments.toList.map (·.shift a)).map (·, "comment.block.css") =
      (s.comments.toList.map (·, "comment.block.css")).map fun p => (p.1.shift a, p.2) := by
    simp only [List.map_map, Function.comp_def]
  simp only [stylesheetRuns, Stylesheet.shift, Array.toList_map, hrules, hdeclarations, hcomments,
    ← List.map_append]
  rw [List.filter_map, List.map_map]
  have hempty : (fun p : Span × String => !p.1.isEmpty) ∘
      (fun p : Span × String => (p.1.shift a, p.2)) = fun p => !p.1.isEmpty := by
    funext p
    simp [Span.isEmpty_shift]
  rw [hempty]
  rfl

theorem mergeSort_place (l : List (Span × String)) :
    (l.map (place base a)).mergeSort (fun r q =>
        r.span.start < q.span.start ||
          (r.span.start == q.span.start && q.span.stop ≤ r.span.stop)) =
      (l.mergeSort fun p q =>
        p.1.start < q.1.start || (p.1.start == q.1.start && q.1.stop ≤ p.1.stop)).map
          (place base a) := by
  symm
  apply List.map_mergeSort
  intro p _ q _
  simp [place, beq_eq_decide]

theorem partAt_spec (h : partAt s pos = some p) : p ∈ parts s ∧ p.1.contains pos = true := by
  obtain ⟨before, after, heq, -⟩ := foldl_shorter_eq_some h
  have hmem : p ∈ (sortedParts s).filter (·.1.contains pos) :=
    heq ▸ List.mem_append_right before List.mem_cons_self
  obtain ⟨hp, hin⟩ := List.mem_filter.mp hmem
  exact ⟨List.mem_mergeSort.mp hp, hin⟩

theorem stop_le_of_isName {code : Bytes} {span : Span} {scope : String}
    (hp : (span, scope) ∈ parts (parse code))
    (hs : isSelectedBy scope "meta.property-name" = true) : span.stop ≤ code.size := by
  obtain ⟨hw, hcom⟩ := parse_spec code
  simp only [parts, List.mem_filter, List.mem_append, List.mem_map, List.mem_flatMap,
    Array.mem_toList_iff, Prod.mk.injEq] at hp
  obtain ⟨(⟨_, -, -, rfl⟩ | ⟨q, -, hq⟩) | ⟨d, hd, hpart⟩, -⟩ := hp
  · exact absurd hs (by decide)
  · rw [isSelectedBy_ruleRuns hq (by decide)] at hs
    contradiction
  · have hform := hw.declarations d hd
    rw [mem_declarationRuns hform (hcom.declarations d hd)] at hpart
    simp only [Prod.mk.injEq] at hpart
    rcases hpart with ⟨rfl, -⟩ | ⟨_, -, -, rfl⟩ | ⟨_, -, -, rfl⟩ | ⟨-, rfl⟩ | ⟨_, -, -, rfl⟩
    · exact Nat.le_trans (Span.covers_iff.mp hform.name_inside).2 (parse_declarations_le code d hd)
    all_goals exact absurd hs (by decide)

theorem gapStart_le {n : Nat} (h : gapStart s pos = some n) : n ≤ pos := by
  have hmem := List.max?_mem h
  simpa using (List.mem_filter.mp hmem).2

def selects (s : Stylesheet) (pos : Nat) (selector : String) : Bool :=
  (partAt s pos).elim
    (s.rules.any (·.body.contains pos) && isSelectedBy "section.property-list.css" selector)
    (isSelectedBy ·.2 selector)

def before? (s : Stylesheet) (pos : Nat) : Option Nat :=
  (partAt s pos).elim (gapStart s pos) (some ·.1.start)

theorem before?_le {n : Nat} (h : before? s pos = some n) : n ≤ pos := by
  cases hp : partAt s pos with
  | none =>
    rw [before?, hp] at h
    exact gapStart_le h
  | some p =>
    rw [before?, hp] at h
    obtain rfl := Option.some.inj h
    exact (Span.contains_iff.mp (partAt_spec hp).2).1

theorem exists_partAt_of_selects {selector : String}
    (hlist : isSelectedBy "section.property-list.css" selector = false)
    (h : selects s pos selector = true) :
    ∃ p, partAt s pos = some p ∧ isSelectedBy p.2 selector = true := by
  cases hp : partAt s pos with
  | none => simp [selects, hp, hlist] at h
  | some p => exact ⟨p, rfl, by simpa [selects, hp] using h⟩

end placing

/-- The document has the runs of the stylesheet read from `code` where that text stands in its own,
and adds nothing to them that the way back to a property name looks for. -/
structure Placed (code : Bytes) (base : String) (a : Nat) (d : Document) : Prop where
  part : PartAt code d.code a
  runs : d.runs = (sortedParts (parse code)).map (place base a)
  gap : ∀ n ≤ code.size, d.runAt (n + a) = none → d.scopeName (n + a) =
    if (parse code).rules.any (·.body.contains n) then base ++ " " ++ "section.property-list.css"
    else base
  base : ∀ selector ∈ walkSelectors, isSelectedBy base selector = false
  before : ∀ pos < a, d.runAt pos = none → ∀ selector ∈ walkSelectors,
    isSelectedBy (d.scopeName pos) selector = false

namespace Placed

variable {code : Bytes} {base base' selector : String} {a a' n : Nat} {d e : Document}
  (h : Placed code base a d)
include h

theorem runAt_add (n : Nat) :
    d.runAt (n + a) = (partAt (parse code) n).map (place base a) := by
  have hcontains : (fun r : ScopedRun => r.span.contains (n + a)) ∘ place base a =
      fun p => p.1.contains n := by
    funext p
    simp [place, Span.contains]
  rw [runAt_eq_foldl, h.runs, List.filter_map, hcontains]
  apply foldl_shorter_map
  intro p
  simp [place, Span.size, Nat.add_sub_add_right]

theorem isSelectedBy_append (hs : selector ∈ walkSelectors) (scope : String) :
    isSelectedBy (base ++ " " ++ scope) selector = isSelectedBy scope selector := by
  rw [Scope.isSelectedBy_append (parse_of_mem_walkSelectors selector hs), h.base selector hs,
    Bool.false_or]

theorem isSelected_add (hn : n ≤ code.size) (hs : selector ∈ walkSelectors) :
    d.view.isSelected (n + a) selector = selects (parse code) n selector := by
  have hrun := h.runAt_add n
  cases hp : partAt (parse code) n with
  | some p =>
    rw [hp, Option.map_some] at hrun
    rw [isSelected_of_runAt hrun, selects, hp]
    exact h.isSelectedBy_append hs p.2
  | none =>
    rw [hp, Option.map_none] at hrun
    have hscope := h.gap n hn hrun
    simp only [View.isSelected, view, hscope, selects, hp, Option.elim_none]
    split
    · next hin => rw [h.isSelectedBy_append hs, hin, Bool.true_and]
    · next hout => rw [h.base selector hs, Bool.eq_false_iff.mpr hout, Bool.false_and]

theorem extractScope_start (n : Nat) :
    (d.view.extractScope (n + a)).start = (before? (parse code) n).elim 0 (· + a) := by
  have hrun := h.runAt_add n
  cases hp : partAt (parse code) n with
  | some p =>
    rw [hp, Option.map_some] at hrun
    rw [extractScope_of_runAt hrun, before?, hp]
    rfl
  | none =>
    rw [hp, Option.map_none] at hrun
    have hstops : (d.runs.map (·.span.stop)).filter (· ≤ n + a) =
        (((sortedParts (parse code)).map (·.1.stop)).filter (· ≤ n)).map (· + a) := by
      have hle : (fun i => decide (i ≤ n + a)) ∘ ((fun r : ScopedRun => r.span.stop) ∘ place base a) =
          (fun i => decide (i ≤ n)) ∘ fun p => p.1.stop := by
        funext p
        simp [place]
      rw [h.runs, List.map_map, List.filter_map, hle, List.filter_map, List.map_map]
      rfl
    simp only [view, extractScope, hrun, hstops, max?_map_add, before?, hp, Option.elim_none]
    rw [← gapStart]
    cases gapStart (parse code) n <;> rfl

theorem propertyBefore?_start : d.view.propertyBefore? a = none := by
  have hrun (pos : Nat) (hpos : pos < a) : d.runAt pos = none := by
    cases hr : d.runAt pos with
    | none => rfl
    | some r =>
      obtain ⟨hmem, hin⟩ := mem_of_runAt hr
      obtain ⟨p, -, rfl⟩ := List.mem_map.mp (h.runs ▸ hmem)
      have := (Span.contains_iff.mp hin).1
      simp only [place, Span.shift_start] at this
      omega
  cases a with
  | zero => rw [View.propertyBefore?]
  | succ pos =>
    have hnone := hrun pos (Nat.lt_succ_self pos)
    have hsel (selector : String) (hs : selector ∈ walkSelectors) :
        d.view.isSelected pos selector = false :=
      h.before pos (Nat.lt_succ_self pos) hnone selector hs
    have hstart : (d.view.extractScope pos).start = 0 := by
      have hstops : (d.runs.map (·.span.stop)).filter (· ≤ pos) = [] := by
        simp only [h.runs, List.map_map, List.filter_eq_nil_iff, List.mem_map,
          forall_exists_index, and_imp, forall_apply_eq_imp_iff₂, Function.comp_apply, place,
          Span.shift_stop, decide_eq_true_eq]
        intro p _
        omega
      simp [view, extractScope, hnone, hstops]
    rw [View.propertyBefore?]
    simp only [hsel "section.property-list" (by decide), hsel "meta.selector" (by decide),
      hsel "meta.property-name" (by decide), Bool.or_self, Bool.false_eq_true, if_false, hstart,
      Nat.zero_min]
    rw [View.propertyBefore?]

theorem propertyBefore?_succ (hn : n < code.size) :
    d.view.propertyBefore? (n + 1 + a) =
      if selects (parse code) n "section.property-list" ∨ selects (parse code) n "meta.selector"
      then none
      else if selects (parse code) n "meta.property-name" then
        (partAt (parse code) n).map (read code ·.1)
      else (before? (parse code) n).bind fun m => d.view.propertyBefore? (m + a) := by
  have hsel (selector : String) (hs : selector ∈ walkSelectors) :
      d.view.isSelected (n + a) selector = selects (parse code) n selector :=
    h.isSelected_add (Nat.le_of_lt hn) hs
  rw [Nat.add_right_comm, View.propertyBefore?]
  simp only [hsel "section.property-list" (by decide), hsel "meta.selector" (by decide),
    hsel "meta.property-name" (by decide), Bool.or_eq_true]
  split
  · rfl
  split
  · next hname =>
    obtain ⟨p, hp, hs⟩ := exists_partAt_of_selects (by decide) hname
    have hrun := h.runAt_add n
    rw [hp, Option.map_some] at hrun
    rw [extractScope_of_runAt hrun, hp, Option.map_some]
    exact congrArg some (h.part.read_add (stop_le_of_isName (partAt_spec hp).1 hs))
  · rw [h.extractScope_start]
    cases hb : before? (parse code) n with
    | none =>
      simp only [Option.elim_none, Nat.zero_min, Option.bind_none]
      rw [View.propertyBefore?]
    | some m =>
      have hle := before?_le hb
      simp only [Option.elim_some, Option.bind_some, Nat.min_eq_left (Nat.add_le_add_right hle a)]

end Placed

section

variable {code : Bytes} {base base' : String} {a a' n : Nat} {d d' : Document}
  (h : Placed code base a d) (h' : Placed code base' a' d')
include h h'

theorem Placed.propertyBefore?_eq (hn : n ≤ code.size) :
    d.view.propertyBefore? (n + a) = d'.view.propertyBefore? (n + a') := by
  induction n using Nat.strongRecOn with
  | _ n ih =>
    cases n with
    | zero => rw [Nat.zero_add, Nat.zero_add, h.propertyBefore?_start, h'.propertyBefore?_start]
    | succ n =>
      have hback : (before? (parse code) n).bind (fun m => d.view.propertyBefore? (m + a)) =
          (before? (parse code) n).bind fun m => d'.view.propertyBefore? (m + a') := by
        cases hb : before? (parse code) n with
        | none => rfl
        | some m =>
          have hle := before?_le hb
          exact ih m (Nat.lt_succ_of_le hle) (by omega)
      rw [h.propertyBefore?_succ hn, h'.propertyBefore?_succ hn, hback]

theorem Placed.property?_eq (hn : n ≤ code.size) :
    d.view.property? (n + a) = d'.view.property? (n + a') := by
  simp only [View.property?, h.isSelected_add hn (by decide : "meta.property-value" ∈ walkSelectors),
    h'.isSelected_add hn (by decide : "meta.property-value" ∈ walkSelectors)]
  split
  · next hvalue =>
    obtain ⟨p, hp, -⟩ := exists_partAt_of_selects (by decide) hvalue
    have hb : before? (parse code) n = some p.1.start := by rw [before?, hp, Option.elim_some]
    have hle := before?_le hb
    -- both ways back begin where the value does
    rw [h.extractScope_start, h'.extractScope_start, hb, Option.elim_some, Option.elim_some]
    exact h.propertyBefore?_eq h' (Nat.le_trans hle hn)
  · rfl

end

end Caret.Document
