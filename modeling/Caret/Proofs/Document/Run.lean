import Caret.Document
import Caret.Proofs.Sequence
import Mathlib.Data.List.Induction

namespace Caret.Document

section shortest

variable {α : Type} {span : α → Span} {xs : List α} {r : α}

def shorter (span : α → Span) (best : Option α) (x : α) : Option α :=
  match best with
  | some b => if (span x).size < (span b).size then some x else best
  | none => some x

theorem foldl_shorter_eq_none : xs.foldl (shorter span) none = none ↔ xs = [] := by
  induction xs using List.reverseRecOn with
  | nil => simp
  | append_singleton xs x =>
    rw [List.foldl_append, List.foldl_cons, List.foldl_nil]
    unfold shorter
    split
    · split <;> simp_all
    · simp

theorem foldl_shorter_eq_some (h : xs.foldl (shorter span) none = some r) :
    ∃ before after, xs = before ++ r :: after ∧
      (∀ x ∈ before, (span r).size < (span x).size) ∧
      ∀ x ∈ after, (span r).size ≤ (span x).size := by
  induction xs using List.reverseRecOn generalizing r with
  | nil => simp at h
  | append_singleton xs x ih =>
    rw [List.foldl_append, List.foldl_cons, List.foldl_nil] at h
    cases hb : xs.foldl (shorter span) none with
    | none =>
      obtain rfl := foldl_shorter_eq_none.mp hb
      obtain rfl := Option.some.inj h
      exact ⟨[], [], rfl, by simp, by simp⟩
    | some b =>
      obtain ⟨before, after, rfl, hbefore, hafter⟩ := ih hb
      simp only [hb, shorter] at h
      split at h
      · next hlt =>
        obtain rfl := Option.some.inj h
        refine ⟨before ++ b :: after, [], rfl, fun y hy => ?_, by simp⟩
        rcases List.mem_append.mp hy with hy | hy
        · exact Nat.lt_trans hlt (hbefore y hy)
        · rcases List.mem_cons.mp hy with rfl | hy
          · exact hlt
          · exact Nat.lt_of_lt_of_le hlt (hafter y hy)
      · next hge =>
        obtain rfl := Option.some.inj h
        refine ⟨before, after ++ [x], by simp, hbefore, fun y hy => ?_⟩
        rcases List.mem_append.mp hy with hy | hy
        · exact hafter y hy
        · obtain rfl := List.mem_singleton.mp hy
          exact Nat.le_of_not_lt hge

theorem foldl_shorter_map {β : Type} {span' : β → Span} {f : α → β}
    (h : ∀ x, (span' (f x)).size = (span x).size) :
    (xs.map f).foldl (shorter span') none = (xs.foldl (shorter span) none).map f := by
  rw [List.foldl_map]
  change xs.foldl (fun best x => shorter span' best (f x)) (Option.map f none) = _
  refine List.foldl_hom (Option.map f) fun best x => ?_
  cases best with
  | none => rfl
  | some b =>
    simp only [shorter, Option.map_some, h]
    split <;> rfl

end shortest

variable {r x : ScopedRun} {d : Document} {pos : Nat}

theorem runAt_eq_foldl (d : Document) (pos : Nat) :
    d.runAt pos = (d.runs.filter (·.span.contains pos)).foldl (shorter ScopedRun.span) none := by
  unfold runAt
  congr 1
  funext best run
  cases best <;> rfl

theorem runAt_eq_none_iff : d.runAt pos = none ↔ ∀ x ∈ d.runs, x.span.contains pos = false := by
  rw [runAt_eq_foldl, foldl_shorter_eq_none, List.filter_eq_nil_iff]
  simp

theorem exists_runAt (hx : x ∈ d.runs) (hp : x.span.contains pos = true) :
    ∃ r, d.runAt pos = some r := by
  rw [← Option.ne_none_iff_exists', ne_eq, runAt_eq_none_iff]
  intro hnone
  rw [hnone x hx] at hp
  contradiction

theorem extractScope_of_some (h : d.runAt pos = some r) : d.extractScope pos = r.span := by
  simp only [extractScope, h]

theorem mem_of_runAt (h : d.runAt pos = some r) : r ∈ d.runs ∧ r.span.contains pos = true := by
  rw [runAt_eq_foldl] at h
  obtain ⟨before, after, heq, -⟩ := foldl_shorter_eq_some h
  exact List.mem_filter.mp (heq ▸ List.mem_append_right before List.mem_cons_self)

theorem runAt_size_le (h : d.runAt pos = some r) (hx : x ∈ d.runs)
    (hp : x.span.contains pos = true) : r.span.size ≤ x.span.size := by
  rw [runAt_eq_foldl] at h
  obtain ⟨before, after, heq, hbefore, hafter⟩ := foldl_shorter_eq_some h
  have hmem : x ∈ before ++ r :: after := heq ▸ List.mem_filter.mpr ⟨hx, hp⟩
  rcases List.mem_append.mp hmem with hmem | hmem
  · exact Nat.le_of_lt (hbefore x hmem)
  · rcases List.mem_cons.mp hmem with rfl | hmem
    · exact Nat.le_refl _
    · exact hafter x hmem

theorem runAt_head? (h : d.runAt pos = some r) :
    (d.runs.filter (·.span == r.span)).head? = some r := by
  have hp := (mem_of_runAt h).2
  rw [runAt_eq_foldl] at h
  obtain ⟨before, after, heq, hbefore, -⟩ := foldl_shorter_eq_some h
  have hfilter : d.runs.filter (·.span == r.span) =
      (d.runs.filter (·.span.contains pos)).filter (·.span == r.span) := by
    rw [List.filter_filter]
    refine List.filter_congr fun x _ => ?_
    cases hx : x.span == r.span with
    | true => rw [eq_of_beq hx, hp, Bool.and_self]
    | false => rfl
  have hnil : before.filter (·.span == r.span) = [] := by
    refine List.filter_eq_nil_iff.mpr fun x hx hspan => ?_
    have hlt := hbefore x hx
    rw [eq_of_beq hspan] at hlt
    exact Nat.lt_irrefl _ hlt
  simp [hfilter, heq, hnil]

theorem mem_stylesheetRuns {base : String} {s : Stylesheet} :
    r ∈ stylesheetRuns base s ↔ r.span.isEmpty = false ∧ ∃ scope, r.scope = base ++ " " ++ scope ∧
      ((r.span ∈ s.comments ∧ scope = "comment.block.css") ∨
        (∃ q ∈ s.rules, (r.span, scope) ∈ ruleRuns q) ∨
        ∃ c ∈ s.declarations, (r.span, scope) ∈ declarationRuns c) := by
  obtain ⟨span, scope⟩ := r
  simp only [stylesheetRuns, List.mem_map, List.mem_filter, List.mem_append, List.mem_flatMap,
    Array.mem_toList_iff, Prod.exists, ScopedRun.mk.injEq, Bool.not_eq_true', Prod.mk.injEq]
  constructor
  · rintro ⟨_, label, ⟨hmem, hempty⟩, rfl, rfl⟩
    refine ⟨hempty, label, rfl, ?_⟩
    rcases hmem with (⟨_, hc, rfl, rfl⟩ | hq) | hd
    · exact .inl ⟨hc, rfl⟩
    · exact .inr (.inl hq)
    · exact .inr (.inr hd)
  · rintro ⟨hempty, label, rfl, hmem⟩
    refine ⟨span, label, ⟨?_, hempty⟩, rfl, rfl⟩
    rcases hmem with ⟨hc, rfl⟩ | hq | hd
    · exact .inl (.inl ⟨span, hc, rfl, rfl⟩)
    · exact .inl (.inr hq)
    · exact .inr hd

theorem stylesheetRuns_eq_append (base : String) (s : Stylesheet) : ∃ rest,
    stylesheetRuns base s = (s.comments.toList.filter (!·.isEmpty)).map
      (⟨·, base ++ " " ++ "comment.block.css"⟩) ++ rest := by
  simp only [stylesheetRuns, List.append_assoc, List.filter_append, List.map_append,
    List.filter_map, List.map_map]
  exact ⟨_, rfl⟩

section text

variable {code : Bytes} {l : Language} (hk : l.kind = .stylesheet)
include hk

theorem ofText_runs : (ofText code l).runs =
    (stylesheetRuns (baseScope l) (Stylesheet.parse code)).mergeSort fun a b =>
      a.span.start < b.span.start ||
        (a.span.start == b.span.start && b.span.stop ≤ a.span.stop) := by
  simp [ofText, hk]

theorem mem_ofText_runs :
    r ∈ (ofText code l).runs ↔ r ∈ stylesheetRuns (baseScope l) (Stylesheet.parse code) := by
  rw [ofText_runs hk, List.mem_mergeSort]

theorem filter_ofText_runs (span : Span) : (ofText code l).runs.filter (·.span == span) =
    (stylesheetRuns (baseScope l) (Stylesheet.parse code)).filter (·.span == span) := by
  rw [ofText_runs hk]
  refine filter_mergeSort ?_ ?_ ?_
  · simp only [Bool.or_eq_true, Bool.and_eq_true, decide_eq_true_eq, beq_iff_eq]
    omega
  · intro a b
    simp only [Bool.or_eq_true, Bool.and_eq_true, decide_eq_true_eq, beq_iff_eq]
    omega
  · refine List.pairwise_of_forall_mem_list fun a ha b hb => ?_
    rw [eq_of_beq (List.mem_filter.mp ha).2, eq_of_beq (List.mem_filter.mp hb).2]
    simp

theorem runAt_of_comment (h : (ofText code l).runAt pos = some r)
    (hc : r.span ∈ (Stylesheet.parse code).comments) :
    r.scope = baseScope l ++ " " ++ "comment.block.css" := by
  have hhead := runAt_head? h
  rw [filter_ofText_runs hk] at hhead
  have hempty : r.span.isEmpty = false := (mem_stylesheetRuns.mp
    ((mem_ofText_runs hk).mp (mem_of_runAt h).1)).1
  obtain ⟨rest, hrest⟩ := stylesheetRuns_eq_append (baseScope l) (Stylesheet.parse code)
  rw [hrest, List.filter_append] at hhead
  have hmem : (⟨r.span, baseScope l ++ " " ++ "comment.block.css"⟩ : ScopedRun) ∈
      (((Stylesheet.parse code).comments.toList.filter (!·.isEmpty)).map
        (⟨·, baseScope l ++ " " ++ "comment.block.css"⟩)).filter (·.span == r.span) := by
    simp [hc, hempty]
  rw [List.head?_append, List.head?_eq_some_head (List.ne_nil_of_mem hmem), Option.some_or,
    ← List.head?_eq_some_head] at hhead
  obtain ⟨c, -, rfl⟩ := List.mem_map.mp (List.mem_filter.mp (List.mem_of_head? hhead)).1
  rfl

end text

end Caret.Document
