import Caret.Proofs.Stylesheet.Comment
import Caret.Proofs.Stylesheet.Order

namespace Caret.Stylesheet

open Text

variable {s : Stylesheet} {code : Bytes} {stop i : Nat} {n m : Node} {parent : Option Nat}

theorem mem_children : n ∈ s.children parent ↔ s.Has n ∧ n.parent = parent := by
  rw [children, List.mem_filter, mem_items, beq_iff_eq]

theorem WellFormed.parent_lt (h : s.WellFormed code stop) (hn : s.Has n) (hp : n.parent = some i) :
    i < s.rules.size := by
  obtain ⟨r, hr, -⟩ := (h.innermost hn).covers i hp
  exact (Array.getElem?_eq_some_iff.mp hr).1

theorem WellFormed.not_holds_of_parent_eq (h : s.WellFormed code stop) (hn : s.Has n)
    (hm : s.Has m) (hp : n.parent = m.parent) : ¬n.Holds m := by
  intro hholds
  cases n with
  | declaration i d => exact hholds
  | rule i r =>
    cases hparent : m.parent with
    | none => exact (h.innermost hm).none_iff.mp hparent r (Array.mem_of_getElem? hn) hholds
    | some p =>
      obtain ⟨q, hq, -, hwider⟩ := (h.innermost hm).covers p hparent
      have hbody := h.parent_holds (n := .rule i r) hn (hp.trans hparent) hq
      have hlt := (h.holds_lt (n := .rule p q) (m := .rule i r) hq hbody).1
      have hne : i ≠ p := by
        rintro rfl
        obtain rfl := Option.some.inj (hq.symm.trans hn)
        exact Nat.lt_irrefl _ hlt
      have hinside := hwider i r hn hholds hne
      have hlt' := (h.holds_lt (n := .rule i r) (m := .rule p q) hn hinside).1
      exact Nat.lt_asymm hlt hlt'

theorem WellFormed.children_apart (h : s.WellFormed code stop) (parent : Option Nat) :
    (s.children parent).Pairwise fun n m =>
      n.span.start < m.span.start ∧ n.span.stop ≤ m.span.start := by
  refine (h.items_sorted.filter _).imp_of_mem fun {n m} hn hm hlt => ⟨hlt, ?_⟩
  obtain ⟨hn, hpn⟩ := mem_children.mp hn
  obtain ⟨hm, hpm⟩ := mem_children.mp hm
  have hp := hpn.trans hpm.symm
  have hne : n ≠ m := by
    rintro rfl
    exact Nat.lt_irrefl _ hlt
  rcases h.nodes_laminar hn hm hne with hh | hh | hle | hle
  · exact (h.not_holds_of_parent_eq hn hm hp hh).elim
  · exact (h.not_holds_of_parent_eq hm hn hp.symm hh).elim
  · exact hle
  · have hltm := h.span_lt hm
    omega

theorem WellFormed.children_perm (h : s.WellFormed code stop) :
    (s.children none ++ (List.range s.rules.size).flatMap fun i => s.children (some i)).Perm
      s.items := by
  have hkeys : (none :: (List.range s.rules.size).map some).Nodup := by
    apply List.nodup_cons.mpr
    constructor
    · simp
    · exact List.Pairwise.map some (fun _ _ hne heq => hne (Option.some.inj heq)) List.nodup_range
  have hall : (s.items.filter fun n =>
      (none :: (List.range s.rules.size).map some).contains n.parent) = s.items := by
    apply List.filter_eq_self.mpr
    intro n hn
    cases hp : n.parent with
    | none => simp
    | some i => simp [h.parent_lt (mem_items.mp hn) hp]
  have hgroups := flatMap_filter_perm Node.parent s.items hkeys
  rwa [hall, List.flatMap_cons, List.flatMap_map] at hgroups

/-- The items are all rules and all declarations, each once, in the order of their starts. The
children of the rules and the nodes outside of all rules are together these items; each of these
lists goes from one node to the next behind it, and the children of a rule lie in its body. -/
theorem children_partition (code : Bytes) :
    let s := parse code
    (∀ n, n ∈ s.items ↔ s.Has n) ∧ s.items.Nodup ∧
      s.items.Pairwise (fun n m => n.span.start < m.span.start) ∧
      (s.children none ++ (List.range s.rules.size).flatMap fun i => s.children (some i)).Perm
        s.items ∧
      (∀ parent, (s.children parent).Pairwise fun n m =>
        n.span.start < m.span.start ∧ n.span.stop ≤ m.span.start) ∧
      ∀ i r, s.rules[i]? = some r → ∀ n ∈ s.children (some i), r.body.covers n.span = true := by
  have h := (parse_spec code).1
  refine ⟨fun n => mem_items, items_nodup _, h.items_sorted, h.children_perm, h.children_apart,
    fun i r hr n hn => ?_⟩
  obtain ⟨hhas, hparent⟩ := mem_children.mp hn
  exact h.parent_holds hhas hparent hr

theorem children_partition_nested :
    let s := parse (bytes "a\x7bb\x7bc:d\x7de:f;\x7dg\x7b")
    let outer : Rule := ⟨⟨0, 1⟩, ⟨2, 12⟩, ⟨0, 13⟩, true, none⟩
    let inner : Rule := ⟨⟨2, 3⟩, ⟨4, 7⟩, ⟨2, 8⟩, true, some 0⟩
    s.rules[0]? = some outer ∧ .rule 1 inner ∈ s.children (some 0) ∧
      outer.body.covers inner.span = true := by
  have hsheet : parse (bytes "a\x7bb\x7bc:d\x7de:f;\x7dg\x7b") =
      { rules := #[⟨⟨0, 1⟩, ⟨2, 12⟩, ⟨0, 13⟩, true, none⟩, ⟨⟨2, 3⟩, ⟨4, 7⟩, ⟨2, 8⟩, true, some 0⟩,
          ⟨⟨13, 14⟩, ⟨15, 15⟩, ⟨13, 15⟩, false, none⟩]
        declarations := #[⟨⟨4, 5⟩, ⟨6, 7⟩, ⟨4, 7⟩, some 5, none, some 1⟩,
          ⟨⟨8, 9⟩, ⟨10, 11⟩, ⟨8, 12⟩, some 9, some 11, some 0⟩] } := by
    decide +kernel
  have houter : (parse (bytes "a\x7bb\x7bc:d\x7de:f;\x7dg\x7b")).rules[0]? =
      some ⟨⟨0, 1⟩, ⟨2, 12⟩, ⟨0, 13⟩, true, none⟩ := by
    rw [hsheet]
    rfl
  have hinner : .rule 1 ⟨⟨2, 3⟩, ⟨4, 7⟩, ⟨2, 8⟩, true, some 0⟩ ∈
      (parse (bytes "a\x7bb\x7bc:d\x7de:f;\x7dg\x7b")).children (some 0) := by
    rw [mem_children, hsheet]
    exact ⟨rfl, rfl⟩
  obtain ⟨-, -, -, -, -, hinside⟩ := children_partition (bytes "a\x7bb\x7bc:d\x7de:f;\x7dg\x7b")
  exact ⟨houter, hinner, hinside 0 _ houter _ hinner⟩

end Caret.Stylesheet
