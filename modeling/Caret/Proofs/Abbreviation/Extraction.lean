import Caret.Abbreviation.Extract
import Caret.Document
import Caret.Proofs.Abbreviation.Soundness
import Caret.Proofs.Text.Line
import Caret.Proofs.Text.Part

namespace Caret.Abbreviation

open Text

variable {kind : Kind} {line : Bytes} {start i pos : Nat} {groups : List Char} {e : Mismatch}
  {options : Options} {text : String} {location : Location}

theorem isOpening_cases {c : Char} (h : isOpening kind c = true) : c = '(' ∨ c = '[' ∨ c = '{' := by
  simp only [isOpening, Bool.or_eq_true, Bool.and_eq_true, beq_iff_eq] at h
  rcases h with h | ⟨-, h⟩
  · exact .inl h
  · exact .inr h

theorem step_error {c : Char} (h : step kind line groups i c = .error e) :
    e.pos = i ∧ e.opening = c ∧ isOpening kind c = true := by
  unfold step at h
  split at h
  · simp at h
  · split at h
    · simp at h
    · split at h
      · simp at h
      · split at h
        · next hopening =>
          split at h
          · simp at h
          · split at h
            · simp at h
            · obtain rfl := Except.error.inj h
              exact ⟨rfl, rfl, hopening⟩
        · split at h
          · simp at h
          · split at h <;> simp at h

theorem goBack_error (h : goBack kind line start i groups = .error e) :
    e.pos < i ∧ at? line e.pos = some e.opening ∧ isOpening kind e.opening = true := by
  induction i generalizing groups with
  | zero => simp [goBack] at h
  | succ i ih =>
    unfold goBack at h
    split at h
    · simp at h
    · split at h
      · simp at h
      · next c hc =>
        split at h
        · next hstep =>
          obtain rfl := Except.error.inj h
          obtain ⟨hpos, hc', hopening⟩ := step_error hstep
          rw [hpos, hc']
          exact ⟨Nat.lt_succ_self i, hc, hopening⟩
        · simp at h
        · obtain ⟨hlt, hat⟩ := ih h
          exact ⟨Nat.lt_succ_of_lt hlt, hat⟩

theorem scan_error (h : scan options line pos = .error e) :
    at? line e.pos = some e.opening ∧ isOpening options.kind e.opening = true := by
  simp only [scan] at h
  split at h
  · simp at h
  · split at h
    · next hg =>
      obtain rfl := Except.error.inj h
      exact (goBack_error hg).2
    · split at h <;> simp at h

def moved (n : Nat) :
    Except Error (Option (Match × Context)) → Except Error (Option (Match × Context))
  | .ok found => .ok (found.map fun p => (p.1.shift n, p.2))
  | .error (.malformedAbbreviation p message) => .error (.malformedAbbreviation (p + n) message)
  | .error e => .error e

namespace Request

def found (context : Context) (part : Bytes) (column : Nat) :
    Except Error (Option (Match × Context)) :=
  (scanner (Options.ofContext context) part column).map (Option.map (·, context))

theorem found_of_ok {context : Context} {part : Bytes} {column : Nat} {m : Option Match}
    (h : scan (Options.ofContext context) part column = .ok m) :
    found context part column = .ok (m.map (·, context)) := by
  rw [found, scanner, h]
  rfl

theorem found_of_error {context : Context} {part : Bytes} {column : Nat} {e : Mismatch}
    (h : scan (Options.ofContext context) part column = .error e) :
    found context part column = .error e.error := by
  rw [found, scanner, h]
  rfl

theorem run_eq (r : Request) (code : Bytes) : r.run scanner code =
    moved r.region.start (found r.context (cut code r.region) r.column) := by
  unfold run found
  split
  · next found hf =>
    rw [hf]
    cases found <;> rfl
  · next hf =>
    rw [hf]
    rfl
  · next e hne hf =>
    rw [hf]
    cases e with
    | malformedAbbreviation p message => exact absurd rfl (hne p message)
    | _ => rfl

theorem place_boundary (text : String) (location : Location) :
    let region := (place (bytes text) location).1
    region.start ≤ region.stop ∧ isBoundary (bytes text) region.start = true ∧
      isBoundary (bytes text) region.stop = true := by
  cases location with
  | offset pos =>
    obtain ⟨hle, -, hstart, hstop⟩ := lineSpan_boundary text pos
    exact ⟨hle, hstart, hstop⟩
  | range s =>
    have hstart := isBoundary_clamp (bytes text) s.start
    have hstop := isBoundary_clamp (bytes text) s.stop
    rcases Nat.le_total (clamp (bytes text) s.start) (clamp (bytes text) s.stop) with h | h
    · simp only [place, Span.between_of_le h]
      exact ⟨h, hstart, hstop⟩
    · simp only [place, Span.between, Nat.min_eq_right h, Nat.max_eq_left h]
      exact ⟨h, hstop, hstart⟩

theorem place_part (text : String) (location : Location) : ∃ part,
    cut (bytes text) (place (bytes text) location).1 = bytes part ∧
      PartAt (bytes part) (bytes text) (place (bytes text) location).1.start ∧
      (bytes part).size + (place (bytes text) location).1.start =
        (place (bytes text) location).1.stop := by
  obtain ⟨hle, hstart, hstop⟩ := place_boundary text location
  generalize (place (bytes text) location).1 = region at hle hstart hstop
  obtain ⟨a, b⟩ := region
  obtain ⟨l, part, r, rfl, rfl, rfl⟩ := exists_append_of_isBoundary hle hstart hstop
  exact ⟨part, cut_bytes_append l part r, partAt_bytes l part r, Nat.add_comm ..⟩

theorem lookAhead_of (v : View) (location : Location) (context : Option Context)
    (h : (of v location context).context.kind = .stylesheet) :
    (of v location context).context.lookAhead = false := by
  simp only [of] at h ⊢
  split
  · rfl
  · next hkind =>
    rw [if_neg hkind] at h
    exact absurd h hkind

end Request

section extraction

variable {v : View} {context : Option Context} {m : Match} {c : Context}

theorem extract_eq (hv : v.code = bytes text) (location : Location) (context : Option Context) :
    extract v location context =
      moved (Request.place (bytes text) location).1.start
        (Request.found (Request.of v location context).context
          (cut (bytes text) (Request.place (bytes text) location).1)
          ((Request.place (bytes text) location).2 -
            (Request.place (bytes text) location).1.start)) := by
  rw [← hv]
  exact Request.run_eq ..

theorem extract_ok (hv : v.code = bytes text) (h : extract v location context = .ok (some (m, c))) :
    let region := (Request.place (bytes text) location).1
    region.start ≤ m.start ∧ m.start ≤ m.location ∧ m.location ≤ m.stop ∧ m.stop ≤ region.stop ∧
      bytes m.abbreviation = cut (bytes text) ⟨m.location, m.stop⟩ ∧
      (c.kind = .stylesheet → c.lookAhead = false) := by
  obtain ⟨part, hcut, hpart, hsize⟩ := Request.place_part text location
  have hcontext := Request.lookAhead_of v location context
  rw [extract_eq hv, hcut] at h
  generalize (Request.place (bytes text) location).1 = region at h hpart hsize ⊢
  generalize (Request.of v location context).context = context at h hcontext
  generalize (Request.place (bytes text) location).2 - region.start = column at h
  cases hs : scan (Options.ofContext context) (bytes part) column with
  | error e => simp [Request.found_of_error hs, Mismatch.error, moved] at h
  | ok found =>
    cases found with
    | none => simp [Request.found_of_ok hs, moved] at h
    | some n =>
      have hsound := Match.sound hs
      have hstop := hsound.stop_le
      have hpiece := hpart.cut_add (s := ⟨n.location, n.stop⟩) hstop
      simp only [Request.found_of_ok hs, moved, Option.map_some, Except.ok.injEq,
        Option.some.injEq, Prod.mk.injEq] at h
      obtain ⟨rfl, rfl⟩ := h
      refine ⟨Nat.le_add_left .., Nat.add_le_add_right hsound.start_le _,
        Nat.add_le_add_right hsound.location_le _, ?_, ?_, hcontext⟩
      · rw [← hsize]
        exact Nat.add_le_add_right hstop _
      · exact hsound.abbreviation_eq.trans hpiece.symm

theorem extract_malformed (hv : v.code = bytes text) {p : Nat} {message : String}
    (h : extract v location context = .error (.malformedAbbreviation p message)) :
    let region := (Request.place (bytes text) location).1
    region.start ≤ p ∧ p < region.stop ∧
      ∃ b, at? (bytes text) p = some b ∧
        isOpening (Request.of v location context).context.kind b = true := by
  obtain ⟨part, hcut, hpart, hsize⟩ := Request.place_part text location
  rw [extract_eq hv, hcut] at h
  generalize (Request.place (bytes text) location).1 = region at h hpart hsize ⊢
  generalize (Request.of v location context).context = context at h ⊢
  generalize (Request.place (bytes text) location).2 - region.start = column at h
  cases hs : scan (Options.ofContext context) (bytes part) column with
  | ok found => simp [Request.found_of_ok hs, moved] at h
  | error e =>
    obtain ⟨hat, hopening⟩ := scan_error hs
    have hlt := lt_size_of_at? hat
    simp only [Request.found_of_error hs, Mismatch.error, moved, Except.error.injEq,
      Error.malformedAbbreviation.injEq] at h
    obtain ⟨rfl, -⟩ := h
    refine ⟨Nat.le_add_left .., by omega, e.opening, ?_, hopening⟩
    rw [hpart.at?_add hlt, hat]

end extraction

/-- What is extracted lies in the region that the location stands for, as it is written there, and
is a matter of that region alone: where the same region is scanned up to the same place in it, the
answer is the same, counted from where the region begins. -/
theorem extract_in_region (text : String) (l : Language) (location : Location)
    (context : Option Context) :
    let v := (Document.ofText (bytes text) l).view
    let place := Request.place (bytes text) location
    (∀ m c, extract v location context = .ok (some (m, c)) →
      place.1.start ≤ m.start ∧ m.start ≤ m.location ∧ m.location ≤ m.stop ∧
        m.stop ≤ place.1.stop ∧ bytes m.abbreviation = cut (bytes text) ⟨m.location, m.stop⟩ ∧
        (c.kind = .stylesheet → c.lookAhead = false)) ∧
    (∀ p message, extract v location context = .error (.malformedAbbreviation p message) →
      place.1.start ≤ p ∧ p < place.1.stop ∧
        ∃ b, at? (bytes text) p = some b ∧ (b = '(' ∨ b = '[' ∨ b = '{')) ∧
    (∀ (text' : String) (l' : Language) (location' : Location) (c : Context),
      let v' := (Document.ofText (bytes text') l').view
      let place' := Request.place (bytes text') location'
      cut (bytes text) place.1 = cut (bytes text') place'.1 →
      place.2 - place.1.start = place'.2 - place'.1.start →
      ∃ answer, extract v location (some c) = moved place.1.start answer ∧
        extract v' location' (some c) = moved place'.1.start answer) := by
  refine ⟨fun m c h => extract_ok rfl h, fun p message h => ?_, ?_⟩
  · obtain ⟨hle, hlt, b, hat, hopening⟩ := extract_malformed rfl h
    exact ⟨hle, hlt, b, hat, isOpening_cases hopening⟩
  · intro text' l' location' c v' place' hcut hcolumn
    refine ⟨_, extract_eq rfl .., ?_⟩
    rw [hcut, hcolumn]
    exact extract_eq rfl ..

theorem extract_in_region_crlf :
    let v := (Document.ofText (bytes "é\nul>li\r\n(a]") Document.css).view
    let v' := (Document.ofText (bytes "ul>li\r\n") Document.css).view
    (∃ m, extract v (.offset 9) (some {}) = .ok (some (m, {})) ∧ 3 ≤ m.start ∧ m.stop ≤ 8 ∧
      bytes m.abbreviation = cut (bytes "é\nul>li\r\n(a]") ⟨m.location, m.stop⟩) ∧
    (∃ p message, extract v (.range ⟨20, 10⟩) (some {}) = .error (.malformedAbbreviation p message) ∧
      10 ≤ p ∧ p < 13 ∧
        ∃ b, at? (bytes "é\nul>li\r\n(a]") p = some b ∧ (b = '(' ∨ b = '[' ∨ b = '{')) ∧
    ∃ answer, extract v (.offset 9) (some {}) = moved 3 answer ∧
      extract v' (.offset 6) (some {}) = moved 0 answer := by
  intro v v'
  obtain ⟨hok, -, hsame⟩ :=
    extract_in_region "é\nul>li\r\n(a]" Document.css (.offset 9) (some {})
  obtain ⟨-, hmalformed, -⟩ :=
    extract_in_region "é\nul>li\r\n(a]" Document.css (.range ⟨20, 10⟩) (some {})
  have hplace : Request.place (bytes "é\nul>li\r\n(a]") (.offset 9) = (⟨3, 8⟩, 9) := by
    decide +kernel
  have hplace' : Request.place (bytes "ul>li\r\n") (.offset 6) = (⟨0, 5⟩, 6) := by
    decide +kernel
  have hrange : Request.place (bytes "é\nul>li\r\n(a]") (.range ⟨20, 10⟩) = (⟨10, 13⟩, 13) := by
    decide +kernel
  have hcut : cut (bytes "é\nul>li\r\n(a]") ⟨3, 8⟩ = bytes "ul>li" := by
    decide +kernel
  have hcut' : cut (bytes "é\nul>li\r\n(a]") ⟨10, 13⟩ = bytes "(a]" := by
    decide +kernel
  have hscan : Request.found {} (bytes "ul>li") 6 = .ok (some (⟨"ul>li", 0, 0, 5⟩, {})) := by
    with_unfolding_all rfl
  have hscan' : Request.found {} (bytes "(a]") 3 =
      .error (.malformedAbbreviation 0 "'(' does not match ']'") := by
    with_unfolding_all rfl
  have hfound : extract v (.offset 9) (some {}) = .ok (some (⟨"ul>li", 3, 3, 8⟩, {})) := by
    rw [extract_eq rfl, hplace, hcut]
    exact congrArg (moved 3) hscan
  have hfault : extract v (.range ⟨20, 10⟩) (some {}) =
      .error (.malformedAbbreviation 10 "'(' does not match ']'") := by
    rw [extract_eq rfl, hrange, hcut']
    exact congrArg (moved 10) hscan'
  have hm := hok _ _ hfound
  have he := hmalformed _ _ hfault
  have hs := hsame "ul>li\r\n" Document.css (.offset 6) {}
  rw [hplace] at hm
  rw [hrange] at he
  rw [hplace, hplace'] at hs
  exact ⟨⟨_, hfound, hm.1, hm.2.2.2.1, hm.2.2.2.2.1⟩, ⟨_, _, hfault, he⟩, hs (by decide +kernel) rfl⟩

end Caret.Abbreviation
