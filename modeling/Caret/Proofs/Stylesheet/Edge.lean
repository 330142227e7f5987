import Caret.Proofs.Stylesheet.Reading
import Caret.Proofs.Text.Whole

namespace Caret.Stylesheet

open Text

structure Trimmed (code : Bytes) (s : Span) : Prop extends Whole code s where
  first : test isBlank code s.start = false
  last : s.start < s.stop → test isBlank code (s.stop - 1) = false

structure Edged (code : Bytes) (s : Stylesheet) : Prop where
  rules : ∀ r ∈ s.rules, Trimmed code r.selector
  declarations : ∀ d ∈ s.declarations, Trimmed code d.span
  names : ∀ d ∈ s.declarations, Whole code d.name
  values : ∀ d ∈ s.declarations, Whole code d.value
  comments : ∀ c ∈ s.comments, Whole code c

variable {text : String} {code : Bytes} {stop pos pos' : Nat}

theorem trim_start_of_first {s : Span} (hs : s.stop ≤ code.size) (hle : s.start ≤ s.stop)
    (hfirst : test isBlank code s.start = false) : (trim code s).start = s.start := by
  simp only [trim, Nat.min_eq_left hs, Nat.min_eq_left (Nat.le_trans hle hs), skip_eq_self hfirst]

theorem Trimmed.trim_eq {s : Span} (h : Trimmed code s) (hle : s.start ≤ s.stop) :
    trim code s = s := by
  have hs := le_size_of_isBoundary h.stop
  exact congr (congrArg Span.mk (trim_start_of_first hs hle h.first)) (trim_stop hs h.last hle)

theorem trim_trimmed {s : Span} (h : Whole (bytes text) s) (hle : s.start ≤ s.stop)
    (hfirst : test isBlank (bytes text) s.start = false) :
    Trimmed (bytes text) (trim (bytes text) s) := by
  have hbegin := trim_start_of_first (le_size_of_isBoundary h.stop) hle hfirst
  exact { h.trim with first := hbegin ▸ hfirst, last := test_last_trim }

theorem comment_whole {i : Nat} (hstop : isBoundary (bytes text) stop = true) (hi : i < stop)
    (hk : (tokenAt (bytes text) stop i).kind = .comment) :
    Whole (bytes text) (tokenAt (bytes text) stop i).span := by
  refine ⟨?_, ?_⟩
  · rw [tokenAt_start]
    exact (isBoundary_of_at? (tokenAt_comment hk).1 (by decide)).1
  · have hpast : isBoundary (bytes text) (past "*/" (bytes text) stop (i + 2)) = true :=
      isBoundary_past (b := 47) (by decide) (by decide) hstop (i + 2)
    rw [(tokenAt_comment hk).2]
    -- `stop` may lie between the two first bytes of the comment
    rcases Nat.lt_or_eq_of_le (Nat.succ_le_of_lt hi) with hlt | rfl
    · rwa [Nat.max_eq_right (Nat.le_of_succ_le (le_past "*/" (bytes text) hlt))]
    · rwa [Nat.max_eq_left (past_le ..)]

theorem nameAndValue_whole {start : Nat} {content : Span} {colon : Option Nat}
    (hstart : isBoundary (bytes text) start = true) (hcontent : Whole (bytes text) content)
    (hc : ∀ c, colon = some c → at? (bytes text) c = some ':') :
    Whole (bytes text) (Draft.nameAndValue (bytes text) start content colon).1 ∧
      Whole (bytes text) (Draft.nameAndValue (bytes text) start content colon).2 := by
  cases colon with
  | some c =>
    obtain ⟨hbefore, hafter⟩ := isBoundary_of_at? (hc c rfl) (by decide)
    exact ⟨(Whole.between hstart hbefore).trim, (Whole.between hafter hcontent.stop).trim⟩
  | none =>
    simp only [Draft.nameAndValue]
    split
    · next hat =>
      have hword : isBoundary (bytes text)
          (skip (!isBlank ·) (bytes text) content.stop content.start) = true :=
        isBoundary_skip_of_not (fun c hc => isBlank_ascii (by simpa using hc)) hcontent.stop
          (Nat.le_trans (le_skip ..) (Nat.le_of_lt hat.2.2))
      exact ⟨⟨hcontent.start, hword⟩, Whole.trim ⟨hword, hcontent.stop⟩⟩
    · exact ⟨hcontent, ⟨hcontent.stop, hcontent.stop⟩⟩

structure Draft.Edged (code : Bytes) (pos : Nat) (d : Draft) : Prop where
  idle : d.item = none → isBoundary code pos = true
  item : ∀ s, d.item = some s → isBoundary code s = true
  sheet : d.sheet.Edged code

namespace Draft

variable {d : Draft}

theorem edged_empty (hp : isBoundary code pos = true) : Edged code pos {} where
  idle _ := hp
  item := by simp
  sheet :=
    { rules := by simp
      declarations := by simp
      names := by simp
      values := by simp
      comments := by simp }

theorem Edged.beginItem (h : d.Edged code pos) : (d.beginItem pos).Edged code pos' := by
  cases hi : d.item with
  | some s =>
    rw [beginItem_of_some hi]
    exact { h with idle := by simp [hi] }
  | none =>
    refine { h with idle := by simp [Draft.beginItem, hi], item := ?_ }
    intro s hs
    obtain rfl : pos = s := by simpa [Draft.beginItem, hi] using hs
    exact h.idle hi

theorem Edged.endItem (h : d.Edged code pos) (hp : isBoundary code pos' = true) :
    d.endItem.Edged code pos' where
  idle _ := hp
  item := by simp [Draft.endItem]
  sheet := h.sheet

theorem Edged.declarationOf_trimmed (h : d.Edged (bytes text) pos) (hv : d.Valid (bytes text) pos)
    (hp : isBoundary (bytes text) pos = true) {s : Nat} (hs : d.item = some s)
    {terminator : Option Nat}
    (ht : ∀ t, terminator = some t → t = pos ∧ at? (bytes text) pos = some ';') :
    Trimmed (bytes text) (declarationOf (bytes text) d s pos terminator).span := by
  have hsize := le_size_of_isBoundary hp
  obtain ⟨hlt, hblank⟩ := hv.item s hs
  obtain ⟨hstart, hstop, hle, -⟩ := hv.content_spec hsize hs
  have hcontent := trim_trimmed (s := ⟨s, pos⟩) ⟨h.item s hs, hp⟩ (Nat.le_of_lt hlt) hblank
  cases hterm : terminator with
  | none =>
    have hspan : (declarationOf (bytes text) d s pos none).span = trim (bytes text) ⟨s, pos⟩ :=
      Span.between_of_le (Nat.le_of_lt (hstart.symm ▸ hstop))
    rwa [hspan]
  | some t =>
    obtain ⟨rfl, hat⟩ := ht t hterm
    have hspan : (declarationOf (bytes text) d s t (some t)).span = ⟨s, t + 1⟩ := by
      simp only [declarationOf, hstart, Option.elim_some]
      exact Span.between_of_le (by omega)
    rw [hspan]
    exact
      { start := h.item s hs
        stop := (isBoundary_of_at? hat (by decide)).2
        first := hblank
        last := fun _ => by rw [Nat.add_sub_cancel, test_of_at? hat]; rfl }

theorem Edged.declarationOf_whole (h : d.Edged (bytes text) pos) (hv : d.Valid (bytes text) pos)
    (hp : isBoundary (bytes text) pos = true) {s : Nat} (hs : d.item = some s)
    (terminator : Option Nat) :
    Whole (bytes text) (declarationOf (bytes text) d s pos terminator).name ∧
      Whole (bytes text) (declarationOf (bytes text) d s pos terminator).value :=
  nameAndValue_whole (h.item s hs) (Whole.trim (s := ⟨s, pos⟩) ⟨h.item s hs, hp⟩)
    fun c hc => (hv.colon c hc).1

theorem Edged.addDeclaration (h : d.Edged (bytes text) pos) (hv : d.Valid (bytes text) pos)
    (hp : isBoundary (bytes text) pos = true) {terminator : Option Nat}
    (ht : ∀ t, terminator = some t → t = pos ∧ at? (bytes text) pos = some ';') :
    (d.addDeclaration (bytes text) pos terminator).Edged (bytes text) pos := by
  cases hi : d.item with
  | none =>
    rwa [addDeclaration_of_none hi]
  | some s =>
    rw [hv.addDeclaration_eq (le_size_of_isBoundary hp) hi]
    obtain ⟨hname, hvalue⟩ := h.declarationOf_whole hv hp hi terminator
    have hspan := h.declarationOf_trimmed hv hp hi ht
    exact
      { h with
        sheet :=
          { h.sheet with
            declarations := Array.forall_mem_push.mpr ⟨hspan, h.sheet.declarations⟩
            names := Array.forall_mem_push.mpr ⟨hname, h.sheet.names⟩
            values := Array.forall_mem_push.mpr ⟨hvalue, h.sheet.values⟩ } }

theorem Edged.openRule (h : d.Edged (bytes text) pos) (hv : d.Valid (bytes text) pos)
    (hat : at? (bytes text) pos = some '{') :
    (d.openRule (bytes text) pos).endItem.Edged (bytes text) (pos + 1) := by
  obtain ⟨hp, hnext⟩ := isBoundary_of_at? hat (by decide)
  have hle := hv.edge_le
  have hselector : Trimmed (bytes text) (trim (bytes text) ⟨d.item.getD pos, pos⟩) := by
    apply trim_trimmed ⟨?_, hp⟩ hle ?_
    · cases hi : d.item with
      | none => exact hp
      | some s => exact h.item s hi
    · cases hi : d.item with
      | none => exact (test_of_at? hat).trans rfl
      | some s => exact (hv.item s hi).2
  have hedged : (d.openRule (bytes text) pos).Edged (bytes text) pos := by
    refine { h with sheet := { h.sheet with rules := ?_ } }
    simp only [Draft.openRule, Span.between_of_le hle]
    exact Array.forall_mem_push.mpr ⟨hselector, h.sheet.rules⟩
  exact hedged.endItem hnext

theorem Edged.closeRule (h : d.Edged code pos) (hp : isBoundary code pos' = true) :
    (d.closeRule pos).Edged code pos' := by
  unfold Draft.closeRule
  split
  · exact { h with idle := fun _ => hp }
  · refine { h with idle := fun _ => hp, sheet := { h.sheet with rules := ?_ } }
    exact forall_mem_modify (f := Rule.closeAt pos) h.sheet.rules fun _ hr => hr

theorem Edged.pushComment (h : d.Edged code pos) {c : Span} (hc : Whole code c) :
    Edged code c.stop { d with sheet.comments := d.sheet.comments.push c } :=
  { h with
    idle := fun _ => hc.stop
    sheet := { h.sheet with comments := Array.forall_mem_push.mpr ⟨hc, h.sheet.comments⟩ } }

theorem Edged.absorb {i : Nat} (h : d.Edged (bytes text) i) (hv : d.Valid (bytes text) i)
    (hstop : isBoundary (bytes text) stop = true) (hi : i < stop) :
    (d.absorb (bytes text) (tokenAt (bytes text) stop i)).Edged (bytes text)
      (tokenAt (bytes text) stop i).span.stop := by
  have hitem : (d.beginItem i).Edged (bytes text)
      (tokenAt (bytes text) stop i).span.stop := h.beginItem
  have hchar {k : Token.Kind} {c : Char}
      (hk : (tokenAt (bytes text) stop i).kind = k) (hc : k.char? = some c)
      (hascii : c.toNat < 128) : at? (bytes text) i = some c ∧
        isBoundary (bytes text) i = true ∧
        isBoundary (bytes text) (tokenAt (bytes text) stop i).span.stop = true := by
    obtain ⟨hat, hstop⟩ := tokenAt_char hk hc
    rw [hstop]
    exact ⟨hat, isBoundary_of_at? hat hascii⟩
  have hstep := absorbs (tokenAt_start (bytes text) stop i) (bytes text) d
  generalize d.absorb (bytes text) (tokenAt (bytes text) stop i) = e at hstep ⊢
  cases hstep with
  | comment hk => exact h.pushComment (comment_whole hstop hi hk)
  | blank hk =>
    obtain ⟨hblank, hstop⟩ := tokenAt_blank hk
    obtain ⟨c, hat, hc⟩ := test_iff.mp hblank
    rw [hstop]
    exact { h with idle := fun _ => (isBoundary_of_at? hat (isBlank_ascii hc)).2 }
  | item => exact hitem
  | openParen => exact { hitem with }
  | closeParen hk =>
    obtain ⟨-, -, hnext⟩ := hchar hk rfl (by decide)
    exact { h with idle := fun _ => hnext }
  | colon hk _ _ hs =>
    exact { h with idle := by simp [hs] }
  | semicolon hk =>
    obtain ⟨hat, hp, hnext⟩ := hchar hk rfl (by decide)
    refine (h.addDeclaration hv hp fun t ht => ?_).endItem hnext
    exact ⟨(Option.some.inj ht).symm, hat⟩
  | openBrace hk =>
    obtain ⟨hat, hstop⟩ := tokenAt_char hk rfl
    rw [hstop]
    exact h.openRule hv hat
  | closeBrace hk =>
    obtain ⟨-, hp, hnext⟩ := hchar hk rfl (by decide)
    exact ((h.addDeclaration hv hp (by simp)).endItem hp).closeRule hnext

theorem Edged.finish {isInline : Bool} (h : d.Edged (bytes text) pos)
    (hv : d.Valid (bytes text) pos) (hp : isBoundary (bytes text) pos = true) :
    (d.finish (bytes text) isInline pos).Edged (bytes text) := by
  have hrules {rules : Array Rule} (hr : ∀ r ∈ rules, Trimmed (bytes text) r.selector)
      (opened : List Nat) :
      ∀ r ∈ opened.foldl (fun rules i => rules.modify i fun r =>
        { r with body.stop := pos, span.stop := pos }) rules, Trimmed (bytes text) r.selector := by
    induction opened generalizing rules with
    | nil => exact hr
    | cons i opened ih =>
      exact ih (forall_mem_modify (P := fun r : Rule => Trimmed (bytes text) r.selector) hr
        fun _ h => h)
  simp only [Draft.finish]
  split
  · have hadd : (d.addDeclaration (bytes text) pos none).sheet.Edged (bytes text) :=
      (h.addDeclaration hv hp (by simp)).sheet
    exact { hadd with rules := hrules hadd.rules _ }
  · exact { h.sheet with rules := hrules h.sheet.rules _ }

end Draft

theorem parseRegion_spec {region : Span} (h : Whole (bytes text) region) (isInline : Bool) :
    (parseRegion (bytes text) region isInline).WellFormed (bytes text) region.stop ∧
      (parseRegion (bytes text) region isInline).Edged (bytes text) := by
  have hs := le_size_of_isBoundary h.stop
  simp only [parseRegion, Nat.min_eq_left hs]
  rcases Nat.le_total region.start region.stop with hle | hle
  · have hrun := foldl_tokens
      (P := fun i d => Draft.Valid (bytes text) i d ∧ d.Edged (bytes text) i)
      (fun i d hi hd => ⟨hd.1.absorb hi hs, hd.2.absorb hd.1 h.stop hi⟩)
      ⟨Draft.valid_empty _ region.start, Draft.edged_empty h.start⟩ hle
    exact ⟨hrun.1.finish hs, hrun.2.finish hrun.1 h.stop⟩
  · have hvalid := Draft.valid_empty (bytes text) region.stop
    rw [tokens_of_le hle]
    exact ⟨hvalid.finish hs, (Draft.edged_empty h.stop).finish hvalid h.stop⟩

theorem parse_edged (text : String) : (parse (bytes text)).Edged (bytes text) :=
  (parseRegion_spec (whole_self _) false).2

end Caret.Stylesheet
