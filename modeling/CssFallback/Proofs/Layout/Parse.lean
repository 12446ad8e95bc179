import CssFallback.Proofs.Layout.Blocks
import CssFallback.Proofs.Stylesheet.Host

/-!
# Reading a laid-out stylesheet

A list of rules is read in the same way in the sheet itself and in a grouping at-rule.
Whatever its layout, a stylesheet is read as the rules of its tree, in the order in which
they start.
-/

set_option autoImplicit false

namespace CssFallback

namespace Layout
open Reading

section
variable (position : Nat) (l : RuleList) (place : ListPlace)

theorem takes_list_gap (hl : l.pending = none) {g rest : Text} (hg : Gap true g)
    (hr : rest.StartsOff isSpace) :
    ∃ q, (atList position l place).Takes g rest (atList q l place) := by
  obtain ⟨ts, hts, hfill⟩ := hg.split hr
  suffices hrun : ∃ q, (atList position l place).run ts = .ok (atList q l place) by
    obtain ⟨q, hrun⟩ := hrun
    exact ⟨q, ts, hts, hrun⟩
  clear hts
  induction ts generalizing position with
  | nil => exact ⟨position, rfl⟩
  | cons t ts ih =>
    obtain ⟨q, hrun⟩ := ih (position + t.text.byteSize) fun x hx => hfill x (by simp [hx])
    have hkind : t.kind = .space ∨ t.kind = .comment ∨ t.kind = .semicolon := by
      rcases hfill t (by simp) with ht | ⟨-, ht⟩
      · exact (trivia_cases ht).imp_right .inl
      · exact .inr (.inr ht)
    have hread : l.read t = .stay l [] := by
      rcases hkind with ht | ht | ht <;> simp [RuleList.read, hl, ht]
    have hclose : t.kind ≠ .closing .curly := by rcases hkind with ht | ht | ht <;> simp [ht]
    exact ⟨q, by rw [run, step_list _ _ _ hclose hread]; exact hrun⟩

theorem run_prelude {p : Prelude} (hp : p.held = []) {ts : List Token} (h : ∀ t ∈ ts, IsPlain t)
    (found : List Rule) : ∃ q, (atList position ⟨found, some p⟩ place).run ts =
      .ok (atList q ⟨found, some ⟨p.grouping, ts.reverse ++ p.kept, []⟩⟩ place) := by
  induction ts generalizing position p with
  | nil =>
    cases p
    cases hp
    exact ⟨position, rfl⟩
  | cons t ts ih =>
    obtain ⟨hopens, hsemi, hclose⟩ := h t (by simp)
    have hcurly := (h t (by simp)).not_curly
    have hread : (⟨found, some p⟩ : RuleList).read t = .stay ⟨found, some (p.push t)⟩ [] := by
      simp only [RuleList.read]
      rw [hopens]
      rfl
    obtain ⟨q, hrun⟩ := ih (position + t.text.byteSize) (p := p.push t) rfl
      fun x hx => h x (by simp [hx])
    refine ⟨q, ?_⟩
    rw [run, step_list _ _ _ hclose hread]
    simpa [Prelude.push, hp] using hrun

theorem takes_list_head (hl : l.pending = none) {head : Head} (hh : head.isProper = true)
    {space : Text} (hs : space.all isSpace = true) (rest : Text) : ∃ q,
      (atList position l place).Takes (head.text ++ space ++ ['\x7b']) rest (within q l
        (if head.isGrouping then .list .empty else .block (.empty head.text)) place) := by
  obtain ⟨found, pending⟩ := l
  obtain rfl : pending = none := hl
  obtain ⟨t, ts, hts, hhead, htrim⟩ := split_front hh hs rest
  obtain ⟨hopens, hsemi, hclose⟩ := hhead.plain t (by simp)
  have hcurly := (hhead.plain t (by simp)).not_curly
  have hfirst : (⟨found, none⟩ : RuleList).read t = .stay ⟨found, some (.start t)⟩ [] := by
    have hsolid := hhead.solid
    simp only [RuleList.read]
    split
    all_goals rename_i hk
    · simp [Token.isTrivia, hk] at hsolid
    · simp [Token.isTrivia, hk] at hsolid
    · exact absurd hk hhead.kind.1
    · exact absurd hk hhead.kind.2
    · exact absurd hk hsemi
    · exact absurd hk hcurly
    · rw [hopens]
      rfl
  have hplain : ∀ x ∈ ts, IsPlain x := fun x hx => hhead.plain x (by simp [hx])
  obtain ⟨q, hrun⟩ :=
    run_prelude (position + t.text.byteSize) place (p := .start t) rfl hplain found
  have hframe : RuleList.frameOf ⟨(Prelude.start t).grouping, ts.reverse ++ (Prelude.start t).kept, []⟩ =
      if head.isGrouping then .list .empty else .block (.empty head.text) := by
    simp [RuleList.frameOf, Prelude.start, Prelude.selector, hhead.grouping, htrim]
  have hopen := step_enter q ⟨found, some ⟨(Prelude.start t).grouping,
    ts.reverse ++ (Prelude.start t).kept, []⟩⟩ place (t := ⟨.opening .curly, ['\x7b']⟩) (by simp) rfl
  rw [hframe] at hopen
  refine ⟨q + Text.byteSize ['\x7b'], Takes.append ⟨t :: ts, hts, ?_⟩ (takes_mark rfl hopen)⟩
  rw [run, step_list _ _ _ hclose hfirst]
  exact hrun

theorem takes_list_close (f : Frame) (rest : Text) :
    (within position l f place).Takes ['\x7d'] rest
      (atList (position + Text.byteSize ['\x7d']) (l.receive (f.rules position)) place) :=
  takes_mark rfl (step_leave position l place f rfl)

end

/-! ## Sheets -/

/-- The text adds the rules to a list that stands in a place. -/
def Adds (place : ListPlace) (u rest : Text) (outlines : List Outline) : Prop :=
  ∀ position (l : RuleList), l.pending = none → ∃ q next,
    (atList position l place).Takes u rest (atList q next place) ∧ next.pending = none ∧
      next.found.map Rule.outline = l.found.map Rule.outline ++ outlines

/-- The text is the inside of a block, behind what stands in front of it, and makes the rules. -/
def Makes (place : ListPlace) (head : Head) (u rest : Text) (outlines : List Outline) : Prop :=
  ∀ position l, ∃ q f, (within position l (if head.isGrouping then .list .empty else
    .block (.empty head.text)) place).Takes u ('\x7d' :: rest) (within q l f place) ∧
      (f.rules q).map Rule.outline = outlines

theorem adds_gap (place : ListPlace) {g rest : Text} (hg : Gap true g) (hr : rest.StartsOff isSpace) :
    Adds place g rest [] := by
  intro position l hl
  obtain ⟨q, htakes⟩ := takes_list_gap position l place hl hg hr
  exact ⟨q, l, htakes, hl, by simp⟩

/-- A rule of a list, or a list inside it, with the gap in front, its block and what comes
later. -/
theorem adds_enclosed {place : ListPlace} {g space bu u rest : Text} (hg : Gap true g) {head : Head}
    (hh : head.isProper = true) (hs : space.all isSpace = true) {inner later : List Outline}
    (hbody : Makes place head bu (u ++ rest) inner) (hlater : Adds place u rest later) :
    Adds place (g ++ head.text ++ space ++ '\x7b' :: (bu ++ '\x7d' :: u)) rest (inner ++ later) := by
  intro position l hl
  have hoff : (head.text ++ space ++ ['\x7b'] ++ (bu ++ (['\x7d'] ++ u)) ++ rest).StartsOff isSpace := by
    simpa using head_off_space hh (space ++ '\x7b' :: (bu ++ '\x7d' :: (u ++ rest)))
  obtain ⟨q₁, hgap⟩ := takes_list_gap position l place hl hg hoff
  obtain ⟨q₂, hopen⟩ := takes_list_head q₁ l place hl hh hs (bu ++ (['\x7d'] ++ u) ++ rest)
  obtain ⟨q₃, f, hinner, hrules⟩ := hbody q₂ l
  have hclose := takes_list_close q₃ l place f (u ++ rest)
  obtain ⟨q₄, next, hnext, hpending, hfound⟩ := hlater _ (l.receive (f.rules q₃)) hl
  refine ⟨q₄, next, ?_, hpending, ?_⟩
  · have := hgap.append (hopen.append (Takes.append hinner (hclose.append hnext)))
    simpa [List.append_assoc] using this
  · rw [hfound, RuleList.receive, List.map_append, hrules, List.append_assoc]

theorem adds_sheet {s : Sheet} {u : Text} (h : s.Prints u) (hs : s.isProper = true) (place : ListPlace)
    {rest : Text} (hr : rest.StartsOff isSpace) : Adds place u rest s.outlines := by
  induction h generalizing place rest with
  | nil hg => exact adds_gap place hg hr
  | @rule head body later g space bu u hg hsp hb hlater ih =>
    simp only [Sheet.isProper, Bool.and_eq_true, Bool.not_eq_true'] at hs
    obtain ⟨⟨⟨hhead, hgroup⟩, hbody⟩, hrest⟩ := hs
    have hblock : Makes place head bu (u ++ rest) (⟨head.text, body.entries⟩ :: body.outlines) := by
      intro q l
      obtain ⟨q', inner, hinner, hgains⟩ := takes_contents hb hbody q (around l place).1
        (.empty head.text) (around l place).2 rfl (u ++ rest)
      rw [hgroup]
      exact ⟨q', .block inner, hinner, hgains.rules_outlines q'⟩
    exact adds_enclosed hg hhead hsp hblock (ih hrest place hr)
  | @group head body later g space bu u hg hsp hb hlater ihb ih =>
    simp only [Sheet.isProper, Bool.and_eq_true] at hs
    obtain ⟨⟨⟨hhead, hgroup⟩, hbody⟩, hrest⟩ := hs
    have hlist : Makes place head bu (u ++ rest) body.outlines := by
      intro q l
      obtain ⟨q', inner, hinner, -, hfound⟩ := ihb hbody (some (around l place))
        (Text.starts_off_cons (u ++ rest) (c := '\x7d') rfl) q .empty rfl
      have hrules : inner.found.map Rule.outline = body.outlines := by
        simpa [RuleList.empty] using hfound
      rw [hgroup]
      exact ⟨q', .list inner, hinner, hrules⟩
    exact adds_enclosed hg hhead hsp hlist (ih hrest place hr)

end Layout

namespace Stylesheet

/-- Every layout of a tree is read as the rules of the tree. -/
theorem parse_layout {s : Layout.Sheet} {t : Text} (hs : s.isProper = true) (h : s.Prints t) :
    ∃ sheet, parse t = .ok sheet ∧ sheet.rules.map Rule.outline = s.outlines := by
  obtain ⟨q, next, ⟨ts, hts, hrun⟩, -, hfound⟩ :=
    Layout.adds_sheet h hs none (Text.starts_off_nil _) 0 .empty rfl
  have hlex : lex t = ts := by simpa [Splits, lex] using hts
  have hstart : Reading.start.run (lex t) = .ok (Reading.atList q next none) := by
    rw [hlex]
    exact hrun
  refine ⟨_, by rw [parse, hstart], ?_⟩
  simpa [Reading.finish, Reading.atList, Reading.around, Reading.endFrames, RuleList.empty] using hfound

/-- A rule in a grouping at-rule, with `!important` in capitals. -/
theorem parse_layout_media :
    Layout.Sheet.isProper (.group (.atRule "media".toList (some "print".toList))
      (.rule (.selector "a:hover".toList) (.entry ⟨"color".toList, "red".toList, true⟩ .nil) .nil)
      .nil) = true ∧
    Layout.Sheet.Prints (.group (.atRule "media".toList (some "print".toList))
      (.rule (.selector "a:hover".toList) (.entry ⟨"color".toList, "red".toList, true⟩ .nil) .nil)
      .nil) "@media print\x7ba:hover \x7bcolor :red ! IMPORTANT\x7d;\x7d".toList ∧
    ∃ sheet, parse "@media print\x7ba:hover \x7bcolor :red ! IMPORTANT\x7d;\x7d".toList = .ok sheet ∧
      sheet.rules.map Rule.outline =
        [⟨"a:hover".toList, [⟨"color".toList, "red".toList, true⟩]⟩] := by
  have hspace : ∀ spare, Layout.Gap spare [' '] := fun _ => .space rfl .nil
  have hmark : Layout.PrintsMark true ([' '] ++ '!' :: ([' '] ++ "IMPORTANT".toList)) :=
    .important rfl rfl rfl
  have hentry : Layout.PrintsEntry ⟨"color".toList, "red".toList, true⟩ _ :=
    .intro (hspace false) .nil hmark .nil
  have hnone : ([] : Text).all isSpace = true := rfl
  have hrule : Layout.Sheet.Prints (.rule (.selector "a:hover".toList)
      (.entry ⟨"color".toList, "red".toList, true⟩ .nil) .nil) _ :=
    .rule .nil (show [' '].all isSpace = true from rfl) (.last .nil hentry) (.nil (.semicolon rfl .nil))
  have hsheet : Layout.Sheet.Prints (.group (.atRule "media".toList (some "print".toList)) _ .nil) _ :=
    .group .nil hnone hrule (.nil .nil)
  exact ⟨by decide, hsheet, parse_layout (by decide) hsheet⟩

end Stylesheet
end CssFallback
