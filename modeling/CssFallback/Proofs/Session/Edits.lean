import CssFallback.Proofs.Canonical
import CssFallback.Proofs.Session.Serialization
import CssFallback.Proofs.Stylesheet.Growth

/-!
# Edits along a session

Fallbacks are added to the rules of a sheet, and new declarations behind those of its
rules. What is written then is read back as the rules that were edited, unless a rule
that gets new declarations ends where they cannot be told from what stands there.
-/

set_option autoImplicit false

namespace CssFallback

theorem Declaration.Written.fallback {d : Declaration} (h : d.Written) {v : Text}
    (hv : ReadsBack v) : (d.fallback v).Written := by
  obtain ⟨head, tail, hhead, htail, hsep⟩ := h.separator
  obtain ⟨ts, hts⟩ := hv
  refine ⟨h.name, ⟨head, tail, hhead, htail, ?_⟩, h.indent, ts, ?_⟩
  · rw [Declaration.fallback, hsep]
    exact Separator.plain_spaced (blank_of_all_space hhead) (blank_of_all_space htail)
  · simpa [Declaration.fallback, Declaration.importance] using hts

theorem Layout.reads_back {v : Text} (h : isValue v = true) : ReadsBack v := by
  obtain ⟨ts, hts⟩ := reads_value (.fresh [] v false) h
  exact ⟨ts, by simpa [Declaration.fresh, Declaration.importance] using hts⟩

namespace Declarations

theorem led_insert {front back : Declarations} {d : Declaration} {v : Text}
    (hname : IsName d.property) (hv : ReadsBack v) (h : Led (front ++ d :: back)) :
    Led (front ++ d.fallback v :: d :: back) := by
  induction front with
  | nil => exact ⟨fun _ => ⟨d, v, rfl, rfl, hv, hname⟩, h⟩
  | cons e front ih =>
    refine ⟨fun he => ?_, ih h.2⟩
    obtain ⟨x, w, hx, rfl, hw⟩ := h.1 he
    cases front with
    | nil =>
      obtain rfl := Option.some.inj hx
      exact ⟨d.fallback v, w, rfl, (d.fallback_fallback v w).symm, hw⟩
    | cons c front => exact ⟨x, w, hx, rfl, hw⟩

namespace Grown
variable {list : Declarations}

theorem insert {front back : Declarations} {d : Declaration} {v : Text} (hname : IsName d.property)
    (hv : ReadsBack v) (h : Grown (front ++ d :: back)) :
    Grown (front ++ d.fallback v :: d :: back) := by
  obtain ⟨main, tail, hlist, hled, htail⟩ := h
  -- the declaration is among those that were added behind the led ones
  have behind : ∀ more : Declarations, front = main ++ more → tail = more ++ d :: back →
      Grown (front ++ d.fallback v :: d :: back) := by
    rintro more rfl rfl
    refine ⟨main, more ++ d.fallback v :: d :: back, by simp, hled, fun x hx => ?_⟩
    by_cases hfallback : x = d.fallback v
    · subst hfallback
      exact ⟨rfl, (htail d (by simp)).2.fallback hv⟩
    · refine htail x ?_
      simpa [hfallback] using hx
  rcases List.append_eq_append_iff.mp hlist with ⟨more, hmain, hmore⟩ | ⟨more, hfront, htail'⟩
  · cases more with
    | nil => exact behind [] (by simpa using hmain.symm) (by simpa using hmore.symm)
    | cons c more =>
      obtain ⟨rfl, rfl⟩ := List.cons.inj hmore
      subst hmain
      exact ⟨front ++ d.fallback v :: d :: more, tail, by simp, led_insert hname hv hled, htail⟩
  · exact behind more hfront htail'

theorem push (h : list.Grown) {d : Declaration} (hplace : d.place = none) (hd : d.Written) :
    Grown (list ++ [d]) := by
  obtain ⟨main, tail, rfl, hled, htail⟩ := h
  refine ⟨main, tail ++ [d], by simp, hled, fun x hx => ?_⟩
  rcases List.mem_append.mp hx with hx | hx
  · exact htail x hx
  · rw [List.mem_singleton.mp hx]
    exact ⟨hplace, hd⟩

end Grown
end Declarations

/-- The step edits a rule of the sheet in one of two ways: it adds a fallback to a
declaration whose name is plain, or a new declaration, where the rule is ready for it. -/
def SheetStep.Edits (s : Stylesheet) : SheetStep → Prop
  | .inRule k (.add index value) => Layout.isValue value = true ∧
      ∀ r d, s.rules[k]? = some r → r.declarations[index]? = some d → IsName d.property
  | .inRule k (.push d) => s.Ready k ∧ ∃ property value important,
      d = .fresh property value important ∧ IsName property ∧ Layout.isValue value = true
  | _ => False

/-- Each step edits the sheet that it finds. -/
def SheetSession.Edits (x : SheetSession) : List SheetStep → Prop
  | [] => True
  | step :: rest => step.Edits x.sheet ∧ (x.apply step).1.Edits rest

namespace Stylesheet

theorem ready_of_opening {s : Stylesheet} {k : Nat} {r : Rule} (hr : s.rules[k]? = some r)
    (o : Opening s.source r.stop) (hlater : ∀ x ∈ s.rules.drop (k + 1), x.stop ≠ r.stop) :
    s.Ready k := by
  intro r' hr'
  obtain rfl := Option.some.inj (hr.symm.trans hr')
  refine ⟨⟨o⟩, fun j x hj hx => hlater x ?_⟩
  refine List.mem_of_getElem? (i := j - (k + 1)) ?_
  rw [List.getElem?_drop, Nat.add_sub_cancel' hj, hx]

/-- A sheet that has been edited: it has the rules of the other one, and more declarations. -/
structure Edited (s t : Stylesheet) : Prop where
  source : t.source = s.source
  rules : t.rules.map Rule.sourced = s.rules
  grown : t.Grown

theorem edited_of_parse {css : Text} {s : Stylesheet} (h : parse css = .ok s) : s.Edited s := by
  have htied := tied_of_parse h
  have hsourced := sourced_of_placed (placed_parse h)
  exact ⟨rfl, hsourced, htied.parsed, fun r hr => .of_led (htied.led r hr),
    fun k r hk hnot => absurd (htied.led r (List.mem_of_getElem? hk)) hnot⟩

namespace Edited
variable {s t : Stylesheet} (h : s.Edited t)
include h

theorem set {k : Nat} {r : Rule} (hr : t.rules[k]? = some r) {list : Declarations}
    (hlist : list.Grown) (hsourced : Declarations.sourced list = Declarations.sourced r.declarations)
    (hready : ¬ Declarations.Led list → t.Ready k) :
    s.Edited ⟨t.source, t.rules.set k (SheetSession.setDeclarations r list)⟩ := by
  obtain ⟨hlen, hget⟩ := List.getElem?_eq_some_iff.mp hr
  have hsame : (t.rules.set k (SheetSession.setDeclarations r list)).map Rule.sourced =
      t.rules.map Rule.sourced := by
    have hrule : (SheetSession.setDeclarations r list).sourced = t.rules[k].sourced := by
      simp [Rule.sourced, SheetSession.setDeclarations, hsourced, hget]
    rw [List.map_set, hrule, ← List.map_set, List.set_getElem_self]
  have hstops := congrArg (List.map Rule.stop) hsame
  rw [List.map_map, List.map_map] at hstops
  have hkeep : ∀ j, t.Ready j →
      Ready ⟨t.source, t.rules.set k (SheetSession.setDeclarations r list)⟩ j :=
    fun j hj => hj.of_same rfl hstops
  refine ⟨h.source, hsame.trans h.rules, ?_, ?_, ?_⟩
  · simpa [hsame] using h.grown.parsed
  · intro x hx
    rcases List.mem_or_eq_of_mem_set hx with hx | rfl
    · exact h.grown.lists x hx
    · exact hlist
  · intro j x hx hnot
    by_cases hj : j = k
    · subst hj
      rw [List.getElem?_set_self hlen] at hx
      obtain rfl := Option.some.inj hx
      exact hkeep j (hready hnot)
    · rw [List.getElem?_set_ne (Ne.symm hj)] at hx
      exact hkeep j (h.grown.ready j x hx hnot)

end Edited
end Stylesheet

namespace SheetSession
variable {s : Stylesheet} {x : SheetSession}

theorem edited_add (h : s.Edited x.sheet) {k index : Nat} {value : Text}
    (hvalue : Layout.isValue value = true)
    (hnames : ∀ r d, x.sheet.rules[k]? = some r → r.declarations[index]? = some d → IsName d.property) :
    s.Edited (x.inRule k (.add index value)).1.sheet := by
  rw [inRule]
  cases hr : x.sheet.rules[k]? with
  | none => exact h
  | some r =>
    have hlist := h.grown.lists r (List.mem_of_getElem? hr)
    have hready := h.grown.ready k r hr
    simp only [ListStep.apply]
    cases hadd : r.declarations.addFallback? index value with
    | none => exact h.set hr hlist rfl hready
    | some list =>
      have hsourced := ListStep.sourced_add_fallback hadd
      obtain ⟨d, hd, -⟩ := Option.map_eq_some_iff.mp hadd
      have hname : IsName d.property := hnames r d hr hd
      obtain ⟨front, back, hsplit, rfl⟩ := Declarations.exists_at hd
      rw [hsplit, Declarations.add_fallback_append] at hadd
      obtain rfl := Option.some.inj hadd
      rw [hsplit] at hlist hready
      refine h.set hr (hlist.insert hname (Layout.reads_back hvalue)) hsourced fun hnot => ?_
      exact hready fun hled => hnot (Declarations.led_insert hname (Layout.reads_back hvalue) hled)

theorem edited_push (h : s.Edited x.sheet) {k : Nat} (hready : x.sheet.Ready k) {property value : Text}
    {important : Bool} (hname : IsName property) (hvalue : Layout.isValue value = true) :
    s.Edited (x.inRule k (.push (.fresh property value important))).1.sheet := by
  rw [inRule]
  cases hr : x.sheet.rules[k]? with
  | none => exact h
  | some r =>
    have hwritten : (Declaration.fresh property value important).Written :=
      ⟨hname, ⟨[], [' '], rfl, rfl, rfl⟩, rfl,
        Layout.reads_value (.fresh property value important) hvalue⟩
    have hnone : Declarations.sourced [Declaration.fresh property value important] = [] := rfl
    refine h.set hr ((h.grown.lists r (List.mem_of_getElem? hr)).push rfl hwritten) ?_ fun _ => hready
    rw [Declarations.sourced_append, hnone, List.append_nil]

theorem edited_apply (h : s.Edited x.sheet) {step : SheetStep} (hstep : step.Edits x.sheet) :
    s.Edited (x.apply step).1.sheet := by
  cases step with
  | inRule k step =>
    cases step with
    | add index value => exact edited_add h hstep.1 hstep.2
    | push d =>
      obtain ⟨hready, property, value, important, rfl, hname, hvalue⟩ := hstep
      exact edited_push h hready hname hvalue
    | _ => exact hstep.elim
  | _ => exact hstep.elim

theorem edited_after (h : s.Edited x.sheet) {steps : List SheetStep} (hsteps : x.Edits steps) :
    s.Edited (x.after steps).sheet := by
  induction steps generalizing x with
  | nil => exact h
  | cons step steps ih => exact ih (edited_apply h hsteps.1) hsteps.2

/-- What is written after any edits is read back as the rules that were edited. -/
theorem edits_survive {css : Text} (h : Stylesheet.parse css = .ok s) (o : Options)
    {steps : List SheetStep} (hsteps : Edits ⟨o, s⟩ steps) :
    ∃ t, Stylesheet.parse (after ⟨o, s⟩ steps).sheet.render = .ok t ∧
      t.rules.map Rule.outline = (after ⟨o, s⟩ steps).sheet.rules.map Rule.outline :=
  (edited_after (x := ⟨o, s⟩) (Stylesheet.edited_of_parse h) hsteps).grown.settle

/-- Both rules get declarations, and one of them a fallback too. -/
theorem edits_survive_pair :
    Stylesheet.parse "a\x7bx:y;\x7db\x7b\x7d".toList = .ok ⟨"a\x7bx:y;\x7db\x7b\x7d".toList,
        [⟨['a'], [⟨['x'], ['y'], false, [], [':'], some 2⟩], 6⟩, ⟨['b'], [], 9⟩]⟩ ∧
      ∃ t, Stylesheet.parse (after ⟨.all, ⟨"a\x7bx:y;\x7db\x7b\x7d".toList,
          [⟨['a'], [⟨['x'], ['y'], false, [], [':'], some 2⟩], 6⟩, ⟨['b'], [], 9⟩]⟩⟩
        [.inRule 1 (.push (.fresh ['p'] ['q'] true)), .inRule 0 (.push (.fresh ['p'] ['4'] false)),
          .inRule 0 (.add 1 ['v'])]).sheet.render = .ok t ∧
        t.rules.map Rule.outline =
          [⟨['a'], [⟨['x'], ['y'], false⟩, ⟨['p'], ['v'], false⟩, ⟨['p'], ['4'], false⟩]⟩,
            ⟨['b'], [⟨['p'], ['q'], true⟩]⟩] := by
  have hparse : Stylesheet.parse "a\x7bx:y;\x7db\x7b\x7d".toList = .ok ⟨"a\x7bx:y;\x7db\x7b\x7d".toList,
      [⟨['a'], [⟨['x'], ['y'], false, [], [':'], some 2⟩], 6⟩, ⟨['b'], [], 9⟩]⟩ := rfl
  refine ⟨hparse, edits_survive hparse .all ⟨?_, ?_, ?_, trivial⟩⟩
  · refine ⟨Stylesheet.ready_of_opening (r := ⟨['b'], [], 9⟩) rfl ?_ (by simp), _, _, _, rfl,
      ⟨by decide, by decide⟩, by decide⟩
    exact ⟨lex "a\x7bx:y;\x7db\x7b".toList, lex ['\x7d'],
      ⟨[⟨['a'], [⟨['x'], ['y'], false, [], [':'], some 2⟩], 6⟩], none⟩, ⟨['b'], [], [], [], .none⟩, [],
      rfl, rfl, rfl, rfl⟩
  · refine ⟨Stylesheet.ready_of_opening
      (r := ⟨['a'], [⟨['x'], ['y'], false, [], [':'], some 2⟩], 6⟩) rfl ?_ ?_, _, _, _, rfl,
      ⟨by decide, by decide⟩, by decide⟩
    · exact ⟨lex "a\x7bx:y;".toList, lex "\x7db\x7b\x7d".toList, .empty,
        ⟨['a'], [⟨['x'], ['y'], false, [], [':'], some 2⟩], [], [], .none⟩, [], rfl, rfl, rfl, rfl⟩
    · exact List.forall_mem_singleton.mpr (by decide)
  · refine ⟨by decide, fun r d hr hd => ?_⟩
    obtain rfl := Option.some.inj hr
    obtain rfl := Option.some.inj hd
    exact ⟨by decide, by decide⟩

/-- Where no semicolon ends the last declaration of a rule, a new one becomes a part of its
value. -/
theorem push_merged :
    Stylesheet.parse "a\x7bcolor:red\x7d".toList = .ok ⟨"a\x7bcolor:red\x7d".toList,
        [⟨['a'], [⟨"color".toList, "red".toList, false, [], [':'], some 2⟩], 11⟩]⟩ ∧
      ¬ ∃ t, Stylesheet.parse (after ⟨.all, ⟨"a\x7bcolor:red\x7d".toList,
          [⟨['a'], [⟨"color".toList, "red".toList, false, [], [':'], some 2⟩], 11⟩]⟩⟩
        [.inRule 0 (.push (.fresh "overflow".toList "clip".toList false))]).sheet.render = .ok t ∧
        t.rules.map Rule.outline = [⟨['a'], [⟨"color".toList, "red".toList, false⟩,
          ⟨"overflow".toList, "clip".toList, false⟩]⟩] := by
  refine ⟨rfl, ?_⟩
  rintro ⟨t, ht, houtline⟩
  have hread : Stylesheet.parse "a\x7bcolor:redoverflow: clip;\x7d".toList =
      .ok ⟨"a\x7bcolor:redoverflow: clip;\x7d".toList,
        [⟨['a'], [⟨"color".toList, "redoverflow: clip".toList, false, [], [':'], some 2⟩], 26⟩]⟩ := rfl
  obtain rfl := Except.ok.inj (hread.symm.trans ht)
  revert houtline
  decide

end SheetSession
end CssFallback
