import CssFallback.Proofs.Stylesheet.Landing
import Mathlib.Data.List.Forall2

/-!
# Writing and reading back

A sheet that has been swept any number of times is written, and what has been written is
read back as the sheet: only its declarations now have places in the source. No later
sweep tells the difference.
-/

set_option autoImplicit false

namespace CssFallback

/-! ## Forms -/

def Rule.form (r : Rule) : Text × Declarations := (r.selector, r.declarations.map Declaration.form)

namespace Fallback

theorem considered_form (list : Declarations) : considered (list.map Declaration.form) = considered list := by
  rw [considered, List.countP_map]
  rfl

theorem added_form (o : Options) (previous : Option Declaration) (list : Declarations) :
    added o (previous.map Declaration.form) (list.map Declaration.form) = added o previous list := by
  induction list generalizing previous with
  | nil => rfl
  | cons d list ih =>
    have hadd : additions o (previous.map Declaration.form) d.form = additions o previous d := by
      refine additions_form o ?_ rfl
      cases previous <;> rfl
    have := ih (some d)
    simp only [Option.map_some] at this
    rw [List.map_cons, added, added, hadd, this]

end Fallback

namespace Declarations

def unplaced (list : Declarations) : Nat := list.countP fun d => d.place.isNone

theorem unplaced_append (s t : Declarations) : unplaced (s ++ t) = unplaced s + unplaced t :=
  List.countP_append

/-- The second declaration is the first one, which may have got a place. -/
def Settled (d e : Declaration) : Prop := e.form = d.form ∧ (e.place = none → d.place = none)

theorem form_of_unplaced {d : Declaration} (h : d.place = none) : d.form = d := by
  obtain ⟨property, value, important, indent, separator, place⟩ := d
  obtain rfl : place = none := h
  rfl

theorem copied_of_form {d e : Declaration} (h : e.form = d.form) : e.property = d.property ∧
    e.indent = d.indent ∧ e.separator = d.separator := by
  have hp : e.form.property = d.form.property := congrArg Declaration.property h
  have hi : e.form.indent = d.form.indent := congrArg Declaration.indent h
  have hs : e.form.separator = d.form.separator := congrArg Declaration.separator h
  exact ⟨hp, hi, hs⟩

theorem led_settled {list list' : Declarations} (h : List.Forall₂ Settled list list') (hl : Led list) :
    Led list' := by
  induction h with
  | nil => trivial
  | @cons d e rest rest' hde htail ih =>
    constructor
    · intro he
      have hd := hde.2 he
      obtain ⟨x, v, hx, hdx, hv, hproperty⟩ := hl.1 hd
      obtain ⟨tail, rfl⟩ := List.head?_eq_some_iff.mp hx
      cases htail with
      | @cons _ y _ tail' hxy htail =>
        obtain ⟨hp, hi, hs⟩ := copied_of_form hxy.1
        have hfallback : y.fallback v = x.fallback v := by
          simp [Declaration.fallback, hp, hi, hs]
        have hform : e = d := by
          rw [← form_of_unplaced he, hde.1, form_of_unplaced hd]
        exact ⟨y, v, rfl, by rw [hform, hfallback, hdx], hv, by rw [hp]; exact hproperty⟩
    · exact ih hl.2

end Declarations

namespace Insertion
variable (i : Insertion)

theorem form_moved (r : Rule) : (i.movedRule r).form = r.form := by
  simp only [Rule.form, movedRule, List.map_map]
  rfl

theorem list_other (list : Declarations) (h : ∀ d ∈ list, d.place ≠ some i.position) :
    i.list (Declarations.sourced list) = Declarations.sourced (list.map i.moved) := by
  induction list with
  | nil => rfl
  | cons d list ih =>
    have hd : i.replace d = [i.moved d] := i.replace_other (h d (by simp))
    have hmoved : (i.moved d).place.isSome = d.place.isSome := by
      simp [moved]
    have := ih fun e he => h e (by simp [he])
    simp only [Insertion.list, Declarations.sourced, List.map_cons, List.filter_cons, hmoved] at this ⊢
    cases d.place.isSome <;> simp [hd, this]

theorem rules_other {rules : List Rule} (h : ∀ d ∈ declarationsOf rules, d.place ≠ some i.position) :
    (rules.map Rule.sourced).map i.rule = (rules.map i.movedRule).map Rule.sourced := by
  induction rules with
  | nil => rfl
  | cons r rules ih =>
    have hr := i.list_other r.declarations fun d hd =>
      h d (by rw [declarations_cons]; exact List.mem_append_left _ hd)
    have := ih fun d hd => h d (by rw [declarations_cons]; exact List.mem_append_right _ hd)
    simp only [List.map_cons, this, rule, Rule.sourced, movedRule, hr]

theorem settled_moved (list : Declarations) :
    List.Forall₂ Declarations.Settled list (list.map i.moved) := by
  rw [List.forall₂_map_right_iff, List.forall₂_same]
  intro d _
  exact ⟨rfl, fun hd => by simpa [moved] using hd⟩

theorem led_moved {list : Declarations} (h : Declarations.Led list) :
    Declarations.Led (list.map i.moved) :=
  Declarations.led_settled (i.settled_moved list) h

theorem unplaced_moved (list : Declarations) :
    Declarations.unplaced (list.map i.moved) = Declarations.unplaced list := by
  rw [Declarations.unplaced, List.countP_map]
  apply List.countP_congr
  intro d _
  simp [moved]

theorem unplaced_rules_moved (rules : List Rule) :
    Declarations.unplaced (declarationsOf (rules.map i.movedRule)) =
      Declarations.unplaced (declarationsOf rules) := by
  induction rules with
  | nil => rfl
  | cons r rules ih =>
    simp only [List.map_cons, declarations_cons, Declarations.unplaced_append, ih, movedRule,
      unplaced_moved]

end Insertion

namespace Stylesheet

/-- The same rules in the same order, up to places. -/
def Alike (s t : Stylesheet) : Prop := s.rules.map Rule.form = t.rules.map Rule.form

theorem tally_form {o : Options} {rules rules' : List Rule}
    (h : rules.map Rule.form = rules'.map Rule.form) : (sweepRules o rules).2 = (sweepRules o rules').2 := by
  induction rules generalizing rules' with
  | nil =>
    obtain rfl : rules' = [] := by simpa using h.symm
    rfl
  | cons r rules ih =>
    cases rules' with
    | nil => cases h
    | cons r' rules' =>
      obtain ⟨hr, hrules⟩ := List.cons.inj h
      have hlist : r.declarations.map Declaration.form = r'.declarations.map Declaration.form :=
        congrArg Prod.snd hr
      have hconsidered : Fallback.considered r.declarations = Fallback.considered r'.declarations := by
        rw [← Fallback.considered_form, hlist, Fallback.considered_form]
      have hadded : Fallback.added o none r.declarations = Fallback.added o none r'.declarations := by
        rw [← Fallback.added_form, ← Fallback.added_form o none r'.declarations, hlist]
      simp only [sweepRules, Fallback.sweep_local, hconsidered, hadded, ih hrules]

theorem Alike.tally {s t : Stylesheet} (h : s.Alike t) (o : Options) : (s.sweep o).2 = (t.sweep o).2 :=
  tally_form h

/-! ## Settling -/

namespace Landing
variable {s : Stylesheet} (l : Landing s)

theorem alike_landed : l.landed.Alike s := by
  have hmap : ∀ rules : List Rule, (rules.map l.insertion.movedRule).map Rule.form =
      rules.map Rule.form := by
    intro rules
    simp [Function.comp_def, l.insertion.form_moved]
  have hlist : ∀ list : Declarations, (list.map l.insertion.moved).map Declaration.form =
      list.map Declaration.form := by
    intro list
    rw [List.map_map]
    rfl
  rw [Alike, l.rules, landed]
  simp only [List.map_append, List.map_cons, hmap, Rule.form, hlist]
  rfl

end Landing

/-- Added declarations of the first sheet have landed in the second one. -/
inductive Settles : Stylesheet → Stylesheet → Prop where
  | refl (s : Stylesheet) : Settles s s
  | land {s t : Stylesheet} (l : Landing s) (h : Settles l.landed t) : Settles s t

namespace Settles
variable {s t u : Stylesheet}

theorem trans (h : Settles s t) (h' : Settles t u) : Settles s u := by
  induction h with
  | refl => exact h'
  | land l _ ih => exact .land l (ih h')

theorem render (h : Settles s t) : t.render = s.render := by
  induction h with
  | refl => rfl
  | land l _ ih => rw [ih, l.render_landed]

theorem alike (h : Settles s t) : t.Alike s := by
  induction h with
  | refl => exact rfl
  | land l _ ih => exact ih.trans l.alike_landed

theorem sweep (h : Settles s t) (o : Options) : Settles (s.sweep o).1 (t.sweep o).1 := by
  induction h with
  | refl s => exact .refl _
  | land l _ ih =>
    apply Settles.land (l.swept o)
    rw [l.landed_swept]
    exact ih

end Settles

/-- The declarations of the source are those that are read from it, and the other ones
are fallbacks in front of them. -/
structure Tied (s : Stylesheet) : Prop where
  parsed : parse s.source = .ok ⟨s.source, s.rules.map Rule.sourced⟩
  led : ∀ r ∈ s.rules, Declarations.Led r.declarations

theorem sourced_of_placed {rules : List Rule} (h : Reading.Placed (declarationsOf rules)) :
    rules.map Rule.sourced = rules := by
  have hr : ∀ r ∈ rules, r.sourced = r := by
    intro r hr
    rw [Rule.sourced, Declarations.sourced_of_placed fun d hd => h d (List.mem_flatMap.mpr ⟨r, hr, hd⟩)]
  rw [List.map_congr_left (g := id) hr, List.map_id]

theorem tied_of_parse {css : Text} {s : Stylesheet} (h : parse css = .ok s) : s.Tied := by
  have hplaced := placed_parse h
  obtain ⟨-, hsource⟩ := parse_ok.mp h
  refine ⟨?_, fun r hr => Declarations.led_of_placed fun d hd =>
    hplaced d (List.mem_flatMap.mpr ⟨r, hr, hd⟩)⟩
  rw [sourced_of_placed hplaced, hsource, h, ← hsource]

theorem Tied.sweep {s : Stylesheet} (h : s.Tied) (o : Options) : (s.sweep o).1.Tied := by
  rw [sweep_sheet]
  refine ⟨?_, fun r hr => ?_⟩
  · have hr : ∀ r ∈ s.rules, (r.provided o).sourced = r.sourced := by
      intro r _
      simp [Rule.sourced, Rule.provided, Fallback.sourced_provided]
    have hmap : (s.rules.map (Rule.provided o)).map Rule.sourced = s.rules.map Rule.sourced := by
      rw [List.map_map]
      exact List.map_congr_left hr
    simp only [hmap]
    exact h.parsed
  · obtain ⟨x, hx, rfl⟩ := List.mem_map.mp hr
    exact Fallback.led_provided o none (h.led x hx)

theorem count_sourced (p : Nat) (rules : List Rule) :
    Declarations.countAt p (declarationsOf (rules.map Rule.sourced)) =
      Declarations.countAt p (declarationsOf rules) := by
  induction rules with
  | nil => rfl
  | cons r rules ih =>
    simp only [List.map_cons, declarations_cons, Declarations.count_append, ih, Rule.sourced,
      Declarations.count_sourced]

namespace Landing
variable {s : Stylesheet} (l : Landing s)

/-- What is read from the source with the declaration is what is read from the source
without it, with the declaration in its place. -/
theorem sourced_landed : l.landed.rules.map Rule.sourced =
    (s.rules.map Rule.sourced).map l.insertion.rule := by
  have hmem : ∀ {d}, d ∈ declarationsOf l.before ∨ d ∈ l.head ∨ d ∈ l.tail ∨
      d ∈ declarationsOf l.after → d.place ≠ some l.front.byteSize := fun h =>
    l.place_ne (by simpa [or_assoc] using h)
  have hbefore := l.insertion.rules_other fun d hd => hmem (.inl hd)
  have hafter := l.insertion.rules_other fun d hd => hmem (.inr (.inr (.inr hd)))
  have hhead := l.insertion.list_other l.head fun d hd => hmem (.inr (.inl hd))
  have htail := l.insertion.list_other l.tail fun d hd => hmem (.inr (.inr (.inl hd)))
  have hlanded : Declarations.sourced (l.insertion.added :: l.insertion.moved l.target ::
      l.tail.map l.insertion.moved) = l.insertion.added :: l.insertion.moved l.target ::
        Declarations.sourced (l.tail.map l.insertion.moved) := by
    have hadded : l.insertion.added.place.isSome = true := rfl
    simp [Declarations.sourced, hadded, Insertion.moved, l.place]
  have hsource : Declarations.sourced (l.target.fallback l.value :: l.target :: l.tail) =
      l.target :: Declarations.sourced l.tail := by
    have hfallback : (l.target.fallback l.value).place.isSome = false := rfl
    simp [Declarations.sourced, hfallback, l.place]
  have htarget : ∀ rest, l.insertion.list (l.target :: rest) =
      l.insertion.added :: l.insertion.moved l.target :: l.insertion.list rest := by
    intro rest
    simp [Insertion.list, Insertion.replace, l.place, insertion, Declaration.insertion]
  rw [l.rules, landed]
  simp only [List.map_append, List.map_cons, hbefore, hafter, Insertion.rule, Rule.sourced,
    Declarations.sourced_append, Insertion.list_append, hlanded, hsource, htarget, hhead, htail]

theorem led_landed : ∀ r ∈ l.landed.rules, Declarations.Led r.declarations := by
  have hmoved := l.insertion.settled_moved
  intro r hr
  simp only [landed, List.mem_append, List.mem_cons, List.mem_map] at hr
  have hled := l.led
  rw [l.rules] at hled
  rcases hr with ⟨x, hx, rfl⟩ | rfl | ⟨x, hx, rfl⟩
  · exact l.insertion.led_moved (hled x (by simp [hx]))
  · refine Declarations.led_settled ?_ (hled _ (List.mem_append_right _ (List.mem_cons_self ..)))
    refine List.rel_append (hmoved _) (.cons ⟨rfl, fun _ => rfl⟩ (.cons ⟨rfl, fun hd => ?_⟩ (hmoved _)))
    simpa [Insertion.moved] using hd
  · exact l.insertion.led_moved (hled x (by simp [hx]))

theorem unplaced_landed : Declarations.unplaced (declarationsOf s.rules) =
    Declarations.unplaced (declarationsOf l.landed.rules) + 1 := by
  have htarget : ∀ rest, Declarations.unplaced (l.target.fallback l.value :: l.target :: rest) =
      Declarations.unplaced rest + 1 := by
    intro rest
    simp [Declarations.unplaced, Declaration.fallback, l.place]
  have hlanded : ∀ rest, Declarations.unplaced (l.insertion.added :: l.insertion.moved l.target :: rest) =
      Declarations.unplaced rest := by
    intro rest
    simp [Declarations.unplaced, Insertion.moved, insertion, Declaration.insertion, l.place]
  rw [l.rules, landed]
  simp only [declarations_append, declarations_cons, Declarations.unplaced_append,
    Insertion.unplaced_moved, Insertion.unplaced_rules_moved, htarget, hlanded]
  omega

end Landing

theorem render_of_placed {s : Stylesheet} (hl : ∀ r ∈ s.rules, Declarations.Led r.declarations)
    (h : Reading.Placed (declarationsOf s.rules)) : s.render = s.source := by
  have hpieces : s.rules.flatMap Piece.ofRule = [] := by
    rw [List.flatMap_eq_nil_iff]
    intro r hr
    rw [Piece.ofRule, Piece.of_led (hl r hr)]
    exact Piece.in_front_of_placed fun d hd => h d (List.mem_flatMap.mpr ⟨r, hr, hd⟩)
  rw [render, hpieces, Piece.weave_nil]

theorem Tied.exists_landing {s : Stylesheet} (h : s.Tied) (hu : ¬ Reading.Placed (declarationsOf s.rules)) :
    ∃ l : Landing s, l.landed.Tied := by
  obtain ⟨r, hr, hu⟩ : ∃ r ∈ s.rules, ¬ Reading.Placed r.declarations := by
    by_contra hall
    apply hu
    intro d hd
    obtain ⟨r, hr, hd⟩ := List.mem_flatMap.mp hd
    exact (not_not.mp fun hn => hall ⟨r, hr, hn⟩ : Reading.Placed r.declarations) d hd
  obtain ⟨head, d, tail, v, p, hlist, hp, hv, hf⟩ := Declarations.exists_front_of_led (h.led r hr) hu
  obtain ⟨before, after, hrules⟩ := List.append_of_mem hr
  have hd : d ∈ declarationsOf (s.rules.map Rule.sourced) := by
    refine List.mem_flatMap.mpr ⟨r.sourced, List.mem_map_of_mem hr, ?_⟩
    exact List.mem_filter.mpr ⟨by simp [hlist], by simp [hp]⟩
  obtain ⟨front, back, hsource, rfl, hparse⟩ := parse_insert h.parsed hd hp hf hv
  have hcount := count_parse h.parsed front.byteSize
  have hr' : r = ⟨r.selector, head ++ d.fallback v :: d :: tail, r.stop⟩ := by rw [← hlist]
  have hrules' : s.rules = before ++
      ⟨r.selector, head ++ d.fallback v :: d :: tail, r.stop⟩ :: after := by rw [← hr', hrules]
  refine ⟨⟨front, back, before, r.selector, head, v, d, tail, r.stop, after, hsource, hrules', hp, ?_,
    h.led⟩, ?_⟩
  · rw [count_sourced, hrules'] at hcount
    have htarget : ∀ rest, Declarations.countAt front.byteSize (d.fallback v :: d :: rest) =
        Declarations.countAt front.byteSize rest + 1 := by
      intro rest
      simp [Declarations.countAt, hp, Declaration.fallback]
    simp only [declarations_append, declarations_cons, Declarations.count_append, htarget] at hcount ⊢
    omega
  · refine ⟨?_, Landing.led_landed _⟩
    rw [Landing.sourced_landed]
    exact hparse

/-- What a tied sheet writes is read back as the sheet. -/
theorem Tied.settle {s : Stylesheet} (h : s.Tied) : ∃ t, Settles s t ∧ parse s.render = .ok t := by
  induction hn : Declarations.unplaced (declarationsOf s.rules) generalizing s with
  | zero =>
    have hplaced : Reading.Placed (declarationsOf s.rules) := fun d hd => by
      have := List.countP_eq_zero.mp hn d hd
      simpa [Option.isSome_iff_ne_none] using this
    have hparsed := h.parsed
    rw [sourced_of_placed hplaced] at hparsed
    exact ⟨s, .refl s, by rw [render_of_placed h.led hplaced, hparsed]⟩
  | succ n ih =>
    have hu : ¬ Reading.Placed (declarationsOf s.rules) := by
      intro hplaced
      have : Declarations.unplaced (declarationsOf s.rules) = 0 :=
        List.countP_eq_zero.mpr fun d hd => by simpa using Option.isSome_iff_ne_none.mp (hplaced d hd)
      omega
    obtain ⟨l, hl⟩ := h.exists_landing hu
    obtain ⟨t, ht, hparse⟩ := ih hl (by have := l.unplaced_landed; omega)
    exact ⟨t, .land l ht, by rw [← l.render_landed, hparse]⟩

end Stylesheet

/-! ## Passes -/

inductive Pass where
  | sweep (o : Options)
  /-- Writes the stylesheet and reads what has been written. -/
  | reparse

def Pass.isSweep : Pass → Bool
  | .sweep _ => true
  | .reparse => false

namespace Stylesheet

def passes : Stylesheet → List Pass → Except StrayBrace (Stylesheet × List Tally)
  | s, [] => .ok (s, [])
  | s, .sweep o :: rest =>
    ((s.sweep o).1.passes rest).map fun x => (x.1, (s.sweep o).2 :: x.2)
  | s, .reparse :: rest => (parse s.render).bind fun t => t.passes rest

theorem passes_settled {s t : Stylesheet} (h : Settles s t) (ht : t.Tied) (ps : List Pass) :
    ∃ s' t' tallies, s.passes (ps.filter Pass.isSweep) = .ok (s', tallies) ∧
      t.passes ps = .ok (t', tallies) ∧ Settles s' t' := by
  induction ps generalizing s t with
  | nil => exact ⟨s, t, [], rfl, rfl, h⟩
  | cons p ps ih =>
    cases p with
    | sweep o =>
      obtain ⟨s', t', tallies, hs, ht', hsettles⟩ := ih (h.sweep o) (ht.sweep o)
      refine ⟨s', t', (s.sweep o).2 :: tallies, ?_, ?_, hsettles⟩
      · rw [List.filter_cons_of_pos rfl, passes, hs]
        rfl
      · rw [passes, ht', ← h.alike.tally o]
        rfl
    | reparse =>
      obtain ⟨u, hu, hparse⟩ := ht.settle
      obtain ⟨s', t', tallies, hs, ht', hsettles⟩ := ih (h.trans hu) (tied_of_parse hparse)
      refine ⟨s', t', tallies, ?_, ?_, hsettles⟩
      · rw [List.filter_cons_of_neg (by simp [Pass.isSweep]), hs]
      · rw [passes, hparse]
        exact ht'

/-- Writing a sheet and reading it back anywhere between the sweeps succeeds and has no
effect: the tallies are those of the sweeps alone, and so are the rules, up to places,
and the text. -/
theorem reparse_transparent {css : Text} {s : Stylesheet} (h : parse css = .ok s) (ps : List Pass) :
    ∃ t t' tallies, s.passes (ps.filter Pass.isSweep) = .ok (t, tallies) ∧
      s.passes ps = .ok (t', tallies) ∧ t'.Alike t ∧ t'.render = t.render := by
  obtain ⟨t, t', tallies, ht, ht', hsettles⟩ := passes_settled (.refl s) (tied_of_parse h) ps
  exact ⟨t, t', tallies, ht, ht', hsettles.alike, hsettles.render⟩

/-- A sheet that is read back between two sweeps. -/
theorem reparse_transparent_clip :
    parse "a\x7boverflow:clip\x7d".toList = .ok ⟨"a\x7boverflow:clip\x7d".toList,
        [⟨['a'], [⟨"overflow".toList, "clip".toList, false, [], [':'], some 2⟩], 15⟩]⟩ ∧
      ∃ t t' tallies,
        Stylesheet.passes ⟨"a\x7boverflow:clip\x7d".toList,
            [⟨['a'], [⟨"overflow".toList, "clip".toList, false, [], [':'], some 2⟩], 15⟩]⟩
          ([.sweep .all, .reparse, .sweep .all].filter Pass.isSweep) = .ok (t, tallies) ∧
        Stylesheet.passes ⟨"a\x7boverflow:clip\x7d".toList,
            [⟨['a'], [⟨"overflow".toList, "clip".toList, false, [], [':'], some 2⟩], 15⟩]⟩
          [.sweep .all, .reparse, .sweep .all] = .ok (t', tallies) ∧
        t'.Alike t ∧ t'.render = t.render := by
  have hparse : parse "a\x7boverflow:clip\x7d".toList = .ok ⟨"a\x7boverflow:clip\x7d".toList,
      [⟨['a'], [⟨"overflow".toList, "clip".toList, false, [], [':'], some 2⟩], 15⟩]⟩ := rfl
  exact ⟨hparse, reparse_transparent hparse _⟩

end Stylesheet
end CssFallback
