import CssFallback.Proofs.Stylesheet.Splicing
import CssFallback.Proofs.Stylesheet.Weave

/-!
# Added declarations in the source

An added declaration lands: it is written into the source, and it and everything behind
it gets a new place. The sheet still writes the same text, and sweeps do the same with
it.
-/

set_option autoImplicit false

namespace CssFallback

def Declaration.form (d : Declaration) : Declaration :=
  ⟨d.property, d.value, d.important, d.indent, d.separator, none⟩

namespace Declarations

def sourced (list : Declarations) : Declarations := list.filter fun d => d.place.isSome

theorem sourced_append (s t : Declarations) : sourced (s ++ t) = sourced s ++ sourced t :=
  List.filter_append ..

theorem sourced_of_unplaced {list : Declarations} (h : ∀ d ∈ list, d.place = none) :
    sourced list = [] := by
  rw [sourced, List.filter_eq_nil_iff]
  intro d hd
  simp [h d hd]

theorem sourced_of_placed {list : Declarations} (h : Reading.Placed list) : sourced list = list :=
  List.filter_eq_self.mpr h

theorem count_sourced (p : Nat) (list : Declarations) :
    countAt p (sourced list) = countAt p list := by
  rw [countAt, sourced, List.countP_filter]
  apply List.countP_congr
  intro d _
  cases d.place <;> simp

/-- Every added declaration is a fallback of the one behind it, with a name and a value
that are read as they stand. -/
def Led : Declarations → Prop
  | [] => True
  | d :: rest => (d.place = none → ∃ e v, rest.head? = some e ∧ d = e.fallback v ∧
      ReadsBack v ∧ IsName e.property) ∧ Led rest

theorem led_of_placed {list : Declarations} (h : Reading.Placed list) : Led list := by
  induction list with
  | nil => trivial
  | cons d list ih =>
    refine ⟨fun hd => ?_, ih fun e he => h e (by simp [he])⟩
    have := h d (by simp)
    simp [hd] at this

theorem led_append_right {s t : Declarations} (h : Led (s ++ t)) : Led t := by
  induction s with
  | nil => exact h
  | cons d s ih => exact ih h.2

theorem left_of_led {list : Declarations} (h : Led list) (run : Text) (hne : list ≠ [] ∨ run = []) :
    Piece.left run list = [] := by
  induction list generalizing run with
  | nil => exact hne.resolve_left (by simp)
  | cons d list ih =>
    cases hp : d.place with
    | none =>
      rw [Piece.left, hp]
      obtain ⟨e, v, he, -⟩ := h.1 hp
      exact ih h.2 _ (.inl (by rintro rfl; simp at he))
    | some p =>
      rw [Piece.left, hp]
      exact ih h.2 [] (.inr rfl)

theorem exists_front_of_led {list : Declarations} (h : Led list) (hu : ¬ Reading.Placed list) :
    ∃ head d tail v p, list = head ++ d.fallback v :: d :: tail ∧ d.place = some p ∧
      ReadsBack v ∧ IsName d.property := by
  induction list with
  | nil => exact absurd (by simp [Reading.Placed]) hu
  | cons d list ih =>
    by_cases hl : Reading.Placed list
    · cases hp : d.place with
      | some p =>
        exfalso
        apply hu
        intro e he
        rcases List.mem_cons.mp he with rfl | he
        · simp [hp]
        · exact hl e he
      | none =>
        obtain ⟨e, v, he, rfl, hv, hf⟩ := h.1 hp
        obtain ⟨tail, rfl⟩ := List.head?_eq_some_iff.mp he
        obtain ⟨p, hp⟩ := Option.isSome_iff_exists.mp (hl e (by simp))
        exact ⟨[], e, tail, v, p, rfl, hp, hv, hf⟩
    · obtain ⟨head, e, tail, v, p, rfl, hp⟩ := ih h.2 hl
      exact ⟨d :: head, e, tail, v, p, rfl, hp⟩

end Declarations

namespace Piece

theorem of_led {list : Declarations} (h : Declarations.Led list) (stop : Nat) :
    ofDeclarations stop [] list = inFront [] list := by
  rw [of_declarations, Declarations.left_of_led h [] (.inr rfl)]
  simp [ofRun]

end Piece

/-! ## Sweeps -/

namespace Fallback
open Declarations

theorem unplaced_of_mem_additions {o : Options} {previous : Option Declaration} {d f : Declaration}
    (h : f ∈ additions o previous d) : f.place = none := by
  obtain ⟨v, rfl⟩ := fallback_of_mem h
  rfl

theorem additions_form (o : Options) {previous previous' : Option Declaration} {d d' : Declaration}
    (hp : previous.map Declaration.property = previous'.map Declaration.property)
    (hd : d.form = d'.form) : additions o previous d = additions o previous' d' := by
  obtain ⟨property, value, important, indent, separator, place⟩ := d
  obtain ⟨property', value', important', indent', separator', place'⟩ := d'
  simp only [Declaration.form, Declaration.mk.injEq, and_true] at hd
  obtain ⟨rfl, rfl, rfl, rfl, rfl⟩ := hd
  have hguard : ∀ e : Option Declaration, ∀ d : Declaration,
      isGuarded e d = (e.map Declaration.property).any fun p => p == d.property := by
    intro e d
    cases e <;> rfl
  simp only [additions, hguard, hp]
  rfl

theorem provided_append (o : Options) (previous : Option Declaration) (s t : Declarations) :
    provided o previous (s ++ t) = provided o previous s ++ provided o (s.getLast?.or previous) t := by
  induction s generalizing previous with
  | nil => rfl
  | cons d s ih =>
    have hlast : (d :: s).getLast?.or previous = s.getLast?.or (some d) := by
      cases h : s.getLast? with
      | none => simp [List.getLast?_eq_none_iff.mp h]
      | some e => simp [List.getLast?_cons, h]
    rw [List.cons_append, provided, provided, ih, hlast, List.append_assoc, List.cons_append]

theorem additions_moved (o : Options) (i : Insertion) (previous : Option Declaration)
    (d : Declaration) : (additions o previous d).map i.moved = additions o previous d := by
  have hfix : ∀ f ∈ additions o previous d, i.moved f = f := by
    intro f hf
    obtain ⟨property, value, important, indent, separator, place⟩ := f
    obtain rfl : place = none := unplaced_of_mem_additions hf
    rfl
  rw [List.map_congr_left (g := id) hfix, List.map_id]

/-- Moving the declarations of the source moves what a sweep leaves. -/
theorem provided_moved (o : Options) (i : Insertion) (previous : Option Declaration)
    (list : Declarations) :
    provided o (previous.map i.moved) (list.map i.moved) = (provided o previous list).map i.moved := by
  have hprevious : ∀ e : Option Declaration, (e.map i.moved).map Declaration.property =
      e.map Declaration.property := by
    intro e
    cases e <;> rfl
  induction list generalizing previous with
  | nil => rfl
  | cons d list ih =>
    have hadd : additions o (previous.map i.moved) (i.moved d) = additions o previous d :=
      additions_form o (hprevious previous) rfl
    have := ih (some d)
    simp only [Option.map_some] at this
    rw [List.map_cons, provided, provided, hadd, this, List.map_append, additions_moved, List.map_cons]

theorem sourced_provided (o : Options) (previous : Option Declaration) (list : Declarations) :
    sourced (provided o previous list) = sourced list := by
  induction list generalizing previous with
  | nil => rfl
  | cons d list ih =>
    have hadd : sourced (additions o previous d) = [] :=
      sourced_of_unplaced fun f hf => unplaced_of_mem_additions hf
    rw [provided, sourced_append, hadd, List.nil_append]
    calc sourced (d :: provided o (some d) list)
        = sourced [d] ++ sourced (provided o (some d) list) := sourced_append [d] _
      _ = sourced [d] ++ sourced list := by rw [ih]
      _ = sourced (d :: list) := (sourced_append [d] list).symm

theorem provided_pair (o : Options) {f d : Declaration} (h : f.property = d.property)
    (head tail : Declarations) : provided o none (head ++ f :: d :: tail) =
      provided o none head ++ additions o head.getLast? f ++ f :: d :: provided o (some d) tail := by
  have hguarded : additions o (some f) d = [] := by simp [additions, isGuarded, h]
  simp [provided_append, provided, hguarded]

theorem count_provided (o : Options) (p : Nat) (previous : Option Declaration) (list : Declarations) :
    countAt p (provided o previous list) = countAt p list := by
  rw [← count_sourced, sourced_provided, count_sourced]

theorem led_fallbacks {d : Declaration} {vs : List Text} {rest : Declarations}
    (hf : IsName d.property) (hv : ∀ v ∈ vs, ReadsBack v) (h : Led (d :: rest)) :
    Led (vs.map d.fallback ++ d :: rest) := by
  induction vs with
  | nil => exact h
  | cons v vs ih =>
    refine ⟨fun _ => ?_, ih fun w hw => hv w (by simp [hw])⟩
    cases vs with
    | nil => exact ⟨d, v, rfl, rfl, hv v (by simp), hf⟩
    | cons w vs =>
      exact ⟨d.fallback w, v, rfl, (d.fallback_fallback w v).symm, hv v (by simp), hf⟩

theorem led_provided (o : Options) (previous : Option Declaration) {list : Declarations}
    (h : Led list) : Led (provided o previous list) := by
  induction list generalizing previous with
  | nil => trivial
  | cons d list ih =>
    have hcons : Led (d :: provided o (some d) list) := by
      refine ⟨fun hd => ?_, ih (some d) h.2⟩
      obtain ⟨e, v, he, hde, hv⟩ := h.1 hd
      obtain ⟨tail, rfl⟩ := List.head?_eq_some_iff.mp he
      have hguarded : additions o (some d) e = [] := by simp [additions, isGuarded, hde,
        Declaration.fallback]
      exact ⟨e, v, by simp [provided, hguarded], hde, hv⟩
    rw [provided, additions]
    split
    · rename_i hf
      simp only [Bool.and_eq_true] at hf
      exact led_fallbacks (name_of_property hf.1)
        (fun v hv => plain_value_reads (values_plain o d v hv)) hcons
    · exact hcons

end Fallback

/-! ## Rules -/

def Rule.provided (o : Options) (r : Rule) : Rule :=
  ⟨r.selector, Fallback.provided o none r.declarations, r.stop⟩

def Rule.sourced (r : Rule) : Rule := ⟨r.selector, Declarations.sourced r.declarations, r.stop⟩

namespace Stylesheet

theorem sweep_rules (o : Options) (rules : List Rule) : sweepRules o rules =
    (rules.map (Rule.provided o), ⟨rules.length, Fallback.considered (declarationsOf rules),
      (rules.map fun r => Fallback.added o none r.declarations).sum⟩) := by
  induction rules with
  | nil => rfl
  | cons r rules ih =>
    simp [sweepRules, ih, Fallback.sweep_local, Rule.provided, Tally.add, declarationsOf,
      Fallback.considered, Nat.add_comm 1]

theorem count_provided_rules (o : Options) (p : Nat) (rules : List Rule) :
    Declarations.countAt p (declarationsOf (rules.map (Rule.provided o))) =
      Declarations.countAt p (declarationsOf rules) := by
  induction rules with
  | nil => rfl
  | cons r rules ih =>
    simp only [List.map_cons, declarations_cons, Declarations.count_append, ih, Rule.provided,
      Fallback.count_provided]

theorem sweep_sheet (o : Options) (s : Stylesheet) :
    (s.sweep o).1 = ⟨s.source, s.rules.map (Rule.provided o)⟩ := by
  rw [sweep, sweep_rules]

end Stylesheet

/-! ## Moved rules -/

namespace Insertion
variable (i : Insertion)

def movedRule (r : Rule) : Rule := ⟨r.selector, r.declarations.map i.moved, i.place r.stop⟩

theorem pieces_list_moved (stop : Nat) (list : Declarations) :
    Piece.ofDeclarations (i.place stop) [] (list.map i.moved) =
      (Piece.ofDeclarations stop [] list).map i.piece := by
  obtain ⟨hfront, hleft⟩ := Piece.in_front_moved i [] list
  have hrun : ∀ run, Piece.ofRun (i.place stop) run = (Piece.ofRun stop run).map i.piece := by
    intro run
    by_cases hr : run = [] <;> simp [Piece.ofRun, hr, piece]
  rw [Piece.of_declarations, Piece.of_declarations, hfront, hleft, hrun, List.map_append]

theorem pieces_moved (rules : List Rule) : (rules.map i.movedRule).flatMap Piece.ofRule =
    (rules.flatMap Piece.ofRule).map i.piece := by
  induction rules with
  | nil => rfl
  | cons r rules ih =>
    rw [List.map_cons, List.flatMap_cons, List.flatMap_cons, List.map_append, ih]
    congr 1
    exact i.pieces_list_moved r.stop r.declarations

end Insertion

/-! ## Landings -/

namespace Stylesheet

/-- An added declaration that stands in front of a declaration of the source. -/
structure Landing (s : Stylesheet) where
  /-- The source in front of the declaration, and from there on. -/
  front : Text
  back : Text
  before : List Rule
  selector : Text
  head : Declarations
  value : Text
  target : Declaration
  tail : Declarations
  stop : Nat
  after : List Rule
  source : s.source = front ++ back
  rules : s.rules = before ++
    ⟨selector, head ++ target.fallback value :: target :: tail, stop⟩ :: after
  place : target.place = some front.byteSize
  alone : Declarations.countAt front.byteSize
    (declarationsOf before ++ (head ++ tail) ++ declarationsOf after) = 0
  led : ∀ r ∈ s.rules, Declarations.Led r.declarations

namespace Landing
variable {s : Stylesheet} (l : Landing s)

def added : Declaration := l.target.fallback l.value

def insertion : Insertion := l.added.insertion l.front.byteSize

def landed : Stylesheet :=
  ⟨l.front ++ (l.added.leadText ++ l.back), l.before.map l.insertion.movedRule ++
    ⟨l.selector, l.head.map l.insertion.moved ++ l.insertion.added ::
      l.insertion.moved l.target :: l.tail.map l.insertion.moved, l.insertion.place l.stop⟩ ::
    l.after.map l.insertion.movedRule⟩

theorem lead_ne_nil : l.added.leadText ≠ [] := by simp [Declaration.leadText]

theorem place_ne {d : Declaration}
    (h : d ∈ declarationsOf l.before ++ (l.head ++ l.tail) ++ declarationsOf l.after) :
    d.place ≠ some l.front.byteSize := by
  intro hd
  have := List.countP_eq_zero.mp l.alone d h
  simp [hd] at this

theorem place_of_rules {rules : List Rule} (h : ∀ r ∈ rules, Declarations.Led r.declarations)
    {x : Piece} (hx : x ∈ rules.flatMap Piece.ofRule) :
    ∃ d ∈ declarationsOf rules, d.place = some x.position := by
  obtain ⟨r, hr, hx⟩ := List.mem_flatMap.mp hx
  rw [Piece.ofRule, Piece.of_led (h r hr)] at hx
  obtain ⟨d, hd, hp⟩ := Piece.place_of_mem hx
  exact ⟨d, List.mem_flatMap.mpr ⟨r, hr, hd⟩, hp⟩

theorem led_before : ∀ r ∈ l.before, Declarations.Led r.declarations := by
  intro r hr
  apply l.led r
  rw [l.rules]
  exact List.mem_append_left _ hr

theorem led_after : ∀ r ∈ l.after, Declarations.Led r.declarations := by
  intro r hr
  apply l.led r
  rw [l.rules]
  exact List.mem_append_right _ (List.mem_cons_of_mem _ hr)

theorem left_tail : Piece.left [] l.tail = [] := by
  have hled := l.led _ (by rw [l.rules]; exact List.mem_append_right _ (List.mem_cons_self ..))
  have htail : Declarations.Led l.tail := (Declarations.led_append_right hled).2.2
  exact Declarations.left_of_led htail [] (.inr rfl)

theorem pieces_rule : Piece.ofDeclarations l.stop [] (l.head ++ l.target.fallback l.value ::
    l.target :: l.tail) = Piece.inFront [] l.head ++ (Piece.ofRun l.front.byteSize
      (Piece.left [] l.head ++ l.added.leadText) ++ Piece.ofDeclarations l.stop [] l.tail) := by
  have hfallback : (l.target.fallback l.value).place = none := rfl
  have hlead : (l.target.fallback l.value).leadText = l.added.leadText := rfl
  simp [Piece.of_append, Piece.ofDeclarations, hfallback, hlead, l.place]

theorem pieces_landed : Piece.ofDeclarations (l.insertion.place l.stop) []
    (l.head.map l.insertion.moved ++ l.insertion.added :: l.insertion.moved l.target ::
      l.tail.map l.insertion.moved) =
    (Piece.inFront [] l.head).map l.insertion.piece ++ (Piece.ofRun l.front.byteSize
      (Piece.left [] l.head) ++ (Piece.ofDeclarations l.stop [] l.tail).map l.insertion.piece) := by
  obtain ⟨hfront, hrun⟩ := Piece.in_front_moved l.insertion [] l.head
  have hmoved : (l.insertion.moved l.target).place = some (l.insertion.place l.front.byteSize) := by
    simp [Insertion.moved, l.place]
  have hadded : l.insertion.added.place = some l.front.byteSize := rfl
  have htail := l.insertion.pieces_list_moved l.stop l.tail
  simp [Piece.of_append, Piece.ofDeclarations, hfront, hrun, hmoved, hadded, htail, Piece.ofRun]

theorem piece_ne {x : Piece} (h : ∃ d ∈ declarationsOf l.before ++ (l.head ++ l.tail) ++
    declarationsOf l.after, d.place = some x.position) : x.position ≠ l.insertion.position := by
  obtain ⟨d, hd, hplace⟩ := h
  intro hx
  apply l.place_ne hd
  rw [hplace, hx]
  rfl

theorem pieces_before_ne : ∀ x ∈ l.before.flatMap Piece.ofRule ++ Piece.inFront [] l.head,
    x.position ≠ l.insertion.position := by
  intro x hx
  apply l.piece_ne
  rcases List.mem_append.mp hx with hx | hx
  · obtain ⟨d, hd, hplace⟩ := place_of_rules l.led_before hx
    exact ⟨d, by simp [hd], hplace⟩
  · obtain ⟨d, hd, hplace⟩ := Piece.place_of_mem hx
    exact ⟨d, by simp [hd], hplace⟩

theorem pieces_behind_ne : ∀ x ∈ Piece.ofDeclarations l.stop [] l.tail ++
    l.after.flatMap Piece.ofRule, x.position ≠ l.insertion.position := by
  intro x hx
  apply l.piece_ne
  rcases List.mem_append.mp hx with hx | hx
  · rw [Piece.of_declarations, l.left_tail] at hx
    obtain ⟨d, hd, hplace⟩ := Piece.place_of_mem (by simpa [Piece.ofRun] using hx)
    exact ⟨d, by simp [hd], hplace⟩
  · obtain ⟨d, hd, hplace⟩ := place_of_rules l.led_after hx
    exact ⟨d, by simp [hd], hplace⟩

/-- The sheet still writes the same text. -/
theorem render_landed : l.landed.render = s.render := by
  have hweave := l.insertion.weave_moved (Piece.left [] l.head) l.back l.lead_ne_nil rfl rfl
    l.pieces_before_ne l.pieces_behind_ne
  have hplace : l.insertion.position = l.front.byteSize := rfl
  rw [render, render, l.source, l.rules, landed]
  simp only [List.flatMap_append, List.flatMap_cons, l.insertion.pieces_moved, Piece.ofRule,
    l.pieces_rule, l.pieces_landed]
  simpa [hplace] using hweave

def swept (o : Options) : Landing (s.sweep o).1 where
  front := l.front
  back := l.back
  before := l.before.map (Rule.provided o)
  selector := l.selector
  head := Fallback.provided o none l.head ++ Fallback.additions o l.head.getLast? l.added
  value := l.value
  target := l.target
  tail := Fallback.provided o (some l.target) l.tail
  stop := l.stop
  after := l.after.map (Rule.provided o)
  source := l.source
  rules := by
    have hpair := Fallback.provided_pair o (f := l.added) (d := l.target) rfl l.head l.tail
    rw [sweep_sheet, l.rules, List.map_append, List.map_cons]
    simp only [Rule.provided]
    rw [← added, hpair]
  place := l.place
  alone := by
    have hadd : Declarations.countAt l.front.byteSize
        (Fallback.additions o l.head.getLast? l.added) = 0 :=
      List.countP_eq_zero.mpr fun f hf => by simp [Fallback.unplaced_of_mem_additions hf]
    have := l.alone
    simp only [Declarations.count_append, count_provided_rules, Fallback.count_provided, hadd]
      at this ⊢
    omega
  led := by
    intro r hr
    rw [sweep_sheet] at hr
    obtain ⟨x, hx, rfl⟩ := List.mem_map.mp hr
    exact Fallback.led_provided o none (l.led x hx)

theorem provided_moved (o : Options) (r : Rule) :
    (l.insertion.movedRule r).provided o = l.insertion.movedRule (r.provided o) := by
  simp only [Insertion.movedRule, Rule.provided, Rule.mk.injEq, true_and, and_true]
  exact Fallback.provided_moved o l.insertion none r.declarations

theorem landed_swept (o : Options) : (l.swept o).landed = (l.landed.sweep o).1 := by
  have hi : (l.swept o).insertion = l.insertion := rfl
  have hadd : Fallback.additions o (l.head.map l.insertion.moved).getLast? l.insertion.added =
      Fallback.additions o l.head.getLast? l.added := by
    refine Fallback.additions_form o ?_ rfl
    rw [List.getLast?_map]
    cases l.head.getLast? <;> rfl
  have hpair := Fallback.provided_pair o (f := l.insertion.added) (d := l.insertion.moved l.target) rfl
    (l.head.map l.insertion.moved) (l.tail.map l.insertion.moved)
  have hhead := Fallback.provided_moved o l.insertion none l.head
  have htail := Fallback.provided_moved o l.insertion (some l.target) l.tail
  simp only [Option.map_none, Option.map_some] at hhead htail
  rw [hhead, htail, hadd] at hpair
  have hmap : ∀ rules : List Rule, (rules.map l.insertion.movedRule).map (Rule.provided o) =
      (rules.map (Rule.provided o)).map l.insertion.movedRule := by
    intro rules
    simp [Function.comp_def, l.provided_moved]
  rw [sweep_sheet o l.landed, landed, landed, hi]
  simp only [List.map_append, List.map_cons, hmap, swept, Fallback.additions_moved]
  rw [Rule.provided, hpair]
  rfl

end Landing
end Stylesheet
end CssFallback
