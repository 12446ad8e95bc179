import CssFallback.Proofs.Stylesheet.Extension
import CssFallback.Proofs.Stylesheet.Reparse
import Mathlib.Data.Finset.Max

/-!
# Sheets with declarations at the end of rules

A rule may have more declarations behind those of the source. Where its block is open at
its end they are written into the block, last rule first, and then the sheet has only
fallbacks left to write.
-/

set_option autoImplicit false

namespace CssFallback

namespace Declarations

/-- A led list, and behind it added declarations that are read as they are written. -/
def Grown (list : Declarations) : Prop :=
  ∃ main tail, list = main ++ tail ∧ Led main ∧ ∀ d ∈ tail, d.place = none ∧ d.Written

theorem led_append {s t : Declarations} (hs : Led s) (ht : Led t) : Led (s ++ t) := by
  induction s with
  | nil => exact ht
  | cons d s ih =>
    refine ⟨fun hd => ?_, ih hs.2⟩
    obtain ⟨e, v, he, hv⟩ := hs.1 hd
    exact ⟨e, v, by simp [List.head?_append, he], hv⟩

namespace Grown
variable {list : Declarations}

theorem of_led (h : Led list) : list.Grown := ⟨list, [], by simp, h, by simp⟩

theorem moved (h : list.Grown) (i : Insertion) : Grown (list.map i.moved) := by
  obtain ⟨main, tail, rfl, hled, htail⟩ := h
  refine ⟨main.map i.moved, tail.map i.moved, List.map_append, i.led_moved hled, ?_⟩
  intro d hd
  obtain ⟨x, hx, rfl⟩ := List.mem_map.mp hd
  obtain ⟨hplace, hwritten⟩ := htail x hx
  exact ⟨by simp [Insertion.moved, hplace], hwritten.name, hwritten.separator, hwritten.indent,
    hwritten.value⟩

end Grown
end Declarations

namespace Piece

theorem of_unplaced {list : Declarations} (h : ∀ d ∈ list, d.place = none) (stop : Nat) (run : Text) :
    ofDeclarations stop run list = ofRun stop (run ++ list.leadText) := by
  induction list generalizing run with
  | nil => simp [ofDeclarations, Declarations.leadText]
  | cons d list ih =>
    rw [ofDeclarations, h d (by simp)]
    simp [ih fun e he => h e (by simp [he]), Declarations.leadText]

/-- A piece of a rule is written in front of a declaration of the source, or at the end of
the rule, if it is left to be written there. -/
theorem position_of_rule {r : Rule} {x : Piece} (h : x ∈ ofRule r) :
    (∃ d ∈ r.declarations, d.place = some x.position) ∨
      ¬ Declarations.Led r.declarations ∧ x.position = r.stop := by
  by_cases hled : Declarations.Led r.declarations
  · rw [ofRule, of_led hled] at h
    exact .inl (place_of_mem h)
  · rw [ofRule, of_declarations, List.mem_append] at h
    rcases h with h | h
    · exact .inl (place_of_mem h)
    · refine .inr ⟨hled, ?_⟩
      rw [ofRun] at h
      split at h
      · cases h
      · rw [List.mem_singleton.mp h]

end Piece

namespace Opening

theorem place_ne {css : Text} {q : Nat} (o : Opening css q) {rules : List Rule}
    (hparse : Stylesheet.parse css = .ok ⟨css, rules⟩) {r : Rule} (hr : r ∈ rules) (hstop : r.stop = q) :
    ∀ d ∈ declarationsOf rules, d.place ≠ some q := by
  obtain ⟨final, hrun, rfl⟩ := o.run_of_parse hparse
  have hclaims : final.claims q = 0 :=
    o.claims_behind (o.back_cases hrun hr hstop) (List.append_nil _).symm hrun
  have hcount := Reading.count_finish q final
  rw [hclaims] at hcount
  intro d hd hplace
  have := List.countP_eq_zero.mp (Nat.le_zero.mp hcount) d hd
  simp [hplace] at this

theorem earlier {css : Text} {p q : Nat} (o' : Opening css p) (o : Opening css q) (hp : p < q)
    {u : Text} {ts : List Token} (h : lex (Token.textOf o.front ++ (u ++ Token.textOf o.back)) =
      o.front ++ (ts ++ o.back)) :
    Nonempty (Opening (Token.textOf o.front ++ (u ++ Token.textOf o.back)) p) := by
  have hsize := o'.size_front
  have hsplit := o'.lexed.symm.trans o.lexed
  obtain ⟨more, hmore⟩ : ∃ more, o.front = o'.front ++ more := by
    rcases List.append_eq_append_iff.mp hsplit with ⟨more, hfront, -⟩ | ⟨more, hfront, -⟩
    · exact ⟨more, hfront⟩
    · have := o.size_front
      rw [hfront, Token.size_append] at hsize
      omega
  exact ⟨⟨o'.front, more ++ (ts ++ o.back), o'.sheet, o'.block, o'.outer, by rw [h, hmore]; simp,
    o'.closes, o'.run_front, o'.no_item⟩⟩

end Opening

namespace Stylesheet

/-- More can be written where the rule at an index ends, and no later rule ends there. -/
def Ready (s : Stylesheet) (k : Nat) : Prop :=
  ∀ r, s.rules[k]? = some r → Nonempty (Opening s.source r.stop) ∧
    ∀ j x, k < j → s.rules[j]? = some x → x.stop ≠ r.stop

theorem Ready.of_same {s t : Stylesheet} {k : Nat} (h : s.Ready k) (hsource : t.source = s.source)
    (hstops : t.rules.map Rule.stop = s.rules.map Rule.stop) : t.Ready k := by
  have hrule : ∀ (j : Nat) (r : Rule), t.rules[j]? = some r →
      ∃ x, s.rules[j]? = some x ∧ x.stop = r.stop := by
    intro j r hr
    have hstop := congrArg (·[j]?) hstops
    simp only [List.getElem?_map, hr, Option.map_some] at hstop
    exact Option.map_eq_some_iff.mp hstop.symm
  intro r hr
  obtain ⟨x, hx, hstop⟩ := hrule k r hr
  obtain ⟨hopening, hlater⟩ := h x hx
  rw [hsource, ← hstop]
  refine ⟨hopening, fun j y hj hy => ?_⟩
  obtain ⟨z, hz, hzstop⟩ := hrule j y hy
  rw [← hzstop]
  exact hlater j z hj hz

/-- The declarations of the source are those that are read from it, the others are
fallbacks in front of them, and there are more where a rule is ready for them. -/
structure Grown (s : Stylesheet) : Prop where
  parsed : parse s.source = .ok ⟨s.source, s.rules.map Rule.sourced⟩
  lists : ∀ r ∈ s.rules, Declarations.Grown r.declarations
  ready : ∀ (k : Nat) (r : Rule), s.rules[k]? = some r → ¬ Declarations.Led r.declarations → s.Ready k

/-- The last rule that has more declarations than those of the source and their
fallbacks. -/
structure Extension (s : Stylesheet) where
  before : List Rule
  selector : Text
  main : Declarations
  tail : Declarations
  stop : Nat
  after : List Rule
  opening : Opening s.source stop
  rules : s.rules = before ++ ⟨selector, main ++ tail, stop⟩ :: after
  led : Declarations.Led main
  unplaced : ∀ d ∈ tail, d.place = none
  written : ∀ d ∈ tail, d.Written
  tail_ne : tail ≠ []
  last : ∀ x ∈ after, x.stop ≠ stop
  others : ∀ x ∈ before ++ after, ¬ Declarations.Led x.declarations → x.stop < stop

namespace Extension
variable {s : Stylesheet} (e : Extension s)

def insertion : Insertion := ⟨e.stop, e.tail.leadText.byteSize, .fresh [] [] false⟩

def landed (added : Declarations) : Stylesheet :=
  ⟨Token.textOf e.opening.front ++ (e.tail.leadText ++ Token.textOf e.opening.back),
    e.before.map e.insertion.movedRule ++
      ⟨e.selector, e.main.map e.insertion.moved ++ added, e.insertion.place e.stop⟩ ::
      e.after.map e.insertion.movedRule⟩

theorem tail_written : e.tail.leadText ≠ [] := by
  obtain ⟨d, rest, hd⟩ := List.exists_cons_of_ne_nil e.tail_ne
  rw [hd, Declarations.leadText, List.flatMap_cons]
  simp [Declaration.leadText]

theorem source : s.source = Token.textOf e.opening.front ++ Token.textOf e.opening.back := by
  rw [← Token.text_of_append, ← e.opening.lexed, text_of_lex]

theorem place_ne (h : s.Grown) : ∀ d ∈ declarationsOf s.rules, d.place ≠ some e.stop := by
  intro d hd hplace
  obtain ⟨r, hr, hd⟩ := List.mem_flatMap.mp hd
  have hmem : (⟨e.selector, e.main ++ e.tail, e.stop⟩ : Rule) ∈ s.rules := by
    rw [e.rules]
    simp
  refine e.opening.place_ne h.parsed (List.mem_map_of_mem hmem) rfl d
    (List.mem_flatMap.mpr ⟨r.sourced, List.mem_map_of_mem hr, ?_⟩) hplace
  exact List.mem_filter.mpr ⟨hd, by simp [hplace]⟩

theorem pieces_rule : Piece.ofDeclarations e.stop [] (e.main ++ e.tail) =
    Piece.inFront [] e.main ++ Piece.ofRun e.stop e.tail.leadText := by
  rw [Piece.of_append, Declarations.left_of_led e.led [] (.inr rfl), Piece.of_unplaced e.unplaced,
    List.nil_append]

theorem pieces_landed {added : Declarations} (h : Reading.Placed added) :
    Piece.ofDeclarations (e.insertion.place e.stop) [] (e.main.map e.insertion.moved ++ added) =
      (Piece.inFront [] e.main).map e.insertion.piece := by
  have hleft := Declarations.left_of_led (e.insertion.led_moved e.led) [] (.inr rfl)
  rw [Piece.of_append, hleft, Piece.of_led (Declarations.led_of_placed h), Piece.in_front_of_placed h,
    List.append_nil, (Piece.in_front_moved e.insertion [] e.main).1]

theorem pieces_ne (h : s.Grown) {rules : List Rule} (hrules : rules ⊆ e.before ++ e.after) :
    ∀ x ∈ rules.flatMap Piece.ofRule, x.position ≠ e.insertion.position := by
  intro x hx
  obtain ⟨r, hr, hx⟩ := List.mem_flatMap.mp hx
  rcases Piece.position_of_rule hx with ⟨d, hd, hplace⟩ | ⟨hled, hstop⟩
  · intro heq
    have hmem : r ∈ s.rules := by
      have := hrules hr
      rw [e.rules]
      simp only [List.mem_append, List.mem_cons] at this ⊢
      exact this.imp id .inr
    exact e.place_ne h d (List.mem_flatMap.mpr ⟨r, hmem, hd⟩) (by rw [hplace, heq]; rfl)
  · have := e.others r (hrules hr) hled
    have hposition : e.insertion.position = e.stop := rfl
    omega

theorem pieces_main_ne (h : s.Grown) : ∀ x ∈ Piece.inFront [] e.main,
    x.position ≠ e.insertion.position := by
  intro x hx heq
  obtain ⟨d, hd, hplace⟩ := Piece.place_of_mem hx
  refine e.place_ne h d ?_ (by rw [hplace, heq]; rfl)
  rw [e.rules, declarations_append, declarations_cons]
  simp [hd]

theorem render_landed (h : s.Grown) {added : Declarations} (ha : Reading.Placed added) :
    (e.landed added).render = s.render := by
  have hbefore : ∀ x ∈ e.before.flatMap Piece.ofRule ++ Piece.inFront [] e.main,
      x.position ≠ e.insertion.position := by
    intro x hx
    rcases List.mem_append.mp hx with hx | hx
    · exact e.pieces_ne h (List.subset_append_left _ _) x hx
    · exact e.pieces_main_ne h x hx
  have hafter := e.pieces_ne h (List.subset_append_right e.before e.after)
  have hweave := e.insertion.weave_moved [] (Token.textOf e.opening.back) e.tail_written rfl
    e.opening.size_front hbefore hafter
  have hposition : e.insertion.position = e.stop := rfl
  rw [render, render, e.rules, landed]
  simp only [List.flatMap_append, List.flatMap_cons, e.insertion.pieces_moved, Piece.ofRule,
    e.pieces_rule, e.pieces_landed ha]
  rw [← e.source] at hweave
  simpa [hposition, Piece.ofRun] using hweave

theorem parse_landed (h : s.Grown) : ∃ added, Reading.Placed added ∧
    added.map Declaration.entry = e.tail.map Declaration.entry ∧
      parse (e.landed added).source =
        .ok ⟨(e.landed added).source, (e.landed added).rules.map Rule.sourced⟩ := by
  have hne := e.place_ne h
  rw [e.rules, declarations_append, declarations_cons] at hne
  have hsourced : s.rules.map Rule.sourced = e.before.map Rule.sourced ++
      ⟨e.selector, Declarations.sourced (e.main ++ e.tail), e.stop⟩ :: e.after.map Rule.sourced := by
    rw [e.rules, List.map_append, List.map_cons]
    rfl
  have hlast : ∀ x ∈ e.after.map Rule.sourced, x.stop ≠ e.stop := by
    intro x hx
    obtain ⟨y, hy, rfl⟩ := List.mem_map.mp hx
    exact e.last y hy
  obtain ⟨added, hplaced, hentries, hparse⟩ := e.opening.parse_extended h.parsed hsourced rfl hlast
    e.written (i := e.insertion) rfl rfl
  refine ⟨added, hplaced, hentries, hparse.trans ?_⟩
  have hbefore := e.insertion.rules_other fun d hd => hne d (List.mem_append_left _ hd)
  have hafter := e.insertion.rules_other fun d hd =>
    hne d (List.mem_append_right _ (List.mem_append_right _ hd))
  have hlist : e.insertion.list (Declarations.sourced (e.main ++ e.tail)) =
      Declarations.sourced (e.main.map e.insertion.moved) := by
    have htail : ∀ d ∈ e.tail.map e.insertion.moved, d.place = none := by
      intro d hd
      obtain ⟨x, hx, rfl⟩ := List.mem_map.mp hd
      simp [Insertion.moved, e.unplaced x hx]
    rw [e.insertion.list_other _ fun d hd => hne d (List.mem_append_right _ (List.mem_append_left _ hd)),
      List.map_append, Declarations.sourced_append, Declarations.sourced_of_unplaced htail,
      List.append_nil]
  have hstop : e.insertion.place e.stop = e.stop + e.insertion.size := if_neg (Nat.lt_irrefl _)
  have hlanded : Declarations.sourced (e.main.map e.insertion.moved ++ added) =
      Declarations.sourced (e.main.map e.insertion.moved) ++ added := by
    rw [Declarations.sourced_append, Declarations.sourced_of_placed hplaced]
  simp only [landed, List.map_append, List.map_cons, hbefore, hafter, hlist, Rule.sourced, hlanded,
    hstop]

theorem unplaced_landed {added : Declarations} (h : Reading.Placed added) :
    Declarations.unplaced (declarationsOf (e.landed added).rules) + e.tail.length =
      Declarations.unplaced (declarationsOf s.rules) := by
  have hadded : Declarations.unplaced added = 0 :=
    List.countP_eq_zero.mpr fun d hd => by simpa using Option.isSome_iff_ne_none.mp (h d hd)
  have htail : Declarations.unplaced e.tail = e.tail.length :=
    List.countP_eq_length.mpr fun d hd => by simp [e.unplaced d hd]
  rw [e.rules, landed]
  simp only [declarations_append, declarations_cons, Declarations.unplaced_append,
    Insertion.unplaced_moved, Insertion.unplaced_rules_moved, hadded, htail]
  omega

theorem outline_landed {added : Declarations}
    (h : added.map Declaration.entry = e.tail.map Declaration.entry) :
    (e.landed added).rules.map Rule.outline = s.rules.map Rule.outline := by
  have hlist : ∀ list : Declarations, (list.map e.insertion.moved).map Declaration.entry =
      list.map Declaration.entry := by
    intro list
    rw [List.map_map]
    rfl
  have hrules : ∀ rules : List Rule, (rules.map e.insertion.movedRule).map Rule.outline =
      rules.map Rule.outline := by
    intro rules
    rw [List.map_map]
    exact List.map_congr_left fun r _ => by simp [Rule.outline, Insertion.movedRule, hlist]
  rw [e.rules, landed]
  simp only [List.map_append, List.map_cons, hrules, Rule.outline, hlist, h]

theorem lex_landed (h : s.Grown) (added : Declarations) : ∃ ts,
    lex (e.landed added).source = e.opening.front ++ (ts ++ e.opening.back) := by
  have hmem : (⟨e.selector, e.main ++ e.tail, e.stop⟩ : Rule) ∈ s.rules := by
    rw [e.rules]
    simp
  obtain ⟨final, hrun, hfinish⟩ := e.opening.run_of_parse h.parsed
  have hrule : Rule.sourced ⟨e.selector, e.main ++ e.tail, e.stop⟩ ∈ final.finish := by
    rw [hfinish]
    exact List.mem_map_of_mem hmem
  obtain ⟨ts, hlex, -⟩ := e.opening.tokens_extended (e.opening.back_cases hrun hrule rfl) e.written
  exact ⟨ts, hlex⟩

theorem index : s.rules[e.before.length]? = some ⟨e.selector, e.main ++ e.tail, e.stop⟩ := by
  simp [e.rules]

theorem mem_others {k : Nat} {r : Rule} (h : s.rules[k]? = some r) (hk : k ≠ e.before.length) :
    r ∈ e.before ++ e.after := by
  have hmem : r ∈ s.rules.eraseIdx e.before.length :=
    List.mem_eraseIdx_iff_getElem?.mpr ⟨k, hk, h⟩
  rw [e.rules, List.eraseIdx_append_of_length_le (Nat.le_refl _)] at hmem
  simpa using hmem

theorem rules_landed (added : Declarations) : (e.landed added).rules =
    (s.rules.map e.insertion.movedRule).set e.before.length
      ⟨e.selector, e.main.map e.insertion.moved ++ added, e.insertion.place e.stop⟩ := by
  rw [e.rules, landed]
  simp

theorem rule_landed {added : Declarations} {k : Nat} {r : Rule}
    (h : (e.landed added).rules[k]? = some r) : ∃ x, s.rules[k]? = some x ∧
      r.stop = e.insertion.place x.stop ∧ (r = e.insertion.movedRule x ∧ x ∈ e.before ++ e.after ∨
        r.declarations = e.main.map e.insertion.moved ++ added) := by
  rw [rules_landed] at h
  by_cases hk : k = e.before.length
  · subst hk
    have hlen : e.before.length < s.rules.length := (List.getElem?_eq_some_iff.mp e.index).1
    rw [List.getElem?_set_self (by simpa using hlen)] at h
    obtain rfl := Option.some.inj h
    exact ⟨_, e.index, rfl, .inr rfl⟩
  · rw [List.getElem?_set_ne (Ne.symm hk), List.getElem?_map] at h
    obtain ⟨x, hx, rfl⟩ := Option.map_eq_some_iff.mp h
    exact ⟨x, hx, rfl, .inl ⟨rfl, e.mem_others hx hk⟩⟩

theorem grown_landed (h : s.Grown) {added : Declarations} (ha : Reading.Placed added)
    (hparse : parse (e.landed added).source =
      .ok ⟨(e.landed added).source, (e.landed added).rules.map Rule.sourced⟩) :
    (e.landed added).Grown := by
  have hled : Declarations.Led (e.main.map e.insertion.moved ++ added) :=
    Declarations.led_append (e.insertion.led_moved e.led) (Declarations.led_of_placed ha)
  refine ⟨hparse, fun r hr => ?_, fun k r hr hnot => ?_⟩
  · obtain ⟨k, hk⟩ := List.getElem?_of_mem hr
    obtain ⟨x, hx, -, ⟨rfl, -⟩ | hlist⟩ := e.rule_landed hk
    · exact (h.lists x (List.mem_of_getElem? hx)).moved e.insertion
    · rw [hlist]
      exact .of_led hled
  · intro r' hr'
    obtain rfl := Option.some.inj (hr.symm.trans hr')
    obtain ⟨x, hx, hstop, ⟨rfl, hmem⟩ | hlist⟩ := e.rule_landed hr
    · have hnot' : ¬ Declarations.Led x.declarations := fun hl => hnot (e.insertion.led_moved hl)
      obtain ⟨⟨opening⟩, hlater⟩ := h.ready k x hx hnot' x hx
      have hbelow := e.others x hmem hnot'
      have hplace : e.insertion.place x.stop = x.stop := if_pos hbelow
      obtain ⟨ts, hlex⟩ := e.lex_landed h added
      refine ⟨?_, fun j y hj hy => ?_⟩
      · rw [hstop, hplace]
        exact opening.earlier e.opening hbelow hlex
      · obtain ⟨z, hz, hzstop, -⟩ := e.rule_landed hy
        rw [hzstop, hstop]
        exact fun heq => hlater j z hj hz (e.insertion.place_injective heq)
    · exact absurd (by rw [hlist]; exact hled) hnot

end Extension
/-! ## Settling -/

theorem Alike.outline {s t : Stylesheet} (h : s.Alike t) :
    s.rules.map Rule.outline = t.rules.map Rule.outline := by
  have hform : ∀ rules : List Rule, rules.map Rule.outline =
      (rules.map Rule.form).map fun x => ⟨x.1, x.2.map Declaration.entry⟩ := by
    intro rules
    rw [List.map_map]
    refine List.map_congr_left fun r _ => ?_
    simp only [Function.comp_def, Rule.form, Rule.outline, List.map_map]
    rfl
  rw [hform, hform, h]

namespace Grown
variable {s : Stylesheet} (h : s.Grown)
include h

/-- Of the rules that have more declarations, one ends last. -/
theorem exists_extension {r : Rule} (hr : r ∈ s.rules) (hnot : ¬ Declarations.Led r.declarations) :
    Nonempty (Extension s) := by
  classical
  obtain ⟨m, hm, hmax⟩ := Finset.exists_max_image
    (s.rules.filter fun x => ¬ Declarations.Led x.declarations).toFinset Rule.stop
    ⟨r, by simp [hr, hnot]⟩
  simp only [List.mem_toFinset, List.mem_filter, decide_eq_true_eq, and_imp] at hm hmax
  obtain ⟨hm, hmnot⟩ := hm
  obtain ⟨before, after, hrules⟩ := List.append_of_mem hm
  have hindex : s.rules[before.length]? = some m := by simp [hrules]
  obtain ⟨⟨opening⟩, hlater⟩ := h.ready before.length m hindex hmnot m hindex
  obtain ⟨main, tail, hlist, hled, htail⟩ := h.lists m hm
  have hlast : ∀ x ∈ after, x.stop ≠ m.stop := by
    intro x hx
    obtain ⟨j, hj⟩ := List.getElem?_of_mem hx
    refine hlater (before.length + 1 + j) x (by omega) ?_
    rw [hrules, List.getElem?_append_right (by omega)]
    simpa [show before.length + 1 + j - before.length = j + 1 by omega] using hj
  refine ⟨⟨before, m.selector, main, tail, m.stop, after, opening, ?_, hled, fun d hd => (htail d hd).1,
    fun d hd => (htail d hd).2, ?_, hlast, ?_⟩⟩
  · rw [hrules, ← hlist]
  · rintro rfl
    exact hmnot (by rw [hlist, List.append_nil]; exact hled)
  · intro x hx hxnot
    have hmem : x ∈ s.rules := by
      rw [hrules]
      exact (List.mem_append.mp hx).elim (fun h => by simp [h]) fun h => by simp [h]
    refine Nat.lt_of_le_of_ne (hmax x hmem hxnot) ?_
    rcases List.mem_append.mp hx with hx | hx
    · obtain ⟨j, hj⟩ := List.getElem?_of_mem hx
      have hlen : j < before.length := (List.getElem?_eq_some_iff.mp hj).1
      have hxindex : s.rules[j]? = some x := by rw [hrules, List.getElem?_append_left hlen, hj]
      exact fun heq => (h.ready j x hxindex hxnot x hxindex).2 _ m hlen hindex heq.symm
    · exact hlast x hx

/-- What a grown sheet writes is read back as rules that say the same. -/
theorem settle : ∃ t, parse s.render = .ok t ∧ t.rules.map Rule.outline = s.rules.map Rule.outline := by
  induction hn : Declarations.unplaced (declarationsOf s.rules) using Nat.strong_induction_on
    generalizing s with
  | _ n ih =>
    by_cases hall : ∀ r ∈ s.rules, Declarations.Led r.declarations
    · obtain ⟨t, ht, hparse⟩ := Tied.settle ⟨h.parsed, hall⟩
      exact ⟨t, hparse, ht.alike.outline⟩
    · obtain ⟨r, hr⟩ := Classical.not_forall.mp hall
      obtain ⟨hr, hnot⟩ := Classical.not_imp.mp hr
      obtain ⟨e⟩ := h.exists_extension hr hnot
      obtain ⟨added, hplaced, hentries, hparse⟩ := e.parse_landed h
      have hfewer := e.unplaced_landed hplaced
      have htail := List.length_pos_iff.mpr e.tail_ne
      obtain ⟨t, ht, houtline⟩ := ih _ (by omega) (e.grown_landed h hplaced hparse) rfl
      exact ⟨t, by rw [← e.render_landed h hplaced, ht], houtline.trans (e.outline_landed hentries)⟩

end Grown
end Stylesheet
end CssFallback
