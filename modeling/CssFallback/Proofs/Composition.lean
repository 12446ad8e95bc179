import CssFallback.Proofs.Confinement
import CssFallback.Proofs.Layout.Heads
import CssFallback.Proofs.Stylesheet.Host

/-!
# Composition

A source that ends with a block of the sheet may be followed by any other one, and may be
put into a grouping at-rule. Both are read, and provided with fallbacks, as each of them
is alone.
-/

set_option autoImplicit false

namespace CssFallback

theorem Text.before_append (s t : Text) (p : Nat) :
    before (s.byteSize + p) (s ++ t) = s ++ before p t := by
  induction s with
  | nil => rw [List.nil_append, List.nil_append, byteSize, Nat.zero_add]
  | cons c s ih =>
    have := c.utf8Size_pos
    have hne : c.utf8Size + byteSize s + p ≠ 0 := by omega
    rw [List.cons_append, byteSize, before, if_neg hne, Nat.add_assoc, Nat.add_sub_cancel_left, ih]
    rfl

/-! ## Pieces of two texts -/

namespace Piece

theorem weave_ahead (n : Nat) (P : List Piece) (start : Nat) (t : Text) :
    weave (P.map (Insertion.ahead n).piece) (start + n) t = weave P start t := by
  have htext : ∀ x, textAt (P.map (Insertion.ahead n).piece) (x + n) = textAt P x := fun x => by
    have := (Insertion.ahead n).text_moved P x
    rwa [Insertion.place_ahead] at this
  induction t generalizing start with
  | nil => exact htext start
  | cons c t ih => rw [weave, weave, htext, ← ih, Nat.add_right_comm]

/-- What is written into a text and into another one behind it. -/
theorem weave_join {P : List Piece} {s : Text} (h : ∀ x ∈ P, x.position < s.byteSize) (Q : List Piece)
    (t : Text) : weave (P ++ Q.map (Insertion.ahead s.byteSize).piece) 0 (s ++ t) =
      weave P 0 s ++ weave Q 0 t := by
  have hfront : ∀ x ∈ P, x.position < 0 + s.byteSize := by rwa [Nat.zero_add]
  have hback : ∀ x ∈ Q.map (Insertion.ahead s.byteSize).piece, 0 + s.byteSize ≤ x.position := by
    intro x hx
    obtain ⟨y, -, rfl⟩ := List.mem_map.mp hx
    simp [Insertion.piece, Insertion.place_ahead]
  rw [weave_append t hfront hback, weave_ahead]

end Piece

/-! ## Pieces of a sheet -/

theorem Insertion.moved_rule_ahead (n : Nat) : (ahead n).movedRule = Rule.shifted n := by
  funext r
  rw [movedRule, moved_ahead, place_ahead, Rule.shifted]

theorem Rule.provided_shifted (o : Options) (n : Nat) (r : Rule) :
    (r.shifted n).provided o = (r.provided o).shifted n := by
  have := Fallback.provided_moved o (Insertion.ahead n) none r.declarations
  rw [Insertion.moved_ahead] at this
  simp only [provided, shifted, Rule.mk.injEq, true_and, and_true]
  exact this

namespace Stylesheet

def pieces (o : Options) (rules : List Rule) : List Piece :=
  (rules.map (Rule.provided o)).flatMap Piece.ofRule

theorem pieces_append (o : Options) (s t : List Rule) : pieces o (s ++ t) = pieces o s ++ pieces o t := by
  rw [pieces, List.map_append, List.flatMap_append]
  rfl

theorem pieces_shifted (o : Options) (n : Nat) (rules : List Rule) :
    pieces o (rules.map (Rule.shifted n)) = (pieces o rules).map (Insertion.ahead n).piece := by
  have hprovided : (rules.map (Rule.shifted n)).map (Rule.provided o) =
      (rules.map (Rule.provided o)).map (Rule.shifted n) := by
    simp only [List.map_map]
    exact List.map_congr_left fun r _ => Rule.provided_shifted o n r
  rw [pieces, hprovided, ← Insertion.moved_rule_ahead, Insertion.pieces_moved]
  rfl

theorem add_fallbacks_pieces {css : Text} {s : Stylesheet} (h : parse css = .ok s) (o : Options) :
    addFallbacks o css = .ok (Piece.weave (pieces o s.rules) 0 css) := by
  rw [addFallbacks, h, Except.map, render, sweep_sheet, (parse_ok.mp h).2]
  rfl

theorem position_of_piece {css : Text} {s : Stylesheet} (h : parse css = .ok s) {o : Options} {x : Piece}
    (hx : x ∈ pieces o s.rules) : x.position < css.byteSize := by
  obtain ⟨d, hd, hplace⟩ := place_of_piece h (o := o) (by rwa [sweep_sheet])
  obtain ⟨a⟩ := anchored h hd hplace
  have hne : a.name.text ≠ [] := a.text_ne_nil (List.mem_append_right _ (List.mem_cons_self ..))
  have hname : 0 < a.name.text.byteSize := Text.byte_size_pos hne
  have hsize := congrArg Token.sizeOf a.lexed
  rw [Token.sizeOf, text_of_lex, Token.size_append, Token.size_cons, a.size_front] at hsize
  omega

end Stylesheet

/-! ## Sources that end with a block -/

/-- The last token of a source closes a block of the sheet. -/
def Text.EndsWithBlock (css : Text) : Prop :=
  ∃ front t, lex css = front ++ [t] ∧ t.kind = .closing .curly ∧ Nesting.after [] front = [.curly]

def Text.NoStray (css : Text) : Prop := ∀ front t back, lex css = front ++ t :: back → ¬ t.IsStray front

theorem Text.no_stray_iff (css : Text) : css.NoStray ↔
    ∀ i : Fin (lex css).length, ¬ (lex css)[i].IsStray ((lex css).take i) := by
  constructor
  · intro h i
    exact h _ _ ((lex css).drop (i + 1)) (by simp)
  · intro h front t back hlex
    have hi : front.length < (lex css).length := by simp [hlex]
    simpa [hlex] using h ⟨front.length, hi⟩

instance (css : Text) : Decidable css.NoStray := decidable_of_iff' _ css.no_stray_iff

namespace Text.EndsWithBlock
variable {css : Text}

theorem lex_append (h : css.EndsWithBlock) (rest : Text) : lex (css ++ rest) = lex css ++ lex rest := by
  obtain ⟨front, t, hlex, ht, -⟩ := h
  obtain ⟨-, -, hrest, hcss⟩ := lex_brace hlex ht
  rw [hlex, hcss, List.append_assoc, List.append_assoc]
  exact hrest rest

theorem newlines_append (h : css.EndsWithBlock) (rest : Text) :
    (css ++ rest).newlines = css.newlines + rest.newlines := by
  obtain ⟨front, t, hlex, ht, -⟩ := h
  obtain ⟨-, -, -, hcss⟩ := lex_brace hlex ht
  have hlast : css.getLast? = some '\x7d' := by
    rw [hcss]
    exact List.getLast?_concat
  exact Text.newlines_append css rest (by rw [hlast]; decide)

theorem run (h : css.EndsWithBlock) {s : Stylesheet} (hs : Stylesheet.parse css = .ok s) :
    Reading.start.run (lex css) = .ok ⟨css.byteSize, [], ⟨s.rules, none⟩, []⟩ := by
  obtain ⟨front, t, hlex, ht, hfront⟩ := h
  obtain ⟨final, hrun, hrules⟩ := run_of_map (Stylesheet.parse_ok.mp hs).1
  have hsize : Token.sizeOf (lex css) = css.byteSize := by rw [Token.sizeOf, text_of_lex]
  rw [hlex] at hsize hrun
  rw [hlex, hrun, Reading.end_of_block hrun ht hfront, hsize, hrules]

end Text.EndsWithBlock

namespace Stylesheet

section
variable {css : Text} {s : Stylesheet} (h : css.EndsWithBlock) (hs : parse css = .ok s)
include h hs

/-- What follows the block is read as if it stood alone, behind the rules in front. -/
theorem run_behind (rest : Text) : Reading.start.run (lex (css ++ rest)) =
    ((Reading.start.shifted css.byteSize).hosted s.rules none).run (lex rest) := by
  have hstart : (⟨css.byteSize, [], ⟨s.rules, none⟩, []⟩ : Reading) =
      (Reading.start.shifted css.byteSize).hosted s.rules none := by
    simp [Reading.hosted, Reading.shifted, Insertion.reading, Reading.start, Reading.around,
      RuleList.behind, Insertion.ruleList, RuleList.empty]
  rw [h.lex_append, Reading.run_of_run _ (h.run hs), hstart]

theorem parse_behind {rest : Text} {b : Stylesheet} (hb : parse rest = .ok b) : parse (css ++ rest) =
    .ok ⟨css ++ rest, s.rules ++ b.rules.map (Rule.shifted css.byteSize)⟩ := by
  obtain ⟨final, hrun, hrules⟩ := run_of_map (parse_ok.mp hb).1
  have htexts := text_ne_nil_of_mem_lex rest
  have hhosted := Reading.run_hosted css.byteSize s.rules none htexts hrun (by simp)
  have hfinish : ((final.shifted css.byteSize).hosted s.rules none).finish =
      s.rules ++ (final.shifted css.byteSize).finish := by
    simp [Reading.hosted, Reading.around, Reading.finish, RuleList.behind]
  rw [parse, run_behind h hs, hhosted]
  simp only
  rw [hfinish, Reading.finish_shifted _ htexts hrun, hrules]

theorem parse_behind_error {rest : Text} {e : StrayBrace} (he : parse rest = .error e) :
    parse (css ++ rest) = .error ⟨e.line + css.newlines⟩ := by
  obtain ⟨p, hp, hline⟩ := parse_error_at.mp he
  have hhosted := Reading.run_hosted_error css.byteSize s.rules (text_ne_nil_of_mem_lex rest) hp
  refine parse_error_at.mpr ⟨p + css.byteSize, by rw [run_behind h hs, hhosted], ?_⟩
  simp only [hline]
  rw [Nat.add_comm p, Text.before_append, Text.line, Text.line, h.newlines_append, Nat.add_assoc,
    Nat.add_comm css.newlines]

theorem add_fallbacks_behind {rest : Text} {b : Stylesheet} (hb : parse rest = .ok b) (o : Options) :
    addFallbacks o (css ++ rest) =
      .ok (Piece.weave (pieces o s.rules) 0 css ++ Piece.weave (pieces o b.rules) 0 rest) := by
  rw [add_fallbacks_pieces (parse_behind h hs hb), pieces_append, pieces_shifted,
    Piece.weave_join (fun x hx => position_of_piece hs hx)]

end
end Stylesheet

/-! ## Grouping at-rules -/

/-- A text in front of a block, behind the name of an at-rule: in front of the brace it is
split as it is alone, and neither a semicolon nor a brace stands outside of its brackets. -/
def Text.IsPrelude (p : Text) : Prop := ∃ ts, Splits (' ' :: p) ts ['\x7b'] ∧ Stays [] ts

theorem stays_plain {ts : List Token} (h : ∀ t ∈ ts, Layout.IsPlain t) : Stays [] ts := by
  induction ts with
  | nil => rfl
  | cons t ts ih =>
    have ht := h t (by simp)
    refine ⟨⟨ht.2.1, ht.2.2, ht.not_curly⟩, ?_⟩
    rw [ht.1]
    exact ih fun x hx => h x (by simp [hx])

def Text.IsGroupName (name : Text) : Prop := groupingNames.any (Text.sameIgnoringCase name) = true

def Text.opening (name p : Text) : Text := '@' :: (name ++ ' ' :: (p ++ ['\x7b']))

theorem Text.prelude_of_selector {p : Text} (h : Layout.isSelector p = true) : p.IsPrelude := by
  have hoff : Text.StartsOff goesOn ['\x7b'] := Text.starts_off_cons _ rfl
  obtain ⟨t, ts, hts, hhead⟩ := Layout.split_selector h hoff
  obtain ⟨⟨c, v, rfl, hc⟩, -⟩ := Layout.calm_of_selector h
  have hspace : Splits [' '] [⟨.space, [' ']⟩] (c :: v ++ ['\x7b']) :=
    Splits.space (by simp) rfl (Text.starts_off_cons _ (Layout.safe_of_start hc).2.2.2)
  exact ⟨_, hspace.append hts, ⟨by simp, stays_plain hhead.plain⟩⟩

theorem Layout.name_of_lower {name : Text} (h : isName (name.map Char.toLower) = true) :
    isName name = true := by
  have hletter : ∀ c : Char, c.toLower.isAlpha = true ∨ c.toLower = '-' → c.isAlpha = true ∨ c = '-' := by
    intro c hc
    rcases alpha_or_lower c with ha | hl
    · exact .inl ha
    · rwa [hl] at hc
  simp only [isName, Bool.and_eq_true, List.head?_map, List.all_map, List.all_eq_true,
    Bool.or_eq_true, beq_iff_eq, Function.comp_apply] at h ⊢
  obtain ⟨hfirst, hall⟩ := h
  refine ⟨?_, fun c hc => hletter c (hall c hc)⟩
  cases name with
  | nil => cases hfirst
  | cons c name => exact alpha_of_lower hfirst

theorem Text.IsGroupName.name {name : Text} (h : name.IsGroupName) : Layout.isName name = true := by
  have hnames : ∀ g ∈ groupingNames, Layout.isName (g.map Char.toLower) = true := by decide
  obtain ⟨g, hg, hsame⟩ := List.any_eq_true.mp h
  have hlower : name.map Char.toLower = g.map Char.toLower := by simpa [sameIgnoringCase] using hsame
  exact Layout.name_of_lower (by rw [hlower]; exact hnames g hg)

theorem Text.splits_opening {name p : Text} {ts : List Token} (hname : Layout.isName name = true)
    (hts : Splits (' ' :: p) ts ['\x7b']) (rest : Text) : Splits (Text.opening name p)
      (⟨.atKeyword, '@' :: name⟩ :: (ts ++ [⟨.opening .curly, ['\x7b']⟩])) rest := by
  obtain ⟨c, tail, hcons, hc, htail, -⟩ := Layout.name_characters hname
  have hkeyword : Splits ('@' :: name) [⟨.atKeyword, '@' :: name⟩] (' ' :: p ++ ['\x7b'] ++ rest) := by
    rw [hcons]
    exact Splits.at_keyword hc htail (Text.starts_off_cons _ rfl)
  have hprelude : Splits (' ' :: p ++ ['\x7b']) (ts ++ [⟨.opening .curly, ['\x7b']⟩]) rest :=
    (Splits.cut rfl hts rest).append (Splits.of_start rfl)
  exact hkeyword.append hprelude

namespace Reading

theorem run_begun {nesting : Nesting} {ts : List Token} (h : Stays nesting ts) (position : Nat)
    (p : Prelude) : ∃ p' : Prelude, p'.grouping = p.grouping ∧
      (⟨position, nesting, ⟨[], some p⟩, []⟩ : Reading).run ts =
        .ok ⟨position + Token.sizeOf ts, [], ⟨[], some p'⟩, []⟩ := by
  induction ts generalizing nesting position p with
  | nil =>
    obtain rfl : nesting = [] := h
    exact ⟨p, rfl, rfl⟩
  | cons t ts ih =>
    rw [Token.size_cons, ← Nat.add_assoc]
    cases nesting with
    | nil =>
      obtain ⟨⟨hsemi, hclose, hopen⟩, hrest⟩ := h
      obtain ⟨p', hp, hrun⟩ := ih hrest (position + t.text.byteSize) (p.push t)
      refine ⟨p', hp, ?_⟩
      simpa [run, step, hclose, RuleList.read_begun, hsemi, hopen, Step.stay] using hrun
    | cons a nesting =>
      obtain ⟨p', hp, hrun⟩ := ih h (position + t.text.byteSize) (p.pushInside t)
      refine ⟨p', hp, ?_⟩
      simpa [run, step, stepInside, RuleList.pushInside] using hrun

theorem run_group {keyword : Token} {ts : List Token} (hkind : keyword.kind = .atKeyword)
    (hgroup : keyword.isGrouping = true) (hts : Stays [] ts) :
    start.run (keyword :: (ts ++ [⟨.opening .curly, ['\x7b']⟩])) =
      .ok ⟨Token.sizeOf (keyword :: (ts ++ [⟨.opening .curly, ['\x7b']⟩])), [], .empty,
        [.list .empty]⟩ := by
  have hfirst : start.run [keyword] =
      .ok ⟨keyword.text.byteSize, [], ⟨[], some (.start keyword)⟩, []⟩ := by
    simp [run, step, start, RuleList.read, RuleList.empty, Step.stay, Token.opens?, hkind]
  obtain ⟨p, hgrouping, hrun⟩ := run_begun hts keyword.text.byteSize (.start keyword)
  have hframe : RuleList.frameOf p = .list .empty := by
    rw [RuleList.frameOf, hgrouping, Prelude.start, hgroup]
    rfl
  have hopen : ∀ q, (⟨q, [], ⟨[], some p⟩, []⟩ : Reading).run [⟨.opening .curly, ['\x7b']⟩] =
      .ok ⟨q + Text.byteSize ['\x7b'], [], .empty, [.list .empty]⟩ := fun q => by
    simp [run, step, RuleList.read, Step.enter, hframe, RuleList.empty]
  rw [← List.singleton_append, run_of_run _ hfirst, run_of_run _ hrun, hopen, List.singleton_append,
    Token.size_cons, Token.size_append, Nat.add_assoc]
  rfl

/-- The inside of a grouping at-rule is read as a list behind no rules. -/
theorem run_opening {name p : Text} (hname : name.IsGroupName) (hp : p.IsPrelude) :
    ∃ ts, (∀ rest, Splits (Text.opening name p) ts rest) ∧ start.run ts =
      .ok ((start.shifted (Text.opening name p).byteSize).hosted [] (some (.empty, []))) := by
  obtain ⟨ts, hts, hstays⟩ := hp
  have hsplits := Text.splits_opening hname.name hts
  have hgroup : (⟨.atKeyword, '@' :: name⟩ : Token).isGrouping = true :=
    (Layout.grouping_of_name hname.name none).trans hname
  refine ⟨_, hsplits, ?_⟩
  rw [run_group rfl hgroup hstays, Token.sizeOf, (hsplits []).text_of]
  simp [hosted, shifted, Insertion.reading, start, around, RuleList.behind, Insertion.ruleList,
    RuleList.empty]

theorem run_group_end (n position : Nat) (rules : List Rule) :
    (((⟨position, [], ⟨rules, none⟩, []⟩ : Reading).shifted n).hosted [] (some (.empty, []))).run
        [⟨.closing .curly, ['\x7d']⟩] =
      .ok ⟨position + n + Text.byteSize ['\x7d'], [],
        ⟨((⟨position, [], ⟨rules, none⟩, []⟩ : Reading).shifted n).finish, none⟩, []⟩ := by
  simp [run, step, hosted, shifted, Insertion.reading, around, leave, Frame.rules, RuleList.receive,
    RuleList.behind, RuleList.empty, finish, endFrames, Insertion.ruleList]

end Reading

namespace Stylesheet

section
variable {css : Text} {s : Stylesheet} (h : css.EndsWithBlock) (hs : parse css = .ok s)
  (hstray : css.NoStray) {name p : Text} (hname : name.IsGroupName) (hp : p.IsPrelude)
include h hs hstray hname hp

theorem parse_group : parse (Text.opening name p ++ (css ++ ['\x7d'])) =
    .ok ⟨Text.opening name p ++ (css ++ ['\x7d']),
      s.rules.map (Rule.shifted (Text.opening name p).byteSize)⟩ := by
  obtain ⟨ts, hsplits, hopening⟩ := Reading.run_opening hname hp
  have htexts := text_ne_nil_of_mem_lex css
  have hhosted := Reading.run_hosted (Text.opening name p).byteSize [] (some (.empty, [])) htexts
    (h.run hs) fun _ => hstray
  have hfinish := Reading.finish_shifted (Text.opening name p).byteSize htexts (h.run hs)
  have hlex : lex (Text.opening name p ++ (css ++ ['\x7d'])) =
      ts ++ (lex css ++ [⟨.closing .curly, ['\x7d']⟩]) := by
    rw [hsplits, h.lex_append]
    rfl
  rw [parse, hlex, Reading.run_of_run _ hopening, Reading.run_of_run _ hhosted, Reading.run_group_end,
    hfinish]
  simp [Reading.finish, Reading.endFrames]

theorem add_fallbacks_group (o : Options) :
    addFallbacks o (Text.opening name p ++ (css ++ ['\x7d'])) =
      .ok (Text.opening name p ++ (Piece.weave (pieces o s.rules) 0 css ++ ['\x7d'])) := by
  have hinside := Piece.weave_join (fun x hx => position_of_piece hs (o := o) hx) [] ['\x7d']
  have houtside := Piece.weave_join (P := []) (s := Text.opening name p) (by simp) (pieces o s.rules)
    (css ++ ['\x7d'])
  rw [List.map_nil, List.append_nil, Piece.weave_nil] at hinside
  rw [List.nil_append, Piece.weave_nil, hinside] at houtside
  rw [add_fallbacks_pieces (parse_group h hs hstray hname hp), pieces_shifted, houtside]

end

/-- A source that ends with a block of the sheet makes no difference to what follows it,
and is read in the same way in a grouping at-rule, if no brace ends the at-rule. -/
theorem parse_composes {css : Text} {s : Stylesheet} (h : css.EndsWithBlock) (hs : parse css = .ok s) :
    (∀ rest,
      ((∃ c, parse (css ++ rest) = .ok c) ↔ ∃ b, parse rest = .ok b) ∧
      (∀ b, parse rest = .ok b →
        parse (css ++ rest) =
          .ok ⟨css ++ rest, s.rules ++ b.rules.map (Rule.shifted css.byteSize)⟩ ∧
        ∀ o, ∃ u v, addFallbacks o css = .ok u ∧ addFallbacks o rest = .ok v ∧
          addFallbacks o (css ++ rest) = .ok (u ++ v)) ∧
      ∀ e, parse rest = .error e → parse (css ++ rest) = .error ⟨e.line + css.newlines⟩) ∧
    (css.NoStray → ∀ name p : Text, name.IsGroupName → p.IsPrelude →
      parse (Text.opening name p ++ (css ++ ['\x7d'])) =
        .ok ⟨Text.opening name p ++ (css ++ ['\x7d']),
          s.rules.map (Rule.shifted (Text.opening name p).byteSize)⟩ ∧
      ∀ o, ∃ u, addFallbacks o css = .ok u ∧
        addFallbacks o (Text.opening name p ++ (css ++ ['\x7d'])) =
          .ok (Text.opening name p ++ (u ++ ['\x7d']))) := by
  refine ⟨fun rest => ⟨?_, fun b hb => ⟨parse_behind h hs hb, fun o => ?_⟩, fun e he =>
    parse_behind_error h hs he⟩, fun hstray name p hname hp =>
      ⟨parse_group h hs hstray hname hp, fun o => ?_⟩⟩
  · cases hrest : parse rest with
    | ok b => simp [parse_behind h hs hrest]
    | error e => simp [parse_behind_error h hs hrest]
  · exact ⟨_, _, add_fallbacks_pieces hs o, add_fallbacks_pieces hb o, add_fallbacks_behind h hs hb o⟩
  · exact ⟨_, add_fallbacks_pieces hs o, add_fallbacks_group h hs hstray hname hp o⟩

/-- The fallback of a rule, with another rule behind it, and in an at-rule in capitals. -/
theorem parse_composes_media :
    parse ("a\x7boverflow:clip\x7d".toList ++ "b\x7b\x7d".toList) =
      .ok ⟨"a\x7boverflow:clip\x7db\x7b\x7d".toList,
        [⟨['a'], [⟨"overflow".toList, "clip".toList, false, [], [':'], some 2⟩], 15⟩, ⟨['b'], [], 18⟩]⟩ ∧
    parse ("a\x7boverflow:clip\x7d".toList ++ "\n\x7d".toList) = .error ⟨2⟩ ∧
    ∃ u, addFallbacks .all "a\x7boverflow:clip\x7d".toList = .ok u ∧
      addFallbacks .all (Text.opening "MEDIA".toList "print".toList ++
        ("a\x7boverflow:clip\x7d".toList ++ ['\x7d'])) =
          .ok (Text.opening "MEDIA".toList "print".toList ++ (u ++ ['\x7d'])) := by
  have hblock : Text.EndsWithBlock "a\x7boverflow:clip\x7d".toList :=
    ⟨lex "a\x7boverflow:clip".toList, _, rfl, rfl, rfl⟩
  have hparse : parse "a\x7boverflow:clip\x7d".toList = .ok ⟨"a\x7boverflow:clip\x7d".toList,
    [⟨['a'], [⟨"overflow".toList, "clip".toList, false, [], [':'], some 2⟩], 15⟩]⟩ := rfl
  obtain ⟨hbehind, hgroup⟩ := parse_composes hblock hparse
  obtain ⟨-, hok, -⟩ := hbehind "b\x7b\x7d".toList
  obtain ⟨-, -, herror⟩ := hbehind "\n\x7d".toList
  have hname : Text.IsGroupName "MEDIA".toList := rfl
  have hprelude : Text.IsPrelude "print".toList := Text.prelude_of_selector rfl
  exact ⟨(hok ⟨_, [⟨['b'], [], 2⟩]⟩ rfl).1, herror ⟨2⟩ rfl,
    (hgroup (by decide) _ _ hname hprelude).2 .all⟩

end Stylesheet
end CssFallback
