import CssFallback.Proofs.Declaration.Separator
import CssFallback.Proofs.Stylesheet.Lead
import CssFallback.Stylesheet.Splice

/-!
# Reading back a fallback

A source into which the text of a fallback is written in front of a declaration is read
as before, with the fallback in front of the declaration.
-/

set_option autoImplicit false

namespace CssFallback

theorem Stylesheet.parse_ok {css : Text} {s : Stylesheet} :
    Stylesheet.parse css = .ok s ↔
      ((Reading.start.run (lex css)).map Reading.finish = .ok s.rules ∧ s.source = css) := by
  rw [parse]
  obtain ⟨source, rules⟩ := s
  cases Reading.start.run (lex css) <;> simp [Except.map, eq_comm, and_comm]

namespace Reading

theorem run_ends {nesting : Nesting} {ts : List Token} (h : Ends nesting ts) (position : Nat)
    (sheet : RuleList) (b : Block) (outer : List Frame) :
    ((inItem position nesting sheet b outer).run ts).map finish =
      ((atBlock position sheet b.endItem outer).run ts).map finish := by
  have hend : b.endItem.endItem = b.endItem := by simp [Block.endItem, Item.declaration?]
  rcases h with rfl | ⟨rfl, t, rest, rfl, ht⟩
  · simp [run, Except.map, finish, inItem, atBlock, endFrames, Frame.receive, Frame.rules, Block.rules,
      Block.endItem, Item.declaration?]
  · have : (atBlock position sheet b outer).step t = (atBlock position sheet b.endItem outer).step t :=
      step_end ht hend.symm
    rw [run, run, ← this]
    rfl

theorem fixed_run {i : Insertion} {r final : Reading} {ts : List Token}
    (hts : ∀ t ∈ ts, t.text ≠ []) (hr : r.Fresh) (h : r.run ts = .ok final)
    (hp : final.position ≤ i.position) (hfix : i.reading r.position r = r) :
    i.reading final.position final = final := by
  induction ts generalizing r with
  | nil =>
    obtain rfl := Except.ok.inj h
    exact hfix
  | cons t ts ih =>
    obtain ⟨next, hs, hrun⟩ := run_cons h
    have hpos := (step_cases hs).1
    have hsize : 0 < t.text.byteSize := Text.byte_size_pos (hts t (by simp))
    have hlt : r.position < i.position := by
      have := position_run hrun
      omega
    have havoid : i.Avoids r := by
      refine Insertion.avoids_of_claims (Nat.le_trans (hr i.position) ?_)
      rw [if_neg (by omega)]
      exact Nat.zero_le _
    have hstep := Insertion.reading_step hs havoid (q := r.position) (if_pos hlt)
    rw [hfix, hs, ← hpos] at hstep
    exact ih (fun x hx => hts x (by simp [hx])) (fresh_step (hts t (by simp)) hr hs) hrun
      (Except.ok.inj hstep).symm

theorem fixed_block {i : Insertion} {ts : List Token} {p : Nat} {sheet : RuleList} {b : Block}
    {outer : List Frame} (hts : ∀ t ∈ ts, t.text ≠ []) (h : start.run ts = .ok (atBlock p sheet b outer))
    (hi : i.position = p) : i.ruleList sheet = sheet ∧ i.block b = b ∧ outer.map i.frame = outer := by
  have := fixed_run (i := i) hts fresh_start h (Nat.le_of_eq hi.symm) rfl
  simpa [Insertion.reading, atBlock, Insertion.frame] using this

end Reading

namespace Block.Trails
variable {b : Block} {pre qs : List Token} {css : Text}

theorem tokens (h : b.Trails pre) (hlex : lex css = pre ++ qs) : ∃ before c kind, isCut c = true ∧
    pre = before ++ ⟨kind, [c]⟩ :: b.gap.reverse ∧ Trivia b.gap.reverse qs := by
  obtain ⟨hgap, before, cut, hpre, hcut⟩ := h
  rw [hpre, List.append_assoc] at hlex
  have htail := lex_suffix hlex
  have hmark : ∃ c, isCut c = true ∧ cut.kind.mark? = some c := by
    simp only [Token.isCut, Bool.or_eq_true, beq_iff_eq] at hcut
    rcases hcut with (hk | hk) | hk <;> simp [hk, Token.Kind.mark?, isCut]
  obtain ⟨c, hc, hk⟩ := hmark
  have htext := lex_mark htail hk
  refine ⟨before, c, cut.kind, hc, by rw [hpre, ← htext], lex_tail htail, ?_⟩
  simpa using hgap

theorem splits (h : b.Trails pre) (hlex : lex css = pre ++ qs) (hq : qs ≠ []) {rest : Text}
    (hr : rest.StartsOff isSpace) : Splits (Token.textOf pre) pre rest := by
  obtain ⟨before, c, kind, hc, hpre, hgap⟩ := h.tokens hlex
  have htrivia := splits_trivia hgap.trivia hq hgap.lexed hr
  have hall : lex (Token.textOf before ++ c :: Token.textOf (b.gap.reverse ++ qs)) =
      (before ++ [⟨kind, [c]⟩]) ++ (b.gap.reverse ++ qs) := by
    have h : lex (Token.textOf (pre ++ qs)) = pre ++ qs := by rw [← hlex, text_of_lex]
    rw [hpre] at h
    simpa [Token.text_of_append, Token.text_of_cons] using h
  have hlast : (before ++ [(⟨kind, [c]⟩ : Token)]).getLast? = some ⟨kind, [c]⟩ := by simp
  have hcut := splits_cut hc (Token.textOf b.gap.reverse ++ rest) hall
    (by simp [Token.textOf]) hlast
  have := hcut.append htrivia
  rw [hpre]
  simpa [Token.text_of_append, Token.text_of_cons] using this

end Block.Trails

def Declaration.insertion (f : Declaration) (p : Nat) : Insertion :=
  ⟨p, f.leadText.byteSize, ⟨f.property, f.value, f.important, f.indent, f.separator, some p⟩⟩

/-- How a declaration of some rules stands in their source. -/
structure Anchor (css : Text) (rules : List Rule) (p : Nat) (d : Declaration) where
  front : List Token
  name : Token
  middle : List Token
  back : List Token
  sheet : RuleList
  block : Block
  outer : List Frame
  nesting : Nesting
  separator : List Token
  body : List Token
  trail : List Token
  final : Reading
  lexed : lex css = front ++ name :: (middle ++ back)
  run_front : Reading.start.run front = .ok (.atBlock p sheet block outer)
  trails : block.Trails front
  no_item : block.item = .none
  is_name : name.kind = .ident
  middle_tokens : middle = separator.reverse ++ (body.reverse ++ trail.reverse)
  is_separator : Item.IsSeparator separator.reverse
  holds : Nesting.Holds [] middle
  nesting_behind : nesting = Nesting.after [] middle
  trail_trivia : ∀ t ∈ trail, t.isTrivia = true
  reads : Reading.Reads [] (.name p name []) middle nesting (.value p name separator body trail)
  ends : Reading.Ends nesting back
  declared : (Item.value p name separator body trail).declaration? block.gap = some d
  run_back : (Reading.atBlock (p + Token.sizeOf (name :: middle)) sheet
    (block.withItem (.value p name separator body trail)).endItem outer).run back = .ok final
  finish : final.finish = rules

theorem Item.declaration_gap {gap gap' : List Token} {item : Item}
    (h : (Token.textOf gap.reverse).trailingBlanks = (Token.textOf gap'.reverse).trailingBlanks) :
    item.declaration? gap = item.declaration? gap' := by
  cases item <;> simp [declaration?, h]

/-- Where the item begins that has a claim on the place of a declaration. -/
theorem begun_at {ts : List Token} {last : Reading} {p : Nat} (hts : ∀ t ∈ ts, t.text ≠ [])
    (hrun : Reading.start.run ts = .ok last)
    (hpos : Declarations.countAt p (declarationsOf last.finish) ≠ 0) :
    ∃ front name rest sheet b outer, ts = front ++ name :: rest ∧
      Reading.start.run front = .ok (.atBlock p sheet b outer) ∧ b.Trails front ∧ b.item = .none ∧
      name.kind = .ident ∧
      (Reading.inItem (p + name.text.byteSize) [] sheet (b.withItem .none) outer).claims p = 0 ∧
      (Reading.inItem (p + name.text.byteSize) [] sheet (b.withItem (.name p name [])) outer).run
        rest = .ok last := by
  have hclaimed : last.claims p ≠ 0 := fun h0 => hpos (by
    have := Reading.count_finish p last
    omega)
  obtain ⟨front, name, rest, r, rfl, hfront, hbegin⟩ :=
    Reading.locate hrun (Nat.le_zero.mp (Reading.fresh_start p)) hclaimed
  obtain ⟨b, outer, hr, hi, hname, htrails⟩ :=
    Reading.begins_block hbegin (Reading.trails_run Reading.trails_start hfront)
  generalize r.sheet = sheet at hr
  subst hr
  refine ⟨front, name, rest, sheet, b, outer, rfl, hfront, htrails, hi, hname, ?_, ?_⟩
  · have hb : b.withItem .none = b := by rw [Block.withItem, ← hi]
    rw [hb]
    exact Reading.claims_ahead (fun t ht => hts t (by simp [ht])) hfront (Nat.le_refl p)
  · rw [Reading.run_of_run _ hfront, Reading.run, Reading.step_name _ _ _ _ hi hname] at hrun
    exact hrun

theorem run_of_map {r : Except Nat Reading} {rules : List Rule}
    (h : r.map Reading.finish = .ok rules) : ∃ final, r = .ok final ∧ final.finish = rules := by
  cases r with
  | error e => cases h
  | ok final => exact ⟨final, rfl, Except.ok.inj h⟩

/-- Every declaration of a source has its anchor there. -/
theorem anchored {css : Text} {s : Stylesheet} (h : Stylesheet.parse css = .ok s) {p : Nat}
    {d : Declaration} (hd : d ∈ declarationsOf s.rules) (hp : d.place = some p) :
    Nonempty (Anchor css s.rules p d) := by
  obtain ⟨last, hfinal, hrules⟩ := run_of_map (Stylesheet.parse_ok.mp h).1
  have hpos : Declarations.countAt p (declarationsOf last.finish) ≠ 0 := by
    rw [hrules, Nat.ne_zero_iff_zero_lt]
    exact List.countP_pos_iff.mpr ⟨d, hd, by simp [hp]⟩
  obtain ⟨front, name, rest, sheet, b, outer, hlex, hfront, htrails, hi, hname, hclaims, hitem⟩ :=
    begun_at (text_ne_nil_of_mem_lex css) hfinal hpos
  have hsize : 0 < name.text.byteSize :=
    Text.byte_size_pos (text_ne_nil_of_mem_lex css name (by simp [hlex]))
  have hempty : (Item.name p name []).Begun name := ⟨rfl, by simp⟩
  obtain ⟨middle, back, separator, body, trail, rfl, hholds, hends, hbegun, htokens, hreads⟩ :=
    Reading.run_item hempty rfl (by omega) hclaims hitem hpos
  have hmiddle : middle = separator.reverse ++ (body.reverse ++ trail.reverse) := by
    have := congrArg List.reverse htokens
    simpa [Item.tokens] using this.symm
  -- the item is read, and it might end right behind its tokens
  have hback : ((Reading.atBlock (p + Token.sizeOf (name :: middle)) sheet
      (b.withItem (.value p name separator body trail)).endItem outer).run back).map
        Reading.finish = .ok s.rules := by
    have hread : (Reading.inItem (p + name.text.byteSize) [] sheet
        (b.withItem (.name p name [])) outer).run middle = .ok (Reading.inItem
          (p + name.text.byteSize + Token.sizeOf middle) (Nesting.after [] middle) sheet
          (b.withItem (.value p name separator body trail)) outer) :=
      hreads (p + name.text.byteSize) id sheet b outer
    rw [← Reading.run_ends hends, Token.size_cons, ← Nat.add_assoc, ← hrules]
    rw [Reading.run_of_run _ hread] at hitem
    rw [← show Except.map Reading.finish (.ok last) = Except.ok last.finish from rfl, ← hitem]
  obtain ⟨final, hrunback, hfinish⟩ := run_of_map hback
  obtain ⟨e, hdecl⟩ : ∃ e, (Item.value p name separator body trail).declaration? b.gap = some e :=
    ⟨_, rfl⟩
  -- the declaration of these tokens is the one at the place
  have he : e ∈ declarationsOf s.rules := by
    rw [← hfinish]
    refine Reading.stored_finish final (Reading.stored_run hrunback ?_)
    simp [Reading.stored, Reading.stack, Reading.atBlock, Frame.stored, Block.endItem,
      Block.withItem, hdecl]
  obtain rfl := Declarations.eq_of_count (count_parse h p) he hd (Item.place_declaration hdecl) hp
  exact ⟨⟨front, name, middle, back, sheet, b, outer, _, separator, body, trail, final, hlex,
    hfront, htrails, hi, hname, hmiddle, hbegun.2.1, hholds, rfl, hbegun.2.2.2, hreads, hends,
    hdecl, hrunback, hfinish⟩⟩

namespace Anchor
variable {css : Text} {rules : List Rule} {p : Nat} {d : Declaration} (a : Anchor css rules p d)

theorem indent : d.indent = (Token.textOf a.block.gap.reverse).trailingBlanks :=
  (congrArg Declaration.indent (Option.some.inj a.declared)).symm

theorem property_text : d.property = a.name.text :=
  (congrArg Declaration.property (Option.some.inj a.declared)).symm

theorem separator_text : d.separator = Token.textOf a.separator.reverse :=
  (congrArg Declaration.separator (Option.some.inj a.declared)).symm

include a in
theorem place : d.place = some p := Item.place_declaration a.declared

theorem size_front : Token.sizeOf a.front = p := by
  have := Reading.position_run a.run_front
  simpa [Reading.start, Reading.atBlock] using this.symm

theorem back_lexed : lex (Token.textOf (a.name :: (a.middle ++ a.back))) =
    a.name :: (a.middle ++ a.back) := lex_suffix a.lexed

theorem name_off_space : (Token.textOf (a.name :: (a.middle ++ a.back))).StartsOff isSpace :=
  lex_off_space a.back_lexed (by simp [a.is_name])

theorem front_tokens : ∃ before c kind, isCut c = true ∧
    a.front = before ++ ⟨kind, [c]⟩ :: a.block.gap.reverse ∧
      Trivia a.block.gap.reverse (a.name :: (a.middle ++ a.back)) :=
  a.trails.tokens a.lexed

theorem splits_front {rest : Text} (hr : rest.StartsOff isSpace) :
    Splits (Token.textOf a.front) a.front rest :=
  a.trails.splits a.lexed (by simp) hr

include a in
theorem indent_space : d.indent.all isSpace = true := by
  obtain ⟨before, c, kind, hc, hfront, hgap⟩ := a.front_tokens
  rw [a.indent]
  exact hgap.trailing_space (by simp)

theorem separator_parts : ∃ before after, a.separator.reverse = before ++ ⟨.colon, [':']⟩ :: after ∧
    Trivia before (⟨.colon, [':']⟩ :: (after ++ (a.body.reverse ++ (a.trail.reverse ++ a.back)))) ∧
    Trivia after (a.body.reverse ++ (a.trail.reverse ++ a.back)) := by
  obtain ⟨before, colon, after, hsep, hc, htrivia⟩ := a.is_separator
  have hlex : lex (Token.textOf (before ++ colon :: (after ++ (a.body.reverse ++ (a.trail.reverse ++
      a.back))))) = before ++ colon :: (after ++ (a.body.reverse ++ (a.trail.reverse ++ a.back))) := by
    have := lex_tail a.back_lexed
    rw [a.middle_tokens, hsep] at this
    simpa using this
  have hcolon := lex_suffix hlex
  obtain rfl : colon = ⟨.colon, [':']⟩ := by
    rw [← hc, ← lex_mark hcolon (by rw [hc]; rfl)]
  exact ⟨before, after, hsep, ⟨hlex, fun t ht => htrivia t (by simp [ht])⟩,
    ⟨lex_tail hcolon, fun t ht => htrivia t (by simp [ht])⟩⟩

include a in
theorem plain_separator : ∃ head tail : Text, head.all isSpace = true ∧ tail.all isSpace = true ∧
    Separator.plain d.separator = head ++ ':' :: tail := by
  obtain ⟨before, after, hsep, hbefore, hafter⟩ := a.separator_parts
  rw [a.separator_text, hsep]
  exact Separator.plain_lexed hbefore hafter

def done : Block := (a.block.withItem (.value p a.name a.separator a.body a.trail)).endItem

theorem declarations_done : a.done.declarations = a.block.declarations ++ [d] := by
  have := a.declared
  simp only [done, Block.endItem, Block.withItem]
  rw [this]
  rfl

theorem text_ne_nil {t : Token} (ht : t ∈ a.front ++ a.name :: (a.middle ++ a.back)) : t.text ≠ [] := by
  rw [← a.lexed] at ht
  exact text_ne_nil_of_mem_lex css t ht

theorem absent_front {q : Nat} (hq : p ≤ q) :
    (Reading.atBlock p a.sheet a.block a.outer).claims q = 0 :=
  Reading.claims_ahead (fun _ ht => a.text_ne_nil (List.mem_append_left _ ht)) a.run_front hq

theorem fresh_done : (Reading.atBlock (p + Token.sizeOf (a.name :: a.middle)) a.sheet a.done
    a.outer).Fresh := by
  have hrun : Reading.start.run (a.front ++ a.name :: a.middle) = .ok (Reading.inItem
      (p + Token.sizeOf (a.name :: a.middle)) a.nesting a.sheet
        (a.block.withItem (.value p a.name a.separator a.body a.trail)) a.outer) := by
    have hread := a.reads (p + a.name.text.byteSize) id a.sheet a.block a.outer
    rw [Reading.run_of_run _ a.run_front, Reading.run, Reading.step_name _ _ _ _ a.no_item a.is_name,
      Token.size_cons, ← Nat.add_assoc]
    exact hread
  have hfresh := Reading.fresh_run (fun t ht => a.text_ne_nil (by
    rw [← List.cons_append, ← List.append_assoc]
    exact List.mem_append_left _ ht)) Reading.fresh_start hrun
  intro x
  refine Nat.le_trans ?_ (hfresh x)
  have := Item.count_ended x (.value p a.name a.separator a.body a.trail) a.block.gap
  simp only [Reading.claims, Reading.stack, Reading.atBlock, Reading.inItem, List.cons_append,
    List.map_cons, List.sum_cons, Frame.claims, done, Block.endItem, Block.withItem,
    Declarations.count_append, Item.claim, Item.start?, Option.toList, List.count_nil] at this ⊢
  omega

/-! ## A declaration inserted in front of it -/

def led (f : Declaration) : Block :=
  ⟨a.block.selector, a.block.declarations ++ [f], a.block.inner, spaceTokens d.indent, .none⟩

section
variable {i : Insertion} (hi : i.position = p)
include hi

theorem fixed : i.ruleList a.sheet = a.sheet ∧ i.block a.block = a.block ∧
    a.outer.map i.frame = a.outer :=
  Reading.fixed_block (fun _ ht => a.text_ne_nil (List.mem_append_left _ ht)) a.run_front hi

omit a in
theorem place_behind (n : Nat) : i.place (p + n) = p + i.size + n := by
  rw [Insertion.place, if_neg (by omega)]
  omega

theorem done_moved : ((a.led i.added).withItem
    ((Item.value p a.name a.separator a.body a.trail).move i.place)).endItem = i.block a.done := by
  have hgap : (Token.textOf (spaceTokens d.indent).reverse).trailingBlanks =
      (Token.textOf a.block.gap.reverse).trailingBlanks := by
    rw [reverse_spaces, text_of_spaces, ← a.indent,
      Text.trailing_blank (blank_of_all_space a.indent_space)]
  have hmoved : ((Item.value p a.name a.separator a.body a.trail).move i.place).declaration?
      (spaceTokens d.indent) = some (i.moved d) := by
    rw [Insertion.declaration_moved, Item.declaration_gap hgap, a.declared]
    rfl
  have hblock := (a.fixed hi).2.1
  have hfront : i.list a.block.declarations = a.block.declarations :=
    congrArg Block.declarations hblock
  have hlist : i.list a.done.declarations = a.block.declarations ++ [i.added, i.moved d] := by
    rw [a.declarations_done, Insertion.list_append, hfront]
    simp [Insertion.list, Insertion.replace, a.place, hi]
  have hinner : a.block.inner.map i.rule = a.block.inner := congrArg Block.inner hblock
  rw [Insertion.block, hlist, Block.endItem]
  simp only [Block.withItem, led] at hmoved ⊢
  rw [hmoved]
  simp [done, Block.endItem, Block.withItem, Item.move, hinner]

theorem avoids_done {ts : List Token} {final : Reading} (h : (Reading.atBlock
    (p + Token.sizeOf (a.name :: a.middle)) a.sheet a.done a.outer).run ts = .ok final)
    (hts : ts <+: a.back) : i.Avoids final := by
  have hfresh := Reading.fresh_run (fun t ht => a.text_ne_nil (by
    simp [hts.subset ht])) a.fresh_done h
  have hstored : d ∈ final.stored := Reading.stored_run h (by
    simp [Reading.stored, Reading.stack, Reading.atBlock, Frame.stored, a.declarations_done])
  have hcount : 0 < Declarations.countAt i.position final.stored :=
    List.countP_pos_iff.mpr ⟨d, hstored, by simp [a.place, hi]⟩
  refine Insertion.avoids_of_claims (Nat.le_trans (hfresh i.position) ?_)
  split <;> omega

theorem back_moved : ((Reading.atBlock (p + i.size + Token.sizeOf (a.name :: a.middle)) a.sheet
    (i.block a.done) a.outer).run a.back).map Reading.finish = .ok (rules.map i.rule) := by
  have hposition : p + i.size + Token.sizeOf (a.name :: a.middle) =
      i.place (p + Token.sizeOf (a.name :: a.middle)) := (place_behind hi _).symm
  have hreading : Reading.atBlock (p + i.size + Token.sizeOf (a.name :: a.middle)) a.sheet
      (i.block a.done) a.outer = i.reading (i.place (p + Token.sizeOf (a.name :: a.middle)))
        (Reading.atBlock (p + Token.sizeOf (a.name :: a.middle)) a.sheet a.done a.outer) := by
    obtain ⟨hsheet, -, houter⟩ := a.fixed hi
    rw [hposition]
    simp [Insertion.reading, Reading.atBlock, Insertion.frame, hsheet, houter]
  have hback : (i.reading (i.place (p + Token.sizeOf (a.name :: a.middle)))
      (Reading.atBlock (p + Token.sizeOf (a.name :: a.middle)) a.sheet a.done a.outer)).run a.back =
        .ok (i.reading (i.place a.final.position) a.final) :=
    Insertion.reading_run a.run_back
      (fun front back middle hb hm => a.avoids_done hi hm ⟨back, hb.symm⟩)
      (by rw [hi]; exact Nat.le_add_right _ _)
  rw [hreading, hback]
  simp only [Except.map]
  rw [Insertion.reading_finish (a.avoids_done hi a.run_back (List.prefix_refl _)), a.finish]

end

include a in
theorem fallback_written (hname : IsName d.property) {v : Text} (hv : ReadsBack v) :
    (d.fallback v).Written := by
  obtain ⟨ts, hts⟩ := hv
  refine ⟨hname, a.plain_separator, a.indent_space, ts, ?_⟩
  simpa [Declaration.fallback, Declaration.importance] using hts

theorem lex_inserted {u : Text} {ts : List Token} (hu : u ≠ [])
    (hstart : u.StartsOff isSpace)
    (hts : Splits u ts (Token.textOf (a.name :: (a.middle ++ a.back)))) :
    lex (Token.textOf a.front ++ (u ++ Token.textOf (a.name :: (a.middle ++ a.back)))) =
      a.front ++ (ts ++ (a.name :: (a.middle ++ a.back))) := by
  have hoff := (Text.starts_off_append (Token.textOf (a.name :: (a.middle ++ a.back))) hu).mpr hstart
  rw [a.splits_front hoff, hts, a.back_lexed]

/-- A source with the text of a declaration in front of the declaration is read as the
source is, with the one in front of the other. -/
theorem run_insert {f : Declaration} (hf : f.Written) (hindent : f.indent = d.indent) :
    (Reading.start.run (lex (Token.textOf a.front ++ (f.leadText ++
      Token.textOf (a.name :: (a.middle ++ a.back)))))).map Reading.finish =
        .ok (rules.map (f.insertion p).rule) := by
  obtain ⟨ts, hsplits, hlead⟩ := hf.takes p a.sheet a.block a.outer a.no_item a.name_off_space
  obtain ⟨hne, hstart⟩ := hf.lead_off_space
  have hled : a.block.lead p f = a.led (f.insertion p).added := by
    simp [Block.lead, led, Declaration.insertion, ← a.indent, hindent]
  rw [hled] at hlead
  have hisize : (f.insertion p).size = f.leadText.byteSize := rfl
  have hi : (f.insertion p).position = p := rfl
  generalize f.insertion p = i at hlead hisize hi ⊢
  -- the tokens of the added declaration, those of the declaration, and the rest
  have hread : (Reading.atBlock (p + i.size + a.name.text.byteSize) a.sheet
      ((a.led i.added).withItem (.name (p + i.size) a.name [])) a.outer).run a.middle =
        .ok (Reading.inItem (p + i.size + a.name.text.byteSize + Token.sizeOf a.middle) a.nesting
          a.sheet ((a.led i.added).withItem
            ((Item.value p a.name a.separator a.body a.trail).move i.place)) a.outer) := by
    have hstart : p + i.size = i.place p := (place_behind hi 0).symm
    have := a.reads (p + i.size + a.name.text.byteSize) i.place a.sheet (a.led i.added) a.outer
    rw [hstart] at this ⊢
    exact this
  rw [a.lex_inserted hne hstart hsplits, Reading.run_of_run _ a.run_front,
    Reading.run_of_run _ hlead, ← hisize, Reading.run, Reading.step_name _ _ _ _ rfl a.is_name]
  simp only
  rw [Reading.run_of_run _ hread, Reading.run_ends a.ends, a.done_moved hi,
    ← a.back_moved hi, Token.size_cons, Nat.add_assoc]

end Anchor

theorem parse_insert {css : Text} {s : Stylesheet} (h : Stylesheet.parse css = .ok s) {p : Nat}
    {d : Declaration} (hd : d ∈ declarationsOf s.rules) (hp : d.place = some p)
    (hname : IsName d.property) {v : Text} (hv : ReadsBack v) :
    ∃ front back, css = front ++ back ∧ front.byteSize = p ∧
      Stylesheet.parse (front ++ ((d.fallback v).leadText ++ back)) =
        .ok ⟨front ++ ((d.fallback v).leadText ++ back),
          s.rules.map ((d.fallback v).insertion p).rule⟩ := by
  obtain ⟨a⟩ := anchored h hd hp
  refine ⟨Token.textOf a.front, Token.textOf (a.name :: (a.middle ++ a.back)), ?_, a.size_front, ?_⟩
  · rw [← Token.text_of_append, ← a.lexed, text_of_lex]
  · exact Stylesheet.parse_ok.mpr ⟨a.run_insert (a.fallback_written hname hv) rfl, rfl⟩

end CssFallback
