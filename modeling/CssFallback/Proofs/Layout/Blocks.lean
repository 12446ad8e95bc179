import CssFallback.Proofs.Layout.Heads
import CssFallback.Proofs.Stylesheet.Stack
import CssFallback.Proofs.Stylesheet.Steps

/-!
# Reading a laid-out block

The contents of a block are taken item by item, and the block gains what the
tree holds.
-/

set_option autoImplicit false

namespace CssFallback

namespace Layout
open Reading

section
variable (position : Nat) (sheet : RuleList) (b : Block) (outer : List Frame)

/-! ## Gaps and declarations -/

theorem takes_gap (hi : b.item = .none) {g rest : Text} (hg : Gap true g)
    (hr : rest.StartsOff isSpace) : ∃ q gap, (atBlock position sheet b outer).Takes g rest
      (atBlock q sheet ((b.withItem .none).withGap gap) outer) := by
  obtain ⟨ts, hts, hfill⟩ := hg.split hr
  suffices hrun : ∃ q gap, (atBlock position sheet b outer).run ts =
      .ok (atBlock q sheet ((b.withItem .none).withGap gap) outer) by
    obtain ⟨q, gap, hrun⟩ := hrun
    exact ⟨q, gap, ts, hts, hrun⟩
  clear hts
  induction ts generalizing position b with
  | nil =>
    refine ⟨position, b.gap, ?_⟩
    have hb : (b.withItem .none).withGap b.gap = b := by
      cases b
      cases hi
      rfl
    rw [hb]
    rfl
  | cons t ts ih =>
    have hts : Fills true ts := fun x hx => hfill x (by simp [hx])
    rcases hfill t (by simp) with ht | ⟨-, ht⟩
    · obtain ⟨q, gap, hrun⟩ := ih (position + t.text.byteSize) (b.skip t)
        (by simp [Block.skip, hi, Block.withGap]) hts
      refine ⟨q, gap, ?_⟩
      rw [run, step_stay _ _ _ _ (Token.kind_ne_of_trivia ht (by decide)) (b.read_trivia _ ht)]
      simpa [Block.skip, hi, Block.withGap, Block.withItem] using hrun
    · obtain ⟨q, gap, hrun⟩ := ih (position + t.text.byteSize) b.endItem rfl hts
      refine ⟨q, gap, ?_⟩
      rw [run, step_stay _ _ _ _ (by simp [ht]) (show b.read position t = .stay b.endItem [] by
        simp [Block.read, ht])]
      simpa [Block.endItem, hi, Item.declaration?, Block.withGap, Block.withItem] using hrun

theorem takes_semicolon {rest : Text} : (atBlock position sheet b outer).Takes [';'] rest
    (atBlock (position + Text.byteSize [';']) sheet b.endItem outer) :=
  takes_mark rfl (step_stay _ _ _ _ (by simp) (by simp [Block.read]))

theorem takes_entry (hi : b.item = .none) {e : Entry} (he : properEntry e = true) {t : Text}
    (h : PrintsEntry e t) {c : Char} (hc : isCut c = true) (rest : Text) : ∃ q item,
      (atBlock position sheet b outer).Takes t (c :: rest) (atBlock q sheet (b.withItem item) outer) ∧
        ∀ gap, (item.declaration? gap).toList.map Declaration.entry = [e] := by
  obtain ⟨before, after, value, trail, hsplit, hb, ha, ht, hv, himportance⟩ := split_entry he h hc rest
  have hdecl := run_declaration position sheet b outer hi ⟨.ident, e.property⟩ ⟨.colon, [':']⟩ before
    after value trail rfl rfl hb ha ht hv
  exact ⟨_, _, ⟨_, hsplit, hdecl⟩, fun gap => by
    simp [Item.declaration?, Declaration.entry, himportance]⟩

/-! ## Nested rules -/

theorem run_pushed {item : Item} (hi : item ≠ .none) {ts : List Token} (hp : ∀ t ∈ ts, IsPlain t) :
    ∃ q next, (atBlock position sheet (b.withItem item) outer).run ts =
      .ok (atBlock q sheet (b.withItem next) outer) ∧ next ≠ .none ∧
        next.tokens = ts.reverse ++ item.tokens := by
  induction ts generalizing position item with
  | nil => exact ⟨position, item, rfl, hi, rfl⟩
  | cons t ts ih =>
    obtain ⟨hopens, hsemi, hclose⟩ := hp t (by simp)
    have hcurly := (hp t (by simp)).not_curly
    have hread := b.read_push position hi hsemi fun h => absurd h hcurly
    rw [hopens] at hread
    have hne : item.push position t ≠ .none := by
      intro h
      have := item.tokens_push position t
      rw [h] at this
      cases this
    obtain ⟨q, next, hrun, hnext, htokens⟩ := ih (position + t.text.byteSize) hne
      fun x hx => hp x (by simp [hx])
    refine ⟨q, next, ?_, hnext, ?_⟩
    · rw [run, step_stay _ _ _ _ hclose hread]
      exact hrun
    · rw [htokens, Item.tokens_push]
      simp

/-- An item whose first token is no name of a custom property has no custom value. -/
theorem custom_of_first {item : Item} {front : List Token} {t : Token}
    (h : item.tokens = front ++ [t]) (ht : "--".toList.isPrefixOf t.text = false) :
    item.isCustomValue = false := by
  cases item with
  | value start property separator body trail =>
    have h : (trail ++ body ++ separator) ++ [property] = front ++ [t] := h
    obtain ⟨-, hlast⟩ := List.append_inj' h rfl
    obtain rfl := List.singleton_inj.mp hlast
    exact ht
  | _ => rfl

theorem split_front {head : Head} (hh : head.isProper = true) {space : Text}
    (hs : space.all isSpace = true) (rest : Text) : ∃ t ts,
      Splits (head.text ++ space) (t :: ts) ('\x7b' :: rest) ∧ HeadTokens head t ts ∧
        (Token.textOf (t :: ts)).trim = head.text := by
  have hr : (space ++ '\x7b' :: rest).StartsOff goesOn := by
    cases space with
    | nil => exact Text.starts_off_cons _ rfl
    | cons c space =>
      simp only [List.all_cons, Bool.and_eq_true] at hs
      exact Text.starts_off_cons _ (by simp [goesOn, isStop, hs.1])
  obtain ⟨t, ts, hts, hhead⟩ := split_head hh hr
  have hall := hts.append (Splits.spaces hs (Text.starts_off_cons rest (c := '\x7b') rfl))
  refine ⟨t, ts ++ spaceTokens space, hall, ⟨?_, hhead.solid, hhead.kind, hhead.grouping,
    hhead.custom⟩, ?_⟩
  · intro x hx
    rcases List.mem_append.mp (List.cons_append ▸ hx) with hx | hx
    · exact hhead.plain x hx
    · have := trivia_of_mem_space_tokens hx
      exact ⟨Token.opens_trivia this, Token.kind_ne_of_trivia this (by decide),
        Token.kind_ne_of_trivia this (by decide)⟩
  · have := hall.text_of
    rw [List.cons_append] at this
    rw [this]
    exact Text.trim_solid [] space rfl (solid_head hh) (blank_of_all_space hs)

theorem takes_head (hi : b.item = .none) {head : Head} (hh : head.isProper = true) {space : Text}
    (hs : space.all isSpace = true) (rest : Text) : ∃ q,
      (atBlock position sheet b outer).Takes (head.text ++ space ++ ['\x7b']) rest
        (atBlock q sheet (.empty head.text)
          (.block ((b.withItem .none).withGap []) :: outer)) := by
  obtain ⟨t, ts, hts, hhead, htrim⟩ := split_front hh hs rest
  obtain ⟨hopens, hsemi, hclose⟩ := hhead.plain t (by simp)
  have hfirst : b.read position t = .stay (b.withItem (b.item.push position t)) [] := by
    rcases b.read_cases position t with ⟨hk, -⟩ | ⟨hk, -⟩ | ⟨-, hk, -⟩ | ⟨-, hread⟩
    · exact absurd hk hsemi
    · simp [Token.opens?, hk] at hopens
    · simp [hhead.solid] at hk
    · rw [hread, hopens]
      rfl
  have hpush : b.item.push position t ≠ .none ∧ (b.item.push position t).tokens = [t] := by
    have htokens := b.item.tokens_push position t
    rw [hi] at htokens ⊢
    refine ⟨fun h => ?_, htokens⟩
    rw [h] at htokens
    cases htokens
  have hplain : ∀ x ∈ ts, IsPlain x := fun x hx => hhead.plain x (by simp [hx])
  obtain ⟨q, next, hrun, -, htokens⟩ :=
    run_pushed (position + t.text.byteSize) sheet b outer hpush.1 hplain
  rw [hpush.2] at htokens
  have hopen : (atBlock q sheet (b.withItem next) outer).step ⟨.opening .curly, ['\x7b']⟩ =
      .ok (atBlock (q + Text.byteSize ['\x7b']) sheet (.empty head.text)
        (.block ((b.withItem .none).withGap []) :: outer)) := by
    have hcustom := custom_of_first htokens hhead.custom
    rw [step_read _ _ _ _ (by simp)]
    have hread : (b.withItem next).read q ⟨.opening .curly, ['\x7b']⟩ =
        .enter ((b.withItem .none).withGap []) (.block (.empty head.text)) := by
      rw [Block.read, if_neg (by simp), if_pos (by simp [Block.opensRule, Block.withItem, hcustom])]
      simp [Block.withItem, Block.withGap, htokens, htrim]
    rw [hread]
    rfl
  refine ⟨q + Text.byteSize ['\x7b'], Takes.append ⟨t :: ts, hts, ?_⟩ (takes_mark rfl hopen)⟩
  rw [run, step_stay _ _ _ _ hclose hfirst]
  exact hrun

theorem takes_close (inner : Block) (rest : Text) :
    (atBlock position sheet inner (.block b :: outer)).Takes ['\x7d'] rest
      (atBlock (position + Text.byteSize ['\x7d']) sheet
        ⟨b.selector, b.declarations, b.inner ++ inner.rules position, b.gap, b.item⟩ outer) :=
  takes_mark rfl rfl

end

/-! ## Contents -/

/-- What a block has gained in declarations and in nested rules. -/
structure Gains (b next : Block) (entries : List Entry) (outlines : List Outline) : Prop where
  selector : next.selector = b.selector
  entries : next.endItem.declarations.map Declaration.entry =
    b.declarations.map Declaration.entry ++ entries
  outlines : next.inner.map Rule.outline = b.inner.map Rule.outline ++ outlines

theorem end_item_declarations {b : Block} (h : b.item = .none) :
    b.endItem.declarations = b.declarations := by
  simp [Block.endItem, h, Item.declaration?]

namespace Gains
variable {b middle next : Block} {es es' : List Entry} {os os' : List Outline}

theorem ended (h : Gains b next es os) : Gains b next.endItem es os :=
  ⟨h.selector, by rw [end_item_declarations rfl]; exact h.entries, h.outlines⟩

theorem trans (h : Gains b middle es os) (hm : middle.item = .none) (h' : Gains middle next es' os') :
    Gains b next (es ++ es') (os ++ os') := by
  have hentries := h.entries
  rw [end_item_declarations hm] at hentries
  refine ⟨h'.selector.trans h.selector, ?_, ?_⟩
  · rw [h'.entries, hentries, List.append_assoc]
  · rw [h'.outlines, h.outlines, List.append_assoc]

theorem rules_outlines {head : Text} (h : Gains (.empty head) next es os) (position : Nat) :
    (next.rules position).map Rule.outline = ⟨head, es⟩ :: os := by
  have hselector : next.selector = head := h.selector
  have hentries := h.entries
  have houtlines := h.outlines
  simp only [Block.empty, List.map_nil, List.nil_append] at hentries houtlines
  simp [Block.rules, Rule.outline, hselector, hentries, houtlines]

end Gains

theorem head_off_space {head : Head} (hh : head.isProper = true) (rest : Text) :
    (head.text ++ rest).StartsOff isSpace := by
  obtain ⟨⟨c, u, hc, hblank⟩, -⟩ := solid_head hh
  rw [hc]
  apply Text.starts_off_cons
  cases hs : isSpace c with
  | false => rfl
  | true => simp [blank_of_space hs] at hblank

theorem takes_declared (position : Nat) (sheet : RuleList) {b : Block} (outer : List Frame)
    (hi : b.item = .none) {e : Entry} (he : properEntry e = true) {g t : Text}
    (hg : Gap true g) (h : PrintsEntry e t) {c : Char} (hc : isCut c = true) (rest : Text) : ∃ q next,
      (atBlock position sheet b outer).Takes (g ++ t) (c :: rest) (atBlock q sheet next outer) ∧
        Gains b next [e] [] := by
  obtain ⟨q, gap, hgap⟩ :=
    takes_gap position sheet b outer hi hg (entry_off_space he h (c :: rest))
  obtain ⟨q', item, hentry, hdecl⟩ :=
    takes_entry q sheet ((b.withItem .none).withGap gap) outer rfl he h hc rest
  refine ⟨q', _, hgap.append hentry, rfl, ?_, by simp [Block.withItem, Block.withGap]⟩
  simp [Block.endItem, Block.withItem, Block.withGap, hdecl]

theorem takes_contents {c : Contents} {u : Text} (h : c.Prints u) (hc : c.isProper = true)
    (position : Nat) (sheet : RuleList) (b : Block) (outer : List Frame) (hi : b.item = .none)
    (rest : Text) : ∃ q next, (atBlock position sheet b outer).Takes u ('\x7d' :: rest)
      (atBlock q sheet next outer) ∧ Gains b next c.entries c.outlines := by
  induction h generalizing position b outer rest with
  | nil hg =>
    obtain ⟨q, gap, htakes⟩ := takes_gap position sheet b outer hi hg
      (Text.starts_off_cons rest (c := '\x7d') rfl)
    exact ⟨q, _, htakes, rfl, by simp [Block.endItem, Block.withItem, Block.withGap,
      Item.declaration?, Contents.entries], by simp [Block.withItem, Block.withGap, Contents.outlines]⟩
  | @last e g t hg he =>
    simp only [Contents.isProper, Bool.and_true] at hc
    exact takes_declared position sheet outer hi hc hg he rfl rest
  | @entry e later g t u hg he hl ih =>
    simp only [Contents.isProper, Bool.and_eq_true] at hc
    obtain ⟨q, middle, htakes, hgains⟩ :=
      takes_declared position sheet outer hi hc.1 hg he (c := ';') rfl (u ++ '\x7d' :: rest)
    obtain ⟨q', next, hlater, hnext⟩ := ih hc.2 (q + Text.byteSize [';']) middle.endItem outer rfl rest
    exact ⟨q', next, htakes.append (Takes.append (takes_semicolon q sheet middle outer) hlater),
      hgains.ended.trans rfl hnext⟩
  | @rule head body later g space bu u hg hs hb hl ihb ihl =>
    simp only [Contents.isProper, Bool.and_eq_true] at hc
    obtain ⟨⟨hhead, hbody⟩, hlater⟩ := hc
    have hoff : (head.text ++ space ++ ['\x7b'] ++ (bu ++ (['\x7d'] ++ u)) ++ '\x7d' :: rest).StartsOff
        isSpace := by
      simpa using head_off_space hhead (space ++ '\x7b' :: (bu ++ '\x7d' :: (u ++ '\x7d' :: rest)))
    obtain ⟨q₁, gap, hgap⟩ := takes_gap position sheet b outer hi hg hoff
    obtain ⟨q₂, hopen⟩ := takes_head q₁ sheet ((b.withItem .none).withGap gap) outer rfl hhead hs
      (bu ++ (['\x7d'] ++ u) ++ '\x7d' :: rest)
    obtain ⟨q₃, inner, hinner, hgains⟩ := ihb hbody q₂ (.empty head.text)
      (.block ((b.withItem .none).withGap []) :: outer) rfl (u ++ '\x7d' :: rest)
    have hclose := takes_close q₃ sheet ((b.withItem .none).withGap []) outer inner
      (u ++ '\x7d' :: rest)
    obtain ⟨q₄, next, hnext, hlast⟩ := ihl hlater (q₃ + Text.byteSize ['\x7d'])
      ⟨b.selector, b.declarations, b.inner ++ inner.rules q₃, [], .none⟩ outer rfl rest
    refine ⟨q₄, next, ?_, ?_⟩
    · have := hgap.append (hopen.append (Takes.append hinner (hclose.append hnext)))
      simpa [List.append_assoc] using this
    · have hrule : Gains b ⟨b.selector, b.declarations, b.inner ++ inner.rules q₃, [], .none⟩ []
          (⟨head.text, body.entries⟩ :: body.outlines) :=
        ⟨rfl, by simp [Block.endItem, Item.declaration?], by simp [hgains.rules_outlines]⟩
      exact hrule.trans rfl hlast

end Layout
end CssFallback
