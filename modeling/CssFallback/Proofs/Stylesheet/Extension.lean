import CssFallback.Proofs.Layout.Tree
import CssFallback.Proofs.Stylesheet.Closed

/-!
# Declarations at the end of a block

Where a block ends, with no item begun, more declarations may be written. The source is
then read as before, with the declarations behind those of the block.
-/

set_option autoImplicit false

namespace CssFallback

/-- A place of a source where a block is open and no item of it has begun. A closing brace
may follow what stands in front of the place, so that no comment is open there. -/
structure Opening (css : Text) (q : Nat) where
  front : List Token
  back : List Token
  sheet : RuleList
  block : Block
  outer : List Frame
  lexed : lex css = front ++ back
  closes : Splits (Token.textOf front) front ['\x7d']
  run_front : Reading.start.run front = .ok (.atBlock q sheet block outer)
  no_item : block.item = .none

/-! ## Reading more declarations -/

structure Block.Extends (b c : Block) (added : Declarations) : Prop where
  selector : b.selector = c.selector
  inner : b.inner = c.inner
  declarations : b.declarations = c.declarations ++ added
  idle : c.item = .none
  still_idle : b.item = .none

theorem Block.leads_extends {b : Block} (hb : b.item = .none) (position : Nat)
    (list : Declarations) : ∃ added, (b.leads position list).Extends b added ∧
      Reading.Placed added ∧ added.map Declaration.entry = list.map Declaration.entry := by
  induction list generalizing b position with
  | nil => exact ⟨[], ⟨rfl, rfl, by simp [leads], hb, hb⟩, by simp [Reading.Placed], rfl⟩
  | cons d list ih =>
    obtain ⟨added, hextends, hplaced, hentries⟩ :=
      @ih (b.lead position d) rfl (position + d.leadText.byteSize)
    refine ⟨⟨d.property, d.value, d.important, (Token.textOf b.gap.reverse).trailingBlanks,
      d.separator, some position⟩ :: added, ?_, ?_, ?_⟩
    · refine ⟨hextends.selector, hextends.inner, ?_, hb, hextends.still_idle⟩
      rw [leads, hextends.declarations]
      simp [lead]
    · simpa [Reading.Placed] using hplaced
    · simpa [Declaration.entry] using hentries

namespace Opening
variable {css : Text} {q : Nat} (o : Opening css q)
include o

theorem size_front : Token.sizeOf o.front = q := by
  have := Reading.position_run o.run_front
  simpa [Reading.start, Reading.atBlock] using this.symm

theorem text_ne_nil {t : Token} (ht : t ∈ o.front ++ o.back) : t.text ≠ [] := by
  rw [← o.lexed] at ht
  exact text_ne_nil_of_mem_lex css t ht

theorem trails : o.block.Trails o.front :=
  (Reading.trails_run Reading.trails_start o.run_front).2 o.block _ rfl o.no_item

theorem splits_front {rest : Text} (hr : rest.StartsOff isSpace) :
    Splits (Token.textOf o.front) o.front rest :=
  o.trails.splits o.closes (by decide) hr

theorem closed_before : ∀ x ∈ (Reading.atBlock q o.sheet o.block o.outer).closed, x.stop < q := by
  have hended := Reading.ended_run Reading.ended_start rfl o.run_front
  have := Reading.ended_before hended fun t ht => o.text_ne_nil (by simpa using Or.inl ht)
  rwa [List.nil_append, o.size_front] at this

theorem claims_before : (Reading.atBlock q o.sheet o.block o.outer).claims q = 0 :=
  Reading.claims_ahead (fun _ ht => o.text_ne_nil (List.mem_append_left _ ht)) o.run_front
    (Nat.le_refl q)

/-- If a block ends at the place, then a closing brace or nothing follows. -/
theorem back_cases {final : Reading}
    (hrun : (Reading.atBlock q o.sheet o.block o.outer).run o.back = .ok final) {r : Rule}
    (hr : r ∈ final.finish) (hstop : r.stop = q) :
    o.back = [] ∨ ∃ t rest, o.back = t :: rest ∧ t.kind = .closing .curly := by
  cases hback : o.back with
  | nil => exact .inl rfl
  | cons t rest =>
    rw [hback] at hrun
    obtain ⟨next, hs, hrest⟩ := Reading.run_cons hrun
    rcases Reading.closed_step hs with hperm | ⟨ht, -⟩
    · -- no block has ended at the place, and those that end later do so behind it
      obtain ⟨ended, hfinish, hlater⟩ := Reading.finish_run hrest
      have hsize : 0 < t.text.byteSize := Text.byte_size_pos (o.text_ne_nil (by simp [hback]))
      have hpos : next.position = q + t.text.byteSize := (Reading.step_cases hs).1
      rcases List.mem_append.mp (hfinish.mem_iff.mp hr) with hmem | hmem
      · have := hlater r hmem
        omega
      · have := o.closed_before r (hperm.mem_iff.mp hmem)
        omega
    · exact .inr ⟨t, rest, rfl, ht⟩

theorem claims_behind {front back : List Token} {middle : Reading}
    (hback : o.back = [] ∨ ∃ t rest, o.back = t :: rest ∧ t.kind = .closing .curly)
    (h : o.back = front ++ back)
    (hrun : (Reading.atBlock q o.sheet o.block o.outer).run front = .ok middle) :
    middle.claims q = 0 := by
  cases front with
  | nil =>
    obtain rfl := Except.ok.inj hrun
    exact o.claims_before
  | cons u front =>
    obtain ⟨next, hs, hrest⟩ := Reading.run_cons hrun
    have hu : u.kind = .closing .curly := by
      rcases hback with hnil | ⟨t, rest, hcons, ht⟩
      · simp [hnil] at h
      · rw [hcons] at h
        rwa [← (List.cons.inj h).1]
    have hsize : 0 < u.text.byteSize := Text.byte_size_pos (o.text_ne_nil (by simp [h]))
    have hpos : next.position = q + u.text.byteSize := (Reading.step_cases hs).1
    apply Reading.absent_run hrest (by omega)
    rcases Reading.claims_step q hs with hle | ⟨⟨-, -, f, outer, -, hkind, -⟩, -⟩
    · have := o.claims_before
      omega
    · simp [hu] at hkind

end Opening

/-! ## The rules -/

theorem last_unique {α : Type} {p : α → Prop} {front front' back back' : List α} {a a' : α}
    (h : front ++ a :: back = front' ++ a' :: back') (ha : p a) (ha' : p a')
    (hb : ∀ x ∈ back, ¬ p x) (hb' : ∀ x ∈ back', ¬ p x) : front = front' ∧ a = a' ∧ back = back' := by
  rcases List.append_eq_append_iff.mp h with ⟨more, rfl, hmore⟩ | ⟨more, rfl, hmore⟩
  · cases more with
    | nil =>
      obtain ⟨rfl, rfl⟩ := List.cons.inj hmore
      simp
    | cons c more =>
      obtain ⟨-, rfl⟩ := List.cons.inj hmore
      exact absurd ha' (hb a' (by simp))
  · cases more with
    | nil =>
      obtain ⟨rfl, rfl⟩ := List.cons.inj hmore
      simp
    | cons c more =>
      obtain ⟨-, rfl⟩ := List.cons.inj hmore
      exact absurd ha (hb' a (by simp))

namespace Reading

theorem end_frames_append (q : Nat) (frames : List Frame) :
    ∃ pre, ∀ rules, endFrames q rules frames = pre ++ rules := by
  induction frames with
  | nil => exact ⟨[], fun _ => rfl⟩
  | cons f frames ih =>
    obtain ⟨pre, hpre⟩ := ih
    cases f with
    | list l => exact ⟨pre ++ l.found, fun rules => by simp [endFrames, hpre, Frame.receive,
        Frame.rules, RuleList.receive]⟩
    | block b =>
      have hrules : ∀ rules, (Frame.receive (.block b) rules).rules q = b.rules q ++ rules := by
        intro rules
        simp [Frame.receive, Frame.rules, Block.rules, Block.endItem]
      exact ⟨pre ++ b.rules q, fun rules => by simp [endFrames, hpre, hrules]⟩

theorem finish_at_block (q : Nat) (sheet : RuleList) (outer : List Frame) :
    ∃ pre, ∀ b, (atBlock q sheet b outer).finish = pre ++ b.rules q := by
  obtain ⟨pre, hpre⟩ := end_frames_append q outer
  refine ⟨sheet.found ++ pre, fun b => ?_⟩
  have hrules : (Frame.receive (.block b) []).rules q = b.rules q := by
    simp [Frame.receive, Frame.rules, Block.rules, Block.endItem]
  simp [finish, atBlock, endFrames, hrules, hpre]

end Reading

theorem Block.rules_idle {b : Block} (h : b.item = .none) (q : Nat) :
    b.rules q = ⟨b.selector, b.declarations, q⟩ :: b.inner := by
  simp [rules, endItem, h, Item.declaration?]

theorem Block.Extends.rules {b c : Block} {added : Declarations} (h : b.Extends c added) (q : Nat) :
    b.rules q = ⟨c.selector, c.declarations ++ added, q⟩ :: c.inner := by
  rw [rules_idle h.still_idle, h.selector, h.declarations, h.inner]

def Rule.extend (stop : Nat) (added : Declarations) (r : Rule) : Rule :=
  if r.stop = stop then ⟨r.selector, r.declarations ++ added, r.stop⟩ else r

namespace Rule
variable {stop : Nat} {added : Declarations}

theorem extend_other {r : Rule} (h : r.stop ≠ stop) : r.extend stop added = r := if_neg h

theorem extend_others {rules : List Rule} (h : ∀ r ∈ rules, r.stop ≠ stop) :
    rules.map (Rule.extend stop added) = rules :=
  (List.map_congr_left fun r hr => extend_other (h r hr)).trans (List.map_id rules)

end Rule

theorem Frame.map_closed_fixed {g : Rule → Rule} {f : Frame} (h : ∀ x ∈ f.closed, g x = x) :
    f.mapClosed g = f := by
  have hmap : ∀ rules : List Rule, (∀ x ∈ rules, g x = x) → rules.map g = rules := fun rules hr =>
    (List.map_congr_left hr).trans (List.map_id rules)
  cases f with
  | list l => rw [mapClosed, RuleList.mapClosed, hmap l.found h]
  | block b => rw [mapClosed, hmap b.inner h]

namespace Reading

section Extended
variable {q : Nat} {sheet : RuleList} {c b : Block} {outer : List Frame} {added : Declarations}
  (hb : b.Extends c added) (hclosed : ∀ x ∈ (atBlock q sheet c outer).closed, x.stop ≠ q)

include hb hclosed in
theorem step_extended {t : Token} {next : Reading} (ht : t.kind = .closing .curly)
    (h : (atBlock q sheet c outer).step t = .ok next) :
    (atBlock q sheet b outer).step t = .ok (next.mapClosed (Rule.extend q added)) := by
  have hleave : ∀ b : Block, (atBlock q sheet b outer).step t =
      .ok ((atBlock q sheet b outer).leave (q + t.text.byteSize) (.block b) outer) := by
    intro b
    simp [step, atBlock, ht]
  rw [hleave] at h ⊢
  obtain rfl := Except.ok.inj h
  simp only [closed, stack, atBlock, List.cons_append, List.flatMap_cons, List.flatMap_append,
    List.mem_append] at hclosed
  -- only the rule of the block is extended
  have hfixed : ∀ f : Frame, (∀ x ∈ f.closed, x.stop ≠ q) →
      f.mapClosed (Rule.extend q added) = f := fun f hf =>
    Frame.map_closed_fixed fun x hx => Rule.extend_other (hf x hx)
  have hsheet : sheet.mapClosed (Rule.extend q added) = sheet := by
    have := hfixed (.list sheet) fun x hx => hclosed x (.inr (.inr (by simp [hx])))
    exact Frame.list.inj this
  have hrules : (c.rules q).map (Rule.extend q added) = b.rules q := by
    have hrest : c.inner.map (Rule.extend q added) = c.inner :=
      Rule.extend_others fun x hx => hclosed x (.inl hx)
    rw [hb.rules, Block.rules_idle hb.idle, List.map_cons, hrest]
    simp [Rule.extend]
  cases outer with
  | nil =>
    have hfound : sheet.found.map (Rule.extend q added) = sheet.found := congrArg RuleList.found hsheet
    simp [leave, mapClosed, atBlock, Frame.rules, RuleList.receive, RuleList.mapClosed, hfound, hrules]
  | cons o outer =>
    have ho : ∀ f ∈ o :: outer, f.mapClosed (Rule.extend q added) = f := fun f hf =>
      hfixed f fun x hx => hclosed x (.inr (.inl (List.mem_flatMap.mpr ⟨f, hf, hx⟩)))
    have houter : outer.map (Frame.mapClosed (Rule.extend q added)) = outer :=
      (List.map_congr_left fun f hf => ho f (by simp [hf])).trans (List.map_id outer)
    simp [leave, mapClosed, atBlock, Frame.rules, hsheet, ← Frame.map_closed_receive, hrules, houter,
      ho o (by simp)]

variable {before after : List Rule} {r : Rule} (hstop : r.stop = q)
  (hlast : ∀ x ∈ after, x.stop ≠ q)

include hb hclosed hstop hlast

theorem finish_extended (h : (atBlock q sheet c outer).finish = before ++ r :: after) :
    (atBlock q sheet b outer).finish = before ++ r.extend q added :: after := by
  obtain ⟨pre, hpre⟩ := finish_at_block q sheet outer
  rw [hpre, Block.rules_idle hb.idle] at h
  have hinner : ∀ x ∈ c.inner, x.stop ≠ q := fun x hx =>
    hclosed x (List.mem_flatMap.mpr ⟨.block c, by simp [stack, atBlock], hx⟩)
  obtain ⟨rfl, rfl, rfl⟩ :=
    last_unique (p := fun x : Rule => x.stop = q) h rfl hstop hinner hlast
  rw [hpre, hb.rules, Rule.extend, if_pos rfl]

theorem run_extended {t : Token} {ts : List Token} {final : Reading} (ht : t.kind = .closing .curly)
    (htext : t.text ≠ []) (hrun : (atBlock q sheet c outer).run (t :: ts) = .ok final)
    (hfinish : final.finish = before ++ r :: after) :
    ((atBlock q sheet b outer).run (t :: ts)).map finish =
      .ok (before ++ r.extend q added :: after) := by
  obtain ⟨next, hs, hrest⟩ := run_cons hrun
  have hnext : q < next.position := by
    have hpos : next.position = q + t.text.byteSize := (step_cases hs).1
    have hsize : 0 < t.text.byteSize := Text.byte_size_pos htext
    omega
  -- no other block ends at the place
  have hbefore : ∀ x ∈ before, x.stop ≠ q := by
    have hcount : final.finish.countP (fun x => x.stop = q) ≤ 1 := count_stop htext hclosed hs hrest
    rw [hfinish, List.countP_append, List.countP_cons, if_pos (by simpa using hstop)] at hcount
    have hzero : before.countP (fun x => x.stop = q) = 0 := by omega
    simpa using List.countP_eq_zero.mp hzero
  have hrun' := map_closed_run (g := Rule.extend q added) hrest fun x hx =>
    Rule.extend_other (by omega)
  have hfinal := position_run hrest
  rw [run, step_extended hb hclosed ht hs]
  simp only
  rw [hrun', Except.map, map_closed_finish fun x hx => Rule.extend_other (by omega), hfinish,
    List.map_append, List.map_cons, Rule.extend_others hbefore, Rule.extend_others hlast]

end Extended

end Reading

theorem Insertion.stop_rule {i : Insertion} {q : Nat} (hi : i.position = q) (r : Rule) :
    (i.rule r).stop = q + i.size ↔ r.stop = q := by
  simp only [rule, place, hi]
  split <;> omega

namespace Opening
variable {css : Text} {q : Nat} (o : Opening css q) {final : Reading} {before after : List Rule}
  {r : Rule} (hrun : (Reading.atBlock q o.sheet o.block o.outer).run o.back = .ok final)
  (hrules : final.finish = before ++ r :: after) (hstop : r.stop = q)
  (hlast : ∀ x ∈ after, x.stop ≠ q) {i : Insertion} (hi : i.position = q)

include o hrun hrules hstop hi in
theorem run_moved : (Reading.atBlock (q + i.size) o.sheet o.block o.outer).run o.back =
      .ok (i.reading (i.place final.position) final) ∧
    (i.reading (i.place final.position) final).finish = final.finish.map i.rule := by
  have hback := o.back_cases hrun (by rw [hrules]; simp) hstop
  have havoids : ∀ front back middle, o.back = front ++ back →
      (Reading.atBlock q o.sheet o.block o.outer).run front = .ok middle → i.Avoids middle := by
    intro front back middle hsplit hfront
    apply Insertion.avoids_of_claims
    rw [hi, o.claims_behind hback hsplit hfront]
    exact Nat.zero_le _
  obtain ⟨hsheet, hblock, houter⟩ := Reading.fixed_block (i := i)
    (fun t ht => o.text_ne_nil (List.mem_append_left _ ht)) o.run_front hi
  have hreading : i.reading (i.place q) (Reading.atBlock q o.sheet o.block o.outer) =
      Reading.atBlock (q + i.size) o.sheet o.block o.outer := by
    have hplace : i.place q = q + i.size := by simp [Insertion.place, hi]
    simp [Insertion.reading, Reading.atBlock, Insertion.frame, hsheet, hblock, houter, hplace]
  constructor
  · rw [← hreading]
    exact Insertion.reading_run hrun havoids (Nat.le_of_eq hi)
  · exact Insertion.reading_finish (havoids o.back [] final (by simp) hrun)

include o hrun hrules hstop hlast hi in
theorem run_extended {b : Block} {added : Declarations} (hb : b.Extends o.block added) :
    ((Reading.atBlock (q + i.size) o.sheet b o.outer).run o.back).map Reading.finish =
      .ok (before.map i.rule ++
        ⟨r.selector, i.list r.declarations ++ added, q + i.size⟩ :: after.map i.rule) := by
  obtain ⟨hmoved, hfinish⟩ := o.run_moved hrun hrules hstop hi
  have hback := o.back_cases hrun (by rw [hrules]; simp) hstop
  have hclosed : ∀ x ∈ (Reading.atBlock (q + i.size) o.sheet o.block o.outer).closed,
      x.stop ≠ q + i.size := fun x hx h => by
    have := o.closed_before x hx
    omega
  have hrule : (i.rule r).stop = q + i.size := (Insertion.stop_rule hi r).mpr hstop
  have hafter : ∀ x ∈ after.map i.rule, x.stop ≠ q + i.size := by
    intro x hx
    obtain ⟨y, hy, rfl⟩ := List.mem_map.mp hx
    exact fun h => hlast y hy ((Insertion.stop_rule hi y).mp h)
  have hextend : (i.rule r).extend (q + i.size) added =
      ⟨r.selector, i.list r.declarations ++ added, q + i.size⟩ := by
    rw [Rule.extend, if_pos hrule, hrule]
    rfl
  rw [hrules, List.map_append, List.map_cons] at hfinish
  rw [← hextend]
  rcases hback with hnil | ⟨t, rest, hcons, ht⟩
  · rw [hnil] at hmoved ⊢
    rw [← Except.ok.inj hmoved] at hfinish
    exact congrArg Except.ok (Reading.finish_extended hb hclosed hrule hafter hfinish)
  · rw [hcons] at hmoved ⊢
    exact Reading.run_extended hb hclosed hrule hafter ht (o.text_ne_nil (by simp [hcons])) hmoved
      hfinish

include o in
theorem back_off_space (hback : o.back = [] ∨ ∃ t rest, o.back = t :: rest ∧ t.kind = .closing .curly) :
    (Token.textOf o.back).StartsOff isSpace := by
  rcases hback with hnil | ⟨t, rest, hcons, ht⟩
  · rw [hnil]
    exact Text.starts_off_nil _
  · have hlex := lex_suffix o.lexed
    rw [hcons] at hlex ⊢
    rw [Token.text_of_cons, lex_mark hlex (by rw [ht]; rfl)]
    exact Text.starts_off_cons _ rfl

include o in
theorem tokens_extended (hback : o.back = [] ∨ ∃ t rest, o.back = t :: rest ∧ t.kind = .closing .curly)
    {list : Declarations} (hlist : ∀ d ∈ list, d.Written) : ∃ ts,
      lex (Token.textOf o.front ++ (list.leadText ++ Token.textOf o.back)) = o.front ++ (ts ++ o.back) ∧
      (Reading.atBlock q o.sheet o.block o.outer).run ts =
        .ok (.atBlock (q + list.leadText.byteSize) o.sheet (o.block.leads q list) o.outer) := by
  have hoff := o.back_off_space hback
  obtain ⟨ts, hsplits, htakes⟩ :=
    Declarations.takes_leads hlist q o.sheet o.block o.outer o.no_item hoff
  refine ⟨ts, ?_, htakes⟩
  rw [o.splits_front (Declarations.leads_off_space hlist hoff), hsplits, lex_suffix o.lexed]

include o in
theorem run_of_parse {rules : List Rule} (hparse : Stylesheet.parse css = .ok ⟨css, rules⟩) :
    ∃ final, (Reading.atBlock q o.sheet o.block o.outer).run o.back = .ok final ∧
      final.finish = rules := by
  obtain ⟨final, hrun, hfinish⟩ := run_of_map (Stylesheet.parse_ok.mp hparse).1
  rw [o.lexed, Reading.run_of_run _ o.run_front] at hrun
  exact ⟨final, hrun, hfinish⟩

/-- The texts of declarations at the end of a block are read as declarations of its rule. -/
theorem parse_extended {rules : List Rule} (hparse : Stylesheet.parse css = .ok ⟨css, rules⟩)
    (hrules : rules = before ++ r :: after) (hstop : r.stop = q) (hlast : ∀ x ∈ after, x.stop ≠ q)
    {list : Declarations} (hlist : ∀ d ∈ list, d.Written) {i : Insertion} (hi : i.position = q)
    (hsize : i.size = list.leadText.byteSize) : ∃ added, Reading.Placed added ∧
      added.map Declaration.entry = list.map Declaration.entry ∧
      Stylesheet.parse (Token.textOf o.front ++ (list.leadText ++ Token.textOf o.back)) =
        .ok ⟨Token.textOf o.front ++ (list.leadText ++ Token.textOf o.back), before.map i.rule ++
          ⟨r.selector, i.list r.declarations ++ added, q + i.size⟩ :: after.map i.rule⟩ := by
  obtain ⟨final, hrun, rfl⟩ := o.run_of_parse hparse
  have hback := o.back_cases hrun (by rw [hrules]; simp) hstop
  obtain ⟨added, hextends, hplaced, hentries⟩ := Block.leads_extends o.no_item q list
  refine ⟨added, hplaced, hentries, Stylesheet.parse_ok.mpr ⟨?_, rfl⟩⟩
  obtain ⟨ts, hlex, htakes⟩ := o.tokens_extended hback hlist
  rw [hlex, Reading.run_of_run _ o.run_front, Reading.run_of_run _ htakes, ← hsize]
  exact o.run_extended hrun hrules hstop hlast hi hextends

end Opening

end CssFallback
