import CssFallback.Proofs.Stylesheet.Claims
import CssFallback.Proofs.Token.Shape

/-!
# Where a declaration is anchored

In front of the first item of a block, and of every further one, stands a token that
cuts the source, with nothing but white space and comments behind it. The tokens of a
declaration are read in the same way wherever it stands.
-/

set_option autoImplicit false

namespace CssFallback

def Token.isCut (t : Token) : Bool :=
  t.kind == .semicolon || t.kind == .opening .curly || t.kind == .closing .curly

def Block.Idle (b : Block) : Prop := b.item = .none ∧ b.gap = []

/-- Behind a token that cuts, only the trivia of the gap have been read. -/
def Block.Trails (pre : List Token) (b : Block) : Prop :=
  (∀ t ∈ b.gap, t.isTrivia = true) ∧
    ∃ front cut, pre = front ++ cut :: b.gap.reverse ∧ cut.isCut = true

theorem Block.trails_of_idle {b : Block} (h : b.gap = []) (pre : List Token) {t : Token}
    (ht : t.isCut = true) : b.Trails (pre ++ [t]) := by
  rw [Trails, h]
  exact ⟨by simp, pre, t, rfl, ht⟩

namespace Item

theorem push_ne (item : Item) (q : Nat) (t : Token) : item.push q t ≠ .none := by
  cases item <;> simp only [push] <;> (repeat' split) <;> simp

theorem push_inside_ne (item : Item) (t : Token) : item.pushInside t ≠ .none := by
  cases item <;> simp [pushInside]

end Item

namespace Reading

def Trails (pre : List Token) (r : Reading) : Prop :=
  (∀ b, .block b ∈ r.stack.tail → b.Idle) ∧
    ∀ b outer, r.stack = .block b :: outer → b.item = .none → b.Trails pre

theorem trails_start : start.Trails [] := by
  constructor <;> simp [stack, start]

theorem trails_of_stack {pre : List Token} {r : Reading} {f : Frame} {outer : List Frame}
    (hs : r.stack = f :: outer) (hidle : ∀ b, .block b ∈ outer → b.Idle)
    (htop : ∀ b, f = .block b → b.item = .none → b.Trails pre) : r.Trails pre := by
  rw [Trails, hs]
  constructor
  · exact hidle
  · intro b outer' hb
    exact htop b (List.cons.inj hb).1

section
variable {pre : List Token} {next : Reading} {t : Token} {outer : List Frame} {position : Nat}

theorem trails_read_list {l : RuleList} (hidle : ∀ b, .block b ∈ outer → b.Idle)
    (hn : next.stack = ((Frame.list l).read position t).entered.toList ++
      ((Frame.list l).read position t).state :: outer) : next.Trails (pre ++ [t]) := by
  obtain ⟨-, he | ⟨ht, he | ⟨selector, he⟩⟩⟩ := l.read_cases t
  all_goals
    simp only [Frame.read, Step.map, he, Option.toList, List.nil_append, List.cons_append] at hn
  · exact trails_of_stack hn hidle (by simp)
  · exact trails_of_stack hn (by simpa using hidle) (by simp)
  · apply trails_of_stack hn (by simpa using hidle)
    intro b hb _
    obtain rfl := Frame.block.inj hb
    exact Block.trails_of_idle rfl pre (by simp [Token.isCut, ht])

theorem trails_read_block {c : Block} (hidle : ∀ b, .block b ∈ outer → b.Idle)
    (hc : c.item = .none → c.Trails pre)
    (hn : next.stack = ((Frame.block c).read position t).entered.toList ++
      ((Frame.block c).read position t).state :: outer) : next.Trails (pre ++ [t]) := by
  rcases c.read_cases position t with ⟨ht, he⟩ | ⟨ht, he⟩ | ⟨hi, ht, he⟩ | ⟨-, he⟩
  all_goals
    simp only [Frame.read, Step.map, he, Step.stay, Step.enter, Option.toList, List.nil_append,
      List.cons_append] at hn
  · -- a semicolon
    apply trails_of_stack hn hidle
    intro b hb _
    obtain rfl := Frame.block.inj hb
    exact Block.trails_of_idle rfl pre (by simp [Token.isCut, ht])
  · -- a brace that opens a nested rule
    apply trails_of_stack hn
    · intro b hb
      rcases List.mem_cons.mp hb with hb | hb
      · obtain rfl := Frame.block.inj hb
        exact ⟨rfl, rfl⟩
      · exact hidle b hb
    · intro b hb _
      obtain rfl := Frame.block.inj hb
      exact Block.trails_of_idle rfl pre (by simp [Token.isCut, ht])
  · -- one more of the gap
    apply trails_of_stack hn hidle
    intro b hb _
    obtain rfl := Frame.block.inj hb
    obtain ⟨hgap, front, cut, hpre, hcut⟩ := hc hi
    constructor
    · simpa [Block.withGap, ht] using hgap
    · exact ⟨front, cut, by simp [Block.withGap, hpre], hcut⟩
  · -- one more of an item
    apply trails_of_stack hn hidle
    intro b hb hitem
    obtain rfl := Frame.block.inj hb
    exact absurd hitem (Item.push_ne _ _ _)

end

theorem trails_step {pre : List Token} {r next : Reading} {t : Token} (hr : r.Trails pre)
    (h : r.step t = .ok next) : next.Trails (pre ++ [t]) := by
  obtain ⟨-, f, outer, hs, hcase⟩ := step_cases h
  have hidle : ∀ b, .block b ∈ outer → b.Idle := by simpa [hs] using hr.1
  rcases hcase with ⟨-, -, hn⟩ | ⟨-, ht, -, g, outer', rfl, hn⟩ | ⟨-, -, -, hn⟩
  · apply trails_of_stack hn hidle
    intro b hb hi
    cases f with
    | list l => simp [Frame.pushInside] at hb
    | block c =>
      obtain rfl := Frame.block.inj hb
      exact absurd hi (Item.push_inside_ne _ _)
  · apply trails_of_stack hn
    · intro b hb
      exact hidle b (by simp [hb])
    · intro b hb hi
      cases g with
      | list l => simp [Frame.receive] at hb
      | block c =>
        obtain rfl := Frame.block.inj hb
        exact Block.trails_of_idle (hidle c (by simp)).2 pre (by simp [Token.isCut, ht])
  · cases f with
    | list l => exact trails_read_list hidle hn
    | block c => exact trails_read_block hidle (hr.2 c outer hs) hn

theorem trails_run {pre ts : List Token} {r final : Reading} (hr : r.Trails pre)
    (h : r.run ts = .ok final) : final.Trails (pre ++ ts) := by
  induction ts generalizing r pre with
  | nil =>
    obtain rfl := Except.ok.inj h
    simpa using hr
  | cons t ts ih =>
    obtain ⟨next, hs, hrun⟩ := run_cons h
    simpa using ih (trails_step hr hs) hrun

theorem begins_block {p : Nat} {pre : List Token} {r : Reading} {t : Token} (h : r.Begins p t)
    (hr : r.Trails pre) : ∃ b outer, r = atBlock p r.sheet b outer ∧ b.item = .none ∧
      t.kind = .ident ∧ b.Trails pre := by
  obtain ⟨rfl, hnest, f, outer, hs, ht, b, rfl, hi⟩ := h
  obtain ⟨position, nesting, sheet, frames⟩ := r
  obtain rfl : nesting = [] := hnest
  cases frames with
  | nil => simp [stack] at hs
  | cons f outer' =>
    simp only [stack, List.cons_append, List.cons.injEq] at hs
    obtain ⟨rfl, rfl⟩ := hs
    exact ⟨b, outer', rfl, hi, ht, hr.2 b _ rfl hi⟩

end Reading

/-! ## The tokens of a declaration -/

namespace Item

def move (f : Nat → Nat) : Item → Item
  | .name start property after => .name (f start) property after
  | .value start property separator body trail => .value (f start) property separator body trail
  | item => item

theorem push_move (f : Nat → Nat) (q : Nat) (item : Item) (t : Token) :
    (item.move f).push (f q) t = (item.push q t).move f := by
  cases item with
  | none => simp only [push, move]; split <;> rfl
  | name start property after =>
    simp only [push, move]
    split
    · rfl
    · split <;> rfl
  | value start property separator body trail =>
    simp only [push, move]
    split
    · split <;> rfl
    · rfl
  | other tokens => rfl

theorem push_inside_move (f : Nat → Nat) (item : Item) (t : Token) :
    (item.move f).pushInside t = (item.pushInside t).move f := by
  cases item <;> rfl

theorem push_anywhere {item : Item} (h : item ≠ .none) (q q' : Nat) (t : Token) :
    item.push q t = item.push q' t := by
  cases item with
  | none => exact absurd rfl h
  | _ => rfl

theorem move_none_iff (f : Nat → Nat) {item : Item} : item.move f = .none ↔ item = .none := by
  cases item <;> simp [move]

theorem custom_move (f : Nat → Nat) (item : Item) : (item.move f).isCustomValue = item.isCustomValue := by
  cases item <;> rfl

def IsSeparator (ts : List Token) : Prop := ∃ before colon after, ts = before ++ colon :: after ∧
  colon.kind = .colon ∧ ∀ t ∈ before ++ after, t.isTrivia = true

/-- An item that is on its way to be the declaration of a name. -/
def Begun (property : Token) : Item → Prop
  | .name _ t after => t = property ∧ ∀ x ∈ after, x.isTrivia = true
  | .value _ t separator body trail =>
    t = property ∧ IsSeparator separator.reverse ∧ (body = [] → trail = []) ∧
      ∀ x ∈ trail, x.isTrivia = true
  | _ => False

theorem begun_push {property : Token} {item : Item} (h : item.Begun property) (q : Nat) (t : Token) :
    (item.push q t).Begun property ∧ (item.push q t).start? = item.start? ∨
      (item.push q t).start? = Option.none := by
  cases item with
  | name start x after =>
    obtain ⟨rfl, hafter⟩ := h
    simp only [push]
    split
    · rename_i ht
      exact .inl ⟨⟨rfl, by simpa [ht] using hafter⟩, rfl⟩
    · split
      · rename_i hc
        refine .inl ⟨⟨rfl, ⟨after.reverse, t, [], by simp, hc, ?_⟩, fun _ => rfl, by simp⟩, rfl⟩
        simpa using hafter
      · exact .inr rfl
  | value start x separator body trail =>
    obtain ⟨rfl, hsep, hbody, htrail⟩ := h
    left
    simp only [push]
    split
    · rename_i ht
      split
      · rename_i hb
        obtain ⟨before, colon, after, hsep, hc, htriv⟩ := hsep
        refine ⟨⟨rfl, ⟨before, colon, after ++ [t], ?_, hc, ?_⟩, fun _ => rfl, by simp⟩, rfl⟩
        · simp [hbody hb, hsep]
        · intro x hx
          rw [← List.append_assoc, List.mem_append, List.mem_singleton] at hx
          rcases hx with hx | rfl
          · exact htriv x hx
          · exact ht
      · rename_i hb
        exact ⟨⟨rfl, hsep, fun h => absurd h hb, by simpa [ht] using htrail⟩, rfl⟩
    · exact ⟨⟨rfl, hsep, fun _ => rfl, by simp⟩, rfl⟩
  | _ => exact h.elim

theorem begun_push_inside {property : Token} {item : Item} (h : item.Begun property) (t : Token) :
    (item.pushInside t).Begun property ∧ (item.pushInside t).start? = item.start? ∨
      (item.pushInside t).start? = Option.none := by
  cases item with
  | value start x separator body trail => exact .inl ⟨⟨h.1, h.2.1, fun _ => rfl, by simp⟩, rfl⟩
  | _ => exact .inr rfl

theorem tokens_push_inside {property : Token} {item : Item} (h : item.Begun property) (t : Token) :
    (item.pushInside t).tokens = t :: item.tokens := by
  cases item <;> simp [pushInside, tokens]

theorem begun_next {property : Token} {item next : Item} {q : Nat} {t : Token}
    (h : item.Begun property) (hn : next = item.push q t ∨ next = item.pushInside t) :
    (next.Begun property ∧ next.start? = item.start? ∨ next.start? = Option.none) ∧
      next.tokens = t :: item.tokens := by
  rcases hn with rfl | rfl
  · exact ⟨begun_push h q t, tokens_push q item t⟩
  · exact ⟨begun_push_inside h t, tokens_push_inside h t⟩

theorem value_of_begun {p : Nat} {property : Token} {item : Item} {gap : List Token}
    (hb : item.Begun property) (hs : item.start? = some p) (h : item.declaration? gap ≠ Option.none) :
    ∃ separator body trail, item = .value p property separator body trail := by
  cases item with
  | value start x separator body trail =>
    obtain rfl : start = p := Option.some.inj hs
    obtain rfl := hb.1
    exact ⟨separator, body, trail, rfl⟩
  | _ => exact absurd rfl h

end Item

def Token.endsItem (t : Token) : Bool := t.kind == .semicolon || t.kind == .closing .curly

namespace Nesting

theorem step_nil (t : Token) : step [] t = t.opens?.toList := by
  rw [step]
  cases t.opens? with
  | some b => rfl
  | none => cases t.closes? <;> rfl

/-- No token ends the item, where the brackets `nesting` of it are open in front of
them. -/
def Holds : Nesting → List Token → Prop
  | _, [] => True
  | nesting, t :: rest => (nesting = [] → t.endsItem = false) ∧ Holds (step nesting t) rest

end Nesting

namespace Reading

theorem absent_run {p : Nat} {r final : Reading} {ts : List Token} (h : r.run ts = .ok final)
    (hp : p < r.position) (hc : r.claims p = 0) : final.claims p = 0 := by
  induction ts generalizing r with
  | nil =>
    obtain rfl := Except.ok.inj h
    exact hc
  | cons t ts ih =>
    obtain ⟨next, hs, hrun⟩ := run_cons h
    have hpos := (step_cases hs).1
    apply ih hrun (by omega)
    rcases claims_step p hs with hnext | ⟨hb, -⟩
    · omega
    · have := hb.1
      omega

theorem claims_item (p position position' : Nat) (nesting : Nesting) (sheet : RuleList) (b : Block)
    (outer : List Frame) (item : Item) :
    (inItem position nesting sheet (b.withItem item) outer).claims p =
      (inItem position' [] sheet (b.withItem .none) outer).claims p + item.claim p := by
  simp only [claims, stack, inItem, List.cons_append, List.map_cons, List.sum_cons, Frame.claims,
    Block.withItem, Item.claim, Item.start?, Option.toList, List.count_nil]
  omega

/-- Tokens that an item takes in, wherever it stands. -/
def Reads (nesting : Nesting) (item : Item) (ts : List Token) (nesting' : Nesting) (item' : Item) :
    Prop :=
  ∀ position f sheet (b : Block) outer,
    (inItem position nesting sheet (b.withItem (item.move f)) outer).run ts =
      .ok (inItem (position + Token.sizeOf ts) nesting' sheet (b.withItem (item'.move f)) outer)

theorem reads_nil (nesting : Nesting) (item : Item) : Reads nesting item [] nesting item :=
  fun _ _ _ _ _ => rfl

theorem reads_cons {nesting nesting₁ nesting₂ : Nesting} {item item₁ item₂ : Item} {t : Token}
    {ts : List Token} (h : Reads nesting item [t] nesting₁ item₁)
    (ht : Reads nesting₁ item₁ ts nesting₂ item₂) : Reads nesting item (t :: ts) nesting₂ item₂ := by
  intro position f sheet b outer
  rw [← List.singleton_append, run_of_run _ (h position f sheet b outer), ht, Token.size_append,
    Nat.add_assoc]

theorem reads_inside {nesting : Nesting} (hn : nesting ≠ []) (item : Item) (t : Token) :
    Reads nesting item [t] (nesting.step t) (item.pushInside t) := by
  intro position f sheet b outer
  have := step_inside position sheet (b.withItem (item.move f)) outer hn t
  rw [run, this, ← Item.push_inside_move]
  simp [run, Token.sizeOf, Token.textOf, Block.withItem]

theorem reads_push {item : Item} (hi : item ≠ .none) {t : Token} (hs : t.kind ≠ .semicolon)
    (hc : t.kind ≠ .closing .curly) (ho : t.kind = .opening .curly → item.isCustomValue = true) :
    Reads [] item [t] t.opens?.toList (item.push 0 t) := by
  intro position f sheet b outer
  have hi' : item.move f ≠ .none := fun h => hi ((Item.move_none_iff f).mp h)
  rw [run, step_push position sheet b outer hi' hs hc (by rwa [Item.custom_move]),
    Item.push_anywhere hi' position (f 0), Item.push_move]
  simp [run, Token.sizeOf, Token.textOf]

section
variable {position : Nat} {nesting : Nesting} {sheet : RuleList} {b : Block} {outer : List Frame}
  {item : Item} {t : Token} {next : Reading}

theorem step_item (hi : item ≠ .none)
    (h : (inItem position nesting sheet (b.withItem item) outer).step t = .ok next) :
    (∃ item', Reads nesting item [t] (nesting.step t) item' ∧
      (nesting = [] ∧ item' = item.push 0 t ∨ nesting ≠ [] ∧ item' = item.pushInside t) ∧
      (nesting = [] → t.endsItem = false) ∧
      next = inItem (position + t.text.byteSize) (nesting.step t) sheet (b.withItem item') outer) ∨
    nesting = [] ∧ t.endsItem = true ∨
    ∀ p, next.claims p = (inItem position [] sheet (b.withItem .none) outer).claims p := by
  have hnext : ∀ {item'}, Reads nesting item [t] (nesting.step t) item' →
      next = inItem (position + t.text.byteSize) (nesting.step t) sheet (b.withItem item') outer := by
    intro item' hr
    have hid : ∀ i : Item, i.move id = i := fun i => by cases i <;> rfl
    have := hr position id sheet b outer
    rw [run, hid, h] at this
    simpa [run, hid, Token.sizeOf, Token.textOf] using this
  by_cases hn : nesting = []
  · subst hn
    cases he : t.endsItem with
    | true => exact .inr (.inl ⟨rfl, rfl⟩)
    | false =>
      obtain ⟨hs, hc⟩ : t.kind ≠ .semicolon ∧ t.kind ≠ .closing .curly := by
        simpa [Token.endsItem] using he
      by_cases ho : t.kind = .opening .curly → item.isCustomValue = true
      · have hr := reads_push hi hs hc ho
        rw [← Nesting.step_nil] at hr
        exact .inl ⟨_, hr, .inl ⟨rfl, rfl⟩, fun _ => rfl, hnext hr⟩
      · refine .inr (.inr fun p => ?_)
        obtain ⟨ho, hcustom⟩ := Classical.not_imp.mp ho
        have hopens : (b.withItem item).opensRule t = true := by
          simp [Block.opensRule, Block.withItem, ho, hcustom]
        have := step_read position sheet (b.withItem item) outer hc
        rw [Block.read, if_neg hs, hopens, if_pos rfl] at this
        obtain rfl := Except.ok.inj (this.symm.trans h)
        simp [claims, stack, Step.enter, inItem, Frame.claims, Block.withItem, Block.empty,
          declarationsOf, Declarations.countAt, Item.claim, Item.start?]
  · have hr := reads_inside hn item t
    exact .inl ⟨_, hr, .inr ⟨hn, rfl⟩, fun h => absurd h hn, hnext hr⟩

theorem rules_end {b' : Block} (position : Nat) (he : b.endItem = b'.endItem) :
    b.rules position = b'.rules position := by
  have hr : ∀ c : Block, c.rules position = ⟨c.endItem.selector, c.endItem.declarations, position⟩ ::
      c.endItem.inner := fun c => rfl
  rw [hr, hr, he]

theorem step_end {b' : Block} (h : t.endsItem = true) (he : b.endItem = b'.endItem) :
    (atBlock position sheet b outer).step t = (atBlock position sheet b' outer).step t := by
  simp only [Token.endsItem, Bool.or_eq_true, beq_iff_eq] at h
  rcases h with h | h
  · simp [step, atBlock, h, stepFrame, Frame.read, Block.read, he]
  · cases outer <;> simp [step, atBlock, h, leave, Frame.rules, rules_end position he]

theorem finish_end {b' : Block} (he : b.endItem = b'.endItem) :
    (inItem position nesting sheet b outer).finish = (inItem position nesting sheet b' outer).finish := by
  have hr : ∀ c : Block, (Frame.receive (.block c) []).rules position = c.rules position := by
    intro c
    simp only [Frame.receive, Frame.rules, List.append_nil]
  simp only [finish, inItem, endFrames, hr, rules_end position he]

theorem end_nothing (h : item.declaration? b.gap = none) :
    (b.withItem item).endItem = (b.withItem .none).endItem := by
  rw [Block.endItem, Block.endItem]
  simp only [Block.withItem]
  rw [h]
  rfl

end

def Ends (nesting : Nesting) (ts : List Token) : Prop :=
  ts = [] ∨ nesting = [] ∧ ∃ t rest, ts = t :: rest ∧ t.endsItem = true

/-- With the tokens in front of its end, the item is the declaration of a name. -/
def Declares (p : Nat) (property : Token) (nesting : Nesting) (item : Item) (ts : List Token) : Prop :=
  ∃ front back separator body trail, ts = front ++ back ∧ nesting.Holds front ∧
    Ends (nesting.after front) back ∧ (Item.value p property separator body trail).Begun property ∧
    trail ++ body ++ separator ++ [property] = front.reverse ++ item.tokens ∧
    Reads nesting item front (nesting.after front) (.value p property separator body trail)

theorem declares_here {p : Nat} {property : Token} {nesting : Nesting} {item : Item}
    {ts gap : List Token} (hb : item.Begun property) (hs : item.start? = some p)
    (hd : item.declaration? gap ≠ none) (he : Ends nesting ts) :
    Declares p property nesting item ts := by
  obtain ⟨separator, body, trail, rfl⟩ := Item.value_of_begun hb hs hd
  exact ⟨[], ts, separator, body, trail, rfl, trivial, he, hb, rfl, reads_nil _ _⟩

theorem declares_cons {p : Nat} {property : Token} {nesting : Nesting} {item item' : Item}
    {t : Token} {ts : List Token} (h : Reads nesting item [t] (nesting.step t) item')
    (ht : item'.tokens = t :: item.tokens) (hopen : nesting = [] → t.endsItem = false)
    (hd : Declares p property (nesting.step t) item' ts) :
    Declares p property nesting item (t :: ts) := by
  obtain ⟨front, back, separator, body, trail, rfl, hholds, hends, hvalue, htokens, hfront⟩ := hd
  exact ⟨t :: front, back, separator, body, trail, rfl, ⟨hopen, hholds⟩, hends, hvalue,
    by rw [htokens, ht]; simp, reads_cons h hfront⟩

theorem absent_finish {p : Nat} {r final : Reading} {ts : List Token} (h : r.run ts = .ok final)
    (hp : p < r.position) (hc : r.claims p = 0) :
    Declarations.countAt p (declarationsOf final.finish) = 0 := by
  have := count_finish p final
  rw [absent_run h hp hc] at this
  omega

/-- Behind the name of a declaration of a source stand a separator and a value, which
make a declaration of it wherever it stands. -/
theorem run_item {p : Nat} {property : Token} {sheet : RuleList} {b : Block} {outer : List Frame}
    {ts : List Token} {final : Reading} {position : Nat} {nesting : Nesting} {item : Item}
    (hb : item.Begun property) (hs : item.start? = some p) (hp : p < position)
    (hc : (inItem position [] sheet (b.withItem .none) outer).claims p = 0)
    (h : (inItem position nesting sheet (b.withItem item) outer).run ts = .ok final)
    (hf : Declarations.countAt p (declarationsOf final.finish) ≠ 0) :
    Declares p property nesting item ts := by
  induction ts generalizing position nesting item with
  | nil =>
    obtain rfl := Except.ok.inj h
    have hvalue : item.declaration? b.gap ≠ none := by
      intro hd
      rw [finish_end (end_nothing hd)] at hf
      exact hf (absent_finish (show run _ [] = .ok _ from rfl) hp hc)
    exact declares_here hb hs hvalue (.inl rfl)
  | cons t ts ih =>
    obtain ⟨next, hstep, hrun⟩ := run_cons h
    have hnext : p < next.position := by
      have : next.position = position + t.text.byteSize := (step_cases hstep).1
      omega
    have hi : item ≠ .none := by
      rintro rfl
      exact hb
    have hlost : next.claims p ≠ 0 := fun h0 => hf (absent_finish hrun hnext h0)
    rcases step_item hi hstep with ⟨item₁, hr, hitem, hopen, rfl⟩ | ⟨rfl, ht⟩ | hcl
    · -- one more token of the item, unless the item becomes something else
      obtain ⟨⟨hbegun, hstart⟩ | hgone, htokens⟩ := Item.begun_next hb (hitem.imp And.right And.right)
      · exact declares_cons hr htokens hopen (ih hbegun (hstart.trans hs) hnext hc hrun)
      · rw [claims_item p _ position, Item.claim, hgone] at hlost
        exact absurd hc (by simpa using hlost)
    · -- its end
      have hvalue : item.declaration? b.gap ≠ none := by
        intro hd
        have hsame : (atBlock position sheet (b.withItem .none) outer).step t = .ok next :=
          (step_end ht (end_nothing hd)).symm.trans hstep
        rcases claims_step p hsame with hle | ⟨hbegin, -⟩
        · exact hlost (Nat.le_zero.mp (Nat.le_trans hle (Nat.le_of_eq hc)))
        · exact absurd hbegin.1 (Nat.ne_of_gt hp)
      exact declares_here hb hs hvalue (.inr ⟨rfl, t, ts, rfl, ht⟩)
    · -- the block of a nested rule
      exact absurd ((hcl p).trans hc) hlost

end Reading
end CssFallback
