import CssFallback.Proofs.Stylesheet.Splicing
import Mathlib.Data.List.Basic

/-!
# Where a value ends

The trivia behind the last token of a value do not belong to it, unless they stand in
brackets that the source leaves open. The tokens of a value up to its end are found in
those from the colon to the end of the item.
-/

set_option autoImplicit false

namespace CssFallback

/-!
## The tokens of a value in place

The value of a declaration is a text that has been trimmed. Where it stands in the source
it is a run of tokens, from the colon of the declaration to the end of the item. The two
are compared through the anchor of the declaration.
-/

namespace Token

/-- What is left of the tokens of a source from a byte place on. -/
def fromPlace : Nat → List Token → List Token
  | 0, ts => ts
  | _ + 1, [] => []
  | p + 1, t :: ts => fromPlace (p + 1 - t.text.byteSize) ts

def ofItem : Nesting → List Token → List Token
  | _, [] => []
  | nesting, t :: rest =>
    if nesting = [] ∧ t.endsItem = true then [] else t :: ofItem (nesting.step t) rest

def behindColon (ts : List Token) : List Token := (ts.dropWhile fun t => t.kind != .colon).tail

theorem from_place_front {front rest : List Token} (h : ∀ t ∈ front, t.text ≠ []) :
    fromPlace (sizeOf front) (front ++ rest) = rest := by
  induction front with
  | nil => simp [sizeOf, textOf, Text.byteSize, fromPlace]
  | cons t front ih =>
    have hpos : 0 < t.text.byteSize := Text.byte_size_pos (h t (by simp))
    obtain ⟨n, hn⟩ := Nat.exists_eq_succ_of_ne_zero
      (show sizeOf (t :: front) ≠ 0 by rw [size_cons]; omega)
    have hrest : n + 1 - t.text.byteSize = sizeOf front := by
      rw [size_cons] at hn
      omega
    rw [hn, List.cons_append, fromPlace, hrest, ih fun u hu => h u (by simp [hu])]

theorem of_item_holds {nesting : Nesting} {front back : List Token} (hf : nesting.Holds front)
    (hb : Reading.Ends (nesting.after front) back) : ofItem nesting (front ++ back) = front := by
  induction front generalizing nesting with
  | nil =>
    rcases hb with rfl | ⟨hn, t, rest, rfl, ht⟩
    · rfl
    · exact if_pos ⟨hn, ht⟩
  | cons t front ih =>
    have hgoes : ¬ (nesting = [] ∧ t.endsItem = true) := fun h => by simp [hf.1 h.1] at h
    rw [List.cons_append, ofItem, if_neg hgoes, ih hf.2 hb]

theorem behind_colon {before after : List Token} {colon : Token}
    (hb : ∀ t ∈ before, t.kind ≠ .colon) (hc : colon.kind = .colon) :
    behindColon (before ++ colon :: after) = after := by
  have hpass : ∀ t ∈ before, (t.kind != .colon) = true := by simpa using hb
  rw [behindColon, List.dropWhile_append_of_pos hpass]
  simp [hc]

end Token

/-- The tokens of a source from the colon of the declaration at a byte place to its end. -/
def valueTokens (css : Text) (p : Nat) : List Token :=
  Token.behindColon (Token.ofItem [] (Token.fromPlace p (lex css)))

theorem not_colon_of_trivia {t : Token} (h : t.isTrivia = true) : t.kind ≠ .colon := by
  intro hk
  simp [Token.isTrivia, hk] at h

/-! ## Trivia of a source -/

theorem lex_at {s : Text} {t : Token} (h : t ∈ lex s) :
    ∃ rest, lex (Token.textOf (t :: rest)) = t :: rest := by
  obtain ⟨front, rest, hlex⟩ := List.append_of_mem h
  exact ⟨rest, lex_suffix hlex⟩

theorem space_text {s : Text} {t : Token} (h : t ∈ lex s) (hk : t.kind = .space) :
    t.text.all isSpace = true := by
  obtain ⟨rest, hlex⟩ := lex_at h
  exact (lex_space hlex hk).1

theorem comment_text {s : Text} {t : Token} (h : t ∈ lex s) (hk : t.kind = .comment) :
    ∃ more, t.text = '/' :: more := by
  obtain ⟨rest, hlex⟩ := lex_at h
  obtain ⟨c, u, ht⟩ := List.exists_cons_of_ne_nil (text_ne_nil_of_mem_lex s t h)
  rw [Token.text_of_cons, ht, List.cons_append] at hlex
  have hstart := Lexeme.start_kind hlex (by simp [hk]) (by simp [hk])
  obtain ⟨rfl, -⟩ := Lexeme.start_comment (hstart.trans hk)
  exact ⟨u, ht⟩

theorem trivia_of_space (s : Text) {ts : List Token} (h : ∀ t ∈ ts, t ∈ lex s)
    (hs : (Token.textOf ts).all isSpace = true) : ∀ t ∈ ts, t.isTrivia = true := by
  intro t ht
  obtain ⟨c, u, hc⟩ := List.exists_cons_of_ne_nil (text_ne_nil_of_mem_lex s t (h t ht))
  have hmem : c ∈ Token.textOf ts := List.mem_flatMap.mpr ⟨t, ht, by simp [hc]⟩
  obtain ⟨rest, hlex⟩ := lex_at (h t ht)
  have hkind : t.kind = .space := by
    by_contra hk
    have hoff := lex_off_space hlex hk c (by simp [Token.text_of_cons, hc])
    simp [List.all_eq_true.mp hs c hmem] at hoff
  simp [Token.isTrivia, hkind]

namespace Anchor
variable {css : Text} {rules : List Rule} {p : Nat} {d : Declaration} (a : Anchor css rules p d)
include a

theorem step_name : Nesting.step [] a.name = [] := by
  simp [Nesting.step_nil, Token.opens?, a.is_name]

theorem holds_name : Nesting.Holds [] (a.name :: a.middle) :=
  ⟨fun _ => by simp [Token.endsItem, a.is_name], by rw [a.step_name]; exact a.holds⟩

theorem item_tokens : Token.ofItem [] (Token.fromPlace p (lex css)) = a.name :: a.middle := by
  have hfrom : Token.fromPlace p (lex css) = a.name :: (a.middle ++ a.back) := by
    have hfront : Token.fromPlace (Token.sizeOf a.front) (a.front ++ a.name :: (a.middle ++ a.back)) =
        a.name :: (a.middle ++ a.back) :=
      Token.from_place_front fun t ht => a.text_ne_nil (by simp [ht])
    rwa [a.size_front, ← a.lexed] at hfront
  have hends : Reading.Ends (Nesting.after [] (a.name :: a.middle)) a.back := by
    rw [Nesting.after, List.foldl_cons, a.step_name, ← Nesting.after, ← a.nesting_behind]
    exact a.ends
  rw [hfrom, ← List.cons_append]
  exact Token.of_item_holds a.holds_name hends

theorem value_tokens : ∃ after, (∀ t ∈ after, t.isTrivia = true) ∧
    valueTokens css p = after ++ (a.body.reverse ++ a.trail.reverse) := by
  obtain ⟨before, colon, after, hsep, hcolon, htrivia⟩ := a.is_separator
  refine ⟨after, fun t ht => htrivia t (by simp [ht]), ?_⟩
  have hbefore : ∀ t ∈ a.name :: before, t.kind ≠ .colon := by
    intro t ht
    rcases List.mem_cons.mp ht with rfl | ht
    · simp [a.is_name]
    · exact not_colon_of_trivia (htrivia t (by simp [ht]))
  rw [valueTokens, a.item_tokens, a.middle_tokens, hsep, List.append_assoc, List.cons_append,
    ← List.cons_append, Token.behind_colon hbefore hcolon]

end Anchor

/-! ## The end of a value -/

namespace Nesting

theorem step_trivia (nesting : Nesting) {t : Token} (h : t.isTrivia = true) :
    step nesting t = nesting := by
  have hc : t.closes? = none := by
    rcases trivia_cases h with hk | hk <;> simp [Token.closes?, hk]
  simp [step, Token.opens_trivia h, hc]

theorem after_trivia (nesting : Nesting) {ts : List Token} (h : ∀ t ∈ ts, t.isTrivia = true) :
    after nesting ts = nesting := by
  induction ts with
  | nil => rfl
  | cons t ts ih =>
    rw [after, List.foldl_cons, step_trivia nesting (h t (by simp))]
    exact ih fun x hx => h x (by simp [hx])

end Nesting

/-- The tokens up to the last one that is no trivia, or stands in brackets. The brackets
`nesting` are open in front of them. -/
def Token.upToEnd : Nesting → List Token → List Token
  | _, [] => []
  | nesting, t :: rest =>
    if nesting = [] ∧ (t :: rest).all isTrivia = true then []
    else t :: upToEnd (nesting.step t) rest

/-- The tokens of the value of the declaration at a byte place. -/
def bodyTokens (css : Text) (p : Nat) : List Token :=
  Token.upToEnd [] ((valueTokens css p).dropWhile Token.isTrivia)

/-- The brackets `nesting` of the item are open, and those of its value. The value starts
with a token that is no trivia and ends with one, or with one in brackets. -/
def Item.Sound (nesting : Nesting) : Item → Prop
  | .name _ _ _ => nesting = []
  | .value _ _ _ body trail => Nesting.after [] body.reverse = nesting ∧
    (trail ≠ [] → nesting = []) ∧
    (∀ t older, body = t :: older → t.isTrivia = false ∨ Nesting.after [] older.reverse ≠ []) ∧
    ∀ t, body.getLast? = some t → t.isTrivia = false
  | _ => True

namespace Item
variable {property : Token} {item : Item} {nesting : Nesting}

theorem sound_push (hb : item.Begun property) (h : item.Sound []) (q : Nat) (t : Token) :
    (item.push q t).Sound (Nesting.step [] t) := by
  cases item with
  | name start x after =>
    simp only [push]
    split
    · rename_i ht
      exact Nesting.step_trivia [] ht
    · split
      · rename_i hc
        refine ⟨?_, by simp, by simp, by simp⟩
        simp [Nesting.step_nil, Nesting.after, Token.opens?, hc]
      · trivial
  | value start x separator body trail =>
    obtain ⟨-, -, hempty, htrail⟩ := hb
    obtain ⟨hafter, -, hlast, hfirst⟩ := h
    simp only [push]
    split
    · rename_i ht
      rw [Nesting.step_trivia [] ht]
      split
      · exact ⟨rfl, by simp, by simp, by simp⟩
      · exact ⟨hafter, fun _ => rfl, hlast, hfirst⟩
    · rename_i ht
      have ht : t.isTrivia = false := by simpa using ht
      refine ⟨?_, by simp, fun u older hu => .inl ?_, fun u hu => ?_⟩
      · rw [List.reverse_cons, List.reverse_append, Nesting.after_append, Nesting.after_append, hafter,
          Nesting.after_trivia [] (by simpa using htrail)]
        rfl
      · obtain ⟨rfl, -⟩ := List.cons.inj hu
        exact ht
      · by_cases hbody : body = []
        · rw [hbody, hempty hbody] at hu
          obtain rfl := Option.some.inj hu
          exact ht
        · rw [← List.cons_append, List.getLast?_append_of_ne_nil _ hbody] at hu
          exact hfirst u hu
  | _ => exact hb.elim

theorem sound_push_inside (hb : item.Begun property) (hn : nesting ≠ []) (h : item.Sound nesting)
    (t : Token) : (item.pushInside t).Sound (nesting.step t) := by
  cases item with
  | name start x after => exact absurd h hn
  | value start x separator body trail =>
    obtain ⟨hafter, htrail, -, hfirst⟩ := h
    obtain rfl : trail = [] := Classical.not_not.mp fun h => hn (htrail h)
    have hbody : body ≠ [] := by
      rintro rfl
      exact hn hafter.symm
    refine ⟨?_, by simp, fun u older hu => .inr ?_, fun u hu => ?_⟩
    · rw [List.nil_append, List.reverse_cons, Nesting.after_append, hafter]
      rfl
    · obtain ⟨-, rfl⟩ := List.cons.inj hu
      rwa [List.nil_append, hafter]
    · rw [List.nil_append, ← List.singleton_append, List.getLast?_append_of_ne_nil _ hbody] at hu
      exact hfirst u hu
  | _ => exact hb.elim

end Item

namespace Reading

/-- Up to the end of its declaration an item that has begun stays so, and sound. -/
theorem sound_run {p position position' : Nat} {property : Token} {nesting nesting' : Nesting}
    {sheet sheet' : RuleList} {b b' : Block} {outer outer' : List Frame} {item item' : Item}
    {ts : List Token} (hb : item.Begun property) (hs : item.start? = some p) (hp : p < position)
    (hc : (inItem position [] sheet (b.withItem .none) outer).claims p = 0)
    (hholds : nesting.Holds ts) (h : item.Sound nesting)
    (hrun : (inItem position nesting sheet (b.withItem item) outer).run ts =
      .ok (inItem position' nesting' sheet' (b'.withItem item') outer'))
    (hs' : item'.start? = some p) : item'.Begun property ∧ item'.Sound nesting' := by
  induction ts generalizing position nesting item with
  | nil =>
    simp only [run, inItem, Except.ok.injEq, mk.injEq, List.cons.injEq, Frame.block.injEq,
      Block.withItem, Block.mk.injEq] at hrun
    obtain ⟨-, rfl, -, ⟨-, -, -, -, rfl⟩, -⟩ := hrun
    exact ⟨hb, h⟩
  | cons t ts ih =>
    obtain ⟨next, hstep, hrest⟩ := run_cons hrun
    have hnext : p < next.position := by
      have : next.position = position + t.text.byteSize := (step_cases hstep).1
      omega
    have hi : item ≠ .none := by
      rintro rfl
      exact hb
    have hlost : next.claims p ≠ 0 := by
      intro h0
      have hlast := absent_run hrest hnext h0
      rw [claims_item p _ position', Item.claim, hs'] at hlast
      simp at hlast
    rcases step_item hi hstep with ⟨item₁, -, hitem, -, rfl⟩ | ⟨rfl, ht⟩ | hcl
    · have hsound : item₁.Sound (nesting.step t) := by
        rcases hitem with ⟨rfl, rfl⟩ | ⟨hn, rfl⟩
        · exact Item.sound_push hb h 0 t
        · exact Item.sound_push_inside hb hn h t
      obtain ⟨⟨hbegun, hstart⟩ | hgone, -⟩ := Item.begun_next hb (hitem.imp And.right And.right)
      · exact ih hbegun (hstart.trans hs) hnext hc hholds.2 hsound hrest
      · rw [claims_item p _ position, Item.claim, hgone] at hlost
        exact absurd hc (by simpa using hlost)
    · simp [hholds.1 rfl] at ht
    · exact absurd ((hcl p).trans hc) hlost

end Reading

namespace Anchor
variable {css : Text} {rules : List Rule} {p : Nat} {d : Declaration} (a : Anchor css rules p d)
include a

theorem begun_sound : (Item.value p a.name a.separator a.body a.trail).Begun a.name ∧
    (Item.value p a.name a.separator a.body a.trail).Sound a.nesting := by
  have hsize : 0 < a.name.text.byteSize := Text.byte_size_pos (a.text_ne_nil (by simp))
  have hclaims : (Reading.inItem (p + a.name.text.byteSize) [] a.sheet (a.block.withItem .none)
      a.outer).claims p = 0 := by
    have hb : a.block.withItem .none = a.block := by rw [Block.withItem, ← a.no_item]
    rw [hb]
    exact a.absent_front (Nat.le_refl p)
  have hbegun : (Item.name p a.name []).Begun a.name := ⟨rfl, by simp⟩
  have hrun := a.reads (p + a.name.text.byteSize) id a.sheet a.block a.outer
  exact Reading.sound_run hbegun rfl (by omega) hclaims a.holds rfl hrun rfl

theorem sound : (Item.value p a.name a.separator a.body a.trail).Sound a.nesting := a.begun_sound.2

theorem body_first : ∀ t, a.body.reverse.head? = some t → t.isTrivia = false := by
  rw [List.head?_reverse]
  exact a.sound.2.2.2

end Anchor

theorem Token.up_to_end {nesting : Nesting} {ts trail : List Token}
    (hl : ∀ u w, ts = u ++ w → w ≠ [] → nesting.after u = [] → ∃ t ∈ w, t.isTrivia = false)
    (ht : trail ≠ [] → nesting.after ts = []) (htrivia : ∀ t ∈ trail, t.isTrivia = true) :
    upToEnd nesting (ts ++ trail) = ts := by
  induction ts generalizing nesting with
  | nil =>
    cases trail with
    | nil => rfl
    | cons t trail =>
      have hn : nesting = [] := ht (by simp)
      exact if_pos ⟨hn, List.all_eq_true.mpr htrivia⟩
  | cons t ts ih =>
    have hgoes : ¬ (nesting = [] ∧ (t :: (ts ++ trail)).all isTrivia = true) := by
      rintro ⟨hn, hall⟩
      obtain ⟨x, hx, hs⟩ := hl [] (t :: ts) rfl (by simp) hn
      rw [List.all_eq_true] at hall
      rw [hall x (by rw [← List.cons_append]; exact List.mem_append_left _ hx)] at hs
      cases hs
    rw [List.cons_append, upToEnd, if_neg hgoes]
    exact congrArg (t :: ·) (ih (fun u w hts => hl (t :: u) w (by rw [hts]; rfl)) ht)

namespace Anchor
variable {css : Text} {rules : List Rule} {p : Nat} {d : Declaration} (a : Anchor css rules p d)
include a

/-- The body of the item is the value up to its end. -/
theorem body_tokens : bodyTokens css p = a.body.reverse := by
  obtain ⟨hafter, htrail, hlast, -⟩ := a.sound
  obtain ⟨after, htrivia, hvalue⟩ := a.value_tokens
  have hdrop : (after ++ (a.body.reverse ++ a.trail.reverse)).dropWhile Token.isTrivia =
      if a.body = [] then [] else a.body.reverse ++ a.trail.reverse := by
    rw [List.dropWhile_append_of_pos htrivia]
    split
    · rename_i hbody
      rw [hbody]
      exact List.dropWhile_eq_nil_iff.mpr (by simpa using a.trail_trivia)
    · rename_i hbody
      obtain ⟨t, rest, hrest⟩ := List.exists_cons_of_ne_nil (List.reverse_eq_nil_iff.not.mpr hbody)
      have ht := a.body_first t (by rw [hrest]; rfl)
      rw [hrest, List.cons_append, List.dropWhile_cons_of_neg (by simp [ht])]
  rw [bodyTokens, hvalue, hdrop]
  split
  · rename_i hbody
    rw [hbody]
    rfl
  · refine Token.up_to_end (fun u w hw hne hu => ?_) (fun h => ?_) (by simpa using a.trail_trivia)
    · -- otherwise the last token would be trivia of the item itself
      by_contra hall
      push Not at hall
      have hall : ∀ t ∈ w, t.isTrivia = true := fun t ht => by simpa using hall t ht
      obtain ⟨v, x, rfl⟩ := (List.eq_nil_or_concat' w).resolve_left hne
      have hbody : a.body = x :: (u ++ v).reverse := by
        rw [← List.reverse_reverse a.body, hw]
        simp
      rcases hlast x _ hbody with hx | hopen
      · rw [hall x (by simp)] at hx
        cases hx
      · rw [List.reverse_reverse, Nesting.after_append, hu] at hopen
        exact hopen (Nesting.after_trivia [] fun t ht => hall t (by simp [ht]))
    · rw [hafter]
      exact htrail (by simpa using h)

end Anchor

end CssFallback
