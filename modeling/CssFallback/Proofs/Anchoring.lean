import CssFallback.Proofs.Declaration.Marked
import CssFallback.Proofs.Layout.Tree
import CssFallback.Proofs.Stylesheet.Braces
import CssFallback.Proofs.Trigger

/-!
# Where the declarations of a sheet stand

Each declaration of a source stands in it with the white space in front, its separator
and the text of its value. No two of them overlap, and each lies in the block of its rule.
Texts that are spliced into the source at places and at the ends of blocks rest on this.
-/

set_option autoImplicit false

namespace CssFallback

/-! ## Separators -/

/-- A colon with white space and comments around it, in front of `rest`. Only a last
comment may be left open, by the end of the source. -/
def Separator.Stands (rest separator : Text) : Prop :=
  ∃ before after, separator = before ++ ':' :: after ∧ Layout.Gap false before ∧
    (Layout.Gap false after ∨ rest = [] ∧ ∃ closed body : Text, after = closed ++ '/' :: '*' :: body ∧
      Layout.Gap false closed ∧ body.isCommentBody = true)

namespace Layout.Gap
variable {spare : Bool} {g h : Text}

theorem append (hg : Gap spare g) (hh : Gap spare h) : Gap spare (g ++ h) := by
  induction hg with
  | nil => exact hh
  | space hc hg ih => exact .space hc ih
  | comment hb hg ih =>
    rw [List.append_assoc]
    exact .comment hb ih
  | semicolon hs hg ih => exact .semicolon hs ih

theorem of_space (h : g.all isSpace = true) : Gap spare g := by
  induction g with
  | nil => exact .nil
  | cons c g ih =>
    rw [List.all_cons, Bool.and_eq_true] at h
    exact .space h.1 (ih h.2)

end Layout.Gap

theorem Lexeme.comment_last {read t : Text} {x : Token} (h : comment.tokens read t = [x]) :
    ∃ body : Text, body.isCommentBody = true ∧ (t = body ∨ t = body ++ ['*', '/']) := by
  induction t generalizing read with
  | nil => exact ⟨[], rfl, .inl rfl⟩
  | cons c t ih =>
    by_cases hc : c = '*' ∧ t.head? = some '/'
    · obtain ⟨rfl, ht⟩ := hc
      obtain ⟨t, rfl⟩ := List.head?_eq_some_iff.mp ht
      rw [tokens_step (ending 1 .comment) (by simp [step]),
        tokens_step (ending 0 .comment) (by simp [step]), tokens_ending] at h
      have hrest : lex t = [] := (List.cons.inj h).2
      obtain rfl : t = [] := by rw [← text_of_lex t, hrest]; rfl
      exact ⟨[], rfl, .inr rfl⟩
    · rw [tokens_step comment (by simp only [step, if_neg hc])] at h
      obtain ⟨body, hbody, ht⟩ := ih h
      have hcons : Text.isCommentBody (c :: body) = true := by
        refine Text.comment_body_cons.mpr ⟨hbody, fun hs => hc ⟨hs.1, ?_⟩⟩
        obtain ⟨body, rfl⟩ := List.head?_eq_some_iff.mp hs.2
        rcases ht with rfl | rfl <;> rfl
      exact ⟨c :: body, hcons, by simpa using ht⟩

theorem lex_comment_last {s : Text} {x : Token} (h : lex s = [x]) (hx : x.kind = .comment) :
    ∃ body : Text, body.isCommentBody = true ∧
      (x.text = '/' :: '*' :: body ∨ x.text = commentText body) := by
  have htext : x.text = s := by
    have := text_of_lex s
    rw [h] at this
    simpa [Token.textOf] using this
  cases s with
  | nil => cases h
  | cons c s =>
    have hk := Lexeme.start_kind h (by simp [hx]) (by simp [hx])
    obtain ⟨rfl, t, rfl⟩ := Lexeme.start_comment (hk.trans hx)
    have hstart : Lexeme.start '/' ('*' :: t) = .slash := rfl
    rw [lex, hstart, Lexeme.tokens_step .comment (by simp [Lexeme.step])] at h
    obtain ⟨body, hbody, ht⟩ := Lexeme.comment_last h
    refine ⟨body, hbody, ht.imp (fun ht => ?_) fun ht => ?_⟩ <;> rw [htext, ht]
    rfl

namespace Trivia
variable {ts rest : List Token}

theorem gap (h : Trivia ts rest) (hr : rest ≠ []) : Layout.Gap false (Token.textOf ts) := by
  induction ts with
  | nil => exact .nil
  | cons t ts ih =>
    rw [Token.text_of_cons]
    rcases h.head with ⟨hs, -⟩ | ⟨-, hc⟩
    · exact (Layout.Gap.of_space hs).append (ih h.tail)
    · obtain ⟨body, hb, ht⟩ := hc (by simp [hr])
      rw [ht]
      exact .comment hb (ih h.tail)

theorem gap_last (h : Trivia ts []) : Layout.Gap false (Token.textOf ts) ∨
    ∃ closed body : Text, Token.textOf ts = closed ++ '/' :: '*' :: body ∧
      Layout.Gap false closed ∧ body.isCommentBody = true := by
  rcases List.eq_nil_or_concat' ts with rfl | ⟨init, t, rfl⟩
  · exact .inl .nil
  have hlex : lex (Token.textOf (init ++ [t])) = init ++ [t] := by simpa using h.lexed
  have hinit : Layout.Gap false (Token.textOf init) :=
    gap ⟨hlex, fun x hx => h.trivia x (by simp [hx])⟩ (List.cons_ne_nil t [])
  have hlast := lex_suffix hlex
  rw [Token.text_of_append]
  rcases trivia_cases (h.trivia t (by simp)) with hk | hk
  · have hs := (lex_space hlast hk).1
    exact .inl (hinit.append (.of_space (by simpa [Token.textOf] using hs)))
  · have htext : Token.textOf [t] = t.text := by simp [Token.textOf]
    rw [htext]
    obtain ⟨body, hb, ht | ht⟩ := lex_comment_last hlast hk
    · exact .inr ⟨_, body, by rw [ht], hinit, hb⟩
    · rw [ht, ← List.append_nil (commentText body)]
      exact .inl (hinit.append (.comment hb .nil))

end Trivia

/-! ## Declarations -/

/-- Behind the token that ends what stands in front of a place is nothing but a gap, and
`indent` is the white space that the gap ends with. -/
def Indented (ts : List Token) (p : Nat) (indent : Text) : Prop :=
  ∃ before cut gap back, ts = before ++ cut :: (gap ++ back) ∧
    Token.sizeOf (before ++ cut :: gap) = p ∧ cut.isCut = true ∧
    (∀ t ∈ gap, t.isTrivia = true) ∧ indent.all isSpace = true ∧
    ∃ other, Token.textOf gap = other ++ indent ∧ ∀ c, other.getLast? = some c → isBlank c = false

/-- How a declaration stands in a source at a place, with `raw` as the text of its value. -/
structure Declaration.Stands (css raw : Text) (p : Nat) (d : Declaration) : Prop where
  place : d.place = some p
  reads : ∃ front back, css = front ++ (d.property ++ (d.separator ++ (raw ++ back))) ∧
    front.byteSize = p ∧ Separator.Stands (raw ++ back) d.separator
  value : Importance.split raw = (d.value, d.important)
  indented : Indented (lex css) p d.indent

/-- The number of bytes from the name of a declaration to the end of its value. -/
def Declaration.extent (raw : Text) (d : Declaration) : Nat :=
  (d.property ++ (d.separator ++ raw)).byteSize

def Declaration.Apart (raw : Declaration → Text) (d e : Declaration) : Prop :=
  ∀ p q, d.place = some p → e.place = some q → p + d.extent (raw d) < q ∨ q + e.extent (raw e) < p

namespace Anchor
variable {css : Text} {rules : List Rule} {p : Nat} {d : Declaration} (a : Anchor css rules p d)

def raw : Text := Token.textOf a.body.reverse

include a

theorem indented : Indented (lex css) p d.indent := by
  obtain ⟨hgap, before, cut, hfront, hcut⟩ := a.trails
  refine ⟨before, cut, a.block.gap.reverse, a.name :: (a.middle ++ a.back), ?_, ?_, hcut,
    by simpa using hgap, a.indent_space, (Token.textOf a.block.gap.reverse).trimEnd, ?_,
    fun c hc => Text.trim_end_last hc⟩
  · rw [a.lexed, hfront]
    simp
  · rw [← hfront, a.size_front]
  · rw [a.indent, Text.trim_end_append]

theorem separator_stands : Separator.Stands (a.raw ++ Token.textOf (a.trail.reverse ++ a.back))
    d.separator := by
  obtain ⟨before, after, hsep, hbefore, hafter⟩ := a.separator_parts
  refine ⟨Token.textOf before, Token.textOf after, ?_, hbefore.gap (by simp), ?_⟩
  · rw [a.separator_text, hsep, Token.text_of_append, Token.text_of_cons]
    rfl
  · by_cases hr : a.body.reverse ++ (a.trail.reverse ++ a.back) = []
    · rw [hr] at hafter
      have hrest : a.raw ++ Token.textOf (a.trail.reverse ++ a.back) = [] := by
        rw [raw, ← Token.text_of_append, hr]
        rfl
      exact hafter.gap_last.imp_right fun h => ⟨hrest, h⟩
    · exact .inl (hafter.gap hr)

theorem stands : d.Stands css a.raw p := by
  refine ⟨a.place, ⟨Token.textOf a.front, Token.textOf (a.trail.reverse ++ a.back), ?_,
    a.size_front, a.separator_stands⟩, a.split_body, a.indented⟩
  calc css = Token.textOf (lex css) := (text_of_lex css).symm
    _ = _ := by
      rw [a.lexed, a.middle_tokens, a.property_text, a.separator_text, raw]
      simp [Token.text_of_append, Token.text_of_cons]

theorem extent_le : d.extent a.raw ≤ Token.sizeOf (a.name :: a.middle) := by
  have hextent : d.extent a.raw = Token.sizeOf (a.name :: (a.separator.reverse ++ a.body.reverse)) := by
    rw [Declaration.extent, a.property_text, a.separator_text, raw, Token.sizeOf,
      Token.text_of_cons, Token.text_of_append]
  have hmiddle : a.name :: a.middle =
      (a.name :: (a.separator.reverse ++ a.body.reverse)) ++ a.trail.reverse := by
    simp [a.middle_tokens]
  rw [hextent, hmiddle, Token.size_append]
  exact Nat.le_add_right _ _

theorem absent_inside {q : Nat} (hp : p < q) (hq : q < p + Token.sizeOf (a.name :: a.middle)) :
    Declarations.countAt q (declarationsOf rules) = 0 := by
  have hfront := a.absent_front (Nat.le_of_lt hp)
  have hdone : (Reading.atBlock (p + Token.sizeOf (a.name :: a.middle)) a.sheet a.done
      a.outer).claims q = 0 := by
    have hd : Declarations.countAt q [d] = 0 := by
      simp [Declarations.countAt, a.place, Nat.ne_of_lt hp]
    have hinner : a.done.inner = a.block.inner := rfl
    have hitem : a.done.item = .none := rfl
    simp only [Reading.claims, Reading.stack, Reading.atBlock, List.cons_append, List.map_cons,
      List.sum_cons, Frame.claims, a.declarations_done, Declarations.count_append, hd, hinner, hitem,
      a.no_item] at hfront ⊢
    exact hfront
  rw [← a.finish]
  exact Reading.absent_finish a.run_back hq hdone

end Anchor

/-! ## Places in the tokens -/

theorem Token.nil_of_size {ts : List Token} (hne : ∀ t ∈ ts, t.text ≠ []) (h : sizeOf ts = 0) :
    ts = [] := by
  cases ts with
  | nil => rfl
  | cons t ts =>
    have hpos : 0 < t.text.byteSize := Text.byte_size_pos (hne t (by simp))
    rw [size_cons] at h
    omega

section
variable {ps qs ps' qs' : List Token}

theorem split_le (hne : ∀ t ∈ ps ++ qs, t.text ≠ []) (h : ps ++ qs = ps' ++ qs')
    (hle : Token.sizeOf ps ≤ Token.sizeOf ps') : ∃ us, ps' = ps ++ us ∧ qs = us ++ qs' := by
  rcases List.append_eq_append_iff.mp h with ⟨us, hps, hqs⟩ | ⟨us, hps, hqs⟩
  · exact ⟨us, hps, hqs⟩
  · rw [hps, Token.size_append] at hle
    obtain rfl : us = [] := Token.nil_of_size (fun t ht => hne t (by simp [hps, ht])) (by omega)
    exact ⟨[], by simpa using hps.symm, by simpa using hqs.symm⟩

theorem split_eq (hne : ∀ t ∈ ps ++ qs, t.text ≠ []) (h : ps ++ qs = ps' ++ qs')
    (heq : Token.sizeOf ps = Token.sizeOf ps') : ps = ps' ∧ qs = qs' := by
  obtain ⟨us, rfl, rfl⟩ := split_le hne h (Nat.le_of_eq heq)
  rw [Token.size_append] at heq
  obtain rfl : us = [] := Token.nil_of_size (fun t ht => hne t (by simp [ht])) (by omega)
  exact ⟨(List.append_nil ps).symm, rfl⟩

end

theorem Nesting.holds_at {nesting : Nesting} {s u : List Token} {t : Token}
    (h : nesting.Holds (s ++ t :: u)) (hs : nesting.after s = []) : t.endsItem = false := by
  induction s generalizing nesting with
  | nil => exact h.1 hs
  | cons x s ih => exact ih h.2 hs

namespace Anchor
variable {css : Text} {rules : List Rule} {p q : Nat} {d e : Declaration}

theorem ends_before (a : Anchor css rules p d) (b : Anchor css rules q e)
    (he : e ∈ declarationsOf rules) (hpq : p < q) : p + Token.sizeOf (a.name :: a.middle) < q := by
  by_contra hle
  rcases Nat.lt_or_eq_of_le (Nat.not_lt.mp hle) with hlt | heq
  · have habsent := a.absent_inside hpq hlt
    rw [Declarations.countAt, List.countP_eq_zero] at habsent
    exact habsent e he (by simp [b.place])
  · have hsplit : (a.front ++ a.name :: a.middle) ++ a.back =
        b.front ++ b.name :: (b.middle ++ b.back) := by
      rw [← b.lexed, a.lexed]
      simp
    obtain ⟨-, hback⟩ := split_eq (fun t ht => a.text_ne_nil (by simpa using ht)) hsplit
      (by rw [Token.size_append, a.size_front, b.size_front, heq])
    -- the name of the other one would end the item
    rcases a.ends with hend | ⟨-, t, rest, hend, ht⟩
    · simp [hend] at hback
    · obtain ⟨rfl, -⟩ := List.cons.inj (hend.symm.trans hback)
      simp [Token.endsItem, b.is_name] at ht

theorem ends_inside (a : Anchor css rules p d) {r : Rule} {position : Nat}
    (hr : r.Spans (lex css) position) (hp : p ∈ r.declarations.places) :
    p + Token.sizeOf (a.name :: a.middle) ≤ r.stop := by
  have hwhole : lex css = (a.front ++ a.name :: a.middle) ++ a.back := by
    rw [a.lexed]
    simp
  rcases hr with ⟨pre, brace, back, hlex, hbrace, hblock, hstop⟩ | ⟨nesting, -, hstop⟩
  · obtain ⟨front, opening, contents, rfl, -, hnesting, hinside⟩ := hblock
    obtain ⟨before, after, rfl, hbefore, hsize⟩ := hinside.directly p hp
    rw [Nesting.after_append, hbefore] at hnesting
    -- behind the same place stand the same tokens
    have hsplit : a.front ++ ((a.name :: a.middle) ++ a.back) =
        (front ++ opening :: before) ++ (after ++ brace :: back) := by
      rw [← List.append_assoc, ← hwhole, hlex]
      simp
    obtain ⟨-, hsame⟩ := split_eq (fun t ht => a.text_ne_nil (by simpa using ht)) hsplit
      (by rw [a.size_front, hsize])
    by_contra hle
    have hafter : Token.sizeOf after < Token.sizeOf (a.name :: a.middle) := by
      rw [← List.cons_append, ← List.append_assoc, Token.size_append, hsize] at hstop
      omega
    obtain ⟨us, hitem, hrest⟩ := split_le (fun t ht => a.text_ne_nil (by
      rw [← hsame] at ht
      exact List.mem_append_right _ (by simpa using ht))) hsame.symm (Nat.le_of_lt hafter)
    cases us with
    | nil =>
      rw [List.append_nil] at hitem
      rw [hitem] at hafter
      exact Nat.lt_irrefl _ hafter
    | cons u us =>
      obtain ⟨rfl, -⟩ := List.cons.inj hrest
      have hholds := a.holds_name
      rw [hitem] at hholds
      have := Nesting.holds_at hholds hnesting
      simp [Token.endsItem, hbrace] at this
  · rw [← hstop, hwhole, Token.size_append, Token.size_append, a.size_front]
    exact Nat.le_add_right _ _

end Anchor

/-! ## Sheets -/

theorem Rule.Spans.increasing {ts : List Token} {r : Rule} {position : Nat}
    (h : r.Spans ts position) : r.declarations.places.Pairwise (· < ·) := by
  rcases h with ⟨_, _, _, -, -, ⟨_, _, _, -, -, -, hinside⟩, -⟩ | ⟨_, ⟨_, _, _, -, -, -, hinside⟩, -⟩
  · exact hinside.increasing
  · exact hinside.increasing

theorem Declarations.distinct {list : Declarations} (h : ∀ p, countAt p list ≤ 1) :
    list.Pairwise fun d e => ∀ p, d.place = some p → e.place ≠ some p := by
  induction list with
  | nil => exact .nil
  | cons d list ih =>
    have hcount : ∀ p, countAt p (d :: list) = countAt p list + if d.place = some p then 1 else 0 :=
      fun p => by simp [countAt, List.countP_cons]
    refine .cons (fun e he p hd hp => ?_) (ih fun p => ?_)
    · have hpos : 0 < countAt p list := List.countP_pos_iff.mpr ⟨e, he, by simp [hp]⟩
      have := h p
      rw [hcount, if_pos hd] at this
      omega
    · have := h p
      rw [hcount] at this
      omega

/-- How the declarations of a sheet stand in its source, with the texts `raw` as their
values. -/
structure Stylesheet.Anchored (s : Stylesheet) (raw : Declaration → Text) : Prop where
  stands : ∀ d ∈ declarationsOf s.rules, ∃ p, d.Stands s.source (raw d) p
  increasing : ∀ r ∈ s.rules, r.declarations.places.Pairwise (· < ·)
  apart : (declarationsOf s.rules).Pairwise (Declaration.Apart raw)
  contained : ∀ r ∈ s.rules, ∀ d ∈ r.declarations, ∀ p, d.place = some p →
    p + d.extent (raw d) ≤ r.stop
  /-- The rules are the blocks of declarations of the source, one by one. -/
  blocks : List.Forall₂ (Rule.Spans (lex s.source)) s.rules
    (Surroundings.start.braces 0 (lex s.source))

/-- The declarations of a source are anchored in it. -/
theorem parse_anchored {css : Text} {s : Stylesheet} (h : Stylesheet.parse css = .ok s) :
    s.source = css ∧ ∃ raw, s.Anchored raw := by
  have hsource := (Stylesheet.parse_ok.mp h).2
  have hspans := rules_span h
  refine ⟨hsource, ?_⟩
  rw [← hsource] at h hspans
  have hanchor : ∀ d : Declaration, ∃ raw, d ∈ declarationsOf s.rules →
      ∃ p, ∃ a : Anchor s.source s.rules p d, raw = a.raw := by
    intro d
    by_cases hd : d ∈ declarationsOf s.rules
    · obtain ⟨p, hp⟩ := Option.isSome_iff_exists.mp (placed_parse h d hd)
      obtain ⟨a⟩ := anchored h hd hp
      exact ⟨a.raw, fun _ => ⟨p, a, rfl⟩⟩
    · exact ⟨[], fun hd' => absurd hd' hd⟩
  choose raw hraw using hanchor
  have hrule : ∀ r ∈ s.rules, ∃ position, r.Spans (lex s.source) position :=
    ((List.forall₂_and_left _ _).mp (hspans.imp fun r position hr => ⟨⟨position, hr⟩, hr⟩)).1
  refine ⟨raw, fun d hd => ?_, fun r hr => ?_, ?_, fun r hr d hd p hp => ?_, hspans⟩
  · obtain ⟨p, a, ha⟩ := hraw d hd
    rw [ha]
    exact ⟨p, a.stands⟩
  · obtain ⟨position, hposition⟩ := hrule r hr
    exact hposition.increasing
  · refine (Declarations.distinct (count_parse h)).imp_of_mem ?_
    intro d e hd he hne p q hp hq
    obtain ⟨p', a, ha⟩ := hraw d hd
    obtain ⟨q', b, hb⟩ := hraw e he
    obtain rfl := Option.some.inj (a.place.symm.trans hp)
    obtain rfl := Option.some.inj (b.place.symm.trans hq)
    have hpq : p' ≠ q' := fun heq => hne p' hp (heq ▸ hq)
    have hextent := a.extent_le
    have hextent' := b.extent_le
    rw [ha, hb]
    rcases Nat.lt_or_gt_of_ne hpq with hlt | hlt
    · have := a.ends_before b he hlt
      exact .inl (by omega)
    · have := b.ends_before a hd hlt
      exact .inr (by omega)
  · obtain ⟨position, hposition⟩ := hrule r hr
    obtain ⟨p', a, ha⟩ := hraw d (List.mem_flatMap.mpr ⟨r, hr, hd⟩)
    obtain rfl := Option.some.inj (a.place.symm.trans hp)
    have hinside := a.ends_inside hposition (List.mem_filterMap.mpr ⟨d, hd, hp⟩)
    have hextent := a.extent_le
    rw [ha]
    omega

/-- The source ends in a nested rule. -/
theorem parse_anchored_nested : ∃ s, Stylesheet.parse "a\x7b\n x/**/:y;b\x7bc:d".toList = .ok s ∧
    s.rules.map Rule.stop = [17, 17] ∧
    (declarationsOf s.rules).map Declaration.place = [some 4, some 14] ∧
    s.source = "a\x7b\n x/**/:y;b\x7bc:d".toList ∧ ∃ raw, s.Anchored raw := by
  have hparse : Stylesheet.parse "a\x7b\n x/**/:y;b\x7bc:d".toList =
      .ok ⟨"a\x7b\n x/**/:y;b\x7bc:d".toList,
        [⟨['a'], [⟨['x'], ['y'], false, "\n ".toList, "/**/:".toList, some 4⟩], 17⟩,
          ⟨['b'], [⟨['c'], ['d'], false, [], [':'], some 14⟩], 17⟩]⟩ := rfl
  exact ⟨_, hparse, rfl, rfl, parse_anchored hparse⟩

end CssFallback
