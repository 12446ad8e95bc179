import CssFallback.Proofs.Declaration.Marked
import CssFallback.Proofs.Stylesheet.Body
import CssFallback.Proofs.Trigger
import Mathlib.Data.List.DropRight

/-!
# Importance and tokens

A value is important if its last two tokens are an exclamation mark and the word of
importance. A declaration is read by the text of its value instead, and the two agree
unless that text ends with blanks that are no white space, holds comments behind the
value, or looks like a value with a mark where other tokens stand.
-/

set_option autoImplicit false

namespace CssFallback

namespace Token

/-! ## What tokens say -/

def isMark (mark word : Token) : Bool :=
  mark == ⟨.delim, ['!']⟩ && word.kind == .ident && word.text.sameIgnoringCase "important".toList

/-- The tokens without the trivia at their ends. -/
def trimmed (ts : List Token) : List Token := (ts.dropWhile isTrivia).rdropWhile isTrivia

/-- The tokens in front of the mark, if the last two that are no trivia are one. -/
def beforeMark? (ts : List Token) : Option (List Token) :=
  match ts.reverse.dropWhile isTrivia with
  | [] => none
  | word :: rest =>
    match rest.dropWhile isTrivia with
    | [] => none
    | mark :: front => if isMark mark word then some front.reverse else none

def valueOf (ts : List Token) : List Token := trimmed ((beforeMark? ts).getD ts)

/-- The value that tokens write, and whether it is important. -/
def importance (ts : List Token) : Text × Bool := (textOf (valueOf ts), (beforeMark? ts).isSome)

theorem before_mark_shape {ts front : List Token} (h : beforeMark? ts = some front) :
    ∃ mark between word behind, ts = front ++ mark :: (between ++ word :: behind) ∧
      isMark mark word = true ∧ (∀ t ∈ between, t.isTrivia = true) ∧
        ∀ t ∈ behind, t.isTrivia = true := by
  rw [beforeMark?] at h
  split at h
  · cases h
  rename_i word rest hword
  split at h
  · cases h
  rename_i mark before hmark
  split at h
  · rename_i hm
    obtain rfl := Option.some.inj h
    refine ⟨mark, (rest.takeWhile isTrivia).reverse, word, (ts.reverse.takeWhile isTrivia).reverse, ?_,
      hm, fun t ht => List.mem_takeWhile_imp (List.mem_reverse.mp ht),
      fun t ht => List.mem_takeWhile_imp (List.mem_reverse.mp ht)⟩
    have hts : ts.reverse = ts.reverse.takeWhile isTrivia ++ word ::
        (rest.takeWhile isTrivia ++ mark :: before) := by
      rw [← hmark, List.takeWhile_append_dropWhile, ← hword, List.takeWhile_append_dropWhile]
    calc ts = ts.reverse.reverse := (List.reverse_reverse ts).symm
      _ = (ts.reverse.takeWhile isTrivia ++ word ::
          (rest.takeWhile isTrivia ++ mark :: before)).reverse := congrArg List.reverse hts
      _ = _ := by simp
  · cases h

section
variable {lead ts trail : List Token} (hl : ∀ t ∈ lead, t.isTrivia = true)
  (ht : ∀ t ∈ trail, t.isTrivia = true)

include hl in
theorem trimmed_lead : trimmed (lead ++ ts) = trimmed ts := by
  rw [trimmed, List.dropWhile_append_of_pos hl, trimmed]

include ht in
theorem trimmed_trail : trimmed (ts ++ trail) = trimmed ts := by
  have hrev : ∀ t ∈ trail.reverse, t.isTrivia = true := by simpa using ht
  have hdrop : trail.dropWhile isTrivia = [] := List.dropWhile_eq_nil_iff.mpr ht
  rw [trimmed, List.dropWhile_append, hdrop, trimmed]
  split
  · rename_i h
    rw [List.isEmpty_iff.mp h]
  · rw [List.rdropWhile, List.reverse_append, List.dropWhile_append_of_pos hrev, List.rdropWhile]

include hl ht in
theorem before_mark_spaced :
    beforeMark? (lead ++ (ts ++ trail)) = (beforeMark? ts).map fun front => lead ++ front := by
  have hnil : lead.reverse.dropWhile isTrivia = [] := by simpa using hl
  have hrev : (lead ++ (ts ++ trail)).reverse.dropWhile isTrivia =
      (ts.reverse ++ lead.reverse).dropWhile isTrivia := by
    rw [List.reverse_append, List.reverse_append, List.append_assoc,
      List.dropWhile_append_of_pos (by simpa using ht)]
  rw [beforeMark?, hrev, List.dropWhile_append, hnil, beforeMark?]
  cases ts.reverse.dropWhile isTrivia with
  | nil => rfl
  | cons word rest =>
    simp only [List.isEmpty_cons, Bool.false_eq_true, if_false, List.cons_append]
    rw [List.dropWhile_append, hnil]
    cases rest.dropWhile isTrivia with
    | nil => rfl
    | cons mark front =>
      simp only [List.isEmpty_cons, Bool.false_eq_true, if_false, List.cons_append]
      split <;> simp

include hl ht in
theorem value_spaced : valueOf (lead ++ (ts ++ trail)) = valueOf ts := by
  rw [valueOf, before_mark_spaced hl ht, valueOf]
  cases beforeMark? ts with
  | none => simp only [Option.map_none, Option.getD_none, trimmed_lead hl, trimmed_trail ht]
  | some front => simp only [Option.map_some, Option.getD_some, trimmed_lead hl]

include hl ht in
theorem importance_spaced : importance (lead ++ (ts ++ trail)) = importance ts := by
  rw [importance, value_spaced hl ht, before_mark_spaced hl ht, Option.isSome_map, importance]

end

theorem trimmed_shape {ts : List Token} (h : ∀ t, ts.head? = some t → t.isTrivia = false) :
    ∃ gap, ts = trimmed ts ++ gap ∧ ∀ t ∈ gap, t.isTrivia = true := by
  have hdrop : ts.dropWhile isTrivia = ts := by
    cases ts with
    | nil => rfl
    | cons t ts => exact List.dropWhile_cons_of_neg (by simp [h t rfl])
  refine ⟨ts.rtakeWhile isTrivia, ?_, fun t ht => List.mem_rtakeWhile_imp ht⟩
  rw [trimmed, hdrop, List.rdropWhile_append_rtakeWhile]

theorem marked_parts {body front : List Token} (hmark : beforeMark? body = some front)
    (hfirst : ∀ t, body.head? = some t → t.isTrivia = false) : ∃ gap between word behind,
      body = valueOf body ++ (gap ++ ⟨.delim, ['!']⟩ :: (between ++ word :: behind)) ∧
        word.kind = .ident ∧ word.text.sameIgnoringCase "important".toList = true ∧
          (∀ t ∈ gap, t.isTrivia = true) ∧ (∀ t ∈ between, t.isTrivia = true) ∧
            ∀ t ∈ behind, t.isTrivia = true := by
  obtain ⟨mark, between, word, behind, hbody, hm, hbetween, hbehind⟩ := before_mark_shape hmark
  obtain ⟨rfl, hkind, hword⟩ : mark = ⟨.delim, ['!']⟩ ∧ word.kind = .ident ∧
      word.text.sameIgnoringCase "important".toList = true := by
    simpa [isMark, and_assoc] using hm
  have hfront : ∀ t, front.head? = some t → t.isTrivia = false := fun t ht =>
    hfirst t (by rw [hbody, List.head?_append, ht]; rfl)
  obtain ⟨gap, hgap, htrivia⟩ := trimmed_shape hfront
  refine ⟨gap, between, word, behind, ?_, hkind, hword, htrivia, hbetween, hbehind⟩
  have hvalue : valueOf body = trimmed front := by rw [valueOf, hmark, Option.getD_some]
  rw [hvalue, ← List.append_assoc, ← hgap, hbody]

end Token

/-! ## Texts of trivia -/

theorem blank_or_comment {css : Text} {ts : List Token} (hmem : ∀ t ∈ ts, t ∈ lex css)
    (h : ∀ t ∈ ts, t.isTrivia = true) :
    (Token.textOf ts).all isBlank = true ∧ (∀ t ∈ ts, t.kind ≠ .comment) ∨
      (Token.textOf ts).StartsComment ∧ ∃ t ∈ ts, t.kind = .comment := by
  induction ts with
  | nil => exact .inl ⟨rfl, by simp⟩
  | cons t ts ih =>
    rw [Token.text_of_cons]
    rcases trivia_cases (h t (by simp)) with hk | hk
    · have hblank := blank_of_all_space (space_text (hmem t (by simp)) hk)
      rcases ih (fun x hx => hmem x (by simp [hx])) fun x hx => h x (by simp [hx]) with
        ⟨hall, hnone⟩ | ⟨⟨blanks, more, htext, hall⟩, x, hx, hcomment⟩
      · exact .inl ⟨by rw [List.all_append, hblank, hall]; rfl, by simpa [hk] using hnone⟩
      · refine .inr ⟨⟨t.text ++ blanks, more, by rw [htext, List.append_assoc], ?_⟩, x, by simp [hx],
          hcomment⟩
        rw [List.all_append, hblank, hall]
        rfl
    · obtain ⟨more, hmore⟩ := comment_text (hmem t (by simp)) hk
      exact .inr ⟨⟨[], more ++ Token.textOf ts, by rw [hmore]; rfl, rfl⟩, t, by simp, hk⟩

theorem blank_iff {css : Text} {ts : List Token} (hmem : ∀ t ∈ ts, t ∈ lex css)
    (h : ∀ t ∈ ts, t.isTrivia = true) :
    (Token.textOf ts).all isBlank = true ↔ ∀ t ∈ ts, t.kind ≠ .comment := by
  rcases blank_or_comment hmem h with ⟨hall, hnone⟩ | ⟨hstarts, t, ht, hk⟩
  · exact iff_of_true hall hnone
  · refine iff_of_false (fun hall => ?_) fun hnone => hnone t ht hk
    rw [hstarts.not_blank] at hall
    cases hall

/-! ## The text of a value -/

/-- The text of a value is split as its tokens say if it has no blanks at its ends, no
comment stands behind it, and it does not look marked without being so. -/
theorem split_tokens_iff {css : Text} {body : List Token} (hmem : ∀ t ∈ body, t ∈ lex css)
    (hfirst : ∀ t, body.head? = some t → t.isTrivia = false) :
    Importance.split (Token.textOf body) = Token.importance body ↔
      (Token.importance body).1.trim = (Token.importance body).1 ∧
        (∀ t ∈ body.drop (Token.valueOf body).length, t.kind ≠ .comment) ∧
          ((Token.importance body).2 = false → ¬ (Token.importance body).1.LooksMarked) := by
  have hdrop : ∀ {value rest : List Token}, body = value ++ rest → body.drop value.length = rest := by
    rintro value rest rfl
    exact List.drop_left
  cases hmark : Token.beforeMark? body with
  | none =>
    obtain ⟨gap, hbody, hgap⟩ := Token.trimmed_shape hfirst
    have hblank := blank_iff (fun t ht => hmem t (by rw [hbody]; simp [ht])) hgap
    have htext : Token.textOf body = Token.textOf (Token.trimmed body) ++ Token.textOf gap := by
      rw [← Token.text_of_append, ← hbody]
    simp only [Token.importance, Token.valueOf, hmark, Option.getD_none, Option.isSome_none,
      true_implies, hdrop hbody, htext, ← hblank]
    exact Importance.split_plain_iff
  | some front =>
    obtain ⟨gap, between, word, behind, hparts, hkind, hword, hgap, hbetween, hbehind⟩ :=
      Token.marked_parts hmark hfirst
    simp only [Token.importance, hmark, Option.isSome_some]
    generalize Token.valueOf body = value at hparts ⊢
    have htext : Token.textOf body = Token.textOf value ++ (Token.textOf gap ++
        '!' :: (Token.textOf between ++ (word.text ++ Token.textOf behind))) := by
      rw [hparts]
      simp [Token.text_of_append, Token.text_of_cons]
    have hin : ∀ t, t ∈ gap ∨ t ∈ between ∨ t ∈ behind → t ∈ lex css := fun t ht =>
      hmem t (by rw [hparts]; rcases ht with ht | ht | ht <;> simp [ht])
    have hgaps := (blank_or_comment (fun t ht => hin t (.inl ht)) hgap).imp And.left And.left
    have hbetweens := (blank_or_comment (fun t ht => hin t (.inr (.inl ht))) hbetween).imp
      And.left And.left
    rw [hdrop hparts, htext, Importance.split_marked_iff hword hgaps hbetweens,
      blank_iff (fun t ht => hin t (.inl ht)) hgap,
      blank_iff (fun t ht => hin t (.inr (.inl ht))) hbetween,
      blank_iff (fun t ht => hin t (.inr (.inr ht))) hbehind]
    simp [or_imp, forall_and, hkind]

/-! ## Declarations -/

/-- The tokens of the value at a byte place are read as they are: no blank stands at the
ends of the value they write, no comment behind it up to its end, and the value does not
look marked without being so. -/
structure Candid (css : Text) (p : Nat) : Prop where
  bare : (Token.importance (valueTokens css p)).1.trim = (Token.importance (valueTokens css p)).1
  uncommented : ∀ t ∈ (bodyTokens css p).drop (Token.valueOf (valueTokens css p)).length,
    t.kind ≠ .comment
  genuine : (Token.importance (valueTokens css p)).2 = false →
    ¬ (Token.importance (valueTokens css p)).1.LooksMarked

/-- A declaration of a source has the value and the importance that its tokens write,
exactly if they are candid. -/
theorem importance_by_tokens {css : Text} {s : Stylesheet} (h : Stylesheet.parse css = .ok s)
    {d : Declaration} (hd : d ∈ declarationsOf s.rules) : ∃ p, d.place = some p ∧
      ((d.value, d.important) = Token.importance (valueTokens css p) ↔ Candid css p) := by
  obtain ⟨p, hp⟩ := Option.isSome_iff_exists.mp (placed_parse h d hd)
  obtain ⟨a⟩ := anchored h hd hp
  refine ⟨p, hp, ?_⟩
  obtain ⟨lead, hlead, htokens⟩ := a.value_tokens
  have htrail : ∀ t ∈ a.trail.reverse, t.isTrivia = true := fun t ht =>
    a.trail_trivia t (List.mem_reverse.mp ht)
  have hmem : ∀ t ∈ a.body.reverse, t ∈ lex css := fun t ht => by
    rw [a.lexed, a.middle_tokens]
    simp [List.mem_reverse.mp ht]
  have hvalue : Token.valueOf (valueTokens css p) = Token.valueOf a.body.reverse := by
    rw [htokens, Token.value_spaced hlead htrail]
  have himportance : Token.importance (valueTokens css p) = Token.importance a.body.reverse := by
    rw [htokens, Token.importance_spaced hlead htrail]
  have hcandid := split_tokens_iff hmem a.body_first
  rw [a.split_body, ← himportance, ← hvalue, ← a.body_tokens] at hcandid
  rw [hcandid]
  exact ⟨fun hc => ⟨hc.1, hc.2.1, hc.2.2⟩, fun hc => ⟨hc.bare, hc.uncommented, hc.genuine⟩⟩

/-- An exclamation mark in a string and a comment behind the value make no difference. -/
theorem importance_by_tokens_marked :
    Stylesheet.parse "a\x7bb: \"!\" ! IMPORTANT/*c*/\x7d".toList = .ok
      ⟨"a\x7bb: \"!\" ! IMPORTANT/*c*/\x7d".toList,
        [⟨['a'], [⟨['b'], "\"!\"".toList, true, [], ": ".toList, some 2⟩], 25⟩]⟩ ∧
      ("\"!\"".toList, true) =
        Token.importance (valueTokens "a\x7bb: \"!\" ! IMPORTANT/*c*/\x7d".toList 2) := by
  have hparse : Stylesheet.parse "a\x7bb: \"!\" ! IMPORTANT/*c*/\x7d".toList = .ok
      ⟨"a\x7bb: \"!\" ! IMPORTANT/*c*/\x7d".toList,
        [⟨['a'], [⟨['b'], "\"!\"".toList, true, [], ": ".toList, some 2⟩], 25⟩]⟩ := rfl
  refine ⟨hparse, ?_⟩
  obtain ⟨p, hp, hcandid⟩ := importance_by_tokens hparse (List.mem_singleton.mpr rfl)
  obtain rfl := Option.some.inj hp
  have hbehind : (bodyTokens "a\x7bb: \"!\" ! IMPORTANT/*c*/\x7d".toList 2).drop 1 =
    [⟨.space, [' ']⟩, ⟨.delim, ['!']⟩, ⟨.space, [' ']⟩, ⟨.ident, "IMPORTANT".toList⟩] := rfl
  refine hcandid.mpr ⟨rfl, ?_, fun h => ?_⟩
  · rw [show (Token.valueOf _).length = 1 from rfl, hbehind]
    decide
  · cases h

/-- In a name, an escaped exclamation mark is no mark. -/
theorem importance_escaped :
    Stylesheet.parse "a\x7bb:x\\!important\x7d".toList = .ok ⟨"a\x7bb:x\\!important\x7d".toList,
      [⟨['a'], [⟨['b'], "x\\".toList, true, [], [':'], some 2⟩], 16⟩]⟩ ∧
    valueTokens "a\x7bb:x\\!important\x7d".toList 2 = [⟨.ident, "x\\!important".toList⟩] ∧
    Token.importance (valueTokens "a\x7bb:x\\!important\x7d".toList 2) =
      ("x\\!important".toList, false) := by
  refine ⟨rfl, rfl, rfl⟩

end CssFallback
