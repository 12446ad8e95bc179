import CssFallback.Declaration
import CssFallback.Proofs.Token.Shape
import CssFallback.Text.Basic
import Mathlib.Data.List.TakeWhile

/-!
# Plain separators

The colon of a separator is the first one outside comments. Nothing but closed comments
and other characters stands in front of it. What `plain` leaves is white space around it.
-/

set_option autoImplicit false

namespace CssFallback

/-!
## Blanks of white space and comments

Trimming takes more characters than those of white space tokens. At the ends of white
space and comments of a source it makes no difference: next to a blank that is no white
space stands a character of a comment.
-/

theorem blank_of_space {c : Char} (h : isSpace c = true) : isBlank c = true := by
  simp only [isSpace, isNewline, Bool.or_eq_true, beq_iff_eq] at h
  rcases h with (rfl | rfl) | (rfl | rfl) | rfl <;> decide

theorem blank_of_all_space {t : Text} (h : t.all isSpace = true) : t.all isBlank = true := by
  rw [List.all_eq_true] at *
  exact fun c hc => blank_of_space (h c hc)

theorem blank_of_alpha {c : Char} (h : c.isAlpha = true) : isBlank c = false := by
  have ha := alpha_cases h
  simp [isBlank, blankRanges]
  omega

namespace Text

theorem trailing_append (s t : Text) : trailingBlanks (s ++ t) =
    if t.all isBlank then trailingBlanks s ++ t else trailingBlanks t := by
  rw [trailingBlanks, List.reverse_append]
  split
  · rename_i h
    rw [List.takeWhile_append_of_pos fun c hc => List.all_eq_true.mp h c (List.mem_reverse.mp hc)]
    simp [trailingBlanks]
  · rename_i h
    have hlen : (t.reverse.takeWhile isBlank).length ≠ t.reverse.length := by
      intro hl
      apply h
      have := (List.takeWhile_sublist (p := isBlank) (l := t.reverse)).eq_of_length hl
      rw [← List.all_reverse, ← this]
      exact List.all_takeWhile
    rw [List.takeWhile_append, if_neg hlen, trailingBlanks]

theorem trailing_blank {t : Text} (h : t.all isBlank = true) : trailingBlanks t = t := by
  have := trailing_append [] t
  rwa [if_pos h] at this

end Text

/-- Trivia of a source, with tokens behind them. -/
structure Trivia (ts rest : List Token) : Prop where
  lexed : lex (Token.textOf (ts ++ rest)) = ts ++ rest
  trivia : ∀ t ∈ ts, t.isTrivia = true

namespace Trivia
variable {ts rest : List Token} {t : Token}

theorem tail (h : Trivia (t :: ts) rest) : Trivia ts rest :=
  ⟨lex_tail h.lexed, fun x hx => h.trivia x (by simp [hx])⟩

theorem head (h : Trivia (t :: ts) rest) :
    t.text.all isSpace = true ∧ (Token.textOf (ts ++ rest)).StartsOff isSpace ∨
      (∃ more, t.text = '/' :: more) ∧
        (ts ++ rest ≠ [] → ∃ body : Text, body.isCommentBody = true ∧ t.text = commentText body) := by
  rcases trivia_cases (h.trivia t (by simp)) with hk | hk
  · exact .inl (lex_space h.lexed hk)
  · refine .inr ⟨?_, lex_comment h.lexed hk⟩
    have hl := h.lexed
    cases ht : Token.textOf (t :: ts ++ rest) with
    | nil =>
      rw [ht] at hl
      cases hl
    | cons c s =>
      rw [ht] at hl
      have hstart := Lexeme.start_kind hl (by simp [hk]) (by simp [hk])
      obtain ⟨rfl, -⟩ := Lexeme.start_comment (hstart.trans hk)
      obtain ⟨more, hm⟩ := Lexeme.head_text hl
      exact ⟨more, hm⟩

theorem space_of_blank (h : Trivia ts rest) (hb : (Token.textOf ts).all isBlank = true) :
    (Token.textOf ts).all isSpace = true := by
  induction ts with
  | nil => rfl
  | cons t ts ih =>
    rw [Token.text_of_cons, List.all_append, Bool.and_eq_true] at hb ⊢
    refine ⟨?_, ih h.tail hb.2⟩
    rcases h.head with ⟨hs, -⟩ | ⟨⟨more, ht⟩, -⟩
    · exact hs
    · rw [ht] at hb
      exact absurd hb.1 (by simp [show isBlank '/' = false by decide])

theorem leading_blanks (h : Trivia ts rest) :
    (Token.textOf ts).leadingBlanks = (Token.textOf ts).takeWhile isSpace := by
  rw [Text.leadingBlanks]
  induction ts with
  | nil => rfl
  | cons t ts ih =>
    rw [Token.text_of_cons]
    rcases h.head with ⟨hs, -⟩ | ⟨⟨more, ht⟩, -⟩
    · have hs := List.all_eq_true.mp hs
      rw [List.takeWhile_append_of_pos fun c hc => blank_of_space (hs c hc),
        List.takeWhile_append_of_pos hs, ih h.tail]
    · rw [ht, List.cons_append, List.takeWhile_cons_of_neg (by decide),
        List.takeWhile_cons_of_neg (by decide)]

theorem leading_space (h : Trivia ts rest) : (Token.textOf ts).leadingBlanks.all isSpace = true := by
  rw [h.leading_blanks]
  exact List.all_takeWhile

theorem trailing_space (h : Trivia ts rest) (hr : rest ≠ []) :
    (Token.textOf ts).trailingBlanks.all isSpace = true := by
  induction ts with
  | nil => rfl
  | cons t ts ih =>
    rw [Token.text_of_cons, Text.trailing_append]
    split
    · rename_i hb
      rw [List.all_append, h.tail.space_of_blank hb, Bool.and_true]
      rcases h.head with ⟨hs, -⟩ | ⟨-, hc⟩
      · rw [Text.trailing_blank (blank_of_all_space hs), hs]
      · obtain ⟨body, -, ht⟩ := hc (by simp [hr])
        have hclose : t.text = ('/' :: '*' :: (body ++ ['*'])) ++ ['/'] := by simp [ht, commentText]
        rw [hclose, Text.trailing_append]
        rfl
    · exact ih h.tail

end Trivia

theorem Text.comment_body_or (t : Text) : t.isCommentBody = true ∨
    ∃ body rest : Text, t = body ++ '*' :: '/' :: rest ∧ body.isCommentBody = true := by
  induction t with
  | nil => exact .inl rfl
  | cons c t ih =>
    by_cases hc : c = '*' ∧ t.head? = some '/'
    · obtain ⟨rfl, ht⟩ := hc
      obtain ⟨rest, rfl⟩ := List.head?_eq_some_iff.mp ht
      exact .inr ⟨[], rest, rfl, rfl⟩
    · rcases ih with ht | ⟨body, rest, rfl, hb⟩
      · exact .inl (comment_body_cons.mpr ⟨ht, hc⟩)
      · refine .inr ⟨c :: body, rest, rfl, comment_body_cons.mpr ⟨hb, fun hs => hc ⟨hs.1, ?_⟩⟩⟩
        rw [List.head?_append, hs.2]
        rfl

namespace Separator

/-! ## The first colon -/

/-- Closed comments, and characters outside comments that are no colon. -/
inductive Colonless : Text → Prop
  | nil : Colonless []
  | comment {body t : Text} (hb : body.isCommentBody = true) (h : Colonless t) :
      Colonless (commentText body ++ t)
  | character {c : Char} {t : Text} (hc : c ≠ ':') (ho : ¬ (c = '/' ∧ t.head? = some '*'))
      (h : Colonless t) : Colonless (c :: t)

/-- Where the search for a colon stops: at the end, at a colon, or at a comment that is not
closed. -/
inductive Stop : Text → Prop
  | finish : Stop []
  | colon (tail : Text) : Stop (':' :: tail)
  | unclosed {body : Text} (hb : body.isCommentBody = true) : Stop ('/' :: '*' :: body)

theorem Stop.head {w : Text} (h : Stop w) : w.head? ≠ some '*' := by
  cases h <;> simp

theorem colonless_to_stop (t : Text) : ∃ head w, t = head ++ w ∧ Colonless head ∧ Stop w := by
  -- by length, since a comment is passed over as a whole
  induction hn : t.length using Nat.strongRecOn generalizing t with
  | ind n ih =>
    cases t with
    | nil => exact ⟨[], [], rfl, .nil, .finish⟩
    | cons c t =>
      by_cases hcolon : c = ':'
      · subst hcolon
        exact ⟨[], _, rfl, .nil, .colon t⟩
      by_cases hopen : c = '/' ∧ t.head? = some '*'
      · obtain ⟨rfl, ht⟩ := hopen
        obtain ⟨t, rfl⟩ := List.head?_eq_some_iff.mp ht
        rcases Text.comment_body_or t with hb | ⟨body, rest, rfl, hb⟩
        · exact ⟨[], _, rfl, .nil, .unclosed hb⟩
        · obtain ⟨head, w, rfl, hhead, hw⟩ := ih _ (by simp at hn; omega) rest rfl
          exact ⟨commentText body ++ head, w, by simp [commentText], .comment hb hhead, hw⟩
      · obtain ⟨head, w, rfl, hhead, hw⟩ := ih _ (by simp at hn; omega) t rfl
        refine ⟨c :: head, w, rfl, .character hcolon (fun ho => hopen ⟨ho.1, ?_⟩) hhead, hw⟩
        rw [List.head?_append, ho.2]
        rfl

theorem split_inside {c : Char} {t : Text} (h : ¬ (c = '*' ∧ t.head? = some '/')) :
    splitColonFrom true (c :: t) = (splitColonFrom true t).map fun s => (c :: s.1, s.2) := by
  rw [splitColonFrom.eq_def]
  split <;> simp_all

theorem split_outside {c : Char} {t : Text} (hc : c ≠ ':') (h : ¬ (c = '/' ∧ t.head? = some '*')) :
    splitColonFrom false (c :: t) = (splitColonFrom false t).map fun s => (c :: s.1, s.2) := by
  rw [splitColonFrom.eq_def]
  split <;> simp_all

theorem split_body (body t : Text) (h : body.isCommentBody = true) :
    splitColonFrom true (body ++ '*' :: '/' :: t) =
      (splitColonFrom false t).map fun s => (body ++ '*' :: '/' :: s.1, s.2) := by
  induction body with
  | nil => simp [splitColonFrom]
  | cons c body ih =>
    obtain ⟨hbody, hinside⟩ := Text.comment_goes_on h t
    rw [List.cons_append, split_inside hinside, ih hbody]
    simp [Function.comp_def]

theorem split_comment (body t : Text) (h : body.isCommentBody = true) :
    splitColonFrom false (commentText body ++ t) =
      (splitColonFrom false t).map fun s => (commentText body ++ s.1, s.2) := by
  have hopen : splitColonFrom false (commentText body ++ t) =
      (splitColonFrom true (body ++ '*' :: '/' :: t)).map fun s => ('/' :: '*' :: s.1, s.2) := by
    simp [commentText, splitColonFrom]
  rw [hopen, split_body body t h]
  simp [commentText, Function.comp_def]

theorem split_unclosed {body : Text} (h : body.isCommentBody = true) :
    splitColonFrom false ('/' :: '*' :: body) = none := by
  have hbody : splitColonFrom true body = none := by
    induction body with
    | nil => rfl
    | cons c body ih =>
      obtain ⟨hbody, hc⟩ := Text.comment_body_cons.mp h
      rw [split_inside hc, ih hbody]
      rfl
  simp [splitColonFrom, hbody]

theorem Colonless.split {head : Text} (h : Colonless head) {w : Text} (hw : w.head? ≠ some '*') :
    splitColonFrom false (head ++ w) =
      (splitColonFrom false w).map fun s => (head ++ s.1, s.2) := by
  induction h with
  | nil => simp
  | comment hb h ih =>
    rw [List.append_assoc, split_comment _ _ hb, ih]
    simp [Function.comp_def]
  | @character c t hc ho h ih =>
    have hopen : ¬ (c = '/' ∧ (t ++ w).head? = some '*') := by
      cases t with
      | nil => simp [hw]
      | cons d t => simpa using ho
    rw [List.cons_append, split_outside hc hopen, ih]
    simp [Function.comp_def]

theorem Colonless.split_colon {head : Text} (h : Colonless head) (tail : Text) :
    splitColon (head ++ ':' :: tail) = some (head, tail) := by
  rw [splitColon, h.split (by simp)]
  simp [splitColonFrom]

/-- The colon that is found is the first one outside comments. -/
theorem split_colon_iff {t head tail : Text} : splitColon t = some (head, tail) ↔
    t = head ++ ':' :: tail ∧ Colonless head := by
  constructor
  · intro h
    obtain ⟨front, w, rfl, hfront, hw⟩ := colonless_to_stop t
    rw [splitColon, hfront.split hw.head] at h
    cases hw with
    | finish => cases h
    | colon back =>
      obtain ⟨rfl, rfl⟩ : front = head ∧ back = tail := by simpa [splitColonFrom] using h
      exact ⟨rfl, hfront⟩
    | unclosed hb => simp [split_unclosed hb] at h
  · rintro ⟨rfl, h⟩
    exact h.split_colon tail

theorem split_none_iff {t : Text} : splitColon t = none ↔ Colonless t ∨
    ∃ head body : Text, t = head ++ '/' :: '*' :: body ∧ Colonless head ∧ body.isCommentBody = true := by
  constructor
  · intro h
    obtain ⟨front, w, rfl, hfront, hw⟩ := colonless_to_stop t
    cases hw with
    | finish => exact .inl (by simpa using hfront)
    | colon back => simp [hfront.split_colon] at h
    | @unclosed body hb => exact .inr ⟨front, body, rfl, hfront, hb⟩
  · rintro (h | ⟨head, body, rfl, h, hb⟩)
    · have hnil := h.split Stop.finish.head
      rwa [List.append_nil] at hnil
    · rw [splitColon, h.split (Stop.unclosed hb).head, split_unclosed hb]
      rfl

theorem Colonless.blank {u t : Text} (hu : u.all isBlank = true) (h : Colonless t) :
    Colonless (u ++ t) := by
  induction u with
  | nil => exact h
  | cons c u ih =>
    rw [List.all_cons, Bool.and_eq_true] at hu
    have hne : ∀ d, isBlank d = false → c ≠ d := by
      rintro d hd rfl
      simp [hd] at hu
    exact .character (hne ':' (by decide)) (fun ho => hne '/' (by decide) ho.1) (ih hu.2)

theorem colonless_of_trivia {ts rest : List Token} (h : Trivia ts rest) (hr : rest ≠ []) :
    Colonless (Token.textOf ts) := by
  induction ts with
  | nil => exact .nil
  | cons t ts ih =>
    rw [Token.text_of_cons]
    rcases h.head with ⟨hs, -⟩ | ⟨-, hc⟩
    · exact (ih h.tail).blank (blank_of_all_space hs)
    · obtain ⟨body, hb, ht⟩ := hc (by simp [hr])
      rw [ht]
      exact .comment hb (ih h.tail)

/-! ## What is left -/

theorem split_lexed {before after rest : List Token}
    (hb : Trivia before (⟨.colon, [':']⟩ :: (after ++ rest))) :
    splitColon (Token.textOf (before ++ ⟨.colon, [':']⟩ :: after)) =
      some (Token.textOf before, Token.textOf after) := by
  rw [Token.text_of_append, Token.text_of_cons]
  exact (colonless_of_trivia hb (by simp)).split_colon _

theorem plain_lexed {before after rest : List Token}
    (hb : Trivia before (⟨.colon, [':']⟩ :: (after ++ rest))) (ha : Trivia after rest) :
    ∃ head tail : Text, head.all isSpace = true ∧ tail.all isSpace = true ∧
      plain (Token.textOf (before ++ ⟨.colon, [':']⟩ :: after)) = head ++ ':' :: tail := by
  rw [plain, split_lexed hb]
  refine ⟨_, _, ?_, ha.leading_space, rfl⟩
  split
  · rename_i h
    exact hb.space_of_blank h
  · rfl

theorem plain_spaced {head tail : Text} (hh : head.all isBlank = true) (ht : tail.all isBlank = true) :
    plain (head ++ ':' :: tail) = head ++ ':' :: tail := by
  have htail : tail.leadingBlanks = tail :=
    List.takeWhile_eq_self_iff.mpr (List.all_eq_true.mp ht)
  have hsplit : splitColon (head ++ ':' :: tail) = some (head, tail) := by
    simpa using (Colonless.nil.blank hh).split_colon tail
  simp [plain, hsplit, hh, htail]

/-- Whatever the separator is, white space around a colon is left. -/
theorem plain_shape (separator : Text) : ∃ head tail : Text, head.all isBlank = true ∧
    tail.all isBlank = true ∧ plain separator = head ++ ':' :: tail := by
  cases h : splitColon separator with
  | none => exact ⟨[], [' '], rfl, by decide, by simp [plain, h]⟩
  | some s =>
    refine ⟨if s.1.all isBlank then s.1 else [], s.2.leadingBlanks, ?_, List.all_takeWhile, ?_⟩
    · split
      · assumption
      · rfl
    · simp [plain, h]

theorem plain_plain (separator : Text) : plain (plain separator) = plain separator := by
  obtain ⟨head, tail, hh, ht, hplain⟩ := plain_shape separator
  rw [hplain, plain_spaced hh ht]

theorem slash_not_mem_plain (separator : Text) : '/' ∉ plain separator := by
  obtain ⟨head, tail, hh, ht, hplain⟩ := plain_shape separator
  have hslash : ∀ {u : Text}, u.all isBlank = true → '/' ∉ u := by
    intro u hu hm
    exact absurd (List.all_eq_true.mp hu _ hm) (by decide)
  rw [hplain, List.mem_append, List.mem_cons]
  rintro (hm | hm | hm)
  · exact hslash hh hm
  · cases hm
  · exact hslash ht hm

end Separator

end CssFallback
