import CssFallback.Token.Lexer

/-!
# Pieces of a text

`Splits u ts rest` says that in front of `rest` the text `u` gives the tokens `ts`, and
that `rest` is split as if it stood alone. Such statements are put together piece by
piece. A piece is read with the actual text behind it, because a name, a number or white
space would go on into it.
-/

set_option autoImplicit false

namespace CssFallback

theorem Token.text_of_cons (t : Token) (ts : List Token) :
    Token.textOf (t :: ts) = t.text ++ Token.textOf ts := rfl

def Splits (u : Text) (ts : List Token) (rest : Text) : Prop := lex (u ++ rest) = ts ++ lex rest

def Text.StartsOff (p : Char → Bool) (t : Text) : Prop := ∀ c, t.head? = some c → p c = false

namespace Text

theorem starts_off_nil (p : Char → Bool) : StartsOff p [] := by simp [StartsOff]

theorem starts_off_cons {p : Char → Bool} {c : Char} (t : Text) (h : p c = false) :
    StartsOff p (c :: t) := by
  simpa [StartsOff] using h

theorem starts_off_append {p : Char → Bool} {s : Text} (t : Text) (hs : s ≠ []) :
    StartsOff p (s ++ t) ↔ StartsOff p s := by
  obtain ⟨c, s, rfl⟩ := List.exists_cons_of_ne_nil hs
  simp [StartsOff]

theorem StartsOff.mono {p q : Char → Bool} {t : Text} (h : t.StartsOff p)
    (hpq : ∀ c, p c = false → q c = false) : t.StartsOff q := fun c hc => hpq c (h c hc)

theorem StartsOff.take_while_append {p : Char → Bool} {t : Text} (h : t.StartsOff p) (s : Text) :
    (s ++ t).takeWhile p = s.takeWhile p := by
  induction s with
  | nil =>
    cases t with
    | nil => rfl
    | cons c t => exact List.takeWhile_cons_of_neg (by simp [h c rfl])
  | cons c s ih => rw [List.cons_append, List.takeWhile_cons, List.takeWhile_cons, ih]

end Text

namespace Splits

theorem nil (rest : Text) : Splits [] [] rest := rfl

theorem append {u v rest : Text} {ts us : List Token} (hu : Splits u ts (v ++ rest))
    (hv : Splits v us rest) : Splits (u ++ v) (ts ++ us) rest := by
  rw [Splits] at *
  rw [List.append_assoc, hu, hv, List.append_assoc]

theorem text_of {u rest : Text} {ts : List Token} (h : Splits u ts rest) : Token.textOf ts = u := by
  have := congrArg Token.textOf h
  simpa [Token.text_of_append, text_of_lex] using this.symm

end Splits

namespace Lexeme

/-- The lexeme ends in front of a text. -/
def EndsAt (l : Lexeme) (read rest : Text) : Prop := ∀ c t, rest = c :: t → l.step read c t = none

theorem tokens_end {l : Lexeme} {read rest : Text} (h : l.EndsAt read rest) :
    l.tokens read rest = ⟨l.kind, read.reverse⟩ :: lex rest := by
  cases rest with
  | nil => rfl
  | cons c t => rw [tokens, h c t rfl, lex]

theorem tokens_ending (kind : Token.Kind) (read rest : Text) :
    (ending 0 kind).tokens read rest = ⟨kind, read.reverse⟩ :: lex rest :=
  tokens_end fun _ _ _ => rfl

theorem tokens_step {l : Lexeme} (next : Lexeme) {read : Text} {c : Char} {rest : Text}
    (h : l.step read c rest = some next) :
    l.tokens read (c :: rest) = next.tokens (c :: read) rest := by
  rw [tokens, h]

theorem tokens_space (sp read rest : Text) (hs : sp.all isSpace = true)
    (hr : rest.StartsOff isSpace) :
    space.tokens read (sp ++ rest) = ⟨.space, read.reverse ++ sp⟩ :: lex rest := by
  induction sp generalizing read with
  | nil =>
    rw [List.nil_append, List.append_nil]
    apply tokens_end
    intro c t hc
    have : isSpace c = false := hr c (by simp [hc])
    simp [step, this]
  | cons c sp ih =>
    simp only [List.all_cons, Bool.and_eq_true] at hs
    rw [List.cons_append, tokens_step space (by simp [step, hs.1]), ih _ hs.2]
    simp

end Lexeme

namespace Splits

theorem of_start {c : Char} {kind : Token.Kind} {rest : Text}
    (h : Lexeme.start c rest = .ending 0 kind) : Splits [c] [⟨kind, [c]⟩] rest := by
  rw [Splits, List.singleton_append, lex, h, Lexeme.tokens_ending]
  rfl

theorem space {sp rest : Text} (hne : sp ≠ []) (hs : sp.all isSpace = true)
    (hr : rest.StartsOff isSpace) : Splits sp [⟨.space, sp⟩] rest := by
  obtain ⟨c, sp, rfl⟩ := List.exists_cons_of_ne_nil hne
  simp only [List.all_cons, Bool.and_eq_true] at hs
  rw [Splits, List.cons_append, lex, Lexeme.start, if_pos hs.1, Lexeme.tokens_space sp [c] rest hs.2 hr]
  rfl

end Splits

def spaceTokens (sp : Text) : List Token := if sp = [] then [] else [⟨.space, sp⟩]

theorem trivia_of_mem_space_tokens {sp : Text} {t : Token} (h : t ∈ spaceTokens sp) :
    t.isTrivia = true := by
  by_cases hsp : sp = []
  · simp [spaceTokens, hsp] at h
  · obtain rfl : t = ⟨.space, sp⟩ := by simpa [spaceTokens, hsp] using h
    rfl

theorem Splits.spaces {sp rest : Text} (hs : sp.all isSpace = true)
    (hr : rest.StartsOff isSpace) : Splits sp (spaceTokens sp) rest := by
  by_cases hsp : sp = []
  · subst hsp
    exact Splits.nil rest
  · simpa [spaceTokens, hsp] using Splits.space hsp hs hr

/-! ## Comments -/

def Text.isCommentBody : Text → Bool
  | [] => true
  | '*' :: '/' :: _ => false
  | _ :: rest => isCommentBody rest

def commentText (body : Text) : Text := '/' :: '*' :: (body ++ ['*', '/'])

theorem Text.comment_body_cons {c : Char} {body : Text} :
    Text.isCommentBody (c :: body) = true ↔
      Text.isCommentBody body = true ∧ ¬ (c = '*' ∧ body.head? = some '/') := by
  rw [isCommentBody.eq_def (c :: body)]
  split
  · contradiction
  · rename_i heq
    obtain ⟨rfl, rfl⟩ := List.cons.inj heq
    simp
  · rename_i d rest hd heq
    obtain ⟨rfl, rfl⟩ := List.cons.inj heq
    refine ⟨fun h => ⟨h, fun hc => ?_⟩, fun h => h.1⟩
    obtain ⟨rfl, hb⟩ := hc
    obtain ⟨r, hr⟩ := List.head?_eq_some_iff.mp hb
    exact hd r rfl hr

theorem Text.comment_goes_on {c : Char} {body : Text} (h : Text.isCommentBody (c :: body) = true)
    (rest : Text) : Text.isCommentBody body = true ∧
      ¬ (c = '*' ∧ (body ++ '*' :: '/' :: rest).head? = some '/') := by
  obtain ⟨hbody, hc⟩ := comment_body_cons.mp h
  refine ⟨hbody, ?_⟩
  cases body with
  | nil => simp
  | cons d body => simpa using hc

namespace Lexeme

theorem tokens_comment_body (body read rest : Text) (hb : body.isCommentBody = true) :
    comment.tokens read (body ++ '*' :: '/' :: rest) =
      ⟨.comment, read.reverse ++ body ++ ['*', '/']⟩ :: lex rest := by
  induction body generalizing read with
  | nil =>
    rw [List.nil_append, tokens_step (ending 1 .comment) (by simp [step]),
      tokens_step (ending 0 .comment) (by simp [step]), tokens_ending]
    simp
  | cons c body ih =>
    obtain ⟨htail, hc⟩ := Text.comment_goes_on hb rest
    have hstep : comment.step read c (body ++ '*' :: '/' :: rest) = some comment := by
      simp only [step, if_neg hc]
    rw [List.cons_append, tokens_step _ hstep, ih _ htail]
    simp

end Lexeme

theorem Splits.comment {body : Text} (rest : Text) (hb : body.isCommentBody = true) :
    Splits (commentText body) [⟨.comment, commentText body⟩] rest := by
  have hstart : Lexeme.start '/' ('*' :: (body ++ ['*', '/'] ++ rest)) = .slash := by
    rfl
  rw [Splits, commentText, List.cons_append, lex, List.cons_append, hstart,
    Lexeme.tokens_step .comment (by simp [Lexeme.step]), List.append_assoc]
  simpa using Lexeme.tokens_comment_body body ['*', '/'] rest hb

/-! ## Names -/

theorem ne_of_class {p : Char → Bool} {c d : Char} (h : p c = true) (hd : p d = false) : c ≠ d := by
  rintro rfl
  simp [h] at hd

theorem alpha_cases {c : Char} (h : c.isAlpha = true) :
    65 ≤ c.toNat ∧ c.toNat ≤ 90 ∨ 97 ≤ c.toNat ∧ c.toNat ≤ 122 := by
  have hrange : (decide (65 ≤ c.val ∧ c.val ≤ 90) || (decide (97 ≤ c.val) && decide (c.val ≤ 122))) =
      true := h
  simp only [Bool.or_eq_true, Bool.and_eq_true, decide_eq_true_eq, UInt32.le_iff_toNat_le] at hrange
  exact hrange

theorem digit_cases {c : Char} (h : c.isDigit = true) : 48 ≤ c.toNat ∧ c.toNat ≤ 57 := by
  have hrange : (decide (48 ≤ c.val) && decide (c.val ≤ 57)) = true := h
  simp only [Bool.and_eq_true, decide_eq_true_eq, UInt32.le_iff_toNat_le] at hrange
  exact hrange

theorem digit_of_alpha {c : Char} (h : c.isAlpha = true) : c.isDigit = false := by
  have ha := alpha_cases h
  cases hd : c.isDigit with
  | false => rfl
  | true =>
    have := digit_cases hd
    omega

theorem alpha_or_lower (c : Char) : c.isAlpha = true ∨ c.toLower = c := by
  by_cases hu : c.isUpper = true
  · left
    show (c.isUpper || c.isLower) = true
    rw [hu, Bool.true_or]
  · exact .inr (dif_neg fun h => hu (decide_eq_true h))

theorem alpha_of_lower {c : Char} (h : c.toLower.isAlpha = true) : c.isAlpha = true := by
  rcases alpha_or_lower c with ha | hl
  · exact ha
  · rwa [hl] at h

theorem space_of_alpha {c : Char} (h : c.isAlpha = true) : isSpace c = false := by
  simp [isSpace, isNewline, ne_of_class h]

theorem Lexeme.start_alpha {c : Char} (rest : Text) (h : c.isAlpha = true) :
    start c rest = .name .ident .none := by
  simp [start, space_of_alpha h, Text.startsNumber, Text.startsUnsigned, digit_of_alpha h,
    ne_of_class h, Text.startsName, isNameStart, h, nameFrom]

/-- A character that goes on or changes a name in front of it. -/
def extendsName (c : Char) : Bool := isNameCharacter c || c == '\\' || c == '('

theorem Lexeme.tokens_run (use : NameUse) (name read rest : Text)
    (hn : name.all isNameCharacter = true) :
    (Lexeme.name use .none).tokens read (name ++ rest) =
      (Lexeme.name use .none).tokens (name.reverse ++ read) rest := by
  induction name generalizing read with
  | nil => rfl
  | cons c name ih =>
    simp only [List.all_cons, Bool.and_eq_true] at hn
    rw [List.cons_append, tokens_step (.name use .none) (by simp [step, Escape.step, hn.1]),
      ih _ hn.2]
    simp

theorem Lexeme.tokens_name (use : NameUse) (name read rest : Text)
    (hn : name.all isNameCharacter = true) (hr : rest.StartsOff extendsName) :
    (Lexeme.name use .none).tokens read (name ++ rest) =
      ⟨(Lexeme.name use .none).kind, read.reverse ++ name⟩ :: lex rest := by
  have hend : (Lexeme.name use .none).EndsAt (name.reverse ++ read) rest := by
    intro c t hc
    have hx : extendsName c = false := hr c (by simp [hc])
    simp only [extendsName, Bool.or_eq_false_iff, beq_eq_false_iff_ne] at hx
    simp [step, Escape.step, hx]
  rw [tokens_run use name read rest hn, tokens_end hend]
  simp

theorem Splits.name {c : Char} {name rest : Text} (hc : c.isAlpha = true)
    (hn : name.all isNameCharacter = true) (hr : rest.StartsOff extendsName) :
    Splits (c :: name) [⟨.ident, c :: name⟩] rest := by
  rw [Splits, List.cons_append, lex, Lexeme.start_alpha _ hc, Lexeme.tokens_name .ident name [c] rest hn hr]
  rfl

def IsLetters (w : Text) : Prop := w ≠ [] ∧ w.all Char.isAlpha = true

theorem IsLetters.cons {w : Text} (h : IsLetters w) :
    ∃ c u, w = c :: u ∧ c.isAlpha = true ∧ u.all isNameCharacter = true := by
  obtain ⟨hne, hall⟩ := h
  obtain ⟨c, u, rfl⟩ := List.exists_cons_of_ne_nil hne
  simp only [List.all_cons, Bool.and_eq_true, List.all_eq_true] at hall
  refine ⟨c, u, rfl, hall.1, List.all_eq_true.mpr fun d hd => ?_⟩
  simp [isNameCharacter, isNameStart, hall.2 d hd]

/-- A name without escapes. -/
def IsName (t : Text) : Prop := t.startsName = true ∧ t.all isNameCharacter = true

theorem space_of_name_character {c : Char} (h : isNameCharacter c = true) : isSpace c = false := by
  have hne : ∀ d, isNameCharacter d = false → c ≠ d := fun d hd => ne_of_class h hd
  simp [isSpace, isNewline, hne ' ' rfl, hne '\t' rfl, hne '\n' rfl, hne '\r' rfl, hne '\x0c' rfl]

theorem digit_of_name_start {c : Char} (h : isNameStart c = true) : c.isDigit = false := by
  cases hd : c.isDigit with
  | false => rfl
  | true =>
    have := digit_cases hd
    have ha : c.isAlpha = false := by
      cases ha : c.isAlpha with
      | false => rfl
      | true => simp [digit_of_alpha ha] at hd
    simp only [isNameStart, ha, Bool.false_or, Bool.or_eq_true, beq_iff_eq, decide_eq_true_eq] at h
    rcases h with (rfl | rfl) | h
    · cases hd
    · cases hd
    · omega

namespace IsName

theorem starts_off_space {t : Text} (h : IsName t) : t ≠ [] ∧ t.StartsOff isSpace := by
  obtain ⟨hs, hall⟩ := h
  cases t with
  | nil => cases hs
  | cons c t =>
    simp only [List.all_cons, Bool.and_eq_true] at hall
    exact ⟨by simp, Text.starts_off_cons _ (space_of_name_character hall.1)⟩

theorem of_alpha {c : Char} {t : Text} (hc : c.isAlpha = true) (ht : t.all isNameCharacter = true) :
    IsName (c :: t) := by
  have hstart : isNameStart c = true := by simp [isNameStart, hc]
  refine ⟨?_, by simp [isNameCharacter, hstart, ht]⟩
  rw [Text.startsName.eq_def]
  split <;> simp_all

theorem cases {c : Char} {t : Text} (h : IsName (c :: t)) : isNameStart c = true ∨
    c = '-' ∧ ∃ d u, t = d :: u ∧ (isNameStart d = true ∨ d = '-') := by
  obtain ⟨hs, hall⟩ := h
  rw [Text.startsName.eq_def] at hs
  split at hs
  · cases hs
  · rename_i rest heq
    obtain ⟨rfl, rfl⟩ := List.cons.inj heq
    cases t with
    | nil => cases hs
    | cons d u =>
      have hd : d ≠ '\\' := by
        rintro rfl
        simp [isNameCharacter, isNameStart] at hall
      refine .inr ⟨rfl, d, u, rfl, ?_⟩
      simpa [hd] using hs
  · rename_i heq
    obtain ⟨rfl, rfl⟩ := List.cons.inj heq
    have hc : c ≠ '\\' := by
      rintro rfl
      simp [isNameCharacter, isNameStart] at hall
    exact .inl (by simpa [hc] using hs)

theorem start {c : Char} {t rest : Text} (h : IsName (c :: t)) (hr : rest.head? ≠ some '>') :
    Lexeme.start c (t ++ rest) = .name .ident .none := by
  have hall : isNameCharacter c = true ∧ t.all isNameCharacter = true := by simpa using h.2
  rcases h.cases with hc | ⟨rfl, d, u, rfl, hd⟩
  · have hne : ∀ d, isNameStart d = false → c ≠ d := fun d hd => ne_of_class hc hd
    have hname : Text.startsName (c :: (t ++ rest)) = true := by
      rw [Text.startsName.eq_def]
      split
      · simp_all
      · rename_i heq
        exact absurd (List.cons.inj heq).1 (hne '-' rfl)
      · rename_i heq
        rw [← (List.cons.inj heq).1, hc, Bool.true_or]
    have hnumber : Text.startsNumber (c :: (t ++ rest)) = false := by
      simp [Text.startsNumber, Text.startsUnsigned, digit_of_name_start hc, hne '.' rfl, hne '+' rfl,
        hne '-' rfl]
    simp [Lexeme.start, space_of_name_character hall.1, hnumber, hname, Lexeme.nameFrom, hne '-' rfl,
      hne '\\' rfl]
  · have hdigit : d.isDigit = false ∧ d ≠ '.' := by
      rcases hd with hd | rfl
      · exact ⟨digit_of_name_start hd, ne_of_class hd rfl⟩
      · decide
    have hclose : ¬ ['>'] <+: u ++ rest := by
      rintro ⟨v, hv⟩
      cases u with
      | nil =>
        apply hr
        rw [← List.nil_append rest, ← hv]
        rfl
      | cons e u =>
        obtain ⟨rfl, -⟩ := List.cons.inj hv
        simp [isNameCharacter, isNameStart] at hall
    have hname : Text.startsName ('-' :: d :: (u ++ rest)) = true := by
      rcases hd with hd | rfl <;> simp [Text.startsName, *]
    rw [List.cons_append, Lexeme.start, if_neg (by decide), if_neg (by
      simp [Text.startsNumber, Text.startsUnsigned, hdigit]), if_neg (by simp [hclose]), if_pos hname]
    rfl

theorem splits {t rest : Text} (h : IsName t) (hr : rest.StartsOff extendsName)
    (hg : rest.head? ≠ some '>') : Splits t [⟨.ident, t⟩] rest := by
  cases t with
  | nil => cases h.1
  | cons c t =>
    have hall : t.all isNameCharacter = true := by
      have := h.2
      simp only [List.all_cons, Bool.and_eq_true] at this
      exact this.2
    rw [Splits, List.cons_append, lex, h.start hg, Lexeme.tokens_name .ident t [c] rest hall hr]
    rfl

end IsName

theorem Splits.at_keyword {c : Char} {name rest : Text} (hc : c.isAlpha = true)
    (hn : name.all isNameCharacter = true) (hr : rest.StartsOff extendsName) :
    Splits ('@' :: c :: name) [⟨.atKeyword, '@' :: c :: name⟩] rest := by
  have hname : Text.startsName (c :: (name ++ rest)) = true := by
    simp [Text.startsName, isNameStart, hc, ne_of_class hc]
  have hstart : Lexeme.start '@' (c :: (name ++ rest)) = .name .atKeyword .none := by
    rw [show Lexeme.start '@' (c :: (name ++ rest)) = if Text.startsName (c :: (name ++ rest)) then
      .name .atKeyword .none else .ending 0 .delim from rfl, if_pos hname]
  have hall : (c :: name).all isNameCharacter = true := by
    simp [isNameCharacter, isNameStart, hc, hn]
  rw [Splits, List.cons_append, List.cons_append, lex, hstart, ← List.cons_append,
    Lexeme.tokens_name .atKeyword (c :: name) ['@'] rest hall hr]
  rfl

theorem unescape_plain {name : Text} (h : ∀ c ∈ name, c ≠ '\\' ∧ c ≠ '\x00') : name.unescape = name := by
  rw [Text.unescape]
  induction name with
  | nil => rfl
  | cons c name ih =>
    have hc := h c (by simp)
    simp [Escape.unescapeFrom, Escape.step, Escape.meaning, hc.1, hc.2,
      ih fun d hd => h d (by simp [hd])]

end CssFallback
