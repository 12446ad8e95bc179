import Mathlib.Data.List.Forall2
import CssFallback.Proofs.Token.Shape

/-!
# Exchanging words

A word of letters may stand for another one wherever that is a token: the tokens around it
stay as they are. Where the two texts begin to differ, both have a letter, and no token that
ends in front of one letter goes on with another.
-/

set_option autoImplicit false

namespace CssFallback

/-- Texts that are the same up to a place where each of them has a letter, or altogether. -/
inductive SameToLetter : Text → Text → Prop where
  | same (t : Text) : SameToLetter t t
  | letter {a b : Char} (s t : Text) (ha : a.isAlpha = true) (hb : b.isAlpha = true) :
      SameToLetter (a :: s) (b :: t)
  | cons (c : Char) {s t : Text} (h : SameToLetter s t) : SameToLetter (c :: s) (c :: t)

/-- One of two tokens stands for the other: they are the same token, or words of letters. -/
inductive Exchange : Token → Token → Prop where
  | kept (x : Token) : Exchange x x
  | word {w w' : Text} (hw : IsLetters w) (hw' : IsLetters w') : Exchange ⟨.ident, w⟩ ⟨.ident, w'⟩

theorem telling_of_alpha {c : Char} (h : c.isAlpha = true) : isTelling c = false := by
  simp [isTelling, space_of_alpha h, digit_of_alpha h, ne_of_class h]

theorem LooksLike.letters {a b : Char} (s t : Text) (ha : a.isAlpha = true) (hb : b.isAlpha = true) :
    LooksLike (a :: s) (b :: t) :=
  ⟨Text.starts_off_cons s (telling_of_alpha ha), Text.starts_off_cons t (telling_of_alpha hb),
    by simp [isNameStart, ha, hb]⟩

namespace SameToLetter
variable {s t : Text}

theorem append (w : Text) (h : SameToLetter s t) : SameToLetter (w ++ s) (w ++ t) := by
  induction w with
  | nil => exact h
  | cons c w ih => exact .cons c ih

theorem cases (h : SameToLetter s t) :
    s = t ∨ ∃ w s' t', s = w ++ s' ∧ t = w ++ t' ∧ LooksLike s' t' := by
  induction h with
  | same t => exact .inl rfl
  | letter s t ha hb => exact .inr ⟨[], _, _, rfl, rfl, .letters s t ha hb⟩
  | cons c _ ih =>
    rcases ih with rfl | ⟨w, s', t', rfl, rfl, h⟩
    · exact .inl rfl
    · exact .inr ⟨c :: w, s', t', rfl, rfl, h⟩

theorem step (h : SameToLetter s t) (l : Lexeme) (read : Text) (c : Char) :
    l.step read c s = l.step read c t := by
  rcases h.cases with rfl | ⟨w, s', t', rfl, rfl, hlike⟩
  · rfl
  · exact hlike.step w l read c

theorem start (h : SameToLetter s t) (c : Char) : Lexeme.start c s = Lexeme.start c t := by
  rcases h.cases with rfl | ⟨w, s', t', rfl, rfl, hlike⟩
  · rfl
  · exact hlike.start w c

theorem of_exchange {xs xs' : List Token} (h : List.Forall₂ Exchange xs xs') :
    SameToLetter (Token.textOf xs) (Token.textOf xs') := by
  induction h with
  | nil => exact .same _
  | cons hx _ ih =>
    rw [Token.text_of_cons, Token.text_of_cons]
    cases hx with
    | kept => exact ih.append _
    | word hw hw' =>
      obtain ⟨a, u, rfl, ha, -⟩ := hw.cons
      obtain ⟨b, v, rfl, hb, -⟩ := hw'.cons
      exact .letter _ _ ha hb

end SameToLetter

namespace Lexeme
variable {l : Lexeme} {read s t : Text} {x : Token} {xs : List Token}

theorem step_letter {a b : Char} (ha : a.isAlpha = true) (hb : b.isAlpha = true)
    (h : l.step read a s = none) : l.step read b t = none := by
  have hname : isNameCharacter a = true := by simp [isNameCharacter, isNameStart, ha]
  have hstarts : Text.startsName (a :: s) = true := by
    simp [Text.startsName, isNameStart, ha, ne_of_class ha]
  have hline : isNewline a = false := by
    cases hn : isNewline a with
    | false => rfl
    | true => exact absurd (space_of_alpha ha) (by simp [isSpace, hn])
  cases l with
  | space => simp [step, space_of_alpha hb]
  | ending left kind =>
    cases left with
    | zero => rfl
    | succ left => cases h
  | name use e =>
    simp only [step, hname, if_true] at h
    split at h <;> cases h
  | number part =>
    simp only [step, numberStep, hstarts, if_true] at h
    (repeat' split at h) <;> cases h
  | quoted quote e =>
    simp only [step, hline, Bool.false_eq_true, if_false] at h
    (repeat' split at h) <;> cases h
  | comment =>
    simp only [step] at h
    split at h <;> cases h
  | _ => cases h

theorem EndsAt.same_to_letter (h : l.EndsAt read s) (hs : SameToLetter s t) : l.EndsAt read t := by
  intro c t' ht
  cases hs with
  | same => exact h c t' ht
  | letter s _ ha hb =>
    obtain ⟨rfl, rfl⟩ := List.cons.inj ht
    exact step_letter ha hb (h _ s rfl)
  | cons d hs =>
    obtain ⟨rfl, rfl⟩ := List.cons.inj ht
    rw [← hs.step l read d]
    exact h d _ rfl

theorem EndsAt.of_name (h : (name .ident .none).EndsAt read s) (read' : Text) :
    (name .ident .none).EndsAt read' s := by
  intro c s' hs
  have hstep := h c s' hs
  -- the letters tell a URL from a call, and an opening bracket goes on with either
  simp only [step] at hstep ⊢
  (repeat' split at hstep) <;> simp_all

theorem ends_of_text (h : l.tokens read s = x :: xs) (hx : x.text = read.reverse) :
    l.EndsAt read s := by
  rintro c s' rfl
  cases hstep : l.step read c s' with
  | none => rfl
  | some next =>
    rw [tokens_step next hstep] at h
    obtain ⟨more, hmore⟩ := head_text h
    rw [hx] at hmore
    simp at hmore

theorem tokens_kept {u : Text} (h : l.tokens read (u ++ s) = x :: xs)
    (hx : x.text = read.reverse ++ u) (hs : SameToLetter s t) :
    l.tokens read (u ++ t) = x :: lex t := by
  induction u generalizing l read with
  | nil =>
    rw [List.nil_append] at h ⊢
    have hend := ends_of_text h (by simpa using hx)
    rw [tokens_end hend] at h
    obtain ⟨rfl, -⟩ := List.cons.inj h
    exact tokens_end (hend.same_to_letter hs)
  | cons c u ih =>
    rw [List.cons_append, tokens] at h
    rw [List.cons_append, tokens, ← (hs.append u).step]
    cases hstep : l.step read c (u ++ s) with
    | some next =>
      rw [hstep] at h
      exact ih h (by simpa using hx)
    | none =>
      rw [hstep] at h
      obtain ⟨rfl, -⟩ := List.cons.inj h
      simp at hx

end Lexeme

namespace Splits
variable {xs : List Token} {t : Text} (hs : SameToLetter (Token.textOf xs) t)
include hs

theorem kept {x : Token} (h : lex (Token.textOf (x :: xs)) = x :: xs) : Splits x.text [x] t := by
  have hne : x.text ≠ [] := text_ne_nil_of_mem_lex _ x (by rw [h]; simp)
  obtain ⟨c, u, hx⟩ := List.exists_cons_of_ne_nil hne
  rw [Token.text_of_cons, hx, List.cons_append, lex] at h
  rw [Splits, hx, List.cons_append, lex, ← (hs.append u).start]
  exact Lexeme.tokens_kept h hx hs

theorem exchanged {w w' : Text} (hw : IsLetters w) (hw' : IsLetters w')
    (h : lex (Token.textOf (⟨.ident, w⟩ :: xs)) = ⟨.ident, w⟩ :: xs) :
    Splits w' [⟨.ident, w'⟩] t := by
  obtain ⟨a, u, rfl, ha, hu⟩ := hw.cons
  obtain ⟨b, v, rfl, hb, hv⟩ := hw'.cons
  rw [Token.text_of_cons, List.cons_append, lex, Lexeme.start_alpha _ ha, Lexeme.tokens_run _ u _ _ hu] at h
  have hend := (Lexeme.ends_of_text h (by simp)).same_to_letter hs
  rw [Splits, List.cons_append, lex, Lexeme.start_alpha _ hb, Lexeme.tokens_run _ v _ _ hv,
    Lexeme.tokens_end (hend.of_name _)]
  simp [Lexeme.kind]

end Splits

/-- Tokens of a text stay tokens of their text if words are exchanged among them. -/
theorem lex_exchange {ts ts' : List Token} (he : List.Forall₂ Exchange ts ts')
    (h : lex (Token.textOf ts) = ts) : lex (Token.textOf ts') = ts' := by
  induction he with
  | nil => rfl
  | @cons x x' xs xs' hx hxs ih =>
    have htail := ih (lex_tail h)
    have hsame := SameToLetter.of_exchange hxs
    have hfirst : Splits x'.text [x'] (Token.textOf xs') := by
      cases hx with
      | kept => exact Splits.kept hsame h
      | word hw hw' => exact Splits.exchanged hsame hw hw' h
    rw [Token.text_of_cons, hfirst, htail]
    rfl

end CssFallback
