import CssFallback.Proofs.Token.Pieces

/-!
# Looking ahead

Some decisions of the lexer depend on characters behind the one that it reads. Few
characters matter there, other than as the start of a name. Two texts that begin with none
of these, and both with a name or both without one, lead to the same decisions in front of
them.
-/

set_option autoImplicit false

namespace CssFallback

/-- A character that a look-ahead tells from others, whether or not they start a name. -/
def isTelling (c : Char) : Bool := isSpace c || c.isDigit || "\"'\\)*+-./=!>".toList.contains c

/-- Texts whose first characters no look-ahead tells apart. -/
structure LooksLike (s t : Text) : Prop where
  left : s.StartsOff isTelling
  right : t.StartsOff isTelling
  name : s.head?.any isNameStart = t.head?.any isNameStart

theorem telling_of_newline {c : Char} (h : isNewline c = true) : isTelling c = true := by
  simp [isTelling, isSpace, h]

theorem telling_of_digit {c : Char} (h : c.isDigit = true) : isTelling c = true := by
  simp [isTelling, h]

theorem telling_of_space {c : Char} (h : isSpace c = true) : isTelling c = true := by
  simp [isTelling, h]

/-! ## In front of a text that tells nothing -/

namespace Text
variable {s : Text} (h : s.StartsOff isTelling)
include h

theorem head_off {p : Char → Bool} (hp : ∀ c, p c = true → isTelling c = true) :
    s.head?.any p = false := by
  cases s with
  | nil => rfl
  | cons c s =>
    cases hc : p c with
    | false => exact hc
    | true => exact absurd (hp c hc) (by simp [h c rfl])

theorem head_ne_off {c d : Char} (hc : s.head? = some c) (hd : isTelling d = true) : c ≠ d :=
  (ne_of_class hd (h c hc)).symm

theorem digit_off : s.startsDigit = false := head_off h fun _ => telling_of_digit

theorem unsigned_off : s.startsUnsigned = false := by
  cases s with
  | nil => rfl
  | cons c s =>
    have hdigit : c.isDigit = false := digit_off h
    simp [startsUnsigned, hdigit, head_ne_off (d := '.') h rfl rfl]

theorem number_off : s.startsNumber = false := by
  cases s with
  | nil => rfl
  | cons c s =>
    simp [startsNumber, unsigned_off h, head_ne_off (d := '+') h rfl rfl,
      head_ne_off (d := '-') h rfl rfl]

theorem exponent_off : s.startsExponent = false := by
  cases s with
  | nil => rfl
  | cons c s =>
    have hdigit : c.isDigit = false := digit_off h
    simp [startsExponent, hdigit, head_ne_off (d := '+') h rfl rfl,
      head_ne_off (d := '-') h rfl rfl]

theorem name_off : s.startsName = s.head?.any isNameStart := by
  cases s with
  | nil => rfl
  | cons c s =>
    simp [startsName, head_ne_off (d := '-') h rfl rfl, head_ne_off (d := '\\') h rfl rfl]

theorem quote_off : s.startsQuote = false := by
  cases s with
  | nil => rfl
  | cons c s =>
    have hspace : isSpace c = false := by
      cases hc : isSpace c with
      | false => rfl
      | true => exact absurd (telling_of_space hc) (by simp [h c rfl])
    simp [startsQuote, hspace, head_ne_off (d := '"') h rfl rfl, head_ne_off (d := '\'') h rfl rfl]

theorem prefix_off {d : Char} {m : Text} (hd : isTelling d = true) :
    (d :: m).isPrefixOf s = false := by
  cases s with
  | nil => rfl
  | cons c s => simp [List.isPrefixOf, (head_ne_off h rfl hd).symm]

end Text

/-! ## Behind a text -/

namespace LooksLike
variable {s t : Text} (h : LooksLike s t) (w : Text)
include h

theorem head_any {p : Char → Bool} (hp : ∀ c, p c = true → isTelling c = true) :
    (w ++ s).head?.any p = (w ++ t).head?.any p := by
  cases w with
  | nil => exact (Text.head_off h.left hp).trans (Text.head_off h.right hp).symm
  | cons a w => rfl

theorem head_beq {d : Char} (hd : isTelling d = true) :
    ((w ++ s).head? == some d) = ((w ++ t).head? == some d) := by
  have hany : ∀ u : Text, (u.head? == some d) = u.head?.any (· == d) := by
    intro u
    cases u <;> simp
  rw [hany, hany]
  exact h.head_any w fun c hc => by rwa [beq_iff_eq.mp hc]

theorem head_eq {d : Char} (hd : isTelling d = true) :
    (w ++ s).head? = some d ↔ (w ++ t).head? = some d := by
  rw [← beq_iff_eq, h.head_beq w hd, beq_iff_eq]

theorem newline : Text.startsNewline (w ++ s) = Text.startsNewline (w ++ t) :=
  h.head_any w fun _ => telling_of_newline

theorem digit : Text.startsDigit (w ++ s) = Text.startsDigit (w ++ t) :=
  h.head_any w fun _ => telling_of_digit

theorem unsigned : Text.startsUnsigned (w ++ s) = Text.startsUnsigned (w ++ t) := by
  cases w with
  | nil => exact (Text.unsigned_off h.left).trans (Text.unsigned_off h.right).symm
  | cons a w => simp [Text.startsUnsigned, h.digit w]

theorem number : Text.startsNumber (w ++ s) = Text.startsNumber (w ++ t) := by
  cases w with
  | nil => exact (Text.number_off h.left).trans (Text.number_off h.right).symm
  | cons a w =>
    have hunsigned := h.unsigned (a :: w)
    rw [List.cons_append, List.cons_append] at hunsigned
    simp [Text.startsNumber, hunsigned, h.unsigned w]

theorem exponent : Text.startsExponent (w ++ s) = Text.startsExponent (w ++ t) := by
  cases w with
  | nil => exact (Text.exponent_off h.left).trans (Text.exponent_off h.right).symm
  | cons a w => simp [Text.startsExponent, h.digit w]

theorem name_start : Text.startsName (w ++ s) = Text.startsName (w ++ t) := by
  cases w with
  | nil => rw [List.nil_append, List.nil_append, Text.name_off h.left, Text.name_off h.right, h.name]
  | cons a w =>
    by_cases ha : a = '-'
    · subst ha
      cases w with
      | nil =>
        -- the second character of a name may be a hyphen or a backslash too
        have hdash : ∀ u : Text, u.StartsOff isTelling →
            Text.startsName ('-' :: u) = u.head?.any isNameStart := by
          intro u hu
          cases u with
          | nil => rfl
          | cons c u =>
            have hhyphen : (c == '-') = false := beq_false_of_ne (Text.head_ne_off hu rfl rfl)
            have hslash : (c == '\\') = false := beq_false_of_ne (Text.head_ne_off hu rfl rfl)
            simp [Text.startsName, hhyphen, hslash]
        exact (hdash s h.left).trans (h.name.trans (hdash t h.right).symm)
      | cons b w => rfl
    · simp [Text.startsName, h.newline w]

theorem quote : Text.startsQuote (w ++ s) = Text.startsQuote (w ++ t) := by
  induction w with
  | nil => exact (Text.quote_off h.left).trans (Text.quote_off h.right).symm
  | cons a w ih =>
    by_cases ha : isSpace a = true
    · simpa [Text.startsQuote, ha] using ih
    · simp [Text.startsQuote, ha]

theorem mark {m : Text} (hm : m.all isTelling = true) :
    m.isPrefixOf (w ++ s) = m.isPrefixOf (w ++ t) := by
  induction m generalizing w with
  | nil => rfl
  | cons d m ih =>
    simp only [List.all_cons, Bool.and_eq_true] at hm
    cases w with
    | nil => exact (Text.prefix_off h.left hm.1).trans (Text.prefix_off h.right hm.1).symm
    | cons a w => simp only [List.cons_append, List.isPrefixOf, ih w hm.2]

/-! ## Steps of the lexer -/

theorem escape_step (e : Escape) (a : Char) : e.step a (w ++ s) = e.step a (w ++ t) := by
  cases e <;> simp only [Escape.step, Escape.afterSpace, h.head_beq w (d := '\n') rfl]

theorem url_step (part : UrlPart) (a : Char) :
    Lexeme.urlStep part a (w ++ s) = Lexeme.urlStep part a (w ++ t) := by
  have hbad : (w ++ s).head?.any (fun d => d == ')' || d == '\\') =
      (w ++ t).head?.any fun d => d == ')' || d == '\\' := by
    refine h.head_any w fun c hc => ?_
    simp only [Bool.or_eq_true, beq_iff_eq] at hc
    rcases hc with rfl | rfl <;> rfl
  cases part <;>
    simp only [Lexeme.urlStep, Lexeme.urlCharacter, h.newline w, hbad, h.escape_step w]

theorem step (l : Lexeme) (read : Text) (a : Char) :
    l.step read a (w ++ s) = l.step read a (w ++ t) := by
  have hname := h.name_start (a :: w)
  rw [List.cons_append, List.cons_append] at hname
  cases l with
  | ending left kind => cases left <;> rfl
  | _ => simp only [Lexeme.step, Lexeme.numberStep, Lexeme.parenthesis, h.newline w, h.digit w,
      h.exponent w, hname, h.quote w, h.escape_step w, h.url_step w, h.head_eq w (d := '/') rfl]

theorem start (a : Char) : Lexeme.start a (w ++ s) = Lexeme.start a (w ++ t) := by
  have hname := h.name_start (a :: w)
  have hnumber := h.number (a :: w)
  rw [List.cons_append, List.cons_append] at hname hnumber
  have hmark : Lexeme.startMark a (w ++ s) = Lexeme.startMark a (w ++ t) := by
    simp only [Lexeme.startMark.eq_def, h.name_start w, h.digit w,
      h.mark w (m := "!--".toList) rfl, h.head_beq w (d := '-') rfl, h.head_eq w (d := '*') rfl,
      h.head_beq w (d := '=') rfl]
  simp only [Lexeme.start, hnumber, h.mark w (m := "->".toList) rfl, hname, hmark]

end LooksLike

end CssFallback
