import CssFallback.Proofs.Declaration.Separator
import CssFallback.Proofs.Stylesheet.Body

/-!
# The colon of a declaration

A separator can be searched for its colon by byte positions, from one colon or slash to the
next and over whole comments. Each of the positions lies between two characters, and the
search ends with the first colon outside comments. In a source that is the token that
makes an item a declaration.
-/

set_option autoImplicit false

namespace CssFallback

/-! ## Texts by position -/

namespace Text

/-- The byte position from which on a text passes a test for the first time. -/
def firstPlace? (test : Text → Bool) : Text → Option Nat
  | [] => none
  | c :: rest => if test (c :: rest) then some 0 else (firstPlace? test rest).map (c.utf8Size + ·)

end Text

namespace Separator

/-! ## The search -/

def startsMark : Text → Bool
  | c :: _ => c == ':' || c == '/'
  | [] => false

def startsClose (t : Text) : Bool := "*/".toList.isPrefixOf t

/-- What a round of the search comes to: an end, with the position of the colon if there is
one, or the position of the next round. -/
inductive Round where
  | done (colon : Option Nat)
  | again (position : Nat)
  deriving DecidableEq, Repr

def turn (position : Nat) : Text → Round
  | ':' :: _ => .done (some position)
  | '/' :: '*' :: comment =>
    match Text.firstPlace? startsClose comment with
    | some length => .again (position + 2 + length + 2)
    | none => .done none
  | _ => .again (position + 1)

/-- One round of the search from a position on, unless it cuts the text inside a character. -/
def round (t : Text) (position : Nat) : Option Round :=
  match t.from? position with
  | none => none
  | some rest =>
    match Text.firstPlace? startsMark rest with
    | none => some (.done none)
    | some skipped => (t.from? (position + skipped)).map (turn (position + skipped))

/-- The search comes to an end with a result, without ever cutting inside a character. -/
inductive Searches (t : Text) : Nat → Option Nat → Prop
  | done {position : Nat} {colon : Option Nat} (h : round t position = some (.done colon)) :
      Searches t position colon
  | again {position next : Nat} {colon : Option Nat} (h : round t position = some (.again next))
      (hn : Searches t next colon) : Searches t position colon

theorem round_from (front back : Text) : round (front ++ back) front.byteSize =
    match Text.firstPlace? startsMark back with
    | none => some (.done none)
    | some skipped =>
      (Text.from? (front.byteSize + skipped) (front ++ back)).map (turn (front.byteSize + skipped)) := by
  rw [round, Text.from_byte_size]

section
variable {front back : Text}

theorem round_mark (h : startsMark back = true) :
    round (front ++ back) front.byteSize = some (turn front.byteSize back) := by
  have hplace : Text.firstPlace? startsMark back = some 0 := by
    cases back with
    | nil => cases h
    | cons c back => rw [Text.firstPlace?, if_pos h]
  rw [round_from, hplace]
  simp only [Nat.add_zero, Text.from_byte_size, Option.map_some]

theorem size_snoc (front : Text) (c : Char) : (front ++ [c]).byteSize = front.byteSize + c.utf8Size := by
  simp [Text.byte_size_append, Text.byteSize]

theorem round_skip {c : Char} (h : startsMark (c :: back) = false) :
    round (front ++ c :: back) front.byteSize = round (front ++ c :: back) (front ++ [c]).byteSize := by
  have hplace : Text.firstPlace? startsMark (c :: back) =
      (Text.firstPlace? startsMark back).map (c.utf8Size + ·) := by
    rw [Text.firstPlace?, if_neg (by simp [h])]
  have hbehind := round_from (front ++ [c]) back
  rw [List.append_assoc, List.singleton_append, size_snoc] at hbehind
  rw [round_from, hplace, size_snoc, hbehind]
  cases Text.firstPlace? startsMark back with
  | none => rfl
  | some skipped => simp only [Option.map_some, Nat.add_assoc]

theorem searches_skip {c : Char} {colon : Option Nat} (h : startsMark (c :: back) = false)
    (hs : Searches (front ++ c :: back) (front ++ [c]).byteSize colon) :
    Searches (front ++ c :: back) front.byteSize colon := by
  cases hs with
  | done ho => exact .done ((round_skip h).trans ho)
  | again ha hn => exact .again ((round_skip h).trans ha) hn

end

/-! ## Its end -/

theorem close_iff {c : Char} {t : Text} :
    startsClose (c :: t) = true ↔ c = '*' ∧ t.head? = some '/' := by
  cases t <;> simp [startsClose, List.isPrefixOf, eq_comm (a := '*'), eq_comm (a := '/')]

theorem first_close {body : Text} (rest : Text) (h : body.isCommentBody = true) :
    Text.firstPlace? startsClose (body ++ '*' :: '/' :: rest) = some body.byteSize := by
  induction body with
  | nil => rfl
  | cons c body ih =>
    obtain ⟨hbody, hc⟩ := Text.comment_goes_on h rest
    rw [List.cons_append, Text.firstPlace?, if_neg (close_iff.not.mpr hc), ih hbody]
    rfl

theorem no_close {body : Text} (h : body.isCommentBody = true) :
    Text.firstPlace? startsClose body = none := by
  induction body with
  | nil => rfl
  | cons c body ih =>
    obtain ⟨hbody, hc⟩ := Text.comment_body_cons.mp h
    rw [Text.firstPlace?, if_neg (close_iff.not.mpr hc), ih hbody]
    rfl

theorem size_comment (front body : Text) :
    (front ++ commentText body).byteSize = front.byteSize + 2 + body.byteSize + 2 := by
  have hmark : Char.utf8Size '/' = 1 ∧ Char.utf8Size '*' = 1 := by decide
  simp only [commentText, Text.byte_size_append, Text.byteSize, hmark]
  omega

theorem round_comment (front rest : Text) {body : Text} (h : body.isCommentBody = true) :
    round (front ++ (commentText body ++ rest)) front.byteSize =
      some (.again (front ++ commentText body).byteSize) := by
  have hturn : turn front.byteSize (commentText body ++ rest) =
      .again (front.byteSize + 2 + body.byteSize + 2) := by
    simp [commentText, turn, first_close rest h]
  rw [round_mark rfl, hturn, size_comment]

theorem round_slash (front : Text) {rest : Text} (h : rest.head? ≠ some '*') :
    round (front ++ '/' :: rest) front.byteSize = some (.again (front ++ ['/']).byteSize) := by
  have hturn : turn front.byteSize ('/' :: rest) = .again (front.byteSize + 1) := by
    rw [turn.eq_def]
    split <;> simp_all
  rw [round_mark rfl, hturn, size_snoc]
  rfl

theorem Colonless.searches {head w : Text} (h : Colonless head) (hw : w.head? ≠ some '*')
    (front : Text) {colon : Option Nat}
    (hs : Searches (front ++ (head ++ w)) (front ++ head).byteSize colon) :
    Searches (front ++ (head ++ w)) front.byteSize colon := by
  induction h generalizing front with
  | nil => simpa using hs
  | @comment body t hb h ih =>
    have hround := round_comment front (t ++ w) hb
    have hrest := ih (front ++ commentText body)
    simp only [List.append_assoc] at hs hround hrest ⊢
    exact .again hround (hrest hs)
  | @character c t hc ho h ih =>
    have hrest := ih (front ++ [c])
    simp only [List.append_assoc, List.cons_append] at hs hrest ⊢
    -- a slash takes a round of its own, any other character is skipped within one
    by_cases hslash : c = '/'
    · subst hslash
      have hnext : (t ++ w).head? ≠ some '*' := by
        cases t with
        | nil => exact hw
        | cons d t => simpa using ho
      exact .again (round_slash front hnext) (hrest hs)
    · exact searches_skip (by simp [startsMark, hc, hslash]) (hrest hs)

theorem Stop.searches {w : Text} (h : Stop w) (front : Text) :
    Searches (front ++ w) front.byteSize ((splitColonFrom false w).map fun s =>
      front.byteSize + s.1.byteSize) := by
  cases h with
  | finish => exact .done (round_from front [])
  | colon tail => exact .done (round_mark rfl)
  | unclosed hb =>
    rw [split_unclosed hb]
    refine .done (round_mark rfl |>.trans ?_)
    simp [turn, no_close hb]

/-- The search finds the colon at which a separator is split. -/
theorem searches_split (t : Text) : Searches t 0 ((splitColon t).map fun s => s.1.byteSize) := by
  obtain ⟨head, w, rfl, hhead, hw⟩ := colonless_to_stop t
  rw [splitColon, hhead.split hw.head, Option.map_map]
  refine hhead.searches hw.head [] ?_
  have hend := hw.searches head
  simpa [Function.comp_def, Text.byte_size_append] using hend

theorem Searches.unique {t : Text} {position : Nat} {colon colon' : Option Nat}
    (h : Searches t position colon) (h' : Searches t position colon') : colon = colon' := by
  induction h with
  | done ho =>
    cases h' with
    | done ho' => exact Round.done.inj (Option.some.inj (ho.symm.trans ho'))
    | again ha' _ => cases ho.symm.trans ha'
  | again ha _ ih =>
    cases h' with
    | done ho' => cases ha.symm.trans ho'
    | again ha' hn' =>
      obtain rfl := Round.again.inj (Option.some.inj (ha.symm.trans ha'))
      exact ih hn'

theorem searches_iff {t : Text} {colon : Option Nat} :
    Searches t 0 colon ↔ colon = (splitColon t).map fun s => s.1.byteSize :=
  ⟨fun h => h.unique (searches_split t), fun h => h ▸ searches_split t⟩

example : round "é/*:*/:".toList 0 = some (.again 7) ∧ round "é".toList 1 = none := by decide

/-- How a text is searched for its colon, and what is left of it. -/
structure Cleaned (t : Text) : Prop where
  searches : ∀ colon, Searches t 0 colon ↔ colon = (splitColon t).map fun s => s.1.byteSize
  found : ∀ head tail, splitColon t = some (head, tail) ↔ t = head ++ ':' :: tail ∧ Colonless head
  missing : splitColon t = none ↔ Colonless t ∨
    ∃ head body : Text, t = head ++ '/' :: '*' :: body ∧ Colonless head ∧ body.isCommentBody = true
  shape : ∃ head tail : Text, head.all isBlank = true ∧ tail.all isBlank = true ∧
    plain t = head ++ ':' :: tail
  uncommented : ¬ "/*".toList <:+: plain t
  settled : plain (plain t) = plain t

theorem cleaned (t : Text) : Cleaned t := by
  refine ⟨fun _ => searches_iff, fun _ _ => split_colon_iff, split_none_iff, plain_shape t, ?_,
    plain_plain t⟩
  intro h
  exact slash_not_mem_plain t (h.subset (by simp))

end Separator

/-! ## In a source -/

/-- The tokens of a source at a declaration: its name, trivia, the colon, trivia, and a
rest that does not start with trivia. -/
structure Declaration.Divides (css : Text) (front : List Token) (name : Token)
    (before after rest : List Token) (d : Declaration) : Prop where
  tokens : lex css = front ++ name :: (before ++ ⟨.colon, [':']⟩ :: (after ++ rest))
  place : d.place = some (Token.sizeOf front)
  named : name.kind = .ident ∧ name.text = d.property
  trivia : ∀ t ∈ before ++ after, t.isTrivia = true
  value : ∀ t, rest.head? = some t → t.isTrivia = false
  separator : d.separator = Token.textOf (before ++ ⟨.colon, [':']⟩ :: after)

namespace Declaration.Divides
variable {css : Text} {front before after rest : List Token} {name : Token} {d : Declaration}
  (h : d.Divides css front name before after rest)
include h

theorem before_colon : Trivia before (⟨.colon, [':']⟩ :: (after ++ rest)) :=
  ⟨lex_tail (lex_suffix h.tokens), fun t ht => h.trivia t (by simp [ht])⟩

theorem behind_colon : Trivia after rest :=
  ⟨lex_tail (lex_suffix h.before_colon.lexed), fun t ht => h.trivia t (by simp [ht])⟩

theorem split_colon : Separator.splitColon d.separator =
    some (Token.textOf before, Token.textOf after) := by
  rw [h.separator, Separator.split_lexed h.before_colon]

theorem value_off_space : (Token.textOf rest).StartsOff isSpace := by
  cases rest with
  | nil => exact Text.starts_off_nil _
  | cons t rest =>
    refine lex_off_space (lex_suffix h.behind_colon.lexed) fun hk => ?_
    simpa [Token.isTrivia, hk] using h.value t rfl

/-- The blanks behind the colon are the white space that stands there in the source. -/
theorem blanks_behind : (Token.textOf after).leadingBlanks =
    (Token.textOf (after ++ rest)).takeWhile isSpace := by
  rw [h.behind_colon.leading_blanks, Token.text_of_append, h.value_off_space.take_while_append]

end Declaration.Divides

theorem Anchor.divides {css : Text} {rules : List Rule} {p : Nat} {d : Declaration}
    (a : Anchor css rules p d) : ∃ before after, d.Divides css a.front a.name before after
      (a.body.reverse ++ (a.trail.reverse ++ a.back)) := by
  obtain ⟨before, after, hsep, hbefore, hafter⟩ := a.separator_parts
  refine ⟨before, after, ?_, by rw [a.size_front, a.place], ⟨a.is_name, a.property_text.symm⟩,
    fun t ht => ?_, fun t ht => ?_, by rw [a.separator_text, hsep]⟩
  · rw [a.lexed, a.middle_tokens, hsep]
    simp
  · rcases List.mem_append.mp ht with ht | ht
    · exact hbefore.trivia t ht
    · exact hafter.trivia t ht
  · by_cases hbody : a.body = []
    · -- what follows the trivia ends the declaration
      have htrail : a.trail = [] := a.begun_sound.1.2.2.1 hbody
      rw [hbody, htrail] at ht
      rcases a.ends with hend | ⟨-, u, more, hend, hu⟩
      · simp [hend] at ht
      · obtain rfl : u = t := by simpa [hend] using ht
        have hkind : u.kind = .semicolon ∨ u.kind = .closing .curly := by
          simpa [Token.endsItem] using hu
        rcases hkind with hk | hk <;> simp [Token.isTrivia, hk]
    · rw [List.head?_append_of_ne_nil _ (by simpa using hbody)] at ht
      exact a.body_first t ht

/-- The colon of a text is its first one outside comments, and what is left of the text is
white space around it. The colon of a declaration is the token that makes it one, with all
white space behind it, and with what stands in front of it if that is white space. -/
theorem Separator.plain_around_colon : (∀ t, Separator.Cleaned t) ∧
    ∀ css s, Stylesheet.parse css = .ok s → ∀ d ∈ declarationsOf s.rules,
      ∃ front name before after rest, d.Divides css front name before after rest ∧
        Separator.splitColon d.separator = some (Token.textOf before, Token.textOf after) ∧
        ∃ lead trail : Text, Separator.plain d.separator = lead ++ ':' :: trail ∧
          lead = (if (Token.textOf before).all isBlank then Token.textOf before else []) ∧
          trail = (Token.textOf after).leadingBlanks ∧
          trail = (Token.textOf (after ++ rest)).takeWhile isSpace := by
  refine ⟨Separator.cleaned, fun css s h d hd => ?_⟩
  obtain ⟨p, hp⟩ := Option.isSome_iff_exists.mp (placed_parse h d hd)
  obtain ⟨a⟩ := anchored h hd hp
  obtain ⟨before, after, hdivides⟩ := a.divides
  have hsplit := hdivides.split_colon
  refine ⟨_, _, _, _, _, hdivides, hsplit, _, _, ?_, rfl, rfl, hdivides.blanks_behind⟩
  rw [Separator.plain, hsplit]

/-- The first comment hides a colon, and the second one ends the white space. -/
theorem Separator.plain_around_colon_hidden :
    Stylesheet.parse "a\x7bb/*:*/ : /**/ c\x7d".toList = .ok ⟨"a\x7bb/*:*/ : /**/ c\x7d".toList,
      [⟨['a'], [⟨['b'], ['c'], false, [], "/*:*/ : /**/ ".toList, some 2⟩], 17⟩]⟩ ∧
    Separator.plain "/*:*/ : /**/ ".toList = [':', ' '] ∧
    ∃ front name before after rest, Declaration.Divides "a\x7bb/*:*/ : /**/ c\x7d".toList front name
      before after rest ⟨['b'], ['c'], false, [], "/*:*/ : /**/ ".toList, some 2⟩ ∧
      Token.textOf before = "/*:*/ ".toList ∧ Token.textOf after = " /**/ ".toList ∧
      (Token.textOf (after ++ rest)).takeWhile isSpace = [' '] := by
  have hparse : Stylesheet.parse "a\x7bb/*:*/ : /**/ c\x7d".toList = .ok
      ⟨"a\x7bb/*:*/ : /**/ c\x7d".toList,
        [⟨['a'], [⟨['b'], ['c'], false, [], "/*:*/ : /**/ ".toList, some 2⟩], 17⟩]⟩ := rfl
  obtain ⟨front, name, before, after, rest, hdivides, hsplit, lead, trail, -, -, htrail, hspace⟩ :=
    Separator.plain_around_colon.2 _ _ hparse _ (List.mem_singleton.mpr rfl)
  have hparts : Separator.splitColon "/*:*/ : /**/ ".toList =
      some ("/*:*/ ".toList, " /**/ ".toList) := by decide
  obtain ⟨hbefore, hafter⟩ := Prod.mk.inj (Option.some.inj (hparts.symm.trans hsplit))
  refine ⟨hparse, by decide, front, name, before, after, rest, hdivides, hbefore.symm, hafter.symm, ?_⟩
  rw [← hspace, htrail, ← hafter]
  decide

end CssFallback
