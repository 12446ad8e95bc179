import CssFallback.Token.Basic
import CssFallback.Token.Character

/-!
# Splitting a text into tokens

`lex` reads a text character by character. Its tokens join back into the text
(`text_of_lex`), and none of them is empty (`text_ne_nil_of_mem_lex`).
-/

set_option autoImplicit false

namespace CssFallback

/-!
## Tokens in the making

A lexeme is the state of a token of which at least one character has been read.
`Lexeme.start` begins one, `Lexeme.step` takes one more character or says that the token
has ended in front of it. Both see the characters that follow, because a few decisions
need them; no decision looks past a closing brace.
-/

inductive NameUse where
  | ident
  | atKeyword
  | hash
  | unit
  deriving DecidableEq, Repr

/-- Where a number stands: in its integral part, its fraction, right after the letter of
its exponent, or in the exponent. -/
inductive NumberPart where
  | whole
  | fraction
  | mark
  | exponent
  deriving DecidableEq, Repr

inductive UrlPart where
  | lead
  | body (escape : Escape)
  | trail
  /-- Malformed: all is taken up to a closing parenthesis. -/
  | bad
  /-- Malformed, and the next character is escaped. -/
  | skip
  deriving DecidableEq, Repr

inductive Lexeme where
  | space
  | name (use : NameUse) (escape : Escape)
  | number (part : NumberPart)
  | quoted (quote : Char) (escape : Escape)
  /-- The slash that an asterisk follows. -/
  | slash
  | comment
  | url (part : UrlPart)
  /-- A token that ends after `left` more characters. -/
  | ending (left : Nat) (kind : Token.Kind)
  deriving DecidableEq, Repr

namespace Lexeme

def kind : Lexeme → Token.Kind
  | .space => .space
  | .name .ident _ => .ident
  | .name .atKeyword _ => .atKeyword
  | .name .hash _ => .hash
  | .name .unit _ => .number
  | .number _ => .number
  | .quoted _ _ => .quoted
  | .slash => .comment
  | .comment => .comment
  | .url _ => .url
  | .ending _ kind => kind

def nameFrom (use : NameUse) (c : Char) : Lexeme :=
  .name use (if c = '\\' then .opened else .none)

/-- A parenthesis right after a name: it opens a url without quotes if the name is `url`
and no quote follows, and arguments otherwise. -/
def parenthesis (name rest : Text) : Lexeme :=
  if name.unescape.sameIgnoringCase "url".toList && !rest.startsQuote then .url .lead
  else .ending 0 .function

def urlCharacter (c : Char) (rest : Text) : Lexeme :=
  if c = ')' then .ending 0 .url
  else if isSpace c then .url .trail
  else if isNonPrintable c || c == '"' || c == '\'' || c == '(' then .url .bad
  else if c = '\\' then .url (if rest.startsNewline then .bad else .body .opened)
  else .url (.body .none)

def urlStep : UrlPart → Char → Text → Lexeme
  | .lead, c, rest => if isSpace c then .url .lead else urlCharacter c rest
  | .body e, c, rest =>
    match e.step c rest with
    | some next => .url (.body next)
    | none => urlCharacter c rest
  | .trail, c, _ =>
    if isSpace c then .url .trail else if c = ')' then .ending 0 .url else .url .bad
  | .bad, c, rest =>
    if c = ')' then .ending 0 .url
    else if c == '\\' && rest.head?.any (fun d => d == ')' || d == '\\') then .url .skip
    else .url .bad
  | .skip, _, _ => .url .bad

def numberStep (part : NumberPart) (c : Char) (rest : Text) : Option Lexeme :=
  if part = .mark then some (.number .exponent)
  else if c.isDigit then some (.number part)
  else if part = .whole ∧ c = '.' ∧ rest.startsDigit then some (.number .fraction)
  else if part ≠ .exponent ∧ (c = 'e' ∨ c = 'E') ∧ rest.startsExponent then
    some (.number .mark)
  else if c = '%' then some (.ending 0 .number)
  else if Text.startsName (c :: rest) then some (nameFrom .unit c)
  else none

/-- The state after one more character `c`, or nothing if the token has ended in front
of it. The characters read so far are given latest first. -/
def step : Lexeme → Text → Char → Text → Option Lexeme
  | .space, _, c, _ => if isSpace c then some .space else none
  | .name use e, read, c, rest =>
    match e.step c rest with
    | some next => some (.name use next)
    | none =>
      if isNameCharacter c then some (.name use .none)
      else if c = '\\' ∧ ¬ rest.startsNewline then some (.name use .opened)
      else if use = .ident ∧ c = '(' then some (parenthesis read.reverse rest)
      else none
  | .number part, _, c, rest => numberStep part c rest
  | .quoted quote e, _, c, rest =>
    match e.step c rest with
    | some next => some (.quoted quote next)
    | none =>
      if c = quote then some (.ending 0 .quoted)
      else if isNewline c then none
      else some (.quoted quote (if c = '\\' then .opened else .none))
  | .slash, _, _, _ => some .comment
  | .comment, _, c, rest =>
    if c = '*' ∧ rest.head? = some '/' then some (.ending 1 .comment) else some .comment
  | .url part, _, c, rest => some (urlStep part c rest)
  | .ending 0 _, _, _, _ => none
  | .ending (left + 1) kind, _, _, _ => some (.ending left kind)

def startMark (c : Char) (rest : Text) : Lexeme :=
  match c with
  | '"' => .quoted '"' .none
  | '\'' => .quoted '\'' .none
  | '#' =>
    if rest.startsName || rest.startsDigit || rest.head? == some '-' then .name .hash .none
    else .ending 0 .delim
  | '@' => if rest.startsName then .name .atKeyword .none else .ending 0 .delim
  | '/' => if rest.head? = some '*' then .slash else .ending 0 .delim
  | '<' => if "!--".toList.isPrefixOf rest then .ending 3 .cdo else .ending 0 .delim
  | ':' => .ending 0 .colon
  | ';' => .ending 0 .semicolon
  | ',' => .ending 0 .comma
  | '(' => .ending 0 (.opening .paren)
  | '[' => .ending 0 (.opening .square)
  | '\x7b' => .ending 0 (.opening .curly)
  | ')' => .ending 0 (.closing .paren)
  | ']' => .ending 0 (.closing .square)
  | '\x7d' => .ending 0 (.closing .curly)
  | _ =>
    if "$*^|~".toList.contains c && rest.head? == some '=' then .ending 1 .matcher
    else .ending 0 .delim

def start (c : Char) (rest : Text) : Lexeme :=
  if isSpace c then .space
  else if Text.startsNumber (c :: rest) then .number (if c = '.' then .fraction else .whole)
  else if c = '-' ∧ "->".toList.isPrefixOf rest then .ending 2 .cdc
  else if Text.startsName (c :: rest) then nameFrom .ident c
  else startMark c rest

end Lexeme

/-! ## The tokens of a text -/

namespace Lexeme

/-- The tokens of what is left of a text, of whose first token the characters `read`,
latest first, are known. -/
def tokens : Lexeme → Text → Text → List Token
  | lexeme, read, [] => [⟨lexeme.kind, read.reverse⟩]
  | lexeme, read, c :: rest =>
    match lexeme.step read c rest with
    | some next => tokens next (c :: read) rest
    | none => ⟨lexeme.kind, read.reverse⟩ :: tokens (start c rest) [c] rest

end Lexeme

def lex : Text → List Token
  | [] => []
  | c :: rest => (Lexeme.start c rest).tokens [c] rest

namespace Lexeme

theorem text_of_tokens (lexeme : Lexeme) (read t : Text) :
    Token.textOf (lexeme.tokens read t) = read.reverse ++ t := by
  induction t generalizing lexeme read with
  | nil => simp [tokens, Token.textOf]
  | cons c rest ih =>
    rw [tokens]
    split
    · simp [ih]
    · rename_i h
      simpa [Token.textOf] using ih (start c rest) [c]

theorem text_ne_nil_of_mem_tokens (lexeme : Lexeme) (read t : Text) (hr : read ≠ []) :
    ∀ token ∈ lexeme.tokens read t, token.text ≠ [] := by
  induction t generalizing lexeme read with
  | nil => simp [tokens, hr]
  | cons c rest ih =>
    rw [tokens]
    split
    · exact ih _ _ (by simp)
    · intro token h
      rcases List.mem_cons.mp h with rfl | h
      · simp [hr]
      · exact ih _ _ (by simp) token h

end Lexeme

theorem text_of_lex (t : Text) : Token.textOf (lex t) = t := by
  cases t with
  | nil => rfl
  | cons c rest => simp [lex, Lexeme.text_of_tokens]

theorem text_ne_nil_of_mem_lex (t : Text) : ∀ token ∈ lex t, token.text ≠ [] := by
  cases t with
  | nil => simp [lex]
  | cons c rest => exact Lexeme.text_ne_nil_of_mem_tokens _ _ _ (by simp)

end CssFallback
