import CssFallback.Text.Basic

/-!
# Character classes of a stylesheet

Letters and digits are ASCII ones. Every character outside ASCII belongs to names, and
so does the null character. What starts a name or a number is decided by up to three
characters.
-/

set_option autoImplicit false

namespace CssFallback

/-- White space between tokens: narrower than `isBlank`. -/
def isSpace (c : Char) : Bool := c == ' ' || c == '\t' || isNewline c

def isHexDigit (c : Char) : Bool :=
  c.isDigit || ('a' ≤ c && c ≤ 'f') || ('A' ≤ c && c ≤ 'F')

def hexValue (c : Char) : Nat :=
  if c.isDigit then c.toNat - '0'.toNat
  else if 'a' ≤ c then c.toNat - 'a'.toNat + 10
  else c.toNat - 'A'.toNat + 10

def isNameStart (c : Char) : Bool :=
  c.isAlpha || c == '_' || c == '\x00' || 128 ≤ c.toNat

def isNameCharacter (c : Char) : Bool := isNameStart c || c.isDigit || c == '-'

def isNonPrintable (c : Char) : Bool :=
  (1 ≤ c.toNat && c.toNat ≤ 8) || c.toNat == 0xB || (0xE ≤ c.toNat && c.toNat ≤ 0x1F) ||
    c.toNat == 0x7F

namespace Text

/-- A backslash starts an escape unless a newline follows. After a hyphen it always
counts as the start of a name; the name then ends in front of it if it is no escape. -/
def startsName : Text → Bool
  | [] => false
  | '-' :: rest =>
    match rest with
    | [] => false
    | c :: _ => isNameStart c || c == '-' || c == '\\'
  | c :: rest => isNameStart c || (c == '\\' && !startsNewline rest)

def startsDigit (t : Text) : Bool := t.head?.any Char.isDigit

def startsUnsigned : Text → Bool
  | [] => false
  | c :: rest => c.isDigit || (c == '.' && startsDigit rest)

def startsNumber : Text → Bool
  | [] => false
  | c :: rest => startsUnsigned (c :: rest) || ((c == '+' || c == '-') && startsUnsigned rest)

def startsExponent : Text → Bool
  | [] => false
  | c :: rest => c.isDigit || ((c == '+' || c == '-') && startsDigit rest)

def startsQuote (t : Text) : Bool :=
  (t.dropWhile isSpace).head?.any fun c => c == '"' || c == '\''

end Text

/-!
## Escapes

A backslash takes the next character as it is. If that is a hexadecimal digit, up to
six of them give a code point, and one white space after them belongs to the escape.
`Escape.step` reads an escape one character at a time; `unescape` gives the text that
is meant.
-/

inductive Escape where
  | none
  /-- The backslash. -/
  | opened
  /-- Digits of the given value, of which `left` more may follow. -/
  | digits (value left : Nat)
  /-- A carriage return at the end of the escape, with a line feed to follow. -/
  | carriage
  deriving DecidableEq, Repr

namespace Escape

def afterSpace (c : Char) (rest : Text) : Escape :=
  if c == '\r' && rest.head? == some '\n' then .carriage else .none

/-- The state after a character of the escape, or nothing if the escape has ended in
front of it. -/
def step : Escape → Char → Text → Option Escape
  | .none, _, _ => Option.none
  | .opened, c, rest =>
    if isHexDigit c then some (.digits (hexValue c) 5)
    else if isNewline c then some (afterSpace c rest)
    else some .none
  | .digits value left, c, rest =>
    if isHexDigit c && left != 0 then some (.digits (16 * value + hexValue c) (left - 1))
    else if isSpace c then some (afterSpace c rest)
    else Option.none
  | .carriage, _, _ => some .none

/-- The character of a code point. Zero, surrogates and numbers that are no code point
give the replacement character. -/
def character (value : Nat) : Char :=
  if value ≠ 0 ∧ value.isValidChar then Char.ofNat value else '\uFFFD'

def meaning : Escape → Text
  | .none => []
  | .opened => ['\uFFFD']
  | .digits value _ => [character value]
  | .carriage => []

def unescapeFrom : Escape → Text → Text
  | e, [] => e.meaning
  | e, c :: rest =>
    match e.step c rest with
    | some (.digits value left) => unescapeFrom (.digits value left) rest
    | some next => (if e = .opened then [c] else e.meaning) ++ unescapeFrom next rest
    | Option.none =>
      e.meaning ++
        if c = '\\' then unescapeFrom .opened rest
        else (if c = '\x00' then '\uFFFD' else c) :: unescapeFrom .none rest

end Escape

def Text.unescape (t : Text) : Text := Escape.unescapeFrom .none t

end CssFallback
