import CssFallback.Declaration
import CssFallback.Token.Basic

/-!
# Stylesheets

A stylesheet is its source and the rules found in it. A rule is a block of declarations
with the text that introduces it; the rules nested in a block are rules of their own and
follow it.
-/

set_option autoImplicit false

namespace CssFallback

structure Rule where
  /-- The selector, or the at-rule up to its block. -/
  selector : Text
  declarations : Declarations
  /-- The byte position where the contents of the block end. -/
  stop : Nat
  deriving DecidableEq, Repr

structure Stylesheet where
  source : Text
  rules : List Rule
  deriving DecidableEq, Repr

/-- A closing brace at top level. Its line is a number of any size; where lines are counted
in 32 bits, this leaves out sources of `2 ^ 32` lines and more. -/
structure StrayBrace where
  line : Nat
  deriving DecidableEq, Repr

namespace StrayBrace

def message (e : StrayBrace) : Text :=
  "Parse error at line ".toList ++ (Nat.toDigits 10 e.line) ++ ": unexpected `\x7d`".toList

end StrayBrace

namespace Stylesheet

def totalDeclarations (s : Stylesheet) : Nat :=
  (s.rules.flatMap fun r => r.declarations).length

end Stylesheet

/-!
## Items of a block

The contents of a block of declarations are items: declarations, nested rules, and what
is neither. An item is read token by token. It is a declaration if it starts with a name
and a colon, and a nested rule if a brace opens in it that is no part of a value. Tokens
are kept latest first.
-/

inductive Item where
  | none
  /-- A name at a byte position, and trivia. -/
  | name (start : Nat) (property : Token) (after : List Token)
  /-- A name, a separator, the value up to its last token that is not trivia, and the
  trivia after it. The value starts with a token that is not trivia. -/
  | value (start : Nat) (property : Token) (separator body trail : List Token)
  | other (tokens : List Token)
  deriving Repr

namespace Item

def tokens : Item → List Token
  | .none => []
  | .name _ property after => after ++ [property]
  | .value _ property separator body trail => trail ++ body ++ separator ++ [property]
  | .other tokens => tokens

/-- The value of a custom property may hold braces. -/
def isCustomValue : Item → Bool
  | .value _ property _ _ _ => "--".toList.isPrefixOf property.text
  | _ => false

def push (position : Nat) : Item → Token → Item
  | .none, t => if t.kind = .ident then .name position t [] else .other [t]
  | .name start property after, t =>
    if t.isTrivia then .name start property (t :: after)
    else if t.kind = .colon then .value start property (t :: after) [] []
    else .other (t :: (after ++ [property]))
  | .value start property separator body trail, t =>
    if t.isTrivia then
      if body = [] then .value start property (t :: (trail ++ separator)) [] []
      else .value start property separator body (t :: trail)
    else .value start property separator (t :: (trail ++ body)) []
  | .other tokens, t => .other (t :: tokens)

def pushInside : Item → Token → Item
  | .value start property separator body trail, t =>
    .value start property separator (t :: (trail ++ body)) []
  | item, t => .other (t :: item.tokens)

/-- The declaration that a whole item is, where `gap` stands between the item and the one
in front of it. -/
def declaration? (gap : List Token) : Item → Option Declaration
  | .value start property separator body _ =>
    let raw := Importance.split (Token.textOf body.reverse)
    some ⟨property.text, raw.1, raw.2, (Token.textOf gap.reverse).trailingBlanks,
      Token.textOf separator.reverse, some start⟩
  | _ => Option.none

theorem tokens_push (position : Nat) (item : Item) (t : Token) :
    (item.push position t).tokens = t :: item.tokens := by
  cases item with
  | none => rw [push]; split <;> rfl
  | name start property after =>
    rw [push]
    split
    · rfl
    · split <;> rfl
  | value start property separator body trail =>
    rw [push]
    split
    · split
      · rename_i h
        simp [tokens, h]
      · rfl
    · simp [tokens]
  | other tokens => rfl

end Item

end CssFallback
