import CssFallback.Text.Basic

/-!
# Tokens

A token of a stylesheet keeps its source text, and the tokens of a source join back
into it. The text is all that a token carries: what a name or a number stands for is
read off it where it matters.
-/

set_option autoImplicit false

namespace CssFallback

inductive Bracket where
  | paren
  | square
  | curly
  deriving DecidableEq, Repr

inductive Token.Kind where
  | space
  | comment
  | ident
  /-- A name and the parenthesis that opens its arguments. -/
  | function
  | atKeyword
  | hash
  | quoted
  /-- A whole `url(...)` without quotes, malformed ones included. -/
  | url
  /-- A number with its percent sign or unit. -/
  | number
  | cdo
  | cdc
  | colon
  | semicolon
  | comma
  /-- A match operator of an attribute selector, such as `~=`. -/
  | matcher
  | delim
  | opening (bracket : Bracket)
  | closing (bracket : Bracket)
  deriving DecidableEq, Repr

structure Token where
  kind : Token.Kind
  text : Text
  deriving DecidableEq, Repr

namespace Token

/-- White space and comments separate tokens and mean nothing by themselves. -/
def isTrivia (t : Token) : Bool := t.kind == .space || t.kind == .comment

def opens? (t : Token) : Option Bracket :=
  match t.kind with
  | .function => some .paren
  | .opening b => some b
  | _ => none

def closes? (t : Token) : Option Bracket :=
  match t.kind with
  | .closing b => some b
  | _ => none

def textOf (ts : List Token) : Text := ts.flatMap text

theorem text_of_append (s t : List Token) : textOf (s ++ t) = textOf s ++ textOf t :=
  List.flatMap_append

end Token

/-!
## Open brackets

The brackets open at a place, innermost first. A closer closes the innermost open
bracket if it is of the same sort, and otherwise means nothing.
-/

abbrev Nesting := List Bracket

namespace Nesting

def close (b : Bracket) : Nesting → Nesting
  | [] => []
  | a :: outer => if a = b then outer else a :: outer

def step (open_ : Nesting) (t : Token) : Nesting :=
  match t.opens? with
  | some b => b :: open_
  | none =>
    match t.closes? with
    | some b => close b open_
    | none => open_

def after (open_ : Nesting) (ts : List Token) : Nesting := ts.foldl step open_

theorem after_append (open_ : Nesting) (s t : List Token) :
    after open_ (s ++ t) = after (after open_ s) t :=
  List.foldl_append

end Nesting

end CssFallback
